import Mathlib.Algebra.Order.Field.Basic
import Mathlib.Data.Rat.Cast.Order
import Contur.SelectionOrder

/-!
# The order behind a policy

Each policy makes a key least, two numbers at the most, and decides between equal keys by
the smaller pid. Key and pid are a linear order, in which processes with different pids
are never equal. So the choice is the one least process of the queue, and the places of
the processes in the queue do not matter.
-/

namespace Contur
open Extremum

variable {queue queue' : List SchedulingProcessSnapshot}
  {choice : SchedulingProcessSnapshot}

def responseRatio (process : SchedulingProcessSnapshot) : ℚ :=
  (process.totalWaitTime + serviceTime process) / serviceTime process

namespace PolicyKind
variable (kind : PolicyKind)

/-- What the policy makes least: the arrival, the burst, the end of the last run, the urgency,
the response ratio from above, the level. -/
def key : PolicyKind → SchedulingProcessSnapshot → ℚ ×ₗ ℚ
  | .fcfs, process => toLex (process.arrivalTime, 0)
  | .spn, process => toLex (serviceTime process, 0)
  | .srt, process => toLex (remaining process, 0)
  | .roundRobin _, process => toLex (process.lastStateChange, 0)
  | .priority, process => toLex (process.effectivePriority, process.nice)
  | .hrrn, process => toLex (-responseRatio process, 0)
  | .hrrnDouble, process => toLex (-(doubleResponse process : ℚ), 0)
  | .mlfq levelTimeSlices, process =>
    toLex (priorityToLevel process (mlfqSlices levelTimeSlices).length, process.lastStateChange)

def rank (process : SchedulingProcessSnapshot) : (ℚ ×ₗ ℚ) ×ₗ ℕ :=
  toLex (kind.key process, process.pid)

/-- The process has the least rank of the queue, and no other process has it. -/
structure Optimum (queue : List SchedulingProcessSnapshot) (choice : SchedulingProcessSnapshot) :
    Prop where
  mem : choice ∈ queue
  lt : ∀ other ∈ queue, other ≠ choice → kind.rank choice < kind.rank other

theorem Optimum.unique {kind : PolicyKind} {other : SchedulingProcessSnapshot}
    (h : kind.Optimum queue choice) (hother : kind.Optimum queue other) : other = choice := by
  by_contra hne
  exact lt_asymm (h.lt other hother.mem hne) (hother.lt choice h.mem (Ne.symm hne))

theorem Optimum.perm {kind : PolicyKind} (h : kind.Optimum queue choice)
    (hperm : queue'.Perm queue) : kind.Optimum queue' choice :=
  ⟨hperm.mem_iff.mpr h.mem, fun other hother => h.lt other (hperm.mem_iff.mp hother)⟩

theorem rank_ne {a b : SchedulingProcessSnapshot} (h : a.pid ≠ b.pid) :
    kind.rank a ≠ kind.rank b := by
  intro heq
  apply h
  simpa [rank] using congrArg (fun r => (ofLex r).2) heq

end PolicyKind

theorem serviceTime_pos (process : SchedulingProcessSnapshot) : 0 < serviceTime process := by
  unfold serviceTime
  split_ifs with hburst
  · exact Nat.one_pos
  · exact Nat.pos_of_ne_zero hburst

theorem responseRatio_lt (a b : SchedulingProcessSnapshot) :
    responseRatio a < responseRatio b ↔
      (a.totalWaitTime + serviceTime a) * serviceTime b <
        (b.totalWaitTime + serviceTime b) * serviceTime a := by
  have ha : (0 : ℚ) < serviceTime a := Nat.cast_pos.mpr (serviceTime_pos a)
  have hb : (0 : ℚ) < serviceTime b := Nat.cast_pos.mpr (serviceTime_pos b)
  rw [responseRatio, responseRatio, div_lt_div_iff₀ ha hb]
  exact_mod_cast Iff.rfl

theorem lessResponse_eq :
    lessResponse = fun a b =>
      decide (toLex (-responseRatio b, b.pid) < toLex (-responseRatio a, a.pid)) := by
  funext a b
  rw [Bool.eq_iff_iff, decide_eq_true_iff, Prod.Lex.toLex_lt_toLex, neg_lt_neg_iff, neg_inj,
    responseRatio_lt]
  unfold lessResponse
  dsimp only
  split_ifs with hratio
  · have hne : responseRatio b ≠ responseRatio a := by
      intro heq
      rcases Nat.lt_or_gt_of_ne hratio with hlt | hgt
      · exact absurd heq (ne_of_gt ((responseRatio_lt a b).mpr hlt))
      · exact absurd heq (ne_of_lt ((responseRatio_lt b a).mpr hgt))
    simp [hne]
  · rw [not_not] at hratio
    have heq : responseRatio b = responseRatio a := by
      apply le_antisymm
      · exact not_lt.mp fun hlt => ne_of_lt ((responseRatio_lt a b).mp hlt) hratio
      · exact not_lt.mp fun hlt => ne_of_gt ((responseRatio_lt b a).mp hlt) hratio
    simp [hratio, heq]

theorem lessDoubleResponse_eq :
    lessDoubleResponse = fun a b =>
      decide (toLex (-(doubleResponse b : ℚ), b.pid) < toLex (-(doubleResponse a : ℚ), a.pid)) := by
  funext a b
  rw [Bool.eq_iff_iff, decide_eq_true_iff, Prod.Lex.toLex_lt_toLex, neg_lt_neg_iff, neg_inj,
    Nat.cast_lt, Nat.cast_inj]
  unfold lessDoubleResponse
  split_ifs with hratio
  · simp [Ne.symm hratio]
  · simp [not_not.mp hratio]

namespace PolicyKind

theorem rank_lt (kind : PolicyKind) (a b : SchedulingProcessSnapshot) :
    kind.rank a < kind.rank b ↔
      (ofLex (kind.key a)).1 < (ofLex (kind.key b)).1 ∨
        (ofLex (kind.key a)).1 = (ofLex (kind.key b)).1 ∧
          ((ofLex (kind.key a)).2 < (ofLex (kind.key b)).2 ∨
            (ofLex (kind.key a)).2 = (ofLex (kind.key b)).2 ∧ a.pid < b.pid) := by
  have hkey : kind.key a = kind.key b ↔
      (ofLex (kind.key a)).1 = (ofLex (kind.key b)).1 ∧
        (ofLex (kind.key a)).2 = (ofLex (kind.key b)).2 :=
    ofLex_inj.symm.trans Prod.ext_iff
  rw [rank, rank, Prod.Lex.toLex_lt_toLex, Prod.Lex.lt_iff, hkey]
  tauto

theorem lessBy_rank {kind : PolicyKind} {burst : SchedulingProcessSnapshot → ℕ}
    (hkey : ∀ process, kind.key process = toLex ((burst process : ℚ), 0)) :
    lessBy burst = fun a b => decide (kind.rank a < kind.rank b) := by
  rw [lessBy_eq]
  simp [rank_lt, hkey, Prod.Lex.toLex_lt_toLex]

theorem selectNext_eq (kind : PolicyKind) (queue : List SchedulingProcessSnapshot) (now : Tick) :
    kind.policy.selectNext queue now =
      selectMin (fun a b => decide (kind.rank a < kind.rank b)) queue := by
  cases kind with
  | fcfs => exact congrArg (selectMin · queue) (lessBy_rank fun _ => rfl)
  | spn => exact congrArg (selectMin · queue) (lessBy_rank fun _ => rfl)
  | srt => exact congrArg (selectMin · queue) (lessBy_rank fun _ => rfl)
  | roundRobin _ => exact congrArg (selectMin · queue) (lessBy_rank fun _ => rfl)
  | priority =>
    change selectMin betterPriority queue = _
    rw [betterPriority_eq]
    simp [rank_lt, key, priorityKey, Prod.Lex.toLex_lt_toLex]
  | hrrn =>
    change selectMax lessResponse queue = _
    rw [selectMax, lessResponse_eq, maxElement_eq_minElement]
    simp [selectMin, rank_lt, key, Prod.Lex.toLex_lt_toLex]
  | hrrnDouble =>
    change selectMax lessDoubleResponse queue = _
    rw [selectMax, lessDoubleResponse_eq, maxElement_eq_minElement]
    simp [selectMin, rank_lt, key, Prod.Lex.toLex_lt_toLex]
  | mlfq levelTimeSlices =>
    change selectMin (mlfqLess _) queue = _
    rw [mlfqLess_eq]
    simp [rank_lt, key, Prod.Lex.toLex_lt_toLex]

theorem exists_optimum (kind : PolicyKind) (hne : queue ≠ [])
    (hpids : (queue.map (·.pid)).Nodup) (now : Tick) :
    ∃ choice, kind.Optimum queue choice ∧ kind.policy.selectNext queue now = choice.pid := by
  obtain ⟨choice, hchoice⟩ := exists_minElement (fun a b => decide (kind.rank a < kind.rank b)) hne
  have hmem := minElement_mem hchoice
  refine ⟨choice, ⟨hmem, fun other hother hdiffer => ?_⟩, ?_⟩
  · apply lt_of_le_of_ne (minElement_le kind.rank hchoice hother)
    apply kind.rank_ne
    intro hpid
    exact hdiffer (List.inj_on_of_nodup_map hpids hother hmem hpid.symm)
  · rw [selectNext_eq, selectMin, hchoice]

theorem selectNext_of_optimum {kind : PolicyKind} (hpids : (queue.map (·.pid)).Nodup)
    (h : kind.Optimum queue choice) (now : Tick) :
    kind.policy.selectNext queue now = choice.pid := by
  obtain ⟨least, hleast, hselect⟩ := kind.exists_optimum (List.ne_nil_of_mem h.mem) hpids now
  rw [hselect, h.unique hleast]

theorem selectNext_perm (kind : PolicyKind) (hpids : (queue.map (·.pid)).Nodup)
    (hperm : queue'.Perm queue) (now : Tick) :
    kind.policy.selectNext queue' now = kind.policy.selectNext queue now := by
  by_cases hne : queue = []
  · subst hne
    rw [hperm.eq_nil]
  · obtain ⟨choice, hchoice, hselect⟩ := kind.exists_optimum hne hpids now
    have hpids' : (queue'.map (·.pid)).Nodup := (hperm.map _).nodup_iff.mpr hpids
    rw [hselect, selectNext_of_optimum hpids' (hchoice.perm hperm) now]

end PolicyKind

/-- The wait and the service time together have less than half of the digits of a `double`. -/
def SmallResponse (process : SchedulingProcessSnapshot) : Prop :=
  process.totalWaitTime + serviceTime process < 2 ^ 26

theorem SmallResponse.doubleResponse_eq {process : SchedulingProcessSnapshot}
    (h : SmallResponse process) : doubleResponse process =
      Rounding.nearest 53 ((process.totalWaitTime + serviceTime process) * 2 ^ 52)
        (serviceTime process) := by
  have hexact : ∀ {n : ℕ}, n ≤ process.totalWaitTime + serviceTime process → toDouble n = n :=
    fun hn => Rounding.nearest_one (lt_of_le_of_lt hn (h.trans (by norm_num)))
  rw [doubleResponse, hexact (Nat.le_add_left _ _), hexact (Nat.le_add_right _ _), hexact le_rfl]

theorem SmallResponse.lt_of_lt {a b : SchedulingProcessSnapshot} (ha : SmallResponse a)
    (hb : SmallResponse b) (h : responseRatio a < responseRatio b) :
    doubleResponse a < doubleResponse b := by
  rw [ha.doubleResponse_eq, hb.doubleResponse_eq]
  exact Rounding.nearest_lt_nearest (k := 26) le_rfl (serviceTime_pos a)
    ((Nat.le_add_left _ _).trans_lt ha) (serviceTime_pos b) (Nat.le_add_left _ _) hb
    ((responseRatio_lt a b).mp h)

theorem SmallResponse.eq_of_eq {a b : SchedulingProcessSnapshot} (ha : SmallResponse a)
    (hb : SmallResponse b) (h : responseRatio a = responseRatio b) :
    doubleResponse a = doubleResponse b := by
  have hcross : (a.totalWaitTime + serviceTime a) * serviceTime b =
      (b.totalWaitTime + serviceTime b) * serviceTime a :=
    Nat.le_antisymm (Nat.le_of_not_lt fun hlt => h.not_gt ((responseRatio_lt b a).mpr hlt))
      (Nat.le_of_not_lt fun hlt => h.not_lt ((responseRatio_lt a b).mpr hlt))
  rw [ha.doubleResponse_eq, hb.doubleResponse_eq]
  apply Rounding.nearest_congr (serviceTime_pos a) (serviceTime_pos b)
  rw [mul_right_comm, hcross, mul_right_comm]

theorem SmallResponse.rank_lt {a b : SchedulingProcessSnapshot} (ha : SmallResponse a)
    (hb : SmallResponse b) (h : PolicyKind.hrrn.rank a < PolicyKind.hrrn.rank b) :
    PolicyKind.hrrnDouble.rank a < PolicyKind.hrrnDouble.rank b := by
  rw [PolicyKind.rank_lt] at h ⊢
  simp only [PolicyKind.key, ofLex_toLex, neg_lt_neg_iff, neg_inj, lt_self_iff_false, true_and,
    false_or, Nat.cast_lt, Nat.cast_inj] at h ⊢
  rcases h with hlt | ⟨heq, hpid⟩
  · exact Or.inl (hb.lt_of_lt ha hlt)
  · exact Or.inr ⟨ha.eq_of_eq hb heq, hpid⟩

theorem hrrnDouble_selectNext (hpids : (queue.map (·.pid)).Nodup)
    (hsmall : ∀ process ∈ queue, SmallResponse process) (now : Tick) :
    hrrnDoublePolicy.selectNext queue now = hrrnPolicy.selectNext queue now := by
  by_cases hne : queue = []
  · simp [hne, hrrnDoublePolicy, hrrnPolicy, selectMax, maxElement]
  · obtain ⟨choice, hchoice, hselect⟩ := PolicyKind.hrrn.exists_optimum hne hpids now
    have hdouble : PolicyKind.hrrnDouble.Optimum queue choice :=
      ⟨hchoice.mem, fun other hother hdiffer => (hsmall choice hchoice.mem).rank_lt
        (hsmall other hother) (hchoice.lt other hother hdiffer)⟩
    exact (PolicyKind.selectNext_of_optimum hpids hdouble now).trans hselect.symm

namespace Scheduler
variable {s s' : Scheduler} {lane lane' : ℕ} {ready ready' : List ProcessId} {kind : PolicyKind}

/-- The two lanes have the same processes, and their queues are in any order. -/
structure Reordered (s s' : Scheduler) (lane lane' : ℕ) (ready ready' : List ProcessId) : Prop where
  policy : s'.policy = s.policy
  queue : s.readyByLane[lane]? = some ready
  queue' : s'.readyByLane[lane']? = some ready'
  perm : ready'.Perm ready
  running : (s'.runningByLane[lane']?).join = (s.runningByLane[lane]?).join
  pcbs : ∀ pid, pid ∈ ready ∨ (s.runningByLane[lane]?).join = some pid → s'.pcbs pid = s.pcbs pid

theorem asConst_pids (s : Scheduler) (queue : List ProcessId) :
    (s.asConst queue).map (·.pid) = queue := by
  rw [asConst, List.map_map]
  exact List.map_id _

theorem Reordered.asConst_perm (h : Reordered s s' lane lane' ready ready') :
    (s'.asConst ready').Perm (s.asConst ready) := by
  have hsame : s'.asConst ready = s.asConst ready := by
    apply List.map_congr_left
    intro pid hpid
    rw [h.pcbs pid (Or.inl hpid)]
  exact hsame ▸ h.perm.map _

theorem startOn_reply (s : Scheduler) (lane : ℕ) (candidate : ProcessId) (now : Tick) :
    (s.startOn lane candidate now).1 =
      if (s.pcbs candidate).state = .ready then .ok candidate else .error .invalidState := by
  rcases s.startOn_cases lane candidate now with ⟨hstate, t, pcb, hstart, -⟩ | ⟨hstate, hstart⟩
  · rw [hstart, if_pos hstate]
  · rw [hstart, if_neg hstate]

theorem preempt_reply (s : Scheduler) (lane : ℕ) (running candidate : ProcessId) (now : Tick) :
    (match s.preempt lane running now with
      | (.error code, s) => (.error code, s)
      | (.ok (), s) => s.startOn lane candidate now : Result ProcessId × Scheduler).1 =
      if isValidTransition (s.pcbs running).state .ready = true ∧
          (candidate = running ∨ (s.pcbs candidate).state = .ready) then
        .ok candidate
      else .error .invalidState := by
  rcases s.preempt_cases lane running now with
    ⟨hvalid, t, pcb, hpreempt, -, hpcbs, -, hready⟩ | ⟨hvalid, hpreempt⟩
  · rw [hpreempt, startOn_reply, hpcbs]
    by_cases hsame : candidate = running
    · simp [hsame, hready, hvalid]
    · simp [hsame, hvalid]
  · rw [hpreempt]
    simp [hvalid]

theorem selectNextForLane_reordered (h : Reordered s s' lane lane' ready ready')
    (hkind : s.policy = some kind.policy) (hnodup : ready.Nodup) (now : Tick) :
    (s'.selectNextForLane lane' now).1 = (s.selectNextForLane lane now).1 := by
  unfold selectNextForLane
  rw [h.queue, h.queue', h.policy, hkind, h.running]
  cases ready with
  | nil =>
    rw [h.perm.eq_nil]
    dsimp only
    cases (s.runningByLane[lane]?).join <;> rfl
  | cons first rest =>
    cases ready' with
    | nil => exact absurd h.perm.symm.eq_nil (List.cons_ne_nil _ _)
    | cons first' rest' =>
      have hpids : ((s.asConst (first :: rest)).map (·.pid)).Nodup := by
        rw [asConst_pids]
        exact hnodup
      have hselect := kind.selectNext_perm hpids h.asConst_perm now
      dsimp only
      rw [hselect]
      generalize kind.policy.selectNext (s.asConst (first :: rest)) now = candidate
      by_cases hinvalid : candidate = invalidPid
      · rw [if_pos hinvalid, if_pos hinvalid]
      rw [if_neg hinvalid, if_neg hinvalid]
      by_cases hmem : candidate ∈ first :: rest
      · have hmem' : candidate ∈ first' :: rest' := h.perm.mem_iff.mpr hmem
        have hcandidate := h.pcbs candidate (Or.inl hmem)
        rw [if_neg (not_not.mpr hmem), if_neg (not_not.mpr hmem'), hcandidate]
        cases hrun : (s.runningByLane[lane]?).join with
        | none =>
          dsimp only
          rw [startOn_reply, startOn_reply, hcandidate]
        | some running =>
          have hrunning := h.pcbs running (Or.inr hrun)
          dsimp only
          rw [hrunning]
          split_ifs
          · apply (preempt_reply s' lane' running candidate now).trans
            rw [hrunning, hcandidate]
            exact (preempt_reply s lane running candidate now).symm
          · rfl
      · have hmem' : candidate ∉ first' :: rest' := fun hin => hmem (h.perm.mem_iff.mp hin)
        rw [if_pos hmem, if_pos hmem']

end Scheduler

/-- A policy selects the one process of least rank, whatever the order of the queue, and so a
selection runs the same process on lanes whose queues were built in different ways. -/
theorem policy_choice_order_free (kind : PolicyKind) (now : Tick) :
    (∀ queue : List SchedulingProcessSnapshot, queue ≠ [] → (queue.map (·.pid)).Nodup →
      (∀ process ∈ queue, process.pid ≠ invalidPid) →
      ∃ choice, kind.Optimum queue choice ∧ (∀ other, kind.Optimum queue other → other = choice) ∧
        ∀ queue', queue'.Perm queue → kind.policy.selectNext queue' now = choice.pid) ∧
    ∀ (s s' : Scheduler) (lane lane' : ℕ) (ready ready' : List ProcessId),
      s.policy = some kind.policy → ready.Nodup →
      Scheduler.Reordered s s' lane lane' ready ready' →
      (s'.selectNextForLane lane' now).1 = (s.selectNextForLane lane now).1 := by
  constructor
  · intro queue hne hpids _
    obtain ⟨choice, hchoice, -⟩ := kind.exists_optimum hne hpids now
    refine ⟨choice, hchoice, fun other hother => hchoice.unique hother, fun queue' hperm => ?_⟩
    have hpids' : (queue'.map (·.pid)).Nodup := (hperm.map _).nodup_iff.mpr hpids
    exact PolicyKind.selectNext_of_optimum hpids' (hchoice.perm hperm) now
  · intro s s' lane lane' ready ready' hkind hnodup h
    exact Scheduler.selectNextForLane_reordered h hkind hnodup now

def arrivals (first second : ProcessId) : Scheduler :=
  Scheduler.machine.run (.create (some hrrnPolicy) (fun _ => {}) 1)
    [.enqueue first 0, .enqueue second 0]

theorem reordered_arrivals :
    Scheduler.Reordered (arrivals 1 2) (arrivals 2 1) 0 0 [1, 2] [2, 1] where
  policy := rfl
  queue := rfl
  queue' := rfl
  perm := List.Perm.swap 1 2 []
  running := rfl
  pcbs := by
    intro pid hpid
    have hpid : pid = 1 ∨ pid = 2 := by
      rcases hpid with hmem | hrun
      · simpa using hmem
      · cases hrun
    rcases hpid with rfl | rfl <;> rfl

theorem policy_choice_order_free_arrivals :
    let a := (arrivals 1 2).snapshot 1
    let b := (arrivals 1 2).snapshot 2
    (∃ choice, PolicyKind.hrrn.Optimum [a, b] choice ∧
      hrrnPolicy.selectNext [b, a] 5 = choice.pid ∧ hrrnPolicy.selectNext [a, b] 5 = choice.pid) ∧
      ((arrivals 2 1).selectNextForLane 0 5).1 = ((arrivals 1 2).selectNextForLane 0 5).1 := by
  intro a b
  obtain ⟨hqueue, hlanes⟩ := policy_choice_order_free .hrrn 5
  obtain ⟨choice, hchoice, -, hselect⟩ := hqueue [a, b] (by decide) (by decide) (by decide)
  exact ⟨⟨choice, hchoice, hselect _ (List.Perm.swap a b []), hselect _ (.refl _)⟩,
    hlanes _ _ 0 0 [1, 2] [2, 1] rfl (by decide) reordered_arrivals⟩

end Contur
