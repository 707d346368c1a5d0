import Mathlib.Data.Prod.Lex
import Contur.SchedulerErrors

/-!
# The order of a selection

A policy chooses the least process of a ready queue in an order of its own, and asks with
a second comparison whether it replaces the running process. Where both come from one
order, as for priorities and remaining times, the process that runs after a selection is
least on its lane. A feedback queue also replaces a process whose slice is used up, and
then a process of a worse level may run before one of a better level.
-/

namespace Contur
open Function (update)
open Extremum

def priorityKey (process : SchedulingProcessSnapshot) : ℤ ×ₗ (ℤ ×ₗ ℕ) :=
  toLex (process.effectivePriority, toLex (process.nice, process.pid))

theorem betterPriority_eq :
    betterPriority = fun a b => decide (priorityKey a < priorityKey b) := by
  funext a b
  rw [Bool.eq_iff_iff, decide_eq_true_iff]
  simp only [betterPriority, priorityKey, Prod.Lex.toLex_lt_toLex]
  split_ifs with heffective hnice
  · simp [heffective]
  · rw [not_not] at heffective
    simp [heffective, hnice]
  · rw [not_not] at heffective hnice
    simp [heffective, hnice]

theorem lessBy_eq (key : SchedulingProcessSnapshot → ℕ) :
    lessBy key = fun a b => decide (toLex (key a, a.pid) < toLex (key b, b.pid)) := by
  funext a b
  rw [Bool.eq_iff_iff, decide_eq_true_iff, Prod.Lex.toLex_lt_toLex]
  unfold lessBy
  split_ifs with hkey
  · simp [hkey]
  · rw [not_not] at hkey
    simp [hkey]

theorem mlfqLess_eq (levelCount : ℕ) :
    mlfqLess levelCount = fun a b =>
      decide (toLex (priorityToLevel a levelCount, toLex (a.lastStateChange, a.pid)) <
        toLex (priorityToLevel b levelCount, toLex (b.lastStateChange, b.pid))) := by
  funext a b
  rw [Bool.eq_iff_iff, decide_eq_true_iff, Prod.Lex.toLex_lt_toLex]
  unfold mlfqLess
  rw [lessBy_eq]
  dsimp only
  split_ifs with hlevel
  · simp [hlevel]
  · rw [not_not] at hlevel
    simp [hlevel]

namespace Scheduler
variable {s s' : Scheduler} {pid : ProcessId} {lane : ℕ} {now : Tick}

def snapshot (s : Scheduler) (pid : ProcessId) : SchedulingProcessSnapshot :=
  toSnapshot pid (s.pcbs pid)

theorem selectMin_le {κ : Type} [LinearOrder κ] {key : SchedulingProcessSnapshot → κ}
    {less : SchedulingProcessSnapshot → SchedulingProcessSnapshot → Bool}
    (hless : less = fun a b => decide (key a < key b)) {ready : List ProcessId}
      (hmem : pid ∈ ready) :
    key (s.snapshot (selectMin less (s.asConst ready))) ≤ key (s.snapshot pid) := by
  have hne : s.asConst ready ≠ [] := by
    rw [asConst, ne_eq, List.map_eq_nil_iff]
    exact List.ne_nil_of_mem hmem
  obtain ⟨least, hleast⟩ := exists_minElement less hne
  obtain ⟨choice, -, hchoice⟩ := List.mem_map.mp (minElement_mem hleast)
  have hselect : selectMin less (s.asConst ready) = choice := by
    rw [selectMin, hleast, ← hchoice]
    rfl
  rw [hselect, snapshot, hchoice]
  rw [hless] at hleast
  exact minElement_le key hleast (List.mem_map.mpr ⟨pid, hmem, rfl⟩)

structure SameKeys (s s' : Scheduler) : Prop where
  priority : ∀ p, (s'.pcbs p).priority = (s.pcbs p).priority
  remainingBurst : ∀ p, (s'.pcbs p).timing.remainingBurst = (s.pcbs p).timing.remainingBurst
  estimatedBurst : ∀ p, (s'.pcbs p).timing.estimatedBurst = (s.pcbs p).timing.estimatedBurst

theorem SameKeys.refl (s : Scheduler) : SameKeys s s := ⟨fun _ => rfl, fun _ => rfl, fun _ => rfl⟩

theorem SameKeys.trans {s₁ s₂ : Scheduler} (h : SameKeys s s₁) (h' : SameKeys s₁ s₂) :
    SameKeys s s₂ :=
  ⟨fun p => (h'.priority p).trans (h.priority p),
    fun p => (h'.remainingBurst p).trans (h.remainingBurst p),
    fun p => (h'.estimatedBurst p).trans (h.estimatedBurst p)⟩

theorem SameKeys.of_setState {pcb : Pcb} {newState : ProcessState}
    (hpcb : (s.pcbs pid).setState newState now = some pcb) (hs : s'.pcbs = update s.pcbs pid pcb) :
    SameKeys s s' := by
  obtain ⟨hpriority, hremaining, hestimated⟩ := Pcb.setState_keys hpcb
  refine ⟨fun p => ?_, fun p => ?_, fun p => ?_⟩
  all_goals
    rw [hs]
    by_cases hp : p = pid
    · subst p
      simp [hpriority, hremaining, hestimated]
    · simp [hp]

theorem startOn_ok {candidate : ProcessId} {ready : List ProcessId}
    (hlane : lane < s.runningByLane.length) (hready : s.readyByLane[lane]? = some ready)
    (h : s.startOn lane candidate now = (.ok pid, s')) :
    pid = candidate ∧ s'.runningByLane[lane]? = some (some candidate) ∧
      s'.readyByLane[lane]? = some (removeFrom ready candidate) ∧ SameKeys s s' := by
  unfold startOn at h
  dsimp only at h
  split at h
  · cases h
  · next pcb hpcb =>
    cases h
    refine ⟨rfl, List.getElem?_set_self hlane, ?_, .of_setState hpcb rfl⟩
    simp [hready]

theorem preempt_ok {running : ProcessId} {ready : List ProcessId} {result : Unit}
    (hready : s.readyByLane[lane]? = some ready)
    (h : s.preempt lane running now = (.ok result, s')) :
    s'.runningByLane.length = s.runningByLane.length ∧
      s'.readyByLane[lane]? = some (ready ++ [running]) ∧ SameKeys s s' := by
  obtain ⟨predictions, hrec⟩ := recordRunningBurst_eq s running now
  unfold preempt at h
  rw [hrec] at h
  dsimp only at h
  split at h
  · cases h
  · next pcb hpcb =>
    cases h
    refine ⟨by simp, ?_, .of_setState hpcb rfl⟩
    simp [hready]

/-- The ways in which a lane comes to run a process. -/
inductive Selection (s : Scheduler) (policy : SchedulingPolicy) (lane : ℕ) (now : Tick) :
    List ProcessId → List ProcessId → ProcessId → Prop where
  | alone {pid : ProcessId} (hrun : s.runningByLane[lane]? = some (some pid)) :
      Selection s policy lane now [] [] pid
  | keeps {ready : List ProcessId} {pid candidate : ProcessId}
      (hcandidate : policy.selectNext (s.asConst ready) now = candidate) (hmem : candidate ∈ ready)
      (hrun : s.runningByLane[lane]? = some (some pid))
      (hkeeps : policy.shouldPreempt (s.snapshot pid) (s.snapshot candidate) now = false) :
      Selection s policy lane now ready ready pid
  | starts {ready : List ProcessId} {candidate : ProcessId}
      (hcandidate : policy.selectNext (s.asConst ready) now = candidate) (hmem : candidate ∈ ready)
      (hrun : s.runningByLane[lane]? = some none) :
      Selection s policy lane now ready (removeFrom ready candidate) candidate
  | replaces {ready : List ProcessId} {running candidate : ProcessId}
      (hcandidate : policy.selectNext (s.asConst ready) now = candidate) (hmem : candidate ∈ ready)
      (hrun : s.runningByLane[lane]? = some (some running))
      (hpreempt : policy.shouldPreempt (s.snapshot running) (s.snapshot candidate) now = true) :
      Selection s policy lane now ready (removeFrom (ready ++ [running]) candidate) candidate

theorem selectNextForLane_selection (hlanes : s.runningByLane.length = s.readyByLane.length)
    {policy : SchedulingPolicy} (hpolicy : s.policy = some policy)
    (h : s.selectNextForLane lane now = (.ok pid, s')) :
    ∃ ready ready', s.readyByLane[lane]? = some ready ∧ s'.readyByLane[lane]? = some ready' ∧
      s'.runningByLane[lane]? = some (some pid) ∧ SameKeys s s' ∧
      Selection s policy lane now ready ready' pid := by
  unfold selectNextForLane at h
  cases hready : s.readyByLane[lane]? with
  | none =>
    rw [hready] at h
    cases h
  | some ready =>
    have hlane : lane < s.runningByLane.length := hlanes ▸ (List.getElem?_eq_some_iff.mp hready).1
    obtain ⟨running, hrun⟩ : ∃ running, s.runningByLane[lane]? = some running :=
      ⟨_, List.getElem?_eq_getElem hlane⟩
    rw [hready, hpolicy, hrun, Option.join_some] at h
    cases ready with
    | nil =>
      cases running with
      | none => cases h
      | some running =>
        cases h
        exact ⟨[], [], rfl, hready, hrun, .refl s, .alone hrun⟩
    | cons first rest =>
      dsimp only at h
      generalize hcandidate : policy.selectNext (s.asConst (first :: rest)) now = candidate at h
      by_cases hinvalid : candidate = invalidPid
      · rw [if_pos hinvalid] at h
        cases h
      by_cases hmem : candidate ∉ first :: rest
      · rw [if_neg hinvalid, if_pos hmem] at h
        cases h
      rw [if_neg hinvalid, if_neg hmem] at h
      rw [not_not] at hmem
      cases running with
      | none =>
        obtain ⟨rfl, hrun', hready', hkeys⟩ := startOn_ok hlane hready h
        exact ⟨_, _, rfl, hready', hrun', hkeys, .starts hcandidate hmem hrun⟩
      | some running =>
        dsimp only at h
        split_ifs at h with hpreempt
        · split at h
          · cases h
          · next s₁ hs₁ =>
            obtain ⟨hlength, hready₁, hkeys₁⟩ := preempt_ok hready hs₁
            obtain ⟨rfl, hrun', hready', hkeys⟩ := startOn_ok (hlength ▸ hlane) hready₁ h
            exact ⟨_, _, rfl, hready', hrun', hkeys₁.trans hkeys,
              .replaces hcandidate hmem hrun hpreempt⟩
        · cases h
          exact ⟨_, _, rfl, hready, hrun, .refl s,
            .keeps hcandidate hmem hrun (by simpa [snapshot] using hpreempt)⟩

def SameLanes (s s' : Scheduler) : Prop :=
  s'.readyByLane.length = s.readyByLane.length ∧ s'.runningByLane.length = s.runningByLane.length

theorem SameLanes.refl (s : Scheduler) : SameLanes s s := ⟨rfl, rfl⟩

theorem SameLanes.trans {s₁ s₂ : Scheduler} (h : SameLanes s s₁) (h' : SameLanes s₁ s₂) :
    SameLanes s s₂ :=
  ⟨h'.1.trans h.1, h'.2.trans h.2⟩

theorem startOn_lanes (s : Scheduler) (lane : ℕ) (pid : ProcessId) (now : Tick) :
    SameLanes s (s.startOn lane pid now).2 := by
  unfold startOn
  dsimp only
  split <;> simp [SameLanes]

theorem preempt_lanes (s : Scheduler) (lane : ℕ) (pid : ProcessId) (now : Tick) :
    SameLanes s (s.preempt lane pid now).2 := by
  obtain ⟨predictions, hrec⟩ := recordRunningBurst_eq s pid now
  unfold preempt
  rw [hrec]
  dsimp only
  split <;> simp [SameLanes]

theorem selectNextForLane_lanes (s : Scheduler) (lane : ℕ) (now : Tick) :
    SameLanes s (s.selectNextForLane lane now).2 := by
  have hselect := selectNextForLane_eq s lane now
  cases hchoice : s.choice lane now with
  | refused =>
    rw [hchoice] at hselect
    obtain ⟨code, heq⟩ := hselect
    rw [heq]
    exact .refl s
  | keeps running =>
    rw [hchoice] at hselect
    have heq : s.selectNextForLane lane now = (.ok running, s) := hselect
    rw [heq]
    exact .refl s
  | starts candidate =>
    rw [hchoice] at hselect
    rw [hselect.1]
    exact startOn_lanes s lane candidate now
  | replaces running candidate =>
    rw [hchoice] at hselect
    have hlanes := preempt_lanes s lane running now
    cases hpreempt : s.preempt lane running now with
    | mk result t =>
      rw [hpreempt] at hlanes
      cases result with
      | error code =>
        rw [hselect.2.1 code t hpreempt]
        exact hlanes
      | ok done =>
        rw [hselect.2.2 t hpreempt]
        exact hlanes.trans (startOn_lanes t lane candidate now)

theorem stealNextForLane_lanes (s : Scheduler) (lane : ℕ) (now : Tick) :
    SameLanes s (s.stealNextForLane lane now).2 := by
  unfold stealNextForLane
  split_ifs
  · exact .refl s
  split
  · exact .refl s
  split
  · exact .refl s
  · refine SameLanes.trans ?_ (selectNextForLane_lanes _ lane now)
    simp [SameLanes]

theorem enqueueToLane_lanes (s : Scheduler) (pid : ProcessId) (lane : ℕ) (now : Tick) :
    SameLanes s (s.enqueueToLane pid lane now).2 := by
  simp only [enqueueToLane]
  split_ifs
  any_goals exact .refl s
  split <;> simp [SameLanes]

theorem dequeue_lanes (s : Scheduler) (pid : ProcessId) : SameLanes s (s.dequeue pid).2 := by
  unfold dequeue
  split_ifs <;> simp [SameLanes, removeFromAllReady]

theorem blockOn_lanes (s : Scheduler) (lane : ℕ) (pid : ProcessId) (now : Tick) :
    SameLanes s (s.blockOn lane pid now).2 := by
  obtain ⟨predictions, hrec⟩ := recordRunningBurst_eq s pid now
  unfold blockOn
  rw [hrec]
  dsimp only
  split <;> simp [SameLanes]

theorem blockRunning_lanes (s : Scheduler) (now : Tick) : SameLanes s (s.blockRunning now).2 := by
  unfold blockRunning
  split
  · exact .refl s
  split
  · exact blockOn_lanes s _ _ now
  · exact .refl s

theorem blockProcess_lanes (s : Scheduler) (pid : ProcessId) (now : Tick) :
    SameLanes s (s.blockProcess pid now).2 := by
  unfold blockProcess
  split_ifs
  · split
    · exact blockOn_lanes s _ pid now
    split
    · exact .refl s
    split <;> simp [SameLanes]
  · exact .refl s

theorem unblock_lanes (s : Scheduler) (pid : ProcessId) (now : Tick) :
    SameLanes s (s.unblock pid now).2 := by
  unfold unblock
  split_ifs
  · split <;> simp [SameLanes]
  · exact .refl s

theorem terminate_lanes (s : Scheduler) (pid : ProcessId) (now : Tick) :
    SameLanes s (s.terminate pid now).2 := by
  obtain ⟨predictions, hrec⟩ := recordRunningBurst_eq s pid now
  simp only [terminate, hrec]
  split_ifs
  · cases s.findRunningLane pid <;> dsimp only <;> split <;>
      simp [SameLanes, forget, removeFromAllReady]
  · exact .refl s

def LanesMatch (s : Scheduler) : Prop := s.runningByLane.length = s.readyByLane.length

theorem LanesMatch.of_sameLanes (h : LanesMatch s) (hs : SameLanes s s') : LanesMatch s' := by
  unfold LanesMatch
  rw [hs.1, hs.2]
  exact h

theorem exec_lanesMatch (s : Scheduler) (op : Op) (h : LanesMatch s) :
    LanesMatch (machine.next s op) := by
  cases op with
  | enqueue pid now => exact h.of_sameLanes (enqueueToLane_lanes s pid 0 now)
  | enqueueToLane pid lane now => exact h.of_sameLanes (enqueueToLane_lanes s pid lane now)
  | dequeue pid => exact h.of_sameLanes (dequeue_lanes s pid)
  | selectNext now => exact h.of_sameLanes (selectNextForLane_lanes s 0 now)
  | selectNextForLane lane now => exact h.of_sameLanes (selectNextForLane_lanes s lane now)
  | stealNextForLane thief now => exact h.of_sameLanes (stealNextForLane_lanes s thief now)
  | blockRunning now => exact h.of_sameLanes (blockRunning_lanes s now)
  | blockProcess pid now => exact h.of_sameLanes (blockProcess_lanes s pid now)
  | unblock pid now => exact h.of_sameLanes (unblock_lanes s pid now)
  | terminate pid now => exact h.of_sameLanes (terminate_lanes s pid now)
  | configureLanes laneCount =>
    simp only [machine, Transition.Machine.next, exec, configureLanes]
    split_ifs
    · exact h
    · exact h
    · simp [LanesMatch]
  | setPolicy policy =>
    cases policy with
    | none => exact h
    | some policy => exact h

theorem run_lanesMatch (policy : Option SchedulingPolicy) (pcbs : ProcessId → Pcb) (laneCount : ℕ)
    (ops : List Op) : LanesMatch (machine.run (create policy pcbs laneCount) ops) := by
  apply machine.run_invariant exec_lanesMatch
  simp [LanesMatch, create]

theorem mem_removeFrom {queue : List ProcessId} {p q : ProcessId} :
    q ∈ removeFrom queue p ↔ q ∈ queue ∧ q ≠ p := by
  simp [removeFrom]

/-- A policy that chooses the least process, and replaces the running one by a candidate of smaller
rank, leaves no process of smaller rank in the queue. -/
theorem Selection.least {κ ρ : Type} [LinearOrder κ] [LinearOrder ρ] {policy : SchedulingPolicy}
    {less : SchedulingProcessSnapshot → SchedulingProcessSnapshot → Bool}
    {key : SchedulingProcessSnapshot → κ} {rank : SchedulingProcessSnapshot → ρ}
    (hselect : ∀ queue now, policy.selectNext queue now = selectMin less queue)
    (hless : less = fun a b => decide (key a < key b))
    (hmono : ∀ a b, key a ≤ key b → rank a ≤ rank b)
    (hpreempt : ∀ a b now, policy.shouldPreempt a b now = decide (rank b < rank a))
    {ready ready' : List ProcessId} (h : Selection s policy lane now ready ready' pid) :
    ∀ q ∈ ready', rank (s.snapshot pid) ≤ rank (s.snapshot q) := by
  have hleast : ∀ candidate, policy.selectNext (s.asConst ready) now = candidate →
      ∀ q ∈ ready, rank (s.snapshot candidate) ≤ rank (s.snapshot q) := by
    intro candidate hcandidate q hq
    rw [← hcandidate, hselect]
    exact hmono _ _ (selectMin_le hless hq)
  cases h with
  | alone hrun => simp
  | keeps hcandidate hmem hrun hkeeps =>
    intro q hq
    rw [hpreempt, decide_eq_false_iff_not, not_lt] at hkeeps
    exact hkeeps.trans (hleast _ hcandidate q hq)
  | starts hcandidate hmem hrun =>
    intro q hq
    exact hleast _ hcandidate q (mem_removeFrom.mp hq).1
  | replaces hcandidate hmem hrun hreplaced =>
    intro q hq
    rw [hpreempt, decide_eq_true_iff] at hreplaced
    rcases List.mem_append.mp (mem_removeFrom.mp hq).1 with hq | hq
    · exact hleast _ hcandidate q hq
    · rw [List.mem_singleton.mp hq]
      exact hreplaced.le

theorem SameKeys.priorityKey (h : SameKeys s s') (p : ProcessId) :
    priorityKey (s'.snapshot p) = priorityKey (s.snapshot p) := by
  simp [Contur.priorityKey, snapshot, toSnapshot, h.priority]

theorem SameKeys.remaining (h : SameKeys s s') (p : ProcessId) :
    remaining (s'.snapshot p) = remaining (s.snapshot p) := by
  dsimp only [Contur.remaining, snapshot, toSnapshot]
  rw [h.remainingBurst, h.estimatedBurst]

theorem policy_of_selectNextForLane (h : s.selectNextForLane lane now = (.ok pid, s')) :
    ∃ policy, s.policy = some policy := by
  cases hpolicy : s.policy with
  | some policy => exact ⟨policy, rfl⟩
  | none =>
    unfold selectNextForLane at h
    rw [hpolicy] at h
    cases hready : s.readyByLane[lane]? with
    | none =>
      rw [hready] at h
      cases h
    | some ready =>
      rw [hready] at h
      cases h

/-- In every run a selection by priority or by remaining time leaves the best process of the lane
running. -/
theorem preemptive_selection_best (policy : Option SchedulingPolicy) (pcbs : ProcessId → Pcb)
    (laneCount : ℕ) (ops : List Op) {lane : ℕ} {now : Tick} {pid : ProcessId} {s' : Scheduler}
    (h : (machine.run (create policy pcbs laneCount) ops).selectNextForLane lane now =
      (.ok pid, s')) :
    s'.runningByLane[lane]? = some (some pid) ∧
      ((machine.run (create policy pcbs laneCount) ops).policy = some priorityPolicy →
        ∀ ready, s'.readyByLane[lane]? = some ready → ∀ q ∈ ready,
          ¬ priorityKey (s'.snapshot q) < priorityKey (s'.snapshot pid)) ∧
      ((machine.run (create policy pcbs laneCount) ops).policy = some srtPolicy →
        ∀ ready, s'.readyByLane[lane]? = some ready → ∀ q ∈ ready,
          ¬ remaining (s'.snapshot q) < remaining (s'.snapshot pid)) := by
  have hlanes := run_lanesMatch policy pcbs laneCount ops
  generalize machine.run (create policy pcbs laneCount) ops = s at h hlanes
  refine ⟨?_, fun hpolicy ready hready q hq => ?_, fun hpolicy ready hready q hq => ?_⟩
  · obtain ⟨chosen, hpolicy⟩ := policy_of_selectNextForLane h
    obtain ⟨-, -, -, -, hrun, -⟩ := selectNextForLane_selection hlanes hpolicy h
    exact hrun
  · obtain ⟨before, ready', -, hready', -, hkeys, hselection⟩ :=
      selectNextForLane_selection hlanes hpolicy h
    rw [hready] at hready'
    obtain rfl := Option.some.inj hready'
    rw [hkeys.priorityKey, hkeys.priorityKey, not_lt]
    refine hselection.least (fun _ _ => rfl) betterPriority_eq (fun _ _ hle => hle) ?_ q hq
    intro a b _
    exact congrFun (congrFun betterPriority_eq b) a
  · obtain ⟨before, ready', -, hready', -, hkeys, hselection⟩ :=
      selectNextForLane_selection hlanes hpolicy h
    rw [hready] at hready'
    obtain rfl := Option.some.inj hready'
    rw [hkeys.remaining, hkeys.remaining, not_lt]
    refine hselection.least (fun _ _ => rfl) (lessBy_eq remaining) ?_ (fun _ _ _ => rfl) q hq
    intro a b hle
    rcases Prod.Lex.toLex_le_toLex.mp hle with hlt | ⟨heq, -⟩
    · exact hlt.le
    · exact heq.le

theorem preemptive_selection_urgent :
    let s := machine.run (create (some priorityPolicy)
      (fun pid => { priority := { effective := if pid = 2 then 1 else 3 } }) 1)
      [.enqueue 1 0, .selectNext 1, .enqueue 2 2]
    (s.selectNextForLane 0 3).1 = .ok 2 ∧ (s.selectNextForLane 0 3).2.readyByLane = [[1]] ∧
      ¬ priorityKey ((s.selectNextForLane 0 3).2.snapshot 1) <
        priorityKey ((s.selectNextForLane 0 3).2.snapshot 2) := by
  intro s
  have hselect : s.selectNextForLane 0 3 = (.ok 2, (s.selectNextForLane 0 3).2) := by
    apply Prod.ext
    · decide
    · rfl
  have hready : (s.selectNextForLane 0 3).2.readyByLane = [[1]] := by decide
  refine ⟨by decide, hready, ?_⟩
  have hbest := preemptive_selection_best _ _ 1 _ hselect
  exact hbest.2.1 rfl [1] (by rw [hready]; rfl) 1 (by simp)

def mlfqLevel (levelTimeSlices : List ℕ) (process : SchedulingProcessSnapshot) : ℕ :=
  priorityToLevel process (mlfqSlices levelTimeSlices).length

/-- The process has run for the slice of its level. -/
def SliceUsedUp (levelTimeSlices : List ℕ) (process : SchedulingProcessSnapshot) (now : Tick) :
    Prop :=
  (mlfqSlices levelTimeSlices).getD (mlfqLevel levelTimeSlices process) 1 ≤
    tickSub now process.lastStateChange

/-- The running process of the lane has used up its slice, and all that could run instead are of a
worse level. -/
def Demotes (s : Scheduler) (levelTimeSlices : List ℕ) (lane : ℕ) (now : Tick) : Prop :=
  ∃ running ready, s.runningByLane[lane]? = some (some running) ∧
    s.readyByLane[lane]? = some ready ∧
    ready ≠ [] ∧ SliceUsedUp levelTimeSlices (s.snapshot running) now ∧
    ∀ q ∈ ready, mlfqLevel levelTimeSlices (s.snapshot running) <
      mlfqLevel levelTimeSlices (s.snapshot q)

theorem mlfq_shouldPreempt_iff {levelTimeSlices : List ℕ} {a b : SchedulingProcessSnapshot} :
    (mlfqPolicy levelTimeSlices).shouldPreempt a b now = true ↔
      mlfqLevel levelTimeSlices b < mlfqLevel levelTimeSlices a ∨
        SliceUsedUp levelTimeSlices a now := by
  dsimp only [mlfqPolicy]
  split_ifs with hlevel
  · exact iff_of_true rfl (Or.inl hlevel)
  · rw [decide_eq_true_iff]
    exact (or_iff_right hlevel).symm

theorem mlfq_selectNext_le {levelTimeSlices : List ℕ} {ready : List ProcessId}
    {candidate q : ProcessId}
    (hcandidate : (mlfqPolicy levelTimeSlices).selectNext (s.asConst ready) now = candidate)
    (hq : q ∈ ready) :
    mlfqLevel levelTimeSlices (s.snapshot candidate) ≤
      mlfqLevel levelTimeSlices (s.snapshot q) := by
  rw [← hcandidate]
  rcases Prod.Lex.toLex_le_toLex.mp (selectMin_le (mlfqLess_eq _) hq) with hlt | ⟨heq, -⟩
  · exact hlt.le
  · exact heq.le

/-- After a selection the queue has no process of a better level exactly if the selection has not
demoted the running process. -/
theorem Selection.level_iff {levelTimeSlices : List ℕ} {ready ready' : List ProcessId}
    (hready : s.readyByLane[lane]? = some ready)
    (h : Selection s (mlfqPolicy levelTimeSlices) lane now ready ready' pid) :
    (∀ q ∈ ready', ¬ mlfqLevel levelTimeSlices (s.snapshot q) <
      mlfqLevel levelTimeSlices (s.snapshot pid)) ↔ ¬ Demotes s levelTimeSlices lane now := by
  have hnot : ∀ running, s.runningByLane[lane]? = some running →
      (∀ r, running = some r → ready ≠ [] → SliceUsedUp levelTimeSlices (s.snapshot r) now →
        ∃ q ∈ ready,
          ¬ mlfqLevel levelTimeSlices (s.snapshot r) < mlfqLevel levelTimeSlices (s.snapshot q)) →
      ¬ Demotes s levelTimeSlices lane now := by
    rintro running hrun hnone ⟨r, queue, hr, hqueue, hne, hused, hworse⟩
    rw [hrun] at hr
    rw [hready] at hqueue
    cases hr
    cases hqueue
    obtain ⟨q, hq, hlevel⟩ := hnone r rfl hne hused
    exact hlevel (hworse q hq)
  cases h with
  | alone hrun =>
    refine iff_of_true (by simp) (hnot _ hrun ?_)
    exact fun _ _ hne => absurd rfl hne
  | keeps hcandidate hmem hrun hkeeps =>
    have hkeeps' := mt mlfq_shouldPreempt_iff.mpr (Bool.not_eq_true _ ▸ hkeeps)
    rw [not_or, not_lt] at hkeeps'
    refine iff_of_true (fun q hq => ?_) (hnot _ hrun fun r hr _ hused => ?_)
    · exact not_lt.mpr (hkeeps'.1.trans (mlfq_selectNext_le hcandidate hq))
    · cases hr
      exact absurd hused hkeeps'.2
  | starts hcandidate hmem hrun =>
    refine iff_of_true (fun q hq => ?_) (hnot _ hrun fun r hr => by cases hr)
    exact not_lt.mpr (mlfq_selectNext_le hcandidate (mem_removeFrom.mp hq).1)
  | @replaces _ running _ hcandidate hmem hrun hreplaced =>
    rcases Nat.lt_or_ge (mlfqLevel levelTimeSlices (s.snapshot running))
      (mlfqLevel levelTimeSlices (s.snapshot pid)) with hworse | hbetter
    · -- the demoted process waits behind one of a worse level
      have hused := (mlfq_shouldPreempt_iff.mp hreplaced).resolve_left (Nat.not_lt.mpr hworse.le)
      refine iff_of_false (fun hlevels => ?_) (fun hdemotes => hdemotes ?_)
      · refine hlevels running (mem_removeFrom.mpr ⟨by simp, ?_⟩) hworse
        rintro rfl
        exact lt_irrefl _ hworse
      · refine ⟨running, ready, hrun, hready, List.ne_nil_of_mem hmem, hused, fun q hq => ?_⟩
        exact hworse.trans_le (mlfq_selectNext_le hcandidate hq)
    · refine iff_of_true (fun q hq => ?_) (hnot _ hrun fun r hr _ _ => ?_)
      · rw [not_lt]
        rcases List.mem_append.mp (mem_removeFrom.mp hq).1 with hq | hq
        · exact mlfq_selectNext_le hcandidate hq
        · rw [List.mem_singleton.mp hq]
          exact hbetter
      · cases hr
        exact ⟨pid, hmem, Nat.not_lt.mpr hbetter⟩

theorem SameKeys.mlfqLevel (h : SameKeys s s') (levelTimeSlices : List ℕ) (p : ProcessId) :
    mlfqLevel levelTimeSlices (s'.snapshot p) = mlfqLevel levelTimeSlices (s.snapshot p) := by
  dsimp only [Scheduler.mlfqLevel, priorityToLevel, snapshot, toSnapshot]
  rw [h.priority]

/-- In every run a selection of a feedback queue respects the levels exactly if it does not demote a
running process whose slice is used up. -/
theorem mlfq_levels_iff (policy : Option SchedulingPolicy) (pcbs : ProcessId → Pcb) (laneCount : ℕ)
    (ops : List Op) {levelTimeSlices : List ℕ} {lane : ℕ} {now : Tick} {pid : ProcessId}
      {s' : Scheduler}
    (hpolicy : (machine.run (create policy pcbs laneCount) ops).policy =
      some (mlfqPolicy levelTimeSlices))
    (h : (machine.run (create policy pcbs laneCount) ops).selectNextForLane lane now =
      (.ok pid, s')) :
    s'.runningByLane[lane]? = some (some pid) ∧
      ((∀ ready, s'.readyByLane[lane]? = some ready → ∀ q ∈ ready,
          ¬ mlfqLevel levelTimeSlices (s'.snapshot q) <
            mlfqLevel levelTimeSlices (s'.snapshot pid)) ↔
        ¬ Demotes (machine.run (create policy pcbs laneCount) ops) levelTimeSlices lane now) := by
  have hlanes := run_lanesMatch policy pcbs laneCount ops
  generalize machine.run (create policy pcbs laneCount) ops = s at h hpolicy hlanes ⊢
  obtain ⟨before, ready', hbefore, hready', hrun, hkeys, hselection⟩ :=
    selectNextForLane_selection hlanes hpolicy h
  refine ⟨hrun, ?_⟩
  simp only [hready', Option.some.injEq, forall_eq', hkeys.mlfqLevel]
  exact hselection.level_iff hbefore

def levelsRun (levelTimeSlices : List ℕ) : Scheduler :=
  machine.run (create (some (mlfqPolicy levelTimeSlices))
    (fun pid => { priority := { effective := if pid = 1 then 0 else 1 } }) 1)
    [.enqueue 1 0, .selectNext 0, .enqueue 2 1]

theorem mlfq_levels_within_slice :
    ((levelsRun [10, 10]).selectNextForLane 0 5).1 = .ok 1 ∧
      ¬ Demotes (levelsRun [10, 10]) [10, 10] 0 5 := by
  have hselect : (levelsRun [10, 10]).selectNextForLane 0 5 =
      (.ok 1, ((levelsRun [10, 10]).selectNextForLane 0 5).2) := by
    apply Prod.ext
    · decide
    · rfl
  have hready : ((levelsRun [10, 10]).selectNextForLane 0 5).2.readyByLane = [[2]] := by decide
  refine ⟨by decide, (mlfq_levels_iff _ _ 1 _ rfl hselect).2.mp ?_⟩
  rw [hready]
  intro ready heq q hq
  cases heq
  rw [List.mem_singleton.mp hq]
  decide

/-- After its slice the better process waits for the worse one. -/
theorem mlfq_demotes_after_slice :
    ((levelsRun [1, 1]).selectNextForLane 0 5).1 = .ok 2 ∧
      ((levelsRun [1, 1]).selectNextForLane 0 5).2.readyByLane = [[1]] ∧
      mlfqLevel [1, 1] (((levelsRun [1, 1]).selectNextForLane 0 5).2.snapshot 1) <
        mlfqLevel [1, 1] (((levelsRun [1, 1]).selectNextForLane 0 5).2.snapshot 2) := by
  decide

end Scheduler
end Contur
