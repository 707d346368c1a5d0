import Mathlib.Data.List.Sort
import Contur.DispatcherPoolInvariant

/-!
# The pool refines the serial runtime

A call of the pool goes through a job, and at its end every lane has been called
once and recorded once. The error codes are then those of the lanes in their order,
so both runtimes count the same results; the lanes have dispatchers of their own, so
it makes no difference in which order the calls were made. A call without lanes
starts no job: its result is that of the serial runtime, and the traces of the last
job stay where they are.
-/

namespace Contur
open Function (update)
open WorkBoard

section Lists
variable {α : Type*}

theorem flatMap_filter_perm (key : α → ℕ) {n : ℕ} {l : List α} (h : ∀ a ∈ l, key a < n) :
    ((List.range n).flatMap fun k => l.filter (key · = k)).Perm l := by
  induction n generalizing l with
  | zero =>
    cases l with
    | nil => exact List.Perm.refl _
    | cons a l => exact absurd (h a List.mem_cons_self) (Nat.not_lt_zero _)
  | succ n ih =>
    have hsmall :=
      ih (l := l.filter (key · < n)) fun a ha => by simpa using (List.mem_filter.mp ha).2
    have hblocks : ((List.range n).flatMap fun k => l.filter (key · = k)) =
        (List.range n).flatMap fun k => (l.filter (key · < n)).filter (key · = k) := by
      refine List.flatMap_congr fun k hk => ?_
      rw [List.filter_filter]
      refine List.filter_congr fun a _ => ?_
      have hkn := List.mem_range.mp hk
      by_cases hkey : key a = k
      · simp [hkey, hkn]
      · simp [hkey]
    have hlast : l.filter (key · = n) = l.filter fun a => !decide (key a < n) := by
      refine List.filter_congr fun a ha => ?_
      have hle := h a ha
      by_cases hkey : key a = n
      · simp [hkey]
      · have hlt : key a < n := by omega
        simp [hkey, hlt]
    rw [List.range_succ, List.flatMap_append, hblocks, List.flatMap_singleton, hlast]
    exact (hsmall.append_right _).trans (List.filter_append_perm _ l)

theorem filterMap_getElem?_range (l : List α) :
    (List.range l.length).filterMap (l[·]?) = l := by
  induction l with
  | nil => rfl
  | cons a l ih =>
    rw [List.length_cons, List.range_succ_eq_map, List.filterMap_cons, List.filterMap_map]
    simp only [List.getElem?_cons_zero, List.cons.injEq, true_and]
    exact ih

end Lists

namespace SerialDispatchRuntime
variable {ι δ : Type} [DecidableEq ι] {D : LaneDispatchers ι δ}

theorem dispatchLoop_spec (tickBudget : ℕ) (t : LaneTally) (s : LaneStates ι δ) {lanes : List ι}
    (h : lanes.Nodup) :
    (dispatchLoop D tickBudget t s lanes).1 =
        (lanes.map fun lane => (D.dispatch lane (s.state lane) tickBudget).1).foldl
          LaneTally.add t ∧
      ∀ lane, (dispatchLoop D tickBudget t s lanes).2.state lane =
        if lane ∈ lanes then (D.dispatch lane (s.state lane) tickBudget).2 else s.state lane := by
  induction lanes generalizing t s with
  | nil => exact ⟨rfl, fun _ => rfl⟩
  | cons first lanes ih =>
    obtain ⟨hfirst, hrest⟩ := List.nodup_cons.mp h
    obtain ⟨htally, hstate⟩ := ih (t.add (s.dispatch D first tickBudget).1)
      (s.dispatch D first tickBudget).2 hrest
    have hsame : ∀ lane, lane ≠ first →
        (s.dispatch D first tickBudget).2.state lane = s.state lane :=
      fun lane hlane => Function.update_of_ne hlane _ _
    simp only [dispatchLoop]
    constructor
    · rw [htally, List.map_cons, List.foldl_cons]
      refine congrArg (List.foldl LaneTally.add _) (List.map_congr_left fun lane hlane => ?_)
      rw [hsame lane fun heq => hfirst (heq ▸ hlane)]
    · intro lane
      rw [hstate]
      by_cases hlane : lane = first
      · subst hlane
        rw [if_neg hfirst, if_pos List.mem_cons_self]
        exact Function.update_self _ _ _
      · rw [hsame lane hlane]
        simp [hlane]

theorem tick_spec (s : LaneStates ι δ) {lanes : List ι} (h : lanes.Nodup) (lane : ι) :
    (tick D lanes s).state lane =
      if lane ∈ lanes then D.tick lane (s.state lane) else s.state lane := by
  induction lanes generalizing s with
  | nil => rfl
  | cons first lanes ih =>
    obtain ⟨hfirst, hrest⟩ := List.nodup_cons.mp h
    have hlater : (tick D (first :: lanes) s).state lane = _ := ih (s.tick D first) hrest
    rw [hlater]
    by_cases hlane : lane = first
    · subst hlane
      rw [if_neg hfirst, if_pos List.mem_cons_self]
      exact Function.update_self _ _ _
    · have hsame : (s.tick D first).state lane = s.state lane := Function.update_of_ne hlane _ _
      rw [hsame]
      simp [hlane]

end SerialDispatchRuntime

namespace DispatcherPool
variable {ι δ : Type} {config : HostThreadingConfig} {D : LaneDispatchers ι δ} {job : Job ι}
  {start : LaneStates ι δ} {p p' : DispatcherPool ι δ} {board : Board ℕ ℕ}
  {log : List LaneRecord}

structure Quiet (config : HostThreadingConfig) (p : DispatcherPool ι δ) : Prop where
  waiting : ∀ w, (p.workers w).phase = .waiting
  seen : ∀ w, w < config.hostThreadCount → (p.workers w).seenJobToken = p.jobToken
  size : p.workersSize = 0 ∨ p.workersSize = config.hostThreadCount

theorem Quiet.resetJobState (h : Quiet config p) (hcount : 0 < config.hostThreadCount)
    (hsize : p.workersSize = config.hostThreadCount) (caller : CallerPhase ι) :
    Working config D job p.dispatchers
      { p.resetJobState job.kind job.lanes job.tickBudget with caller := caller }
      (.fresh ℕ ℕ) [] := by
  have htoken : (p.jobToken + 1) % 2 ^ 64 ≠ p.jobToken := by omega
  have hunseen : ∀ w, w < config.hostThreadCount →
      (p.workers w).seenJobToken ≠ (p.jobToken + 1) % 2 ^ 64 := by
    intro w hw heq
    rw [h.seen w hw] at heq
    exact htoken heq.symm
  have hle : job.active config ≤ config.hostThreadCount := Nat.min_le_left _ _
  refine ⟨⟨hsize, ⟨rfl, rfl, rfl, ?_⟩, fun w _ => h.waiting w, fun w hw => absurd (h.waiting w) hw,
    fun w => ?_, ?_⟩, ⟨Board.held_fresh fun w => ?_, fun i => ?_, fun hsteal w hw hleft => ?_⟩, ?_⟩
  · change min p.workersSize job.lanes.length = _
    rw [hsize, Job.active]
  · change Stands config job w (p.workers w).phase
    rw [h.waiting w]
    trivial
  · refine (Finset.card_eq_zero.mpr (Finset.filter_eq_empty_iff.mpr fun w hw hfin => ?_)).symm
    exact hunseen w (hsize ▸ Finset.mem_range.mp hw) hfin.2
  · change (p.workers w).hand = .empty
    simp [Worker.hand, h.waiting w]
  · refine iff_of_false (fun hne => hne rfl) ?_
    rintro ⟨-, hreached⟩
    unfold Reached at hreached
    split_ifs at hreached
    · have hmod := Nat.mod_lt i (active_pos hcount job)
      change Passed _ (p.workers (i % job.active config)) i at hreached
      simp only [Passed, h.waiting] at hreached
      exact hunseen _ (by omega) hreached
    · exact Nat.not_lt_zero i hreached
  · rcases hleft with hleft | hleft
    · change (p.workers w).phase = .completing at hleft
      rw [h.waiting w] at hleft
      cases hleft
    · exact absurd hleft.2 (hunseen w (by omega))
  · refine ⟨rfl, fun r hr => (List.not_mem_nil hr).elim, fun _ => rfl, ?_, ?_, fun _ _ => rfl, ?_,
      fun _ _ _ _ _ => rfl, fun _ i _ _ hi => (List.not_mem_nil hi).elim⟩
    · split_ifs
      · exact fun r hr => (List.not_mem_nil hr).elim
      · exact ⟨rfl, rfl⟩
    · exact (List.append_nil _).symm
    · exact List.length_replicate

theorem Working.quiet (h : Working config D job start p board log)
    (hdone : p.completedWorkers = p.workersSize) (caller : CallerPhase ι) :
    Quiet config { p.finishJob config with caller := caller } := by
  have hfinished : ∀ w, w < config.hostThreadCount → p.Finished w := fun w hw =>
    h.staffed.all_finished hdone (h.staffed.size ▸ hw)
  refine ⟨fun w => ?_, fun w hw => (hfinished w hw).2, Or.inr h.staffed.size⟩
  by_cases hw : w < config.hostThreadCount
  · exact (hfinished w hw).1
  · exact h.staffed.outside w (Nat.le_of_not_lt hw)

theorem Recorded.merged (h : Recorded config D job start p board log)
    (hsize : p.workersSize = config.hostThreadCount) :
    ((List.range p.workersSize).flatMap p.perWorkerTraces).Perm
      (log.map (job.event p.lastEpoch)) := by
  have htraces : p.perWorkerTraces =
      fun w => (log.filter (·.worker = w)).map (job.event p.lastEpoch) := funext h.traces
  rw [htraces, hsize, ← List.map_flatMap]
  exact (flatMap_filter_perm LaneRecord.worker h.workers).map _

theorem Recorded.sequences_nodup (h : Recorded config D job start p board log) :
    (log.map (·.sequence)).Nodup := by
  have hsequences := h.sequences
  by_cases hmode : config.deterministicMode
  · simp only [hmode, ↓reduceIte] at hsequences
    have hlanes : log.map (·.sequence) = log.map (·.lane) := List.map_congr_left hsequences
    rw [hlanes, h.recorded]
    exact board.recordedItems_nodup
  · simp only [hmode, Bool.false_eq_true, ↓reduceIte] at hsequences
    rw [hsequences.1]
    exact List.nodup_range

theorem Recorded.finishJob (h : Recorded config D job start p board log)
    (hsize : p.workersSize = config.hostThreadCount) :
    ((p.finishJob config).lastTraceEvents).Perm (log.map (job.event p.lastEpoch)) ∧
      ((p.finishJob config).lastTraceEvents.map (·.sequence)).Pairwise (· < ·) := by
  have hperm : ((p.finishJob config).lastTraceEvents).Perm (log.map (job.event p.lastEpoch)) :=
    (List.mergeSort_perm _ _).trans (h.merged hsize)
  refine ⟨hperm, ?_⟩
  have hle : ((p.finishJob config).lastTraceEvents).Pairwise fun a b =>
      a.sequence ≤ b.sequence := by
    have hsorted : ((p.finishJob config).lastTraceEvents).Pairwise
        fun a b => decide (a.sequence ≤ b.sequence) = true := by
      refine List.pairwise_mergeSort (fun a b c hab hbc => ?_) (fun a b => ?_) _
      · simp only [decide_eq_true_eq] at hab hbc ⊢
        omega
      · simp only [Bool.or_eq_true, decide_eq_true_eq]
        omega
    exact hsorted.imp fun hab => by simpa using hab
  have hnodup : ((p.finishJob config).lastTraceEvents.map (·.sequence)).Nodup := by
    rw [(hperm.map (·.sequence)).nodup_iff, List.map_map]
    exact h.sequences_nodup
  have hpair := (List.pairwise_map.mpr hle).and hnodup
  exact hpair.imp fun hab => Nat.lt_of_le_of_ne hab.1 hab.2

variable [DecidableEq ι]

structure Done (config : HostThreadingConfig) (D : LaneDispatchers ι δ) (job : Job ι)
    (start : LaneStates ι δ) (p : DispatcherPool ι δ) : Prop where
  calls : ∃ calls, p.dispatchers.calls = start.calls ++ calls ∧
    calls.Perm (job.lanes.map (·, job.laneCall))
  state : job.lanes.Nodup → ∀ lane, p.dispatchers.state lane =
    if lane ∈ job.lanes then job.after D lane (start.state lane) else start.state lane
  errors : job.lanes.Nodup → job.kind = .dispatch → p.laneErrors =
    job.lanes.map fun lane => (D.dispatch lane (start.state lane) job.tickBudget).1
  details : (p.lastTraceEvents.map (·.details)).Perm
    ((List.range job.lanes.length).map DispatcherPool.details)
  sorted : (p.lastTraceEvents.map (·.sequence)).Pairwise (· < ·)
  events : ∀ event ∈ p.lastTraceEvents, event.epoch = p.lastEpoch ∧
    event.operation = operation job.kind
  order : config.deterministicMode → p.lastDeterministicOrder = List.range job.lanes.length

theorem Working.finishJob (h : Working config D job start p board log)
    (hcount : 0 < config.hostThreadCount) (hdone : p.completedWorkers = p.workersSize) :
    Done config D job start (p.finishJob config) := by
  obtain ⟨hall, hnone⟩ := h.shared.all_recorded h.staffed hcount hdone
  obtain ⟨hcalled, hlogged⟩ := Board.perm_of_recorded List.nodup_range hall hnone
  obtain ⟨hperm, hsorted⟩ := h.recorded.finishJob h.staffed.size
  have hdoneItems : ∀ i lane, job.lanes[i]? = some lane → i ∈ board.doneItems := fun i lane hlane =>
    hcalled.mem_iff.mpr (List.mem_range.mpr (List.getElem?_eq_some_iff.mp hlane).1)
  have hlanes : (log.map (·.lane)).Perm (List.range job.lanes.length) := by
    rw [h.recorded.recorded]
    exact hlogged
  refine ⟨⟨_, h.recorded.calls, ?_⟩, fun hnodup lane => ?_, fun hnodup hkind => ?_, ?_, hsorted,
    fun event hevent => ?_, fun hmode => ?_⟩
  · refine (hcalled.filterMap _).trans ?_
    have hrange :
      (List.range job.lanes.length).filterMap (fun i => job.lanes[i]?.map (·, job.laneCall)) =
        job.lanes.map (·, job.laneCall) := by
      nth_rewrite 3 [← filterMap_getElem?_range job.lanes]
      rw [List.map_filterMap]
    rw [hrange]
  · change p.dispatchers.state lane = _
    split_ifs with hmem
    · obtain ⟨i, hlane⟩ := List.getElem?_of_mem hmem
      exact (h.recorded.touched hnodup i lane hlane (hdoneItems i lane hlane)).1
    · exact h.recorded.others lane hmem
  · change p.laneErrors = _
    apply List.ext_getElem?
    intro i
    rw [List.getElem?_map]
    cases hlane : job.lanes[i]? with
    | none =>
      have hlen := h.recorded.errors
      rw [List.getElem?_eq_none_iff] at hlane
      exact List.getElem?_eq_none_iff.mpr (by omega)
    | some lane => exact (h.recorded.touched hnodup i lane hlane (hdoneItems i lane hlane)).2 hkind
  · refine (hperm.map _).trans ?_
    rw [List.map_map]
    have hmap : log.map (TraceEvent.details ∘ job.event p.lastEpoch) =
        (log.map (·.lane)).map DispatcherPool.details := by
      rw [List.map_map]
      rfl
    rw [hmap]
    exact hlanes.map _
  · obtain ⟨r, -, hr⟩ := List.mem_map.mp (hperm.mem_iff.mp hevent)
    rw [← hr]
    exact ⟨rfl, rfl⟩
  · have hsequences := h.recorded.sequences
    simp only [hmode, ↓reduceIte] at hsequences
    have horder : (p.finishJob config).lastDeterministicOrder =
        (p.finishJob config).lastTraceEvents.map (·.sequence) := by
      simp [DispatcherPool.finishJob, mergeWorkerTraces, hmode]
    have hsame : ((p.finishJob config).lastTraceEvents.map (·.sequence)).Perm
        (List.range job.lanes.length) := by
      refine (hperm.map _).trans ?_
      rw [List.map_map]
      have hmap : log.map (TraceEvent.sequence ∘ job.event p.lastEpoch) = log.map (·.lane) :=
        List.map_congr_left hsequences
      rw [hmap]
      exact hlanes
    rw [horder]
    exact hsame.eq_of_pairwise (fun a b _ _ hab hba => absurd hab (Nat.lt_asymm hba)) hsorted
      List.pairwise_lt_range

/-- The caller is in a call for the job that found the dispatchers in the state `start`, or has
returned from it. -/
def During (config : HostThreadingConfig) (D : LaneDispatchers ι δ) (job : Job ι)
    (start : LaneStates ι δ) (p : DispatcherPool ι δ) : Prop :=
  match p.caller with
  | .ready => Quiet config p
  | .starting kind lanes tickBudget =>
    (kind = job.kind ∧ lanes = job.lanes ∧ tickBudget = job.tickBudget) ∧ Quiet config p ∧
      p.workersSize = config.hostThreadCount ∧ p.dispatchers = start
  | .waiting kind => kind = job.kind ∧ ∃ board log, Working config D job start p board log
  | .aggregating => job.kind = .dispatch ∧ Quiet config p ∧ Done config D job start p

theorem callerStep_during (h : During config D job start p) (hcount : 0 < config.hostThreadCount) :
    During config D job start (p.callerStep config).2 := by
  unfold During at h
  unfold callerStep
  cases hcaller : p.caller with
  | ready =>
    rw [hcaller] at h
    unfold During
    rw [hcaller]
    exact h
  | starting kind lanes tickBudget =>
    rw [hcaller] at h
    obtain ⟨⟨hkind, hlanes, hbudget⟩, hquiet, hsize, hstart⟩ := h
    subst hkind hlanes hbudget hstart
    exact ⟨rfl, _, _, hquiet.resetJobState hcount hsize _⟩
  | waiting kind =>
    rw [hcaller] at h
    obtain ⟨hkind, board, log, hworking⟩ := h
    dsimp only
    split_ifs with hdone hdispatch
    · have hfinish := hworking.finishJob hcount hdone
      exact ⟨hkind ▸ hdispatch, hworking.quiet hdone _, hfinish.calls, hfinish.state,
        hfinish.errors,
        hfinish.details, hfinish.sorted, hfinish.events, hfinish.order⟩
    · exact hworking.quiet hdone _
    · unfold During
      rw [hcaller]
      exact ⟨hkind, board, log, hworking⟩
  | aggregating =>
    rw [hcaller] at h
    obtain ⟨-, hquiet, -⟩ := h
    exact ⟨hquiet.waiting, hquiet.seen, hquiet.size⟩

theorem caller_workerStep (p : DispatcherPool ι δ) (w : ℕ) :
    (p.workerStep config D w).caller = p.caller := by
  cases hphase : (p.workers w).phase with
  | waiting =>
    simp only [workerStep, hphase]
    split_ifs <;> rfl
  | calling i =>
    simp only [workerStep, hphase]
    split
    · rfl
    · unfold callLane
      split <;> rfl
  | striding i | stealing | tracing i | completing =>
    simp only [workerStep, hphase]
    rfl

theorem Quiet.workerStep (h : Quiet config p) {w : ℕ} (hw : w < p.workersSize) :
    p.workerStep config D w = p := by
  have hlt : w < config.hostThreadCount := by
    rcases h.size with hsize | hsize
    · omega
    · omega
  simp only [DispatcherPool.workerStep, h.waiting w, h.seen w hlt, ne_eq, not_true_eq_false,
    ↓reduceIte]

theorem workerStep_during (h : During config D job start p) {w : ℕ} (hw : w < p.workersSize) :
    During config D job start (p.workerStep config D w) := by
  have hquiet : Quiet config p → During config D job start (p.workerStep config D w) := by
    intro hquiet
    rw [hquiet.workerStep hw]
    exact h
  unfold During at h
  cases hcaller : p.caller with
  | ready =>
    rw [hcaller] at h
    exact hquiet h
  | starting kind lanes tickBudget =>
    rw [hcaller] at h
    exact hquiet h.2.1
  | aggregating =>
    rw [hcaller] at h
    exact hquiet h.2.1
  | waiting kind =>
    rw [hcaller] at h
    obtain ⟨hkind, board, log, hworking⟩ := h
    obtain ⟨board', log', hworking'⟩ := workerStep_working hworking hw
    unfold During
    rw [caller_workerStep, hcaller]
    exact ⟨hkind, board', log', hworking'⟩

def Move.isCall : Move ι → Bool
  | .dispatch _ _ | .tick _ => true
  | .caller | .worker _ => false

theorem step_during (h : During config D job start p) (hcount : 0 < config.hostThreadCount)
    {move : Move ι} (hmove : move.isCall = false) :
    During config D job start (p.step config D move).2 := by
  cases move with
  | dispatch lanes tickBudget => cases hmove
  | tick lanes => cases hmove
  | caller => exact callerStep_during h hcount
  | worker w =>
    simp only [step]
    split_ifs with hw
    · exact workerStep_during h hw
    · exact h

theorem Quiet.startCall (h : Quiet config p) {kind : JobKind} {lanes : List ι} {tickBudget : ℕ}
    (hkind : kind ≠ .none) (hlanes : lanes ≠ []) :
    During config D ⟨kind, lanes, tickBudget, hkind, hlanes⟩ p.dispatchers
      (p.startCall config kind lanes tickBudget) := by
  unfold DispatcherPool.startCall ensureWorkersStarted
  rcases h.size with hsize | hsize
  · rw [if_neg (by simpa using hsize)]
    exact ⟨⟨rfl, rfl, rfl⟩, ⟨h.waiting, h.seen, Or.inr rfl⟩, rfl, rfl⟩
  · split_ifs with hstarted
    · exact ⟨⟨rfl, rfl, rfl⟩, ⟨h.waiting, h.seen, Or.inr hsize⟩, hsize, rfl⟩
    · exact ⟨⟨rfl, rfl, rfl⟩, ⟨h.waiting, h.seen, Or.inr rfl⟩, rfl, rfl⟩

def Serves (config : HostThreadingConfig) (D : LaneDispatchers ι δ) (p : DispatcherPool ι δ) :
    Prop :=
  (p.caller = .ready ∧ Quiet config p) ∨ ∃ job start, During config D job start p

theorem Serves.quiet (h : Serves config D p) (hready : p.caller = .ready) : Quiet config p := by
  rcases h with ⟨-, hquiet⟩ | ⟨job, start, hduring⟩
  · exact hquiet
  · unfold During at hduring
    rwa [hready] at hduring

theorem Serves.startCall (h : Serves config D p) (hready : p.caller = .ready) {kind : JobKind}
    {lanes : List ι} {tickBudget : ℕ} (hkind : kind ≠ .none) (hlanes : lanes ≠ []) :
    Serves config D (p.startCall config kind lanes tickBudget) :=
  Or.inr ⟨_, _, (h.quiet hready).startCall hkind hlanes⟩

theorem step_serves (h : Serves config D p) (hcount : 0 < config.hostThreadCount) (move : Move ι) :
    Serves config D (p.step config D move).2 := by
  cases hcall : move.isCall with
  | false =>
    rcases h with ⟨hready, hquiet⟩ | ⟨job, start, hduring⟩
    · -- without a call a quiet pool stays as it is
      left
      cases move with
      | dispatch lanes tickBudget => cases hcall
      | tick lanes => cases hcall
      | caller =>
        have hstay : (p.step config D .caller).2 = p := by simp only [step, callerStep, hready]
        rw [hstay]
        exact ⟨hready, hquiet⟩
      | worker w =>
        simp only [step]
        split_ifs with hw
        · rw [hquiet.workerStep hw]
          exact ⟨hready, hquiet⟩
        · exact ⟨hready, hquiet⟩
    · exact Or.inr ⟨job, start, step_during hduring hcount hcall⟩
  | true =>
    have hsame : ∀ q : DispatcherPool ι δ, q = p → Serves config D q := fun q hq => hq ▸ h
    cases move with
    | dispatch lanes tickBudget =>
      cases hcaller : p.caller with
      | ready =>
        simp only [step, hcaller]
        split_ifs with hempty
        · exact h
        · exact h.startCall hcaller (by decide) (by simpa using hempty)
      | starting kind lanes' tickBudget' | waiting kind | aggregating =>
        exact hsame _ (by simp only [step, hcaller])
    | tick lanes =>
      cases hcaller : p.caller with
      | ready =>
        simp only [step, hcaller]
        split_ifs with hempty
        · exact h
        · exact h.startCall hcaller (by decide) (by simpa using hempty)
      | starting kind lanes' tickBudget' | waiting kind | aggregating =>
        exact hsame _ (by simp only [step, hcaller])
    | caller => cases hcall
    | worker w => cases hcall

theorem hostThreadCount_normalizePoolConfig (config : HostThreadingConfig) :
    0 < (normalizePoolConfig config).hostThreadCount := by
  simp only [normalizePoolConfig]
  split_ifs <;> simp_all <;> omega

theorem deterministicMode_normalizePoolConfig (config : HostThreadingConfig) :
    (normalizePoolConfig config).deterministicMode = config.deterministicMode := by
  simp only [normalizePoolConfig, HostThreadingConfig.normalized]
  split_ifs <;> rfl

theorem run_serves (config : HostThreadingConfig) (dispatchers : LaneStates ι δ)
    (moves : List (Move ι)) :
    Serves (normalizePoolConfig config) D ((machine config D).run (create dispatchers) moves) := by
  have hstart : Serves (normalizePoolConfig config) D (create dispatchers) :=
    Or.inl ⟨rfl, fun _ => rfl, fun _ _ => rfl, Or.inl rfl⟩
  exact (machine config D).run_invariant (P := Serves (normalizePoolConfig config) D)
    (fun _ move h => step_serves h (hostThreadCount_normalizePoolConfig config) move) hstart moves

theorem run_during {moves : List (Move ι)} (h : During (normalizePoolConfig config) D job start p)
    (hmoves : ∀ move ∈ moves, move.isCall = false) :
    During (normalizePoolConfig config) D job start ((machine config D).run p moves) := by
  induction moves generalizing p with
  | nil => exact h
  | cons move moves ih =>
    have hfirst := hmoves move List.mem_cons_self
    exact ih (step_during h (hostThreadCount_normalizePoolConfig config) hfirst)
      fun move' hmove' => hmoves move' (List.mem_cons_of_mem _ hmove')

theorem Done.serial (h : Done config D job start p) (hnodup : job.lanes.Nodup)
    (hkind : job.kind = .dispatch) :
    p.aggregateDispatchErrors =
        (SerialDispatchRuntime.dispatch D job.lanes job.tickBudget start).1 ∧
      p.dispatchers.state =
        (SerialDispatchRuntime.dispatch D job.lanes job.tickBudget start).2.state := by
  obtain ⟨htally, hstate⟩ :=
    SerialDispatchRuntime.dispatchLoop_spec (D := D) job.tickBudget {} start
    hnodup
  have hlanes : job.lanes.isEmpty = false := by simpa using job.lanes_ne
  simp only [SerialDispatchRuntime.dispatch, hlanes, Bool.false_eq_true, ↓reduceIte]
  constructor
  · rw [htally, aggregateDispatchErrors, h.errors hnodup hkind]
  · funext lane
    rw [hstate, h.state hnodup]
    simp [Job.after, hkind]

/-- A dispatch of the pool, in any interleaving of its workers and after any calls before it. With
lanes whose dispatchers are distinct, it has called each of them once and nothing else when it
returns, and its result and the states of the dispatchers are those of the serial runtime; the
trace has one event for each lane, all of the current epoch, and in the deterministic mode the
order of the lanes is kept. Without lanes it returns the error of the serial runtime and changes
nothing. -/
theorem dispatch_refines_serial (config : HostThreadingConfig) (D : LaneDispatchers ι δ)
    (dispatchers : LaneStates ι δ) (before during : List (Move ι)) (lanes : List ι) (tickBudget : ℕ)
    (r : Result Unit) (p' : DispatcherPool ι δ) :
    let M := machine config D
    let p := M.run (create dispatchers) before
    let serial := SerialDispatchRuntime.dispatch D lanes tickBudget p.dispatchers
    p.caller = .ready →
    (lanes = [] → M.step p (.dispatch lanes tickBudget) = (some serial.1, p) ∧
      serial.2 = p.dispatchers) ∧
    (lanes ≠ [] → lanes.Nodup → (∀ move ∈ during, move.isCall = false) →
      M.step (M.run (M.next p (.dispatch lanes tickBudget)) during) .caller = (some r, p') →
      (∃ calls, p'.dispatchers.calls = p.dispatchers.calls ++ calls ∧
        calls.Perm (lanes.map (·, .dispatch tickBudget))) ∧
      r = serial.1 ∧ p'.dispatchers.state = serial.2.state ∧
      (p'.lastTraceEvents.map (·.details)).Perm ((List.range lanes.length).map details) ∧
      (p'.lastTraceEvents.map (·.sequence)).Pairwise (· < ·) ∧
      (∀ event ∈ p'.lastTraceEvents, event.epoch = p'.lastEpoch ∧ event.operation = "dispatch") ∧
      (config.deterministicMode → p'.lastDeterministicOrder = List.range lanes.length)) := by
  intro M p serial hready
  refine ⟨fun hempty => ?_, fun hlanes hnodup hduring hreturn => ?_⟩
  · subst hempty
    refine ⟨?_, rfl⟩
    simp only [M, machine, step, hready, List.isEmpty_nil, ↓reduceIte]
    rfl
  · have hquiet : Quiet (normalizePoolConfig config) p :=
      (run_serves config dispatchers before).quiet hready
    have hcalled : M.next p (.dispatch lanes tickBudget) =
        p.startCall (normalizePoolConfig config) .dispatch lanes tickBudget := by
      have hisEmpty : lanes.isEmpty = false := by simpa using hlanes
      simp only [M, machine, Transition.Machine.next, step, hready, hisEmpty, Bool.false_eq_true,
        ↓reduceIte]
    have hstart : During (normalizePoolConfig config) D
        ⟨.dispatch, lanes, tickBudget, by decide, hlanes⟩ p.dispatchers
        (M.next p (.dispatch lanes tickBudget)) := by
      rw [hcalled]
      exact hquiet.startCall _ hlanes
    have hlater := run_during hstart hduring
    generalize M.run (M.next p (.dispatch lanes tickBudget)) during = q at hlater hreturn
    change q.callerStep (normalizePoolConfig config) = (some r, p') at hreturn
    unfold During at hlater
    -- only an aggregating caller returns a result
    cases hcaller : q.caller with
    | ready =>
      simp only [callerStep, hcaller, Prod.mk.injEq, reduceCtorEq, false_and] at hreturn
    | starting kind lanes' tickBudget' =>
      simp only [callerStep, hcaller, Prod.mk.injEq, reduceCtorEq, false_and] at hreturn
    | waiting kind =>
      simp only [callerStep, hcaller] at hreturn
      split_ifs at hreturn <;> simp only [Prod.mk.injEq, reduceCtorEq, false_and] at hreturn
    | aggregating =>
      rw [hcaller] at hlater
      obtain ⟨hkind, -, hdone⟩ := hlater
      simp only [callerStep, hcaller, Prod.mk.injEq, Option.some.injEq] at hreturn
      obtain ⟨rfl, rfl⟩ := hreturn
      obtain ⟨hresult, hstate⟩ := hdone.serial hnodup hkind
      refine ⟨hdone.calls, hresult, hstate, hdone.details, hdone.sorted, hdone.events,
        fun hmode => ?_⟩
      exact hdone.order (by rw [deterministicMode_normalizePoolConfig]; exact hmode)

def addingDispatchers : LaneDispatchers ℕ ℕ where
  dispatch lane total tickBudget :=
    (if lane = 0 then .error .notFound else .ok (), total + tickBudget)
  tick _ total := total

def twoWorkers : List (Move ℕ) :=
  [.caller, .worker 1, .worker 1, .worker 0, .worker 1, .worker 0, .worker 1, .worker 0, .worker 0,
    .worker 1, .worker 1, .worker 0, .worker 0, .caller]

def twoWorkersPool : DispatcherPool ℕ ℕ :=
  (machine { hostThreadCount := 2 } addingDispatchers).run
    ((machine { hostThreadCount := 2 } addingDispatchers).next (create ⟨fun _ => 0, []⟩)
      (.dispatch [0, 1] 5)) twoWorkers

theorem dispatch_refines_serial_two :
    twoWorkersPool.aggregateDispatchErrors =
        (SerialDispatchRuntime.dispatch addingDispatchers [0, 1] 5 ⟨fun _ => 0, []⟩).1 ∧
      twoWorkersPool.dispatchers.state =
        (SerialDispatchRuntime.dispatch addingDispatchers [0, 1] 5 ⟨fun _ => 0, []⟩).2.state ∧
      twoWorkersPool.lastDeterministicOrder = [0, 1] := by
  have hcaller : twoWorkersPool.caller = .aggregating := by decide +kernel
  have hreturn :
    step (normalizePoolConfig { hostThreadCount := 2 }) addingDispatchers twoWorkersPool
      .caller = (some twoWorkersPool.aggregateDispatchErrors,
        { twoWorkersPool with caller := .ready }) := by
    simp only [step, callerStep, hcaller]
  have hrefines := (dispatch_refines_serial { hostThreadCount := 2 } addingDispatchers
    ⟨fun _ => 0, []⟩ [] twoWorkers [0, 1] 5 _ _ rfl).2 (by decide) (by decide) (by decide) hreturn
  exact ⟨hrefines.2.1, hrefines.2.2.1, hrefines.2.2.2.2.2.2 rfl⟩

def oneWorker : List (Move ℕ) :=
  [.dispatch [0] 5, .caller, .worker 0, .worker 0, .worker 0, .worker 0, .worker 0, .worker 0,
    .caller, .caller]

/-- A dispatch without lanes returns while the trace still has the event of the job before. -/
theorem empty_dispatch_keeps_trace :
    let M := machine {} addingDispatchers
    let p := M.run (create ⟨fun _ => 0, []⟩) oneWorker
    p.caller = .ready ∧ M.step p (.dispatch [] 5) = (some (.error .invalidState), p) ∧
      p.lastTraceEvents.length = 1 ∧ p.lastDeterministicOrder = [0] := by
  intro M p
  have hready : p.caller = .ready := by decide +kernel
  refine ⟨hready, ?_, by decide +kernel, by decide +kernel⟩
  simp only [M, machine, step, hready, List.isEmpty_nil, ↓reduceIte]

end DispatcherPool
end Contur
