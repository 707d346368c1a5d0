import Mathlib.Algebra.Order.BigOperators.Group.Finset
import Contur.DispatcherPoolRefinement
import Contur.FairRounds

/-!
# The way of a job to its end

A worker that has not been through the job can always move, and its move brings it
nearer to the end of the job: a number says how far it has to go at most. When all of
them have been through it, the caller can move. So no schedule that keeps moving all
threads lets a call wait for ever, and the number of rounds it takes is bounded.
-/

namespace Contur
open Function (update)
open WorkBoard Transition

namespace DispatcherPool
variable {ι δ : Type} {config : HostThreadingConfig} {D : LaneDispatchers ι δ} {job : Job ι}
  {start : LaneStates ι δ} {p p' : DispatcherPool ι δ} {board : Board ℕ ℕ} {log : List LaneRecord}
  {w : ℕ}

/-- How far a worker has to go, if the lanes before the one it is at are left to it. -/
def distance (laneCount : ℕ) (p : DispatcherPool ι δ) (x : Worker ι) : ℕ :=
  match x.phase with
  | .waiting => if x.seenJobToken = p.jobToken then 0 else 3 * laneCount + 3
  | .striding laneIndex => 3 * (laneCount - laneIndex) + 2
  | .stealing => 3 * (laneCount - p.nextLane) + 2
  | .calling laneIndex => 3 * (laneCount - laneIndex) + 1
  | .tracing laneIndex => 3 * (laneCount - laneIndex)
  | .completing => 1

def remaining (config : HostThreadingConfig) (laneCount : ℕ) (p : DispatcherPool ι δ) : ℕ :=
  match p.caller with
  | .ready => 0
  | .starting _ _ _ => 3 + config.hostThreadCount * (3 * laneCount + 3)
  | .waiting _ => 2 + ∑ w ∈ Finset.range p.workersSize, p.distance laneCount (p.workers w)
  | .aggregating => 1

theorem distance_le (laneCount : ℕ) (p : DispatcherPool ι δ) (x : Worker ι) :
    p.distance laneCount x ≤ 3 * laneCount + 3 := by
  unfold distance
  split
  · split_ifs <;> omega
  all_goals omega

theorem distance_mono (laneCount : ℕ) (htoken : p'.jobToken = p.jobToken)
    (hnext : p.nextLane ≤ p'.nextLane) (x : Worker ι) :
    p'.distance laneCount x ≤ p.distance laneCount x := by
  unfold distance
  rw [htoken]
  split
  case h_3 => omega
  all_goals exact le_rfl

theorem sum_distance_lt (laneCount : ℕ) {x : Worker ι}
    (hworkers : p'.workers = update p.workers w x)
    (hsize : p'.workersSize = p.workersSize) (htoken : p'.jobToken = p.jobToken)
    (hnext : p.nextLane ≤ p'.nextLane) (hw : w < p.workersSize)
    (hlt : p'.distance laneCount x < p.distance laneCount (p.workers w)) :
    ∑ v ∈ Finset.range p'.workersSize, p'.distance laneCount (p'.workers v) <
      ∑ v ∈ Finset.range p.workersSize, p.distance laneCount (p.workers v) := by
  rw [hsize, hworkers]
  refine Finset.sum_lt_sum (fun v _ => ?_) ⟨w, Finset.mem_range.mpr hw, ?_⟩
  · by_cases hv : v = w
    · subst hv
      rw [Function.update_self]
      exact hlt.le
    · rw [Function.update_of_ne hv]
      exact distance_mono laneCount htoken hnext _
  · rw [Function.update_self]
    exact hlt

theorem distance_lt_of_active (laneCount : ℕ) {x : Worker ι} (hx : x.phase ≠ .waiting) :
    p.distance laneCount x < 3 * laneCount + 3 := by
  unfold distance
  split
  case h_1 hphase => exact absurd hphase hx
  all_goals omega

theorem distance_loopHead_lt {laneCount i step : ℕ} (hi : i < laneCount) (hstep : 0 < step)
    (hnext : strided config = false → i < p.nextLane) (x : Worker ι) :
    p.distance laneCount { x with phase := loopHead config (i + step) } < 3 * (laneCount - i) := by
  unfold distance loopHead
  by_cases hstrided : strided config = true
  · rw [if_pos hstrided]
    dsimp only
    omega
  · rw [if_neg hstrided]
    have hlt := hnext (by simpa using hstrided)
    dsimp only
    omega

theorem Staffed.exists_unfinished (h : Staffed config job p)
    (hcount : p.completedWorkers ≠ p.workersSize) :
    ∃ w, w < p.workersSize ∧ ¬ p.Finished w := by
  by_contra hnone
  have hall : ∀ w, w < p.workersSize → p.Finished w := fun w hw =>
    by_contra fun hfin => hnone ⟨w, hw, hfin⟩
  refine hcount (h.completed.trans ?_)
  rw [Finset.filter_true_of_mem fun w hw => hall w (Finset.mem_range.mp hw), Finset.card_range]

variable [DecidableEq ι]

theorem Working.workerStep_lt (h : Working config D job start p board log)
    (hcount : 0 < config.hostThreadCount) (hw : w < p.workersSize) (hunfinished : ¬ p.Finished w) :
    ∑ v ∈ Finset.range (p.workerStep config D w).workersSize,
        (p.workerStep config D w).distance job.lanes.length ((p.workerStep config D w).workers v) <
      ∑ v ∈ Finset.range p.workersSize, p.distance job.lanes.length (p.workers v) := by
  cases hphase : (p.workers w).phase with
  | waiting =>
    have hseen : p.jobToken ≠ (p.workers w).seenJobToken := fun heq =>
      hunfinished ⟨hphase, heq.symm⟩
    have hstep : p.workerStep config D w = p.setWorker w (p.takeJob config w) := by
      simp only [workerStep, hphase, if_pos hseen]
    have hactive : (p.takeJob config w).phase ≠ .waiting := by
      unfold takeJob loopHead
      dsimp only
      split_ifs <;> simp
    rw [hstep]
    refine sum_distance_lt _ rfl rfl rfl le_rfl hw ?_
    have hfar : p.distance job.lanes.length (p.workers w) = 3 * job.lanes.length + 3 := by
      simp only [distance, hphase, if_neg (Ne.symm hseen)]
    rw [hfar]
    exact distance_lt_of_active _ hactive
  | striding i =>
    have hcopied := h.staffed.copied w (by simp [hphase])
    have hlanes : (p.workers w).lanes = job.lanes := by simp [Worker.lanes, hcopied.lanes]
    have hstep : p.workerStep config D w =
        p.setPhase w (if i < job.lanes.length then .calling i else .completing) := by
      simp only [workerStep, hphase, hlanes]
    rw [hstep]
    refine sum_distance_lt _ (workers_setPhase _ w _) rfl rfl le_rfl hw ?_
    have hfar : p.distance job.lanes.length (p.workers w) = 3 * (job.lanes.length - i) + 2 := by
      simp only [distance, hphase]
    rw [hfar]
    by_cases hi : i < job.lanes.length
    · rw [if_pos hi]
      exact Nat.lt_succ_self _
    · rw [if_neg hi]
      exact Nat.lt_of_lt_of_le Nat.one_lt_two (Nat.le_add_left 2 _)
  | stealing =>
    have hcopied := h.staffed.copied w (by simp [hphase])
    have hlanes : (p.workers w).lanes = job.lanes := by simp [Worker.lanes, hcopied.lanes]
    have hstep : p.workerStep config D w =
        { p with nextLane := p.nextLane + 1 : DispatcherPool ι δ }.setPhase w
          (if job.lanes.length ≤ p.nextLane then .completing else .calling p.nextLane) := by
      simp only [workerStep, hphase, hlanes]
    rw [hstep]
    refine sum_distance_lt _ (workers_setPhase _ w _) rfl rfl (Nat.le_succ _) hw ?_
    have hfar : p.distance job.lanes.length (p.workers w) =
        3 * (job.lanes.length - p.nextLane) + 2 := by
      simp only [distance, hphase]
    rw [hfar]
    by_cases hi : job.lanes.length ≤ p.nextLane
    · rw [if_pos hi]
      exact Nat.lt_of_lt_of_le Nat.one_lt_two (Nat.le_add_left 2 _)
    · rw [if_neg hi]
      exact Nat.lt_succ_self _
  | calling i =>
    have hcopied := h.staffed.copied w (by simp [hphase])
    have hstands := h.staffed.stands w
    rw [hphase] at hstands
    have hi : i < job.lanes.length := hstands.1
    have hlanes : (p.workers w).lanes = job.lanes := by simp [Worker.lanes, hcopied.lanes]
    have hlane : (p.workers w).lanes[i]? = some job.lanes[i] := by
      rw [hlanes]
      exact List.getElem?_eq_getElem hi
    have hstep : p.workerStep config D w =
        (p.callLane D (p.workers w) i job.lanes[i]).setPhase w (.tracing i) := by
      simp only [workerStep, hphase, hlane]
    have hcalled : (p.callLane D (p.workers w) i job.lanes[i]).workers = p.workers ∧
        (p.callLane D (p.workers w) i job.lanes[i]).workersSize = p.workersSize ∧
        (p.callLane D (p.workers w) i job.lanes[i]).jobToken = p.jobToken ∧
        (p.callLane D (p.workers w) i job.lanes[i]).nextLane = p.nextLane := by
      unfold callLane
      split <;> exact ⟨rfl, rfl, rfl, rfl⟩
    obtain ⟨hworkers, hsize, htoken, hnext⟩ := hcalled
    rw [hstep]
    refine sum_distance_lt _ (hworkers ▸ workers_setPhase _ w _) hsize htoken hnext.ge hw ?_
    have hfar : p.distance job.lanes.length (p.workers w) = 3 * (job.lanes.length - i) + 1 := by
      simp only [distance, hphase]
    rw [hfar]
    exact Nat.lt_succ_self _
  | tracing i =>
    have hcopied := h.staffed.copied w (by simp [hphase])
    have hstands := h.staffed.stands w
    rw [hphase] at hstands
    have hdone : board.status i = .done w :=
      (h.shared.held.done i w).mpr (by simp [hands, Worker.hand, hphase])
    -- with stealing the lane has been drawn from the counter
    have hdrawn : strided config = false → i < p.nextLane := by
      intro hsteal
      have hreached := ((h.shared.reached i).mp (by simp [hdone])).2
      unfold Reached at hreached
      rwa [if_neg (by simp [hsteal])] at hreached
    have hstep : p.workerStep config D w =
        (p.appendTraceEvent config w i (operation (p.workers w).job)).setPhase w
          (loopHead config (i + job.active config)) := by
      simp only [workerStep, hphase, hcopied.workerCount]
    rw [hstep]
    refine sum_distance_lt _ (workers_setPhase _ w _) rfl rfl le_rfl hw ?_
    have hfar : p.distance job.lanes.length (p.workers w) = 3 * (job.lanes.length - i) := by
      simp only [distance, hphase]
    rw [hfar]
    exact distance_loopHead_lt hstands.1 (active_pos hcount job) hdrawn _
  | completing =>
    have hcopied := h.staffed.copied w (by simp [hphase])
    have hstep : p.workerStep config D w =
        { p with completedWorkers := p.completedWorkers + 1 : DispatcherPool ι δ }.setPhase w
          .waiting := by
      simp only [workerStep, hphase]
    rw [hstep]
    refine sum_distance_lt _ (workers_setPhase _ w _) rfl rfl le_rfl hw ?_
    have hfar : p.distance job.lanes.length (p.workers w) = 1 := by
      simp only [distance, hphase]
    have hthere : ({ p with completedWorkers := p.completedWorkers + 1 :
        DispatcherPool ι δ }.setPhase w .waiting).distance job.lanes.length
        { p.workers w with phase := .waiting } = 0 := if_pos hcopied.seenJobToken
    rw [hfar]
    exact hthere.trans_lt Nat.one_pos

theorem workerStep_finished (hfinished : p.Finished w) : p.workerStep config D w = p := by
  have hseen : ¬ p.jobToken ≠ (p.workers w).seenJobToken := fun hne => hne hfinished.2.symm
  simp only [workerStep, hfinished.1, if_neg hseen]

def IsThread (config : HostThreadingConfig) : Move ι → Prop
  | .caller => True
  | .worker w => w < config.hostThreadCount
  | .dispatch _ _ | .tick _ => False

theorem callerStep_nears (h : During config D job start p)
    (hready : p.caller ≠ .ready) (hwaits : ∀ kind, p.caller = .waiting kind →
      p.completedWorkers = p.workersSize) :
    (p.callerStep config).2.caller = .ready ∨
      (p.callerStep config).2.remaining config job.lanes.length <
        p.remaining config job.lanes.length := by
  unfold During at h
  cases hcaller : p.caller with
  | ready => exact absurd hcaller hready
  | starting kind lanes tickBudget =>
    rw [hcaller] at h
    obtain ⟨-, -, hsize, -⟩ := h
    right
    have hstep : (p.callerStep config).2 =
        { p.resetJobState kind lanes tickBudget with caller := .waiting kind } := by
      simp only [callerStep, hcaller]
    have hle := Finset.sum_le_card_nsmul (Finset.range p.workersSize)
      (fun v => (p.callerStep config).2.distance job.lanes.length
        ((p.callerStep config).2.workers v))
      (3 * job.lanes.length + 3) fun v _ => distance_le _ _ _
    rw [Finset.card_range, hsize, Nat.nsmul_eq_mul] at hle
    have hfar : p.remaining config job.lanes.length =
        3 + config.hostThreadCount * (3 * job.lanes.length + 3) := by
      simp only [remaining, hcaller]
    have hnear : (p.callerStep config).2.remaining config job.lanes.length =
        2 + ∑ v ∈ Finset.range p.workersSize, (p.callerStep config).2.distance job.lanes.length
          ((p.callerStep config).2.workers v) := by
      rw [hstep]
      rfl
    rw [hfar, hnear, hsize]
    omega
  | waiting kind =>
    have hdone := hwaits kind hcaller
    by_cases hdispatch : kind = .dispatch
    · right
      have hfar : p.remaining config job.lanes.length = 2 + ∑ v ∈ Finset.range p.workersSize,
          p.distance job.lanes.length (p.workers v) := by
        simp only [remaining, hcaller]
      have hnear : (p.callerStep config).2.caller = .aggregating := by
        simp only [callerStep, hcaller, if_pos hdone, if_pos hdispatch]
      rw [hfar]
      unfold remaining
      rw [hnear]
      dsimp only
      omega
    · left
      simp only [callerStep, hcaller, if_pos hdone, if_neg hdispatch]
  | aggregating =>
    left
    simp only [callerStep, hcaller]

theorem workerStep_nears (h : During config D job start p) (hcount : 0 < config.hostThreadCount)
    (hw : w < p.workersSize) : p.workerStep config D w = p ∨
      (p.workerStep config D w).remaining config job.lanes.length <
        p.remaining config job.lanes.length := by
  unfold During at h
  cases hcaller : p.caller with
  | ready =>
    rw [hcaller] at h
    exact Or.inl (h.workerStep hw)
  | starting kind lanes tickBudget =>
    rw [hcaller] at h
    exact Or.inl (h.2.1.workerStep hw)
  | aggregating =>
    rw [hcaller] at h
    exact Or.inl (h.2.1.workerStep hw)
  | waiting kind =>
    rw [hcaller] at h
    obtain ⟨-, board, log, hworking⟩ := h
    by_cases hfinished : p.Finished w
    · exact Or.inl (workerStep_finished hfinished)
    · right
      unfold remaining
      rw [caller_workerStep, hcaller]
      exact Nat.add_lt_add_left (hworking.workerStep_lt hcount hw hfinished) 2

theorem caller_next_ready {move : Move ι} (hready : p.caller = .ready)
    (hmove : move.isCall = false) :
    ((machine config D).next p move).caller = .ready := by
  cases move with
  | dispatch | tick => cases hmove
  | caller =>
    change (p.callerStep (normalizePoolConfig config)).2.caller = .ready
    simp only [callerStep, hready]
  | worker w =>
    change (step (normalizePoolConfig config) D p (.worker w)).2.caller = .ready
    simp only [step]
    split_ifs
    · rw [caller_workerStep]
      exact hready
    · exact hready

/-- In a call, a thread waits for its condition or gets nearer to the end, and not all of them
wait. -/
theorem progresses (config : HostThreadingConfig) (D : LaneDispatchers ι δ) (job : Job ι)
    (start : LaneStates ι δ) :
    (machine config D).Progresses (During (normalizePoolConfig config) D job start)
      (fun p => p.caller = .ready) (fun move => move.isCall = false)
      (IsThread (normalizePoolConfig config))
      (remaining (normalizePoolConfig config) job.lanes.length) where
  keep p move hmove h := step_during h (hostThreadCount_normalizePoolConfig config) hmove
  stay _ _ hmove _ hready := caller_next_ready hready hmove
  move p move hmove h hready := by
    have hcount := hostThreadCount_normalizePoolConfig config
    cases move with
    | dispatch | tick => cases hmove
    | caller =>
      by_cases hwaits : ∀ kind, p.caller = .waiting kind → p.completedWorkers = p.workersSize
      · exact Or.inr (callerStep_nears h hready hwaits)
      · left
        push Not at hwaits
        obtain ⟨kind, hcaller, hdone⟩ := hwaits
        change (p.callerStep (normalizePoolConfig config)).2 = p
        simp only [callerStep, hcaller, if_neg hdone]
    | worker w =>
      by_cases hw : w < p.workersSize
      · have hstep : (machine config D).next p (.worker w) =
            p.workerStep (normalizePoolConfig config) D w := by
          change (step (normalizePoolConfig config) D p (.worker w)).2 = _
          simp only [step, if_pos hw]
        unfold Machine.Nears
        rw [hstep]
        exact (workerStep_nears h hcount hw).imp_right Or.inr
      · left
        change (step (normalizePoolConfig config) D p (.worker w)).2 = p
        simp only [step, if_neg hw]
  busy p h hready := by
    have hcount := hostThreadCount_normalizePoolConfig config
    by_cases hwaits : ∀ kind, p.caller = .waiting kind → p.completedWorkers = p.workersSize
    · exact ⟨.caller, trivial, callerStep_nears h hready hwaits⟩
    · push Not at hwaits
      obtain ⟨kind, hcaller, hdone⟩ := hwaits
      have hduring := h
      unfold During at hduring
      rw [hcaller] at hduring
      obtain ⟨-, board, log, hworking⟩ := hduring
      obtain ⟨w, hw, hfinished⟩ := hworking.staffed.exists_unfinished hdone
      have hthread : w < (normalizePoolConfig config).hostThreadCount := hworking.staffed.size ▸ hw
      refine ⟨.worker w, hthread, Or.inr ?_⟩
      have hstep : (machine config D).next p (.worker w) =
          p.workerStep (normalizePoolConfig config) D w := by
        change (step (normalizePoolConfig config) D p (.worker w)).2 = _
        simp only [step, if_pos hw]
      rw [hstep]
      unfold remaining
      rw [caller_workerStep, hcaller]
      exact Nat.add_lt_add_left (hworking.workerStep_lt hcount hw hfinished) 2

theorem remaining_le (h : During config D job start p) : p.remaining config job.lanes.length ≤
    3 + config.hostThreadCount * (3 * job.lanes.length + 3) := by
  unfold During at h
  unfold remaining
  cases hcaller : p.caller with
  | ready => exact Nat.zero_le _
  | starting kind lanes tickBudget => exact le_rfl
  | aggregating => exact Nat.le_trans (by decide : 1 ≤ 3) (Nat.le_add_right 3 _)
  | waiting kind =>
    rw [hcaller] at h
    obtain ⟨-, board, log, hworking⟩ := h
    have hle := Finset.sum_le_card_nsmul (Finset.range p.workersSize)
      (fun v => p.distance job.lanes.length (p.workers v)) (3 * job.lanes.length + 3)
      fun v _ => distance_le _ _ _
    rw [Finset.card_range, hworking.staffed.size, Nat.nsmul_eq_mul] at hle
    rw [hworking.staffed.size]
    dsimp only
    omega

def Move.lanes : Move ι → List ι
  | .dispatch lanes _ | .tick lanes => lanes
  | .caller | .worker _ => []

theorem next_of_no_lanes {call : Move ι} (hready : p.caller = .ready) (hcall : call.isCall = true)
    (hlanes : call.lanes = []) : (machine config D).next p call = p := by
  cases call with
  | caller | worker => cases hcall
  | dispatch lanes tickBudget =>
    obtain rfl : lanes = [] := hlanes
    simp only [machine, Machine.next, step, hready, List.isEmpty_nil, ↓reduceIte]
  | tick lanes =>
    obtain rfl : lanes = [] := hlanes
    simp only [machine, Machine.next, step, hready, List.isEmpty_nil, ↓reduceIte]

theorem next_during (hquiet : Quiet (normalizePoolConfig config) p) {call : Move ι}
    (hready : p.caller = .ready) (hcall : call.isCall = true) (hlanes : call.lanes ≠ []) :
    ∃ job : Job ι, job.lanes = call.lanes ∧
      During (normalizePoolConfig config) D job p.dispatchers ((machine config D).next p call) := by
  have hnonempty : call.lanes.isEmpty = false := by simpa using hlanes
  cases call with
  | caller | worker => cases hcall
  | dispatch lanes tickBudget =>
    have hnext : (machine config D).next p (.dispatch lanes tickBudget) =
        p.startCall (normalizePoolConfig config) .dispatch lanes tickBudget := by
      have hisEmpty : lanes.isEmpty = false := hnonempty
      simp only [machine, Machine.next, step, hready, hisEmpty, Bool.false_eq_true, ↓reduceIte]
    refine ⟨⟨.dispatch, lanes, tickBudget, by decide, hlanes⟩, rfl, ?_⟩
    rw [hnext]
    exact hquiet.startCall _ hlanes
  | tick lanes =>
    have hnext : (machine config D).next p (.tick lanes) =
        p.startCall (normalizePoolConfig config) .tick lanes 0 := by
      have hisEmpty : lanes.isEmpty = false := hnonempty
      simp only [machine, Machine.next, step, hready, hisEmpty, Bool.false_eq_true, ↓reduceIte]
    refine ⟨⟨.tick, lanes, 0, by decide, hlanes⟩, rfl, ?_⟩
    rw [hnext]
    exact hquiet.startCall _ hlanes

end DispatcherPool
end Contur
