import Mathlib.Data.Finset.Card
import Mathlib.Data.Finset.Range
import Contur.DispatcherPool
import Contur.WorkBoard

/-!
# A job of the pool

While the caller waits, every worker has not yet seen the job, works on it with
copies of its fields, or has been through it and is counted. A board keeps track of
the lanes: with strides the workers that have passed a lane decide whether it is
free, with stealing the shared counter does. What the dispatchers, the error codes
and the traces hold follows from the board and from the order of the records.
-/

namespace Contur
open Function (update)
open WorkBoard

structure Job (ι : Type) where
  kind : JobKind
  lanes : List ι
  tickBudget : ℕ
  kind_ne : kind ≠ .none
  lanes_ne : lanes ≠ []

structure LaneRecord where
  worker : ℕ
  lane : ℕ
  sequence : ℕ

namespace Job
variable {ι δ : Type} (job : Job ι)

def laneCall : LaneCall :=
  match job.kind with
  | .tick => .tick
  | _ => .dispatch job.tickBudget

def after (D : LaneDispatchers ι δ) (lane : ι) (s : δ) : δ :=
  match job.kind with
  | .tick => D.tick lane s
  | _ => (D.dispatch lane s job.tickBudget).2

def event (epoch : ℕ) (r : LaneRecord) : TraceEvent where
  subsystem := "dispatch.runtime"
  operation := DispatcherPool.operation job.kind
  details := DispatcherPool.details r.lane
  workerId := r.worker
  sequence := r.sequence
  epoch := epoch

def active (config : HostThreadingConfig) : ℕ := min config.hostThreadCount job.lanes.length

end Job

def Worker.hand {ι : Type} (x : Worker ι) : Hand ℕ :=
  match x.phase with
  | .calling laneIndex => .has laneIndex
  | .tracing laneIndex => .did laneIndex
  | _ => .empty

namespace DispatcherPool
variable {ι δ : Type} {config : HostThreadingConfig} {job : Job ι} {p p' : DispatcherPool ι δ}
  {w : ℕ}

def hands (p : DispatcherPool ι δ) : ℕ → Hand ℕ := fun w => (p.workers w).hand

def Finished (p : DispatcherPool ι δ) (w : ℕ) : Prop :=
  (p.workers w).phase = .waiting ∧ (p.workers w).seenJobToken = p.jobToken

instance (p : DispatcherPool ι δ) (w : ℕ) : Decidable (p.Finished w) :=
  inferInstanceAs (Decidable (_ ∧ _))

structure Copied (config : HostThreadingConfig) (job : Job ι) (p : DispatcherPool ι δ)
    (x : Worker ι) : Prop where
  seenJobToken : x.seenJobToken = p.jobToken
  kind : x.job = job.kind
  lanes : x.jobLanes = some job.lanes
  tickBudget : x.jobTickBudget = job.tickBudget
  workerCount : x.workerCount = job.active config

/-- Where the worker `w` can be: with strides the lanes of a worker are those congruent to it. -/
def Stands (config : HostThreadingConfig) (job : Job ι) (w : ℕ) : WorkerPhase → Prop
  | .waiting | .completing => True
  | .striding laneIndex =>
      strided config ∧ w < job.active config ∧ laneIndex % job.active config = w
  | .stealing => strided config = false ∧ w < job.active config
  | .calling laneIndex | .tracing laneIndex =>
    laneIndex < job.lanes.length ∧ w < job.active config ∧
      (strided config → laneIndex % job.active config = w)

structure Staffed (config : HostThreadingConfig) (job : Job ι) (p : DispatcherPool ι δ) : Prop where
  size : p.workersSize = config.hostThreadCount
  posted : p.currentJob = job.kind ∧ p.lanes = some job.lanes ∧ p.tickBudget = job.tickBudget ∧
    p.activeWorkers = job.active config
  outside : ∀ w, config.hostThreadCount ≤ w → (p.workers w).phase = .waiting
  copied : ∀ w, (p.workers w).phase ≠ .waiting → Copied config job p (p.workers w)
  stands : ∀ w, Stands config job w (p.workers w).phase
  completed : p.completedWorkers = ((Finset.range p.workersSize).filter p.Finished).card

structure SameJob (p p' : DispatcherPool ι δ) : Prop where
  caller : p'.caller = p.caller
  size : p'.workersSize = p.workersSize
  jobToken : p'.jobToken = p.jobToken
  currentJob : p'.currentJob = p.currentJob
  lanes : p'.lanes = p.lanes
  tickBudget : p'.tickBudget = p.tickBudget
  activeWorkers : p'.activeWorkers = p.activeWorkers
  lastEpoch : p'.lastEpoch = p.lastEpoch

theorem SameJob.posted (h : SameJob p p') (hp : p.currentJob = job.kind ∧ p.lanes = some job.lanes ∧
    p.tickBudget = job.tickBudget ∧ p.activeWorkers = job.active config) :
    p'.currentJob = job.kind ∧ p'.lanes = some job.lanes ∧ p'.tickBudget = job.tickBudget ∧
      p'.activeWorkers = job.active config := by
  rw [h.currentJob, h.lanes, h.tickBudget, h.activeWorkers]
  exact hp

theorem Staffed.move (h : Staffed config job p) (hsame : SameJob p p') {x : Worker ι}
    (hw : w < p.workersSize) (hworkers : p'.workers = update p.workers w x)
    (hcompleted : p'.completedWorkers = p.completedWorkers) (hunfinished : ¬ p.Finished w)
    (hx : x.phase ≠ .waiting) (hcopied : Copied config job p x)
      (hstands : Stands config job w x.phase) :
    Staffed config job p' := by
  have hcopied' : ∀ y, Copied config job p y → Copied config job p' y := fun y hy =>
    ⟨hy.seenJobToken.trans hsame.jobToken.symm, hy.kind, hy.lanes, hy.tickBudget, hy.workerCount⟩
  have hfinished : ∀ v, p'.Finished v ↔ p.Finished v := by
    intro v
    unfold Finished
    rw [hworkers, hsame.jobToken]
    by_cases hv : v = w
    · subst hv
      rw [Function.update_self]
      exact iff_of_false (fun hfin => hx hfin.1) hunfinished
    · rw [Function.update_of_ne hv]
  refine ⟨hsame.size.trans h.size, hsame.posted h.posted, fun v hv => ?_, fun v hv => ?_,
    fun v => ?_, ?_⟩
  · have hne : v ≠ w := by
      rw [h.size] at hw
      omega
    rw [hworkers, Function.update_of_ne hne]
    exact h.outside v hv
  · rw [hworkers] at hv ⊢
    by_cases hvw : v = w
    · subst hvw
      rw [Function.update_self]
      exact hcopied' x hcopied
    · rw [Function.update_of_ne hvw] at hv ⊢
      exact hcopied' _ (h.copied v hv)
  · rw [hworkers]
    by_cases hvw : v = w
    · subst hvw
      rwa [Function.update_self]
    · rw [Function.update_of_ne hvw]
      exact h.stands v
  · rw [hcompleted, h.completed, hsame.size]
    congr 1
    exact Finset.filter_congr fun v _ => (hfinished v).symm

theorem Staffed.not_finished (h : (p.workers w).phase ≠ .waiting) : ¬ p.Finished w :=
  fun hfin => h hfin.1

theorem Staffed.complete (h : Staffed config job p) (hw : w < p.workersSize)
    (hphase : (p.workers w).phase = .completing) :
    Staffed config job ({ p with completedWorkers := p.completedWorkers + 1 :
      DispatcherPool ι δ }.setPhase w .waiting) := by
  have hcopied := h.copied w (by rw [hphase]; decide)
  have hfinished : ∀ v, ({ p with completedWorkers := p.completedWorkers + 1 :
      DispatcherPool ι δ }.setPhase w .waiting).Finished v ↔ v = w ∨ p.Finished v := by
    intro v
    unfold Finished setPhase setWorker
    by_cases hv : v = w
    · subst hv
      simp [hcopied.seenJobToken]
    · simp [hv]
  refine ⟨h.size, h.posted, fun v hv => ?_, fun v hv => ?_, fun v => ?_, ?_⟩
  · by_cases hvw : v = w
    · simp [hvw, setPhase, setWorker]
    · simpa [setPhase, setWorker, hvw] using h.outside v hv
  · by_cases hvw : v = w
    · simp [hvw, setPhase, setWorker] at hv
    · have hv' : (p.workers v).phase ≠ .waiting := by
        simpa [setPhase, setWorker, hvw] using hv
      obtain ⟨hseen, hkind, hlanes, hbudget, hcount⟩ := h.copied v hv'
      simp only [setPhase, setWorker, Function.update_of_ne hvw]
      exact ⟨hseen, hkind, hlanes, hbudget, hcount⟩
  · by_cases hvw : v = w
    · simp [hvw, setPhase, setWorker, Stands]
    · simpa [setPhase, setWorker, hvw] using h.stands v
  · have hset : (Finset.range p.workersSize).filter ({ p with completedWorkers :=
        p.completedWorkers + 1 : DispatcherPool ι δ }.setPhase w .waiting).Finished =
        insert w ((Finset.range p.workersSize).filter p.Finished) := by
      ext v
      simp only [Finset.mem_filter, Finset.mem_range, Finset.mem_insert, hfinished]
      constructor
      · rintro ⟨hv, hvw | hfin⟩
        · exact Or.inl hvw
        · exact Or.inr ⟨hv, hfin⟩
      · rintro (hvw | ⟨hv, hfin⟩)
        · exact ⟨hvw ▸ hw, Or.inl hvw⟩
        · exact ⟨hv, Or.inr hfin⟩
    have hnot : w ∉ (Finset.range p.workersSize).filter p.Finished := by
      simp [Finished, hphase]
    change p.completedWorkers + 1 = ((Finset.range p.workersSize).filter _).card
    rw [hset, Finset.card_insert_of_notMem hnot, h.completed]

theorem Staffed.all_finished (h : Staffed config job p)
    (hcount : p.completedWorkers = p.workersSize)
    (hw : w < p.workersSize) : p.Finished w := by
  have hcard := h.completed
  rw [hcount] at hcard
  have hfull : (Finset.range p.workersSize).filter p.Finished = Finset.range p.workersSize := by
    apply Finset.eq_of_subset_of_card_le (Finset.filter_subset _ _)
    rw [Finset.card_range, ← hcard]
  have hmem : w ∈ (Finset.range p.workersSize).filter p.Finished := by
    rw [hfull]
    exact Finset.mem_range.mpr hw
  exact (Finset.mem_filter.mp hmem).2

def Passed (p : DispatcherPool ι δ) (x : Worker ι) (i : ℕ) : Prop :=
  match x.phase with
  | .waiting => x.seenJobToken = p.jobToken
  | .striding laneIndex => i < laneIndex
  | .calling laneIndex | .tracing laneIndex => i ≤ laneIndex
  | .stealing | .completing => True

def Reached (config : HostThreadingConfig) (job : Job ι) (p : DispatcherPool ι δ) (i : ℕ) : Prop :=
  if strided config then p.Passed (p.workers (i % job.active config)) i else i < p.nextLane

def Left (p : DispatcherPool ι δ) (w : ℕ) : Prop := (p.workers w).phase = .completing ∨ p.Finished w

structure Shared (config : HostThreadingConfig) (job : Job ι) (p : DispatcherPool ι δ)
    (board : Board ℕ ℕ) : Prop where
  held : board.Held p.hands
  reached : ∀ i, board.status i ≠ .free ↔ i < job.lanes.length ∧ p.Reached config job i
  stolen : strided config = false → ∀ w, w < job.active config → p.Left w →
    job.lanes.length ≤ p.nextLane

theorem active_pos (hcount : 0 < config.hostThreadCount) (job : Job ι) : 0 < job.active config :=
  lt_min hcount (List.length_pos_iff.mpr job.lanes_ne)

theorem hands_update {x : Worker ι} (h : p'.workers = update p.workers w x) :
    p'.hands = update p.hands w x.hand := by
  funext v
  unfold hands
  rw [h]
  by_cases hv : v = w
  · subst hv
    rw [Function.update_self, Function.update_self]
  · rw [Function.update_of_ne hv, Function.update_of_ne hv]

theorem left_update {x : Worker ι} (hsame : SameJob p p') (h : p'.workers = update p.workers w x)
    {v : ℕ} (hv : v ≠ w) : p'.Left v ↔ p.Left v := by
  unfold Left Finished
  rw [h, hsame.jobToken, Function.update_of_ne hv]

theorem reached_strided {x : Worker ι} (hstrided : strided config) (hsame : SameJob p p')
    (h : p'.workers = update p.workers w x) (i : ℕ) :
    p'.Reached config job i ↔
      if i % job.active config = w then p.Passed x i else p.Reached config job i := by
  have hpassed : ∀ y j, p'.Passed y j ↔ p.Passed y j := by
    intro y j
    unfold Passed
    rw [hsame.jobToken]
  unfold Reached
  rw [if_pos hstrided, if_pos hstrided, h]
  split_ifs with hi
  · rw [hi, Function.update_self]
    exact hpassed x i
  · rw [Function.update_of_ne hi]
    exact hpassed _ i

theorem Shared.keep {board board' : Board ℕ ℕ} {x : Worker ι} (h : Shared config job p board)
    (hsame : SameJob p p') (hworkers : p'.workers = update p.workers w x)
    (hnext : p'.nextLane = p.nextLane) (hheld : board'.Held (update p.hands w x.hand))
    (hstatus : ∀ i, board'.status i ≠ .free ↔ board.status i ≠ .free)
    (hpassed : strided config → ∀ i, i < job.lanes.length → i % job.active config = w →
      (p.Passed x i ↔ p.Passed (p.workers w) i))
    (hleft : strided config = false → w < job.active config →
      (p'.Left w → job.lanes.length ≤ p.nextLane)) :
    Shared config job p' board' := by
  refine ⟨hands_update hworkers ▸ hheld, fun i => ?_, fun hsteal v hv hgone => ?_⟩
  · rw [hstatus, h.reached]
    refine and_congr_right fun hi => ?_
    by_cases hstrided : strided config
    · rw [reached_strided hstrided hsame hworkers]
      split_ifs with hmod
      · rw [hpassed hstrided i hi hmod, ← hmod]
        simp [Reached, hstrided]
      · rfl
    · simp [Reached, hstrided, hnext]
  · rw [hnext]
    by_cases hvw : v = w
    · subst hvw
      exact hleft hsteal hv hgone
    · exact h.stolen hsteal v hv ((left_update hsame hworkers hvw).mp hgone)

theorem Shared.stride {board : Board ℕ ℕ} {x : Worker ι} {i : ℕ} (h : Shared config job p board)
    (hsame : SameJob p p') (hworkers : p'.workers = update p.workers w x)
    (hstrided : strided config) (hphase : (p.workers w).phase = .striding i)
    (hx : x.phase = .calling i) (hi : i < job.lanes.length) (hmod : i % job.active config = w) :
    ∃ board', Shared config job p' board' ∧ board'.doneItems = board.doneItems ∧
      board'.recordedItems = board.recordedItems := by
  have hfree : board.status i = .free := by
    by_contra hne
    have hreached := ((h.reached i).mp hne).2
    simp [Reached, hstrided, hmod, Passed, hphase] at hreached
  refine ⟨board.take i w hfree, ⟨?_, fun j => ?_, fun hsteal => ?_⟩, rfl, rfl⟩
  · rw [hands_update hworkers]
    have hhand : x.hand = .has i := by simp [Worker.hand, hx]
    rw [hhand]
    exact h.held.take (by simp [hands, Worker.hand, hphase]) hfree
  · rw [reached_strided hstrided hsame hworkers]
    by_cases hj : j = i
    · subst hj
      simp [Board.take, hi, hmod, Passed, hx]
    · have hstatus : (board.take i w hfree).status j = board.status j := by simp [Board.take, hj]
      rw [hstatus, h.reached]
      refine and_congr_right fun _ => ?_
      split_ifs with hjmod
      · simp only [Reached, hstrided, ↓reduceIte, hjmod, Passed, hphase, hx]
        omega
      · rfl
  · rw [hstrided] at hsteal
    cases hsteal

theorem Shared.steal {board : Board ℕ ℕ} {x : Worker ι} (h : Shared config job p board)
    (hsame : SameJob p p') (hworkers : p'.workers = update p.workers w x)
    (hsteal : strided config = false) (hnext : p'.nextLane = p.nextLane + 1)
    (hphase : (p.workers w).phase = .stealing) (hx : x.phase = .calling p.nextLane)
    (hlt : p.nextLane < job.lanes.length) :
    ∃ board', Shared config job p' board' ∧ board'.doneItems = board.doneItems ∧
      board'.recordedItems = board.recordedItems := by
  have hfree : board.status p.nextLane = .free := by
    by_contra hne
    have hreached := ((h.reached p.nextLane).mp hne).2
    simp [Reached, hsteal] at hreached
  refine ⟨board.take p.nextLane w hfree, ⟨?_, fun j => ?_, fun _ v hv hgone => ?_⟩, rfl, rfl⟩
  · rw [hands_update hworkers]
    have hhand : x.hand = .has p.nextLane := by simp [Worker.hand, hx]
    rw [hhand]
    exact h.held.take (by simp [hands, Worker.hand, hphase]) hfree
  · by_cases hj : j = p.nextLane
    · subst hj
      simp [Board.take, hlt, Reached, hsteal, hnext]
    · have hstatus : (board.take p.nextLane w hfree).status j = board.status j := by
        simp [Board.take, hj]
      rw [hstatus, h.reached]
      refine and_congr_right fun _ => ?_
      simp only [Reached, hsteal, Bool.false_eq_true, ↓reduceIte, hnext]
      omega
  · by_cases hvw : v = w
    · subst hvw
      rcases hgone with hgone | ⟨hgone, -⟩
      · rw [hworkers, Function.update_self, hx] at hgone
        cases hgone
      · rw [hworkers, Function.update_self, hx] at hgone
        cases hgone
    · have hold := h.stolen hsteal v hv ((left_update hsame hworkers hvw).mp hgone)
      omega

theorem Shared.stealNone {board : Board ℕ ℕ} {x : Worker ι} (h : Shared config job p board)
    (hworkers : p'.workers = update p.workers w x) (hsteal : strided config = false)
    (hnext : p'.nextLane = p.nextLane + 1) (hphase : (p.workers w).phase = .stealing)
    (hx : x.phase = .completing) (hle : job.lanes.length ≤ p.nextLane) :
      Shared config job p' board := by
  refine ⟨?_, fun j => ?_, fun _ v _ _ => ?_⟩
  · rw [hands_update hworkers]
    have hhand : x.hand = .empty := by simp [Worker.hand, hx]
    rw [hhand]
    exact h.held.keep (by simp [hands, Worker.hand, hphase])
  · rw [h.reached]
    refine and_congr_right fun hj => ?_
    simp only [Reached, hsteal, Bool.false_eq_true, ↓reduceIte, hnext]
    omega
  · omega

theorem Shared.all_recorded {board : Board ℕ ℕ} (h : Shared config job p board)
    (hstaffed : Staffed config job p) (hcount : 0 < config.hostThreadCount)
    (hdone : p.completedWorkers = p.workersSize) :
    (∀ i, i ∈ List.range job.lanes.length ↔ board.status i = .recorded) ∧
      ∀ i v, board.status i ≠ .done v := by
  have hfinished : ∀ v, v < config.hostThreadCount → p.Finished v := fun v hv =>
    hstaffed.all_finished hdone (hstaffed.size ▸ hv)
  have hempty : ∀ v, p.hands v = .empty := by
    intro v
    have hwaiting : (p.workers v).phase = .waiting := by
      by_cases hv : v < config.hostThreadCount
      · exact (hfinished v hv).1
      · exact hstaffed.outside v (Nat.le_of_not_lt hv)
    simp [hands, Worker.hand, hwaiting]
  have hpos := active_pos hcount job
  have hle : job.active config ≤ config.hostThreadCount := Nat.min_le_left _ _
  refine ⟨fun i => ?_, fun i v hv => ?_⟩
  · rw [List.mem_range]
    constructor
    · intro hi
      refine h.held.recorded hempty ((h.reached i).mpr ⟨hi, ?_⟩)
      by_cases hstrided : strided config
      · have hmod := Nat.mod_lt i hpos
        obtain ⟨hwaiting, hseen⟩ := hfinished (i % job.active config) (by omega)
        simp [Reached, hstrided, Passed, hwaiting, hseen]
      · have hsteal : strided config = false := by simpa using hstrided
        have hstolen := h.stolen hsteal 0 hpos (Or.inr (hfinished 0 hcount))
        simp only [Reached, hsteal, Bool.false_eq_true, ↓reduceIte]
        omega
    · intro hrec
      exact ((h.reached i).mp (by simp [hrec])).1
  · have hhand := (h.held.done i v).mp hv
    rw [hempty v] at hhand
    cases hhand

structure Recorded (config : HostThreadingConfig) (D : LaneDispatchers ι δ) (job : Job ι)
    (start : LaneStates ι δ) (p : DispatcherPool ι δ) (board : Board ℕ ℕ)
    (log : List LaneRecord) : Prop where
  recorded : log.map (·.lane) = board.recordedItems
  workers : ∀ r ∈ log, r.worker < config.hostThreadCount
  traces : ∀ w, p.perWorkerTraces w = (log.filter (·.worker = w)).map (job.event p.lastEpoch)
  sequences : if config.deterministicMode then ∀ r ∈ log, r.sequence = r.lane
    else log.map (·.sequence) = List.range log.length ∧ p.traceSequence = log.length
  calls : p.dispatchers.calls = start.calls ++
    board.doneItems.filterMap fun i => job.lanes[i]?.map (·, job.laneCall)
  others : ∀ lane, lane ∉ job.lanes → p.dispatchers.state lane = start.state lane
  errors : p.laneErrors.length = job.lanes.length
  untouched : job.lanes.Nodup → ∀ i lane, job.lanes[i]? = some lane → i ∉ board.doneItems →
    p.dispatchers.state lane = start.state lane
  touched : job.lanes.Nodup → ∀ i lane, job.lanes[i]? = some lane → i ∈ board.doneItems →
    p.dispatchers.state lane = job.after D lane (start.state lane) ∧
      (job.kind = .dispatch →
        p.laneErrors[i]? = some (D.dispatch lane (start.state lane) job.tickBudget).1)

section Recorded
variable {D : LaneDispatchers ι δ} {start : LaneStates ι δ} {board board' : Board ℕ ℕ}
  {log : List LaneRecord} {x : Worker ι} {i : ℕ}

theorem Recorded.keep (h : Recorded config D job start p board log) (hsame : SameJob p p')
    (hdispatchers : p'.dispatchers = p.dispatchers) (herrors : p'.laneErrors = p.laneErrors)
    (htraces : p'.perWorkerTraces = p.perWorkerTraces)
    (hsequence : p'.traceSequence = p.traceSequence) (hdone : board'.doneItems = board.doneItems)
    (hrecorded : board'.recordedItems = board.recordedItems) :
    Recorded config D job start p' board' log := by
  refine ⟨hrecorded ▸ h.recorded, h.workers, ?_, ?_, ?_, ?_, ?_, ?_, ?_⟩
  · rw [htraces, hsame.lastEpoch]
    exact h.traces
  · rw [hsequence]
    exact h.sequences
  · rw [hdispatchers, hdone]
    exact h.calls
  · rw [hdispatchers]
    exact h.others
  · rw [herrors]
    exact h.errors
  · rw [hdispatchers, hdone]
    exact h.untouched
  · rw [hdispatchers, hdone, herrors]
    exact h.touched

variable [DecidableEq ι]

theorem callLane_spec (hcopied : Copied config job p x) (laneIndex : ℕ) (lane : ι) :
    (p.callLane D x laneIndex lane).dispatchers.state =
        update p.dispatchers.state lane (job.after D lane (p.dispatchers.state lane)) ∧
      (p.callLane D x laneIndex lane).dispatchers.calls =
        p.dispatchers.calls ++ [(lane, job.laneCall)] ∧
      (p.callLane D x laneIndex lane).laneErrors.length = p.laneErrors.length ∧
      (job.kind = .dispatch →
        (p.callLane D x laneIndex lane).laneErrors = p.laneErrors.set laneIndex
        (D.dispatch lane (p.dispatchers.state lane) job.tickBudget).1) := by
  unfold callLane Job.after Job.laneCall
  rw [hcopied.kind, hcopied.tickBudget]
  cases hkind : job.kind with
  | none => exact absurd hkind job.kind_ne
  | dispatch => exact ⟨rfl, rfl, List.length_set, fun _ => rfl⟩
  | tick => exact ⟨rfl, rfl, rfl, fun htick => by cases htick⟩

theorem Recorded.call {lane : ι} (h : Recorded config D job start p board log)
    (hcopied : Copied config job p x) (hlane : job.lanes[i]? = some lane)
    (hi : board.status i = .taken w) (phase : WorkerPhase) :
    Recorded config D job start ((p.callLane D x i lane).setPhase w phase)
      (board.finish i w hi) log := by
  obtain ⟨hstate, hcalls, hlength, herrors⟩ := callLane_spec (D := D) hcopied i lane
  have hunchanged : ((p.callLane D x i lane).setPhase w phase).perWorkerTraces = p.perWorkerTraces ∧
      ((p.callLane D x i lane).setPhase w phase).lastEpoch = p.lastEpoch ∧
      ((p.callLane D x i lane).setPhase w phase).traceSequence = p.traceSequence := by
    unfold callLane
    split <;> exact ⟨rfl, rfl, rfl⟩
  have hnew : i ∉ board.doneItems := by simp [board.mem_doneItems, hi]
  have hmem : lane ∈ job.lanes := List.mem_of_getElem? hlane
  -- another index is another dispatcher
  have hother : job.lanes.Nodup → ∀ j lane', job.lanes[j]? = some lane' → j ≠ i → lane' ≠ lane := by
    intro hnodup j lane' hlane' hne heq
    subst heq
    have hlt := (List.getElem?_eq_some_iff.mp hlane').1
    exact hne ((List.getElem?_inj hlt hnodup).mp (hlane'.trans hlane.symm))
  refine ⟨h.recorded, h.workers, ?_, ?_, ?_, fun lane' hlane' => ?_, hlength.trans h.errors, ?_, ?_⟩
  · rw [hunchanged.1, hunchanged.2.1]
    exact h.traces
  · rw [hunchanged.2.2]
    exact h.sequences
  · refine hcalls.trans ?_
    rw [h.calls]
    simp [Board.finish, List.filterMap_append, hlane]
  · have hne : lane' ≠ lane := fun heq => hlane' (heq ▸ hmem)
    refine (congrFun hstate lane').trans ?_
    rw [Function.update_of_ne hne]
    exact h.others lane' hlane'
  · intro hnodup j lane' hlane' hj
    simp only [Board.finish, List.mem_append, List.mem_singleton, not_or] at hj
    refine (congrFun hstate lane').trans ?_
    rw [Function.update_of_ne (hother hnodup j lane' hlane' hj.2)]
    exact h.untouched hnodup j lane' hlane' hj.1
  · intro hnodup j lane' hlane' hj
    by_cases hji : j = i
    · subst hji
      rw [hlane] at hlane'
      cases hlane'
      have hold := h.untouched hnodup j lane hlane hnew
      refine ⟨(congrFun hstate lane).trans (by rw [Function.update_self, hold]), fun hkind => ?_⟩
      refine (congrArg (·[j]?) (herrors hkind)).trans ?_
      have hlt : j < p.laneErrors.length := by
        rw [h.errors]
        exact (List.getElem?_eq_some_iff.mp hlane).1
      simp only [List.getElem?_set_self hlt, hold]
    · simp only [Board.finish, List.mem_append, List.mem_singleton, hji, or_false] at hj
      obtain ⟨hstate', herrors'⟩ := h.touched hnodup j lane' hlane' hj
      refine ⟨(congrFun hstate lane').trans ?_, fun hkind => ?_⟩
      · rw [Function.update_of_ne (hother hnodup j lane' hlane' hji)]
        exact hstate'
      · refine (congrArg (·[j]?) (herrors hkind)).trans ?_
        simp only [List.getElem?_set_ne (Ne.symm hji)]
        exact herrors' hkind

omit [DecidableEq ι] in
theorem Recorded.trace (h : Recorded config D job start p board log)
    (hw : w < config.hostThreadCount)
    (hi : board.status i = .done w) (phase : WorkerPhase) :
    ∃ log', Recorded config D job start
      ((p.appendTraceEvent config w i (operation job.kind)).setPhase w phase)
      (board.record i w hi) log' := by
  let r : LaneRecord := ⟨w, i, if config.deterministicMode then i else p.traceSequence⟩
  refine ⟨log ++ [r], ?_, ?_, fun v => ?_, ?_, h.calls, h.others, h.errors, h.untouched, h.touched⟩
  · simp [Board.record, h.recorded, r]
  · intro r' hr'
    rcases List.mem_append.mp hr' with hr' | hr'
    · exact h.workers r' hr'
    · rw [List.mem_singleton.mp hr']
      exact hw
  · have hold := h.traces v
    by_cases hv : v = w
    · subst hv
      simp [appendTraceEvent, setPhase, setWorker, hold, List.filter_append, r, Job.event]
    · have hne : ¬ w = v := Ne.symm hv
      simp [appendTraceEvent, setPhase, setWorker, hold, List.filter_append, r, hv, hne]
  · have hold := h.sequences
    by_cases hmode : config.deterministicMode
    · simp only [hmode, ↓reduceIte] at hold ⊢
      intro r' hr'
      rcases List.mem_append.mp hr' with hr' | hr'
      · exact hold r' hr'
      · rw [List.mem_singleton.mp hr']
        simp [r, hmode]
    · simp only [hmode, Bool.false_eq_true, ↓reduceIte] at hold ⊢
      refine ⟨?_, ?_⟩
      · simp [r, hmode, hold.1, hold.2, List.range_succ]
      · simp [appendTraceEvent, setPhase, setWorker, hmode, hold.2]

end Recorded

structure Working (config : HostThreadingConfig) (D : LaneDispatchers ι δ) (job : Job ι)
    (start : LaneStates ι δ) (p : DispatcherPool ι δ) (board : Board ℕ ℕ)
    (log : List LaneRecord) : Prop where
  staffed : Staffed config job p
  shared : Shared config job p board
  recorded : Recorded config D job start p board log

theorem workers_setPhase (p : DispatcherPool ι δ) (w : ℕ) (phase : WorkerPhase) :
    (p.setPhase w phase).workers = update p.workers w { p.workers w with phase := phase } := rfl

theorem sameJob_setPhase (p : DispatcherPool ι δ) (w : ℕ) (phase : WorkerPhase) :
    SameJob p (p.setPhase w phase) := ⟨rfl, rfl, rfl, rfl, rfl, rfl, rfl, rfl⟩

theorem Copied.setPhase {x : Worker ι} (h : Copied config job p x) (phase : WorkerPhase) :
    Copied config job p { x with phase := phase } :=
  ⟨h.seenJobToken, h.kind, h.lanes, h.tickBudget, h.workerCount⟩

section WorkerStep
variable {D : LaneDispatchers ι δ} {start : LaneStates ι δ} {board : Board ℕ ℕ}
  {log : List LaneRecord}

theorem Working.wake (h : Working config D job start p board log) (hw : w < p.workersSize)
    (hphase : (p.workers w).phase = .waiting) (hseen : p.jobToken ≠ (p.workers w).seenJobToken) :
    Working config D job start (p.setWorker w (p.takeJob config w)) board log := by
  obtain ⟨hkind, hlanes, hbudget, hactive⟩ := h.staffed.posted
  have hsame : SameJob p (p.setWorker w (p.takeJob config w)) :=
    ⟨rfl, rfl, rfl, rfl, rfl, rfl, rfl, rfl⟩
  have htaken : (p.takeJob config w).phase =
      if w < job.active config then loopHead config w else .completing := by
    simp [takeJob, hlanes, hactive, hkind, job.kind_ne]
  have hunfinished : ¬ p.Finished w := fun hfin => hseen hfin.2.symm
  have hcopied : Copied config job p (p.takeJob config w) := ⟨rfl, hkind, hlanes, hbudget, hactive⟩
  have hhand : (p.takeJob config w).hand = .empty := by
    unfold Worker.hand
    rw [htaken]
    unfold loopHead
    split_ifs <;> rfl
  refine ⟨h.staffed.move hsame hw rfl rfl hunfinished ?_ hcopied ?_, ?_,
    h.recorded.keep hsame rfl rfl
    rfl rfl rfl rfl⟩
  · rw [htaken]
    unfold loopHead
    split_ifs <;> simp
  · rw [htaken]
    unfold loopHead
    split_ifs with hlt hstrided
    · exact ⟨hstrided, hlt, Nat.mod_eq_of_lt hlt⟩
    · exact ⟨by simpa using hstrided, hlt⟩
    · trivial
  · refine h.shared.keep hsame rfl rfl ?_ (fun _ => Iff.rfl) (fun hstrided i _ hmod => ?_)
      (fun hsteal hlt hleft => ?_)
    · rw [hhand]
      exact h.shared.held.keep (by simp [hands, Worker.hand, hphase])
    · -- no lane below `w` is congruent to `w`
      have hlt : w < job.active config ∨ job.active config = 0 := by
        rcases Nat.eq_zero_or_pos (job.active config) with hzero | hpos
        · exact Or.inr hzero
        · exact Or.inl (hmod ▸ Nat.mod_lt i hpos)
      have hle : w ≤ i := hmod ▸ Nat.mod_le i _
      rcases hlt with hlt | hzero
      · have hnew : ¬ p.Passed (p.takeJob config w) i := by
          simp only [Passed, htaken, if_pos hlt, loopHead, if_pos hstrided]
          omega
        have hold : ¬ p.Passed (p.workers w) i := by
          simp only [Passed, hphase]
          exact fun heq => hseen heq.symm
        exact iff_of_false hnew hold
      · have hlen := List.length_pos_iff.mpr job.lanes_ne
        have hthreads : config.hostThreadCount = 0 := by
          unfold Job.active at hzero
          omega
        rw [h.staffed.size, hthreads] at hw
        cases hw
    · -- a worker that comes to the job has not left it
      rcases hleft with hleft | ⟨hleft, -⟩
      · simp [setWorker, htaken, hlt, loopHead, hsteal] at hleft
      · simp [setWorker, htaken, hlt, loopHead, hsteal] at hleft

theorem Working.striding (h : Working config D job start p board log) (hw : w < p.workersSize)
    {i : ℕ}
    (hphase : (p.workers w).phase = .striding i) :
    ∃ board', Working config D job start (p.setPhase w
      (if i < (p.workers w).lanes.length then .calling i else .completing)) board' log := by
  have hactive : (p.workers w).phase ≠ .waiting := by simp [hphase]
  have hcopied := h.staffed.copied w hactive
  have hstands := h.staffed.stands w
  rw [hphase] at hstands
  obtain ⟨hstrided, hlt, hmod⟩ := hstands
  have hlanes : (p.workers w).lanes = job.lanes := by simp [Worker.lanes, hcopied.lanes]
  rw [hlanes]
  by_cases hi : i < job.lanes.length
  · rw [if_pos hi]
    have hsame := sameJob_setPhase p w (.calling i)
    obtain ⟨board', hshared, hdone, hrecorded⟩ := h.shared.stride hsame (workers_setPhase p w _)
      hstrided hphase rfl hi hmod
    refine ⟨board', h.staffed.move hsame hw (workers_setPhase p w _) rfl
      (Staffed.not_finished hactive)
        (by simp) (hcopied.setPhase _) ⟨hi, hlt, fun _ => hmod⟩, hshared,
      h.recorded.keep hsame rfl rfl rfl rfl hdone hrecorded⟩
  · rw [if_neg hi]
    have hsame := sameJob_setPhase p w .completing
    refine ⟨board, h.staffed.move hsame hw (workers_setPhase p w _) rfl
      (Staffed.not_finished hactive) (by simp) (hcopied.setPhase _) trivial, ?_,
      h.recorded.keep hsame rfl rfl rfl rfl rfl rfl⟩
    refine h.shared.keep hsame (workers_setPhase p w _) rfl ?_ (fun _ => Iff.rfl)
      (fun _ j hj _ => ?_) (fun hsteal => ?_)
    · exact h.shared.held.keep (by simp [hands, Worker.hand, hphase])
    · simp only [Passed, hphase, true_iff]
      omega
    · rw [hstrided] at hsteal
      cases hsteal

theorem Working.stealing (h : Working config D job start p board log) (hw : w < p.workersSize)
    (hphase : (p.workers w).phase = .stealing) :
    ∃ board', Working config D job start ({ p with nextLane := p.nextLane + 1 :
      DispatcherPool ι δ }.setPhase w (if (p.workers w).lanes.length ≤ p.nextLane then .completing
        else .calling p.nextLane)) board' log := by
  have hactive : (p.workers w).phase ≠ .waiting := by simp [hphase]
  have hcopied := h.staffed.copied w hactive
  have hstands := h.staffed.stands w
  rw [hphase] at hstands
  obtain ⟨hsteal, hlt⟩ := hstands
  have hlanes : (p.workers w).lanes = job.lanes := by simp [Worker.lanes, hcopied.lanes]
  rw [hlanes]
  by_cases hi : job.lanes.length ≤ p.nextLane
  · rw [if_pos hi]
    have hsame : SameJob p ({ p with nextLane := p.nextLane + 1 : DispatcherPool ι δ }.setPhase w
        .completing) := ⟨rfl, rfl, rfl, rfl, rfl, rfl, rfl, rfl⟩
    exact ⟨board, h.staffed.move hsame hw (workers_setPhase _ w _) rfl
      (Staffed.not_finished hactive) (by simp) (hcopied.setPhase _) trivial,
      h.shared.stealNone (workers_setPhase _ w _) hsteal rfl hphase rfl hi,
      h.recorded.keep hsame rfl rfl rfl rfl rfl rfl⟩
  · rw [if_neg hi]
    have hlt' : p.nextLane < job.lanes.length := Nat.lt_of_not_le hi
    have hsame : SameJob p ({ p with nextLane := p.nextLane + 1 : DispatcherPool ι δ }.setPhase w
        (.calling p.nextLane)) := ⟨rfl, rfl, rfl, rfl, rfl, rfl, rfl, rfl⟩
    obtain ⟨board', hshared, hdone, hrecorded⟩ :=
      h.shared.steal hsame (workers_setPhase _ w _) hsteal
      rfl hphase rfl hlt'
    refine ⟨board', h.staffed.move hsame hw (workers_setPhase _ w _) rfl
      (Staffed.not_finished hactive) (by simp) (hcopied.setPhase _) ⟨hlt', hlt, fun hstrided => ?_⟩,
      hshared, h.recorded.keep hsame rfl rfl rfl rfl hdone hrecorded⟩
    rw [hsteal] at hstrided
    cases hstrided

theorem Working.tracing (h : Working config D job start p board log) (hw : w < p.workersSize)
    {i : ℕ}
    (hphase : (p.workers w).phase = .tracing i) :
    ∃ board' log', Working config D job start ((p.appendTraceEvent config w i
      (operation (p.workers w).job)).setPhase w (loopHead config
        (i + (p.workers w).workerCount))) board' log' := by
  have hactive : (p.workers w).phase ≠ .waiting := by simp [hphase]
  have hcopied := h.staffed.copied w hactive
  have hstands := h.staffed.stands w
  rw [hphase] at hstands
  obtain ⟨-, hlt, hmod⟩ := hstands
  have hdone : board.status i = .done w :=
    (h.shared.held.done i w).mpr (by simp [hands, Worker.hand, hphase])
  rw [hcopied.kind, hcopied.workerCount]
  obtain ⟨log', hrecorded⟩ := h.recorded.trace (h.staffed.size ▸ hw) hdone
    (loopHead config (i + job.active config))
  have hsame : SameJob p ((p.appendTraceEvent config w i (operation job.kind)).setPhase w
      (loopHead config (i + job.active config))) :=
    ⟨rfl, rfl, rfl, rfl, rfl, rfl, rfl, rfl⟩
  refine ⟨board.record i w hdone, log', h.staffed.move hsame hw (workers_setPhase _ w _) rfl
    (Staffed.not_finished hactive) ?_ (hcopied.setPhase _) ?_, ?_, hrecorded⟩
  · unfold loopHead
    split_ifs <;> simp
  · unfold loopHead
    split_ifs with hstrided
    · exact ⟨hstrided, hlt, by rw [Nat.add_mod_right, hmod hstrided]⟩
    · exact ⟨by simpa using hstrided, hlt⟩
  · refine h.shared.keep hsame (workers_setPhase _ w _) rfl ?_ (fun j => ?_)
      (fun hstrided j _ hj => ?_)
      (fun hsteal _ hleft => ?_)
    · have hhand : Worker.hand { p.workers w with
          phase := loopHead config (i + job.active config) } = .empty := by
        unfold Worker.hand loopHead
        split_ifs <;> rfl
      exact hhand ▸ h.shared.held.record hdone
    · by_cases hj : j = i
      · simp [Board.record, hj, hdone]
      · simp [Board.record, hj]
    · -- the next lane of the worker comes `active` lanes later
      simp only [Passed, hphase, loopHead, if_pos hstrided]
      constructor
      · intro hjlt
        by_contra hgt
        have hmod' : (j - i) % job.active config = 0 :=
          Nat.sub_mod_eq_zero_of_mod_eq (hj.trans (hmod hstrided).symm)
        have hsmall : (j - i) % job.active config = j - i := Nat.mod_eq_of_lt (by omega)
        omega
      · intro hjle
        omega
    · rcases hleft with hleft | ⟨hleft, -⟩
      · simp [setPhase, setWorker, loopHead, hsteal] at hleft
      · simp [setPhase, setWorker, loopHead, hsteal] at hleft

theorem Working.completing (h : Working config D job start p board log) (hw : w < p.workersSize)
    (hphase : (p.workers w).phase = .completing) :
    Working config D job start ({ p with completedWorkers := p.completedWorkers + 1 :
      DispatcherPool ι δ }.setPhase w .waiting) board log := by
  have hcopied := h.staffed.copied w (by simp [hphase])
  have hsame : SameJob p ({ p with completedWorkers := p.completedWorkers + 1 :
      DispatcherPool ι δ }.setPhase w .waiting) := ⟨rfl, rfl, rfl, rfl, rfl, rfl, rfl, rfl⟩
  refine ⟨h.staffed.complete hw hphase, ?_, h.recorded.keep hsame rfl rfl rfl rfl rfl rfl⟩
  refine h.shared.keep hsame (workers_setPhase _ w _) rfl ?_ (fun _ => Iff.rfl) (fun _ j _ _ => ?_)
    (fun hsteal hlt _ => h.shared.stolen hsteal w hlt (Or.inl hphase))
  · exact h.shared.held.keep (by simp [hands, Worker.hand, hphase])
  · simp [Passed, hphase, hcopied.seenJobToken]

variable [DecidableEq ι]

theorem Working.calling (h : Working config D job start p board log) (hw : w < p.workersSize)
    {i : ℕ}
    {lane : ι} (hphase : (p.workers w).phase = .calling i)
    (hlane : (p.workers w).lanes[i]? = some lane) :
    ∃ board', Working config D job start
      ((p.callLane D (p.workers w) i lane).setPhase w (.tracing i)) board' log := by
  have hactive : (p.workers w).phase ≠ .waiting := by simp [hphase]
  have hcopied := h.staffed.copied w hactive
  have hstands := h.staffed.stands w
  rw [hphase] at hstands
  have hlanes : (p.workers w).lanes = job.lanes := by simp [Worker.lanes, hcopied.lanes]
  have htaken : board.status i = .taken w :=
    (h.shared.held.taken i w).mpr (by simp [hands, Worker.hand, hphase])
  have hsame : SameJob p ((p.callLane D (p.workers w) i lane).setPhase w (.tracing i)) := by
    unfold callLane
    split <;> exact ⟨rfl, rfl, rfl, rfl, rfl, rfl, rfl, rfl⟩
  have hworkers : ((p.callLane D (p.workers w) i lane).setPhase w (.tracing i)).workers =
      update p.workers w { p.workers w with phase := .tracing i } := by
    unfold callLane
    split <;> rfl
  have hfields : ((p.callLane D (p.workers w) i lane).setPhase w (.tracing i)).completedWorkers =
      p.completedWorkers ∧
      ((p.callLane D (p.workers w) i lane).setPhase w (.tracing i)).nextLane = p.nextLane := by
    unfold callLane
    split <;> exact ⟨rfl, rfl⟩
  refine ⟨board.finish i w htaken, h.staffed.move hsame hw hworkers hfields.1
    (Staffed.not_finished hactive) (by simp) (hcopied.setPhase _) hstands, ?_,
    h.recorded.call hcopied (hlanes ▸ hlane) htaken _⟩
  refine h.shared.keep hsame hworkers hfields.2 (h.shared.held.finish htaken) (fun j => ?_)
    (fun _ j _ _ => by simp [Passed, hphase]) (fun _ _ hleft => ?_)
  · by_cases hj : j = i
    · simp [Board.finish, hj, htaken]
    · simp [Board.finish, hj]
  · rcases hleft with hleft | ⟨hleft, -⟩
    · rw [hworkers, Function.update_self] at hleft
      cases hleft
    · rw [hworkers, Function.update_self] at hleft
      cases hleft

theorem workerStep_working (h : Working config D job start p board log) (hw : w < p.workersSize) :
    ∃ board' log', Working config D job start (p.workerStep config D w) board' log' := by
  cases hphase : (p.workers w).phase with
  | waiting =>
    simp only [workerStep, hphase]
    split_ifs with hseen
    · exact ⟨board, log, h.wake hw hphase hseen⟩
    · exact ⟨board, log, h⟩
  | striding i =>
    simp only [workerStep, hphase]
    obtain ⟨board', hworking⟩ := h.striding hw hphase
    exact ⟨board', log, hworking⟩
  | stealing =>
    simp only [workerStep, hphase]
    obtain ⟨board', hworking⟩ := h.stealing hw hphase
    exact ⟨board', log, hworking⟩
  | calling i =>
    simp only [workerStep, hphase]
    cases hlane : (p.workers w).lanes[i]? with
    | none => exact ⟨board, log, h⟩
    | some lane =>
      obtain ⟨board', hworking⟩ := h.calling hw hphase hlane
      exact ⟨board', log, hworking⟩
  | tracing i =>
    simp only [workerStep, hphase]
    exact h.tracing hw hphase
  | completing =>
    simp only [workerStep, hphase]
    exact ⟨board, log, h.completing hw hphase⟩

end WorkerStep
end DispatcherPool
end Contur
