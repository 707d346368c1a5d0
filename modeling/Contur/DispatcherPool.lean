import Mathlib.Algebra.Group.Nat.Defs
import Mathlib.Logic.Function.Basic
import Contur.Transition
import Contur.Types

/-!
# Runtimes that drive the dispatchers of several lanes

The serial runtime dispatches the lanes one after the other on the thread of the
caller. The pool starts one worker for each host thread; the caller posts a job
under the lock, the workers share the lanes among themselves and the caller waits
until every worker has been through the job. A step of the system is one region
under the lock, one call of a dispatcher, one addition to a shared counter, or one
step of a loop; the list of steps says who moves next, so a run is an interleaving.
A thread that waits for its condition polls it here: it does not change anything when it
is moved too early. Its sleep and the notifications are a layer above (`NotifiedPool`).
Stopping the workers is left out, and all threads can be started.
-/

namespace Contur
open Function (update)

inductive LaneCall where
  | dispatch (tickBudget : ℕ)
  | tick
  deriving DecidableEq, Repr

/-- The dispatchers behind the lanes. Each one works on a state of its own. -/
structure LaneDispatchers (ι δ : Type) where
  dispatch : ι → δ → ℕ → Result Unit × δ
  tick : ι → δ → δ

structure LaneStates (ι δ : Type) where
  state : ι → δ
  calls : List (ι × LaneCall)

namespace LaneStates
variable {ι δ : Type} [DecidableEq ι] (D : LaneDispatchers ι δ) (s : LaneStates ι δ)

def dispatch (lane : ι) (tickBudget : ℕ) : Result Unit × LaneStates ι δ :=
  let answer := D.dispatch lane (s.state lane) tickBudget
  (answer.1, ⟨update s.state lane answer.2, s.calls ++ [(lane, .dispatch tickBudget)]⟩)

def tick (lane : ι) : LaneStates ι δ :=
  ⟨update s.state lane (D.tick lane (s.state lane)), s.calls ++ [(lane, .tick)]⟩

end LaneStates

/-- What both runtimes keep while they go through the results; no first error is `Ok`. -/
structure LaneTally where
  anySuccess : Bool := false
  firstError : Option ErrorCode := none

namespace LaneTally

def add (t : LaneTally) : Result Unit → LaneTally
  | .ok _ => { t with anySuccess := true }
  | .error code =>
    if t.firstError = none ∧ code ≠ .notFound then { t with firstError := some code } else t

def result (t : LaneTally) : Result Unit :=
  if t.anySuccess then .ok ()
  else match t.firstError with
    | some code => .error code
    | none => .error .notFound

end LaneTally

namespace SerialDispatchRuntime
variable {ι δ : Type} [DecidableEq ι] (D : LaneDispatchers ι δ)

def dispatchLoop (tickBudget : ℕ) (t : LaneTally) (s : LaneStates ι δ) :
    List ι → LaneTally × LaneStates ι δ
  | [] => (t, s)
  | lane :: lanes =>
    let answer := s.dispatch D lane tickBudget
    dispatchLoop tickBudget (t.add answer.1) answer.2 lanes

def dispatch (lanes : List ι) (tickBudget : ℕ) (s : LaneStates ι δ) :
    Result Unit × LaneStates ι δ :=
  if lanes.isEmpty then (.error .invalidState, s)
  else
    let looped := dispatchLoop D tickBudget {} s lanes
    (looped.1.result, looped.2)

def tick (lanes : List ι) (s : LaneStates ι δ) : LaneStates ι δ :=
  lanes.foldl (fun s lane => s.tick D lane) s

end SerialDispatchRuntime

structure HostThreadingConfig where
  hostThreadCount : ℕ := 1
  deterministicMode : Bool := true
  workStealingEnabled : Bool := false

namespace HostThreadingConfig

def isSingleThreaded (config : HostThreadingConfig) : Bool := config.hostThreadCount = 1

def normalized (config : HostThreadingConfig) : HostThreadingConfig :=
  let config :=
    if config.hostThreadCount = 0 then { config with hostThreadCount := 1 } else config
  if config.isSingleThreaded then { config with workStealingEnabled := false } else config

end HostThreadingConfig

/-- The pool normalises the configuration once more after `normalized`. -/
def normalizePoolConfig (config : HostThreadingConfig) : HostThreadingConfig :=
  let normalized := config.normalized
  let normalized :=
    if normalized.hostThreadCount = 0 then { normalized with hostThreadCount := 1 } else normalized
  if normalized.isSingleThreaded then { normalized with workStealingEnabled := false }
  else normalized

structure TraceEvent where
  subsystem : String
  operation : String
  details : String
  workerId : ℕ
  sequence : ℕ
  epoch : ℕ
  deriving DecidableEq, Repr

inductive JobKind where
  | none | dispatch | tick
  deriving DecidableEq, Repr

inductive WorkerPhase where
  | waiting
  | striding (laneIndex : ℕ)
  | stealing
  | calling (laneIndex : ℕ)
  | tracing (laneIndex : ℕ)
  | completing
  deriving DecidableEq, Repr

structure Worker (ι : Type) where
  seenJobToken : ℕ := 0
  job : JobKind := .none
  jobLanes : Option (List ι) := none
  jobTickBudget : ℕ := 0
  workerCount : ℕ := 0
  phase : WorkerPhase := .waiting

def Worker.lanes {ι : Type} (x : Worker ι) : List ι := x.jobLanes.getD []

inductive CallerPhase (ι : Type) where
  | ready
  | starting (job : JobKind) (lanes : List ι) (tickBudget : ℕ)
  | waiting (job : JobKind)
  | aggregating
  deriving DecidableEq

/-- The fields of the pool, its threads and the dispatchers they call. An element of `laneErrors`
is an error code, `ok` standing for `ErrorCode::Ok`. -/
structure DispatcherPool (ι δ : Type) where
  dispatchers : LaneStates ι δ
  caller : CallerPhase ι := .ready
  workersSize : ℕ := 0
  workers : ℕ → Worker ι := fun _ => {}
  jobToken : ℕ := 0
  completedWorkers : ℕ := 0
  currentJob : JobKind := .none
  lanes : Option (List ι) := none
  tickBudget : ℕ := 0
  activeWorkers : ℕ := 0
  nextLane : ℕ := 0
  epochCounter : ℕ := 0
  traceSequence : ℕ := 0
  laneErrors : List (Result Unit) := []
  lastEpoch : ℕ := 0
  lastDeterministicOrder : List ℕ := []
  lastTraceEvents : List TraceEvent := []
  perWorkerTraces : ℕ → List TraceEvent := fun _ => []

namespace DispatcherPool
variable {ι δ : Type}

def create (dispatchers : LaneStates ι δ) : DispatcherPool ι δ := { dispatchers := dispatchers }

/-- The choice between the two loops of `runDispatch` and `runTick`. -/
def strided (config : HostThreadingConfig) : Bool :=
  config.deterministicMode || !config.workStealingEnabled

def ensureWorkersStarted (config : HostThreadingConfig) (p : DispatcherPool ι δ) :
    DispatcherPool ι δ :=
  if p.workersSize ≠ 0 then p else { p with workersSize := config.hostThreadCount }

def resetJobState (p : DispatcherPool ι δ) (nextJob : JobKind) (nextLanes : List ι)
    (nextTickBudget : ℕ) : DispatcherPool ι δ :=
  { p with
    currentJob := nextJob
    lanes := some nextLanes
    tickBudget := nextTickBudget
    activeWorkers := min p.workersSize nextLanes.length
    nextLane := 0
    laneErrors := List.replicate nextLanes.length (.error .notFound)
    lastTraceEvents := []
    lastDeterministicOrder := []
    perWorkerTraces := fun _ => []
    traceSequence := 0
    lastEpoch := (p.epochCounter + 1) % 2 ^ 64
    epochCounter := (p.epochCounter + 1) % 2 ^ 64
    completedWorkers := 0
    jobToken := (p.jobToken + 1) % 2 ^ 64 }

def mergeWorkerTraces (config : HostThreadingConfig) (p : DispatcherPool ι δ) :
    DispatcherPool ι δ :=
  let events := ((List.range p.workersSize).flatMap p.perWorkerTraces).mergeSort
    fun a b => a.sequence ≤ b.sequence
  { p with
    lastTraceEvents := events
    lastDeterministicOrder := if config.deterministicMode then events.map (·.sequence) else [] }

/-- The end of `waitForJobCompletion`, when the condition holds. -/
def finishJob (config : HostThreadingConfig) (p : DispatcherPool ι δ) : DispatcherPool ι δ :=
  { p with
    currentJob := .none
    lanes := none
    tickBudget := 0
    activeWorkers := 0 : DispatcherPool ι δ }.mergeWorkerTraces config

def aggregateDispatchErrors (p : DispatcherPool ι δ) : Result Unit :=
  (p.laneErrors.foldl LaneTally.add {}).result

def setWorker (p : DispatcherPool ι δ) (w : ℕ) (x : Worker ι) : DispatcherPool ι δ :=
  { p with workers := update p.workers w x }

def setPhase (p : DispatcherPool ι δ) (w : ℕ) (phase : WorkerPhase) : DispatcherPool ι δ :=
  p.setWorker w { p.workers w with phase := phase }

/-- The head of the loop of a worker; a worker that steals has no index of its own. -/
def loopHead (config : HostThreadingConfig) (laneIndex : ℕ) : WorkerPhase :=
  if strided config then .striding laneIndex else .stealing

def takeJob (config : HostThreadingConfig) (p : DispatcherPool ι δ) (w : ℕ) : Worker ι where
  seenJobToken := p.jobToken
  job := p.currentJob
  jobLanes := p.lanes
  jobTickBudget := p.tickBudget
  workerCount := p.activeWorkers
  phase :=
    if p.lanes.isSome ∧ w < p.activeWorkers ∧ p.currentJob ≠ .none then loopHead config w
    else .completing

def operation : JobKind → String
  | .tick => "tick"
  | _ => "dispatch"

def details (laneIndex : ℕ) : String := "lane=" ++ toString laneIndex

def appendTraceEvent (config : HostThreadingConfig) (p : DispatcherPool ι δ) (w laneIndex : ℕ)
    (operation : String) : DispatcherPool ι δ :=
  let sequence := if config.deterministicMode then laneIndex else p.traceSequence
  let event : TraceEvent :=
    { subsystem := "dispatch.runtime"
      operation := operation
      details := details laneIndex
      workerId := w
      sequence := sequence
      epoch := p.lastEpoch }
  { p with
    traceSequence := if config.deterministicMode then p.traceSequence else p.traceSequence + 1
    perWorkerTraces := update p.perWorkerTraces w (p.perWorkerTraces w ++ [event]) }

section Steps
variable [DecidableEq ι] (config : HostThreadingConfig) (D : LaneDispatchers ι δ)

/-- The call of the dispatcher of a lane; only a dispatch has a result to keep. -/
def callLane (p : DispatcherPool ι δ) (x : Worker ι) (laneIndex : ℕ) (lane : ι) :
    DispatcherPool ι δ :=
  match x.job with
  | .tick => { p with dispatchers := p.dispatchers.tick D lane }
  | _ =>
    let answer := p.dispatchers.dispatch D lane x.jobTickBudget
    { p with
      dispatchers := answer.2
      laneErrors := p.laneErrors.set laneIndex answer.1 }

def workerStep (p : DispatcherPool ι δ) (w : ℕ) : DispatcherPool ι δ :=
  let x := p.workers w
  match x.phase with
  | .waiting =>
    if p.jobToken ≠ x.seenJobToken then p.setWorker w (p.takeJob config w) else p
  | .striding laneIndex =>
    p.setPhase w (if laneIndex < x.lanes.length then .calling laneIndex else .completing)
  | .stealing =>
    let laneIndex := p.nextLane
    { p with nextLane := p.nextLane + 1 : DispatcherPool ι δ }.setPhase w
      (if x.lanes.length ≤ laneIndex then .completing else .calling laneIndex)
  | .calling laneIndex =>
    match x.lanes[laneIndex]? with
    | none => p
    | some lane => (p.callLane D x laneIndex lane).setPhase w (.tracing laneIndex)
  | .tracing laneIndex =>
    (p.appendTraceEvent config w laneIndex (operation x.job)).setPhase w
      (loopHead config (laneIndex + x.workerCount))
  | .completing =>
    { p with completedWorkers := p.completedWorkers + 1 : DispatcherPool ι δ }.setPhase w .waiting

def startCall (p : DispatcherPool ι δ) (job : JobKind) (lanes : List ι) (tickBudget : ℕ) :
    DispatcherPool ι δ :=
  { p.ensureWorkersStarted config with caller := .starting job lanes tickBudget }

/-- One step of the caller inside `dispatch` or `tick`, with the result of `dispatch` if it
returns. -/
def callerStep (p : DispatcherPool ι δ) : Option (Result Unit) × DispatcherPool ι δ :=
  match p.caller with
  | .ready => (none, p)
  | .starting job lanes tickBudget =>
    (none, { p.resetJobState job lanes tickBudget with caller := .waiting job })
  | .waiting job =>
    if p.completedWorkers = p.workersSize then
      (none, { p.finishJob config with
        caller := if job = .dispatch then .aggregating else .ready })
    else (none, p)
  | .aggregating => (some p.aggregateDispatchErrors, { p with caller := .ready })

/-- Who moves next. A caller can only make a call when it is not in one. -/
inductive Move (ι : Type) where
  | dispatch (lanes : List ι) (tickBudget : ℕ)
  | tick (lanes : List ι)
  | caller
  | worker (w : ℕ)

def step (p : DispatcherPool ι δ) : Move ι → Option (Result Unit) × DispatcherPool ι δ
  | .dispatch lanes tickBudget =>
    match p.caller with
    | .ready =>
      if lanes.isEmpty then (some (.error .invalidState), p)
      else (none, p.startCall config .dispatch lanes tickBudget)
    | _ => (none, p)
  | .tick lanes =>
    match p.caller with
    | .ready => if lanes.isEmpty then (none, p) else (none, p.startCall config .tick lanes 0)
    | _ => (none, p)
  | .caller => p.callerStep config
  | .worker w => if w < p.workersSize then (none, p.workerStep config D w) else (none, p)

def machine : Transition.Machine (DispatcherPool ι δ) (Move ι) (Option (Result Unit)) where
  step := step (normalizePoolConfig config) D

end Steps
end DispatcherPool
end Contur
