import Mathlib.Data.Finset.Basic
import Contur.Placement
import Contur.SchedulingPolicy
import Contur.Transition

/-!
# The multi-lane scheduler

The scheduler refers to process control blocks by reference. Registered blocks have
distinct pids, so a reference is a pid here and the blocks are in the table `pcbs`,
which only scheduler operations change. Each public operation holds the lock from
its first to its last statement and is one step; the current time is an argument.
Operations return the error code together with the state, since some of them change
the state before they fail.
-/

namespace Contur
open Function (update)

structure Scheduler where
  policy : Option SchedulingPolicy
  pcbs : ProcessId → Pcb
  predictions : ProcessId → Option Tick
  processes : Finset ProcessId
  processLane : ProcessId → Option ℕ
  runStart : ProcessId → Option Tick
  readyByLane : List (List ProcessId)
  blocked : List ProcessId
  runningByLane : List (Option ProcessId)

namespace Scheduler
variable (s : Scheduler)

def create (policy : Option SchedulingPolicy) (pcbs : ProcessId → Pcb) (laneCount : ℕ) :
    Scheduler where
  policy := policy
  pcbs := pcbs
  predictions _ := none
  processes := ∅
  processLane _ := none
  runStart _ := none
  readyByLane := List.replicate laneCount []
  blocked := []
  runningByLane := List.replicate laneCount none

def asConst (queue : List ProcessId) : List SchedulingProcessSnapshot :=
  queue.map fun pid => toSnapshot pid (s.pcbs pid)

def removeFrom (queue : List ProcessId) (pid : ProcessId) : List ProcessId :=
  queue.filter (· ≠ pid)

def removeFromAllReady (lanes : List (List ProcessId)) (pid : ProcessId) : List (List ProcessId) :=
  lanes.map (removeFrom · pid)

/-- `0.5 * burst + 0.5 * old + 0.5` in doubles, without its fraction. Halves are exact, so both sums
are counted in halves here. From `2 ^ 64` on the conversion to a tick is undefined in the source. -/
def averagedBurst (old burst : Tick) : Tick :=
  let predicted := toDouble (toDouble burst + toDouble old)
  toDouble (predicted + 1) / 2

def recordBurst (old : Option Tick) (burst : Tick) : Tick :=
  match old with
  | none => burst
  | some old => averagedBurst old burst

def recordRunningBurst (pid : ProcessId) (now : Tick) : Scheduler :=
  match s.runStart pid with
  | none => s
  | some started =>
    { s with
      predictions := if started ≤ now then
          update s.predictions pid (some (recordBurst (s.predictions pid) (now - started)))
        else s.predictions
      runStart := update s.runStart pid none }

def findRunningLane (pid : ProcessId) : Option ℕ := s.runningByLane.findIdx? (· = some pid)

def findReadyLane (pid : ProcessId) : Option ℕ := s.readyByLane.findIdx? (pid ∈ ·)

def estimate (prediction : Option Tick) (pcb : Pcb) : Pcb :=
  match prediction with
  | none => pcb
  | some burst => { pcb with timing := { pcb.timing with estimatedBurst := burst } }

/-- A process that is not known yet stays registered when the state change fails. -/
def enqueueToLane (pid : ProcessId) (laneIndex : ℕ) (now : Tick) : Result Unit × Scheduler :=
  if s.readyByLane.length ≤ laneIndex then (.error .invalidArgument, s)
  else if pid = invalidPid then (.error .invalidPid, s)
  else
    let s := { s with processes := insert pid s.processes }
    if (s.findReadyLane pid).isSome then (.ok (), s)
    else if (s.findRunningLane pid).isSome then (.ok (), s)
    else if (s.pcbs pid).state = .running then (.error .invalidState, s)
    else match (s.pcbs pid).setState .ready now with
      | none => (.error .invalidState, s)
      | some pcb => (.ok (), { s with
          pcbs := update s.pcbs pid (estimate (s.predictions pid) pcb)
          readyByLane := s.readyByLane.modify laneIndex (· ++ [pid])
          processLane := update s.processLane pid (some laneIndex) })

def enqueue (pid : ProcessId) (now : Tick) : Result Unit × Scheduler := s.enqueueToLane pid 0 now

def forget (pid : ProcessId) : Scheduler :=
  { s with
    processLane := update s.processLane pid none
    runStart := update s.runStart pid none
    predictions := update s.predictions pid none
    processes := s.processes.erase pid }

def dequeue (pid : ProcessId) : Result Unit × Scheduler :=
  if pid ∉ s.processes then (.error .notFound, s)
  else (.ok (), { s.forget pid with
    runningByLane := s.runningByLane.map fun running => if running = some pid then none else running
    readyByLane := removeFromAllReady s.readyByLane pid
    blocked := removeFrom s.blocked pid })

def preempt (laneIndex : ℕ) (pid : ProcessId) (now : Tick) : Result Unit × Scheduler :=
  let s := s.recordRunningBurst pid now
  match (s.pcbs pid).setState .ready now with
  | none => (.error .invalidState, s)
  | some pcb => (.ok (), { s with
      pcbs := update s.pcbs pid pcb
      readyByLane := s.readyByLane.modify laneIndex (· ++ [pid])
      processLane := update s.processLane pid (some laneIndex)
      runningByLane := s.runningByLane.set laneIndex none })

def startOn (laneIndex : ℕ) (candidate : ProcessId) (now : Tick) : Result ProcessId × Scheduler :=
  let s := { s with readyByLane := s.readyByLane.modify laneIndex (removeFrom · candidate) }
  match (s.pcbs candidate).setState .running now with
  | none => (.error .invalidState, s)
  | some pcb => (.ok candidate, { s with
      pcbs := update s.pcbs candidate pcb
      runningByLane := s.runningByLane.set laneIndex (some candidate)
      processLane := update s.processLane candidate (some laneIndex)
      runStart := update s.runStart candidate (some now) })

def selectNextForLane (laneIndex : ℕ) (now : Tick) : Result ProcessId × Scheduler :=
  match s.readyByLane[laneIndex]? with
  | none => (.error .invalidArgument, s)
  | some ready =>
    match s.policy with
    | none => (.error .invalidState, s)
    | some policy =>
      match ready, (s.runningByLane[laneIndex]?).join with
      | [], some running => (.ok running, s)
      | [], none => (.error .notFound, s)
      | _ :: _, running =>
        let candidate := policy.selectNext (s.asConst ready) now
        if candidate = invalidPid then (.error .invalidState, s)
        else if candidate ∉ ready then (.error .invalidState, s)
        else match running with
          | none => s.startOn laneIndex candidate now
          | some running =>
            if policy.shouldPreempt (toSnapshot running (s.pcbs running))
                (toSnapshot candidate (s.pcbs candidate)) now then
              match s.preempt laneIndex running now with
              | (.error code, s) => (.error code, s)
              | (.ok (), s) => s.startOn laneIndex candidate now
            else (.ok running, s)

def selectNext (now : Tick) : Result ProcessId × Scheduler := s.selectNextForLane 0 now

def chooseVictim (thiefLane : ℕ) (lanes : List (List ProcessId)) (victim : Option ℕ × ℕ)
    (lane : ℕ) : Option ℕ × ℕ :=
  let queueSize := (lanes.getD lane []).length
  if lane = thiefLane then victim
  else if victim.2 < queueSize then (some lane, queueSize)
  else victim

def victimLane (thiefLane : ℕ) (lanes : List (List ProcessId)) : Option ℕ × ℕ :=
  (List.range lanes.length).foldl (chooseVictim thiefLane lanes) (none, 0)

/-- The front of the longest queue moves to the thief, whose lane then selects as usual. -/
def stealNextForLane (thiefLane : ℕ) (now : Tick) : Result ProcessId × Scheduler :=
  if s.readyByLane.length ≤ thiefLane then (.error .invalidArgument, s)
  else match (victimLane thiefLane s.readyByLane).1 with
    | none => (.error .notFound, s)
    | some victim =>
      match s.readyByLane.getD victim [] with
      | [] => (.error .notFound, s)
      | stolen :: _ => { s with
          readyByLane := (s.readyByLane.modify victim List.tail).modify thiefLane (· ++ [stolen])
          processLane := update s.processLane stolen (some thiefLane)
          : Scheduler }.selectNextForLane thiefLane now

def blockOn (lane : ℕ) (pid : ProcessId) (now : Tick) : Result Unit × Scheduler :=
  let s := s.recordRunningBurst pid now
  match (s.pcbs pid).setState .blocked now with
  | none => (.error .invalidState, s)
  | some pcb => (.ok (), { s with
      pcbs := update s.pcbs pid pcb
      blocked := s.blocked ++ [pid]
      runningByLane := s.runningByLane.set lane none })

def blockRunning (now : Tick) : Result Unit × Scheduler :=
  match s.runningByLane.findIdx? Option.isSome with
  | none => (.error .notFound, s)
  | some lane =>
    match s.runningByLane[lane]? with
    | some (some pid) => s.blockOn lane pid now
    | _ => (.error .notFound, s)

def blockProcess (pid : ProcessId) (now : Tick) : Result Unit × Scheduler :=
  if pid ∉ s.processes then (.error .notFound, s)
  else match s.findRunningLane pid with
    | some lane => s.blockOn lane pid now
    | none =>
      match s.findReadyLane pid with
      | none => (.error .notFound, s)
      | some lane =>
        match (s.pcbs pid).setState .blocked now with
        | none => (.error .invalidState, s)
        | some pcb => (.ok (), { s with
            pcbs := update s.pcbs pid pcb
            readyByLane := s.readyByLane.modify lane (removeFrom · pid)
            blocked := s.blocked ++ [pid] })

/-- The lane a blocked process was last on, or lane `0` when that lane is gone. -/
def returnLane (pid : ProcessId) : ℕ :=
  let lane := (s.processLane pid).getD 0
  if s.readyByLane.length ≤ lane then 0 else lane

def unblock (pid : ProcessId) (now : Tick) : Result Unit × Scheduler :=
  if pid ∉ s.blocked then (.error .notFound, s)
  else match (s.pcbs pid).setState .ready now with
    | none => (.error .invalidState, s)
    | some pcb => (.ok (), { s with
        pcbs := update s.pcbs pid pcb
        blocked := removeFrom s.blocked pid
        readyByLane := s.readyByLane.modify (s.returnLane pid) (· ++ [pid])
        processLane := update s.processLane pid (some (s.returnLane pid)) })

/-- A process that is not running is taken off its queue before its state change is
refused, and stays registered then. -/
def terminate (pid : ProcessId) (now : Tick) : Result Unit × Scheduler :=
  if pid ∉ s.processes then (.error .notFound, s)
  else
    let s := match s.findRunningLane pid with
      | some lane =>
        let s := s.recordRunningBurst pid now
        { s with runningByLane := s.runningByLane.set lane none }
      | none => { s with
          readyByLane := removeFromAllReady s.readyByLane pid
          blocked := removeFrom s.blocked pid }
    match (s.pcbs pid).setState .terminated now with
    | none => (.error .invalidState, s)
    | some pcb => (.ok (), { s with pcbs := update s.pcbs pid pcb : Scheduler }.forget pid)

def getQueueSnapshot : List ProcessId := s.readyByLane.flatten

def getBlockedSnapshot : List ProcessId := s.blocked

def runningProcesses : List ProcessId := s.runningByLane.reduceOption

def configureLanes (laneCount : ℕ) : Result Unit × Scheduler :=
  if laneCount = 0 then (.error .invalidArgument, s)
  else if s.processes.Nonempty then (.error .invalidState, s)
  else (.ok (), { s with
    readyByLane := List.replicate laneCount []
    runningByLane := List.replicate laneCount none
    processLane := fun _ => none })

def setPolicy (policy : Option SchedulingPolicy) : Result Unit × Scheduler :=
  match policy with
  | none => (.error .invalidState, s)
  | some policy => (.ok (), { s with policy := some policy })

inductive Op where
  | enqueue (pid : ProcessId) (now : Tick)
  | enqueueToLane (pid : ProcessId) (laneIndex : ℕ) (now : Tick)
  | dequeue (pid : ProcessId)
  | selectNext (now : Tick)
  | selectNextForLane (laneIndex : ℕ) (now : Tick)
  | stealNextForLane (thiefLane : ℕ) (now : Tick)
  | blockRunning (now : Tick)
  | blockProcess (pid : ProcessId) (now : Tick)
  | unblock (pid : ProcessId) (now : Tick)
  | terminate (pid : ProcessId) (now : Tick)
  | configureLanes (laneCount : ℕ)
  | setPolicy (policy : Option SchedulingPolicy)

inductive Reply where
  | done (result : Result Unit)
  | selected (result : Result ProcessId)
  deriving DecidableEq

def exec : Op → Reply × Scheduler
  | .enqueue pid now => (s.enqueue pid now).map .done id
  | .enqueueToLane pid laneIndex now => (s.enqueueToLane pid laneIndex now).map .done id
  | .dequeue pid => (s.dequeue pid).map .done id
  | .selectNext now => (s.selectNext now).map .selected id
  | .selectNextForLane laneIndex now => (s.selectNextForLane laneIndex now).map .selected id
  | .stealNextForLane thiefLane now => (s.stealNextForLane thiefLane now).map .selected id
  | .blockRunning now => (s.blockRunning now).map .done id
  | .blockProcess pid now => (s.blockProcess pid now).map .done id
  | .unblock pid now => (s.unblock pid now).map .done id
  | .terminate pid now => (s.terminate pid now).map .done id
  | .configureLanes laneCount => (s.configureLanes laneCount).map .done id
  | .setPolicy policy => (s.setPolicy policy).map .done id

def machine : Transition.Machine Scheduler Op Reply where
  step := exec

end Scheduler
end Contur
