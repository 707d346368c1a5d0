import Contur.Dispatcher

/-!
# The kernel

The kernel allocates pids, keeps its own references to the live images and drives a
single dispatcher. Pids are 32-bit numbers; the counter for the next one wraps
around and skips the invalid pid.
-/

namespace Contur

structure ProcessConfig where
  id : ProcessId := invalidPid
  code : List Block
  priority : Priority := {}
  arrivalTime : Tick := 0

structure Kernel (P : ReplacementPolicy) (σ : Type) where
  dispatcher : Dispatcher P σ
  processRefs : Finset ProcessId
  nextPid : ProcessId
  defaultTickBudget : ℕ

namespace Kernel
variable {P : ReplacementPolicy} {σ : Type} (E : ExecutionEngine σ) (k : Kernel P σ)

def create (policy : PolicyKind) (engine : σ) (virtualMemory : VirtualMemory P)
    (defaultTickBudget : ℕ) : Kernel P σ where
  dispatcher :=
    { scheduler := Scheduler.create (some policy.policy) (fun _ => {}) 1
      engine := engine
      virtualMemory := virtualMemory
      clock := 0
      processes := ∅ }
  processRefs := ∅
  nextPid := 1
  defaultTickBudget := defaultTickBudget

def pruneDeadProcessRefs : Kernel P σ :=
  { k with processRefs := k.processRefs.filter (k.dispatcher.hasProcess ·) }

/-- The search for a free pid, with the pid to try next. -/
def findPid (hasProcess : ProcessId → Bool) : ℕ → ProcessId → ProcessId × ProcessId
  | 0, nextPid => (invalidPid, nextPid)
  | n + 1, nextPid =>
    let candidate := if nextPid = invalidPid then 1 else nextPid
    let nextPid := (candidate + 1) % 2 ^ 32
    if hasProcess candidate then findPid hasProcess n nextPid else (candidate, nextPid)

def allocatePid : ProcessId × Kernel P σ :=
  let found := findPid k.dispatcher.hasProcess maxProcesses k.nextPid
  (found.1, { k with nextPid := found.2 })

def createWithPid (pid : ProcessId) (config : ProcessConfig) : Result ProcessId × Kernel P σ :=
  let now := k.dispatcher.clock
  let arrival := if config.arrivalTime = 0 then now else config.arrivalTime
  match k.dispatcher.createProcess pid { code := config.code }
      (Pcb.create config.priority arrival) now with
  | (.error code, dispatcher) => (.error code, { k with dispatcher := dispatcher })
  | (.ok _, dispatcher) =>
    (.ok pid, { k with dispatcher := dispatcher, processRefs := insert pid k.processRefs })

def createProcess (config : ProcessConfig) : Result ProcessId × Kernel P σ :=
  if config.code.isEmpty then (.error .invalidArgument, k)
  else if config.id = invalidPid then
    match k.allocatePid with
    | (pid, k) => if pid = invalidPid then (.error .outOfMemory, k) else k.createWithPid pid config
  else if k.dispatcher.hasProcess config.id then (.error .alreadyExists, k)
  else k.createWithPid config.id config

def terminateProcess (pid : ProcessId) : Result Unit × Kernel P σ :=
  match k.dispatcher.terminateProcess E pid k.dispatcher.clock with
  | (.error code, dispatcher) => (.error code, { k with dispatcher := dispatcher })
  | (.ok _, dispatcher) =>
    (.ok (), { k with dispatcher := dispatcher, processRefs := k.processRefs.erase pid })

def budget (tickBudget : ℕ) : ℕ :=
  let budget := if tickBudget = 0 then k.defaultTickBudget else tickBudget
  if budget = 0 then 1 else budget

def tick (tickBudget : ℕ) : Result Unit × Kernel P σ :=
  let result := k.dispatcher.dispatch E (k.budget tickBudget)
  (result.1, { k with dispatcher := result.2 : Kernel P σ }.pruneDeadProcessRefs)

/-- The loop of `runForTicks`, with the flag that some tick has done work. -/
def runLoop (k : Kernel P σ) (tickBudget : ℕ) (anyWorkDone : Bool) : ℕ → Result Unit × Kernel P σ
  | 0 => (.ok (), k)
  | cycles + 1 =>
    match k.tick E tickBudget with
    | (.error .notFound, k) => (if anyWorkDone then .ok () else .error .notFound, k)
    | (.error code, k) => (.error code, k)
    | (.ok _, k) => runLoop k tickBudget true cycles

def runForTicks (cycles tickBudget : ℕ) : Result Unit × Kernel P σ :=
  k.runLoop E tickBudget false cycles

inductive Op where
  | createProcess (config : ProcessConfig)
  | terminateProcess (pid : ProcessId)
  | tick (tickBudget : ℕ)
  | runForTicks (cycles tickBudget : ℕ)

inductive Reply where
  | created (result : Result ProcessId)
  | done (result : Result Unit)
  deriving DecidableEq, Repr

def exec : Op → Reply × Kernel P σ
  | .createProcess config => (k.createProcess config).map .created id
  | .terminateProcess pid => (k.terminateProcess E pid).map .done id
  | .tick tickBudget => (k.tick E tickBudget).map .done id
  | .runForTicks cycles tickBudget => (k.runForTicks E cycles tickBudget).map .done id

def machine : Transition.Machine (Kernel P σ) Op Reply where
  step := exec E

end Kernel
end Contur
