import Mathlib.Data.List.AList
import Contur.Kernel
import Contur.Mutex
import Contur.Semaphore

/-!
# The facade of the kernel

Beside the processes the kernel has a table of handlers for system calls and a table of
named primitives that guard critical sections. A handler comes from outside: it is
called with the image and the control block of the process, and with whatever it
captured, and may change all of these, but it does not call the kernel itself. The name
and the base priority of a control block are never changed by the kernel, so they stand
in a table of their own.
-/

namespace Contur
open Function (update)
open Transition

inductive SyscallId where
  | exit | write | read | fork | exec | wait
  | «open» | close
  | createPipe | sendMessage | receiveMessage | shmCreate | shmAttach
  | mutexLock | mutexUnlock | semWait | semSignal
  | getPid | getTime | yield
  deriving DecidableEq, Repr

structure ProcessLabel where
  name : String := ""
  basePriority : ℤ := 3
  deriving DecidableEq

structure SyscallCaller where
  pid : ProcessId
  image : ProcessImage
  pcb : Pcb
  label : ProcessLabel

/-- A handler with the data `η` that the handlers have captured. -/
abbrev SyscallHandlerFn (η : Type) :=
  List RegisterValue → SyscallCaller → η → Result RegisterValue × SyscallCaller × η

structure SyscallTable (η : Type) where
  handlers : SyscallId → Option (SyscallHandlerFn η) := fun _ => none

namespace SyscallTable
variable {η : Type}

def registerHandler (t : SyscallTable η) (id : SyscallId) (handler : Option (SyscallHandlerFn η)) :
    Result Unit × SyscallTable η :=
  match handler with
  | none => (.error .invalidArgument, t)
  | some handler => (.ok (), { t with handlers := update t.handlers id (some handler) })

def dispatch (t : SyscallTable η) (id : SyscallId) (args : List RegisterValue)
    (caller : SyscallCaller) (host : η) : Result RegisterValue × SyscallCaller × η :=
  match t.handlers id with
  | none => (.error .notFound, caller, host)
  | some handler => handler args caller host

end SyscallTable

/-- A critical section passes every call on to the primitive it is made of. -/
inductive SyncPrimitive where
  | mutex (m : Mutex)
  | semaphore (s : Semaphore)
  | criticalSection (primitive : SyncPrimitive)

namespace SyncPrimitive

/-- A critical section that is given no primitive takes a mutex. -/
def section? (primitive : Option SyncPrimitive) : SyncPrimitive :=
  .criticalSection (primitive.getD (.mutex {}))

def acquire (pid : ProcessId) : SyncPrimitive → Result Unit × SyncPrimitive
  | .mutex m => (m.acquire pid).map id .mutex
  | .semaphore s => (s.acquire pid).map id .semaphore
  | .criticalSection primitive => (acquire pid primitive).map id .criticalSection

def release (pid : ProcessId) : SyncPrimitive → Result Unit × SyncPrimitive
  | .mutex m => (m.release pid).map id .mutex
  | .semaphore s => (s.release pid).map id .semaphore
  | .criticalSection primitive => (release pid primitive).map id .criticalSection

inductive Op where
  | acquire (pid : ProcessId)
  | release (pid : ProcessId)
  deriving DecidableEq, Repr

def exec (primitive : SyncPrimitive) : Op → Result Unit × SyncPrimitive
  | .acquire pid => primitive.acquire pid
  | .release pid => primitive.release pid

def machine : Machine SyncPrimitive Op (Result Unit) := ⟨exec⟩

end SyncPrimitive

structure NamedProcessConfig extends ProcessConfig where
  name : String := ""
  basePriority : ℤ := 3

def PolicyKind.name : PolicyKind → String
  | .fcfs => "FCFS"
  | .spn => "SPN"
  | .srt => "SRT"
  | .roundRobin _ => "RoundRobin"
  | .priority => "Priority"
  | .hrrn => "HRRN"
  | .hrrnDouble => "HRRN"
  | .mlfq _ => "MLFQ"

structure KernelFacade (P : ReplacementPolicy) (σ η : Type) where
  kernel : Kernel P σ
  policyName : String
  labels : ProcessId → ProcessLabel := fun _ => {}
  host : η
  syscallTable : SyscallTable η := {}
  syncPrimitives : AList (fun _ : String => SyncPrimitive) := ∅

namespace KernelFacade
variable {P : ReplacementPolicy} {σ η : Type} (E : ExecutionEngine σ) (k : KernelFacade P σ η)

def create (policy : PolicyKind) (engine : σ) (host : η) (virtualMemory : VirtualMemory P)
    (defaultTickBudget : ℕ) : KernelFacade P σ η where
  kernel := Kernel.create policy engine virtualMemory defaultTickBudget
  policyName := policy.name
  host := host

def processName (config : NamedProcessConfig) (pid : ProcessId) : String :=
  if config.name.isEmpty then "process-" ++ toString pid else config.name

def createProcess (config : NamedProcessConfig) : Result ProcessId × KernelFacade P σ η :=
  match k.kernel.createProcess config.toProcessConfig with
  | (.error code, kernel) => (.error code, { k with kernel := kernel })
  | (.ok pid, kernel) =>
    (.ok pid, { k with
      kernel := kernel
      labels := update k.labels pid ⟨processName config pid, config.basePriority⟩ })

def terminateProcess (pid : ProcessId) : Result Unit × KernelFacade P σ η :=
  (k.kernel.terminateProcess E pid).map id fun kernel => { k with kernel := kernel }

def tick (tickBudget : ℕ) : Result Unit × KernelFacade P σ η :=
  (k.kernel.tick E tickBudget).map id fun kernel => { k with kernel := kernel }

def runForTicks (cycles tickBudget : ℕ) : Result Unit × KernelFacade P σ η :=
  (k.kernel.runForTicks E cycles tickBudget).map id fun kernel => { k with kernel := kernel }

/-- The process behind a reference, while the dispatcher has it. -/
def caller? (pid : ProcessId) : Option SyscallCaller :=
  if pid ∈ k.kernel.processRefs then
    (k.kernel.dispatcher.processes.lookup pid).map fun image =>
      { pid := pid
        image := image
        pcb := k.kernel.dispatcher.scheduler.pcbs pid
        label := k.labels pid }
  else none

def setCaller (pid : ProcessId) (caller : SyscallCaller) : KernelFacade P σ η :=
  let d := k.kernel.dispatcher
  let scheduler := { d.scheduler with pcbs := update d.scheduler.pcbs pid caller.pcb }
  { k with
    kernel := { k.kernel with dispatcher := { d with
      scheduler := scheduler
      processes := d.processes.replace pid caller.image } }
    labels := update k.labels pid caller.label }

/-- A reference without a process is dropped. -/
def syscall (pid : ProcessId) (id : SyscallId) (args : List RegisterValue) :
    Result RegisterValue × KernelFacade P σ η :=
  match k.caller? pid with
  | none =>
    (.error .notFound,
      { k with kernel := { k.kernel with processRefs := k.kernel.processRefs.erase pid } })
  | some caller =>
    let answer := k.syscallTable.dispatch id args caller k.host
    (answer.1, { k.setCaller pid answer.2.1 with host := answer.2.2 })

def registerSyscallHandler (id : SyscallId) (handler : Option (SyscallHandlerFn η)) :
    Result Unit × KernelFacade P σ η :=
  (k.syscallTable.registerHandler id handler).map (fun r => r) fun table =>
    { k with syscallTable := table }

def registerSyncPrimitive (name : String) (primitive : Option SyncPrimitive) :
    Result Unit × KernelFacade P σ η :=
  match primitive with
  | none => (.error .invalidArgument, k)
  | some primitive =>
    if name.isEmpty then (.error .invalidArgument, k)
    else if name ∈ k.syncPrimitives then (.error .alreadyExists, k)
    else (.ok (), { k with syncPrimitives := k.syncPrimitives.insert name primitive })

def callPrimitive (name : String) (op : SyncPrimitive.Op) : Result Unit × KernelFacade P σ η :=
  match k.syncPrimitives.lookup name with
  | none => (.error .notFound, k)
  | some primitive =>
    let called := primitive.exec op
    (called.1, { k with syncPrimitives := k.syncPrimitives.insert name called.2 })

def enterCritical (pid : ProcessId) (primitiveName : String) : Result Unit × KernelFacade P σ η :=
  k.callPrimitive primitiveName (.acquire pid)

def leaveCritical (pid : ProcessId) (primitiveName : String) : Result Unit × KernelFacade P σ η :=
  k.callPrimitive primitiveName (.release pid)

def now : Tick := k.kernel.dispatcher.clock

def hasProcess (pid : ProcessId) : Bool := k.kernel.dispatcher.hasProcess pid

def processCount : ℕ := k.kernel.dispatcher.processes.entries.length

inductive Op (η : Type) where
  | createProcess (config : NamedProcessConfig)
  | terminateProcess (pid : ProcessId)
  | tick (tickBudget : ℕ)
  | runForTicks (cycles tickBudget : ℕ)
  | syscall (pid : ProcessId) (id : SyscallId) (args : List RegisterValue)
  | registerSyscallHandler (id : SyscallId) (handler : Option (SyscallHandlerFn η))
  | registerSyncPrimitive (name : String) (primitive : Option SyncPrimitive)
  | enterCritical (pid : ProcessId) (primitiveName : String)
  | leaveCritical (pid : ProcessId) (primitiveName : String)

inductive Reply where
  | created (result : Result ProcessId)
  | done (result : Result Unit)
  | returned (result : Result RegisterValue)
  deriving DecidableEq, Repr

def exec : Op η → Reply × KernelFacade P σ η
  | .createProcess config => (k.createProcess config).map .created id
  | .terminateProcess pid => (k.terminateProcess E pid).map .done id
  | .tick tickBudget => (k.tick E tickBudget).map .done id
  | .runForTicks cycles tickBudget => (k.runForTicks E cycles tickBudget).map .done id
  | .syscall pid id args => (k.syscall pid id args).map .returned fun k => k
  | .registerSyscallHandler id handler =>
    (k.registerSyscallHandler id handler).map .done fun k => k
  | .registerSyncPrimitive name primitive =>
    (k.registerSyncPrimitive name primitive).map .done id
  | .enterCritical pid primitiveName => (k.enterCritical pid primitiveName).map .done id
  | .leaveCritical pid primitiveName => (k.leaveCritical pid primitiveName).map .done id

def machine : Machine (KernelFacade P σ η) (Op η) Reply where
  step := exec E

end KernelFacade
end Contur
