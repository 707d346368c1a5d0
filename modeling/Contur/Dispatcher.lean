import Contur.Execution
import Contur.Scheduler
import Contur.VirtualMemory

/-!
# The dispatcher

The dispatcher owns the process images and drives the scheduler, the execution
engine, the virtual memory and the clock. The engine works on the memory of the
memory management unit. A control block enters the table of the scheduler with the
call that enqueues it.
-/

namespace Contur
open Function (update)

structure Dispatcher (P : ReplacementPolicy) (σ : Type) where
  scheduler : Scheduler
  engine : σ
  virtualMemory : VirtualMemory P
  clock : Tick
  processes : AList (fun _ : ProcessId => ProcessImage)

namespace Dispatcher
variable {P : ReplacementPolicy} {σ : Type} (E : ExecutionEngine σ) (d : Dispatcher P σ)

def hasProcess (pid : ProcessId) : Bool := pid ∈ d.processes

def freeSlot (pid : ProcessId) : Dispatcher P σ :=
  { d with virtualMemory := (d.virtualMemory.freeSlot pid).2 }

def enqueue (pid : ProcessId) (pcb : Pcb) (currentTick : Tick) : Result Unit × Dispatcher P σ :=
  let scheduler := { d.scheduler with pcbs := update d.scheduler.pcbs pid pcb }
  let enqueued := scheduler.enqueue pid currentTick
  (enqueued.1, { d with scheduler := enqueued.2 })

def createProcess (pid : ProcessId) (process : ProcessImage) (pcb : Pcb) (currentTick : Tick) :
    Result Unit × Dispatcher P σ :=
  if pid = invalidPid then (.error .invalidPid, d)
  else if d.hasProcess pid then (.error .alreadyExists, d)
  else match d.virtualMemory.allocateSlot pid (max 1 process.code.length) with
    | (.error code, virtualMemory) => (.error code, { d with virtualMemory := virtualMemory })
    | (.ok _, virtualMemory) =>
      match virtualMemory.loadSegment pid process.code with
      | (.error code, virtualMemory) =>
        (.error code, { d with virtualMemory := virtualMemory : Dispatcher P σ }.freeSlot pid)
      | (.ok _, virtualMemory) =>
        match { d with virtualMemory := virtualMemory : Dispatcher P σ }.enqueue pid pcb
            currentTick with
        | (.error code, d) => (.error code, d.freeSlot pid)
        | (.ok _, d) => (.ok (), { d with processes := d.processes.insert pid process })

def execute (pid : ProcessId) (process : ProcessImage) (tickBudget : ℕ) :
    ExecutionResult × Dispatcher P σ :=
  let mmu := d.virtualMemory.mmu
  let outcome := E.execute d.engine mmu.memory pid process tickBudget
  (outcome.result, { d with
    engine := outcome.engine
    virtualMemory := { d.virtualMemory with mmu := { mmu with memory := outcome.memory } }
    clock := tickAdd d.clock outcome.result.ticksConsumed
    processes := d.processes.replace pid { process with registers := outcome.registers } })

/-- What becomes of the process when its slice has ended. -/
def stop (pid : ProcessId) : StopReason → Result Unit × Dispatcher P σ
  | .budgetExhausted => (.ok (), d)
  | .interrupted =>
    let blocked := d.scheduler.blockProcess pid d.clock
    (blocked.1, { d with scheduler := blocked.2 })
  | _ =>
    match d.scheduler.terminate pid d.clock with
    | (.error code, scheduler) => (.error code, { d with scheduler := scheduler })
    | (.ok _, scheduler) =>
      let d := { d with scheduler := scheduler : Dispatcher P σ }.freeSlot pid
      (.ok (), { d with processes := d.processes.erase pid })

def dispatch (tickBudget : ℕ) : Result Unit × Dispatcher P σ :=
  if d.processes.entries.isEmpty then (.error .notFound, d)
  else match d.scheduler.selectNext d.clock with
    | (.error code, scheduler) => (.error code, { d with scheduler := scheduler })
    | (.ok pid, scheduler) =>
      let d := { d with scheduler := scheduler }
      match d.processes.lookup pid with
      | none => (.error .invalidState, d)
      | some process =>
        let executed := d.execute E pid process tickBudget
        executed.2.stop pid executed.1.reason

def terminateProcess (pid : ProcessId) (currentTick : Tick) : Result Unit × Dispatcher P σ :=
  if ¬ d.hasProcess pid then (.error .notFound, d)
  else
    let d := { d with engine := E.halt d.engine pid }
    match d.scheduler.dequeue pid with
    | (.error .notFound, scheduler) | (.ok _, scheduler) =>
      let pcb := ((scheduler.pcbs pid).setState .terminated currentTick).getD (scheduler.pcbs pid)
      let scheduler := { scheduler with pcbs := update scheduler.pcbs pid pcb }
      let d := { d with scheduler := scheduler : Dispatcher P σ }.freeSlot pid
      (.ok (), { d with processes := d.processes.erase pid })
    | (.error code, scheduler) => (.error code, { d with scheduler := scheduler })

end Dispatcher
end Contur
