import Mathlib.Data.List.Induction
import Contur.Directory
import Contur.KernelPids
import Contur.KernelSnapshot
import Contur.MutexProtocol

/-!
# System calls and critical sections

A system call reaches the handler that was registered last for its number, and only for
a process that is alive; it changes nothing but that process and what the handlers have
captured. The primitives of the critical sections are objects under their names. They
know nothing of the processes: when the owner of a mutex ends, it still owns it, and
until somebody leaves in its name nobody else enters.
-/

namespace Contur
open Function (update)
open Transition
open Directory (Effect Keeps answers)

namespace KernelFacade
variable {P : ReplacementPolicy} {σ η : Type} {E : ExecutionEngine σ} {k : KernelFacade P σ η}

def concerns (name : String) : Op η → Bool
  | .registerSyncPrimitive name' _ => name' = name
  | .enterCritical _ name' => name' = name
  | .leaveCritical _ name' => name' = name
  | _ => false

def registered (name' : String) (primitive : SyncPrimitive) (name : String) :
    Effect SyncPrimitive SyncPrimitive.Op :=
  if name'.isEmpty then .keep else if name' = name then .create primitive else .keep

def effect (name : String) : Op η → Effect SyncPrimitive SyncPrimitive.Op
  | .registerSyncPrimitive name' (some primitive) => registered name' primitive name
  | .enterCritical pid name' => if name' = name then .call (.acquire pid) else .keep
  | .leaveCritical pid name' => if name' = name then .call (.release pid) else .keep
  | _ => .keep

def reply (name : String) (op : Op η) (primitive : Option SyncPrimitive) : Reply :=
  match op with
  | .registerSyncPrimitive _ (some _) =>
    .done (if name.isEmpty then .error .invalidArgument
      else if primitive.isSome then .error .alreadyExists else .ok ())
  | .enterCritical pid _ => .done (primitive.elim (.error .notFound) fun p => (p.acquire pid).1)
  | .leaveCritical pid _ => .done (primitive.elim (.error .notFound) fun p => (p.release pid).1)
  | _ => .done (.error .invalidArgument)

theorem lookup_register (k : KernelFacade P σ η) (name' : String) (primitive : SyncPrimitive)
    (name : String) :
      (k.registerSyncPrimitive name' (some primitive)).2.syncPrimitives.lookup name =
      (registered name' primitive name).apply SyncPrimitive.machine
        (k.syncPrimitives.lookup name) := by
  by_cases hempty : name'.isEmpty = true
  · rw [registered, if_pos hempty, registerSyncPrimitive, if_pos hempty]
    rfl
  · have hprimitives : (k.registerSyncPrimitive name' (some primitive)).2.syncPrimitives =
        if name' ∈ k.syncPrimitives then k.syncPrimitives
        else k.syncPrimitives.insert name' primitive := by
      unfold registerSyncPrimitive
      dsimp only
      rw [if_neg hempty]
      split_ifs <;> rfl
    rw [registered, if_neg hempty, hprimitives]
    exact Directory.lookup_create _ _ _ _ _

theorem lookup_callPrimitive (k : KernelFacade P σ η) (name' : String) (op : SyncPrimitive.Op)
    (name : String) : (k.callPrimitive name' op).2.syncPrimitives.lookup name =
      (if name' = name then Effect.call op else .keep).apply SyncPrimitive.machine
        (k.syncPrimitives.lookup name) := by
  have hprimitives : (k.callPrimitive name' op).2.syncPrimitives =
      (k.syncPrimitives.lookup name').elim k.syncPrimitives
        fun p => k.syncPrimitives.insert name' (SyncPrimitive.machine.next p op) := by
    unfold callPrimitive
    cases k.syncPrimitives.lookup name' <;> rfl
  rw [hprimitives]
  exact Directory.lookup_call _ _ _ _ _

theorem callPrimitive_result (k : KernelFacade P σ η) (name : String) (op : SyncPrimitive.Op) :
    (k.callPrimitive name op).1 =
      (k.syncPrimitives.lookup name).elim (.error .notFound) fun p => (p.exec op).1 := by
  unfold callPrimitive
  cases k.syncPrimitives.lookup name <;> rfl

theorem register_result (k : KernelFacade P σ η) (name : String) (primitive : SyncPrimitive) :
    (k.registerSyncPrimitive name (some primitive)).1 = if name.isEmpty then .error .invalidArgument
      else if (k.syncPrimitives.lookup name).isSome then .error .alreadyExists else .ok () := by
  unfold registerSyncPrimitive
  dsimp only
  by_cases hempty : name.isEmpty = true
  · rw [if_pos hempty, if_pos hempty]
  · rw [if_neg hempty, if_neg hempty]
    by_cases hmem : name ∈ k.syncPrimitives
    · rw [if_pos hmem, if_pos (AList.lookup_isSome.mpr hmem)]
    · rw [if_neg hmem, if_neg fun h => hmem (AList.lookup_isSome.mp h)]

theorem syncPrimitives_createProcess (k : KernelFacade P σ η) (config : NamedProcessConfig) :
    (k.createProcess config).2.syncPrimitives = k.syncPrimitives := by
  unfold createProcess
  split <;> rfl

theorem syncPrimitives_syscall (k : KernelFacade P σ η) (pid : ProcessId) (id : SyscallId)
    (args : List RegisterValue) :
    (k.syscall pid id args).2.syncPrimitives = k.syncPrimitives := by
  unfold syscall
  split <;> rfl

theorem keepsPrimitives (E : ExecutionEngine σ) :
    Keeps (machine (P := P) (η := η) E) SyncPrimitive.machine
      (fun k name => k.syncPrimitives.lookup name) effect concerns reply := by
  refine ⟨fun k op name => ?_, fun name op h => ?_, fun k op name h => ?_⟩
  · cases op with
    | createProcess config =>
      exact congrArg (AList.lookup name) (syncPrimitives_createProcess k config)
    | terminateProcess | tick | runForTicks => rfl
    | syscall pid id args =>
        exact congrArg (AList.lookup name) (syncPrimitives_syscall k pid id args)
    | registerSyscallHandler => rfl
    | registerSyncPrimitive name' primitive =>
      cases primitive with
      | none => rfl
      | some primitive => exact lookup_register k name' primitive name
    | enterCritical pid name' => exact lookup_callPrimitive k name' (.acquire pid) name
    | leaveCritical pid name' => exact lookup_callPrimitive k name' (.release pid) name
  · cases op with
    | registerSyncPrimitive name' primitive =>
      have hne : name' ≠ name := by simpa [concerns] using h
      cases primitive with
      | none => rfl
      | some primitive =>
        rw [effect, registered, if_neg hne, ite_self]
    | enterCritical pid name' => exact if_neg (by simpa [concerns] using h)
    | leaveCritical pid name' => exact if_neg (by simpa [concerns] using h)
    | _ => rfl
  · cases op with
    | registerSyncPrimitive name' primitive =>
      obtain rfl : name' = name := by simpa [concerns] using h
      cases primitive with
      | none => rfl
      | some primitive => exact congrArg Reply.done (register_result k name' primitive)
    | enterCritical pid name' =>
      obtain rfl : name' = name := by simpa [concerns] using h
      exact congrArg Reply.done (callPrimitive_result k name' (.acquire pid))
    | leaveCritical pid name' =>
      obtain rfl : name' = name := by simpa [concerns] using h
      exact congrArg Reply.done (callPrimitive_result k name' (.release pid))
    | _ => simp [concerns] at h

end KernelFacade

/-- Who has the mutex that a primitive is made of. -/
def SyncPrimitive.owner : SyncPrimitive → Option ProcessId
  | .mutex m => m.owner
  | .semaphore _ => none
  | .criticalSection primitive => owner primitive

namespace Mutex

theorem next_owner {s : Mutex} {pid : ProcessId} (hown : s.owner = some pid) {op : Op}
    (hop : op ≠ .release pid) : (machine.next s op).owner = some pid := by
  have heffect := exec_effect s op
  have howner : ∀ {s' : Mutex} {l : Lock}, s'.lock = l → s'.owner = l.owner :=
    fun hlock => congrArg Lock.owner hlock
  generalize machine.out s op = r at heffect
  generalize machine.next s op = s' at heffect
  cases heffect with
  | rejected _ _ _ hsame => rwa [hsame]
  | registered _ _ hlock => rw [howner hlock]; exact hown
  | missed _ _ _ _ hlock => rw [howner hlock]; exact hown
  | queued _ _ howner' _ hlock => rw [howner hlock, ← howner', hown]
  | taken _ _ _ hnone => rw [hnone] at hown; cases hown
  | repeated _ _ _ howner' hlock => rw [howner hlock, ← howner', hown]
  | dropped pid' howner' => exact absurd (by rw [Option.some.inj (howner'.symm.trans hown)]) hop
  | freed pid' howner' => exact absurd (by rw [Option.some.inj (howner'.symm.trans hown)]) hop
  | handedOver pid' _ _ howner' =>
      exact absurd (by rw [Option.some.inj (howner'.symm.trans hown)]) hop

theorem acquire_busy {s : Mutex} {pid other : ProcessId} (hown : s.owner = some pid)
    (hother : other ≠ pid) :
    (s.acquire other).1 = .error (if other = invalidPid then .invalidPid else .resourceBusy) := by
  unfold acquire
  by_cases hinvalid : other = invalidPid
  · rw [if_pos hinvalid, if_pos hinvalid]
  · have howner : (s.ensurePriorityRegistered other).owner = some pid := hown
    rw [if_neg hinvalid, if_neg hinvalid]
    dsimp only
    rw [howner]
    dsimp only
    rw [if_neg (Ne.symm hother)]

end Mutex

namespace SyncPrimitive

theorem next_owner {primitive : SyncPrimitive} {pid : ProcessId} (hown : primitive.owner = some pid)
    {op : Op} (hop : op ≠ .release pid) : (machine.next primitive op).owner = some pid := by
  induction primitive with
  | mutex m =>
    cases op with
    | acquire other =>
      have hacquire : Mutex.Op.acquire other ≠ .release pid := by simp
      exact Mutex.next_owner hown hacquire
    | release other =>
      have hrelease : Mutex.Op.release other ≠ .release pid := by simpa using hop
      exact Mutex.next_owner hown hrelease
  | semaphore s => cases hown
  | criticalSection primitive ih =>
    cases op with
    | acquire other => exact ih hown
    | release other => exact ih hown

theorem acquire_busy {primitive : SyncPrimitive} {pid other : ProcessId}
    (hown : primitive.owner = some pid) (hother : other ≠ pid) :
    (primitive.acquire other).1 =
      .error (if other = invalidPid then .invalidPid else .resourceBusy) := by
  induction primitive with
  | mutex m => exact Mutex.acquire_busy hown hother
  | semaphore s => cases hown
  | criticalSection primitive ih => exact ih hown

end SyncPrimitive

namespace KernelFacade
variable {P : ReplacementPolicy} {σ η : Type} {E : ExecutionEngine σ} {k : KernelFacade P σ η}

def ownerOf (k : KernelFacade P σ η) (name : String) : Option ProcessId :=
  (k.syncPrimitives.lookup name).bind SyncPrimitive.owner

theorem effect_next_owner {name : String} {op : Op η} {pid : ProcessId} {primitive : SyncPrimitive}
    (hop : op ≠ .leaveCritical pid name) (hown : primitive.owner = some pid) :
    ((effect name op).apply SyncPrimitive.machine (some primitive)).bind SyncPrimitive.owner =
      some pid := by
  cases op with
  | registerSyncPrimitive name' primitive' =>
    cases primitive' with
    | none => exact hown
    | some primitive' =>
      rw [effect, registered]
      split_ifs <;> exact hown
  | enterCritical other name' =>
    rw [effect]
    split_ifs
    · exact SyncPrimitive.next_owner hown (by simp)
    · exact hown
  | leaveCritical other name' =>
    rw [effect]
    split_ifs with hname
    · subst hname
      refine SyncPrimitive.next_owner hown fun hsame => hop ?_
      rw [SyncPrimitive.Op.release.inj hsame]
    · exact hown
  | _ => exact hown

/-- The owner of the mutex under a name keeps it through every sequence of calls in which nobody
leaves in its name, even if it terminates meanwhile, and until then every other process that enters
is refused. -/
theorem critical_section_exclusive (E : ExecutionEngine σ) (k : KernelFacade P σ η) {name : String}
    {pid : ProcessId} (hown : k.ownerOf name = some pid) (ops : List (Op η))
    (hstay : .leaveCritical pid name ∉ ops) :
    let k' := (machine E).run k ops
    k'.ownerOf name = some pid ∧ ∀ other, other ≠ pid →
      (k'.enterCritical other name).1 =
        .error (if other = invalidPid then .invalidPid else .resourceBusy) := by
  have howner : ((machine E).run k ops).ownerOf name = some pid := by
    refine (machine E).run_invariant_of_guarded (P := fun k => k.ownerOf name = some pid)
      (G := fun _ op => op ≠ .leaveCritical pid name) (fun k op hop hk => ?_) hown
      ((machine E).guarded_of_forall k fun op hmem => ?_)
    · obtain ⟨primitive, hprimitive, howner⟩ := Option.bind_eq_some_iff.mp hk
      have hview := (keepsPrimitives E).view_next k op name
      rw [hprimitive] at hview
      rw [ownerOf, hview]
      exact effect_next_owner hop howner
    · rintro rfl
      exact hstay hmem
  refine ⟨howner, fun other hother => ?_⟩
  obtain ⟨primitive, hprimitive, hpid⟩ := Option.bind_eq_some_iff.mp howner
  rw [enterCritical, callPrimitive_result, hprimitive]
  exact SyncPrimitive.acquire_busy hpid hother

theorem critical_section_exclusive_ended :
    let k : KernelFacade fifoReplacement Interpreter ℕ :=
      (machine Interpreter.executionEngine).run (create .fcfs ⟨0, ∅, none⟩ 0
        (VirtualMemory.init (Mmu.init fifoReplacement (.ofSize 8) id) 4) 1)
        [.createProcess { code := [{ code := .nop }] },
          .registerSyncPrimitive "m" (some (.section? none)), .enterCritical 1 "m"]
    let k' := (machine Interpreter.executionEngine).run k [.terminateProcess 1]
    k'.hasProcess 1 = false ∧ k'.ownerOf "m" = some 1 ∧
      (k'.enterCritical 2 "m").1 = .error .resourceBusy := by
  intro k k'
  have hown : k.ownerOf "m" = some 1 := by decide +kernel
  obtain ⟨hown, hbusy⟩ := critical_section_exclusive Interpreter.executionEngine k hown
    [.terminateProcess 1] (by simp)
  exact ⟨by decide +kernel, hown, hbusy 2 (by decide)⟩

end KernelFacade
end Contur
