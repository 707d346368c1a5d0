import Contur.KernelBatching
import Contur.KernelSnapshot
import Contur.TuiHistory

/-!
# The viewer of a kernel

The application gives the controller a read model that numbers the snapshots of the
kernel, and a tick function that is the kernel's `runForTicks`. Whatever is played,
paused or sought, the kernel is where one call with all the ticks issued so far would
have taken it, and what is shown are snapshots of the states it went through, in their
order.
-/

namespace Contur
open Transition

structure TuiProcessSnapshot where
  id : ProcessId
  name : String
  state : ProcessState
  basePriority : ℤ
  effectivePriority : ℤ
  nice : ℤ
  cpuTime : Tick
  laneIndex : Option ℕ
  deriving DecidableEq

structure TuiSchedulerSnapshot where
  readyQueue : List ProcessId
  blockedQueue : List ProcessId
  runningQueue : List ProcessId
  perLaneReadyQueues : List (List ProcessId)
  readyCount : ℕ
  blockedCount : ℕ
  policyName : String
  deriving DecidableEq, Inhabited

structure TuiMemorySnapshot where
  totalVirtualSlots : ℕ
  freeVirtualSlots : ℕ
  totalFrames : Option ℕ
  freeFrames : Option ℕ
  frameOwners : List (Option ProcessId)
  deriving DecidableEq, Inhabited

structure KernelView where
  currentTick : Tick
  processCount : ℕ
  processes : List TuiProcessSnapshot
  scheduler : TuiSchedulerSnapshot
  memory : TuiMemorySnapshot
  epoch : Tick
  deriving DecidableEq, Inhabited

def KernelSnapshot.view (s : KernelSnapshot) : KernelView where
  currentTick := s.currentTick
  processCount := s.processCount
  processes := s.processes.map fun process =>
    { id := process.id
      name := process.name
      state := process.state
      basePriority := process.basePriority
      effectivePriority := process.effectivePriority
      nice := process.nice
      cpuTime := process.cpuTime
      laneIndex := process.laneIndex }
  scheduler :=
    { readyQueue := s.readyQueue
      blockedQueue := s.blockedQueue
      runningQueue := s.runningPids
      perLaneReadyQueues := s.perLaneReadyQueues
      readyCount := s.readyCount
      blockedCount := s.blockedCount
      policyName := s.policyName }
  memory :=
    { totalVirtualSlots := s.totalVirtualSlots
      freeVirtualSlots := s.freeVirtualSlots
      totalFrames := s.totalFrames
      freeFrames := s.freeFrames
      frameOwners := s.frameOwners }
  epoch := s.currentTick

/-- A kernel with the read model over it, which has only the number of its last snapshot. -/
structure ViewedKernel (P : ReplacementPolicy) (σ η : Type) where
  kernel : KernelFacade P σ η
  nextSequence : UInt64 := 0

namespace ViewedKernel
variable {P : ReplacementPolicy} {σ η : Type} (E : ExecutionEngine σ) (w : ViewedKernel P σ η)

/-- The diagnostics of a kernel pass its snapshot on and do not fail. -/
def captureSnapshot : Result (TuiSnapshot KernelView) × ViewedKernel P σ η :=
  let sequence := w.nextSequence + 1
  (.ok { sequence := sequence, contents := w.kernel.snapshot.view },
    { w with nextSequence := sequence })

def tick (step : ℕ) : Result Unit × ViewedKernel P σ η :=
  (w.kernel.runForTicks E step 0).map id fun kernel => { w with kernel := kernel }

def environment : TuiEnvironment (ViewedKernel P σ η) KernelView where
  tick := tick E
  captureSnapshot := captureSnapshot

end ViewedKernel

namespace Kernel
variable {P : ReplacementPolicy} {σ : Type} {E : ExecutionEngine σ} {k : Kernel P σ}

theorem runLoop_error (h : k.Inv) {tickBudget cycles : ℕ} {anyWorkDone : Bool} {code : ErrorCode}
    (herror : (k.runLoop E tickBudget anyWorkDone cycles).1 = .error code) : code = .notFound := by
  induction cycles generalizing k anyWorkDone with
  | zero => cases herror
  | succ cycles ih =>
    have hinv := tick_inv (E := E) h tickBudget
    have htick : ∀ code, (k.tick E tickBudget).1 = .error code → code = .notFound :=
      fun _ => tick_error h
    rw [runLoop] at herror
    cases hnext : k.tick E tickBudget with
    | mk result k' =>
      rw [hnext] at hinv htick herror
      cases result with
      | ok done => exact ih hinv herror
      | error found =>
        obtain rfl := htick found rfl
        dsimp only at herror
        split_ifs at herror
        cases herror
        rfl

end Kernel

namespace KernelFacade
variable {P : ReplacementPolicy} {σ η : Type} (E : ExecutionEngine σ) {k : KernelFacade P σ η}

def after (k : KernelFacade P σ η) (ticks : ℕ) : KernelFacade P σ η := (k.runForTicks E ticks 0).2

theorem after_add (h : k.kernel.Inv) (a b : ℕ) : k.after E (a + b) = (k.after E a).after E b := by
  have hkernel : (k.kernel.runForTicks E (a + b) 0).2 =
      ((k.kernel.runForTicks E a 0).2.runForTicks E b 0).2 := Kernel.runLoop_add h false false a b
  exact congrArg (fun kernel => { k with kernel := kernel }) hkernel

theorem after_inv (h : k.kernel.Inv) (ticks : ℕ) : (k.after E ticks).kernel.Inv :=
  Kernel.runLoop_inv h 0 false ticks

end KernelFacade

namespace ViewedKernel
variable {P : ReplacementPolicy} {σ η : Type} {E : ExecutionEngine σ} {start : KernelFacade P σ η}
  {totals : List ℕ}

def shots (E : ExecutionEngine σ) (start : KernelFacade P σ η) (totals : List ℕ) :
    List (TuiSnapshot KernelView) :=
  totals.mapIdx fun i total =>
    { sequence := UInt64.ofNat (i + 1), contents := (start.after E total).snapshot.view }

theorem shots_concat (totals : List ℕ) (total : ℕ) : shots E start (totals ++ [total]) =
    shots E start totals ++ [{ sequence := UInt64.ofNat (totals.length + 1)
                               contents := (start.after E total).snapshot.view }] := by
  rw [shots, List.mapIdx_concat]
  rfl

theorem ofNat_add_one (n : ℕ) : UInt64.ofNat (n + 1) = UInt64.ofNat n + 1 := by
  rw [UInt64.ofNat_add]
  rfl

theorem lt_add_one_of_ne_zero {next : UInt64} (h : next + 1 ≠ 0) : next < next + 1 := by
  have hlt := next.toNat_lt
  have hne : (next + 1).toNat ≠ 0 := fun heq => h (UInt64.toNat_inj.mp heq)
  rw [UInt64.toNat_add, UInt64.toNat_one] at hne
  rw [UInt64.lt_iff_toNat_lt, UInt64.toNat_add, UInt64.toNat_one]
  omega

theorem numbered_next (n : ℕ) (contents : KernelView) :
    TuiController.numbered (UInt64.ofNat n)
      { sequence := UInt64.ofNat (n + 1), contents := contents } =
      ({ sequence := UInt64.ofNat (n + 1), contents := contents }, UInt64.ofNat (n + 1)) := by
  rw [ofNat_add_one]
  generalize UInt64.ofNat n = next
  unfold TuiController.numbered
  split_ifs with hzero hgt
  · rfl
  · rfl
  · exact absurd (lt_add_one_of_ne_zero hzero) hgt

theorem numberAll_shots (totals : List ℕ) : TuiController.numberAll (shots E start totals) =
    (shots E start totals, UInt64.ofNat totals.length) := by
  induction totals using List.reverseRecOn with
  | nil => rfl
  | append_singleton totals total ih =>
    rw [shots_concat, TuiController.numberAll_concat, ih, numbered_next, List.length_append,
      List.length_singleton]

/-- The kernel has taken all the ticks that were issued, and `totals` are the numbers of ticks at
which it was looked at. -/
structure Replays (E : ExecutionEngine σ) (start : KernelFacade P σ η) (w : ViewedKernel P σ η)
    (j : TuiJournal KernelView) (totals : List ℕ) : Prop where
  kernel : w.kernel = start.after E j.ticks.sum
  nextSequence : w.nextSequence = UInt64.ofNat totals.length
  captured : j.captured = shots E start totals
  sorted : totals.Pairwise (· ≤ ·)
  bounded : ∀ total ∈ totals, total ≤ j.ticks.sum

theorem Replays.capture {w : ViewedKernel P σ η} {j : TuiJournal KernelView}
    (h : Replays E start w j totals) :
    Replays E start w.captureSnapshot.2 { j with captured := j.captured ++ [
      { sequence := w.nextSequence + 1, contents := w.kernel.snapshot.view }] }
      (totals ++ [j.ticks.sum]) where
  kernel := h.kernel
  nextSequence := by
    rw [List.length_append, List.length_singleton, ofNat_add_one, ← h.nextSequence]
    rfl
  captured := by
    rw [shots_concat, ofNat_add_one, ← h.nextSequence, ← h.captured, ← h.kernel]
  sorted := by
    rw [List.pairwise_append]
    refine ⟨h.sorted, List.pairwise_singleton _ _, fun total htotal last hlast => ?_⟩
    rw [List.mem_singleton.mp hlast]
    exact h.bounded total htotal
  bounded := by
    intro total htotal
    rcases List.mem_append.mp htotal with htotal | hlast
    · exact h.bounded total htotal
    · exact (List.mem_singleton.mp hlast).le

theorem Replays.tick {w : ViewedKernel P σ η} {j : TuiJournal KernelView}
    (h : Replays E start w j totals) (hstart : start.kernel.Inv) (step : ℕ) :
    Replays E start (w.tick E step).2 (j.noteTick step (w.tick E step).1) totals := by
  have hticks : (j.noteTick step (w.tick E step).1).ticks = j.ticks ++ [step] := by
    cases (w.tick E step).1 <;> rfl
  have hcaptured : (j.noteTick step (w.tick E step).1).captured = j.captured := by
    cases (w.tick E step).1 <;> rfl
  refine ⟨?_, h.nextSequence, hcaptured.trans h.captured, h.sorted, fun total htotal => ?_⟩
  · rw [hticks, List.sum_append, List.sum_singleton, KernelFacade.after_add E hstart, ← h.kernel]
    rfl
  · rw [hticks, List.sum_append]
    exact Nat.le_add_right_of_le (h.bounded total htotal)

theorem Replays.move (hstart : start.kernel.Inv)
    (s s' : TuiController KernelView × ViewedKernel P σ η × TuiJournal KernelView)
    (hmove : TuiController.Move (environment E).observed s s')
    (h : ∃ totals, Replays E start s.2.1 s.2.2 totals) :
    ∃ totals, Replays E start s'.2.1 s'.2.2 totals := by
  obtain ⟨totals, h⟩ := h
  cases hmove with
  | settings | seekBackward | seekForward => exact ⟨totals, h⟩
  | tick c w step => exact ⟨totals, h.tick hstart step⟩
  | capture c w =>
    rw [TuiController.captureSnapshot_observed_of_ok (E := environment E) rfl]
    exact ⟨_, h.capture⟩

theorem replays_create (capacity : ℕ) :
    ∃ totals, Replays E start (TuiController.create (environment E).observed
      (({ kernel := start } : ViewedKernel P σ η), {}) capacity).2.1
      (TuiController.create (environment E).observed
      (({ kernel := start } : ViewedKernel P σ η), {}) capacity).2.2 totals := by
  have hempty : Replays E start ({ kernel := start } : ViewedKernel P σ η) {} [] :=
    ⟨rfl, rfl, rfl, .nil, fun _ h => by cases h⟩
  rw [TuiController.create, TuiController.captureSnapshot_observed_of_ok (E := environment E) rfl]
  exact ⟨_, hempty.capture⟩

theorem dispatch_tick {w : ViewedKernel P σ η} (h : w.kernel.kernel.Inv)
    (c : TuiController KernelView) (j : TuiJournal KernelView) {step : ℕ} (hstep : step ≠ 0) :
    (c.dispatch (environment E).observed (w, j) { kind := .tick, step := step }).1 = .ok () ∧
      (c.dispatch (environment E).observed (w, j)
        { kind := .tick, step := step }).2.1.current.contents =
        (w.kernel.after E step).snapshot.view := by
  have hvalid : validateCommand { kind := .tick, step := step } = .ok () := by
    simp [validateCommand, commandRequiresInterval, hstep]
  have hcapture : ∀ j : TuiJournal KernelView,
      (c.captureSnapshot (environment E).observed ((w.tick E step).2, j)).1 = .ok () ∧
        (c.captureSnapshot (environment E).observed ((w.tick E step).2, j)).2.1.current.contents =
          (w.kernel.after E step).snapshot.view := by
    intro j
    rw [TuiController.captureSnapshot_observed_of_ok (E := environment E) rfl,
      TuiController.record_eq]
    exact ⟨rfl, (TuiController.numbered_contents _ _).1⟩
  have herror : ∀ code, (w.tick E step).1 = .error code → code = .notFound :=
    fun code => Kernel.runLoop_error (k := w.kernel.kernel) h
  have hobserved : (environment E).observed.tick (w, j) step =
      ((w.tick E step).1, (w.tick E step).2, j.noteTick step (w.tick E step).1) := rfl
  rw [TuiController.dispatch, hvalid]
  dsimp only
  rw [hobserved]
  generalize j.noteTick step (w.tick E step).1 = noted
  cases hresult : (w.tick E step).1 with
  | ok _ => exact hcapture noted
  | error code =>
    obtain rfl := herror code hresult
    exact hcapture noted

/-- The viewer only watches. Whatever the kernel has done before and whatever is commanded, played,
paused and sought, the kernel is in the state where a single call with all the ticks issued leaves
it; the history holds the last of the snapshots of the states it was looked at, which are numbered
from one on without a gap, and one of them is shown. A tick is never refused. -/
theorem viewer_replays (E : ExecutionEngine σ) (policy : PolicyKind) (engine : σ) (host : η)
    (memory : PhysicalMemory) (order : ℕ → ℕ) (maxSlots defaultTickBudget : ℕ)
    (ops : List (KernelFacade.Op η)) (hops : ∀ op ∈ ops, KernelFacade.KeepsStates op)
    (capacity : ℕ) (inputs : List TuiInput) :
    let start := (KernelFacade.machine E).run (KernelFacade.create policy engine host
      (VirtualMemory.init (Mmu.init P memory order) maxSlots) defaultTickBudget) ops
    let s := (TuiController.machine (environment E).observed).run
      (TuiController.create (environment E).observed ({ kernel := start }, {}) capacity) inputs
    s.2.1.kernel = start.after E s.2.2.ticks.sum ∧
      (∃ totals : List ℕ, totals.Pairwise (· ≤ ·) ∧ (∀ total ∈ totals, total ≤ s.2.2.ticks.sum) ∧
        s.1.history.entries.map (·.snapshot) =
          (shots E start totals).rtake s.1.history.capacity ∧
        s.1.current ∈ shots E start totals) ∧
      ∀ step, step ≠ 0 →
        let s' := s.1.dispatch (environment E).observed s.2 { kind := .tick, step := step }
        s'.1 = .ok () ∧
          s'.2.1.current.contents = (start.after E (s.2.2.ticks.sum + step)).snapshot.view := by
  intro start s
  have hstart : start.kernel.Inv :=
    (KernelFacade.run_sound E policy engine host memory order maxSlots defaultTickBudget
      hops).kernel
  obtain ⟨totals, hreplays⟩ :=
    TuiController.run_of_move (Replays.move hstart) (replays_create capacity) inputs
  have hconsistent : s.1.Consistent s.2.2.captured :=
    TuiController.run_of_move
      (P := fun s : TuiController KernelView × ViewedKernel P σ η × TuiJournal KernelView =>
        s.1.Consistent s.2.2.captured)
      TuiController.Consistent.move (TuiController.consistent_create capacity rfl) inputs
  have hnumbers : TuiController.numberAll s.2.2.captured =
      (shots E start totals, UInt64.ofNat totals.length) := by
    rw [← numberAll_shots]
    exact congrArg TuiController.numberAll hreplays.captured
  have hentries := hconsistent.entries
  rw [hnumbers] at hentries
  refine ⟨hreplays.kernel, ⟨totals, hreplays.sorted, hreplays.bounded, hentries, ?_⟩, ?_⟩
  · have hshown := hconsistent.shown
    rw [HistoryBuffer.current_eq] at hshown
    have hmem : s.1.current ∈ s.1.history.entries.map (·.snapshot) :=
      List.mem_map.mpr ⟨_, List.mem_of_getElem? hshown, rfl⟩
    rw [hentries] at hmem
    exact List.mem_of_mem_drop hmem
  · intro step hstep
    have hkernel : s.2.1.kernel = start.after E s.2.2.ticks.sum := hreplays.kernel
    have hinv : s.2.1.kernel.kernel.Inv := by
      rw [hkernel]
      exact KernelFacade.after_inv E hstart _
    rw [KernelFacade.after_add E hstart, ← hkernel]
    exact dispatch_tick hinv s.1 s.2.2 hstep

def viewedOps : List (KernelFacade.Op ℕ) := [.createProcess { code := [{ code := .nop }] }]

def viewedStart : KernelFacade fifoReplacement Interpreter ℕ :=
  (KernelFacade.machine Interpreter.executionEngine).run (KernelFacade.create .fcfs {} 0
    (VirtualMemory.init (Mmu.init fifoReplacement (.ofSize 8) id) 4) 1) viewedOps

def viewedInputs : List TuiInput :=
  [.dispatch {}, .dispatch { step := 2 }, .dispatch { kind := .seekBackward }]

def viewed : TuiController KernelView × ViewedKernel fifoReplacement Interpreter ℕ ×
    TuiJournal KernelView :=
  (TuiController.machine (environment Interpreter.executionEngine).observed).run
    (TuiController.create (environment Interpreter.executionEngine).observed
      ({ kernel := viewedStart }, {}) 2) viewedInputs

theorem viewer_replays_two :
    viewed.2.1.kernel = viewedStart.after Interpreter.executionEngine viewed.2.2.ticks.sum ∧
      viewed.2.2.ticks = [1, 2] ∧ viewed.1.history.entries.map (·.sequence) = [2, 3] ∧
      viewed.1.current.sequence = 2 := by
  have hops : ∀ op ∈ viewedOps, KernelFacade.KeepsStates op := by
    intro op hop
    rw [List.mem_singleton.mp hop]
    trivial
  have hreplays := viewer_replays (P := fifoReplacement) Interpreter.executionEngine .fcfs {} 0
    (.ofSize 8) id 4 1 viewedOps hops 2 viewedInputs
  exact ⟨hreplays.1, by decide +kernel, by decide +kernel, by decide +kernel⟩

end ViewedKernel
end Contur
