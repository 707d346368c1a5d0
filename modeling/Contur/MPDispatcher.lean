import Mathlib.Algebra.BigOperators.Group.Finset.Basic
import Contur.DispatcherPoolRefinement
import Contur.KernelPids

/-!
# The dispatcher over several lanes

A dispatcher over lanes passes a new process on to the lane that its pid gives, lets a
runtime dispatch all lanes, and looks for the lane that has a process before it
terminates it. It has the interface of the dispatchers behind its lanes, and it keeps
what they keep: a table of the live processes in which a pid stands once. The lanes here
have schedulers, memories and clocks of their own; a lane then does not notice the
other ones.
-/

namespace Contur
open Function (update)
open Transition

structure NewProcess where
  pid : ProcessId
  image : ProcessImage
  pcb : Pcb

/-- The states of a dispatcher are in `δ`; a null process is `none`. -/
structure IDispatcher (δ : Type) where
  createProcess : δ → Option NewProcess → Tick → Result Unit × δ
  dispatch : δ → ℕ → Result Unit × δ
  terminateProcess : δ → ProcessId → Tick → Result Unit × δ
  tick : δ → δ
  processCount : δ → ℕ
  hasProcess : δ → ProcessId → Bool

namespace IDispatcher
variable {δ : Type} (I : IDispatcher δ)

inductive Call where
  | createProcess (process : Option NewProcess) (currentTick : Tick)
  | dispatch (tickBudget : ℕ)
  | terminateProcess (pid : ProcessId) (currentTick : Tick)
  | tick

def exec (d : δ) : Call → Option (Result Unit) × δ
  | .createProcess process currentTick =>
    let answer := I.createProcess d process currentTick
    (some answer.1, answer.2)
  | .dispatch tickBudget =>
    let answer := I.dispatch d tickBudget
    (some answer.1, answer.2)
  | .terminateProcess pid currentTick =>
    let answer := I.terminateProcess d pid currentTick
    (some answer.1, answer.2)
  | .tick => (none, I.tick d)

def machine : Machine δ Call (Option (Result Unit)) := ⟨exec I⟩

/-- In the states of `Inv` the live processes are those of a table, which the calls keep. -/
structure KeepsTable (Inv : δ → Prop) (live : δ → Finset ProcessId) : Prop where
  hasProcess : ∀ d pid, I.hasProcess d pid = decide (pid ∈ live d)
  processCount : ∀ d, Inv d → I.processCount d = (live d).card
  createProcess : ∀ d process now, Inv d → Inv (I.createProcess d process now).2 ∧
    ((∃ code, (I.createProcess d process now).1 = .error code ∧
        live (I.createProcess d process now).2 = live d) ∨
      ∃ p, process = some p ∧ (I.createProcess d process now).1 = .ok () ∧ p.pid ∉ live d ∧
        live (I.createProcess d process now).2 = insert p.pid (live d))
  dispatch : ∀ d tickBudget, Inv d →
    Inv (I.dispatch d tickBudget).2 ∧ live (I.dispatch d tickBudget).2 ⊆ live d
  terminate_dead : ∀ d pid now, pid ∉ live d → I.terminateProcess d pid now = (.error .notFound, d)
  terminate_live : ∀ d pid now, Inv d → pid ∈ live d → Inv (I.terminateProcess d pid now).2 ∧
    (I.terminateProcess d pid now).1 = .ok () ∧
    live (I.terminateProcess d pid now).2 = (live d).erase pid
  tick : ∀ d, Inv d → Inv (I.tick d) ∧ live (I.tick d) = live d

theorem KeepsTable.next {I : IDispatcher δ} {Inv : δ → Prop} {live : δ → Finset ProcessId}
    (h : I.KeepsTable Inv live) {d : δ} (hd : Inv d) (call : Call) :
      Inv (I.machine.next d call) := by
  cases call with
  | createProcess process now => exact (h.createProcess d process now hd).1
  | dispatch tickBudget => exact (h.dispatch d tickBudget hd).1
  | terminateProcess pid now =>
    by_cases hpid : pid ∈ live d
    · exact (h.terminate_live d pid now hd hpid).1
    · change Inv (I.terminateProcess d pid now).2
      rw [h.terminate_dead d pid now hpid]
      exact hd
  | tick => exact (h.tick d hd).1

end IDispatcher

namespace Dispatcher
variable {P : ReplacementPolicy} {σ : Type} (E : ExecutionEngine σ) (d : Dispatcher P σ)

def tick : Dispatcher P σ := { d with clock := tickAdd d.clock 1 }

def processCount : ℕ := d.processes.entries.length

def createProcess? (process : Option NewProcess) (currentTick : Tick) :
    Result Unit × Dispatcher P σ :=
  match process with
  | none => (.error .invalidArgument, d)
  | some p => d.createProcess p.pid p.image p.pcb currentTick

def interface : IDispatcher (Dispatcher P σ) where
  createProcess := createProcess?
  dispatch d tickBudget := d.dispatch E tickBudget
  terminateProcess d pid currentTick := d.terminateProcess E pid currentTick
  tick := tick
  processCount := processCount
  hasProcess := hasProcess

def live : Finset ProcessId := d.processes.keys.toFinset

theorem mem_live {pid : ProcessId} : pid ∈ d.live ↔ pid ∈ d.processes := by
  unfold live
  rw [List.mem_toFinset, AList.mem_keys]

theorem live_congr {d d' : Dispatcher P σ} (h : d'.processes = d.processes) : d'.live = d.live := by
  unfold live
  rw [h]

theorem live_createProcess (p : NewProcess) (now : Tick) :
    (∃ code, (d.createProcess p.pid p.image p.pcb now).1 = .error code ∧
        (d.createProcess p.pid p.image p.pcb now).2.live = d.live) ∨
      ((d.createProcess p.pid p.image p.pcb now).1 = .ok () ∧ p.pid ∉ d.live ∧
        (d.createProcess p.pid p.image p.pcb now).2.live = insert p.pid d.live) := by
  rcases (d.createProcess_table p.pid p.image p.pcb now).2 with ⟨⟨code, hcode⟩, hsame⟩ |
    ⟨hok, hnew, hins⟩
  · exact Or.inl ⟨code, hcode, live_congr hsame⟩
  · refine Or.inr ⟨hok, fun hmem => hnew (d.mem_live.mp hmem), ?_⟩
    ext q
    rw [mem_live, hins, AList.mem_insert, Finset.mem_insert, mem_live]

theorem live_dispatch (tickBudget : ℕ) : (d.dispatch E tickBudget).2.live ⊆ d.live := by
  intro q hq
  rw [mem_live] at hq ⊢
  cases hslice : d.slice tickBudget with
  | none => rwa [(dispatch_of_slice_none hslice).2] at hq
  | some x =>
    obtain ⟨-, himage, -, hothers⟩ := dispatch_of_slice (E := E) hslice
    by_cases hpid : q = x.pid
    · rw [hpid]
      exact AList.lookup_isSome.mp (by rw [himage]; rfl)
    · rw [← AList.lookup_isSome, hothers q hpid] at hq
      exact AList.lookup_isSome.mp hq

theorem terminateProcess_dead {pid : ProcessId} (hpid : pid ∉ d.live) (now : Tick) :
    d.terminateProcess E pid now = (.error .notFound, d) := by
  rw [mem_live] at hpid
  simp [terminateProcess, hasProcess, hpid]

theorem live_terminateProcess {pid : ProcessId} (hpid : pid ∈ d.live) (now : Tick) :
    (d.terminateProcess E pid now).1 = .ok () ∧
      (d.terminateProcess E pid now).2.live = d.live.erase pid := by
  have hmem : pid ∈ d.processes := d.mem_live.mp hpid
  have hanswer : (d.terminateProcess E pid now).1 = .ok () ∧
      (d.terminateProcess E pid now).2.processes = d.processes.erase pid := by
    simp only [terminateProcess, hasProcess, hmem, decide_true, not_true_eq_false, ↓reduceIte]
    unfold Scheduler.dequeue
    split_ifs <;> exact ⟨rfl, rfl⟩
  refine ⟨hanswer.1, ?_⟩
  ext q
  rw [mem_live, hanswer.2, AList.mem_erase, Finset.mem_erase, mem_live]

theorem keepsTable :
    (interface E : IDispatcher (Dispatcher P σ)).KeepsTable (fun _ => True) live where
  hasProcess d pid := decide_eq_decide.mpr d.mem_live.symm
  processCount d _ := by
    have hlength : d.processes.entries.length = d.processes.keys.length := (List.length_map _).symm
    exact hlength.trans (List.toFinset_card_of_nodup d.processes.keys_nodup).symm
  createProcess d process now _ := by
    refine ⟨trivial, ?_⟩
    cases process with
    | none => exact Or.inl ⟨_, rfl, rfl⟩
    | some p =>
      rcases d.live_createProcess p now with herror | ⟨hok, hnew, hins⟩
      · exact Or.inl herror
      · exact Or.inr ⟨p, rfl, hok, hnew, hins⟩
  dispatch d tickBudget _ := ⟨trivial, d.live_dispatch E tickBudget⟩
  terminate_dead d _ now hpid := d.terminateProcess_dead E hpid now
  terminate_live d _ now _ hpid := ⟨trivial, d.live_terminateProcess E hpid now⟩
  tick _ _ := ⟨trivial, rfl⟩

end Dispatcher

namespace LaneTally

/-- The code of an error that says more than that a lane had nothing to do. -/
def failure? : Result Unit → Option ErrorCode
  | .ok _ => none
  | .error code => if code = .notFound then none else some code

theorem foldl_add (t : LaneTally) (results : List (Result Unit)) :
    (results.foldl add t).anySuccess = (t.anySuccess || results.any (·.isOk)) ∧
      (results.foldl add t).firstError = t.firstError.or (results.findSome? failure?) := by
  induction results generalizing t with
  | nil => simp
  | cons first results ih =>
    obtain ⟨hsuccess, herror⟩ := ih (t.add first)
    rw [List.foldl_cons, hsuccess, herror, List.any_cons, List.findSome?_cons]
    cases first with
    | ok => simp [add, failure?]
    | error code =>
      by_cases hcode : code = .notFound
      · simp [add, failure?, hcode]
      · cases hfirst : t.firstError with
        | none => simp [add, failure?, hcode, hfirst]
        | some first => simp [add, hfirst]

theorem result_foldl_add (results : List (Result Unit)) : (results.foldl add {}).result =
    if results.any (·.isOk) then .ok () else .error
      ((results.findSome? failure?).getD .notFound) := by
  obtain ⟨hsuccess, herror⟩ := foldl_add {} results
  rw [Bool.false_or] at hsuccess
  rw [Option.none_or] at herror
  unfold result
  rw [hsuccess, herror]
  cases results.findSome? failure? <;> rfl

end LaneTally

structure MPDispatcher (δ : Type) where
  laneCount : ℕ
  lanes : LaneStates ℕ δ

namespace MPDispatcher
variable {δ : Type} (I : IDispatcher δ) (mp : MPDispatcher δ)

def lane (i : ℕ) : δ := mp.lanes.state i

def setLane (i : ℕ) (d : δ) : MPDispatcher δ :=
  { mp with lanes := ⟨update mp.lanes.state i d, mp.lanes.calls⟩ }

def laneDispatchers : LaneDispatchers ℕ δ where
  dispatch _ := I.dispatch
  tick _ := I.tick

def createProcess (process : Option NewProcess) (currentTick : Tick) :
    Result Unit × MPDispatcher δ :=
  match process with
  | none => (.error .invalidArgument, mp)
  | some p =>
    if mp.laneCount = 0 then (.error .invalidState, mp)
    else if p.pid = invalidPid then (.error .invalidPid, mp)
    else
      let target := p.pid % mp.laneCount
      let answer := I.createProcess (mp.lane target) (some p) currentTick
      (answer.1, mp.setLane target answer.2)

def dispatch (tickBudget : ℕ) : Result Unit × MPDispatcher δ :=
  let answer := SerialDispatchRuntime.dispatch (laneDispatchers I)
    (List.range mp.laneCount) tickBudget mp.lanes
  (answer.1, { mp with lanes := answer.2 })

def owner? (pid : ProcessId) : Option ℕ :=
  (List.range mp.laneCount).find? fun i => I.hasProcess (mp.lane i) pid

def terminateProcess (pid : ProcessId) (currentTick : Tick) : Result Unit × MPDispatcher δ :=
  match mp.owner? I pid with
  | none => (.error .notFound, mp)
  | some i =>
    let answer := I.terminateProcess (mp.lane i) pid currentTick
    (answer.1, mp.setLane i answer.2)

def tick : MPDispatcher δ :=
  { mp with
    lanes := SerialDispatchRuntime.tick (laneDispatchers I) (List.range mp.laneCount) mp.lanes }

def processCount : ℕ :=
  (List.range mp.laneCount).foldl (fun total i => total + I.processCount (mp.lane i)) 0

def hasProcess (pid : ProcessId) : Bool :=
  (List.range mp.laneCount).any fun i => I.hasProcess (mp.lane i) pid

def interface : IDispatcher (MPDispatcher δ) where
  createProcess := createProcess I
  dispatch := dispatch I
  terminateProcess := terminateProcess I
  tick := tick I
  processCount := processCount I
  hasProcess := hasProcess I

variable {I} {Inv : δ → Prop} {live : δ → Finset ProcessId}

def allLive (live : δ → Finset ProcessId) (mp : MPDispatcher δ) : Finset ProcessId :=
  (Finset.range mp.laneCount).biUnion fun i => live (mp.lane i)

structure Housed (Inv : δ → Prop) (live : δ → Finset ProcessId) (mp : MPDispatcher δ) : Prop where
  inv : ∀ i, i < mp.laneCount → Inv (mp.lane i)
  home : ∀ i, i < mp.laneCount → ∀ pid ∈ live (mp.lane i), pid % mp.laneCount = i

variable {mp}

@[simp] theorem laneCount_setLane (i : ℕ) (d : δ) : (mp.setLane i d).laneCount = mp.laneCount := rfl

@[simp] theorem lane_setLane_self (i : ℕ) (d : δ) : (mp.setLane i d).lane i = d :=
  Function.update_self _ _ _

theorem lane_setLane_of_ne {i j : ℕ} (d : δ) (h : j ≠ i) : (mp.setLane i d).lane j = mp.lane j :=
  Function.update_of_ne h _ _

theorem mem_allLive {pid : ProcessId} :
    pid ∈ mp.allLive live ↔ ∃ i, i < mp.laneCount ∧ pid ∈ live (mp.lane i) := by
  simp [allLive]

theorem Housed.mem_allLive (h : mp.Housed Inv live) (hcount : 0 < mp.laneCount) {pid : ProcessId} :
    pid ∈ mp.allLive live ↔ pid ∈ live (mp.lane (pid % mp.laneCount)) := by
  rw [MPDispatcher.mem_allLive]
  constructor
  · rintro ⟨i, hi, hmem⟩
    rwa [h.home i hi pid hmem]
  · intro hmem
    exact ⟨_, Nat.mod_lt _ hcount, hmem⟩

theorem Housed.setLane (h : mp.Housed Inv live) {i : ℕ} {d : δ} (hinv : Inv d)
    (hhome : ∀ pid ∈ live d, pid % mp.laneCount = i) : (mp.setLane i d).Housed Inv live := by
  constructor
  · intro j hj
    by_cases hji : j = i
    · subst hji
      rwa [lane_setLane_self]
    · rw [lane_setLane_of_ne d hji]
      exact h.inv j hj
  · intro j hj pid hmem
    by_cases hji : j = i
    · subst hji
      rw [lane_setLane_self] at hmem
      exact hhome pid hmem
    · rw [lane_setLane_of_ne d hji] at hmem
      exact h.home j hj pid hmem

theorem Housed.mem_allLive_setLane (h : mp.Housed Inv live) {i : ℕ} (hi : i < mp.laneCount) {d : δ}
    (hinv : Inv d) (hhome : ∀ pid ∈ live d, pid % mp.laneCount = i) {pid : ProcessId} :
    pid ∈ (mp.setLane i d).allLive live ↔
      if pid % mp.laneCount = i then pid ∈ live d else pid ∈ mp.allLive live := by
  have hcount : 0 < mp.laneCount := by omega
  rw [(h.setLane hinv hhome).mem_allLive hcount, h.mem_allLive hcount, laneCount_setLane]
  by_cases hpid : pid % mp.laneCount = i
  · rw [if_pos hpid, hpid, lane_setLane_self]
  · rw [if_neg hpid, lane_setLane_of_ne d hpid]

theorem owner?_eq (hI : I.KeepsTable Inv live) (h : mp.Housed Inv live) (pid : ProcessId) :
    mp.owner? I pid = if pid ∈ mp.allLive live then some (pid % mp.laneCount) else none := by
  unfold owner?
  by_cases hpid : pid ∈ mp.allLive live
  · rw [if_pos hpid]
    obtain ⟨i, hi, hmem⟩ := MPDispatcher.mem_allLive.mp hpid
    have hfound :
        (List.range mp.laneCount).find? (fun i => I.hasProcess (mp.lane i) pid) ≠ none := by
      intro hnone
      refine List.find?_eq_none.mp hnone i (List.mem_range.mpr hi) ?_
      rw [hI.hasProcess]
      exact decide_eq_true hmem
    obtain ⟨j, hj⟩ := Option.ne_none_iff_exists'.mp hfound
    have hlt : j < mp.laneCount := List.mem_range.mp (List.mem_of_find?_eq_some hj)
    have hhas := List.find?_some (p := fun i => I.hasProcess (mp.lane i) pid) hj
    rw [hI.hasProcess] at hhas
    rw [hj, h.home j hlt pid (of_decide_eq_true hhas)]
  · rw [if_neg hpid, List.find?_eq_none]
    intro i hi hhas
    rw [hI.hasProcess] at hhas
    exact hpid (MPDispatcher.mem_allLive.mpr ⟨i, List.mem_range.mp hi, of_decide_eq_true hhas⟩)

theorem dispatch_spec (mp : MPDispatcher δ) (I : IDispatcher δ) (tickBudget : ℕ) :
    (mp.dispatch I tickBudget).1 = (if mp.laneCount = 0 then .error .invalidState else
        (((List.range mp.laneCount).map fun i => (I.dispatch (mp.lane i) tickBudget).1).foldl
          LaneTally.add {}).result) ∧
      ∀ i, (mp.dispatch I tickBudget).2.lane i =
        if i < mp.laneCount then (I.dispatch (mp.lane i) tickBudget).2 else mp.lane i := by
  have hnodup : (List.range mp.laneCount).Nodup := List.nodup_range
  obtain ⟨htally, hstate⟩ :=
    SerialDispatchRuntime.dispatchLoop_spec (D := laneDispatchers I) tickBudget {}
    mp.lanes hnodup
  simp only [List.mem_range] at hstate
  unfold dispatch SerialDispatchRuntime.dispatch
  by_cases hcount : mp.laneCount = 0
  · rw [if_pos hcount]
    simp only [hcount, List.range_zero, List.isEmpty_nil, ↓reduceIte, Nat.not_lt_zero]
    exact ⟨trivial, fun _ => rfl⟩
  · rw [if_neg hcount]
    have hnonempty : (List.range mp.laneCount).isEmpty = false := by simpa using hcount
    simp only [hnonempty, Bool.false_eq_true, ↓reduceIte]
    exact ⟨congrArg LaneTally.result htally, hstate⟩

theorem lane_tick (mp : MPDispatcher δ) (I : IDispatcher δ) (i : ℕ) : (mp.tick I).lane i =
    if i < mp.laneCount then I.tick (mp.lane i) else mp.lane i := by
  have hnodup : (List.range mp.laneCount).Nodup := List.nodup_range
  have hspec := SerialDispatchRuntime.tick_spec (D := laneDispatchers I) mp.lanes hnodup i
  simp only [List.mem_range] at hspec
  exact hspec

theorem createProcess_some (hcount : 0 < mp.laneCount) {p : NewProcess} (hpid : p.pid ≠ invalidPid)
    (now : Tick) : mp.createProcess I (some p) now =
      let answer := I.createProcess (mp.lane (p.pid % mp.laneCount)) (some p) now
      (answer.1, mp.setLane (p.pid % mp.laneCount) answer.2) := by
  unfold createProcess
  dsimp only
  rw [if_neg (Nat.ne_of_gt hcount), if_neg hpid]

theorem Housed.createProcess (hI : I.KeepsTable Inv live) (h : mp.Housed Inv live)
    (process : Option NewProcess) (now : Tick) :
    (mp.createProcess I process now).2.Housed Inv live ∧
      ((∃ code, (mp.createProcess I process now).1 = .error code ∧
          (mp.createProcess I process now).2.allLive live = mp.allLive live) ∨
        ∃ p, process = some p ∧ (mp.createProcess I process now).1 = .ok () ∧
          p.pid ∉ mp.allLive live ∧
          (mp.createProcess I process now).2.allLive live = insert p.pid (mp.allLive live)) := by
  cases process with
  | none => exact ⟨h, Or.inl ⟨_, rfl, rfl⟩⟩
  | some p =>
    by_cases hcount : mp.laneCount = 0
    · have herror : mp.createProcess I (some p) now = (.error .invalidState, mp) := if_pos hcount
      rw [herror]
      exact ⟨h, Or.inl ⟨_, rfl, rfl⟩⟩
    by_cases hpid : p.pid = invalidPid
    · have herror : mp.createProcess I (some p) now = (.error .invalidPid, mp) :=
        (if_neg hcount).trans (if_pos hpid)
      rw [herror]
      exact ⟨h, Or.inl ⟨_, rfl, rfl⟩⟩
    have hpos : 0 < mp.laneCount := Nat.pos_of_ne_zero hcount
    have hlt : p.pid % mp.laneCount < mp.laneCount := Nat.mod_lt _ hpos
    rw [createProcess_some hpos hpid]
    dsimp only
    obtain ⟨hinv, hcases⟩ := hI.createProcess (mp.lane (p.pid % mp.laneCount)) (some p) now
      (h.inv _ hlt)
    have hhome : ∀ q ∈ live (I.createProcess (mp.lane (p.pid % mp.laneCount)) (some p) now).2,
        q % mp.laneCount = p.pid % mp.laneCount := by
      intro q hq
      rcases hcases with ⟨-, -, hsame⟩ | ⟨p', hp', -, -, hins⟩
      · rw [hsame] at hq
        exact h.home _ hlt q hq
      · obtain rfl : p = p' := Option.some.inj hp'
        rw [hins, Finset.mem_insert] at hq
        rcases hq with rfl | hq
        · rfl
        · exact h.home _ hlt q hq
    refine ⟨h.setLane hinv hhome, ?_⟩
    rcases hcases with ⟨code, hcode, hsame⟩ | ⟨p', hp', hok, hnew, hins⟩
    · refine Or.inl ⟨code, hcode, ?_⟩
      ext q
      rw [h.mem_allLive_setLane hlt hinv hhome, hsame, h.mem_allLive hpos]
      by_cases hq : q % mp.laneCount = p.pid % mp.laneCount
      · rw [if_pos hq, hq]
      · rw [if_neg hq]
    · obtain rfl : p = p' := Option.some.inj hp'
      refine Or.inr ⟨p, rfl, hok, ?_, ?_⟩
      · rwa [h.mem_allLive hpos]
      · ext q
        rw [h.mem_allLive_setLane hlt hinv hhome, hins, Finset.mem_insert, Finset.mem_insert,
          h.mem_allLive hpos]
        by_cases hq : q % mp.laneCount = p.pid % mp.laneCount
        · rw [if_pos hq, hq]
        · have hne : q ≠ p.pid := fun heq => hq (by rw [heq])
          rw [if_neg hq, or_iff_right hne]

theorem terminateProcess_dead (hI : I.KeepsTable Inv live) {pid : ProcessId}
    (hpid : pid ∉ mp.allLive live) (now : Tick) :
    mp.terminateProcess I pid now = (.error .notFound, mp) := by
  have howner : mp.owner? I pid = none := by
    refine List.find?_eq_none.mpr fun i hi hhas => hpid ?_
    rw [hI.hasProcess] at hhas
    exact MPDispatcher.mem_allLive.mpr ⟨i, List.mem_range.mp hi, of_decide_eq_true hhas⟩
  unfold terminateProcess
  rw [howner]

theorem terminateProcess_live (hI : I.KeepsTable Inv live) (h : mp.Housed Inv live)
    {pid : ProcessId} (hpid : pid ∈ mp.allLive live) (now : Tick) :
    mp.terminateProcess I pid now =
      let answer := I.terminateProcess (mp.lane (pid % mp.laneCount)) pid now
      (answer.1, mp.setLane (pid % mp.laneCount) answer.2) := by
  unfold terminateProcess
  rw [owner?_eq hI h, if_pos hpid]

theorem Housed.terminateProcess (hI : I.KeepsTable Inv live) (h : mp.Housed Inv live)
    {pid : ProcessId} (hpid : pid ∈ mp.allLive live) (now : Tick) :
    (mp.terminateProcess I pid now).2.Housed Inv live ∧
      (mp.terminateProcess I pid now).1 = .ok () ∧
      (mp.terminateProcess I pid now).2.allLive live = (mp.allLive live).erase pid := by
  obtain ⟨i, hi, -⟩ := MPDispatcher.mem_allLive.mp hpid
  have hpos : 0 < mp.laneCount := by omega
  have hlt : pid % mp.laneCount < mp.laneCount := Nat.mod_lt _ hpos
  rw [terminateProcess_live hI h hpid]
  dsimp only
  obtain ⟨hinv, hok, herase⟩ := hI.terminate_live (mp.lane (pid % mp.laneCount)) pid now
    (h.inv _ hlt) ((h.mem_allLive hpos).mp hpid)
  have hhome : ∀ q ∈ live (I.terminateProcess (mp.lane (pid % mp.laneCount)) pid now).2,
      q % mp.laneCount = pid % mp.laneCount := by
    intro q hq
    rw [herase] at hq
    exact h.home _ hlt q (Finset.mem_of_mem_erase hq)
  refine ⟨h.setLane hinv hhome, hok, ?_⟩
  ext q
  rw [h.mem_allLive_setLane hlt hinv hhome, herase, Finset.mem_erase, Finset.mem_erase,
    h.mem_allLive hpos]
  by_cases hq : q % mp.laneCount = pid % mp.laneCount
  · rw [if_pos hq, hq]
  · have hne : q ≠ pid := fun heq => hq (by rw [heq])
    rw [if_neg hq]
    exact (and_iff_right hne).symm

theorem Housed.broadcast (h : mp.Housed Inv live) (mp' : MPDispatcher δ) (move : δ → δ)
    (hcount : mp'.laneCount = mp.laneCount)
    (hlane : ∀ i, mp'.lane i = if i < mp.laneCount then move (mp.lane i) else mp.lane i)
    (hmove : ∀ d, Inv d → Inv (move d) ∧ live (move d) ⊆ live d) :
    mp'.Housed Inv live ∧ mp'.allLive live ⊆ mp.allLive live := by
  have hsub : ∀ i, i < mp.laneCount → live (mp'.lane i) ⊆ live (mp.lane i) := by
    intro i hi
    rw [hlane, if_pos hi]
    exact (hmove _ (h.inv i hi)).2
  refine ⟨⟨fun i hi => ?_, fun i hi pid hmem => ?_⟩, fun pid hmem => ?_⟩
  · rw [hcount] at hi
    rw [hlane, if_pos hi]
    exact (hmove _ (h.inv i hi)).1
  · rw [hcount] at hi ⊢
    exact h.home i hi pid (hsub i hi hmem)
  · obtain ⟨i, hi, hmem⟩ := MPDispatcher.mem_allLive.mp hmem
    rw [hcount] at hi
    exact MPDispatcher.mem_allLive.mpr ⟨i, hi, hsub i hi hmem⟩

theorem Housed.processCount (hI : I.KeepsTable Inv live) (h : mp.Housed Inv live) :
    mp.processCount I = (mp.allLive live).card := by
  have hdisjoint : (Finset.range mp.laneCount : Set ℕ).PairwiseDisjoint fun i =>
      live (mp.lane i) := by
    intro i hi j hj hij
    refine Finset.disjoint_left.mpr fun pid hmem hmem' => hij ?_
    rw [← h.home i (by simpa using hi) pid hmem, h.home j (by simpa using hj) pid hmem']
  unfold allLive
  rw [Finset.card_biUnion hdisjoint]
  have hcounts : (List.range mp.laneCount).map (fun i => I.processCount (mp.lane i)) =
      (List.range mp.laneCount).map fun i => (live (mp.lane i)).card :=
    List.map_congr_left fun i hi => hI.processCount _ (h.inv i (List.mem_range.mp hi))
  unfold MPDispatcher.processCount
  rw [← List.foldl_map, ← List.sum_eq_foldl, hcounts]
  rfl

theorem keepsTable (hI : I.KeepsTable Inv live) :
    (interface I).KeepsTable (Housed Inv live) (allLive live) where
  hasProcess mp pid := by
    refine Bool.eq_iff_iff.mpr ?_
    rw [decide_eq_true_iff, MPDispatcher.mem_allLive]
    change mp.hasProcess I pid = true ↔ _
    simp [hasProcess, hI.hasProcess]
  processCount _ h := h.processCount hI
  createProcess _ process now h := h.createProcess hI process now
  dispatch mp tickBudget h := by
    exact h.broadcast (mp.dispatch I tickBudget).2 (fun d => (I.dispatch d tickBudget).2) rfl
      (mp.dispatch_spec I tickBudget).2 fun d hd => hI.dispatch d tickBudget hd
  terminate_dead _ _ now hpid := terminateProcess_dead hI hpid now
  terminate_live _ _ now h hpid := h.terminateProcess hI hpid now
  tick mp h := by
    constructor
    · exact (h.broadcast (mp.tick I) I.tick rfl (mp.lane_tick I) fun d hd =>
        ⟨(hI.tick d hd).1, (hI.tick d hd).2.le⟩).1
    · refine Finset.biUnion_congr rfl fun i hi => ?_
      have hlt : i < mp.laneCount := Finset.mem_range.mp hi
      change live ((mp.tick I).lane i) = _
      rw [mp.lane_tick I, if_pos hlt]
      exact (hI.tick _ (h.inv i hlt)).2

def reaches (laneCount i : ℕ) : IDispatcher.Call → Bool
  | .createProcess none _ => false
  | .createProcess (some p) _ => p.pid ≠ invalidPid ∧ p.pid % laneCount = i
  | .terminateProcess pid _ => pid % laneCount = i
  | .dispatch _ | .tick => true

theorem laneCount_createProcess (process : Option NewProcess) (now : Tick) :
    (mp.createProcess I process now).2.laneCount = mp.laneCount := by
  cases process with
  | none => rfl
  | some p =>
    simp only [createProcess]
    split_ifs <;> rfl

theorem laneCount_terminateProcess (pid : ProcessId) (now : Tick) :
    (mp.terminateProcess I pid now).2.laneCount = mp.laneCount := by
  unfold terminateProcess
  split <;> rfl

theorem laneCount_next (call : IDispatcher.Call) :
    ((interface I).machine.next mp call).laneCount = mp.laneCount := by
  cases call with
  | createProcess process now => exact laneCount_createProcess process now
  | terminateProcess pid now => exact laneCount_terminateProcess pid now
  | dispatch | tick => rfl

theorem lane_createProcess (hcount : 0 < mp.laneCount) (process : Option NewProcess) (now : Tick)
    (i : ℕ) : (mp.createProcess I process now).2.lane i =
      if reaches mp.laneCount i (.createProcess process now) then
        (I.createProcess (mp.lane i) process now).2 else mp.lane i := by
  cases process with
  | none => rfl
  | some p =>
    by_cases hpid : p.pid = invalidPid
    · have herror : mp.createProcess I (some p) now = (.error .invalidPid, mp) :=
        (if_neg (Nat.ne_of_gt hcount)).trans (if_pos hpid)
      rw [herror]
      simp [reaches, hpid]
    · rw [createProcess_some hcount hpid]
      dsimp only
      by_cases hi : p.pid % mp.laneCount = i
      · subst hi
        simp [reaches, hpid]
      · rw [lane_setLane_of_ne _ (Ne.symm hi)]
        simp [reaches, hi]

theorem lane_terminateProcess (hI : I.KeepsTable Inv live) (h : mp.Housed Inv live)
    (hcount : 0 < mp.laneCount) (pid : ProcessId) (now : Tick) (i : ℕ) :
    (mp.terminateProcess I pid now).2.lane i =
      if pid % mp.laneCount = i then (I.terminateProcess (mp.lane i) pid now).2 else mp.lane i := by
  by_cases hpid : pid ∈ mp.allLive live
  · rw [terminateProcess_live hI h hpid]
    dsimp only
    by_cases hi : pid % mp.laneCount = i
    · subst hi
      rw [if_pos rfl, lane_setLane_self]
    · rw [if_neg hi, lane_setLane_of_ne _ (Ne.symm hi)]
  · rw [terminateProcess_dead hI hpid]
    by_cases hi : pid % mp.laneCount = i
    · subst hi
      rw [if_pos rfl, hI.terminate_dead _ _ _ (mt (h.mem_allLive hcount).mpr hpid)]
    · rw [if_neg hi]

theorem lane_next (hI : I.KeepsTable Inv live) (h : mp.Housed Inv live) {i : ℕ}
    (hi : i < mp.laneCount) (call : IDispatcher.Call) :
    ((interface I).machine.next mp call).lane i =
      if reaches mp.laneCount i call then I.machine.next (mp.lane i) call else mp.lane i := by
  have hcount : 0 < mp.laneCount := by omega
  cases call with
  | createProcess process now => exact lane_createProcess hcount process now i
  | terminateProcess pid now =>
    have hlane := lane_terminateProcess hI h hcount pid now i
    simp only [reaches, decide_eq_true_eq]
    exact hlane
  | dispatch tickBudget => exact ((mp.dispatch_spec I tickBudget).2 i).trans (if_pos hi)
  | tick => exact (mp.lane_tick I i).trans (if_pos hi)

theorem run_housed (hI : I.KeepsTable Inv live) (h : mp.Housed Inv live)
    (calls : List IDispatcher.Call) :
    ((interface I).machine.run mp calls).Housed Inv live ∧
      ((interface I).machine.run mp calls).laneCount = mp.laneCount := by
  refine (interface I).machine.run_invariant
    (P := fun mp' : MPDispatcher δ => mp'.Housed Inv live ∧ mp'.laneCount = mp.laneCount)
    (fun mp' call hmp' => ?_) ⟨h, rfl⟩ calls
  exact ⟨(keepsTable hI).next hmp'.1 call, (laneCount_next call).trans hmp'.2⟩

theorem lane_run (hI : I.KeepsTable Inv live) (h : mp.Housed Inv live) {i : ℕ}
    (hi : i < mp.laneCount) (calls : List IDispatcher.Call) :
    ((interface I).machine.run mp calls).lane i =
      I.machine.run (mp.lane i) (calls.filter (reaches mp.laneCount i)) := by
  refine (interface I).machine.run_filter I.machine (I := fun mp' : MPDispatcher δ =>
    mp'.Housed Inv live ∧ mp'.laneCount = mp.laneCount) (fun mp' => mp'.lane i)
    (reaches mp.laneCount i) (fun mp' call hmp' => ?_) (fun mp' call hmp' => ?_) ⟨h, rfl⟩ calls
  · exact ⟨(keepsTable hI).next hmp'.1 call, (laneCount_next call).trans hmp'.2⟩
  · rw [← hmp'.2]
    exact lane_next hI hmp'.1 (hmp'.2.symm ▸ hi) call

section Alone
variable {P : ReplacementPolicy} {σ : Type}

/-- The dispatchers of the lanes do not notice each other: a lane is as if it had been alone with
the calls that reach it, a process lives in the lane of its pid only, and the calls about a process
answer what that lane answers. A dispatch goes to all lanes, and one success is enough. -/
theorem lanes_run_alone (E : ExecutionEngine σ) {laneCount : ℕ} (hcount : 0 < laneCount)
    (first : ℕ → Dispatcher P σ)
    (hfirst : ∀ i < laneCount, ∀ pid, (first i).hasProcess pid = true → pid % laneCount = i)
    (calls : List IDispatcher.Call) :
    let I := Dispatcher.interface (P := P) E
    let mp := (interface I).machine.run ⟨laneCount, first, []⟩ calls
    let alone := fun i => I.machine.run (first i) (calls.filter (reaches laneCount i))
    (∀ i < laneCount, mp.lane i = alone i ∧
      ∀ pid, (alone i).hasProcess pid = true → pid % laneCount = i) ∧
    (∀ pid, mp.hasProcess I pid = (alone (pid % laneCount)).hasProcess pid) ∧
    (∃ live : Finset ProcessId, (∀ pid, pid ∈ live ↔ mp.hasProcess I pid = true) ∧
      mp.processCount I = live.card) ∧
    (∀ p now, p.pid ≠ invalidPid → (mp.createProcess I (some p) now).1 =
      ((alone (p.pid % laneCount)).createProcess p.pid p.image p.pcb now).1) ∧
    (∀ pid now, (mp.terminateProcess I pid now).1 =
      ((alone (pid % laneCount)).terminateProcess E pid now).1) ∧
    ∀ tickBudget, (mp.dispatch I tickBudget).1 =
      let results := (List.range laneCount).map fun i => ((alone i).dispatch E tickBudget).1
      if results.any (·.isOk) then .ok ()
      else .error ((results.findSome? LaneTally.failure?).getD .notFound) := by
  intro I mp alone
  have hI : I.KeepsTable (fun _ => True) Dispatcher.live := Dispatcher.keepsTable E
  have hstart : Housed (fun _ => True) Dispatcher.live (⟨laneCount, first, []⟩ : MPDispatcher _) :=
    ⟨fun _ _ => trivial, fun i hi pid hmem => hfirst i hi pid
      (decide_eq_true ((first i).mem_live.mp hmem))⟩
  obtain ⟨hhoused, hsize⟩ : mp.Housed (fun _ => True) Dispatcher.live ∧ mp.laneCount = laneCount :=
    run_housed hI hstart calls
  have hlane : ∀ i < laneCount, mp.lane i = alone i := fun i hi => lane_run hI hstart hi calls
  have hlt : ∀ pid, pid % laneCount < laneCount := fun pid => Nat.mod_lt _ hcount
  have hpos : 0 < mp.laneCount := hsize ▸ hcount
  have hlive : ∀ pid, pid ∈ mp.allLive Dispatcher.live ↔ pid ∈ (alone (pid % laneCount)).live := by
    intro pid
    rw [hhoused.mem_allLive hpos, hsize, hlane _ (hlt pid)]
  have hhas : ∀ pid, mp.hasProcess I pid = decide (pid ∈ mp.allLive Dispatcher.live) := fun pid =>
    (keepsTable hI).hasProcess mp pid
  refine ⟨fun i hi => ⟨hlane i hi, fun pid hpid => ?_⟩, fun pid => ?_,
    ⟨mp.allLive Dispatcher.live, fun pid => ?_, hhoused.processCount hI⟩, fun p now hp => ?_,
    fun pid now => ?_, fun tickBudget => ?_⟩
  · rw [← hlane i hi] at hpid
    have hmem : pid ∈ (mp.lane i).live := (mp.lane i).mem_live.mpr (of_decide_eq_true hpid)
    have hhome := hhoused.home i (hsize.symm ▸ hi) pid hmem
    rwa [hsize] at hhome
  · rw [hhas]
    exact decide_eq_decide.mpr ((hlive pid).trans (Dispatcher.mem_live _))
  · rw [hhas, decide_eq_true_iff]
  · rw [createProcess_some hpos hp, hsize, hlane _ (hlt p.pid)]
    rfl
  · by_cases hpid : pid ∈ mp.allLive Dispatcher.live
    · rw [terminateProcess_live hI hhoused hpid, hsize, hlane _ (hlt pid)]
      rfl
    · rw [terminateProcess_dead hI hpid,
        Dispatcher.terminateProcess_dead E _ (mt (hlive pid).mpr hpid)]
  · rw [(mp.dispatch_spec I tickBudget).1, hsize, if_neg (Nat.ne_of_gt hcount),
      LaneTally.result_foldl_add]
    have hresults : (List.range laneCount).map (fun i => (I.dispatch (mp.lane i) tickBudget).1) =
        (List.range laneCount).map fun i => ((alone i).dispatch E tickBudget).1 :=
      List.map_congr_left fun i hi => by rw [hlane i (List.mem_range.mp hi)]; rfl
    rw [hresults]

theorem lanes_run_alone_two :
    let first : ℕ → Dispatcher fifoReplacement Interpreter := fun _ =>
      (Kernel.create .fcfs ⟨0, ∅, none⟩
        (VirtualMemory.init (Mmu.init fifoReplacement (.ofSize 8) id) 4) 1).dispatcher
    let create : ProcessId → IDispatcher.Call := fun pid =>
      .createProcess (some ⟨pid, { code := [{ code := .nop }] }, Pcb.create {} 0⟩) 0
    let I : IDispatcher (Dispatcher fifoReplacement Interpreter) :=
      Dispatcher.interface Interpreter.executionEngine
    let mp := (interface I).machine.run ⟨2, first, []⟩
      [create 1, create 2, create 3, .terminateProcess 1 0]
    mp.lane 1 = I.machine.run (first 1) [create 1, create 3, .terminateProcess 1 0] ∧
      mp.processCount I = 2 := by
  intro first create I mp
  have hfirst : ∀ i < 2, ∀ pid, (first i).hasProcess pid = true → pid % 2 = i :=
    fun _ _ _ hpid => by cases hpid
  obtain ⟨hlane, -⟩ := lanes_run_alone Interpreter.executionEngine Nat.zero_lt_two first hfirst
    [create 1, create 2, create 3, .terminateProcess 1 0]
  exact ⟨(hlane 1 (by decide)).1, by decide +kernel⟩

end Alone
end MPDispatcher
end Contur
