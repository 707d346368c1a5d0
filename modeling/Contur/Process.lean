import Mathlib.Algebra.Group.Int.Defs
import Mathlib.Algebra.Group.Nat.Defs
import Mathlib.Data.Int.Notation
import Mathlib.Tactic.SplitIfs
import Contur.Types

/-!
# Process control blocks

The part of a process control block that scheduling reads and writes: the state,
the priority and the timing record. Blocks are kept in tables keyed by the pid, so
the record does not repeat it. A state change that the transition table does not
allow is refused and changes nothing. Ticks are 64-bit counters, so sums and
differences of ticks wrap around.
-/

namespace Contur

def tickAdd (a b : Tick) : Tick := (a + b) % 2 ^ 64
def tickSub (a b : Tick) : Tick := (2 ^ 64 + a - b) % 2 ^ 64

theorem tickSub_eq {s t : Tick} (hle : s ≤ t) (hbound : t < 2 ^ 64) : tickSub t s = t - s := by
  have hsub : (2 ^ 64 + t - s) % 2 ^ 64 = t - s := by
    rw [Nat.add_sub_assoc hle, Nat.add_mod_left]
    exact Nat.mod_eq_of_lt (Nat.lt_of_le_of_lt (Nat.sub_le t s) hbound)
  exact hsub

inductive ProcessState where
  | new | ready | running | blocked | suspended | terminated
  deriving DecidableEq, Repr

def isValidTransition : ProcessState → ProcessState → Bool
  | .new, target => target = .ready
  | .ready, target => target = .running || target = .suspended
  | .running, target => target = .ready || target = .blocked || target = .terminated
  | .blocked, target => target = .ready || target = .suspended
  | .suspended, target => target = .ready
  | .terminated, _ => false

@[simp] theorem isValidTransition_running (state : ProcessState) :
    isValidTransition state .running = decide (state = .ready) := by
  cases state <;> rfl

@[simp] theorem isValidTransition_blocked (state : ProcessState) :
    isValidTransition state .blocked = decide (state = .running) := by
  cases state <;> rfl

@[simp] theorem isValidTransition_terminated (state : ProcessState) :
    isValidTransition state .terminated = decide (state = .running) := by
  cases state <;> rfl

/-- The level is the value of the enumeration, `0` for the most urgent one. -/
structure Priority where
  effective : ℤ := 3
  nice : ℤ := 0
  deriving DecidableEq, Repr

structure ProcessTiming where
  arrivalTime : Tick := 0
  startTime : Tick := 0
  finishTime : Tick := 0
  totalCpuTime : Tick := 0
  totalWaitTime : Tick := 0
  totalBlockedTime : Tick := 0
  lastStateChange : Tick := 0
  estimatedBurst : Tick := 0
  remainingBurst : Tick := 0
  deriving DecidableEq, Repr

structure Pcb where
  state : ProcessState := .new
  priority : Priority := {}
  timing : ProcessTiming := {}
  deriving DecidableEq, Repr

namespace Pcb

def create (priority : Priority) (arrivalTime : Tick) : Pcb where
  priority := priority
  timing := { arrivalTime := arrivalTime, lastStateChange := arrivalTime }

/-- The time since the last change goes to the account of the state that is left. -/
def account (state : ProcessState) (elapsed : Tick) (timing : ProcessTiming) : ProcessTiming :=
  match state with
  | .running => { timing with totalCpuTime := tickAdd timing.totalCpuTime elapsed }
  | .ready => { timing with totalWaitTime := tickAdd timing.totalWaitTime elapsed }
  | .blocked => { timing with totalBlockedTime := tickAdd timing.totalBlockedTime elapsed }
  | _ => timing

def setState (pcb : Pcb) (newState : ProcessState) (currentTick : Tick) : Option Pcb :=
  if isValidTransition pcb.state newState then
    let elapsed := tickSub currentTick pcb.timing.lastStateChange
    let timing := account pcb.state elapsed pcb.timing
    let timing := if newState = .running ∧ timing.startTime = 0 then
      { timing with startTime := currentTick } else timing
    let timing := if newState = .terminated then
      { timing with finishTime := currentTick } else timing
    some { pcb with state := newState, timing := { timing with lastStateChange := currentTick } }
  else none

theorem setState_of_valid {pcb : Pcb} {state newState : ProcessState} (h : pcb.state = state)
    (hvalid : isValidTransition state newState = true) (now : Tick) :
    ∃ pcb', pcb.setState newState now = some pcb' ∧ pcb'.state = newState := by
  subst h
  exact ⟨_, if_pos hvalid, rfl⟩

theorem setState_of_invalid {pcb : Pcb} {state newState : ProcessState} (h : pcb.state = state)
    (hvalid : isValidTransition state newState = false) (now : Tick) :
    pcb.setState newState now = none := by
  subst h
  simp [setState, hvalid]

theorem setState_eq_none {pcb : Pcb} {newState : ProcessState} {now : Tick} :
    pcb.setState newState now = none ↔ isValidTransition pcb.state newState = false := by
  simp [setState]

theorem setState_from (pcb : Pcb) {origin newState : ProcessState}
    (horigin : ∀ state, isValidTransition state newState = decide (state = origin)) (now : Tick) :
    (pcb.state = origin ∧ ∃ pcb', pcb.setState newState now = some pcb') ∨
      (pcb.state ≠ origin ∧ pcb.setState newState now = none) := by
  by_cases hstate : pcb.state = origin
  · have hvalid : isValidTransition pcb.state newState = true := by simp [horigin, hstate]
    obtain ⟨pcb', hpcb, -⟩ := setState_of_valid rfl hvalid now
    exact Or.inl ⟨hstate, pcb', hpcb⟩
  · have hinvalid : isValidTransition pcb.state newState = false := by simp [horigin, hstate]
    exact Or.inr ⟨hstate, setState_eq_none.mpr hinvalid⟩

theorem setState_eq_some {pcb pcb' : Pcb} {newState : ProcessState} {now : Tick}
    (h : pcb.setState newState now = some pcb') :
    let timing := account pcb.state (tickSub now pcb.timing.lastStateChange) pcb.timing
    isValidTransition pcb.state newState = true ∧ pcb'.state = newState ∧
      pcb'.timing.totalCpuTime = timing.totalCpuTime ∧
      pcb'.timing.totalWaitTime = timing.totalWaitTime ∧
      pcb'.timing.totalBlockedTime = timing.totalBlockedTime ∧
      pcb'.timing.lastStateChange = now := by
  unfold setState at h
  by_cases hvalid : isValidTransition pcb.state newState = true
  · rw [if_pos hvalid] at h
    obtain rfl := Option.some.inj h
    refine ⟨hvalid, rfl, ?_, ?_, ?_, rfl⟩ <;> dsimp only <;> split_ifs <;> rfl
  · rw [if_neg hvalid] at h
    cases h

theorem setState_keys {pcb pcb' : Pcb} {newState : ProcessState} {now : Tick}
    (h : pcb.setState newState now = some pcb') :
    pcb'.priority = pcb.priority ∧ pcb'.timing.remainingBurst = pcb.timing.remainingBurst ∧
      pcb'.timing.estimatedBurst = pcb.timing.estimatedBurst := by
  have haccount : ∀ elapsed,
      (account pcb.state elapsed pcb.timing).remainingBurst = pcb.timing.remainingBurst ∧
      (account pcb.state elapsed pcb.timing).estimatedBurst = pcb.timing.estimatedBurst := by
    intro elapsed
    cases pcb.state <;> exact ⟨rfl, rfl⟩
  unfold setState at h
  by_cases hvalid : isValidTransition pcb.state newState = true
  · rw [if_pos hvalid] at h
    obtain rfl := Option.some.inj h
    refine ⟨rfl, ?_, ?_⟩ <;> dsimp only <;> split_ifs
    all_goals first
      | exact (haccount _).1
      | exact (haccount _).2
  · rw [if_neg hvalid] at h
    cases h

end Pcb
end Contur
