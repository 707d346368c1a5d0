import Contur.Process
import Contur.Transition

/-!
# The first start and the finish of a process

A control block keeps the tick of its first transition to `Running` in a field that is
zero before, and takes zero there for "not started yet". A process that starts at tick
zero is therefore not known to have started, and its next start is recorded as the first
one. There is one transition to `Terminated` at the most, so the finish is never
overwritten. What is accepted depends on the states alone.
-/

namespace Contur.Pcb
open Transition (Machine)

variable {pcb : Pcb} {state target : ProcessState} {t : Tick}

def call (pcb : Pcb) (request : ProcessState × Tick) : Bool × Pcb :=
  match pcb.setState request.1 request.2 with
  | none => (false, pcb)
  | some pcb' => (true, pcb')

def machine : Machine Pcb (ProcessState × Tick) Bool where
  step := call

def accepted (target : ProcessState) : ProcessState → List (ProcessState × Tick) → List Tick
  | _, [] => []
  | state, (newState, t) :: calls =>
    if isValidTransition state newState then
      if newState = target then t :: accepted target newState calls
      else accepted target newState calls
    else accepted target state calls

theorem accepted_cons (h : isValidTransition state target = true)
    (stamped : ProcessState) (calls : List (ProcessState × Tick)) :
    accepted stamped state ((target, t) :: calls) =
      if target = stamped then t :: accepted stamped target calls
      else accepted stamped target calls :=
  if_pos h

theorem accepted_cons_refused (h : isValidTransition state target = false)
    (stamped : ProcessState) (calls : List (ProcessState × Tick)) :
    accepted stamped state ((target, t) :: calls) = accepted stamped state calls :=
  if_neg (by simp [h])

theorem call_of_refused (h : isValidTransition pcb.state target = false) :
    machine.step pcb (target, t) = (false, pcb) := by
  change pcb.call (target, t) = _
  rw [call, setState_eq_none.mpr h]

theorem stamps_account (state : ProcessState) (elapsed : Tick) (timing : ProcessTiming) :
    (account state elapsed timing).startTime = timing.startTime ∧
      (account state elapsed timing).finishTime = timing.finishTime := by
  cases state <;> exact ⟨rfl, rfl⟩

theorem next_of_accepted (h : isValidTransition pcb.state target = true) :
    machine.out pcb (target, t) = true ∧ (machine.next pcb (target, t)).state = target ∧
      (machine.next pcb (target, t)).timing.startTime =
        (if target = .running ∧ pcb.timing.startTime = 0 then t else pcb.timing.startTime) ∧
      (machine.next pcb (target, t)).timing.finishTime =
        (if target = .terminated then t else pcb.timing.finishTime) := by
  have hset : ∃ pcb', pcb.setState target t = some pcb' ∧ pcb'.state = target ∧
      pcb'.timing.startTime =
        (if target = .running ∧ pcb.timing.startTime = 0 then t else pcb.timing.startTime) ∧
      pcb'.timing.finishTime =
        (if target = .terminated then t else pcb.timing.finishTime) := by
    obtain ⟨hstart, hfinish⟩ := stamps_account pcb.state
      (tickSub t pcb.timing.lastStateChange) pcb.timing
    refine ⟨_, if_pos h, rfl, ?_, ?_⟩
    · rw [← hstart]
      dsimp only
      split_ifs <;> rfl
    · rw [← hfinish]
      dsimp only
      split_ifs <;> rfl
  obtain ⟨pcb', hpcb', hfields⟩ := hset
  have hcall : machine.step pcb (target, t) = (true, pcb') := by
    change pcb.call (target, t) = _
    rw [call, hpcb']
  rw [Machine.out, Machine.next, hcall]
  exact ⟨rfl, hfields⟩

theorem run_startTime (pcb : Pcb) (calls : List (ProcessState × Tick)) :
    (machine.run pcb calls).timing.startTime =
      if pcb.timing.startTime = 0 then
        ((accepted .running pcb.state calls).find? (· ≠ 0)).getD 0
      else pcb.timing.startTime := by
  induction calls generalizing pcb with
  | nil =>
    by_cases hzero : pcb.timing.startTime = 0
    · simp [accepted, hzero]
    · simp [hzero]
  | cons request calls ih =>
    obtain ⟨target, t⟩ := request
    rw [Machine.run_cons, ih]
    cases hvalid : isValidTransition pcb.state target with
    | false =>
      rw [Machine.next, call_of_refused hvalid, accepted_cons_refused hvalid]
    | true =>
      obtain ⟨-, hstate, hstart, -⟩ := next_of_accepted (t := t) hvalid
      rw [hstate, hstart, accepted_cons hvalid]
      by_cases hrunning : target = .running
      · by_cases hzero : pcb.timing.startTime = 0
        · by_cases ht : t = 0
          · simp [hrunning, hzero, ht]
          · simp [hrunning, hzero, ht]
        · simp [hrunning, hzero]
      · simp [hrunning]

theorem accepted_of_terminated (target : ProcessState) (calls : List (ProcessState × Tick)) :
    accepted target .terminated calls = [] := by
  induction calls with
  | nil => rfl
  | cons request calls ih => exact ih

theorem run_finishTime (pcb : Pcb) (calls : List (ProcessState × Tick)) :
    (machine.run pcb calls).timing.finishTime =
      (accepted .terminated pcb.state calls).headD pcb.timing.finishTime := by
  induction calls generalizing pcb with
  | nil => rfl
  | cons request calls ih =>
    obtain ⟨target, t⟩ := request
    rw [Machine.run_cons, ih]
    cases hvalid : isValidTransition pcb.state target with
    | false =>
      rw [Machine.next, call_of_refused hvalid, accepted_cons_refused hvalid]
    | true =>
      obtain ⟨-, hstate, -, hfinish⟩ := next_of_accepted (t := t) hvalid
      rw [hstate, hfinish, accepted_cons hvalid]
      by_cases hterminated : target = .terminated
      · simp [hterminated, accepted_of_terminated]
      · simp [hterminated]

structure Stamped (pcb : Pcb) (calls : List (ProcessState × Tick)) : Prop where
  start : ∀ t, (accepted .running .new calls).head? = some t → pcb.timing.startTime = t
  finish : ∀ t, (accepted .terminated .new calls).head? = some t → pcb.timing.finishTime = t
  refused : ∀ request, machine.out pcb request = false → machine.next pcb request = pcb

/-- The first start is not at tick zero, or no start is later. -/
def StartsTold (calls : List (ProcessState × Tick)) : Prop :=
  (accepted .running .new calls).head? = some 0 → ∀ t ∈ accepted .running .new calls, t = 0

theorem next_of_refused {request : ProcessState × Tick} (h : machine.out pcb request = false) :
    machine.next pcb request = pcb := by
  obtain ⟨target, t⟩ := request
  cases hvalid : isValidTransition pcb.state target with
  | false => rw [Machine.next, call_of_refused hvalid]
  | true =>
    obtain ⟨hout, -⟩ := next_of_accepted (t := t) hvalid
    rw [h] at hout
    cases hout

theorem find_ne_zero_eq_head {first : Tick} {ticks : List Tick} :
    ((first :: ticks).find? (· ≠ 0)).getD 0 = first ↔ (first = 0 → ∀ t ∈ ticks, t = 0) := by
  by_cases hfirst : first = 0
  · subst first
    rw [List.find?_cons_of_neg (by simp)]
    cases hfind : ticks.find? (· ≠ 0) with
    | none => simpa using hfind
    | some t =>
      have ht : t ≠ 0 := by simpa using List.find?_some hfind
      have hmem := List.mem_of_find?_eq_some hfind
      simp only [Option.getD_some, forall_const]
      exact iff_of_false ht fun hall => ht (hall t hmem)
  · simp [hfirst]

/-- A block that is fresh keeps the stamps of any sequence of calls, in which starts are accepted
and refused in any order, exactly when a start at tick zero is not followed by a later one. -/
theorem timestamps_recorded_iff (priority : Priority) (arrivalTime : Tick)
    (calls : List (ProcessState × Tick)) :
    Stamped (machine.run (create priority arrivalTime) calls) calls ↔ StartsTold calls := by
  have hstart := run_startTime (create priority arrivalTime) calls
  have hfinish := run_finishTime (create priority arrivalTime) calls
  rw [if_pos (show (create priority arrivalTime).timing.startTime = 0 from rfl)] at hstart
  change _ = ((accepted .running .new calls).find? _).getD 0 at hstart
  change _ = (accepted .terminated .new calls).headD 0 at hfinish
  unfold StartsTold
  cases hstarts : accepted .running .new calls with
  | nil =>
    refine iff_of_true ⟨?_, ?_, fun _ => next_of_refused⟩ (by simp)
    · simp [hstarts]
    · intro t ht
      rw [hfinish, List.headD_eq_head?_getD, ht, Option.getD_some]
  | cons first ticks =>
    rw [hstarts] at hstart
    have htold : ((machine.run (create priority arrivalTime) calls).timing.startTime = first) ↔
        (first = 0 → ∀ t ∈ ticks, t = 0) := by
      rw [hstart]
      exact find_ne_zero_eq_head
    constructor
    · intro h hzero
      obtain rfl : first = 0 := by simpa using hzero
      simpa using htold.mp (h.start 0 (by rw [hstarts]; rfl)) rfl
    · intro h
      refine ⟨?_, ?_, fun _ => next_of_refused⟩
      · intro t ht
        rw [hstarts] at ht
        obtain rfl : first = t := by simpa using ht
        apply htold.mpr
        intro hzero
        simpa [hzero] using h (by simp [hzero])
      · intro t ht
        rw [hfinish, List.headD_eq_head?_getD, ht, Option.getD_some]

def earlyStart : List (ProcessState × Tick) :=
  [(.ready, 0), (.running, 0), (.ready, 1), (.running, 2)]

theorem early_start_overwritten :
    (earlyStart.map Prod.snd).Pairwise (· ≤ ·) ∧
      (accepted .running .new earlyStart).head? = some 0 ∧
      (machine.run (create {} 0) earlyStart).timing.startTime = 2 ∧
      ¬ Stamped (machine.run (create {} 0) earlyStart) earlyStart := by
  have hfirst : (accepted .running .new earlyStart).head? = some 0 := by decide
  have hstart : (machine.run (create {} 0) earlyStart).timing.startTime = 2 := by decide
  refine ⟨by decide, hfirst, hstart, fun h => ?_⟩
  have hzero := h.start 0 hfirst
  rw [hstart] at hzero
  cases hzero

end Contur.Pcb
