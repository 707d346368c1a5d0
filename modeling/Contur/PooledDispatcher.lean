import Contur.MPDispatcher

/-!
# The dispatcher over lanes with the worker pool

With the pool as its runtime the dispatcher over lanes is still called by one thread,
but its lanes are dispatched by the workers. A process is created or terminated only
between two jobs, when all workers wait. Whatever the interleaving is, the calls have
the answers they have with the serial runtime, and leave the lanes in the same states.
-/

namespace Contur
open Function (update)
open Transition

structure PooledDispatcher (δ : Type) where
  laneCount : ℕ
  pool : DispatcherPool ℕ δ

namespace PooledDispatcher
variable {δ : Type}

def create (laneCount : ℕ) (first : ℕ → δ) : PooledDispatcher δ :=
  ⟨laneCount, DispatcherPool.create ⟨first, []⟩⟩

/-- What moves next: the thread that makes the calls, inside a call or with a new one, or a
worker. -/
inductive Move where
  | call (call : IDispatcher.Call)
  | caller
  | worker (w : ℕ)

section Steps
variable (config : HostThreadingConfig) (I : IDispatcher δ) (s : PooledDispatcher δ)

def lanes : MPDispatcher δ := ⟨s.laneCount, s.pool.dispatchers⟩

def poolStep (move : DispatcherPool.Move ℕ) : Option (Result Unit) × PooledDispatcher δ :=
  let answer := DispatcherPool.step (normalizePoolConfig config) (MPDispatcher.laneDispatchers I)
    s.pool move
  (answer.1, { s with pool := answer.2 })

/-- A call that does not go through the runtime; its thread can make it when it is in no other
call. -/
def directCall (call : MPDispatcher δ → Result Unit × MPDispatcher δ) :
    Option (Result Unit) × PooledDispatcher δ :=
  match s.pool.caller with
  | .ready =>
    let answer := call s.lanes
    (some answer.1, { s with pool := { s.pool with dispatchers := answer.2.lanes } })
  | _ => (none, s)

def step : Move → Option (Result Unit) × PooledDispatcher δ
  | .call (.createProcess process now) => s.directCall fun mp => mp.createProcess I process now
  | .call (.terminateProcess pid now) => s.directCall fun mp => mp.terminateProcess I pid now
  | .call (.dispatch tickBudget) =>
    s.poolStep config I (.dispatch (List.range s.laneCount) tickBudget)
  | .call .tick => s.poolStep config I (.tick (List.range s.laneCount))
  | .caller => s.poolStep config I .caller
  | .worker w => s.poolStep config I (.worker w)

def machine : Machine (PooledDispatcher δ) Move (Option (Result Unit)) := ⟨step config I⟩

def started? : Move → Option IDispatcher.Call
  | .call call =>
    match s.pool.caller with
    | .ready => some call
    | _ => none
  | .caller | .worker _ => none

def startedCalls : PooledDispatcher δ → List Move → List IDispatcher.Call
  | _, [] => []
  | s, move :: moves =>
    (s.started? move).toList ++ startedCalls ((machine config I).next s move) moves

end Steps
end PooledDispatcher

namespace MPDispatcher
variable {δ : Type} {I : IDispatcher δ} {mp mp' : MPDispatcher δ}

structure SameLanes (mp mp' : MPDispatcher δ) : Prop where
  laneCount : mp.laneCount = mp'.laneCount
  state : mp.lanes.state = mp'.lanes.state

theorem SameLanes.lane (h : mp.SameLanes mp') (i : ℕ) : mp.lane i = mp'.lane i := congrFun h.state i

theorem SameLanes.setLane (h : mp.SameLanes mp') (i : ℕ) (d : δ) :
    (mp.setLane i d).SameLanes (mp'.setLane i d) :=
  ⟨h.laneCount, congrArg (fun state : ℕ → δ => update state i d) h.state⟩

theorem SameLanes.createProcess (h : mp.SameLanes mp') (process : Option NewProcess) (now : Tick) :
    (mp.createProcess I process now).1 = (mp'.createProcess I process now).1 ∧
      (mp.createProcess I process now).2.SameLanes (mp'.createProcess I process now).2 := by
  cases process with
  | none => exact ⟨rfl, h⟩
  | some p =>
    unfold MPDispatcher.createProcess
    dsimp only
    rw [h.laneCount, h.lane]
    by_cases hcount : mp'.laneCount = 0
    · rw [if_pos hcount, if_pos hcount]
      exact ⟨rfl, h⟩
    · rw [if_neg hcount, if_neg hcount]
      by_cases hpid : p.pid = invalidPid
      · rw [if_pos hpid, if_pos hpid]
        exact ⟨rfl, h⟩
      · rw [if_neg hpid, if_neg hpid]
        exact ⟨rfl, h.setLane _ _⟩

theorem SameLanes.owner? (h : mp.SameLanes mp') (pid : ProcessId) :
    mp.owner? I pid = mp'.owner? I pid := by
  have hlane : mp.lane = mp'.lane := h.state
  unfold MPDispatcher.owner?
  rw [h.laneCount, hlane]

theorem SameLanes.terminateProcess (h : mp.SameLanes mp') (pid : ProcessId) (now : Tick) :
    (mp.terminateProcess I pid now).1 = (mp'.terminateProcess I pid now).1 ∧
      (mp.terminateProcess I pid now).2.SameLanes (mp'.terminateProcess I pid now).2 := by
  unfold MPDispatcher.terminateProcess
  rw [h.owner?]
  cases mp'.owner? I pid with
  | none => exact ⟨rfl, h⟩
  | some i =>
    dsimp only
    rw [h.lane]
    exact ⟨rfl, h.setLane _ _⟩

theorem SameLanes.dispatch (h : mp.SameLanes mp') (tickBudget : ℕ) :
    (mp.dispatch I tickBudget).1 = (mp'.dispatch I tickBudget).1 ∧
      (mp.dispatch I tickBudget).2.SameLanes (mp'.dispatch I tickBudget).2 := by
  obtain ⟨hanswer, hlane⟩ := mp.dispatch_spec I tickBudget
  obtain ⟨hanswer', hlane'⟩ := mp'.dispatch_spec I tickBudget
  have hsame : mp.lane = mp'.lane := h.state
  refine ⟨?_, h.laneCount, funext fun i => ?_⟩
  · rw [hanswer, hanswer', h.laneCount, hsame]
  · refine (hlane i).trans (Eq.trans ?_ (hlane' i).symm)
    rw [h.laneCount, hsame]

theorem SameLanes.tick (h : mp.SameLanes mp') : (mp.tick I).SameLanes (mp'.tick I) := by
  have hsame : mp.lane = mp'.lane := h.state
  refine ⟨h.laneCount, funext fun i => ?_⟩
  refine (mp.lane_tick I i).trans (Eq.trans ?_ (mp'.lane_tick I i).symm)
  rw [h.laneCount, hsame]

theorem SameLanes.exec (h : mp.SameLanes mp') (call : IDispatcher.Call) :
    (interface I).machine.out mp call = (interface I).machine.out mp' call ∧
      ((interface I).machine.next mp call).SameLanes ((interface I).machine.next mp' call) := by
  cases call with
  | createProcess process now =>
    obtain ⟨hanswer, hlanes⟩ := h.createProcess (I := I) process now
    exact ⟨congrArg some hanswer, hlanes⟩
  | terminateProcess pid now =>
    obtain ⟨hanswer, hlanes⟩ := h.terminateProcess (I := I) pid now
    exact ⟨congrArg some hanswer, hlanes⟩
  | dispatch tickBudget =>
    obtain ⟨hanswer, hlanes⟩ := h.dispatch (I := I) tickBudget
    exact ⟨congrArg some hanswer, hlanes⟩
  | tick => exact ⟨rfl, h.tick⟩

end MPDispatcher

namespace PooledDispatcher
variable {δ : Type} {config : HostThreadingConfig} {I : IDispatcher δ} {s : PooledDispatcher δ}
  {first : MPDispatcher δ} {calls : List IDispatcher.Call} {answers : List (Result Unit)}

structure Serial (I : IDispatcher δ) (first mp : MPDispatcher δ) (calls : List IDispatcher.Call)
    (answers : List (Result Unit)) : Prop where
  lanes : mp.SameLanes ((MPDispatcher.interface I).machine.run first calls)
  answers : answers = ((MPDispatcher.interface I).machine.outs first calls).reduceOption

theorem Serial.call {mp mp' : MPDispatcher δ} (h : Serial I first mp calls answers)
    {call : IDispatcher.Call} {answer : Option (Result Unit)}
    (hanswer : answer = (MPDispatcher.interface I).machine.out mp call)
    (hlanes : mp'.SameLanes ((MPDispatcher.interface I).machine.next mp call)) :
    Serial I first mp' (calls ++ [call]) (answers ++ answer.toList) := by
  obtain ⟨hout, hnext⟩ := h.lanes.exec (I := I) call
  constructor
  · rw [Machine.run_append, Machine.run_cons, Machine.run_nil]
    exact ⟨hlanes.laneCount.trans hnext.laneCount, hlanes.state.trans hnext.state⟩
  · have hlast : (MPDispatcher.interface I).machine.outs
        ((MPDispatcher.interface I).machine.run first calls) [call] = [answer] := by
      rw [hanswer, hout]
      rfl
    rw [Machine.outs_append, List.reduceOption_append, ← h.answers, hlast]
    cases answer <;> rfl

def Asks (job : Job ℕ) : IDispatcher.Call → Prop
  | .dispatch tickBudget => job.kind = .dispatch ∧ job.tickBudget = tickBudget
  | .tick => job.kind = .tick
  | _ => False

/-- Between two calls the serial runtime has done the same ones. Inside a call it has done those
before it. -/
inductive Follows (config : HostThreadingConfig) (I : IDispatcher δ) (first : MPDispatcher δ)
    (s : PooledDispatcher δ) (calls : List IDispatcher.Call) (answers : List (Result Unit)) :
      Prop where
  | between (hready : s.pool.caller = .ready) (hquiet : s.pool.Quiet config)
      (hserial : Serial I first s.lanes calls answers)
  | inside (before : List IDispatcher.Call) (call : IDispatcher.Call) (job : Job ℕ)
      (start : LaneStates ℕ δ) (hbusy : s.pool.caller ≠ .ready) (hcalls : calls = before ++ [call])
      (hasks : Asks job call) (hjob : job.lanes = List.range s.laneCount)
      (hduring : s.pool.During config (MPDispatcher.laneDispatchers I) job start)
      (hserial : Serial I first ⟨s.laneCount, start⟩ before answers)

theorem started?_ready (hready : s.pool.caller = .ready) (call : IDispatcher.Call) :
    s.started? (.call call) = some call := by
  simp only [started?, hready]

theorem started?_busy (hbusy : s.pool.caller ≠ .ready) (move : Move) : s.started? move = none := by
  cases move with
  | caller | worker => rfl
  | call call =>
    cases hcaller : s.pool.caller with
    | ready => exact absurd hcaller hbusy
    | starting | waiting | aggregating => simp only [started?, hcaller]

theorem step_call_busy (hbusy : s.pool.caller ≠ .ready) (call : IDispatcher.Call) :
    step config I s (.call call) = (none, s) := by
  cases hcaller : s.pool.caller with
  | ready => exact absurd hcaller hbusy
  | starting | waiting | aggregating =>
    cases call with
    | createProcess | terminateProcess => simp only [step, directCall, hcaller]
    | dispatch | tick => simp only [step, poolStep, DispatcherPool.step, hcaller]

theorem Follows.direct (hready : s.pool.caller = .ready) (hquiet : s.pool.Quiet config)
    (hserial : Serial I first s.lanes calls answers) {call : IDispatcher.Call}
    {f : MPDispatcher δ → Result Unit × MPDispatcher δ}
    (hexec : ∀ mp, (MPDispatcher.interface I).exec mp call = (some (f mp).1, (f mp).2))
    (hcount : (f s.lanes).2.laneCount = s.laneCount) :
    Follows config I first (s.directCall f).2 (calls ++ [call])
      (answers ++ (s.directCall f).1.toList) := by
  have hcall : s.directCall f = (some (f s.lanes).1,
      { s with pool := { s.pool with dispatchers := (f s.lanes).2.lanes } }) := by
    simp only [directCall, hready]
  rw [hcall]
  refine .between hready ⟨hquiet.waiting, hquiet.seen, hquiet.size⟩ (hserial.call ?_ ?_)
  · exact (congrArg Prod.fst (hexec s.lanes)).symm
  · have hnext : (MPDispatcher.interface I).machine.next s.lanes call = (f s.lanes).2 :=
      congrArg Prod.snd (hexec s.lanes)
    rw [hnext]
    exact ⟨hcount.symm, rfl⟩

theorem Follows.start (hquiet : s.pool.Quiet config)
    (hserial : Serial I first s.lanes calls answers) {call : IDispatcher.Call} {kind : JobKind}
    {tickBudget : ℕ} (hkind : kind ≠ .none) (hcount : s.laneCount ≠ 0)
    (hasks : ∀ hlanes, Asks ⟨kind, List.range s.laneCount, tickBudget, hkind, hlanes⟩ call) :
    Follows config I first
      ⟨s.laneCount, s.pool.startCall config kind (List.range s.laneCount) tickBudget⟩
      (calls ++ [call]) answers := by
  have hlanes : List.range s.laneCount ≠ [] := by simpa using hcount
  refine .inside calls call ⟨kind, List.range s.laneCount, tickBudget, hkind, hlanes⟩
    s.pool.dispatchers ?_ rfl (hasks hlanes) rfl (hquiet.startCall hkind hlanes) hserial
  unfold DispatcherPool.startCall
  simp

theorem Follows.next_call (hready : s.pool.caller = .ready)
    (hquiet : s.pool.Quiet (normalizePoolConfig config))
    (hserial : Serial I first s.lanes calls answers) (call : IDispatcher.Call) :
    Follows (normalizePoolConfig config) I first ((machine config I).next s (.call call))
      (calls ++ [call]) (answers ++ ((machine config I).out s (.call call)).toList) := by
  cases call with
  | createProcess process now =>
    exact .direct hready hquiet hserial (fun _ => rfl)
      (MPDispatcher.laneCount_createProcess process now)
  | terminateProcess pid now =>
    exact .direct hready hquiet hserial (fun _ => rfl)
      (MPDispatcher.laneCount_terminateProcess pid now)
  | dispatch tickBudget =>
    by_cases hcount : s.laneCount = 0
    · have hstep : step config I s (.call (.dispatch tickBudget)) =
        (some (.error .invalidState), s) := by
        have hempty : (List.range s.laneCount).isEmpty = true := by simp [hcount]
        simp only [step, poolStep, DispatcherPool.step, hready, hempty, ↓reduceIte]
      change Follows _ I first (step config I s (.call (.dispatch tickBudget))).2 _
        (answers ++ (step config I s (.call (.dispatch tickBudget))).1.toList)
      rw [hstep]
      obtain ⟨hanswer, hlane⟩ := s.lanes.dispatch_spec I tickBudget
      refine .between hready hquiet (hserial.call ?_ ⟨rfl, funext fun i => ?_⟩)
      · exact (congrArg some (hanswer.trans (if_pos hcount))).symm
      · have hnone : ¬ i < s.lanes.laneCount := by
          change ¬ i < s.laneCount
          omega
        exact ((hlane i).trans (if_neg hnone)).symm
    · have hnonempty : (List.range s.laneCount).isEmpty = false := by simpa using hcount
      have hstep : step config I s (.call (.dispatch tickBudget)) =
          (none, ⟨s.laneCount, s.pool.startCall (normalizePoolConfig config) .dispatch
            (List.range s.laneCount) tickBudget⟩) := by
        simp only [step, poolStep, DispatcherPool.step, hready, hnonempty, Bool.false_eq_true,
          ↓reduceIte]
      change Follows _ I first (step config I s (.call (.dispatch tickBudget))).2 _
        (answers ++ (step config I s (.call (.dispatch tickBudget))).1.toList)
      rw [hstep, Option.toList_none, List.append_nil]
      exact .start hquiet hserial (by decide) hcount fun _ => ⟨rfl, rfl⟩
  | tick =>
    by_cases hcount : s.laneCount = 0
    · have hstep : step config I s (.call .tick) = (none, s) := by
        have hempty : (List.range s.laneCount).isEmpty = true := by simp [hcount]
        simp only [step, poolStep, DispatcherPool.step, hready, hempty, ↓reduceIte]
      change Follows _ I first (step config I s (.call .tick)).2 _
        (answers ++ (step config I s (.call .tick)).1.toList)
      rw [hstep]
      refine .between hready hquiet (hserial.call rfl ⟨rfl, funext fun i => ?_⟩)
      have hnone : ¬ i < s.lanes.laneCount := by
        change ¬ i < s.laneCount
        omega
      exact ((s.lanes.lane_tick I i).trans (if_neg hnone)).symm
    · have hnonempty : (List.range s.laneCount).isEmpty = false := by simpa using hcount
      have hstep : step config I s (.call .tick) =
          (none, ⟨s.laneCount, s.pool.startCall (normalizePoolConfig config) .tick
            (List.range s.laneCount) 0⟩) := by
        simp only [step, poolStep, DispatcherPool.step, hready, hnonempty, Bool.false_eq_true,
          ↓reduceIte]
      change Follows _ I first (step config I s (.call .tick)).2 _
        (answers ++ (step config I s (.call .tick)).1.toList)
      rw [hstep, Option.toList_none, List.append_nil]
      exact .start hquiet hserial (by decide) hcount fun _ => rfl

theorem Serial.tick {job : Job ℕ} {start : LaneStates ℕ δ} {p : DispatcherPool ℕ δ} {laneCount : ℕ}
    (h : Serial I first ⟨laneCount, start⟩ calls answers) (hkind : job.kind = .tick)
    (hjob : job.lanes = List.range laneCount)
    (hdone : p.Done config (MPDispatcher.laneDispatchers I) job start) :
    Serial I first ⟨laneCount, p.dispatchers⟩ (calls ++ [.tick]) answers := by
  have hstate : ∀ i, p.dispatchers.state i =
      (MPDispatcher.tick I ⟨laneCount, start⟩).lanes.state i := by
    intro i
    have hlane := hdone.state (hjob ▸ List.nodup_range) i
    rw [hjob] at hlane
    simp only [List.mem_range, Job.after, hkind] at hlane
    exact hlane.trans (MPDispatcher.lane_tick ⟨laneCount, start⟩ I i).symm
  have hcall : Serial I first ⟨laneCount, p.dispatchers⟩ (calls ++ [.tick])
      (answers ++ (none : Option (Result Unit)).toList) := h.call rfl ⟨rfl, funext hstate⟩
  rwa [Option.toList_none, List.append_nil] at hcall

theorem Serial.dispatch {job : Job ℕ} {start : LaneStates ℕ δ} {p : DispatcherPool ℕ δ}
    {laneCount : ℕ} (h : Serial I first ⟨laneCount, start⟩ calls answers)
    (hkind : job.kind = .dispatch) (hjob : job.lanes = List.range laneCount)
    (hdone : p.Done config (MPDispatcher.laneDispatchers I) job start) :
    Serial I first ⟨laneCount, p.dispatchers⟩ (calls ++ [.dispatch job.tickBudget])
      (answers ++ [p.aggregateDispatchErrors]) := by
  obtain ⟨hresult, hstate⟩ := hdone.serial (hjob ▸ List.nodup_range) hkind
  rw [hjob] at hresult hstate
  have hanswer : some p.aggregateDispatchErrors =
      (MPDispatcher.interface I).machine.out ⟨laneCount, start⟩ (.dispatch job.tickBudget) :=
    congrArg some hresult
  exact h.call hanswer ⟨rfl, hstate⟩

theorem Follows.next_caller (h : Follows (normalizePoolConfig config) I first s calls answers) :
    Follows (normalizePoolConfig config) I first ((machine config I).next s .caller) calls
      (answers ++ ((machine config I).out s .caller).toList) := by
  have hcount := DispatcherPool.hostThreadCount_normalizePoolConfig config
  change Follows _ I first ⟨s.laneCount, (s.pool.callerStep (normalizePoolConfig config)).2⟩ calls
    (answers ++ (s.pool.callerStep (normalizePoolConfig config)).1.toList)
  cases h with
  | between hready hquiet hserial =>
    have hstep : s.pool.callerStep (normalizePoolConfig config) = (none, s.pool) := by
      simp only [DispatcherPool.callerStep, hready]
    rw [hstep, Option.toList_none, List.append_nil]
    exact .between hready hquiet hserial
  | inside before call job start hbusy hcalls hasks hjob hduring hserial =>
    have hduring' := DispatcherPool.callerStep_during hduring hcount
    have hnow := hduring
    unfold DispatcherPool.During at hnow
    cases hcaller : s.pool.caller with
    | ready => exact absurd hcaller hbusy
    | starting kind lanes tickBudget =>
      have hout : (s.pool.callerStep (normalizePoolConfig config)).1 = none := by
        simp only [DispatcherPool.callerStep, hcaller]
      have hbusy' : (s.pool.callerStep (normalizePoolConfig config)).2.caller ≠ .ready := by
        simp only [DispatcherPool.callerStep, hcaller]
        simp
      rw [hout, Option.toList_none, List.append_nil]
      exact .inside before call job start hbusy' hcalls hasks hjob hduring' hserial
    | waiting kind =>
      rw [hcaller] at hnow
      obtain ⟨hkind, board, log, hworking⟩ := hnow
      have hout : (s.pool.callerStep (normalizePoolConfig config)).1 = none := by
        simp only [DispatcherPool.callerStep, hcaller]
        split_ifs <;> rfl
      rw [hout, Option.toList_none, List.append_nil]
      by_cases hdone : s.pool.completedWorkers = s.pool.workersSize
      · have hfinish := hworking.finishJob hcount hdone
        by_cases hdispatch : kind = .dispatch
        · have hbusy' : (s.pool.callerStep (normalizePoolConfig config)).2.caller ≠ .ready := by
            simp only [DispatcherPool.callerStep, hcaller, if_pos hdone, if_pos hdispatch]
            simp
          exact .inside before call job start hbusy' hcalls hasks hjob hduring' hserial
        · -- the caller of a tick has nothing to aggregate
          have hstep : (s.pool.callerStep (normalizePoolConfig config)).2 =
              { s.pool.finishJob (normalizePoolConfig config) with caller := .ready } := by
            simp only [DispatcherPool.callerStep, hcaller, if_pos hdone, if_neg hdispatch]
          obtain rfl : call = .tick := by
            cases call with
            | tick => rfl
            | dispatch => exact absurd (hkind.trans hasks.1) hdispatch
            | createProcess | terminateProcess => exact hasks.elim
          have hserial' := hserial.tick hasks hjob hfinish
          rw [hstep, hcalls]
          exact .between rfl (hworking.quiet hdone .ready) hserial'
      · have hstep : (s.pool.callerStep (normalizePoolConfig config)).2 = s.pool := by
          simp only [DispatcherPool.callerStep, hcaller, if_neg hdone]
        rw [hstep]
        exact .inside before call job start hbusy hcalls hasks hjob hduring hserial
    | aggregating =>
      rw [hcaller] at hnow
      obtain ⟨hkind, hquiet, hdone⟩ := hnow
      have hstep : s.pool.callerStep (normalizePoolConfig config) =
          (some s.pool.aggregateDispatchErrors, { s.pool with caller := .ready }) := by
        simp only [DispatcherPool.callerStep, hcaller]
      obtain rfl : call = .dispatch job.tickBudget := by
        cases call with
        | dispatch tickBudget => rw [hasks.2]
        | tick => cases hkind.symm.trans hasks
        | createProcess | terminateProcess => exact hasks.elim
      have hserial' := hserial.dispatch hkind hjob hdone
      rw [hstep, hcalls]
      exact .between rfl ⟨hquiet.waiting, hquiet.seen, hquiet.size⟩ hserial'

theorem Follows.next_worker (h : Follows (normalizePoolConfig config) I first s calls answers)
    (w : ℕ) : Follows (normalizePoolConfig config) I first
      ((machine config I).next s (.worker w)) calls
      (answers ++ ((machine config I).out s (.worker w)).toList) := by
  by_cases hw : w < s.pool.workersSize
  · have hstep : step config I s (.worker w) =
        (none, ⟨s.laneCount, s.pool.workerStep (normalizePoolConfig config)
          (MPDispatcher.laneDispatchers I) w⟩) := by
      simp only [step, poolStep, DispatcherPool.step, if_pos hw]
    change Follows _ I first (step config I s (.worker w)).2 calls
      (answers ++ (step config I s (.worker w)).1.toList)
    rw [hstep, Option.toList_none, List.append_nil]
    cases h with
    | between hready hquiet hserial =>
      dsimp only
      rw [hquiet.workerStep hw]
      exact .between hready hquiet hserial
    | inside before call job start hbusy hcalls hasks hjob hduring hserial =>
      have hbusy' : (s.pool.workerStep (normalizePoolConfig config) (MPDispatcher.laneDispatchers I)
          w).caller ≠ .ready := by
        rw [DispatcherPool.caller_workerStep]
        exact hbusy
      exact .inside before call job start hbusy' hcalls hasks hjob
        (DispatcherPool.workerStep_during hduring hw) hserial
  · have hstep : step config I s (.worker w) = (none, s) := by
      simp only [step, poolStep, DispatcherPool.step, if_neg hw]
    change Follows _ I first (step config I s (.worker w)).2 calls
      (answers ++ (step config I s (.worker w)).1.toList)
    rw [hstep, Option.toList_none, List.append_nil]
    exact h

theorem Follows.next (h : Follows (normalizePoolConfig config) I first s calls answers)
    (move : Move) :
    Follows (normalizePoolConfig config) I first ((machine config I).next s move)
      (calls ++ (s.started? move).toList) (answers ++ ((machine config I).out s move).toList) := by
  cases move with
  | caller => exact (List.append_nil calls).symm ▸ h.next_caller
  | worker w => exact (List.append_nil calls).symm ▸ h.next_worker w
  | call call =>
    cases h with
    | between hready hquiet hserial =>
      rw [started?_ready hready]
      exact .next_call hready hquiet hserial call
    | inside before call' job start hbusy hcalls hasks hjob hduring hserial =>
      rw [started?_busy hbusy]
      change Follows _ I first (step config I s (.call call)).2 _
        (answers ++ (step config I s (.call call)).1.toList)
      rw [step_call_busy hbusy, Option.toList_none, Option.toList_none, List.append_nil,
        List.append_nil]
      exact .inside before call' job start hbusy hcalls hasks hjob hduring hserial

theorem Follows.run (h : Follows (normalizePoolConfig config) I first s calls answers)
    (moves : List Move) : Follows (normalizePoolConfig config) I first
      ((machine config I).run s moves)
      (calls ++ s.startedCalls config I moves)
      (answers ++ ((machine config I).outs s moves).reduceOption) := by
  induction moves generalizing s calls answers with
  | nil => simpa [startedCalls, Machine.outs] using h
  | cons move moves ih =>
    have hrest := ih (h.next move)
    rw [List.append_assoc, List.append_assoc] at hrest
    have houts : ((machine config I).outs s (move :: moves)).reduceOption =
        ((machine config I).out s move).toList ++
          ((machine config I).outs ((machine config I).next s move) moves).reduceOption := by
      rw [Machine.outs]
      cases (machine config I).out s move <;> rfl
    rw [houts]
    exact hrest

/-- The pool under the dispatcher over lanes, for every interleaving of the workers with the thread
that makes the calls: whenever it is in no call, the lanes are in the states in which the serial
runtime leaves them after the calls made so far, and these had the same answers in the same order.
-/
theorem pooled_refines_serial (config : HostThreadingConfig) (I : IDispatcher δ) (laneCount : ℕ)
    (first : ℕ → δ) (moves : List Move) :
    let s := create laneCount first
    let s' := (machine config I).run s moves
    let serial := (MPDispatcher.interface I).machine
    let calls := s.startedCalls config I moves
    s'.pool.caller = .ready →
    (∀ i, s'.lanes.lane i = (serial.run ⟨laneCount, first, []⟩ calls).lane i) ∧
      ((machine config I).outs s moves).reduceOption =
        (serial.outs ⟨laneCount, first, []⟩ calls).reduceOption := by
  intro s s' serial calls hready
  have hstart : Follows (normalizePoolConfig config) I ⟨laneCount, first, []⟩ s [] [] :=
    .between rfl ⟨fun _ => rfl, fun _ _ => rfl, Or.inl rfl⟩ ⟨⟨rfl, rfl⟩, rfl⟩
  have hfollows : Follows (normalizePoolConfig config) I ⟨laneCount, first, []⟩ s' calls
      ((machine config I).outs s moves).reduceOption := hstart.run moves
  cases hfollows with
  | between _ _ hserial => exact ⟨hserial.lanes.lane, hserial.answers⟩
  | inside _ _ _ _ hbusy => exact absurd hready hbusy

theorem pooled_refines_serial_two :
    let first : ℕ → Dispatcher fifoReplacement Interpreter := fun _ =>
      (Kernel.create .fcfs ⟨0, ∅, none⟩
        (VirtualMemory.init (Mmu.init fifoReplacement (.ofSize 8) id) 4) 1).dispatcher
    let new : ProcessId → Move := fun pid =>
      .call (.createProcess (some ⟨pid, { code := [{ code := .nop }] }, Pcb.create {} 0⟩) 0)
    let I : IDispatcher (Dispatcher fifoReplacement Interpreter) :=
      Dispatcher.interface Interpreter.executionEngine
    let config : HostThreadingConfig := { hostThreadCount := 2 }
    let moves : List Move :=
      [new 1, new 1, new 2, .call (.dispatch 1), .caller, .worker 1, .worker 1,
      .worker 0, .worker 1, .worker 0, .worker 1, .worker 0, .worker 0, .worker 1, .worker 1,
      .worker 0, .worker 0, .caller, .caller]
    ((machine config I).outs (create 2 first) moves).reduceOption =
        [.ok (), .error .alreadyExists, .ok (), .ok ()] ∧
      ((machine config I).run (create 2 first) moves).lanes.processCount I = 2 := by
  intro first new I config moves
  have hready : ((machine config I).run (create 2 first) moves).pool.caller = .ready := by
    decide +kernel
  obtain ⟨-, hanswers⟩ := pooled_refines_serial config I 2 first moves hready
  exact ⟨hanswers.trans (by decide +kernel), by decide +kernel⟩

end PooledDispatcher
end Contur
