import Mathlib.Data.UInt
import Contur.DepthForest
import Contur.Transition
import Contur.Types

/-!
# The tracer

Threads write their events into one buffer, each event with the depth of the scopes its
thread is in. The buffer does not note the threads; the model does. A clock is read
before the buffer is locked, so every event comes with the time that was read. Whatever
the threads do in between, the events of one of them tell how its scopes were nested.
-/

namespace Contur.Tracing
open Function (update)
open Transition
open DepthForest

inductive TraceLevel where
  | debug
  | info
  | warn
  | error
  deriving DecidableEq, Repr

def TraceLevel.value : TraceLevel → ℕ
  | .debug => 0
  | .info => 1
  | .warn => 2
  | .error => 3

structure TraceEvent where
  timestamp : Tick := 0
  subsystem : String
  operation : String
  details : String
  level : TraceLevel := .info
  depth : UInt32 := 0
  workerId : ℕ := 0
  sequence : UInt64 := 0
  epoch : UInt64 := 0
  deriving DecidableEq

def makeTraceEvent (timestamp : Tick) (subsystem operation details : String) (depth : UInt32)
    (level : TraceLevel := .info) : TraceEvent :=
  { timestamp, subsystem, operation, details, level, depth }

abbrev ThreadId := ℕ

structure Tracer where
  minLevel : TraceLevel := .debug
  depth : ThreadId → UInt32 := fun _ => 0
  events : List (ThreadId × TraceEvent) := []

namespace Tracer
variable (tracer : Tracer)

def currentDepth (thread : ThreadId) : UInt32 := tracer.depth thread

def trace (thread : ThreadId) (event : TraceEvent) : Tracer :=
  if event.level.value < tracer.minLevel.value then tracer
  else { tracer with events := tracer.events ++ [(thread, event)] }

def pushScope (thread : ThreadId) (now : Tick) (subsystem operation : String) : Tracer :=
  let tracer := tracer.trace thread
    (makeTraceEvent now subsystem operation "enter" (tracer.currentDepth thread))
  { tracer with depth := update tracer.depth thread (tracer.depth thread + 1) }

def popScope (thread : ThreadId) : Tracer :=
  if tracer.depth thread = 0 then tracer
  else { tracer with depth := update tracer.depth thread (tracer.depth thread - 1) }

def setMinLevel (level : TraceLevel) : Tracer := { tracer with minLevel := level }

inductive Op where
  | trace (now : Tick) (level : TraceLevel) (subsystem operation details : String)
  | pushScope (now : Tick) (subsystem operation : String)
  | popScope
  | setMinLevel (level : TraceLevel)
  deriving DecidableEq

def Op.setsLevel : Op → Bool
  | .setMinLevel _ => true
  | _ => false

def exec (thread : ThreadId) : Op → Tracer
  | .trace now level subsystem operation details => tracer.trace thread
      (makeTraceEvent now subsystem operation details (tracer.currentDepth thread) level)
  | .pushScope now subsystem operation => tracer.pushScope thread now subsystem operation
  | .popScope => tracer.popScope thread
  | .setMinLevel level => tracer.setMinLevel level

def machine : Machine Tracer (ThreadId × Op) Unit := ⟨fun tracer x => ((), tracer.exec x.1 x.2)⟩

def eventsOf (thread : ThreadId) : List TraceEvent :=
  (tracer.events.filter (·.1 = thread)).map (·.2)

end Tracer

/-- Code with its traces. A scope object pops its scope when its block is left. -/
inductive TracedCode where
  | done
  | trace (now : Tick) (level : TraceLevel) (subsystem operation details : String)
      (rest : TracedCode)
  | scope (now : Tick) (subsystem operation : String) (body rest : TracedCode)

namespace TracedCode

def ops : TracedCode → List Tracer.Op
  | .done => []
  | .trace now level subsystem operation details rest =>
    .trace now level subsystem operation details :: rest.ops
  | .scope now subsystem operation body rest =>
    .pushScope now subsystem operation :: (body.ops ++ .popScope :: rest.ops)

/-- The number of scopes that are open at the same time, at most. -/
def height : TracedCode → ℕ
  | .done => 0
  | .trace _ _ _ _ _ rest => rest.height
  | .scope _ _ _ body rest => max (body.height + 1) rest.height

/-- The scopes and the traces that are not below the level, as they are nested. -/
def forest (minLevel : TraceLevel) : UInt32 → TracedCode → Forest TraceEvent
  | _, .done => .nil
  | depth, .trace now level subsystem operation details rest =>
    if level.value < minLevel.value then rest.forest minLevel depth
    else .node (makeTraceEvent now subsystem operation details depth level) .nil
      (rest.forest minLevel depth)
  | depth, .scope now subsystem operation body rest =>
    .node (makeTraceEvent now subsystem operation "enter" depth)
      (body.forest minLevel (depth + 1)) (rest.forest minLevel depth)

def written (minLevel : TraceLevel) : UInt32 → TracedCode → List TraceEvent
  | _, .done => []
  | depth, .trace now level subsystem operation details rest =>
    if level.value < minLevel.value then rest.written minLevel depth
    else makeTraceEvent now subsystem operation details depth level :: rest.written minLevel depth
  | depth, .scope now subsystem operation body rest =>
    makeTraceEvent now subsystem operation "enter" depth ::
      (body.written minLevel (depth + 1) ++ rest.written minLevel depth)

end TracedCode

def TraceEvent.listed (event : TraceEvent) : ℕ × TraceEvent := (event.depth.toNat, event)

namespace TracedCode

theorem toNat_add_one {depth : UInt32} (h : depth.toNat + 1 < 2 ^ 32) :
    (depth + 1).toNat = depth.toNat + 1 := by
  rw [UInt32.toNat_add, UInt32.toNat_one, Nat.mod_eq_of_lt h]

theorem listing_forest (minLevel : TraceLevel) (code : TracedCode) {depth : UInt32}
    (hdepth : depth.toNat + code.height < 2 ^ 32) :
    (code.forest minLevel depth).listing depth.toNat =
      (code.written minLevel depth).map TraceEvent.listed := by
  induction code generalizing depth with
  | done => rfl
  | trace now level subsystem operation details rest ih =>
    rw [forest, written]
    split_ifs
    · exact ih hdepth
    · exact congrArg _ (ih hdepth)
  | scope now subsystem operation body rest ihbody ihrest =>
    rw [height] at hdepth
    have hnext : (depth + 1).toNat = depth.toNat + 1 := toNat_add_one (by omega)
    have hbody := @ihbody (depth + 1) (by omega)
    have hrest := @ihrest depth (by omega)
    rw [hnext] at hbody
    rw [forest, written, Forest.listing, hbody, hrest, List.map_cons, List.map_append]
    rfl

end TracedCode

structure ThreadTrace where
  minLevel : TraceLevel
  depth : UInt32
  events : List TraceEvent

namespace ThreadTrace

def write (s : ThreadTrace) (event : TraceEvent) : ThreadTrace :=
  if event.level.value < s.minLevel.value then s else { s with events := s.events ++ [event] }

def exec (s : ThreadTrace) : Tracer.Op → ThreadTrace
  | .trace now level subsystem operation details =>
    s.write (makeTraceEvent now subsystem operation details s.depth level)
  | .pushScope now subsystem operation =>
    { s.write (makeTraceEvent now subsystem operation "enter" s.depth) with depth := s.depth + 1 }
  | .popScope => if s.depth = 0 then s else { s with depth := s.depth - 1 }
  | .setMinLevel level => { s with minLevel := level }

def machine : Machine ThreadTrace Tracer.Op Unit := ⟨fun s op => ((), s.exec op)⟩

end ThreadTrace

namespace Tracer

def only (thread : ThreadId) (tracer : Tracer) : ThreadTrace :=
  { minLevel := tracer.minLevel
    depth := tracer.depth thread
    events := tracer.eventsOf thread }

theorem only_trace_self (tracer : Tracer) (thread : ThreadId) (event : TraceEvent) :
    only thread (tracer.trace thread event) = (only thread tracer).write event := by
  unfold trace ThreadTrace.write only eventsOf
  dsimp only
  split_ifs
  · rfl
  · simp

theorem only_trace_other (tracer : Tracer) {thread writer : ThreadId} (h : writer ≠ thread)
    (event : TraceEvent) : only thread (tracer.trace writer event) = only thread tracer := by
  unfold trace only eventsOf
  split_ifs
  · rfl
  · simp [h]

theorem only_exec_self (tracer : Tracer) (thread : ThreadId) (op : Op) :
    only thread (tracer.exec thread op) = (only thread tracer).exec op := by
  cases op with
  | trace now level subsystem operation details => exact only_trace_self tracer thread _
  | pushScope now subsystem operation =>
    have hevent := only_trace_self tracer thread
      (makeTraceEvent now subsystem operation "enter" (tracer.currentDepth thread))
    have hdepth : (tracer.trace thread
        (makeTraceEvent now subsystem operation "enter" (tracer.currentDepth thread))).depth =
        tracer.depth := by
      unfold trace
      split_ifs <;> rfl
    simp only [exec, pushScope]
    generalize tracer.trace thread _ = traced at hevent hdepth ⊢
    have hpushed :
      only thread { traced with depth := update traced.depth thread (traced.depth thread + 1) } =
        { only thread traced with depth := traced.depth thread + 1 } := by
      simp [only, eventsOf]
    rw [hpushed, hevent, hdepth]
    rfl
  | popScope =>
    unfold exec popScope ThreadTrace.exec only
    dsimp only
    split_ifs
    · rfl
    · simp [eventsOf]
  | setMinLevel level => rfl

theorem only_exec_other (tracer : Tracer) {thread writer : ThreadId} (h : writer ≠ thread) {op : Op}
    (hop : op.setsLevel = false) : only thread (tracer.exec writer op) = only thread tracer := by
  cases op with
  | trace now level subsystem operation details => exact only_trace_other tracer h _
  | pushScope now subsystem operation =>
    have hevent := only_trace_other tracer h
      (makeTraceEvent now subsystem operation "enter" (tracer.currentDepth writer))
    refine Eq.trans ?_ hevent
    simp [exec, pushScope, only, eventsOf, h.symm]
  | popScope =>
    unfold exec popScope only
    dsimp only
    split_ifs
    · rfl
    · simp [eventsOf, h.symm]
  | setMinLevel level => cases hop

theorem only_run (tracer : Tracer) (thread : ThreadId) {steps : List (ThreadId × Op)}
    (hsteps : ∀ x ∈ steps, x.2.setsLevel = false) : only thread (machine.run tracer steps) =
      ThreadTrace.machine.run (only thread tracer) ((steps.filter (·.1 = thread)).map (·.2)) := by
  induction steps generalizing tracer with
  | nil => rfl
  | cons x steps ih =>
    have hrest := ih (tracer.exec x.1 x.2) fun y hy => hsteps y (List.mem_cons_of_mem x hy)
    change only thread (machine.run (tracer.exec x.1 x.2) steps) = _
    rw [hrest]
    by_cases hx : x.1 = thread
    · have hfilter : (x :: steps).filter (·.1 = thread) = x :: steps.filter (·.1 = thread) :=
        List.filter_cons_of_pos (decide_eq_true hx)
      rw [hfilter, hx, only_exec_self]
      rfl
    · rw [only_exec_other tracer hx (hsteps x List.mem_cons_self),
        List.filter_cons_of_neg (by simpa using hx)]

end Tracer

namespace TracedCode

theorem run_ops (code : TracedCode) (s : ThreadTrace)
    (hlevel : s.minLevel.value ≤ TraceLevel.info.value)
    (hdepth : s.depth.toNat + code.height < 2 ^ 32) (later : List Tracer.Op) :
    ThreadTrace.machine.run s (code.ops ++ later) = ThreadTrace.machine.run
      { s with events := s.events ++ code.written s.minLevel s.depth } later := by
  induction code generalizing s later with
  | done => simp [ops, written]
  | trace now level subsystem operation details rest ih =>
    change ThreadTrace.machine.run (s.write _) (rest.ops ++ later) = _
    by_cases hkept : level.value < s.minLevel.value
    · have hwrite : s.write (makeTraceEvent now subsystem operation details s.depth level) = s :=
        if_pos hkept
      rw [hwrite, written, if_pos hkept]
      exact ih s hlevel hdepth later
    · have hwrite : s.write (makeTraceEvent now subsystem operation details s.depth level) =
          { s with events := s.events ++
            [makeTraceEvent now subsystem operation details s.depth level] } := if_neg hkept
      have hrest := ih { s with events := s.events ++
        [makeTraceEvent now subsystem operation details s.depth level] } hlevel hdepth later
      rw [List.append_assoc] at hrest
      rw [hwrite, written, if_neg hkept]
      exact hrest
  | scope now subsystem operation body rest ihbody ihrest =>
    rw [height] at hdepth
    have hwrite : s.write (makeTraceEvent now subsystem operation "enter" s.depth) =
        { s with events := s.events ++ [makeTraceEvent now subsystem operation "enter" s.depth] } :=
      if_neg (Nat.not_lt.mpr hlevel)
    have hnext : (s.depth + 1).toNat = s.depth.toNat + 1 := toNat_add_one (by omega)
    have hne : s.depth + 1 ≠ 0 := by
      intro hzero
      rw [hzero] at hnext
      exact absurd hnext.symm (Nat.succ_ne_zero _)
    have hback : s.depth + 1 - 1 = s.depth := by simp
    have hbody := ihbody { s with
      depth := s.depth + 1
      events := s.events ++ [makeTraceEvent now subsystem operation "enter" s.depth] }
      hlevel (by dsimp only; omega) (.popScope :: (rest.ops ++ later))
    -- the scope is left at the depth it was entered at
    have hpop : ∀ events, ThreadTrace.machine.next { s with depth := s.depth + 1, events := events }
        .popScope = { s with events := events } := by
      intro events
      have hpopped : ThreadTrace.machine.next { s with depth := s.depth + 1, events := events }
          .popScope = { s with depth := s.depth + 1 - 1, events := events } := if_neg hne
      rw [hpopped, hback]
    rw [Machine.run_cons, hpop] at hbody
    have hrest := ihrest
      ⟨s.minLevel, s.depth, s.events ++ [makeTraceEvent now subsystem operation "enter" s.depth] ++
        body.written s.minLevel (s.depth + 1)⟩ hlevel (by dsimp only; omega) later
    change ThreadTrace.machine.run { s.write _ with depth := s.depth + 1 }
      ((body.ops ++ .popScope :: rest.ops) ++ later) = _
    rw [hwrite, List.append_assoc]
    refine hbody.trans (hrest.trans ?_)
    rw [written, List.append_assoc, List.append_assoc]
    rfl

end TracedCode

namespace Tracer

/-- Whatever other threads do, the events of a thread that has executed its code are a listing of
the scopes and the traces of this code, which can be read back from the depths; and the thread is in
no scope any more. -/
theorem scopes_recovered (minLevel : TraceLevel) (hlevel : minLevel.value ≤ TraceLevel.info.value)
    (steps : List (ThreadId × Op)) (hsteps : ∀ x ∈ steps, x.2.setsLevel = false)
    (thread : ThreadId) (code : TracedCode)
    (hcode : (steps.filter (·.1 = thread)).map (·.2) = code.ops) (hheight : code.height < 2 ^ 32) :
    let tracer := machine.run { minLevel := minLevel } steps
    tracer.currentDepth thread = 0 ∧
      rebuild ((tracer.eventsOf thread).map TraceEvent.listed) = code.forest minLevel 0 := by
  intro tracer
  have hrun : only thread tracer = { minLevel := minLevel
                                     depth := 0
                                     events := code.written minLevel 0 } := by
    have honly := only_run { minLevel := minLevel } thread hsteps
    have hcoded := code.run_ops (only thread { minLevel := minLevel }) hlevel
      ((Nat.zero_add _).trans_lt hheight) []
    rw [List.append_nil] at hcoded
    rw [hcode, hcoded] at honly
    exact honly
  have hevents : tracer.eventsOf thread = code.written minLevel 0 :=
    congrArg ThreadTrace.events hrun
  have hdepth : (0 : UInt32).toNat + code.height < 2 ^ 32 := (Nat.zero_add _).trans_lt hheight
  have hlisting := code.listing_forest minLevel hdepth
  refine ⟨congrArg ThreadTrace.depth hrun, ?_⟩
  rw [hevents, ← hlisting]
  exact rebuild_listing _ _

def createTraced : TracedCode :=
  .scope 0 "Kernel" "createProcess"
    (.scope 0 "Scheduler" "enqueueToLane" (.trace 0 .debug "Scheduler" "enqueue.ok" "pid=1" .done)
      (.trace 0 .info "Kernel" "createProcess.ok" "pid=1" .done)) .done

theorem scopes_recovered_other :
    let tracer := machine.run { minLevel := .info }
      ((createTraced.ops.take 2).map ((1, ·)) ++ [(2, .pushScope 5 "Kernel" "tick")] ++
        (createTraced.ops.drop 2).map ((1, ·)))
    tracer.currentDepth 1 = 0 ∧ tracer.currentDepth 2 = 1 ∧
      rebuild ((tracer.eventsOf 1).map TraceEvent.listed) =
        .node (makeTraceEvent 0 "Kernel" "createProcess" "enter" 0)
          (.node (makeTraceEvent 0 "Scheduler" "enqueueToLane" "enter" 1) .nil
            (.node (makeTraceEvent 0 "Kernel" "createProcess.ok" "pid=1" 1) .nil .nil)) .nil := by
  intro tracer
  have h := scopes_recovered .info le_rfl ((createTraced.ops.take 2).map ((1, ·)) ++
    [(2, .pushScope 5 "Kernel" "tick")] ++ (createTraced.ops.drop 2).map ((1, ·)))
    (by decide) 1 createTraced (by decide) (by decide)
  exact ⟨h.1, by decide, h.2⟩

end Tracer
end Contur.Tracing
