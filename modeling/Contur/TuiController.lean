import Mathlib.Data.UInt
import Mathlib.Logic.Relation
import Contur.HistoryBuffer
import Contur.Transition

/-!
# The TUI controller

The controller drives a tick function and a read model that are given from outside,
over the state of whatever they act on; both may fail at any call. It keeps the
captured snapshots in a history buffer and a copy of the one under the cursor. The
unsigned integers are the ones of the source, so that the elapsed time is added
modulo `2 ^ 32`. Only the sequence number of a snapshot is read; what else it shows
is a parameter.

An observed environment keeps a journal of the calls it answers. The controller runs
in it as in the plain one.
-/

namespace Contur
open Transition

structure TuiSnapshot (ν : Type*) where
  sequence : UInt64 := 0
  contents : ν
  deriving DecidableEq, Inhabited

structure TuiHistoryEntry (ν : Type*) where
  sequence : UInt64 := 0
  snapshot : TuiSnapshot ν
  deriving DecidableEq

inductive TuiCommandKind where
  | tick
  | autoPlayStart
  | autoPlayStop
  | pause
  | seekBackward
  | seekForward
  deriving DecidableEq

structure TuiPlaybackConfig where
  intervalMs : UInt32 := 100
  step : ℕ := 1

structure TuiCommand where
  kind : TuiCommandKind := .tick
  step : ℕ := 1
  intervalMs : UInt32 := 100

def commandRequiresStep (kind : TuiCommandKind) : Bool :=
  kind = .tick ∨ kind = .autoPlayStart ∨ kind = .seekBackward ∨ kind = .seekForward

def commandRequiresInterval (kind : TuiCommandKind) : Bool := kind = .autoPlayStart

def validatePlaybackConfig (config : TuiPlaybackConfig) : Result Unit :=
  if config.step = 0 ∨ config.intervalMs = 0 then .error .invalidArgument else .ok ()

def validateCommand (command : TuiCommand) : Result Unit :=
  if commandRequiresStep command.kind ∧ command.step = 0 then .error .invalidArgument
  else if commandRequiresInterval command.kind ∧ command.intervalMs = 0 then
    .error .invalidArgument
  else .ok ()

def playbackConfigFromCommand (command : TuiCommand) : TuiPlaybackConfig :=
  { intervalMs := command.intervalMs, step := command.step }

structure TuiEnvironment (ω ν : Type*) where
  tick : ω → ℕ → Result Unit × ω
  captureSnapshot : ω → Result (TuiSnapshot ν) × ω

structure TuiJournal (ν : Type*) where
  ticks : List ℕ := []
  captured : List (TuiSnapshot ν) := []
  failures : ℕ := 0

namespace TuiJournal
variable {ν : Type*}

def noteTick (j : TuiJournal ν) (step : ℕ) : Result Unit → TuiJournal ν
  | .ok _ => { j with ticks := j.ticks ++ [step] }
  | .error _ => { j with ticks := j.ticks ++ [step], failures := j.failures + 1 }

def noteCapture (j : TuiJournal ν) : Result (TuiSnapshot ν) → TuiJournal ν
  | .ok snapshot => { j with captured := j.captured ++ [snapshot] }
  | .error _ => { j with failures := j.failures + 1 }

end TuiJournal

/-- The environment that keeps a journal of its calls. -/
def TuiEnvironment.observed {ω ν : Type*} (E : TuiEnvironment ω ν) :
    TuiEnvironment (ω × TuiJournal ν) ν where
  tick w step := ((E.tick w.1 step).1, (E.tick w.1 step).2, w.2.noteTick step (E.tick w.1 step).1)
  captureSnapshot w :=
    ((E.captureSnapshot w.1).1, (E.captureSnapshot w.1).2,
      w.2.noteCapture (E.captureSnapshot w.1).1)

def tickCounter : TuiEnvironment ℕ ℕ where
  tick w step := (.ok (), w + step)
  captureSnapshot w := (.ok { contents := w }, w)

inductive TuiControllerState where
  | idle
  | playing
  | paused
  deriving DecidableEq

structure TuiController (ν : Type*) where
  history : HistoryBuffer (TuiHistoryEntry ν)
  current : TuiSnapshot ν
  playback : TuiPlaybackConfig := {}
  state : TuiControllerState := .idle
  accumulatedMs : UInt32 := 0
  nextSequence : UInt64 := 0

inductive TuiInput where
  | dispatch (command : TuiCommand)
  | advanceAutoplay (elapsedMs : UInt32)

namespace TuiController
variable {ω ν : Type*}

def syncCurrentFromCursor (c : TuiController ν) : Result Unit × TuiController ν :=
  match c.history.current with
  | none => (.error .notFound, c)
  | some entry => (.ok (), { c with current := entry.snapshot })

/-- The number that a captured snapshot gets and the number counted up to. -/
def numbered (nextSequence : UInt64) (snapshot : TuiSnapshot ν) : TuiSnapshot ν × UInt64 :=
  if snapshot.sequence = 0 then
    ({ snapshot with sequence := nextSequence + 1 }, nextSequence + 1)
  else if snapshot.sequence > nextSequence then (snapshot, snapshot.sequence)
  else (snapshot, nextSequence)

def record (c : TuiController ν) (captured : TuiSnapshot ν) : Result Unit × TuiController ν :=
  let (snapshot, nextSequence) := numbered c.nextSequence captured
  let entry : TuiHistoryEntry ν := { sequence := snapshot.sequence, snapshot }
  { c with nextSequence, history := c.history.append entry }.syncCurrentFromCursor

def captureSnapshot (E : TuiEnvironment ω ν) (c : TuiController ν) (w : ω) :
    Result Unit × TuiController ν × ω :=
  match E.captureSnapshot w with
  | (.error code, w') => (.error code, c, w')
  | (.ok captured, w') => ((c.record captured).1, (c.record captured).2, w')

def tickAndCapture (E : TuiEnvironment ω ν) (c : TuiController ν) (w : ω) (step : ℕ) :
    Result Unit × TuiController ν × ω :=
  match E.tick w step with
  | (.error code, w') => (.error code, c, w')
  | (.ok _, w') => c.captureSnapshot E w'

def create [Inhabited ν] (E : TuiEnvironment ω ν) (w : ω) (historyCapacity : ℕ) :
    TuiController ν × ω :=
  (captureSnapshot E { history := .create historyCapacity, current := default } w).2

def dispatch (E : TuiEnvironment ω ν) (c : TuiController ν) (w : ω) (command : TuiCommand) :
    Result Unit × TuiController ν × ω :=
  match validateCommand command with
  | .error code => (.error code, c, w)
  | .ok _ =>
    match command.kind with
    | .tick =>
      match E.tick w command.step with
      | (.ok _, w') => c.captureSnapshot E w'
      | (.error code, w') =>
        -- a tick that found nothing to run is shown as well
        if code ≠ .notFound then (.error code, c, w') else c.captureSnapshot E w'
    | .autoPlayStart =>
      let config := playbackConfigFromCommand command
      match validatePlaybackConfig config with
      | .error code => (.error code, c, w)
      | .ok _ => (.ok (), { c with playback := config, accumulatedMs := 0, state := .playing }, w)
    | .autoPlayStop => (.ok (), { c with accumulatedMs := 0, state := .idle }, w)
    | .pause => (.ok (), if c.state = .playing then { c with state := .paused } else c, w)
    | .seekBackward =>
      match c.history.seekBackward command.step with
      | (.error code, history) => (.error code, { c with history }, w)
      | (.ok _, history) =>
        ({ c with history }.syncCurrentFromCursor.1, { c with history }.syncCurrentFromCursor.2, w)
    | .seekForward =>
      match c.history.seekForward command.step with
      | (.error code, history) => (.error code, { c with history }, w)
      | (.ok _, history) =>
        ({ c with history }.syncCurrentFromCursor.1, { c with history }.syncCurrentFromCursor.2, w)

/-- The loop of `advanceAutoplay`. Each turn takes an interval that is not zero, so the accumulated
time bounds the number of turns. -/
def autoplayLoop (E : TuiEnvironment ω ν) : ℕ → TuiController ν → ω →
    Result Unit × TuiController ν × ω
  | 0, c, w => (.ok (), c, w)
  | turns + 1, c, w =>
    if c.accumulatedMs ≥ c.playback.intervalMs then
      let c := { c with accumulatedMs := c.accumulatedMs - c.playback.intervalMs }
      match c.tickAndCapture E w c.playback.step with
      | (.error code, c', w') => (.error code, { c' with state := .paused }, w')
      | (.ok _, c', w') => autoplayLoop E turns c' w'
    else (.ok (), c, w)

def advanceAutoplay (E : TuiEnvironment ω ν) (c : TuiController ν) (w : ω) (elapsedMs : UInt32) :
    Result Unit × TuiController ν × ω :=
  if c.state ≠ .playing then (.ok (), c, w)
  else if c.playback.intervalMs = 0 ∨ c.playback.step = 0 then (.error .invalidState, c, w)
  else
    let c := { c with accumulatedMs := c.accumulatedMs + elapsedMs }
    autoplayLoop E c.accumulatedMs.toNat c w

def exec (E : TuiEnvironment ω ν) (s : TuiController ν × ω) : TuiInput →
    Result Unit × TuiController ν × ω
  | .dispatch command => s.1.dispatch E s.2 command
  | .advanceAutoplay elapsedMs => s.1.advanceAutoplay E s.2 elapsedMs

def machine (E : TuiEnvironment ω ν) : Machine (TuiController ν × ω) TuiInput (Result Unit) :=
  ⟨exec E⟩

variable {E : TuiEnvironment ω ν} {c : TuiController ν} {w : ω}

theorem record_eq (c : TuiController ν) (captured : TuiSnapshot ν) : c.record captured =
    (.ok (), { c with
      nextSequence := (numbered c.nextSequence captured).2
      history := c.history.append
        ⟨(numbered c.nextSequence captured).1.sequence, (numbered c.nextSequence captured).1⟩
      current := (numbered c.nextSequence captured).1 }) := by
  simp only [record, syncCurrentFromCursor, HistoryBuffer.append_current]

theorem captureSnapshot_of_ok {captured : TuiSnapshot ν}
    (hcapture : (E.captureSnapshot w).1 = .ok captured) :
    c.captureSnapshot E w = (.ok (), (c.record captured).2, (E.captureSnapshot w).2) := by
  rcases hcall : E.captureSnapshot w with ⟨result, w'⟩
  rw [hcall] at hcapture
  simp only at hcapture
  simp only [captureSnapshot, hcall, hcapture, record_eq]

theorem captureSnapshot_of_error {code : ErrorCode}
    (hcapture : (E.captureSnapshot w).1 = .error code) :
    c.captureSnapshot E w = (.error code, c, (E.captureSnapshot w).2) := by
  rcases hcall : E.captureSnapshot w with ⟨result, w'⟩
  rw [hcall] at hcapture
  simp only at hcapture
  simp only [captureSnapshot, hcall, hcapture]

theorem tickAndCapture_of_ok {step : ℕ} (htick : (E.tick w step).1 = .ok ()) :
    c.tickAndCapture E w step = c.captureSnapshot E (E.tick w step).2 := by
  rcases hcall : E.tick w step with ⟨result, w'⟩
  rw [hcall] at htick
  simp only at htick
  simp only [tickAndCapture, hcall, htick]

theorem tickAndCapture_of_error {step : ℕ} {code : ErrorCode}
    (htick : (E.tick w step).1 = .error code) :
    c.tickAndCapture E w step = (.error code, c, (E.tick w step).2) := by
  rcases hcall : E.tick w step with ⟨result, w'⟩
  rw [hcall] at htick
  simp only at htick
  simp only [tickAndCapture, hcall, htick]

section
variable {w : ω × TuiJournal ν} {step : ℕ} {code : ErrorCode}

theorem captureSnapshot_observed_of_ok {captured : TuiSnapshot ν}
    (hcapture : (E.captureSnapshot w.1).1 = .ok captured) :
    c.captureSnapshot E.observed w = (.ok (), (c.record captured).2, (E.captureSnapshot w.1).2,
      { w.2 with captured := w.2.captured ++ [captured] }) := by
  have hobserved : (E.observed.captureSnapshot w).1 = .ok captured := hcapture
  rw [captureSnapshot_of_ok hobserved]
  simp only [TuiEnvironment.observed, hcapture, TuiJournal.noteCapture]

theorem captureSnapshot_observed_of_error (hcapture : (E.captureSnapshot w.1).1 = .error code) :
    c.captureSnapshot E.observed w = (.error code, c, (E.captureSnapshot w.1).2,
      { w.2 with failures := w.2.failures + 1 }) := by
  have hobserved : (E.observed.captureSnapshot w).1 = .error code := hcapture
  rw [captureSnapshot_of_error hobserved]
  simp only [TuiEnvironment.observed, hcapture, TuiJournal.noteCapture]

theorem tickAndCapture_observed_of_ok (htick : (E.tick w.1 step).1 = .ok ()) :
    c.tickAndCapture E.observed w step = c.captureSnapshot E.observed
      ((E.tick w.1 step).2, { w.2 with ticks := w.2.ticks ++ [step] }) := by
  have hobserved : (E.observed.tick w step).1 = .ok () := htick
  rw [tickAndCapture_of_ok hobserved]
  simp only [TuiEnvironment.observed, htick, TuiJournal.noteTick]

theorem tickAndCapture_observed_of_error (htick : (E.tick w.1 step).1 = .error code) :
    c.tickAndCapture E.observed w step = (.error code, c, (E.tick w.1 step).2,
      { w.2 with ticks := w.2.ticks ++ [step], failures := w.2.failures + 1 }) := by
  have hobserved : (E.observed.tick w step).1 = .error code := htick
  rw [tickAndCapture_of_error hobserved]
  simp only [TuiEnvironment.observed, htick, TuiJournal.noteTick]

end

/-- The parts of which every call is made: the settings change, the tick function or the read model
is called, or the cursor moves. -/
inductive Move (E : TuiEnvironment ω ν) : TuiController ν × ω → TuiController ν × ω → Prop where
  | settings {c c' : TuiController ν} {w : ω} (hhistory : c'.history = c.history)
      (hcurrent : c'.current = c.current) (hnext : c'.nextSequence = c.nextSequence) :
      Move E (c, w) (c', w)
  | tick (c : TuiController ν) (w : ω) (step : ℕ) : Move E (c, w) (c, (E.tick w step).2)
  | capture (c : TuiController ν) (w : ω) : Move E (c, w) (c.captureSnapshot E w).2
  | seekBackward (c : TuiController ν) (w : ω) (step : ℕ) : Move E (c, w)
      ({ c with history := (c.history.seekBackward step).2 }.syncCurrentFromCursor.2, w)
  | seekForward (c : TuiController ν) (w : ω) (step : ℕ) : Move E (c, w)
      ({ c with history := (c.history.seekForward step).2 }.syncCurrentFromCursor.2, w)

def Moves (E : TuiEnvironment ω ν) : TuiController ν × ω → TuiController ν × ω → Prop :=
  Relation.ReflTransGen (Move E)

theorem moves_tickAndCapture (c : TuiController ν) (w : ω) (step : ℕ) :
    Moves E (c, w) (c.tickAndCapture E w step).2 := by
  have htick : Moves E (c, w) (c, (E.tick w step).2) := .single (.tick c w step)
  cases hresult : (E.tick w step).1 with
  | ok _ =>
    rw [tickAndCapture_of_ok hresult]
    exact htick.tail (.capture c _)
  | error code =>
    rw [tickAndCapture_of_error hresult]
    exact htick

theorem moves_autoplayLoop (turns : ℕ) (c : TuiController ν) (w : ω) :
    Moves E (c, w) (autoplayLoop E turns c w).2 := by
  induction turns generalizing c w with
  | zero => exact .refl
  | succ turns ih =>
    rw [autoplayLoop]
    split_ifs with hdue
    · have htake : Move E (c, w)
          ({ c with accumulatedMs := c.accumulatedMs - c.playback.intervalMs }, w) :=
        .settings rfl rfl rfl
      have hcall := (moves_tickAndCapture (E := E)
        { c with accumulatedMs := c.accumulatedMs - c.playback.intervalMs } w
        c.playback.step).head htake
      dsimp only
      generalize tickAndCapture E _ w _ = r at hcall
      obtain ⟨_ | code, c', w'⟩ := r
      · exact hcall.trans (ih c' w')
      · exact hcall.tail (.settings rfl rfl rfl)
    · exact .refl

theorem moves_dispatch (c : TuiController ν) (w : ω) (command : TuiCommand) :
    Moves E (c, w) (c.dispatch E w command).2 := by
  rw [dispatch]
  cases validateCommand command with
  | error code => exact .refl
  | ok _ =>
    dsimp only
    cases command.kind with
    | tick =>
      have htick : Moves E (c, w) (c, (E.tick w command.step).2) := .single (.tick c w _)
      dsimp only
      generalize E.tick w command.step = r at htick
      obtain ⟨_ | code, w'⟩ := r
      · exact htick.tail (.capture c w')
      · dsimp only
        split_ifs
        · exact htick
        · exact htick.tail (.capture c w')
    | autoPlayStart =>
      dsimp only
      cases validatePlaybackConfig (playbackConfigFromCommand command) with
      | error code => exact .refl
      | ok _ => exact .single (.settings rfl rfl rfl)
    | autoPlayStop => exact .single (.settings rfl rfl rfl)
    | pause =>
      dsimp only
      split_ifs
      · exact .single (.settings rfl rfl rfl)
      · exact .refl
    | seekBackward =>
      dsimp only
      rcases c.history.seekBackward_cases command.step with heq | ⟨-, -, heq⟩
      · rw [heq]
        exact .refl
      · have hseek := Move.seekBackward (E := E) c w command.step
        rw [heq] at hseek ⊢
        exact .single hseek
    | seekForward =>
      dsimp only
      rcases c.history.seekForward_cases command.step with heq | ⟨-, -, heq⟩
      · rw [heq]
        exact .refl
      · have hseek := Move.seekForward (E := E) c w command.step
        rw [heq] at hseek ⊢
        exact .single hseek

theorem moves_advanceAutoplay (c : TuiController ν) (w : ω) (elapsedMs : UInt32) :
    Moves E (c, w) (c.advanceAutoplay E w elapsedMs).2 := by
  rw [advanceAutoplay]
  split_ifs
  · exact .refl
  · exact .refl
  · have hadd : Move E (c, w) ({ c with accumulatedMs := c.accumulatedMs + elapsedMs }, w) :=
      .settings rfl rfl rfl
    exact Relation.ReflTransGen.head hadd (moves_autoplayLoop _ _ w)

theorem moves_exec (s : TuiController ν × ω) (input : TuiInput) :
    Moves E s ((machine E).next s input) := by
  cases input with
  | dispatch command => exact moves_dispatch s.1 s.2 command
  | advanceAutoplay elapsedMs => exact moves_advanceAutoplay s.1 s.2 elapsedMs

theorem Moves.keep {P : TuiController ν × ω → Prop} (hmove : ∀ s s', Move E s s' → P s → P s')
    {s s' : TuiController ν × ω} (h : Moves E s s') (hs : P s) : P s' := by
  induction h with
  | refl => exact hs
  | tail _ hlast ih => exact hmove _ _ hlast ih

theorem run_of_move {P : TuiController ν × ω → Prop} (hmove : ∀ s s', Move E s s' → P s → P s')
    {s : TuiController ν × ω} (hs : P s) (inputs : List TuiInput) :
    P ((machine E).run s inputs) :=
  (machine E).run_invariant (fun s input hs => (moves_exec s input).keep hmove hs) hs inputs

def forget (r : Result Unit × TuiController ν × ω × TuiJournal ν) :
    Result Unit × TuiController ν × ω :=
  (r.1, r.2.1, r.2.2.1)

theorem captureSnapshot_observed (c : TuiController ν) (w : ω × TuiJournal ν) :
    forget (c.captureSnapshot E.observed w) = c.captureSnapshot E w.1 := by
  cases hcapture : (E.captureSnapshot w.1).1 with
  | ok captured =>
    rw [captureSnapshot_of_ok hcapture, captureSnapshot_observed_of_ok hcapture]
    rfl
  | error code =>
    rw [captureSnapshot_of_error hcapture, captureSnapshot_observed_of_error hcapture]
    rfl

theorem tickAndCapture_observed (c : TuiController ν) (w : ω × TuiJournal ν) (step : ℕ) :
    forget (c.tickAndCapture E.observed w step) = c.tickAndCapture E w.1 step := by
  cases htick : (E.tick w.1 step).1 with
  | ok _ =>
    rw [tickAndCapture_of_ok htick, tickAndCapture_observed_of_ok htick, captureSnapshot_observed]
  | error code =>
    rw [tickAndCapture_of_error htick, tickAndCapture_observed_of_error htick]
    rfl

theorem autoplayLoop_observed (turns : ℕ) (c : TuiController ν) (w : ω × TuiJournal ν) :
    forget (autoplayLoop E.observed turns c w) = autoplayLoop E turns c w.1 := by
  induction turns generalizing c w with
  | zero => rfl
  | succ turns ih =>
    simp only [autoplayLoop]
    split_ifs with hdue
    · have hcall := tickAndCapture_observed (E := E)
        { c with accumulatedMs := c.accumulatedMs - c.playback.intervalMs } w c.playback.step
      rw [← hcall]
      generalize tickAndCapture E.observed _ w _ = r
      obtain ⟨_ | code, c', w'⟩ := r
      · exact ih c' w'
      · rfl
    · rfl

theorem dispatch_observed (c : TuiController ν) (w : ω × TuiJournal ν) (command : TuiCommand) :
    forget (c.dispatch E.observed w command) = c.dispatch E w.1 command := by
  simp only [dispatch]
  cases validateCommand command with
  | error code => rfl
  | ok _ =>
    dsimp only
    cases command.kind with
    | tick =>
      dsimp only
      rcases hcall : E.tick w.1 command.step with ⟨result, w'⟩
      have hobserved : E.observed.tick w command.step =
          (result, w', w.2.noteTick command.step result) := by
        simp only [TuiEnvironment.observed, hcall]
      rw [hobserved]
      cases result with
      | ok _ => exact captureSnapshot_observed c _
      | error code =>
        dsimp only
        split_ifs
        · rfl
        · exact captureSnapshot_observed c _
    | autoPlayStart =>
      dsimp only
      cases validatePlaybackConfig (playbackConfigFromCommand command) <;> rfl
    | autoPlayStop => rfl
    | pause => rfl
    | seekBackward =>
      dsimp only
      rcases c.history.seekBackward command.step with ⟨_ | code, history⟩ <;> rfl
    | seekForward =>
      dsimp only
      rcases c.history.seekForward command.step with ⟨_ | code, history⟩ <;> rfl

theorem exec_observed (s : TuiController ν × ω × TuiJournal ν) (input : TuiInput) :
    forget (exec E.observed s input) = exec E (s.1, s.2.1) input := by
  cases input with
  | dispatch command => exact dispatch_observed s.1 s.2 command
  | advanceAutoplay elapsedMs =>
    simp only [exec, advanceAutoplay]
    split_ifs
    · rfl
    · rfl
    · exact autoplayLoop_observed _ _ s.2

theorem run_observed (s : TuiController ν × ω × TuiJournal ν) (inputs : List TuiInput) :
    let s' := (machine E.observed).run s inputs
    (s'.1, s'.2.1) = (machine E).run (s.1, s.2.1) inputs := by
  have hstep (s : TuiController ν × ω × TuiJournal ν) (input : TuiInput) :
      (((machine E.observed).next s input).1, ((machine E.observed).next s input).2.1) =
        (machine E).next (s.1, s.2.1) input :=
    congrArg Prod.snd (exec_observed s input)
  have hrun := Machine.run_map (machine E.observed) (machine E) (fun s => (s.1, s.2.1)) id hstep
    s inputs
  rwa [List.map_id] at hrun

end TuiController
end Contur
