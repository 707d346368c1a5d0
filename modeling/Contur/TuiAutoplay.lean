import Contur.CarriedTime
import Contur.TuiController

/-!
# The time of the autoplay

While it plays, the controller is a timer with the interval as its period and 32 bits
of carried time. The calls are compared with that timer for runs in which no call of
the environment failed, as the journal tells.
-/

namespace Contur
open Transition

namespace TuiController
variable {ω ν : Type*} {E : TuiEnvironment ω ν} {c : TuiController ν} {w : ω × TuiJournal ν}
  {config : TuiPlaybackConfig}

theorem failures_move (s s' : TuiController ν × ω × TuiJournal ν) (hmove : Move E.observed s s') :
    s.2.2.failures ≤ s'.2.2.failures := by
  cases hmove with
  | settings => exact le_rfl
  | tick c w step =>
    dsimp only [TuiEnvironment.observed]
    cases (E.tick w.1 step).1 with
    | ok _ => exact le_rfl
    | error code => exact Nat.le_succ _
  | capture c w =>
    cases hcapture : (E.captureSnapshot w.1).1 with
    | ok snapshot =>
      rw [captureSnapshot_observed_of_ok hcapture]
    | error code =>
      rw [captureSnapshot_observed_of_error hcapture]
      exact Nat.le_succ _
  | seekBackward => exact le_rfl
  | seekForward => exact le_rfl

theorem Moves.failures_le {s s' : TuiController ν × ω × TuiJournal ν}
    (h : Moves E.observed s s') : s.2.2.failures ≤ s'.2.2.failures :=
  h.keep (P := fun s' => s.2.2.failures ≤ s'.2.2.failures)
    (fun s s' hmove hs => hs.trans (failures_move s s' hmove)) le_rfl

theorem tickAndCapture_outcome (c : TuiController ν) (w : ω × TuiJournal ν) (step : ℕ) :
    let r := c.tickAndCapture E.observed w step
    w.2.failures < r.2.2.2.failures ∨
      (r.2.2.2.failures = w.2.failures ∧ r.1 = .ok () ∧ r.2.1.playback = c.playback ∧
        r.2.1.state = c.state ∧ r.2.1.accumulatedMs = c.accumulatedMs ∧
        r.2.2.2.ticks = w.2.ticks ++ [step]) := by
  cases htick : (E.tick w.1 step).1 with
  | error code =>
    rw [tickAndCapture_observed_of_error htick]
    exact Or.inl (Nat.lt_succ_self _)
  | ok _ =>
    rw [tickAndCapture_observed_of_ok htick]
    cases hcapture : (E.captureSnapshot (E.tick w.1 step).2).1 with
    | ok snapshot =>
      rw [captureSnapshot_observed_of_ok hcapture, record_eq]
      exact Or.inr ⟨rfl, rfl, rfl, rfl, rfl, rfl⟩
    | error code =>
      rw [captureSnapshot_observed_of_error hcapture]
      exact Or.inl (Nat.lt_succ_self _)

theorem autoplayLoop_spec (turns : ℕ) (c : TuiController ν) (w : ω × TuiJournal ν)
    (hinterval : 0 < c.playback.intervalMs.toNat) (hturns : c.accumulatedMs.toNat ≤ turns)
    (hsuccess : (autoplayLoop E.observed turns c w).2.2.2.failures = w.2.failures) :
    let r := autoplayLoop E.observed turns c w
    r.1 = .ok () ∧ r.2.1.playback = c.playback ∧ r.2.1.state = c.state ∧
      r.2.1.accumulatedMs.toNat = c.accumulatedMs.toNat % c.playback.intervalMs.toNat ∧
      r.2.2.2.ticks = w.2.ticks ++
        List.replicate (c.accumulatedMs.toNat / c.playback.intervalMs.toNat) c.playback.step := by
  induction turns generalizing c w with
  | zero =>
    have hzero : c.accumulatedMs.toNat = 0 := by omega
    simp [autoplayLoop, hzero]
  | succ turns ih =>
    rw [autoplayLoop] at hsuccess ⊢
    split_ifs at hsuccess ⊢ with hdue
    · have hle : c.playback.intervalMs.toNat ≤ c.accumulatedMs.toNat :=
        UInt32.le_iff_toNat_le.mp hdue
      have hrest := UInt32.toNat_sub_of_le _ _ hdue
      have houtcome := tickAndCapture_outcome (E := E)
        { c with accumulatedMs := c.accumulatedMs - c.playback.intervalMs } w c.playback.step
      dsimp only at hsuccess houtcome ⊢
      generalize tickAndCapture E.observed _ w _ = r at hsuccess houtcome
      obtain ⟨_ | code, c', w'⟩ := r
      · have hmono := (moves_autoplayLoop (E := E.observed) turns c' w').failures_le
        rcases houtcome with hlt | ⟨hnone, -, hplayback, hstate, hleft, hticks⟩
        · dsimp only at hlt hsuccess hmono
          omega
        · dsimp only at hnone hplayback hstate hleft hticks hsuccess ⊢
          have hturn : c'.accumulatedMs.toNat ≤ turns := by
            rw [hleft, hrest]
            omega
          obtain ⟨hok, hplayback', hstate', hleft', hticks'⟩ :=
            ih c' w' (by rwa [hplayback]) hturn (by rw [hsuccess, hnone])
          rw [hplayback, hleft, hrest] at hleft' hticks'
          refine ⟨hok, hplayback'.trans hplayback, hstate'.trans hstate, ?_, ?_⟩
          · rw [hleft', ← Nat.mod_eq_sub_mod hle]
          · rw [hticks', hticks, Nat.div_eq_sub_div hinterval hle, List.replicate_succ,
              List.append_assoc, List.singleton_append]
      · rcases houtcome with hlt | ⟨-, hok, -⟩
        · exact absurd hsuccess (Nat.ne_of_gt hlt)
        · cases hok
    · have hlt : c.accumulatedMs.toNat < c.playback.intervalMs.toNat :=
        not_le.mp fun hle => hdue (UInt32.le_iff_toNat_le.mpr hle)
      simp [Nat.mod_eq_of_lt hlt, Nat.div_eq_of_lt hlt]

structure Plays (c : TuiController ν) (config : TuiPlaybackConfig) : Prop where
  state : c.state = .playing
  playback : c.playback = config
  interval_pos : 0 < config.intervalMs.toNat
  step_ne : config.step ≠ 0

theorem advanceAutoplay_eq (h : c.Plays config) (w : ω) (F : TuiEnvironment ω ν)
    (elapsedMs : UInt32) : c.advanceAutoplay F w elapsedMs =
      autoplayLoop F (c.accumulatedMs + elapsedMs).toNat
        { c with accumulatedMs := c.accumulatedMs + elapsedMs } w := by
  have hinterval : config.intervalMs ≠ 0 := by
    intro hzero
    have hpos := h.interval_pos
    rw [hzero] at hpos
    exact absurd hpos (Nat.lt_irrefl 0)
  rw [advanceAutoplay, if_neg (not_not.mpr h.state), h.playback,
    if_neg (not_or.mpr ⟨hinterval, h.step_ne⟩)]

theorem advanceAutoplay_spec (h : c.Plays config) (elapsedMs : UInt32)
    (hsuccess : (c.advanceAutoplay E.observed w elapsedMs).2.2.2.failures = w.2.failures) :
    let r := c.advanceAutoplay E.observed w elapsedMs
    r.2.1.Plays config ∧
      r.2.1.accumulatedMs.toNat = CarriedTime.left (2 ^ 32) config.intervalMs.toNat
        c.accumulatedMs.toNat elapsedMs.toNat ∧
      r.2.2.2.ticks = w.2.ticks ++ List.replicate (CarriedTime.due (2 ^ 32)
        config.intervalMs.toNat c.accumulatedMs.toNat elapsedMs.toNat) config.step := by
  rw [advanceAutoplay_eq h] at hsuccess ⊢
  have hinterval : 0 < c.playback.intervalMs.toNat := by
    rw [h.playback]
    exact h.interval_pos
  have hspec := autoplayLoop_spec _
    { c with accumulatedMs := c.accumulatedMs + elapsedMs } w hinterval le_rfl hsuccess
  generalize autoplayLoop E.observed _ _ w = r at hspec
  obtain ⟨-, hplayback, hstate, hleft, hticks⟩ := hspec
  dsimp only at hplayback hstate hleft hticks ⊢
  rw [h.playback] at hplayback hleft hticks
  rw [UInt32.toNat_add] at hleft hticks
  exact ⟨⟨hstate.trans h.state, hplayback, h.interval_pos, h.step_ne⟩, hleft, hticks⟩

theorem run_autoplay (elapsed : List UInt32) (s : TuiController ν × ω × TuiJournal ν)
    (h : s.1.Plays config) (hsuccess : ((machine E.observed).run s
      (elapsed.map TuiInput.advanceAutoplay)).2.2.failures = s.2.2.failures) :
    ((machine E.observed).run s (elapsed.map TuiInput.advanceAutoplay)).2.2.ticks =
      s.2.2.ticks ++ List.replicate (CarriedTime.turns (2 ^ 32) config.intervalMs.toNat
        s.1.accumulatedMs.toNat (elapsed.map UInt32.toNat)) config.step := by
  induction elapsed generalizing s with
  | nil => exact (List.append_nil _).symm
  | cons elapsedMs elapsed ih =>
    rw [List.map_cons, Machine.run_cons] at hsuccess ⊢
    have hfirst := (moves_exec (E := E.observed) s (.advanceAutoplay elapsedMs)).failures_le
    have hrest := run_of_move (E := E.observed)
      (P := fun s' => ((machine E.observed).next s (.advanceAutoplay elapsedMs)).2.2.failures ≤
        s'.2.2.failures) (fun s s' hmove hs => hs.trans (failures_move s s' hmove)) le_rfl
      (elapsed.map TuiInput.advanceAutoplay)
    rw [hsuccess] at hrest
    have hnone := le_antisymm hrest hfirst
    obtain ⟨hplays, hleft, hticks⟩ := advanceAutoplay_spec h elapsedMs hnone
    have hlater := ih ((machine E.observed).next s (.advanceAutoplay elapsedMs)) hplays
      (hsuccess.trans hnone.symm)
    rw [hlater]
    change (s.1.advanceAutoplay E.observed s.2 elapsedMs).2.2.2.ticks ++ _ = _
    rw [hticks, List.append_assoc, ← List.replicate_add, List.map_cons, CarriedTime.turns, ← hleft]
    rfl

theorem dispatch_autoPlayStart {E : TuiEnvironment ω ν} {v : ω} {start : TuiCommand}
    (hkind : start.kind = .autoPlayStart) (haccepted : (c.dispatch E v start).1 = .ok ()) :
    (c.dispatch E v start).2.2 = v ∧ (c.dispatch E v start).2.1.accumulatedMs = 0 ∧
      (c.dispatch E v start).2.1.Plays (playbackConfigFromCommand start) := by
  by_cases hstep : start.step = 0
  · have hvalid : validateCommand start = .error .invalidArgument := by
      simp [validateCommand, hkind, commandRequiresStep, hstep]
    simp [dispatch, hvalid] at haccepted
  by_cases hinterval : start.intervalMs = 0
  · have hvalid : validateCommand start = .error .invalidArgument := by
      simp [validateCommand, hkind, commandRequiresInterval, hstep, hinterval]
    simp [dispatch, hvalid] at haccepted
  have hvalid : validateCommand start = .ok () := by
    simp [validateCommand, hstep, hinterval]
  have hconfig : validatePlaybackConfig (playbackConfigFromCommand start) = .ok () := by
    simp [validatePlaybackConfig, playbackConfigFromCommand, hstep, hinterval]
  have hpos : 0 < start.intervalMs.toNat := by
    apply Nat.pos_of_ne_zero
    intro hzero
    exact hinterval (UInt32.toNat_inj.mp hzero)
  have heq : c.dispatch E v start = (.ok (), { c with
      playback := playbackConfigFromCommand start, accumulatedMs := 0, state := .playing }, v) := by
    simp only [dispatch, hvalid, hkind, hconfig]
  rw [heq]
  exact ⟨rfl, rfl, rfl, rfl, hpos, hstep⟩

/-- After an accepted start, when no call fails, the ticks are all the intervals in the elapsed time
exactly when no addition of elapsed time to the carried rest leaves 32 bits. -/
theorem autoplay_ticks_iff (E : TuiEnvironment ω ν) (c : TuiController ν) (v : ω)
    (start : TuiCommand) (hkind : start.kind = .autoPlayStart)
    (haccepted : (c.dispatch E v start).1 = .ok ()) (elapsed : List UInt32) :
    let s := (c.dispatch E.observed (v, {}) start).2
    let s' := (machine E.observed).run s (elapsed.map .advanceAutoplay)
    s'.2.2.failures = 0 →
      (∀ step ∈ s'.2.2.ticks, step = start.step) ∧
      (s'.2.2.ticks.length = (elapsed.map UInt32.toNat).sum / start.intervalMs.toNat ↔
        ∀ i (hi : i < elapsed.length),
          ((elapsed.take i).map UInt32.toNat).sum % start.intervalMs.toNat + elapsed[i].toNat <
            2 ^ 32) := by
  intro s s' hsuccess
  have hobserved : (c.dispatch E.observed (v, {}) start).1 = .ok () :=
    (congrArg Prod.fst (dispatch_observed c (v, {}) start)).trans haccepted
  obtain ⟨hworld, hzero, hplays⟩ := dispatch_autoPlayStart hkind hobserved
  have hnone : s'.2.2.failures = s.2.2.failures := by
    rw [hsuccess, hworld]
  have hticks := run_autoplay elapsed s hplays hnone
  rw [hworld, hzero, List.nil_append] at hticks
  have hlt : start.intervalMs.toNat < 2 ^ 32 := start.intervalMs.toNat_lt
  have hcount := CarriedTime.turns_eq_iff hplays.interval_pos hlt.le hplays.interval_pos
    (elapsed.map UInt32.toNat)
  have hfits := CarriedTime.fits_iff (2 ^ 32) hplays.interval_pos (elapsed.map UInt32.toNat)
  simp only [Nat.zero_add, List.length_map, List.getElem_map, ← List.map_take] at hcount hfits
  have hlength : s'.2.2.ticks.length = CarriedTime.turns (2 ^ 32) start.intervalMs.toNat 0
      (elapsed.map UInt32.toNat) := by
    rw [hticks, List.length_replicate]
    rfl
  refine ⟨fun step hstep => ?_, ?_⟩
  · rw [hticks] at hstep
    exact List.eq_of_mem_replicate hstep
  · rw [hlength]
    exact hcount.trans hfits

theorem autoplay_ticks_three :
    let start : TuiCommand := { kind := .autoPlayStart, intervalMs := 50 }
    let s := ((create tickCounter 0 8).1.dispatch tickCounter.observed (0, {}) start).2
    let s' := (machine tickCounter.observed).run s ([49, 1, 120].map .advanceAutoplay)
    s'.2.2.ticks = [1, 1, 1] ∧ ∀ step ∈ s'.2.2.ticks, step = 1 :=
  ⟨rfl, (autoplay_ticks_iff tickCounter (create tickCounter 0 8).1 0
    { kind := .autoPlayStart, intervalMs := 50 } rfl rfl [49, 1, 120] rfl).1⟩

/-- One carried millisecond and the greatest amount make zero. -/
theorem autoplay_loses_time :
    let start : TuiCommand := { kind := .autoPlayStart, intervalMs := 2 }
    let s := ((create tickCounter 0 8).1.dispatch tickCounter.observed (0, {}) start).2
    let s' := (machine tickCounter.observed).run s ([1, 0xFFFFFFFF].map .advanceAutoplay)
    s'.2.2.failures = 0 ∧ s'.2.2.ticks.length ≠
      ([1, 0xFFFFFFFF].map UInt32.toNat).sum / start.intervalMs.toNat := by
  refine ⟨rfl, ?_⟩
  have hdue : ([1, 0xFFFFFFFF].map UInt32.toNat).sum / (2 : UInt32).toNat = 2 ^ 31 := by simp
  rw [hdue]
  exact (by decide : 0 ≠ 2 ^ 31)

end TuiController
end Contur
