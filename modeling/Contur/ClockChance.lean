import Contur.Replacement
import Contur.SecondChance
import Contur.Transition

/-!
# The clock policy gives second chances

The loop of `selectVictim` has no bound in the source. It is described here by its
finite runs: a run ends at a frame whose reference bit is clear, and it goes on
behind a frame whose bit it clears. Each turn of the loop clears a bit that was set,
so there is always such a run, and it is the one that the policy computes. What it
does is a second chance on the ring of frames, where frames that were loaded several
times share one bit.
-/

namespace Contur
open Transition
open SecondChance

namespace ClockState
variable {s s' : ClockState} {r r' : FrameId × ClockState}

def reset (_ : ClockState) : ClockState := ⟨[], [], 0⟩

/-- The loop returns. A read outside the ring would have no rule. -/
inductive Scans : ClockState → FrameId × ClockState → Prop where
  | evict {s : ClockState} {current : FrameId} (hcurrent : s.frames[s.hand]? = some current)
      (hbit : current ∉ s.refBits) :
      Scans s (current, { s with
        frames := s.frames.eraseIdx s.hand
        hand := if (s.frames.eraseIdx s.hand).isEmpty then 0
          else s.hand % (s.frames.eraseIdx s.hand).length })
  | pass {s : ClockState} {current : FrameId} {r : FrameId × ClockState}
      (hcurrent : s.frames[s.hand]? = some current) (hbit : current ∈ s.refBits)
      (hrest : Scans { s with
        refBits := s.refBits.erase current
        hand := (s.hand + 1) % s.frames.length } r) : Scans s r

theorem Scans.unique (h : Scans s r) (h' : Scans s r') : r = r' := by
  induction h with
  | evict hcurrent hbit =>
    cases h' with
    | evict hcurrent' _ =>
      obtain rfl := Option.some.inj (hcurrent.symm.trans hcurrent')
      rfl
    | pass hcurrent' hbit' _ =>
      obtain rfl := Option.some.inj (hcurrent.symm.trans hcurrent')
      exact (hbit hbit').elim
  | pass hcurrent hbit _ ih =>
    cases h' with
    | evict hcurrent' hbit' =>
      obtain rfl := Option.some.inj (hcurrent.symm.trans hcurrent')
      exact (hbit' hbit).elim
    | pass hcurrent' _ hrest' =>
      obtain rfl := Option.some.inj (hcurrent.symm.trans hcurrent')
      exact ih hrest'

theorem scans_scan {fuel : ℕ} (hfuel : s.refBits.length < fuel) (hhand : s.hand < s.frames.length) :
    Scans s (scan fuel s) := by
  induction fuel generalizing s with
  | zero => exact (Nat.not_lt_zero _ hfuel).elim
  | succ fuel ih =>
    have hcurrent := List.getElem?_eq_getElem hhand
    by_cases hbit : s.frames[s.hand] ∈ s.refBits
    · simp only [scan, hcurrent, if_pos hbit]
      -- the turn clears a bit, which pays for its fuel
      refine .pass hcurrent hbit (ih ?_ (Nat.mod_lt _ (Nat.zero_lt_of_lt hhand)))
      have hlen := List.length_erase_of_mem hbit
      have hpos := List.length_pos_of_mem hbit
      change (s.refBits.erase s.frames[s.hand]).length < fuel
      omega
    · simp only [scan, hcurrent, if_neg hbit]
      exact .evict hcurrent hbit

/-- The victim is chosen after `n` steps of the hand. The frames that were passed over lose their
bits, and the entry of the victim leaves the ring. -/
structure Evicts (s : ClockState) (n : ℕ) (victim : FrameId) (s' : ClockState) : Prop where
  chosen : Chosen s.frames {f | f ∈ s.refBits} s.hand n victim
  refBits : ∀ f, f ∈ s'.refBits ↔ f ∈ s.refBits ∧ ∀ j < n, ¬ Met s.frames s.hand j f
  frames : s'.frames = s.frames.eraseIdx ((s.hand + n) % s.frames.length)
  hand : s'.hand = if s'.frames.isEmpty then 0
    else (s.hand + n) % s.frames.length % s'.frames.length

structure Valid (s : ClockState) : Prop where
  hand : s.frames ≠ [] → s.hand < s.frames.length
  hand_nil : s.frames = [] → s.hand = 0
  bits : s.refBits.Nodup

theorem Valid.hand_lt (h : s.Valid) {f : FrameId} (hf : s.frames[s.hand]? = some f) :
    s.hand < s.frames.length := h.hand (List.ne_nil_of_mem (List.mem_of_getElem? hf))

theorem Valid.pass (h : s.Valid) {current : FrameId} (hcurrent : s.frames[s.hand]? = some current) :
    ({ s with
      refBits := s.refBits.erase current
      hand := (s.hand + 1) % s.frames.length } : ClockState).Valid := by
  have hhand := h.hand_lt hcurrent
  refine ⟨fun _ => Nat.mod_lt _ (Nat.zero_lt_of_lt hhand), fun hnil => ?_, h.bits.erase current⟩
  rw [show s.frames = [] from hnil] at hhand
  cases hhand

theorem Scans.evicts (h : Scans s r) (hs : s.Valid) :
    r.2.refBits.Nodup ∧ ∃ n, s.Evicts n r.1 r.2 := by
  induction h with
  | @evict s current hcurrent hbit =>
    have hhand := hs.hand_lt hcurrent
    have hplace : (s.hand + 0) % s.frames.length = s.hand := Nat.mod_eq_of_lt hhand
    refine ⟨hs.bits, 0, chosen_here ((met_zero_iff hhand).mpr hcurrent) hbit, fun f => ?_, ?_, ?_⟩
    · simp
    · rw [hplace]
    · rw [hplace]
  | @pass s current r hcurrent hbit _ ih =>
    -- the rest of the scan starts one step further, on the bits without this one
    have hhand := hs.hand_lt hcurrent
    have hmet : Met s.frames s.hand 0 current := (met_zero_iff hhand).mpr hcurrent
    have hmarks : {f | f ∈ s.refBits.erase current} = {f | f ∈ s.refBits} \ {current} := by
      ext f
      exact hs.bits.mem_erase_iff.trans And.comm
    have hplace : ∀ n, ((s.hand + 1) % s.frames.length + n) % s.frames.length =
        (s.hand + (n + 1)) % s.frames.length := by
      intro n
      rw [Nat.mod_add_mod, Nat.add_assoc, Nat.add_comm 1]
    obtain ⟨hbits, n, hchosen, hrefBits, hframes, hnext⟩ := ih (hs.pass hcurrent)
    simp only [hmarks, hplace] at hchosen hframes hnext
    refine ⟨hbits, n + 1, hchosen.pass hmet hbit, fun f => ?_, hframes, hnext⟩
    rw [hrefBits f]
    have hsucc : Marked s.frames ({f | f ∈ s.refBits} \ {current})
        ((s.hand + 1) % s.frames.length) n f ↔
          Marked s.frames {f | f ∈ s.refBits} s.hand (n + 1) f := marked_succ_iff hmet
    rw [← hmarks] at hsucc
    exact hsucc

theorem Evicts.valid {n : ℕ} {victim : FrameId} (h : s.Evicts n victim s')
    (hbits : s'.refBits.Nodup) : s'.Valid := by
  refine ⟨fun hne => ?_, fun hnil => ?_, hbits⟩
  · rw [h.hand, if_neg (by simpa using hne)]
    exact Nat.mod_lt _ (List.length_pos_of_ne_nil hne)
  · rw [h.hand, hnil]
    rfl

inductive Call where
  | onLoad (frame : FrameId)
  | onAccess (frame : FrameId)
  | selectVictim (table : PageTable)
  | reset

def exec (s : ClockState) : Call → Option FrameId × ClockState
  | .onLoad f => (none, clockReplacement.onLoad s f)
  | .onAccess f => (none, clockReplacement.onAccess s f)
  | .selectVictim t => ((clockReplacement.selectVictim s t).1 |> some,
      (clockReplacement.selectVictim s t).2)
  | .reset => (none, s.reset)

def machine : Machine ClockState Call (Option FrameId) := ⟨exec⟩

theorem selectVictim_of_nil (hnil : s.frames = []) : s.selectVictim = (invalidFrame, s) := by
  simp [selectVictim, hnil]

theorem scans_selectVictim (hs : s.Valid) (hne : s.frames ≠ []) : Scans s s.selectVictim := by
  have hscan := scans_scan (Nat.lt_succ_self s.refBits.length) (hs.hand hne)
  rwa [selectVictim, if_neg (by simpa using hne)]

theorem valid_init : Valid clockReplacement.init :=
  ⟨fun hne => (hne rfl).elim, fun _ => rfl, List.nodup_nil⟩

theorem Valid.exec (h : s.Valid) (call : Call) : (s.exec call).2.Valid := by
  cases call with
  | onLoad f =>
    refine ⟨fun _ => ?_, fun hnil => (List.append_ne_nil_of_right_ne_nil _ (by simp) hnil).elim,
      h.bits.insert⟩
    change s.hand < (s.frames ++ [f]).length
    rw [List.length_append]
    by_cases hnil : s.frames = []
    · rw [h.hand_nil hnil]
      exact Nat.succ_pos _
    · exact (h.hand hnil).trans (Nat.lt_succ_self _)
  | onAccess f => exact ⟨h.hand, h.hand_nil, h.bits.insert⟩
  | selectVictim t =>
    change s.selectVictim.2.Valid
    by_cases hnil : s.frames = []
    · rwa [selectVictim_of_nil hnil]
    · obtain ⟨hbits, n, hevicts⟩ := (scans_selectVictim h hnil).evicts h
      exact hevicts.valid hbits
  | reset => exact valid_init

theorem reachable_valid (calls : List Call) : Valid (machine.run clockReplacement.init calls) :=
  machine.run_invariant (P := Valid) (fun _ call hs => hs.exec call) valid_init calls

/-- After any calls the hand points into the ring, the loop returns, and what it does is a second
chance from the place of the hand; with all bits set and no frame twice the victim is the frame
under the hand. -/
theorem selectVictim_second_chance (calls : List Call) :
    let s : ClockState := machine.run clockReplacement.init calls
    (s.frames ≠ [] → s.hand < s.frames.length) ∧
      (s.frames = [] → s.selectVictim = (invalidFrame, s)) ∧
      (s.frames ≠ [] → (∀ r, Scans s r ↔ r = s.selectVictim) ∧
        (∃ n, s.Evicts n s.selectVictim.1 s.selectVictim.2) ∧
        ((∀ f ∈ s.frames, f ∈ s.refBits) → s.frames.Nodup →
          s.frames[s.hand]? = some s.selectVictim.1)) := by
  intro s
  have hs : s.Valid := reachable_valid calls
  refine ⟨hs.hand, selectVictim_of_nil, fun hne => ?_⟩
  have hscans := scans_selectVictim hs hne
  obtain ⟨-, n, hevicts⟩ := hscans.evicts hs
  refine ⟨fun r => ?_, ⟨n, hevicts⟩, fun hall hnodup => ?_⟩
  · constructor
    · exact fun h => h.unique hscans
    · rintro rfl
      exact hscans
  · exact (met_zero_iff (hs.hand hne)).mp (hevicts.chosen.of_all_marked hall hnodup).2

/-- The frame that was accessed is passed over, and the one behind it is evicted. -/
example (t : PageTable) :
    (clockReplacement.selectVictim (machine.run clockReplacement.init
      [.onLoad 1, .onLoad 2, .onLoad 3, .selectVictim t, .onAccess 2]) t).1 = 3 := rfl

end ClockState
end Contur
