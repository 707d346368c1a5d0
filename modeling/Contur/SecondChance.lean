import Mathlib.Data.Nat.ModEq
import Mathlib.Data.Set.Basic
import Mathlib.Data.List.Nodup
import Mathlib.Tactic.Common

/-!
# Second chance on a ring

A hand moves around a ring of items, some of which are marked. Each item that it
meets with its mark is passed over and loses the mark; the first one without a mark
is chosen. Equal items share one mark, so an item is also met without a mark when
an equal one was passed over before. The choice is described here by the number of
steps of the hand, with no reference to a loop.
-/

namespace SecondChance
variable {α : Type*} {ring : List α} {marks : Set α} {hand n m : ℕ} {a b c : α}

def Met (ring : List α) (hand n : ℕ) (a : α) : Prop := ring[(hand + n) % ring.length]? = some a

def Marked (ring : List α) (marks : Set α) (hand n : ℕ) (a : α) : Prop :=
  a ∈ marks ∧ ∀ j < n, ¬ Met ring hand j a

/-- The item is met after `n` steps, and it is the first one met without its mark. -/
structure Chosen (ring : List α) (marks : Set α) (hand n : ℕ) (a : α) : Prop where
  met : Met ring hand n a
  unmarked : ¬ Marked ring marks hand n a
  passed : ∀ i < n, ∀ b, Met ring hand i b → Marked ring marks hand i b

theorem Met.unique (ha : Met ring hand n a) (hb : Met ring hand n b) : a = b :=
  Option.some.inj (ha.symm.trans hb)

theorem Met.mem (h : Met ring hand n a) : a ∈ ring := List.mem_of_getElem? h

theorem Met.length_pos (h : Met ring hand n a) : 0 < ring.length := List.length_pos_of_mem h.mem

theorem exists_met (hpos : 0 < ring.length) (hand n : ℕ) : ∃ a, Met ring hand n a :=
  ⟨_, List.getElem?_eq_getElem (Nat.mod_lt _ hpos)⟩

theorem met_zero_iff (hhand : hand < ring.length) : Met ring hand 0 a ↔ ring[hand]? = some a := by
  rw [Met, Nat.add_zero, Nat.mod_eq_of_lt hhand]

theorem met_length_iff : Met ring hand ring.length a ↔ Met ring hand 0 a := by
  rw [Met, Met, Nat.add_zero, Nat.add_mod_right]

theorem met_succ_iff : Met ring ((hand + 1) % ring.length) n a ↔ Met ring hand (n + 1) a := by
  rw [Met, Met, Nat.mod_add_mod, Nat.add_assoc, Nat.add_comm 1]

theorem Met.index_eq (hnodup : ring.Nodup) (hn : Met ring hand n a) (hm : Met ring hand m a) :
    (hand + n) % ring.length = (hand + m) % ring.length := by
  have hlt := Nat.mod_lt (hand + n) hn.length_pos
  exact (List.getElem?_inj hlt hnodup).mp (Eq.trans hn hm.symm)

theorem Met.steps_eq (hnodup : ring.Nodup) (hn : Met ring hand n a) (hm : Met ring hand m a)
    (hnlt : n < ring.length) (hmlt : m < ring.length) : n = m := by
  have hmod := Nat.ModEq.add_left_cancel' hand (hn.index_eq hnodup hm)
  rwa [Nat.ModEq, Nat.mod_eq_of_lt hnlt, Nat.mod_eq_of_lt hmlt] at hmod

theorem Chosen.steps_le (h : Chosen ring marks hand n a) : n ≤ ring.length := by
  by_contra hlt
  obtain ⟨b, hb⟩ := exists_met h.met.length_pos hand ring.length
  have hmarked := h.passed ring.length (Nat.lt_of_not_le hlt) b hb
  exact hmarked.2 0 h.met.length_pos (met_length_iff.mp hb)

theorem Chosen.not_lt (h : Chosen ring marks hand n a) (h' : Chosen ring marks hand m b) :
    ¬ n < m := fun hlt => h.unmarked (h'.passed n hlt a h.met)

theorem Chosen.unique (h : Chosen ring marks hand n a) (h' : Chosen ring marks hand m b) :
    n = m ∧ a = b := by
  have hsteps : n = m := Nat.le_antisymm (Nat.not_lt.mp (h'.not_lt h)) (Nat.not_lt.mp (h.not_lt h'))
  subst m
  exact ⟨rfl, h.met.unique h'.met⟩

theorem Chosen.of_all_marked (h : Chosen ring marks hand n a) (hall : ∀ b ∈ ring, b ∈ marks)
    (hnodup : ring.Nodup) : n = ring.length ∧ Met ring hand 0 a := by
  have hturn : n = ring.length := by
    by_contra hne
    have hlt : n < ring.length := lt_of_le_of_ne h.steps_le hne
    apply h.unmarked
    refine ⟨hall a h.met.mem, fun j hj hmet => ?_⟩
    have hjn := hmet.steps_eq hnodup h.met (hj.trans hlt) hlt
    omega
  refine ⟨hturn, ?_⟩
  rw [← met_length_iff, ← hturn]
  exact h.met

theorem chosen_here (hmet : Met ring hand 0 a) (ha : a ∉ marks) : Chosen ring marks hand 0 a :=
  ⟨hmet, fun h => ha h.1, fun i hi => (Nat.not_lt_zero i hi).elim⟩

theorem marked_succ_iff (hmet : Met ring hand 0 c) :
    Marked ring (marks \ {c}) ((hand + 1) % ring.length) n a ↔
      Marked ring marks hand (n + 1) a := by
  constructor
  · rintro ⟨⟨ha, hac⟩, hrest⟩
    refine ⟨ha, fun j hj hja => ?_⟩
    cases j with
    | zero => exact hac (hja.unique hmet)
    | succ j => exact hrest j (Nat.lt_of_succ_lt_succ hj) (met_succ_iff.mpr hja)
  · rintro ⟨ha, hrest⟩
    refine ⟨⟨ha, fun hac => hrest 0 (Nat.succ_pos n) (hac ▸ hmet)⟩, fun j hj hja => ?_⟩
    exact hrest (j + 1) (Nat.succ_lt_succ hj) (met_succ_iff.mp hja)

theorem Chosen.pass (hmet : Met ring hand 0 c) (hc : c ∈ marks)
    (h : Chosen ring (marks \ {c}) ((hand + 1) % ring.length) n a) :
    Chosen ring marks hand (n + 1) a := by
  refine ⟨met_succ_iff.mp h.met, fun hmarked => h.unmarked ((marked_succ_iff hmet).mpr hmarked), ?_⟩
  intro i hi b hb
  cases i with
  | zero =>
    obtain rfl := hb.unique hmet
    exact ⟨hc, fun j hj => (Nat.not_lt_zero j hj).elim⟩
  | succ i =>
    exact (marked_succ_iff hmet).mp
      (h.passed i (Nat.lt_of_succ_lt_succ hi) b (met_succ_iff.mpr hb))

end SecondChance
