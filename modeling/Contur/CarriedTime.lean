import Mathlib.Algebra.GroupWithZero.Nat
import Mathlib.Algebra.Order.BigOperators.Group.List
import Mathlib.Tactic.Common

/-!
# Time carried in a counter of bounded width

A periodic timer adds each elapsed amount to a counter modulo `width`, issues a turn
for every period that the counter holds, and carries what is left. As long as no
addition wraps, the number of turns is the elapsed time divided by the period,
however it is cut into amounts. The first addition that wraps loses turns for good.
-/

namespace CarriedTime
variable {width period carried : ℕ}

def due (width period carried amount : ℕ) : ℕ := (carried + amount) % width / period

def left (width period carried amount : ℕ) : ℕ := (carried + amount) % width % period

def turns (width period : ℕ) : ℕ → List ℕ → ℕ
  | _, [] => 0
  | carried, amount :: amounts =>
    due width period carried amount + turns width period (left width period carried amount) amounts

def Fits (width period : ℕ) : ℕ → List ℕ → Prop
  | _, [] => True
  | carried, amount :: amounts =>
    carried + amount < width ∧ Fits width period ((carried + amount) % period) amounts

theorem left_lt (width : ℕ) (hperiod : 0 < period) (carried amount : ℕ) :
    left width period carried amount < period :=
  Nat.mod_lt _ hperiod

theorem left_of_lt (period : ℕ) {amount : ℕ} (hfits : carried + amount < width) :
    left width period carried amount = (carried + amount) % period := by
  rw [left, Nat.mod_eq_of_lt hfits]

theorem add_eq (width period carried amount : ℕ) : carried + amount =
    due width period carried amount * period + left width period carried amount +
      width * ((carried + amount) / width) := by
  have hwidth := Nat.mod_add_div (carried + amount) width
  have hperiod := Nat.div_add_mod' ((carried + amount) % width) period
  unfold due left
  omega

theorem turns_account (width : ℕ) (hperiod : 0 < period) (hcarried : carried < period)
    (amounts : List ℕ) :
    ∃ rest wraps, carried + amounts.sum = turns width period carried amounts * period + rest +
      width * wraps ∧ rest < period ∧
      (0 < width → (wraps = 0 ↔ Fits width period carried amounts)) := by
  induction amounts generalizing carried with
  | nil => exact ⟨carried, 0, by simp [turns], hcarried, fun _ => by simp [Fits]⟩
  | cons amount amounts ih =>
    obtain ⟨rest, wraps, hsum, hrest, hwraps⟩ :=
      ih (left_lt width hperiod carried amount)
    refine ⟨rest, (carried + amount) / width + wraps, ?_, hrest, fun hwidth => ?_⟩
    · have hfirst := add_eq width period carried amount
      rw [List.sum_cons, turns, Nat.add_mul, Nat.mul_add]
      omega
    · rw [Nat.add_eq_zero_iff, Nat.div_eq_zero_iff_lt hwidth, hwraps hwidth, Fits]
      constructor
      · rintro ⟨hfits, hrests⟩
        exact ⟨hfits, left_of_lt period hfits ▸ hrests⟩
      · rintro ⟨hfits, hrests⟩
        exact ⟨hfits, (left_of_lt period hfits).symm ▸ hrests⟩

theorem turns_eq_iff (hperiod : 0 < period) (hwidth : period ≤ width) (hcarried : carried < period)
    (amounts : List ℕ) :
    turns width period carried amounts = (carried + amounts.sum) / period ↔
      Fits width period carried amounts := by
  obtain ⟨rest, wraps, hsum, hrest, hwraps⟩ := turns_account width hperiod hcarried amounts
  rw [← hwraps (hperiod.trans_le hwidth)]
  constructor
  · intro heq
    have hdiv := Nat.lt_div_mul_add (a := carried + amounts.sum) hperiod
    rw [← heq] at hdiv
    by_contra hne
    have hwrap : width ≤ width * wraps := Nat.le_mul_of_pos_right width (Nat.pos_of_ne_zero hne)
    omega
  · intro hzero
    rw [hsum, hzero, Nat.mul_zero, Nat.add_zero, Nat.mul_comm, Nat.mul_add_div hperiod,
      Nat.div_eq_of_lt hrest, Nat.add_zero]

theorem fits_iff (width : ℕ) (hcarried : carried < period) (amounts : List ℕ) :
    Fits width period carried amounts ↔ ∀ i (hi : i < amounts.length),
      (carried + (amounts.take i).sum) % period + amounts[i] < width := by
  induction amounts generalizing carried with
  | nil => simp [Fits]
  | cons amount amounts ih =>
    have hnext : (carried + amount) % period < period :=
      Nat.mod_lt _ (Nat.zero_lt_of_lt hcarried)
    have htail (i : ℕ) : ((carried + amount) % period + (amounts.take i).sum) % period =
        (carried + ((amount :: amounts).take (i + 1)).sum) % period := by
      rw [Nat.mod_add_mod, List.take_succ_cons, List.sum_cons, Nat.add_assoc]
    rw [Fits, ih hnext]
    constructor
    · rintro ⟨hfirst, hrest⟩ i hi
      cases i with
      | zero => simpa [Nat.mod_eq_of_lt hcarried] using hfirst
      | succ i =>
        rw [← htail]
        exact hrest i (Nat.lt_of_succ_lt_succ hi)
    · intro hall
      refine ⟨?_, fun i hi => ?_⟩
      · simpa [Nat.mod_eq_of_lt hcarried] using hall 0 (Nat.succ_pos _)
      · rw [htail]
        exact hall (i + 1) (Nat.succ_lt_succ hi)

end CarriedTime
