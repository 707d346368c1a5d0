import Mathlib.Data.List.Basic
import Mathlib.Order.Lattice

/-!
# The first extremal element of a list

`minElement` and `maxElement` scan a list from the left with a strict
comparison, and keep the earlier element on a tie.
-/

namespace Extremum
variable {α : Type*}

def minElement (less : α → α → Bool) : List α → Option α
  | [] => none
  | x :: xs => some (xs.foldl (fun best y => if less y best then y else best) x)

def maxElement (less : α → α → Bool) : List α → Option α
  | [] => none
  | x :: xs => some (xs.foldl (fun best y => if less best y then y else best) x)

theorem foldl_choice_mem (pick : α → α → Bool) (xs : List α) (x : α) :
    xs.foldl (fun best y => if pick best y then y else best) x ∈ x :: xs := by
  induction xs generalizing x with
  | nil => exact List.mem_cons_self
  | cons y ys ih =>
    rw [List.foldl_cons]
    split_ifs
    · exact List.mem_cons_of_mem _ (ih y)
    · rcases List.mem_cons.mp (ih x) with h | h
      · rw [h]
        exact List.mem_cons_self
      · exact List.mem_cons_of_mem _ (List.mem_cons_of_mem _ h)

theorem minElement_mem {less : α → α → Bool} {xs : List α} {a : α}
    (h : minElement less xs = some a) : a ∈ xs := by
  cases xs with
  | nil => cases h
  | cons x xs =>
    obtain rfl := Option.some.inj h
    exact foldl_choice_mem (fun best y => less y best) xs x

theorem maxElement_mem {less : α → α → Bool} {xs : List α} {a : α}
    (h : maxElement less xs = some a) : a ∈ xs := by
  cases xs with
  | nil => cases h
  | cons x xs =>
    obtain rfl := Option.some.inj h
    exact foldl_choice_mem less xs x

theorem foldl_min_le {κ : Type*} [LinearOrder κ] (key : α → κ) (xs : List α) (x : α) :
    ∀ b ∈ x :: xs,
      key (xs.foldl (fun best y => if decide (key y < key best) then y else best) x) ≤ key b := by
  induction xs generalizing x with
  | nil =>
    intro b hb
    rw [List.mem_singleton.mp hb]
    exact le_rfl
  | cons y ys ih =>
    intro b hb
    rw [List.foldl_cons]
    by_cases hlt : key y < key x
    · rw [if_pos (decide_eq_true hlt)]
      rcases List.mem_cons.mp hb with rfl | hb
      · exact le_trans (ih y y List.mem_cons_self) (le_of_lt hlt)
      · exact ih y b hb
    · rw [if_neg (by simpa using hlt)]
      rcases List.mem_cons.mp hb with rfl | hb
      · exact ih b b List.mem_cons_self
      · rcases List.mem_cons.mp hb with rfl | hb
        · exact le_trans (ih x x List.mem_cons_self) (not_lt.mp hlt)
        · exact ih x b (List.mem_cons_of_mem _ hb)

theorem minElement_le {κ : Type*} [LinearOrder κ] (key : α → κ) {xs : List α} {a b : α}
    (h : minElement (fun x y => decide (key x < key y)) xs = some a) (hb : b ∈ xs) :
    key a ≤ key b := by
  cases xs with
  | nil => cases h
  | cons x xs =>
    obtain rfl := Option.some.inj h
    exact foldl_min_le key xs x b hb

theorem maxElement_eq_minElement (less : α → α → Bool) (xs : List α) :
    maxElement less xs = minElement (fun x y => less y x) xs := by
  cases xs <;> rfl

theorem exists_minElement (less : α → α → Bool) {xs : List α} (h : xs ≠ []) :
    ∃ a, minElement less xs = some a := by
  cases xs with
  | nil => exact (h rfl).elim
  | cons x xs => exact ⟨_, rfl⟩

theorem exists_maxElement (less : α → α → Bool) {xs : List α} (h : xs ≠ []) :
    ∃ a, maxElement less xs = some a := by
  cases xs with
  | nil => exact (h rfl).elim
  | cons x xs => exact ⟨_, rfl⟩

end Extremum
