import Mathlib.Data.List.Nodup
import Mathlib.Logic.Function.Basic

/-!
# Items that several workers work off

A board says of every item whether it is free, in the hand of a worker, done by the
worker that still has to record it, or recorded. It keeps the items in the order in
which they were done and in which they were recorded; that no item is on a list
twice is part of the board. A worker has at most one item in its hand.
-/

namespace WorkBoard
open Function (update)

inductive Status (ω : Type*) where
  | free
  | taken (worker : ω)
  | done (worker : ω)
  | recorded

structure Board (α ω : Type*) where
  status : α → Status ω
  doneItems : List α
  recordedItems : List α
  doneItems_nodup : doneItems.Nodup
  recordedItems_nodup : recordedItems.Nodup
  mem_doneItems : ∀ i, i ∈ doneItems ↔ (∃ w, status i = .done w) ∨ status i = .recorded
  mem_recordedItems : ∀ i, i ∈ recordedItems ↔ status i = .recorded

inductive Hand (α : Type*) where
  | empty
  | has (item : α)
  | did (item : α)

namespace Board
variable {α ω : Type*}

def fresh (α ω : Type*) : Board α ω where
  status _ := .free
  doneItems := []
  recordedItems := []
  doneItems_nodup := List.nodup_nil
  recordedItems_nodup := List.nodup_nil
  mem_doneItems _ := by simp
  mem_recordedItems _ := by simp

section Moves
variable [DecidableEq α] {i j : α} {w : ω}

def take (b : Board α ω) (i : α) (w : ω) (h : b.status i = .free) : Board α ω where
  status := update b.status i (.taken w)
  doneItems := b.doneItems
  recordedItems := b.recordedItems
  doneItems_nodup := b.doneItems_nodup
  recordedItems_nodup := b.recordedItems_nodup
  mem_doneItems j := by
    rw [b.mem_doneItems]
    by_cases hj : j = i
    · simp [hj, h]
    · simp [hj]
  mem_recordedItems j := by
    rw [b.mem_recordedItems]
    by_cases hj : j = i
    · simp [hj, h]
    · simp [hj]

def finish (b : Board α ω) (i : α) (w : ω) (h : b.status i = .taken w) : Board α ω where
  status := update b.status i (.done w)
  doneItems := b.doneItems ++ [i]
  recordedItems := b.recordedItems
  doneItems_nodup := by
    have hnew : i ∉ b.doneItems := by simp [b.mem_doneItems, h]
    simpa using b.doneItems_nodup.concat hnew
  recordedItems_nodup := b.recordedItems_nodup
  mem_doneItems j := by
    rw [List.mem_append, b.mem_doneItems]
    by_cases hj : j = i
    · simp [hj]
    · simp [hj]
  mem_recordedItems j := by
    rw [b.mem_recordedItems]
    by_cases hj : j = i
    · simp [hj, h]
    · simp [hj]

def record (b : Board α ω) (i : α) (w : ω) (h : b.status i = .done w) : Board α ω where
  status := update b.status i .recorded
  doneItems := b.doneItems
  recordedItems := b.recordedItems ++ [i]
  doneItems_nodup := b.doneItems_nodup
  recordedItems_nodup := by
    have hnew : i ∉ b.recordedItems := by simp [b.mem_recordedItems, h]
    simpa using b.recordedItems_nodup.concat hnew
  mem_doneItems j := by
    rw [b.mem_doneItems]
    by_cases hj : j = i
    · simp [hj, h]
    · simp [hj]
  mem_recordedItems j := by
    rw [List.mem_append, b.mem_recordedItems]
    by_cases hj : j = i
    · simp [hj]
    · simp [hj]

end Moves

structure Held (b : Board α ω) (hand : ω → Hand α) : Prop where
  taken : ∀ i w, b.status i = .taken w ↔ hand w = .has i
  done : ∀ i w, b.status i = .done w ↔ hand w = .did i

theorem held_fresh {hand : ω → Hand α} (h : ∀ w, hand w = .empty) : (fresh α ω).Held hand :=
  ⟨fun _ w => by simp [fresh, h w], fun _ w => by simp [fresh, h w]⟩

section HeldMoves
variable [DecidableEq ω] {b : Board α ω} {hand : ω → Hand α} {i : α} {w : ω}

theorem Held.keep (h : b.Held hand) (hw : hand w = .empty) : b.Held (update hand w .empty) := by
  rw [← hw, Function.update_eq_self]
  exact h

variable [DecidableEq α]

theorem Held.take (h : b.Held hand) (hw : hand w = .empty) (hi : b.status i = .free) :
    (b.take i w hi).Held (update hand w (.has i)) := by
  refine ⟨fun j v => ?_, fun j v => ?_⟩
  · have hold := h.taken j v
    simp only [Board.take, Function.update_apply]
    split_ifs with hj hv hv <;> grind
  · have hold := h.done j v
    simp only [Board.take, Function.update_apply]
    split_ifs with hj hv hv <;> grind

theorem Held.finish (h : b.Held hand) (hi : b.status i = .taken w) :
    (b.finish i w hi).Held (update hand w (.did i)) := by
  have hw := (h.taken i w).mp hi
  refine ⟨fun j v => ?_, fun j v => ?_⟩
  · have hold := h.taken j v
    simp only [Board.finish, Function.update_apply]
    split_ifs with hj hv hv <;> grind
  · have hold := h.done j v
    simp only [Board.finish, Function.update_apply]
    split_ifs with hj hv hv <;> grind

theorem Held.record (h : b.Held hand) (hi : b.status i = .done w) :
    (b.record i w hi).Held (update hand w .empty) := by
  have hw := (h.done i w).mp hi
  refine ⟨fun j v => ?_, fun j v => ?_⟩
  · have hold := h.taken j v
    simp only [Board.record, Function.update_apply]
    split_ifs with hj hv hv <;> grind
  · have hold := h.done j v
    simp only [Board.record, Function.update_apply]
    split_ifs with hj hv hv <;> grind

end HeldMoves

theorem Held.recorded {b : Board α ω} {hand : ω → Hand α} (h : b.Held hand)
    (hempty : ∀ w, hand w = .empty) {i : α} (hi : b.status i ≠ .free) : b.status i = .recorded := by
  cases hs : b.status i with
  | free => exact absurd hs hi
  | taken w =>
    have := (h.taken i w).mp hs
    rw [hempty w] at this
    cases this
  | done w =>
    have := (h.done i w).mp hs
    rw [hempty w] at this
    cases this
  | recorded => rfl

/-- When the recorded items are the ones of a list, each of it has been done once and recorded
once. -/
theorem perm_of_recorded {b : Board α ω} {l : List α} (hl : l.Nodup)
    (h : ∀ i, i ∈ l ↔ b.status i = .recorded) (hdone : ∀ i w, b.status i ≠ .done w) :
    b.doneItems.Perm l ∧ b.recordedItems.Perm l := by
  constructor
  · rw [List.perm_ext_iff_of_nodup b.doneItems_nodup hl]
    intro i
    rw [b.mem_doneItems, h]
    exact or_iff_right fun ⟨w, hw⟩ => hdone i w hw
  · rw [List.perm_ext_iff_of_nodup b.recordedItems_nodup hl]
    intro i
    rw [b.mem_recordedItems, h]

end Board
end WorkBoard
