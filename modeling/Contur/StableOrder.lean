import Mathlib.Data.List.TakeWhile
import Mathlib.Order.Lattice

/-!
# Queues in stable order

A queue holds the items of a list that is kept in the order of arrival. It is arranged
by a key: greater keys come first, and items of equal keys in the order of their
arrival. An item that arrives is put before the first item with a smaller key; the
front of an arranged queue is the item that arrived first among those with the
greatest key.
-/

namespace StableOrder

variable {α κ : Type*} [LinearOrder κ] {key : α → κ} {queue pending : List α} {a : α}

def insert (key : α → κ) (a : α) (queue : List α) : List α :=
  queue.insertIdx (queue.findIdx fun b => key a > key b) a

structure Arranged (key : α → κ) (pending queue : List α) : Prop where
  perm : queue.Perm pending
  sorted : queue.Pairwise fun a b => key b ≤ key a
  stable : ∀ k, queue.filter (fun a => key a = k) = pending.filter fun a => key a = k

def earliestGreatest (key : α → κ) (pending : List α) : Option α :=
  pending.find? fun a => pending.all fun b => key b ≤ key a

theorem arranged_nil : Arranged key [] [] := ⟨.refl _, .nil, fun _ => rfl⟩

theorem insert_eq (key : α → κ) (a : α) (queue : List α) :
    insert key a queue = queue.takeWhile (fun b => key a ≤ key b) ++
      a :: queue.dropWhile fun b => key a ≤ key b := by
  unfold insert
  induction queue with
  | nil => rfl
  | cons b queue ih =>
    by_cases h : key a ≤ key b
    · have hnot : ¬ key a > key b := not_lt.mpr h
      simp only [List.findIdx_cons, hnot, decide_false, cond_false, List.insertIdx_succ_cons, ih, h,
        decide_true, List.takeWhile_cons_of_pos, List.dropWhile_cons_of_pos, List.cons_append]
    · have hgt : key a > key b := not_le.mp h
      simp [List.findIdx_cons, hgt, h]

theorem insert_of_le (h : ∀ b ∈ queue, key a ≤ key b) : insert key a queue = queue ++ [a] := by
  have htake : queue.takeWhile (fun b => key a ≤ key b) = queue :=
    List.takeWhile_eq_self_iff.mpr fun b hb => decide_eq_true (h b hb)
  have hdrop : queue.dropWhile (fun b => key a ≤ key b) = [] :=
    List.dropWhile_eq_nil_iff.mpr fun b hb => decide_eq_true (h b hb)
  rw [insert_eq, htake, hdrop]

theorem key_lt_of_mem_dropWhile (h : queue.Pairwise fun a b => key b ≤ key a) {b : α}
    (hb : b ∈ queue.dropWhile fun b => key a ≤ key b) : key b < key a := by
  induction queue with
  | nil => simp at hb
  | cons first queue ih =>
    obtain ⟨hfirst, hrest⟩ := List.pairwise_cons.mp h
    by_cases hle : key a ≤ key first
    · rw [List.dropWhile_cons_of_pos (by simpa using hle)] at hb
      exact ih hrest hb
    · rw [List.dropWhile_cons_of_neg (by simpa using hle)] at hb
      rcases List.mem_cons.mp hb with rfl | hb
      · exact not_le.mp hle
      · exact lt_of_le_of_lt (hfirst b hb) (not_le.mp hle)

theorem Arranged.insert (h : Arranged key pending queue) (a : α) :
    Arranged key (pending ++ [a]) (insert key a queue) := by
  have hsplit : queue.takeWhile (fun b => key a ≤ key b) ++
    queue.dropWhile (fun b => key a ≤ key b) =
      queue := List.takeWhile_append_dropWhile
  have hbehind : ∀ b ∈ queue.dropWhile fun b => key a ≤ key b, key b < key a := fun b hb =>
    key_lt_of_mem_dropWhile h.sorted hb
  have hahead : ∀ b ∈ queue.takeWhile fun b => key a ≤ key b, key a ≤ key b := fun b hb => by
    simpa using List.mem_takeWhile_imp hb
  rw [insert_eq]
  refine ⟨?_, ?_, fun k => ?_⟩
  · refine List.perm_middle.trans ?_
    rw [hsplit]
    exact (h.perm.cons a).trans (List.perm_append_singleton a pending).symm
  · have hsorted := h.sorted
    rw [← hsplit, List.pairwise_append] at hsorted
    obtain ⟨hfront, hback, hacross⟩ := hsorted
    rw [List.pairwise_append, List.pairwise_cons]
    refine ⟨hfront, ⟨fun b hb => le_of_lt (hbehind b hb), hback⟩, fun b hb c hc => ?_⟩
    rcases List.mem_cons.mp hc with rfl | hc
    · exact hahead b hb
    · exact hacross b hb c hc
  · have hstable := h.stable k
    rw [← hsplit, List.filter_append] at hstable
    rw [List.filter_append, List.filter_append, ← hstable, List.filter_cons]
    split_ifs with hk
    · -- no item behind the new one has its key
      have hnone : (queue.dropWhile fun b => key a ≤ key b).filter (fun b => key b = k) = [] := by
        rw [List.filter_eq_nil_iff]
        intro b hb hkb
        have hlt := hbehind b hb
        rw [of_decide_eq_true hk, of_decide_eq_true hkb] at hlt
        exact lt_irrefl k hlt
      simp only [hnone, List.append_nil, List.filter_cons, hk, ↓reduceIte, List.filter_nil]
    · simp [hk]

variable [DecidableEq α]

theorem Arranged.front (h : Arranged key pending (a :: queue)) :
    earliestGreatest key pending = some a ∧ Arranged key (pending.erase a) queue := by
  obtain ⟨hfirst, hrest⟩ := List.pairwise_cons.mp h.sorted
  have hmem : a ∈ pending := h.perm.mem_iff.mp List.mem_cons_self
  have hgreatest : ∀ b ∈ pending, key b ≤ key a := by
    intro b hb
    rcases List.mem_cons.mp (h.perm.mem_iff.mpr hb) with rfl | hb
    · exact le_rfl
    · exact hfirst b hb
  refine ⟨?_, ?_, hrest, fun k => ?_⟩
  · have hsame : pending.filter (fun b => pending.all fun c => key c ≤ key b) =
        pending.filter fun b => key b = key a := by
      refine List.filter_congr fun b hb => ?_
      rw [Bool.eq_iff_iff, List.all_eq_true, decide_eq_true_iff]
      refine ⟨fun hall => ?_, fun heq c hc => ?_⟩
      · exact le_antisymm (hgreatest b hb) (of_decide_eq_true (hall a hmem))
      · rw [decide_eq_true_iff, heq]
        exact hgreatest c hc
    rw [earliestGreatest, ← List.head?_filter, hsame, ← h.stable, List.filter_cons]
    simp
  · have herase := h.perm.erase a
    rwa [List.erase_cons_head] at herase
  · rw [← List.erase_filter, ← h.stable k, List.filter_cons]
    split_ifs with hk
    · rw [List.erase_cons_head]
    · rw [List.erase_of_not_mem]
      intro hmem'
      exact hk (List.mem_filter.mp hmem').2

end StableOrder
