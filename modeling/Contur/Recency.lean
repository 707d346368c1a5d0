import Mathlib.Data.List.Induction
import Mathlib.Data.Set.Insert
import Mathlib.Tactic.Common

/-!
# The order of the last occurrences in a list

A list read as a history names an item each time something happens to it. Of two
items the one whose last occurrence stands further left was named last the longer
ago. Among the items of a set at most one is earliest in this order, and it depends
on the list only through the order of the items of the set.
-/

namespace Recency
variable {α : Type*} {l l' : List α} {S : Set α} {a b c : α}

def LastBefore (l : List α) (a b : α) : Prop := ∃ x y, l = x ++ a :: y ∧ a ∉ y ∧ b ∈ y

/-- The member of the set that was named last the longest ago. -/
def Earliest (l : List α) (S : Set α) (a : α) : Prop :=
  a ∈ S ∧ ∀ b ∈ S, b ≠ a → LastBefore l a b

theorem LastBefore.mem_left (h : LastBefore l a b) : a ∈ l := by
  obtain ⟨x, y, rfl, -, -⟩ := h
  exact List.mem_append_right _ List.mem_cons_self

theorem LastBefore.mem_right (h : LastBefore l a b) : b ∈ l := by
  obtain ⟨x, y, rfl, -, hb⟩ := h
  exact List.mem_append_right _ (List.mem_cons_of_mem _ hb)

theorem LastBefore.ne (h : LastBefore l a b) : a ≠ b := by
  obtain ⟨x, y, -, ha, hb⟩ := h
  rintro rfl
  exact ha hb

@[simp] theorem not_lastBefore_nil : ¬ LastBefore [] a b := fun h => by
  simpa using h.mem_left

theorem exists_last (h : a ∈ l) : ∃ x y, l = x ++ a :: y ∧ a ∉ y := by
  induction l with
  | nil => cases h
  | cons c l ih =>
    by_cases hl : a ∈ l
    · obtain ⟨x, y, rfl, hy⟩ := ih hl
      exact ⟨c :: x, y, rfl, hy⟩
    · obtain rfl : a = c := (List.mem_cons.mp h).resolve_right hl
      exact ⟨[], l, rfl, hl⟩

theorem concat_eq_append_cons {x y : List α} (h : l ++ [c] = x ++ a :: y) :
    (l = x ∧ c = a ∧ y = []) ∨ ∃ z, l = x ++ a :: z ∧ y = z ++ [c] := by
  rcases List.eq_nil_or_concat y with rfl | ⟨z, d, rfl⟩
  · left
    obtain ⟨hl, hc⟩ := List.append_inj' h rfl
    exact ⟨hl, List.singleton_inj.mp hc, rfl⟩
  · right
    have hlast : l ++ [c] = (x ++ a :: z) ++ [d] := by simpa using h
    obtain ⟨hl, hc⟩ := List.append_inj' hlast rfl
    exact ⟨z, hl, by rw [List.concat_eq_append, hc]⟩

theorem lastBefore_append_self : LastBefore (l ++ [c]) a c ↔ a ≠ c ∧ a ∈ l := by
  constructor
  · intro h
    have hne := h.ne
    refine ⟨hne, ?_⟩
    rcases List.mem_append.mp h.mem_left with hl | hl
    · exact hl
    · exact (hne (List.mem_singleton.mp hl)).elim
  · rintro ⟨hne, hl⟩
    obtain ⟨x, y, rfl, hy⟩ := exists_last hl
    refine ⟨x, y ++ [c], by simp, ?_, List.mem_append_right _ List.mem_cons_self⟩
    simp [hy, hne]

theorem lastBefore_append_of_ne (ha : a ≠ c) (hb : b ≠ c) :
    LastBefore (l ++ [c]) a b ↔ LastBefore l a b := by
  constructor
  · rintro ⟨x, y, heq, hay, hby⟩
    rcases concat_eq_append_cons heq with ⟨-, hca, -⟩ | ⟨z, rfl, rfl⟩
    · exact (ha hca.symm).elim
    · exact ⟨x, z, rfl, fun haz => hay (List.mem_append_left _ haz), by simpa [hb] using hby⟩
  · rintro ⟨x, y, rfl, hay, hby⟩
    exact ⟨x, y ++ [c], by simp, by simp [hay, ha], by simp [hby]⟩

theorem not_lastBefore_append_last : ¬ LastBefore (l ++ [c]) c b := by
  rintro ⟨x, y, heq, hcy, hby⟩
  rcases concat_eq_append_cons heq with ⟨-, -, rfl⟩ | ⟨z, -, rfl⟩
  · cases hby
  · exact hcy (List.mem_append_right _ List.mem_cons_self)

theorem lastBefore_cons_of_mem (ha : a ∈ l) : LastBefore (c :: l) a b ↔ LastBefore l a b := by
  constructor
  · rintro ⟨x, y, heq, hay, hby⟩
    cases x with
    | nil =>
      obtain ⟨rfl, rfl⟩ := List.cons.inj heq
      exact (hay ha).elim
    | cons d x =>
      obtain ⟨rfl, rfl⟩ := List.cons.inj heq
      exact ⟨x, y, rfl, hay, hby⟩
  · rintro ⟨x, y, rfl, hay, hby⟩
    exact ⟨c :: x, y, rfl, hay, hby⟩

theorem LastBefore.asymm (h : LastBefore l a b) : ¬ LastBefore l b a := by
  induction l using List.reverseRecOn with
  | nil => exact (not_lastBefore_nil h).elim
  | append_singleton l c ih =>
    intro hba
    have hac : a ≠ c := fun hac => not_lastBefore_append_last (hac ▸ h)
    have hbc : b ≠ c := fun hbc => not_lastBefore_append_last (hbc ▸ hba)
    exact ih ((lastBefore_append_of_ne hac hbc).mp h) ((lastBefore_append_of_ne hbc hac).mp hba)

theorem lastBefore_of_mem_left {x y : List α} (hb : b ∈ x) (hby : b ∉ y) (hne : b ≠ a) :
    LastBefore (x ++ a :: y) b a := by
  obtain ⟨u, v, rfl, hbv⟩ := exists_last hb
  exact ⟨u, v ++ a :: y, by simp, by simp [hbv, hby, hne], by simp⟩

theorem lastBefore_or (ha : a ∈ l) (hb : b ∈ l) (hne : a ≠ b) :
    LastBefore l a b ∨ LastBefore l b a := by
  obtain ⟨x, y, rfl, hay⟩ := exists_last ha
  by_cases hby : b ∈ y
  · exact Or.inl ⟨x, y, rfl, hay, hby⟩
  · have hbx : b ∈ x := by simpa [hne.symm, hby] using hb
    exact Or.inr (lastBefore_of_mem_left hbx hby hne.symm)

theorem lastBefore_iff_mem {x y : List α} (hay : a ∉ y) :
    LastBefore (x ++ a :: y) a b ↔ b ∈ y := by
  constructor
  · intro h
    by_contra hby
    have hbx : b ∈ x := by simpa [h.ne.symm, hby] using h.mem_right
    exact h.asymm (lastBefore_of_mem_left hbx hby h.ne.symm)
  · exact fun hby => ⟨x, y, rfl, hay, hby⟩

theorem Earliest.unique (ha : Earliest l S a) (hb : Earliest l S b) : a = b := by
  by_contra hne
  exact (ha.2 b hb.1 fun h => hne h.symm).asymm (hb.2 a ha.1 hne)

structure Agree (l l' : List α) (S : Set α) : Prop where
  left : ∀ a ∈ S, a ∈ l
  right : ∀ a ∈ S, a ∈ l'
  order : ∀ a ∈ S, ∀ b ∈ S, a ≠ b → (LastBefore l a b ↔ LastBefore l' a b)

namespace Agree

theorem empty (l l' : List α) : Agree l l' ∅ :=
  ⟨fun _ ha => ha.elim, fun _ ha => ha.elim, fun _ ha => ha.elim⟩

theorem mono (h : Agree l l' S) {T : Set α} (hT : T ⊆ S) : Agree l l' T :=
  ⟨fun a ha => h.left a (hT ha), fun a ha => h.right a (hT ha),
    fun a ha b hb => h.order a (hT ha) b (hT hb)⟩

theorem append (h : Agree l l' S) (c : α) : Agree (l ++ [c]) (l' ++ [c]) (insert c S) := by
  have hmem : ∀ {k : List α}, (∀ a ∈ S, a ∈ k) → ∀ a ∈ insert c S, a ∈ k ++ [c] := by
    rintro k hk a (rfl | ha)
    · exact List.mem_append_right _ List.mem_cons_self
    · exact List.mem_append_left _ (hk a ha)
  refine ⟨hmem h.left, hmem h.right, fun a ha b hb hne => ?_⟩
  by_cases hac : a = c
  · subst a
    exact iff_of_false not_lastBefore_append_last not_lastBefore_append_last
  have ha : a ∈ S := ha.resolve_left hac
  by_cases hbc : b = c
  · subst b
    rw [lastBefore_append_self, lastBefore_append_self]
    exact and_congr_right fun _ => iff_of_true (h.left a ha) (h.right a ha)
  · rw [lastBefore_append_of_ne hac hbc, lastBefore_append_of_ne hac hbc]
    exact h.order a ha b (hb.resolve_left hbc) hne

theorem append_left (h : Agree l l' S) (hc : c ∉ S) : Agree (l ++ [c]) l' S := by
  have hne : ∀ a ∈ S, a ≠ c := fun a ha hac => hc (hac ▸ ha)
  refine ⟨fun a ha => List.mem_append_left _ (h.left a ha), h.right, fun a ha b hb hab => ?_⟩
  rw [lastBefore_append_of_ne (hne a ha) (hne b hb)]
  exact h.order a ha b hb hab

theorem tail (h : Agree (c :: l) l' S) : Agree l l' (S \ {c}) := by
  have hmem : ∀ a ∈ S \ {c}, a ∈ l := fun a ha =>
    (List.mem_cons.mp (h.left a ha.1)).resolve_left ha.2
  refine ⟨hmem, fun a ha => h.right a ha.1, fun a ha b hb hne => ?_⟩
  rw [← lastBefore_cons_of_mem (c := c) (hmem a ha)]
  exact h.order a ha.1 b hb.1 hne

theorem earliest_iff (h : Agree l l' S) : Earliest l S a ↔ Earliest l' S a := by
  refine and_congr_right fun ha => forall_congr' fun b => imp_congr_right fun hb => ?_
  exact imp_congr_right fun hne => h.order a ha b hb hne.symm

end Agree

structure Stamped (stamp : α → Option ℕ) (l : List α) (S : Set α) : Prop where
  mem : ∀ a ∈ S, a ∈ l
  has_stamp : ∀ a ∈ S, ∃ n, stamp a = some n
  order : ∀ a ∈ S, ∀ b ∈ S, ∀ m n, stamp a = some m → stamp b = some n → a ≠ b →
    (m < n ↔ LastBefore l a b)

namespace Stamped
variable {stamp stamp' : α → Option ℕ} {n : ℕ}

theorem empty (stamp : α → Option ℕ) (l : List α) : Stamped stamp l ∅ :=
  ⟨fun _ ha => ha.elim, fun _ ha => ha.elim, fun _ ha => ha.elim⟩

theorem mono (h : Stamped stamp l S) {T : Set α} (hT : T ⊆ S) : Stamped stamp l T :=
  ⟨fun a ha => h.mem a (hT ha), fun a ha => h.has_stamp a (hT ha),
    fun a ha b hb => h.order a (hT ha) b (hT hb)⟩

theorem congr (h : Stamped stamp l S) (heq : ∀ a ∈ S, stamp' a = stamp a) :
    Stamped stamp' l S := by
  refine ⟨h.mem, fun a ha => ?_, fun a ha b hb m n hm hn => ?_⟩
  · rw [heq a ha]
    exact h.has_stamp a ha
  · rw [heq a ha] at hm
    rw [heq b hb] at hn
    exact h.order a ha b hb m n hm hn

theorem append (h : Stamped stamp l S) (hself : stamp' c = some n)
    (hnew : ∀ a m, stamp a = some m → m < n) (hrest : ∀ a ≠ c, stamp' a = stamp a) :
    Stamped stamp' (l ++ [c]) (insert c S) := by
  refine ⟨?_, ?_, fun a ha b hb i j hi hj hne => ?_⟩
  · rintro a (rfl | ha)
    · exact List.mem_append_right _ List.mem_cons_self
    · exact List.mem_append_left _ (h.mem a ha)
  · intro a ha
    by_cases hac : a = c
    · exact ⟨n, hac ▸ hself⟩
    · rw [hrest a hac]
      exact h.has_stamp a (ha.resolve_left hac)
  by_cases hac : a = c
  · subst a
    rw [hrest b hne.symm] at hj
    obtain rfl : i = n := Option.some.inj (hi.symm.trans hself)
    exact iff_of_false (Nat.not_lt.mpr (hnew b j hj).le) not_lastBefore_append_last
  have ha : a ∈ S := ha.resolve_left hac
  rw [hrest a hac] at hi
  by_cases hbc : b = c
  · subst b
    obtain rfl : j = n := Option.some.inj (hj.symm.trans hself)
    exact iff_of_true (hnew a i hi) (lastBefore_append_self.mpr ⟨hac, h.mem a ha⟩)
  · rw [hrest b hbc] at hj
    rw [lastBefore_append_of_ne hac hbc]
    exact h.order a ha b (hb.resolve_left hbc) i j hi hj hne

theorem earliest (h : Stamped stamp l S) (ha : a ∈ S) (hstamp : stamp a = some n)
    (hleast : ∀ b m, stamp b = some m → n ≤ m) : Earliest l S a := by
  refine ⟨ha, fun b hb hne => ?_⟩
  obtain ⟨m, hm⟩ := h.has_stamp b hb
  rcases lastBefore_or (h.mem a ha) (h.mem b hb) hne.symm with hlast | hlast
  · exact hlast
  · have hlt := (h.order b hb a ha m n hm hstamp hne).mpr hlast
    exact (Nat.not_lt.mpr (hleast b m hm) hlt).elim

end Stamped

end Recency
