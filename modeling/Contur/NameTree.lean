import Mathlib.Data.List.Induction
import Mathlib.Data.Set.Insert
import Mathlib.Order.WellFounded
import Mathlib.Tactic.Common

/-!
# Rooted trees given by named edges

A partial map `child` from a node and a name to a node, on a set of nodes with a
root. Every node except the root has exactly one incoming edge, and edges go to
larger nodes, so that every node is reached from the root by one list of names.
Adding a new leaf and removing a leaf keep the tree.
-/

namespace NameTree
variable {ι α : Type*}

def walk (child : ι → α → Option ι) : ι → List α → Option ι
  | i, [] => some i
  | i, a :: as => (child i a).bind fun j => walk child j as

theorem walk_append (child : ι → α → Option ι) (i : ι) (as bs : List α) :
    walk child i (as ++ bs) = (walk child i as).bind fun j => walk child j bs := by
  induction as generalizing i with
  | nil => rfl
  | cons a as ih =>
    simp only [List.cons_append, walk]
    cases child i a with
    | none => rfl
    | some j => exact ih j

theorem walk_concat (child : ι → α → Option ι) (i : ι) (as : List α) (a : α) :
    walk child i (as ++ [a]) = (walk child i as).bind fun j => child j a := by
  rw [walk_append]
  congr 1
  funext j
  simp [walk]

theorem walk_mono {child child' : ι → α → Option ι}
    (h : ∀ i a j, child i a = some j → child' i a = some j) {i k : ι} {as : List α}
    (hk : walk child i as = some k) : walk child' i as = some k := by
  induction as generalizing i with
  | nil => exact hk
  | cons a as ih =>
    obtain ⟨j, hj, hrest⟩ := Option.bind_eq_some_iff.mp hk
    exact Option.bind_eq_some_iff.mpr ⟨j, h i a j hj, ih hrest⟩

structure Tree [LT ι] (root : ι) (nodes : Set ι) (child : ι → α → Option ι) : Prop where
  root_mem : root ∈ nodes
  source_mem : ∀ {i a k}, child i a = some k → i ∈ nodes
  target_mem : ∀ {i a k}, child i a = some k → k ∈ nodes
  root_top : ∀ {i a}, child i a ≠ some root
  unique : ∀ {i j a b k}, child i a = some k → child j b = some k → i = j ∧ a = b
  parent : ∀ {k}, k ∈ nodes → k ≠ root → ∃ i a, child i a = some k
  lt : ∀ {i a k}, child i a = some k → i < k

namespace Tree
variable [LT ι] {root : ι} {nodes nodes' : Set ι} {child child' : ι → α → Option ι}

theorem walk_inj (h : Tree root nodes child) {as bs : List α} {k : ι}
    (ha : walk child root as = some k) (hb : walk child root bs = some k) : as = bs := by
  induction as using List.reverseRecOn generalizing bs k with
  | nil =>
    obtain rfl : root = k := Option.some.inj ha
    rcases List.eq_nil_or_concat bs with rfl | ⟨bs, b, rfl⟩
    · rfl
    · rw [List.concat_eq_append, walk_concat] at hb
      obtain ⟨j, -, hj⟩ := Option.bind_eq_some_iff.mp hb
      exact (h.root_top hj).elim
  | append_singleton as a ih =>
    rw [walk_concat] at ha
    obtain ⟨i, hi, hia⟩ := Option.bind_eq_some_iff.mp ha
    rcases List.eq_nil_or_concat bs with rfl | ⟨bs, b, rfl⟩
    · obtain rfl : root = k := Option.some.inj hb
      exact (h.root_top hia).elim
    · rw [List.concat_eq_append, walk_concat] at hb
      obtain ⟨j, hj, hjb⟩ := Option.bind_eq_some_iff.mp hb
      obtain ⟨rfl, rfl⟩ := h.unique hia hjb
      rw [ih hi hj, List.concat_eq_append]

theorem exists_walk [WellFoundedLT ι] (h : Tree root nodes child) {k : ι} (hk : k ∈ nodes) :
    ∃ as, walk child root as = some k := by
  induction k using WellFoundedLT.induction with
  | ind k ih =>
    by_cases hroot : k = root
    · exact ⟨[], by rw [hroot]; rfl⟩
    · obtain ⟨i, a, hia⟩ := h.parent hk hroot
      obtain ⟨as, has⟩ := ih i (h.lt hia) (h.source_mem hia)
      exact ⟨as ++ [a], by rw [walk_concat, has]; exact hia⟩

theorem insert (h : Tree root nodes child) {p k : ι} {a : α} (hp : p ∈ nodes) (hk : k ∉ nodes)
    (ha : child p a = none) (hlt : p < k) (hnodes : ∀ i, i ∈ nodes' ↔ i = k ∨ i ∈ nodes)
    (hself : child' p a = some k)
    (hchild : ∀ i b, ¬ (i = p ∧ b = a) → child' i b = child i b) : Tree root nodes' child' := by
  have hedge : ∀ {i b l}, child' i b = some l →
      (i = p ∧ b = a ∧ l = k) ∨ (child i b = some l ∧ l ≠ k) := by
    intro i b l hl
    by_cases hib : i = p ∧ b = a
    · obtain ⟨rfl, rfl⟩ := hib
      exact Or.inl ⟨rfl, rfl, Option.some.inj (hl.symm.trans hself)⟩
    · rw [hchild i b hib] at hl
      refine Or.inr ⟨hl, ?_⟩
      rintro rfl
      exact hk (h.target_mem hl)
  refine ⟨(hnodes root).mpr (Or.inr h.root_mem), ?_, ?_, ?_, ?_, ?_, ?_⟩
  · intro i b l hl
    rcases hedge hl with ⟨rfl, -, -⟩ | ⟨hl, -⟩
    · exact (hnodes i).mpr (Or.inr hp)
    · exact (hnodes i).mpr (Or.inr (h.source_mem hl))
  · intro i b l hl
    rcases hedge hl with ⟨-, -, rfl⟩ | ⟨hl, -⟩
    · exact (hnodes l).mpr (Or.inl rfl)
    · exact (hnodes l).mpr (Or.inr (h.target_mem hl))
  · intro i b hl
    rcases hedge hl with ⟨-, -, rfl⟩ | ⟨hl, -⟩
    · exact hk h.root_mem
    · exact h.root_top hl
  · intro i j b c l hi hj
    rcases hedge hi with ⟨rfl, rfl, rfl⟩ | ⟨hi, hne⟩
    · rcases hedge hj with ⟨rfl, rfl, -⟩ | ⟨-, hne⟩
      · exact ⟨rfl, rfl⟩
      · exact (hne rfl).elim
    · rcases hedge hj with ⟨-, -, rfl⟩ | ⟨hj, -⟩
      · exact (hne rfl).elim
      · exact h.unique hi hj
  · intro l hl hroot
    rcases (hnodes l).mp hl with rfl | hl
    · exact ⟨p, a, hself⟩
    · obtain ⟨i, b, hib⟩ := h.parent hl hroot
      refine ⟨i, b, (hchild i b ?_).trans hib⟩
      rintro ⟨rfl, rfl⟩
      rw [ha] at hib
      cases hib
  · intro i b l hl
    rcases hedge hl with ⟨rfl, -, rfl⟩ | ⟨hl, -⟩
    · exact hlt
    · exact h.lt hl

theorem remove (h : Tree root nodes child) {p k : ι} {a : α} (hk : child p a = some k)
    (hleaf : ∀ b, child k b = none) (hnodes : ∀ i, i ∈ nodes' ↔ i ≠ k ∧ i ∈ nodes)
    (hself : child' p a = none)
    (hchild : ∀ i b, ¬ (i = p ∧ b = a) → child' i b = child i b) : Tree root nodes' child' := by
  have hedge : ∀ {i b l}, child' i b = some l → child i b = some l ∧ i ≠ k ∧ l ≠ k := by
    intro i b l hl
    have hib : ¬ (i = p ∧ b = a) := by
      rintro ⟨rfl, rfl⟩
      rw [hself] at hl
      cases hl
    rw [hchild i b hib] at hl
    refine ⟨hl, ?_, ?_⟩
    · rintro rfl
      rw [hleaf b] at hl
      cases hl
    · rintro rfl
      exact hib (h.unique hl hk)
  have hroot : root ≠ k := by
    rintro rfl
    exact h.root_top hk
  refine ⟨(hnodes root).mpr ⟨hroot, h.root_mem⟩, ?_, ?_, ?_, ?_, ?_, ?_⟩
  · intro i b l hl
    exact (hnodes i).mpr ⟨(hedge hl).2.1, h.source_mem (hedge hl).1⟩
  · intro i b l hl
    exact (hnodes l).mpr ⟨(hedge hl).2.2, h.target_mem (hedge hl).1⟩
  · intro i b hl
    exact h.root_top (hedge hl).1
  · intro i j b c l hi hj
    exact h.unique (hedge hi).1 (hedge hj).1
  · intro l hl hne
    obtain ⟨hlk, hl⟩ := (hnodes l).mp hl
    obtain ⟨i, b, hib⟩ := h.parent hl hne
    refine ⟨i, b, (hchild i b ?_).trans hib⟩
    rintro ⟨rfl, rfl⟩
    exact hlk (Option.some.inj (hib.symm.trans hk))
  · intro i b l hl
    exact h.lt (hedge hl).1

end Tree
end NameTree
