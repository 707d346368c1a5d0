import Mathlib.Algebra.Order.Monoid.Defs
import Mathlib.Algebra.BigOperators.Group.List.Basic
import Mathlib.Algebra.BigOperators.Group.Multiset.Basic
import Mathlib.Algebra.Order.BigOperators.Group.Multiset
import Mathlib.Data.List.Induction
import Mathlib.Data.Multiset.AddSub
import Mathlib.Data.Multiset.Count

/-!
# Orders in which all items can run

An item can run when its need is covered by what is at hand, and leaves its gain
behind. A collection of items is safe if some order lets all of them run. No gain is
negative, so to run an item that can run is never a mistake: what can be done before
can still be done after. A greedy choice therefore decides whether there is such an
order.
-/

namespace SafeOrder

variable {ι R : Type*} [AddCommMonoid R] [PartialOrder R]
variable {need gain : ι → R} {work : R} {i : ι} {items : Multiset ι} {order : List ι}

def Runs (need gain : ι → R) : R → List ι → Prop
  | _, [] => True
  | work, i :: order => need i ≤ work ∧ Runs need gain (work + gain i) order

def Safe (need gain : ι → R) (work : R) (items : Multiset ι) : Prop :=
  ∃ order : List ι, (order : Multiset ι) = items ∧ Runs need gain work order

theorem runs_iff : Runs need gain work order ↔ ∀ before i after, order = before ++ i :: after →
    need i ≤ work + (before.map gain).sum := by
  induction order generalizing work with
  | nil => simp [Runs]
  | cons first order ih =>
    rw [Runs, ih]
    constructor
    · rintro ⟨hfirst, hrest⟩ before i after heq
      cases before with
      | nil =>
        obtain ⟨rfl, -⟩ := List.cons.inj heq
        simpa using hfirst
      | cons j before =>
        obtain ⟨rfl, rfl⟩ := List.cons.inj heq
        rw [List.map_cons, List.sum_cons, ← add_assoc]
        exact hrest before i after rfl
    · intro hall
      refine ⟨by simpa using hall [] first order rfl, fun before i after heq => ?_⟩
      have hneed := hall (first :: before) i after (by rw [heq]; rfl)
      rwa [List.map_cons, List.sum_cons, ← add_assoc] at hneed

theorem safe_zero : Safe need gain work 0 := ⟨[], rfl, trivial⟩

theorem not_safe_of_stuck (hne : items ≠ 0) (hstuck : ∀ i ∈ items, ¬ need i ≤ work) :
    ¬ Safe need gain work items := by
  rintro ⟨order, rfl, hruns⟩
  cases order with
  | nil => exact hne rfl
  | cons i order => exact hstuck i (by simp) hruns.1

theorem Runs.append_singleton (h : Runs need gain work order)
    (hneed : need i ≤ work + (order.map gain).sum) : Runs need gain work (order ++ [i]) := by
  induction order generalizing work with
  | nil => exact ⟨by simpa using hneed, trivial⟩
  | cons first order ih =>
    rw [List.map_cons, List.sum_cons, ← add_assoc] at hneed
    exact ⟨h.1, ih h.2 hneed⟩

theorem Safe.cons (h : Safe need gain work items) (hneed : need i ≤ work + (items.map gain).sum) :
    Safe need gain work (i ::ₘ items) := by
  obtain ⟨order, rfl, hruns⟩ := h
  refine ⟨order ++ [i], ?_, hruns.append_singleton (by simpa using hneed)⟩
  exact Multiset.coe_eq_coe.mpr (List.perm_append_singleton i order)

variable [IsOrderedAddMonoid R]

theorem sum_gain_le {items' : Multiset ι} (hgain : ∀ i, 0 ≤ gain i) (h : items ≤ items') :
    (items.map gain).sum ≤ (items'.map gain).sum := by
  obtain ⟨rest, rfl⟩ := Multiset.le_iff_exists_add.mp h
  rw [Multiset.map_add, Multiset.sum_add]
  apply le_add_of_nonneg_right
  apply Multiset.sum_nonneg
  intro x hx
  obtain ⟨i, -, rfl⟩ := Multiset.mem_map.mp hx
  exact hgain i

theorem Safe.le_of_stuck {done left : Multiset ι} (h : Safe need gain work items)
    (hgain : ∀ i, 0 ≤ gain i) (hle : items ≤ done + left)
    (hstuck : ∀ i ∈ left, ¬ need i ≤ work + (done.map gain).sum) : items ≤ done := by
  classical
  obtain ⟨order, rfl, hruns⟩ := h
  have hle_of : ∀ some_items : Multiset ι, some_items ≤ done + left → (∀ i ∈ some_items, i ∉ left) →
      some_items ≤ done := by
    intro some_items hsome hnot
    refine Multiset.le_iff_count.mpr fun i => ?_
    by_cases hi : i ∈ some_items
    · have hcount := Multiset.le_iff_count.mp hsome i
      rwa [Multiset.count_add, Multiset.count_eq_zero_of_notMem (hnot i hi), add_zero] at hcount
    · rw [Multiset.count_eq_zero_of_notMem hi]
      exact Nat.zero_le _
  -- the items before one that can run have run, and so has this one
  have hnone : ∀ before after, order = before ++ after → ∀ i ∈ before, i ∉ left := by
    intro before
    induction before using List.reverseRecOn with
    | nil => simp
    | append_singleton before i ih =>
      intro after heq j hj
      have hbefore := ih (i :: after) (by rw [heq]; simp)
      rcases List.mem_append.mp hj with hj | hj
      · exact hbefore j hj
      · obtain rfl := List.mem_singleton.mp hj
        intro hleft
        apply hstuck j hleft
        have hneed := runs_iff.mp hruns before j after (by rw [heq]; simp)
        have hsub : (before : Multiset ι) ≤ (order : Multiset ι) := by
          rw [heq, List.append_assoc]
          exact Multiset.coe_le.mpr (List.sublist_append_left _ _).subperm
        have hdone := hle_of before (hsub.trans hle) (by simpa using hbefore)
        refine hneed.trans (add_le_add_right ?_ work)
        simpa using sum_gain_le hgain hdone
  exact hle_of order hle (by simpa using hnone order [] (by simp))

theorem Runs.leave_out {before after : List ι} (hgain : 0 ≤ gain i)
    (h : Runs need gain work (before ++ i :: after)) :
    Runs need gain (work + gain i) (before ++ after) := by
  induction before generalizing work with
  | nil => exact h.2
  | cons j before ih =>
    refine ⟨h.1.trans (le_add_of_nonneg_right hgain), ?_⟩
    rw [add_right_comm]
    exact ih h.2

theorem safe_cons_iff (hgain : 0 ≤ gain i) (hneed : need i ≤ work) :
    Safe need gain work (i ::ₘ items) ↔ Safe need gain (work + gain i) items := by
  constructor
  · rintro ⟨order, horder, hruns⟩
    have hmem : i ∈ order := by
      rw [← Multiset.mem_coe, horder]
      exact Multiset.mem_cons_self _ _
    obtain ⟨before, after, rfl⟩ := List.append_of_mem hmem
    refine ⟨before ++ after, ?_, hruns.leave_out hgain⟩
    have hcons : ((before ++ i :: after : List ι) : Multiset ι) = i ::ₘ ↑(before ++ after) :=
      Multiset.coe_eq_coe.mpr List.perm_middle
    rw [hcons] at horder
    exact (Multiset.cons_inj_right i).mp horder
  · rintro ⟨order, rfl, hruns⟩
    exact ⟨i :: order, rfl, hneed, hruns⟩

end SafeOrder
