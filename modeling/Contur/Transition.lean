import Mathlib.Tactic.Common

/-!
# Deterministic machines, their runs and invariants

A machine answers an operation and moves to a next state. A run executes a list
of operations. The rules below carry a fact from one step to every run: a plain
invariant, an invariant under a guard that each step has to meet, an observation
that no step changes, and a map from one machine to another.
-/

namespace Transition

structure Machine (σ ι ω : Type*) where
  step : σ → ι → ω × σ

namespace Machine
variable {σ τ ι κ ω ρ : Type*}

def next (M : Machine σ ι ω) (s : σ) (i : ι) : σ := (M.step s i).2
def out (M : Machine σ ι ω) (s : σ) (i : ι) : ω := (M.step s i).1

def run (M : Machine σ ι ω) : σ → List ι → σ
  | s, [] => s
  | s, i :: is => run M (M.next s i) is

@[simp] theorem run_nil (M : Machine σ ι ω) (s : σ) : M.run s [] = s := rfl

@[simp] theorem run_cons (M : Machine σ ι ω) (s : σ) (i : ι) (is : List ι) :
    M.run s (i :: is) = M.run (M.next s i) is := rfl

theorem run_append (M : Machine σ ι ω) (s : σ) (is js : List ι) :
    M.run s (is ++ js) = M.run (M.run s is) js := by
  induction is generalizing s with
  | nil => rfl
  | cons i is ih => exact ih _

theorem run_invariant (M : Machine σ ι ω) {P : σ → Prop}
    (hstep : ∀ s i, P s → P (M.next s i)) {s : σ} (hs : P s) (is : List ι) :
    P (M.run s is) := by
  induction is generalizing s with
  | nil => exact hs
  | cons i is ih => exact ih (hstep s i hs)

def outs (M : Machine σ ι ω) : σ → List ι → List ω
  | _, [] => []
  | s, i :: is => M.out s i :: outs M (M.next s i) is

theorem outs_append (M : Machine σ ι ω) (s : σ) (is js : List ι) :
    M.outs s (is ++ js) = M.outs s is ++ M.outs (M.run s is) js := by
  induction is generalizing s with
  | nil => rfl
  | cons i is ih => exact congrArg (M.out s i :: ·) (ih _)

theorem length_outs (M : Machine σ ι ω) (s : σ) (is : List ι) :
    (M.outs s is).length = is.length := by
  induction is generalizing s with
  | nil => rfl
  | cons i is ih => exact congrArg (· + 1) (ih _)

/-- The steps of a run: the states they start from and their operations. -/
def steps (M : Machine σ ι ω) : σ → List ι → List (σ × ι)
  | _, [] => []
  | s, i :: is => (s, i) :: steps M (M.next s i) is

theorem steps_append (M : Machine σ ι ω) (s : σ) (is : List ι) (i : ι) :
    M.steps s (is ++ [i]) = M.steps s is ++ [(M.run s is, i)] := by
  induction is generalizing s with
  | nil => rfl
  | cons j is ih => exact congrArg ((s, j) :: ·) (ih _)

/-- Every step of the run meets the guard in the state it starts from. -/
def Guarded (M : Machine σ ι ω) (G : σ → ι → Prop) : σ → List ι → Prop
  | _, [] => True
  | s, i :: is => G s i ∧ Guarded M G (M.next s i) is

theorem run_invariant_of_guarded (M : Machine σ ι ω) {G : σ → ι → Prop} {P : σ → Prop}
    (hstep : ∀ s i, G s i → P s → P (M.next s i)) {s : σ} (hs : P s) {is : List ι}
    (hg : M.Guarded G s is) : P (M.run s is) := by
  induction is generalizing s with
  | nil => exact hs
  | cons i is ih => exact ih (hstep s i hg.1 hs) hg.2

theorem guarded_of_forall (M : Machine σ ι ω) {Q : ι → Prop} (s : σ) {is : List ι}
    (h : ∀ i ∈ is, Q i) : M.Guarded (fun _ i => Q i) s is := by
  induction is generalizing s with
  | nil => trivial
  | cons i is ih =>
    exact ⟨h i List.mem_cons_self, ih _ fun j hj => h j (List.mem_cons_of_mem _ hj)⟩

theorem Guarded.take {M : Machine σ ι ω} {G : σ → ι → Prop} {s : σ} {is : List ι}
    (h : M.Guarded G s is) (n : ℕ) : M.Guarded G s (is.take n) := by
  induction is generalizing s n with
  | nil => simpa using h
  | cons i is ih =>
    cases n with
    | zero => trivial
    | succ n => exact ⟨h.1, ih h.2 n⟩

theorem Guarded.getElem? {M : Machine σ ι ω} {G : σ → ι → Prop} {s : σ} {is : List ι} {n : ℕ}
    {i : ι} (h : M.Guarded G s is) (hi : is[n]? = some i) : G (M.run s (is.take n)) i := by
  induction is generalizing s n with
  | nil => cases hi
  | cons j is ih =>
    cases n with
    | zero =>
      obtain rfl : j = i := by simpa using hi
      exact h.1
    | succ n => exact ih h.2 (by simpa using hi)

theorem guarded_of_getElem? (M : Machine σ ι ω) {G : σ → ι → Prop} {s : σ} {is : List ι}
    (h : ∀ n i, is[n]? = some i → G (M.run s (is.take n)) i) : M.Guarded G s is := by
  induction is generalizing s with
  | nil => trivial
  | cons j is ih => exact ⟨h 0 j rfl, ih fun n i hi => h (n + 1) i hi⟩

theorem run_take_succ (M : Machine σ ι ω) (s : σ) {is : List ι} {n : ℕ} {i : ι}
    (hi : is[n]? = some i) : M.run s (is.take (n + 1)) = M.next (M.run s (is.take n)) i := by
  rw [List.take_add_one, hi, Option.toList_some, run_append]
  rfl

theorem run_segment (M : Machine σ ι ω) {P : σ → Prop} {s : σ} {is : List ι} {a b : ℕ}
    (hstart : P (M.run s (is.take a))) (hb : b ≤ is.length)
    (hstep : ∀ n i, a ≤ n → n < b → is[n]? = some i → P (M.run s (is.take n)) →
      P (M.next (M.run s (is.take n)) i)) {n : ℕ} (hn : a ≤ n) (hnb : n ≤ b) :
    P (M.run s (is.take n)) := by
  induction hn with
  | refl => exact hstart
  | @step n hn ih =>
    have hi : is[n]? = some is[n] := List.getElem?_eq_getElem (by omega)
    rw [run_take_succ M s hi]
    exact hstep n _ hn (by omega) hi (ih (by omega))

/-- Where each step keeps a fact exactly when it meets a guard, the fact holds at every point of a
run exactly when every step meets the guard. -/
theorem always_iff_guarded (M : Machine σ ι ω) {A G : σ → ι → Prop} {I P : σ → Prop}
    (hI : ∀ s i, A s i → I s → I (M.next s i))
    (hstep : ∀ s i, A s i → I s → P s → (P (M.next s i) ↔ G s i)) {s : σ} (hs : I s) (hP : P s)
    {is : List ι} (hA : M.Guarded A s is) :
    (∀ n, P (M.run s (is.take n))) ↔ M.Guarded G s is := by
  induction is generalizing s with
  | nil =>
    constructor
    · intro _
      trivial
    · intro _ n
      rwa [List.take_nil]
  | cons i is ih =>
    have hnext := hstep s i hA.1 hs hP
    constructor
    · intro hall
      have hfirst : P (M.next s i) := by simpa using hall 1
      refine ⟨hnext.mp hfirst, (ih (hI s i hA.1 hs) hfirst hA.2).mp fun n => ?_⟩
      simpa using hall (n + 1)
    · intro hG n
      have hfirst : P (M.next s i) := hnext.mpr hG.1
      cases n with
      | zero => exact hP
      | succ n => exact (ih (hI s i hA.1 hs) hfirst hA.2).mpr hG.2 n

theorem run_observation (M : Machine σ ι ω) {P : σ → Prop} {Q : ι → Prop} {γ : Type*} (f : σ → γ)
    (hP : ∀ s i, P s → P (M.next s i)) (hf : ∀ s i, P s → Q i → f (M.next s i) = f s)
    {s : σ} (hs : P s) {is : List ι} (hQ : ∀ i ∈ is, Q i) : f (M.run s is) = f s := by
  induction is generalizing s with
  | nil => rfl
  | cons i is ih =>
    have hrest := ih (hP s i hs) (fun j hj => hQ j (List.mem_cons_of_mem _ hj))
    exact hrest.trans (hf s i hs (hQ i List.mem_cons_self))

theorem run_filter (M : Machine σ ι ω) (O : Machine τ ι ρ) {I : σ → Prop} (f : σ → τ) (p : ι → Bool)
    (hI : ∀ s i, I s → I (M.next s i))
    (hstep : ∀ s i, I s → f (M.next s i) = if p i then O.next (f s) i else f s) {s : σ} (hs : I s)
    (is : List ι) : f (M.run s is) = O.run (f s) (is.filter p) := by
  induction is generalizing s with
  | nil => rfl
  | cons i is ih =>
    rw [run_cons, ih (hI s i hs), hstep s i hs]
    by_cases hi : p i = true
    · rw [if_pos hi, List.filter_cons_of_pos hi, run_cons]
    · rw [if_neg hi, List.filter_cons_of_neg hi]

/-- A rank that goes down with the marked operations, and never up, while something lasts: it does
not last through more marked operations than the rank. What the steps rely on may look ahead. -/
theorem exists_not_of_count (M : Machine σ ι ω) {I : σ → List ι → Prop} {P : σ → Prop}
    (rank : σ → ℕ)
    {mark : ι → Bool}
    (hI : ∀ s i is, I s (i :: is) → P s → P (M.next s i) → I (M.next s i) is)
    (hstep : ∀ s i is, I s (i :: is) → P s → P (M.next s i) →
      rank (M.next s i) + (if mark i then 1 else 0) ≤ rank s)
    {s : σ} {is : List ι} (h : I s is) (hcount : rank s < is.countP mark) :
    ∃ n ≤ is.length, ¬ P (M.run s (is.take n)) := by
  induction is generalizing s with
  | nil => exact absurd hcount (Nat.not_lt_zero _)
  | cons i is ih =>
    by_cases hs : P s
    · by_cases hnext : P (M.next s i)
      · have hle := hstep s i is h hs hnext
        rw [List.countP_cons] at hcount
        obtain ⟨n, hn, hnot⟩ := ih (hI s i is h hs hnext) (by omega)
        exact ⟨n + 1, Nat.succ_le_succ hn, hnot⟩
      · exact ⟨1, Nat.succ_le_succ (Nat.zero_le _), hnext⟩
    · exact ⟨0, Nat.zero_le _, hs⟩

theorem run_map (M : Machine σ ι ω) (M' : Machine τ κ ρ) (f : σ → τ) (g : ι → κ)
    (hstep : ∀ s i, f (M.next s i) = M'.next (f s) (g i)) (s : σ) (is : List ι) :
    f (M.run s is) = M'.run (f s) (is.map g) := by
  induction is generalizing s with
  | nil => rfl
  | cons i is ih =>
    rw [run_cons, ih, hstep]
    rfl

end Machine
end Transition
