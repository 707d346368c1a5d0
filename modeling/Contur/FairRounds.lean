import Contur.Transition

/-!
# Goals that fair schedules reach

Several threads move a machine in any order, and a thread with nothing to do leaves
the state as it is. When every other move lowers a measure, and before the goal some
thread has something to do, a schedule reaches the goal as soon as it goes through
all threads once more often than the measure says, whatever it does between.
-/

namespace Transition.Machine
variable {σ ι ω : Type*}

def Nears (M : Machine σ ι ω) (goal : σ → Prop) (μ : σ → ℕ) (s : σ) (i : ι) : Prop :=
  goal (M.next s i) ∨ μ (M.next s i) < μ s

/-- The moves of `allowed` keep the invariant and the goal; before the goal each of them leaves the
state as it is or gets nearer, and one of `threads` does get nearer. -/
structure Progresses (M : Machine σ ι ω) (I goal : σ → Prop) (allowed threads : ι → Prop)
    (μ : σ → ℕ) : Prop where
  keep : ∀ s i, allowed i → I s → I (M.next s i)
  stay : ∀ s i, allowed i → I s → goal s → goal (M.next s i)
  move : ∀ s i, allowed i → I s → ¬ goal s → M.next s i = s ∨ M.Nears goal μ s i
  busy : ∀ s, I s → ¬ goal s → ∃ i, threads i ∧ M.Nears goal μ s i

namespace Progresses
variable {M : Machine σ ι ω} {I goal : σ → Prop} {allowed threads : ι → Prop} {μ : σ → ℕ}

theorem run_keep (h : M.Progresses I goal allowed threads μ) {s : σ} (hs : I s) {is : List ι}
    (his : ∀ i ∈ is, allowed i) : I (M.run s is) :=
  M.run_invariant_of_guarded (G := fun _ i => allowed i) (fun s i hi hs => h.keep s i hi hs) hs
    (M.guarded_of_forall s his)

theorem run_stay (h : M.Progresses I goal allowed threads μ) {s : σ} (hs : I s) (hgoal : goal s)
    {is : List ι} (his : ∀ i ∈ is, allowed i) : goal (M.run s is) :=
  (M.run_invariant_of_guarded (G := fun _ i => allowed i) (P := fun s => I s ∧ goal s)
    (fun s i hi hs => ⟨h.keep s i hi hs.1, h.stay s i hi hs.1 hs.2⟩) ⟨hs, hgoal⟩
    (M.guarded_of_forall s his)).2

theorem run_move (h : M.Progresses I goal allowed threads μ) {s : σ} (hs : I s) {is : List ι}
    (his : ∀ i ∈ is, allowed i) :
    goal (M.run s is) ∨ μ (M.run s is) < μ s ∨ M.run s is = s ∧ ∀ i ∈ is, M.next s i = s := by
  induction is generalizing s with
  | nil => exact Or.inr (Or.inr ⟨rfl, fun i hi => absurd hi List.not_mem_nil⟩)
  | cons i is ih =>
    have hi : allowed i := his i List.mem_cons_self
    have hrest : ∀ j ∈ is, allowed j := fun j hj => his j (List.mem_cons_of_mem i hj)
    rw [run_cons]
    by_cases hgoal : goal s
    · exact Or.inl (h.run_stay (h.keep s i hi hs) (h.stay s i hi hs hgoal) hrest)
    rcases h.move s i hi hs hgoal with hsame | hnext | hlower
    · rw [hsame]
      rcases ih hs hrest with hreach | hlower | ⟨hrun, hidle⟩
      · exact Or.inl hreach
      · exact Or.inr (Or.inl hlower)
      · refine Or.inr (Or.inr ⟨hrun, fun j hj => ?_⟩)
        rcases List.mem_cons.mp hj with rfl | hj
        · exact hsame
        · exact hidle j hj
    · exact Or.inl (h.run_stay (h.keep s i hi hs) hnext hrest)
    · rcases ih (h.keep s i hi hs) hrest with hreach | hlower' | ⟨hrun, -⟩
      · exact Or.inl hreach
      · exact Or.inr (Or.inl (Nat.lt_trans hlower' hlower))
      · exact Or.inr (Or.inl (hrun.symm ▸ hlower))

theorem run_round (h : M.Progresses I goal allowed threads μ) {s : σ} (hs : I s) {round : List ι}
    (hround : ∀ i ∈ round, allowed i) (hall : ∀ i, threads i → i ∈ round) :
    goal (M.run s round) ∨ μ (M.run s round) < μ s := by
  by_cases hgoal : goal s
  · exact Or.inl (h.run_stay hs hgoal hround)
  rcases h.run_move hs hround with hreach | hlower | ⟨-, hidle⟩
  · exact Or.inl hreach
  · exact Or.inr hlower
  · obtain ⟨i, hi, hnear⟩ := h.busy s hs hgoal
    rw [Nears, hidle i (hall i hi)] at hnear
    exact absurd (hnear.resolve_right (Nat.lt_irrefl _)) hgoal

theorem run_rounds (h : M.Progresses I goal allowed threads μ) {s : σ} (hs : I s)
    {rounds : List (List ι)}
    (hrounds : ∀ round ∈ rounds, (∀ i ∈ round, allowed i) ∧ ∀ i, threads i → i ∈ round)
    (hlength : μ s < rounds.length) : goal (M.run s rounds.flatten) := by
  induction rounds generalizing s with
  | nil => exact absurd hlength (Nat.not_lt_zero _)
  | cons round rounds ih =>
    obtain ⟨hround, hall⟩ := hrounds round List.mem_cons_self
    have hrest : ∀ r ∈ rounds, (∀ i ∈ r, allowed i) ∧ ∀ i, threads i → i ∈ r :=
      fun r hr => hrounds r (List.mem_cons_of_mem round hr)
    have hnext : I (M.run s round) := h.run_keep hs hround
    rw [List.flatten_cons, run_append]
    rcases h.run_round hs hround hall with hgoal | hlower
    · refine h.run_stay hnext hgoal fun i hi => ?_
      obtain ⟨r, hr, hir⟩ := List.mem_flatten.mp hi
      exact (hrest r hr).1 i hir
    · refine ih hnext hrest ?_
      rw [List.length_cons] at hlength
      omega

end Progresses
end Transition.Machine
