import Mathlib.Data.Finset.Card
import Mathlib.Logic.Relation

/-!
# Depth-first search for a cycle

A search with a set of visited nodes and a set of nodes on the stack, in the order
in which the successors are listed. Nodes that are visited and no longer on the
stack are finished: their successors are finished too and no cycle goes through
them. The fuel bounds the depth; with more fuel than there are nodes the search
comes to an end.
-/

namespace CycleSearch
open Relation (TransGen)

structure Search (α : Type*) where
  visited : Finset α
  onStack : Finset α

def visitAll {α : Type*} (visit : α → Search α → Option (Bool × Search α)) :
    List α → Search α → Option (Bool × Search α)
  | [], s => some (false, s)
  | a :: as, s =>
    match visit a s with
    | none => none
    | some (true, s) => some (true, s)
    | some (false, s) => visitAll visit as s

variable {α : Type*} [DecidableEq α]

/-- The search from one node: is there a way back to the stack? -/
def dfs (next : α → List α) : ℕ → α → Search α → Option (Bool × Search α)
  | 0, _, _ => none
  | fuel + 1, node, s =>
    if node ∈ s.onStack then some (true, s)
    else if node ∈ s.visited then some (false, s)
    else
      match visitAll (dfs next fuel) (next node) ⟨insert node s.visited, insert node s.onStack⟩ with
      | none => none
      | some (true, s) => some (true, s)
      | some (false, s) => some (false, { s with onStack := s.onStack.erase node })

def hasCycle (next : α → List α) (roots : List α) : Option Bool :=
  let nodes := roots ++ roots.flatMap next
  (visitAll (dfs next (nodes.length + 1)) roots ⟨∅, ∅⟩).map Prod.fst

section Finished
variable {α : Type*} {next : α → List α} {s : Search α}

def Edge (next : α → List α) (a b : α) : Prop := b ∈ next a

def Cyclic (next : α → List α) : Prop := ∃ a, TransGen (Edge next) a a

structure Inv (next : α → List α) (s : Search α) : Prop where
  visited : s.onStack ⊆ s.visited
  closed : ∀ a ∈ s.visited, a ∉ s.onStack → ∀ b ∈ next a, b ∈ s.visited ∧ b ∉ s.onStack
  acyclic : ∀ a ∈ s.visited, a ∉ s.onStack → ¬ TransGen (Edge next) a a

theorem inv_empty : Inv next (⟨∅, ∅⟩ : Search α) :=
  ⟨Finset.Subset.refl _, fun _ h => absurd h (Finset.notMem_empty _),
    fun _ h => absurd h (Finset.notMem_empty _)⟩

theorem Inv.reach (h : Inv next s) {a b : α} (ha : a ∈ s.visited) (hstack : a ∉ s.onStack)
    (hreach : TransGen (Edge next) a b) : b ∈ s.visited ∧ b ∉ s.onStack := by
  induction hreach with
  | single hedge => exact h.closed a ha hstack _ hedge
  | tail _ hedge ih => exact h.closed _ ih.1 ih.2 _ hedge

def Answers (next : α → List α) (s : Search α) (nodes : List α) : Bool × Search α → Prop
  | (true, _) => Cyclic next
  | (false, s') => Inv next s' ∧ s'.onStack = s.onStack ∧ s.visited ⊆ s'.visited ∧
      ∀ a ∈ nodes, a ∈ s'.visited ∧ a ∉ s'.onStack

theorem visitAll_answers (visit : α → Search α → Option (Bool × Search α)) (nodes : List α)
    (h : Inv next s)
    (hvisit : ∀ a ∈ nodes, ∀ s', Inv next s' → s'.onStack = s.onStack → s.visited ⊆ s'.visited →
      ∃ r, visit a s' = some r ∧ Answers next s' [a] r) :
    ∃ r, visitAll visit nodes s = some r ∧ Answers next s nodes r := by
  induction nodes generalizing s with
  | nil =>
    exact ⟨_, rfl, h, rfl, Finset.Subset.refl _, fun a ha => absurd ha List.not_mem_nil⟩
  | cons first nodes ih =>
    obtain ⟨⟨found, s₁⟩, hfirst, hanswer⟩ := hvisit first List.mem_cons_self s h rfl
      (Finset.Subset.refl _)
    simp only [visitAll, hfirst]
    cases found with
    | true => exact ⟨_, rfl, hanswer⟩
    | false =>
      obtain ⟨hinv, hstack, hvisited, hdone⟩ := hanswer
      obtain ⟨⟨found, s₂⟩, hrest, hanswer₂⟩ := ih hinv fun a ha s' hinv' hstack' hvisited' =>
        hvisit a (List.mem_cons_of_mem _ ha) s' hinv' (hstack'.trans hstack)
          (hvisited.trans hvisited')
      refine ⟨_, hrest, ?_⟩
      cases found with
      | true => exact hanswer₂
      | false =>
        obtain ⟨hinv₂, hstack₂, hvisited₂, hdone₂⟩ := hanswer₂
        refine ⟨hinv₂, hstack₂.trans hstack, hvisited.trans hvisited₂, fun a ha => ?_⟩
        rcases List.mem_cons.mp ha with rfl | ha
        · obtain ⟨hmem, hoff⟩ := hdone a List.mem_cons_self
          exact ⟨hvisited₂ hmem, hstack₂ ▸ hoff⟩
        · exact hdone₂ a ha

end Finished

variable {next : α → List α} {s : Search α} {node : α}

theorem Inv.push (h : Inv next s) (hnode : node ∉ s.visited) :
    Inv next ⟨insert node s.visited, insert node s.onStack⟩ := by
  have hold : ∀ a ∈ insert node s.visited, a ∉ insert node s.onStack →
      a ∈ s.visited ∧ a ∉ s.onStack := by
    intro a ha hstack
    rw [Finset.mem_insert, not_or] at hstack
    exact ⟨(Finset.mem_insert.mp ha).resolve_left hstack.1, hstack.2⟩
  refine ⟨Finset.insert_subset_insert _ h.visited, fun a ha hstack b hb => ?_,
    fun a ha hstack => ?_⟩
  · obtain ⟨hvisited, hoff⟩ := hold a ha hstack
    obtain ⟨hbvisited, hboff⟩ := h.closed a hvisited hoff b hb
    refine ⟨Finset.mem_insert_of_mem hbvisited, ?_⟩
    rw [Finset.mem_insert, not_or]
    exact ⟨fun heq => hnode (heq ▸ hbvisited), hboff⟩
  · obtain ⟨hvisited, hoff⟩ := hold a ha hstack
    exact h.acyclic a hvisited hoff

theorem Inv.pop (h : Inv next s) (hnode : node ∈ s.onStack)
    (hnext : ∀ b ∈ next node, b ∈ s.visited ∧ b ∉ s.onStack) :
    Inv next { s with onStack := s.onStack.erase node } := by
  have hfinished : ∀ b, b ∈ s.visited ∧ b ∉ s.onStack → b ∈ s.visited ∧ b ∉ s.onStack.erase node :=
    fun b hb => ⟨hb.1, fun hmem => hb.2 (Finset.mem_of_mem_erase hmem)⟩
  have hold : ∀ a, a ∉ s.onStack.erase node → a = node ∨ a ∉ s.onStack := by
    intro a ha
    by_cases hane : a = node
    · exact Or.inl hane
    · exact Or.inr fun hmem => ha (Finset.mem_erase.mpr ⟨hane, hmem⟩)
  refine ⟨(Finset.erase_subset _ _).trans h.visited, fun a ha hstack b hb => ?_,
    fun a ha hstack hcycle => ?_⟩
  · rcases hold a hstack with rfl | hoff
    · exact hfinished b (hnext b hb)
    · exact hfinished b (h.closed a ha hoff b hb)
  · rcases hold a hstack with rfl | hoff
    · -- a cycle at the node would come back to it from a finished node
      have hback : a ∈ s.visited ∧ a ∉ s.onStack := by
        obtain ⟨b, hedge, hrest⟩ := Relation.TransGen.head'_iff.mp hcycle
        obtain ⟨hb, hboff⟩ := hnext b hedge
        rcases Relation.reflTransGen_iff_eq_or_transGen.mp hrest with heq | hreach
        · exact heq ▸ ⟨hb, hboff⟩
        · exact h.reach hb hboff hreach
      exact hback.2 hnode
    · exact h.acyclic a ha hoff hcycle

/-- With more fuel than unvisited nodes the search comes to an end. It looks for a way back to the
stack, from which the node can be reached. -/
theorem dfs_answers {nodes : Finset α} (hclosed : ∀ a ∈ nodes, ∀ b ∈ next a, b ∈ nodes) {fuel : ℕ}
    (h : Inv next s) (hnode : node ∈ nodes) (hfuel : (nodes \ s.visited).card < fuel)
    (hstack : ∀ t ∈ s.onStack, TransGen (Edge next) t node) :
    ∃ r, dfs next fuel node s = some r ∧ Answers next s [node] r := by
  induction fuel generalizing s node with
  | zero => exact absurd hfuel (Nat.not_lt_zero _)
  | succ fuel ih =>
    unfold dfs
    split_ifs with hon hvisited
    · exact ⟨_, rfl, node, hstack node hon⟩
    · refine ⟨_, rfl, h, rfl, Finset.Subset.refl _, fun a ha => ?_⟩
      rw [List.mem_singleton.mp ha]
      exact ⟨hvisited, hon⟩
    · have hfewer : (nodes \ insert node s.visited).card < fuel := by
        have hmem : node ∈ nodes \ s.visited := Finset.mem_sdiff.mpr ⟨hnode, hvisited⟩
        have herase : nodes \ insert node s.visited = (nodes \ s.visited).erase node :=
          Finset.sdiff_insert nodes s.visited node
        have hcard := Finset.card_erase_lt_of_mem hmem
        rw [herase]
        omega
      -- every node of the stack reaches the successors through the node
      have hsuccessor : ∀ b ∈ next node, ∀ t ∈ insert node s.onStack, TransGen (Edge next) t b := by
        intro b hb t ht
        rcases Finset.mem_insert.mp ht with rfl | ht
        · exact .single hb
        · exact (hstack t ht).tail hb
      obtain ⟨⟨found, s₁⟩, hloop, hanswer⟩ := visitAll_answers (dfs next fuel)
        (next node) (h.push hvisited) fun b hb s' hinv' hstack' hvisited' => by
          refine ih hinv' (hclosed node hnode b hb) ?_ ?_
          · exact (Finset.card_le_card (Finset.sdiff_subset_sdiff (Finset.Subset.refl _)
              hvisited')).trans_lt hfewer
          · rw [hstack']
            exact hsuccessor b hb
      rw [hloop]
      cases found with
      | true => exact ⟨_, rfl, hanswer⟩
      | false =>
        obtain ⟨hinv, hstack₁, hvisited₁, hdone⟩ := hanswer
        have hmem : node ∈ s₁.onStack := by
          rw [hstack₁]
          exact Finset.mem_insert_self _ _
        have hsame : s₁.onStack.erase node = s.onStack := by
          rw [hstack₁]
          exact Finset.erase_insert hon
        refine ⟨_, rfl, hinv.pop hmem hdone, hsame, (Finset.subset_insert _ _).trans hvisited₁,
          fun a ha => ?_⟩
        rw [List.mem_singleton.mp ha]
        exact ⟨hinv.visited hmem, Finset.notMem_erase _ _⟩

theorem mem_nodes {roots : List α} (hroots : ∀ a b, b ∈ next a → a ∈ roots) {a b : α}
    (hb : b ∈ next a) : b ∈ (roots ++ roots.flatMap next).toFinset := by
  rw [List.mem_toFinset, List.mem_append, List.mem_flatMap]
  exact Or.inr ⟨a, hroots a b hb, hb⟩

theorem hasCycle_spec {roots : List α} (hroots : ∀ a b, b ∈ next a → a ∈ roots) :
    ∃ found, hasCycle next roots = some found ∧ (found = true ↔ Cyclic next) := by
  let nodes := (roots ++ roots.flatMap next).toFinset
  have hclosed : ∀ a ∈ nodes, ∀ b ∈ next a, b ∈ nodes := fun a _ b hb => mem_nodes hroots hb
  have hcard : nodes.card < (roots ++ roots.flatMap next).length + 1 :=
    Nat.lt_succ_of_le (List.toFinset_card_le _)
  obtain ⟨⟨found, s⟩, hsearch, hanswer⟩ := visitAll_answers
    (dfs next ((roots ++ roots.flatMap next).length + 1)) roots inv_empty
    fun a ha s' hinv hstack _ => by
      refine dfs_answers hclosed hinv ?_ ?_ ?_
      · exact List.mem_toFinset.mpr (List.mem_append_left _ ha)
      · exact (Finset.card_le_card Finset.sdiff_subset).trans_lt hcard
      · intro t ht
        rw [hstack] at ht
        exact absurd ht (Finset.notMem_empty _)
  refine ⟨found, by simp only [hasCycle, hsearch, Option.map_some], ?_⟩
  cases found with
  | true => exact iff_of_true rfl hanswer
  | false =>
    obtain ⟨hinv, -, -, hdone⟩ := hanswer
    refine iff_of_false Bool.false_ne_true ?_
    rintro ⟨a, hcycle⟩
    obtain ⟨b, hedge, -⟩ := Relation.TransGen.head'_iff.mp hcycle
    obtain ⟨hvisited, hoff⟩ := hdone a (hroots a b hedge)
    exact hinv.acyclic a hvisited hoff hcycle

end CycleSearch
