import Mathlib.Data.List.Chain
import Contur.CycleSearch

/-!
# The nodes that a depth-first search finds on cycles

A second search keeps the stack itself. When it meets a node of the stack it
collects the part of the stack from that node on, and it goes on with every node
that it has not visited. The stack at a node is determined by the graph and by the
order in which roots and successors are listed: it is the first way to the node. So
a node is collected exactly if it lies on a cycle that consists of a part of a first
way and one edge back. This can be less than all nodes on cycles.
-/

namespace CycleSearch
open Relation (TransGen ReflTransGen)

structure Collection (α : Type*) where
  cycleSet : Finset α
  visited : Finset α

structure Grows {α : Type*} (s s' : Collection α) : Prop where
  visited : s.visited ⊆ s'.visited
  cycleSet : s.cycleSet ⊆ s'.cycleSet

theorem Grows.refl {α : Type*} (s : Collection α) : Grows s s :=
  ⟨Finset.Subset.refl _, Finset.Subset.refl _⟩

theorem Grows.trans {α : Type*} {s s' s'' : Collection α} (h : Grows s s') (h' : Grows s' s'') :
    Grows s s'' :=
  ⟨h.visited.trans h'.visited, h.cycleSet.trans h'.cycleSet⟩

section Search
variable {α : Type*} [DecidableEq α]

/-- The part of the stack from the node to the top. The list has the top first, the search for
the node begins at the bottom. -/
def segment (stack : List α) (node : α) : List α :=
  stack.reverse.drop (stack.reverse.idxOf node)

def collectAll (dfs : α → Collection α → Option (Collection α)) (stack : List α) :
    List α → Collection α → Option (Collection α)
  | [], s => some s
  | a :: as, s =>
    if a ∈ stack then
      collectAll dfs stack as { s with cycleSet := s.cycleSet ∪ (segment stack a).toFinset }
    else if a ∈ s.visited then collectAll dfs stack as s
    else
      match dfs a s with
      | none => none
      | some s => collectAll dfs stack as s

def collect (next : α → List α) : ℕ → List α → α → Collection α → Option (Collection α)
  | 0, _, _, _ => none
  | fuel + 1, stack, node, s =>
    collectAll (collect next fuel (node :: stack)) (node :: stack) (next node)
      { s with visited := insert node s.visited }

def cycleNodes (next : α → List α) (roots : List α) : Option (Finset α) :=
  let nodes := roots ++ roots.flatMap next
  (collectAll (collect next (nodes.length + 1) []) [] roots ⟨∅, ∅⟩).map Collection.cycleSet

end Search

section Ways
variable {α : Type*} {next : α → List α} {roots : List α} {a b c target : α} {path : List α}

/-- The target can be reached from the node, both outside the avoided nodes. -/
def Leads (next : α → List α) (avoid : Set α) (target a : α) : Prop :=
  a ∉ avoid ∧ ReflTransGen (fun x y => y ∈ next x ∧ y ∉ avoid) a target

def FirstOf (p : α → Prop) (as : List α) (a : α) : Prop :=
  ∃ before after, as = before ++ a :: after ∧ p a ∧ ∀ b ∈ before, ¬ p b

def choices (next : α → List α) (roots : List α) : List α → List α
  | [] => roots
  | node :: _ => next node

/-- The way to the target, last node first, that takes at each node the first choice from which
the target can be reached without a node that is already on the way. -/
inductive FirstWay (next : α → List α) (roots : List α) (target : α) : List α → Prop
  | nil : FirstWay next roots target []
  | step {path : List α} {a : α} : FirstWay next roots target path → path.head? ≠ some target →
      FirstOf (Leads next {b | b ∈ path} target) (choices next roots path) a →
      FirstWay next roots target (a :: path)

/-- The node lies on a part of the first way to `target` that an edge of the target closes to a
cycle. -/
def ClosedAt (next : α → List α) (roots : List α) (target v : α) : Prop :=
  ∃ above back below, FirstWay next roots target (above ++ back :: below) ∧
    (above ++ back :: below).head? = some target ∧ back ∈ next target ∧ v ∈ above ++ [back]

def OnFirstCycle (next : α → List α) (roots : List α) (v : α) : Prop :=
  ∃ target, ClosedAt next roots target v

theorem Leads.mono {avoid avoid' : Set α} (h : Leads next avoid target a) (hsub : avoid' ⊆ avoid) :
    Leads next avoid' target a := by
  refine ⟨fun ha => h.1 (hsub ha), ReflTransGen.mono (fun x y hxy => ?_) _ _ h.2⟩
  exact ⟨hxy.1, fun hy => hxy.2 (hsub hy)⟩

theorem Leads.head {avoid : Set α} (hb : Leads next avoid target b) (ha : a ∉ avoid)
    (hedge : b ∈ next a) : Leads next avoid target a :=
  ⟨ha, .head ⟨hedge, hb.1⟩ hb.2⟩

theorem FirstOf.unique {p : α → Prop} {as : List α} (h : FirstOf p as a) (h' : FirstOf p as b) :
    a = b := by
  obtain ⟨before, after, rfl, hpa, hnot⟩ := h
  obtain ⟨before', after', heq, hpb, hnot'⟩ := h'
  rcases List.append_eq_append_iff.mp heq with ⟨mid, hbefore, hmid⟩ | ⟨mid, hbefore, hmid⟩
  · cases mid with
    | nil => exact (List.cons.inj hmid).1
    | cons first mid =>
      have ha : a = first := (List.cons.inj hmid).1
      exact absurd hpa (hnot' a (by rw [hbefore, ha]; simp))
  · cases mid with
    | nil => exact (List.cons.inj hmid).1.symm
    | cons first mid =>
      have hb : b = first := (List.cons.inj hmid).1
      exact absurd hpb (hnot b (by rw [hbefore, hb]; simp))

theorem FirstOf.mem {p : α → Prop} {as : List α} (h : FirstOf p as a) : a ∈ as ∧ p a := by
  obtain ⟨before, after, rfl, hpa, -⟩ := h
  exact ⟨by simp, hpa⟩

theorem FirstWay.of_suffix (h : FirstWay next roots target path) {path' : List α}
    (hsuffix : path' <:+ path) : FirstWay next roots target path' := by
  induction h with
  | nil =>
    rw [List.suffix_nil.mp hsuffix]
    exact .nil
  | step hpath hlast hfirst ih =>
    rcases List.suffix_cons_iff.mp hsuffix with rfl | hsuffix
    · exact .step hpath hlast hfirst
    · exact ih hsuffix

theorem FirstWay.suffix_or {path path' : List α} (h : FirstWay next roots target path)
    (h' : FirstWay next roots target path') : path <:+ path' ∨ path' <:+ path := by
  induction h with
  | nil => exact Or.inl List.nil_suffix
  | @step path a hpath hlast hfirst ih =>
    rcases ih with ⟨rest, hrest⟩ | hsuffix
    · rcases List.eq_nil_or_concat rest with rfl | ⟨front, b, rfl⟩
      · exact Or.inr ⟨[a], by rw [← hrest]; rfl⟩
      · have hend : (b :: path) <:+ path' := ⟨front, by rw [← hrest]; simp⟩
        cases h'.of_suffix hend with
        | step _ _ hfirst' =>
          rw [hfirst.unique hfirst']
          exact Or.inl hend
    · exact Or.inr (hsuffix.trans (List.suffix_cons a path))

theorem FirstWay.unique {path path' : List α} (h : FirstWay next roots target path)
    (h' : FirstWay next roots target path') (hend : path.head? = some target)
    (hend' : path'.head? = some target) : path = path' := by
  have hnotlonger : ∀ {p q : List α}, FirstWay next roots target q → p.head? = some target →
      p <:+ q → p = q := by
    intro p q hq hp hsuffix
    obtain ⟨rest, rfl⟩ := hsuffix
    rcases List.eq_nil_or_concat rest with rfl | ⟨front, b, rfl⟩
    · rfl
    · have hlonger : FirstWay next roots target (b :: p) := hq.of_suffix ⟨front, by simp⟩
      cases hlonger with
      | step _ hlast _ => exact absurd hp hlast
  rcases h.suffix_or h' with hsuffix | hsuffix
  · exact hnotlonger h' hend hsuffix
  · exact (hnotlonger h hend' hsuffix).symm

theorem FirstWay.nodup (h : FirstWay next roots target path) : path.Nodup := by
  induction h with
  | nil => exact List.nodup_nil
  | step _ _ hfirst ih => exact List.nodup_cons.mpr ⟨hfirst.mem.2.1, ih⟩

theorem FirstWay.reach (h : FirstWay next roots target path) {above below : List α}
    (hpath : path = above ++ b :: below) (ha : a ∈ above ++ [b]) :
    ReflTransGen (Edge next) b a := by
  induction h generalizing above a with
  | nil => simp at hpath
  | @step path last _ _ hfirst ih =>
    cases above with
    | nil =>
      rw [List.mem_singleton.mp ha]
    | cons first above =>
      obtain ⟨rfl, rfl⟩ := List.cons.inj hpath
      rcases List.mem_cons.mp ha with rfl | ha
      · -- the last edge of the way starts at the head of the rest
        cases above with
        | nil => exact .single hfirst.mem.1
        | cons second above =>
          have hsecond : ReflTransGen (Edge next) b second := ih rfl (by simp)
          exact hsecond.tail hfirst.mem.1
      · exact ih rfl ha

theorem OnFirstCycle.cycle {v : α} (h : OnFirstCycle next roots v) : TransGen (Edge next) v v := by
  obtain ⟨target, above, back, below, hway, hend, hback, hv⟩ := h
  have hto : ReflTransGen (Edge next) back v := hway.reach rfl hv
  have hfrom : ReflTransGen (Edge next) v target := by
    obtain ⟨upper, lower, hsplit⟩ := List.append_of_mem hv
    have hpath : above ++ back :: below = upper ++ v :: (lower ++ below) := by
      rw [List.append_cons, hsplit]
      simp
    refine hway.reach hpath ?_
    cases upper with
    | nil =>
      rw [hpath] at hend
      simpa using hend.symm
    | cons first upper =>
      rw [hpath] at hend
      simp at hend
      simp [hend]
  exact (TransGen.tail' hfrom hback).trans_left hto

end Ways

variable {α : Type*} [DecidableEq α] {next : α → List α} {roots : List α} {s s' : Collection α}
variable {stack : List α} {a b node target v : α}

theorem mem_segment {above below : List α} (hstack : stack = above ++ a :: below)
    (ha : a ∉ below) : v ∈ segment stack a ↔ v ∈ above ++ [a] := by
  have hreverse : stack.reverse = below.reverse ++ a :: above.reverse := by
    rw [hstack]
    simp
  have hidx : stack.reverse.idxOf a = below.reverse.length := by
    rw [hreverse,
      List.idxOf_append_of_notMem (by simpa using ha), List.idxOf_cons_self, Nat.add_zero]
  have hsegment : segment stack a = a :: above.reverse := by
    rw [segment, hidx, hreverse, List.drop_left]
  rw [hsegment]
  simp [or_comm]

/-- The visited nodes that are not on the stack are finished: their successors are visited, and
what is collected is what they and the finished part of the search have closed. -/
structure Collected (next : α → List α) (roots : List α) (stack : List α) (s : Collection α) :
    Prop where
  stack_visited : ∀ a ∈ stack, a ∈ s.visited
  closed : ∀ a ∈ s.visited, a ∉ stack → ∀ b ∈ next a, b ∈ s.visited
  sound : ∀ v ∈ s.cycleSet, OnFirstCycle next roots v
  complete : ∀ a ∈ s.visited, a ∉ stack → ∀ v, ClosedAt next roots a v → v ∈ s.cycleSet
  acyclic : s.cycleSet = ∅ → Inv next ⟨s.visited, stack.toFinset⟩

theorem collected_empty : Collected next roots [] (⟨∅, ∅⟩ : Collection α) :=
  ⟨by simp, by simp, by simp, by simp, fun _ => inv_empty⟩

theorem Collected.not_leads (h : Collected next roots stack s) (hb : b ∈ s.visited)
    (htarget : target ∉ s.visited) : ¬ Leads next {a | a ∈ stack} target b := by
  rintro ⟨hstack, hway⟩
  have hfinished : ∀ c, ReflTransGen (fun x y => y ∈ next x ∧ y ∉ {a | a ∈ stack}) b c →
      c ∈ s.visited ∧ c ∉ stack := by
    intro c hc
    induction hc with
    | refl => exact ⟨hb, hstack⟩
    | tail _ hedge ih => exact ⟨h.closed _ ih.1 ih.2 _ hedge.1, hedge.2⟩
  exact htarget (hfinished target hway).1

/-- The first way to an unvisited node that can be reached from a choice goes on to the first such
choice that is not visited. -/
theorem Collected.firstWay_cons (h : Collected next roots stack s) {before after : List α}
    (hchoices : choices next roots stack = before ++ a :: after)
    (hbefore : ∀ b ∈ before, b ∈ s.visited) (htarget : target ∉ s.visited)
    (hleads : Leads next s.visited target a) (hway : FirstWay next roots target stack) :
    FirstWay next roots target (a :: stack) := by
  refine .step hway ?_ ⟨before, after, hchoices, ?_, fun b hb => ?_⟩
  · intro hhead
    exact htarget (h.stack_visited target (List.mem_of_mem_head? hhead))
  · exact hleads.mono fun b hb => h.stack_visited b hb
  · exact h.not_leads (hbefore b hb) htarget

theorem Collected.push (h : Collected next roots stack s) (hnode : node ∉ s.visited) :
    Collected next roots (node :: stack) { s with visited := insert node s.visited } := by
  have hold : ∀ a ∈ insert node s.visited, a ∉ node :: stack → a ∈ s.visited ∧ a ∉ stack := by
    intro a ha hstack
    rw [List.mem_cons, not_or] at hstack
    exact ⟨(Finset.mem_insert.mp ha).resolve_left hstack.1, hstack.2⟩
  refine ⟨fun a ha => ?_, fun a ha hstack b hb => ?_, h.sound, fun a ha hstack => ?_,
    fun hempty => ?_⟩
  · rcases List.mem_cons.mp ha with rfl | ha
    · exact Finset.mem_insert_self _ _
    · exact Finset.mem_insert_of_mem (h.stack_visited a ha)
  · obtain ⟨hvisited, hoff⟩ := hold a ha hstack
    exact Finset.mem_insert_of_mem (h.closed a hvisited hoff b hb)
  · obtain ⟨hvisited, hoff⟩ := hold a ha hstack
    exact h.complete a hvisited hoff
  · rw [List.toFinset_cons]
    exact (h.acyclic hempty).push hnode

def Dealt (stack : List α) (s : Collection α) (as : List α) : Prop :=
  ∀ a ∈ as, a ∈ s.visited ∧ (a ∈ stack → ∀ v ∈ segment stack a, v ∈ s.cycleSet)

theorem Dealt.mono {as : List α} (h : Dealt stack s as) (hgrows : Grows s s') : Dealt stack s' as :=
  fun a ha => ⟨hgrows.visited (h a ha).1, fun hstack v hv =>
    hgrows.cycleSet ((h a ha).2 hstack v hv)⟩

theorem self_mem_segment (h : stack.Nodup) (ha : a ∈ stack) : a ∈ segment stack a := by
  obtain ⟨above, below, hsplit⟩ := List.append_of_mem ha
  have hbelow : a ∉ below := by
    rw [hsplit, List.nodup_append, List.nodup_cons] at h
    exact h.2.1.1
  exact (mem_segment hsplit hbelow).mpr (by simp)

theorem Collected.pop (h : Collected next roots (node :: stack) s)
    (hway : FirstWay next roots node (node :: stack))
      (hdealt : Dealt (node :: stack) s (next node)) :
    Collected next roots stack s := by
  have hnodup := hway.nodup
  have hold : ∀ a, a ∉ stack → a = node ∨ a ∉ node :: stack := by
    intro a ha
    by_cases hane : a = node
    · exact Or.inl hane
    · exact Or.inr (List.not_mem_cons_of_ne_of_not_mem hane ha)
  refine ⟨fun a ha => h.stack_visited a (List.mem_cons_of_mem _ ha), fun a ha hstack b hb => ?_,
    h.sound, fun a ha hstack v hv => ?_, fun hempty => ?_⟩
  · rcases hold a hstack with rfl | hoff
    · exact (hdealt b hb).1
    · exact h.closed a ha hoff b hb
  · rcases hold a hstack with rfl | hoff
    · obtain ⟨above, back, below, hway', hend, hback, hv⟩ := hv
      have hsame := hway.unique hway' rfl hend
      have hmem : back ∈ a :: stack := by
        rw [hsame]
        simp
      have hbelow : back ∉ below := by
        rw [hsame, List.nodup_append, List.nodup_cons] at hnodup
        exact hnodup.2.1.1
      exact (hdealt back hback).2 hmem v ((mem_segment hsame hbelow).mpr hv)
    · exact h.complete a ha hoff v hv
  · have hnode : node ∈ (node :: stack).toFinset := by simp
    have herase : (node :: stack).toFinset.erase node = stack.toFinset := by
      rw [List.toFinset_cons, Finset.erase_insert]
      rw [List.mem_toFinset]
      exact (List.nodup_cons.mp hnodup).1
    rw [← herase]
    refine (h.acyclic hempty).pop hnode fun b hb => ⟨(hdealt b hb).1, fun hstack => ?_⟩
    have hstack' := List.mem_toFinset.mp hstack
    have hfound := (hdealt b hb).2 hstack' b (self_mem_segment hnodup hstack')
    rw [hempty] at hfound
    exact Finset.notMem_empty _ hfound

theorem collectAll_collected (dfs : α → Collection α → Option (Collection α)) (before rest : List α)
    (hchoices : choices next roots stack = before ++ rest)
    (hstack : ∀ node, stack.head? = some node → FirstWay next roots node stack)
    (hway : ∀ target, target ∉ s.visited →
      (∃ a ∈ choices next roots stack, Leads next s.visited target a) →
        FirstWay next roots target stack)
    (hdfs : ∀ a ∈ rest, ∀ s', Collected next roots stack s' → Grows s s' → a ∉ s'.visited →
      (∀ target, target ∉ s'.visited → Leads next s'.visited target a →
        FirstWay next roots target (a :: stack)) →
      ∃ s'', dfs a s' = some s'' ∧ Collected next roots stack s'' ∧ Grows s' s'' ∧ a ∈ s''.visited)
    (h : Collected next roots stack s) (hdealt : Dealt stack s before) :
    ∃ s', collectAll dfs stack rest s = some s' ∧ Collected next roots stack s' ∧ Grows s s' ∧
      Dealt stack s' (before ++ rest) := by
  induction rest generalizing s before with
  | nil => exact ⟨s, rfl, h, .refl s, by rwa [List.append_nil]⟩
  | cons a rest ih =>
    have hsplit : before ++ a :: rest = (before ++ [a]) ++ rest := List.append_cons _ _ _
    -- what is left to do once `a` is dealt with
    have hgoOn : ∀ s₁, Collected next roots stack s₁ → Grows s s₁ →
        a ∈ s₁.visited → (a ∈ stack → ∀ v ∈ segment stack a, v ∈ s₁.cycleSet) →
        ∃ s', collectAll dfs stack rest s₁ = some s' ∧ Collected next roots stack s' ∧ Grows s s' ∧
          Dealt stack s' (before ++ a :: rest) := by
      intro s₁ h₁ hgrows hvisited hsegment
      have hdealt₁ : Dealt stack s₁ (before ++ [a]) := by
        intro b hb
        rcases List.mem_append.mp hb with hb | hb
        · exact hdealt.mono hgrows b hb
        · rw [List.mem_singleton.mp hb]
          exact ⟨hvisited, hsegment⟩
      obtain ⟨s', heq, h', hgrows', hdealt'⟩ := ih (before ++ [a]) (hchoices.trans hsplit)
        (fun target htarget ⟨b, hb, hleads⟩ =>
          hway target (fun hmem => htarget (hgrows.visited hmem))
          ⟨b, hb, hleads.mono (Finset.coe_subset.mpr hgrows.visited)⟩)
        (fun b hb s' h' hgrows' => hdfs b (List.mem_cons_of_mem _ hb) s' h' (hgrows.trans hgrows'))
        h₁ hdealt₁
      exact ⟨s', heq, h', hgrows.trans hgrows', hsplit ▸ hdealt'⟩
    unfold collectAll
    split_ifs with hon hvisited
    · -- an edge back to the stack: its top is the end of a first way
      obtain ⟨above, below, habove⟩ := List.append_of_mem hon
      have hclosed : ∀ v ∈ segment stack a, OnFirstCycle next roots v := by
        intro v hv
        cases stack with
        | nil => exact absurd hon List.not_mem_nil
        | cons node stack =>
          have hnode := hstack node rfl
          have hbelow : a ∉ below := by
            have hnodup := hnode.nodup
            rw [habove, List.nodup_append, List.nodup_cons] at hnodup
            exact hnodup.2.1.1
          refine ⟨node, above, a, below, habove ▸ hnode, by rw [← habove]; rfl, ?_,
            (mem_segment habove hbelow).mp hv⟩
          have hmem : a ∈ choices next roots (node :: stack) := by
            rw [hchoices]
            simp
          exact hmem
      refine hgoOn _
        ⟨h.stack_visited, h.closed, fun v hv => ?_, fun b hb hoff v hv => ?_, fun hempty => ?_⟩
        ⟨Finset.Subset.refl _, Finset.subset_union_left⟩ (h.stack_visited a hon)
        fun _ v hv => Finset.mem_union_right _ (List.mem_toFinset.mpr hv)
      · rcases Finset.mem_union.mp hv with hv | hv
        · exact h.sound v hv
        · exact hclosed v (List.mem_toFinset.mp hv)
      · exact Finset.mem_union_left _ (h.complete b hb hoff v hv)
      · exact h.acyclic (Finset.union_eq_empty.mp hempty).1
    · exact hgoOn s h (.refl s) hvisited fun hmem => absurd hmem hon
    · have hbefore : ∀ b ∈ before, b ∈ s.visited := fun b hb => (hdealt b hb).1
      have hmem : a ∈ choices next roots stack := by
        rw [hchoices]
        simp
      obtain ⟨s₁, heq, h₁, hgrows, hdone⟩ := hdfs a List.mem_cons_self s h (.refl s) hvisited
        fun target htarget hleads => h.firstWay_cons hchoices hbefore htarget hleads
          (hway target htarget ⟨a, hmem, hleads⟩)
      rw [heq]
      exact hgoOn s₁ h₁ hgrows hdone fun hstack => absurd hstack hon

/-- With more fuel than unvisited nodes the search from a node comes to an end. It is called with
the first way to every node that can be reached on unvisited nodes. -/
theorem collect_collected {nodes : Finset α} (hnodes : ∀ a ∈ nodes, ∀ b ∈ next a, b ∈ nodes)
    {fuel : ℕ} (h : Collected next roots stack s) (hnode : node ∈ nodes) (hnew : node ∉ s.visited)
    (hfuel : (nodes \ s.visited).card < fuel)
    (hway : ∀ target, target ∉ s.visited → Leads next s.visited target node →
      FirstWay next roots target (node :: stack)) :
    ∃ s', collect next fuel stack node s = some s' ∧ Collected next roots stack s' ∧ Grows s s' ∧
      node ∈ s'.visited := by
  induction fuel generalizing s stack node with
  | zero => exact absurd hfuel (Nat.not_lt_zero _)
  | succ fuel ih =>
    have hfewer : (nodes \ insert node s.visited).card < fuel := by
      have hcard := Finset.card_erase_lt_of_mem (Finset.mem_sdiff.mpr ⟨hnode, hnew⟩)
      rw [Finset.sdiff_insert nodes s.visited node]
      omega
    have hself : FirstWay next roots node (node :: stack) :=
      hway node hnew ⟨fun hmem => hnew (Finset.mem_coe.mp hmem), .refl⟩
    obtain ⟨s', heq, h', hgrows, hdealt⟩ := collectAll_collected
      (collect next fuel (node :: stack)) [] (next node) rfl
      (fun top htop => by
        rw [← Option.some.inj htop]
        exact hself)
      (fun target htarget ⟨b, hb, hleads⟩ => by
        have hold := Finset.subset_insert node s.visited
        refine hway target (fun hmem => htarget (hold hmem)) ?_
        exact (hleads.mono (Finset.coe_subset.mpr hold)).head (by simpa using hnew) hb)
      (fun b hb s' h' hgrows' hb' hway' => by
        refine ih h' (hnodes node hnode b hb) hb' ?_ hway'
        exact (Finset.card_le_card (Finset.sdiff_subset_sdiff (Finset.Subset.refl _)
          hgrows'.visited)).trans_lt hfewer)
      (h.push hnew) (by simp [Dealt])
    refine ⟨s', heq, h'.pop hself hdealt, ⟨?_, hgrows.cycleSet⟩, ?_⟩
    · exact (Finset.subset_insert _ _).trans hgrows.visited
    · exact hgrows.visited (Finset.mem_insert_self _ _)

/-- The collected nodes are those on cycles of a first way and one edge, and there are some if
there is a cycle. Every node with successors has to be a root. -/
theorem cycleNodes_spec (hroots : ∀ a b, b ∈ next a → a ∈ roots) :
    ∃ found, cycleNodes next roots = some found ∧ (∀ v, v ∈ found ↔ OnFirstCycle next roots v) ∧
      (found.Nonempty ↔ Cyclic next) := by
  let nodes := (roots ++ roots.flatMap next).toFinset
  have hclosed : ∀ a ∈ nodes, ∀ b ∈ next a, b ∈ nodes := fun a _ b hb => mem_nodes hroots hb
  have hcard : nodes.card < (roots ++ roots.flatMap next).length + 1 :=
    Nat.lt_succ_of_le (List.toFinset_card_le _)
  obtain ⟨s, heq, h, -, hdealt⟩ := collectAll_collected
    (collect next ((roots ++ roots.flatMap next).length + 1) []) [] roots rfl
    (fun _ h => absurd h (by simp)) (fun _ _ _ => .nil)
    (fun a ha s' h' _ ha' hway' => by
      refine collect_collected hclosed h' ?_ ha' ?_ hway'
      · exact List.mem_toFinset.mpr (List.mem_append_left _ ha)
      · exact (Finset.card_le_card Finset.sdiff_subset).trans_lt hcard)
    (collected_empty : Collected next roots [] _) (by simp [Dealt])
  have hmem : ∀ v, v ∈ s.cycleSet ↔ OnFirstCycle next roots v := by
    refine fun v => ⟨h.sound v, fun ⟨target, hv⟩ => ?_⟩
    have htarget : target ∈ roots := by
      obtain ⟨_, back, _, _, _, hback, _⟩ := hv
      exact hroots target back hback
    exact h.complete target (hdealt target (by simpa using htarget)).1 List.not_mem_nil v hv
  refine ⟨s.cycleSet, by simp only [cycleNodes, heq, Option.map_some], hmem, ?_⟩
  constructor
  · rintro ⟨v, hv⟩
    exact ⟨v, ((hmem v).mp hv).cycle⟩
  · rintro ⟨a, hcycle⟩
    rw [Finset.nonempty_iff_ne_empty]
    intro hempty
    obtain ⟨b, hedge, -⟩ := Relation.TransGen.head'_iff.mp hcycle
    have hvisited := (hdealt a (by simpa using hroots a b hedge)).1
    exact (h.acyclic hempty).acyclic a hvisited (by simp) hcycle

end CycleSearch
