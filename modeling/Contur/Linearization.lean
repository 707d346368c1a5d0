import Mathlib.Algebra.Order.Group.Nat
import Mathlib.Data.List.Perm.Basic
import Mathlib.Logic.Function.Basic
import Contur.Transition

/-!
# Objects that outlive their entry in a registry

A registry hands out references to objects. A call looks its object up in one step and
works on it in another, and in between the object may be taken off the registry. The
call then still finds the object, which nobody reaches any more but others that have
looked it up as well. Such calls have an order in which the registry and the calls are
one step each: a late call comes before the removal of its object, to which it does not
matter.
-/

namespace Linearization
open Function (update)
open Transition

variable {κ σ ι ω θ : Type*}

/-- A call with its answer, and how many calls had ended when it began and when it ended. -/
structure Entry (ι ω : Type*) where
  op : ι
  answer : ω
  began : ℕ
  ended : ℕ

/-- The calls of a history one after the other, with the answers they had. No call comes before one
that had ended when it began. -/
structure Linearizes (M : Machine σ ι ω) (start : σ) (history order : List (Entry ι ω)) : Prop where
  perm : order.Perm history
  answers : M.outs start (order.map (·.op)) = order.map (·.answer)
  realTime : order.Pairwise fun a b => a.began ≤ b.ended

section Map
variable {τ κ ρ : Type*} {M : Machine σ ι ω} {N : Machine τ κ ρ} {R : σ → τ → Prop}
  {P : Entry ι ω → Prop} {f : Entry ι ω → Entry κ ρ} {start : σ} {start' : τ}
  {history order : List (Entry ι ω)}

theorem answers_map
    (hstep : ∀ s t e, P e → R s t → M.out s e.op = e.answer →
      N.out t (f e).op = (f e).answer ∧ R (M.next s e.op) (N.next t (f e).op))
    (hP : ∀ e ∈ order, P e) (hR : R start start')
    (h : M.outs start (order.map (·.op)) = order.map (·.answer)) :
    N.outs start' ((order.map f).map (·.op)) = (order.map f).map (·.answer) := by
  induction order generalizing start start' with
  | nil => rfl
  | cons e order ih =>
    obtain ⟨hfirst, hrest⟩ := List.cons.inj h
    obtain ⟨hanswer, hnext⟩ := hstep start start' e (hP e List.mem_cons_self) hR hfirst
    have htail := ih (fun x hx => hP x (List.mem_cons_of_mem e hx)) hnext hrest
    exact List.cons_eq_cons.mpr ⟨hanswer, htail⟩

theorem Linearizes.map (h : Linearizes M start history order)
    (hstep : ∀ s t e, P e → R s t → M.out s e.op = e.answer →
      N.out t (f e).op = (f e).answer ∧ R (M.next s e.op) (N.next t (f e).op))
    (htime : ∀ e, (f e).began = e.began ∧ (f e).ended = e.ended)
    (hP : ∀ e ∈ history, P e) (hR : R start start') :
    Linearizes N start' (history.map f) (order.map f) where
  perm := h.perm.map f
  answers := answers_map hstep (fun e he => hP e (h.perm.mem_iff.mp he)) hR h.answers
  realTime := by
    refine List.pairwise_map.mpr (h.realTime.imp fun {a b} hab => ?_)
    rw [(htime a).1, (htime b).2]
    exact hab

end Map

inductive Op (κ σ ι : Type*) where
  | register (key : κ) (first : σ)
  | unregister (key : κ)
  | has (key : κ)
  | call (key : κ) (i : ι)

inductive Answer (ω : Type*) where
  | done (accepted : Bool)
  | called (answer : Option ω)
  deriving DecidableEq

section Atomic
variable [DecidableEq κ] (O : Machine σ ι ω)

def exec (registry : κ → Option σ) : Op κ σ ι → Answer ω × (κ → Option σ)
  | .register key first =>
    match registry key with
    | some _ => (.done false, registry)
    | none => (.done true, update registry key (some first))
  | .unregister key =>
    match registry key with
    | none => (.done false, registry)
    | some _ => (.done true, update registry key none)
  | .has key => (.done (registry key).isSome, registry)
  | .call key i =>
    match registry key with
    | none => (.called none, registry)
    | some object => (.called (some (O.out object i)), update registry key (some (O.next object i)))

def machine : Machine (κ → Option σ) (Op κ σ ι) (Answer ω) := ⟨exec O⟩

variable {O} {registry : κ → Option σ} {key : κ} {object : σ}

theorem step_register_of_none (h : registry key = none) (first : σ) :
    (machine O).step registry (.register key first) =
      (.done true, update registry key (some first)) := by
  simp only [machine, exec, h]

theorem step_register_of_some (h : registry key = some object) (first : σ) :
    (machine O).step registry (.register key first) = (.done false, registry) := by
  simp only [machine, exec, h]

theorem step_unregister_of_none (h : registry key = none) :
    (machine O).step registry (.unregister key) = (.done false, registry) := by
  simp only [machine, exec, h]

theorem step_unregister_of_some (h : registry key = some object) :
    (machine O).step registry (.unregister key) = (.done true, update registry key none) := by
  simp only [machine, exec, h]

theorem step_call_of_none (h : registry key = none) (i : ι) :
    (machine O).step registry (.call key i) = (.called none, registry) := by
  simp only [machine, exec, h]

theorem step_call_of_some (h : registry key = some object) (i : ι) :
    (machine O).step registry (.call key i) =
      (.called (some (O.out object i)), update registry key (some (O.next object i))) := by
  simp only [machine, exec, h]

end Atomic

structure Pending (κ ι : Type*) where
  object : ℕ
  key : κ
  i : ι
  began : ℕ

/-- Objects are never thrown away here, the registry says which ones can be looked up. -/
structure Shared (κ σ ι ω θ : Type*) where
  registry : κ → Option ℕ := fun _ => none
  objects : List σ := []
  pending : θ → Option (Pending κ ι) := fun _ => none
  history : List (Entry (Op κ σ ι) (Answer ω)) := []

inductive Step (κ σ ι θ : Type*) where
  | register (key : κ) (first : σ)
  | unregister (key : κ)
  | has (key : κ)
  | find (thread : θ) (key : κ) (i : ι)
  | act (thread : θ)

namespace Shared

def atOnce (s : Shared κ σ ι ω θ) (op : Op κ σ ι) (answer : Answer ω) :
    Entry (Op κ σ ι) (Answer ω) :=
  { op := op, answer := answer, began := s.history.length, ended := s.history.length }

section
variable [DecidableEq κ] [DecidableEq θ] (O : Machine σ ι ω) (s : Shared κ σ ι ω θ)

def next (s : Shared κ σ ι ω θ) : Step κ σ ι θ → Shared κ σ ι ω θ
  | .register key first =>
    match s.registry key with
    | some _ => { s with history := s.history ++ [s.atOnce (.register key first) (.done false)] }
    | none => { s with
        registry := update s.registry key (some s.objects.length)
        objects := s.objects ++ [first]
        history := s.history ++ [s.atOnce (.register key first) (.done true)] }
  | .unregister key =>
    match s.registry key with
    | none => { s with history := s.history ++ [s.atOnce (.unregister key) (.done false)] }
    | some _ => { s with
        registry := update s.registry key none
        history := s.history ++ [s.atOnce (.unregister key) (.done true)] }
  | .has key => { s with
      history := s.history ++ [s.atOnce (.has key) (.done (s.registry key).isSome)] }
  | .find thread key i =>
    match s.pending thread, s.registry key with
    | some _, _ => s
    | none, none => { s with history := s.history ++ [s.atOnce (.call key i) (.called none)] }
    | none, some object => { s with
        pending := update s.pending thread (some ⟨object, key, i, s.history.length⟩) }
  | .act thread =>
    match s.pending thread with
    | none => s
    | some p =>
      match s.objects[p.object]? with
      | none => s
      | some object => { s with
          objects := s.objects.set p.object (O.next object p.i)
          pending := update s.pending thread none
          history := s.history ++ [{ op := .call p.key p.i
                                     answer := .called (some (O.out object p.i))
                                     began := p.began
                                     ended := s.history.length }] }

def machine : Machine (Shared κ σ ι ω θ) (Step κ σ ι θ) Unit := ⟨fun s x => ((), s.next O x)⟩

def view (key : κ) : Option σ := (s.registry key).bind (s.objects[·]?)

end
end Shared

section Ordered
variable [DecidableEq κ] {O : Machine σ ι ω} {history : List (Entry (Op κ σ ι) (Answer ω))}
  {registry registry' : κ → Option σ} {key : κ} {object : σ} {i : ι}
  {e : Entry (Op κ σ ι) (Answer ω)}

abbrev Placed (κ σ ι ω : Type*) := Entry (Op κ σ ι) (Answer ω) × Option ℕ

variable {before after order : List (Placed κ σ ι ω)} {u : Placed κ σ ι ω}

def ops (order : List (Placed κ σ ι ω)) : List (Op κ σ ι) := order.map (·.1.op)

def reach (O : Machine σ ι ω) (order : List (Placed κ σ ι ω)) : κ → Option σ :=
  (machine O).run (fun _ => none) (ops order)

theorem reach_append (before after : List (Placed κ σ ι ω)) :
    reach O (before ++ after) = (machine O).run (reach O before) (ops after) := by
  unfold reach ops
  rw [List.map_append, Machine.run_append]

theorem outs_append (before after : List (Placed κ σ ι ω)) :
    (machine O).outs (fun _ => none) (ops (before ++ after)) =
      (machine O).outs (fun _ => none) (ops before) ++
        (machine O).outs (reach O before) (ops after) := by
  unfold reach ops
  rw [List.map_append, Machine.outs_append]

structure Ordered (O : Machine σ ι ω) (history : List (Entry (Op κ σ ι) (Answer ω)))
    (order : List (Placed κ σ ι ω)) (registry : κ → Option σ) : Prop where
  perm : (order.map (·.1)).Perm history
  answers : (machine O).outs (fun _ => none) (ops order) = order.map (·.1.answer)
  reached : reach O order = registry
  realTime : order.Pairwise fun a b => a.1.began ≤ b.1.ended
  timed : ∀ x ∈ order, x.1.began ≤ x.1.ended ∧ x.1.began ≤ history.length

theorem Ordered.concat (h : Ordered O history order registry) (retired : Option ℕ)
    (hbegan : e.began ≤ history.length) (hended : e.ended = history.length)
    (hstep : (machine O).step registry e.op = (e.answer, registry')) :
    Ordered O (history ++ [e]) (order ++ [(e, retired)]) registry' where
  perm := by
    rw [List.map_append]
    exact h.perm.append_right [e]
  answers := by
    have hlast : (machine O).out registry e.op = e.answer := congrArg Prod.fst hstep
    rw [outs_append, h.answers, h.reached, List.map_append]
    exact congrArg (order.map (·.1.answer) ++ [·]) hlast
  reached := by
    rw [reach_append, h.reached]
    exact congrArg Prod.snd hstep
  realTime := by
    rw [List.pairwise_append]
    refine ⟨h.realTime, List.pairwise_singleton _ _, fun a ha b hb => ?_⟩
    rw [List.mem_singleton.mp hb, hended]
    exact (h.timed a ha).2
  timed := by
    intro x hx
    rw [List.length_append]
    rcases List.mem_append.mp hx with hx | hx
    · exact ⟨(h.timed x hx).1, Nat.le_add_right_of_le (h.timed x hx).2⟩
    · rw [List.mem_singleton.mp hx]
      exact ⟨hbegan.trans hended.ge, Nat.le_add_right_of_le hbegan⟩

theorem next_unregister_call (registry : κ → Option σ) (key : κ) (i : ι) :
    (machine O).step ((machine O).next registry (.call key i)) (.unregister key) =
      (machine O).step registry (.unregister key) := by
  cases hkey : registry key with
  | none =>
    have hsame : (machine O).next registry (.call key i) = registry :=
      congrArg Prod.snd (step_call_of_none hkey i)
    rw [hsame]
  | some object =>
    have hcalled : (machine O).next registry (.call key i) =
        update registry key (some (O.next object i)) := congrArg Prod.snd (step_call_of_some hkey i)
    rw [hcalled, step_unregister_of_some (Function.update_self _ _ _), step_unregister_of_some hkey,
      Function.update_idem]

theorem reach_insert (before after : List (Placed κ σ ι ω)) {x u : Placed κ σ ι ω}
    (hx : x.1.op = .call key i) (hu : u.1.op = .unregister key) :
    reach O (before ++ x :: u :: after) = reach O (before ++ u :: after) := by
  have hnext : (machine O).next ((machine O).next (reach O before) x.1.op) u.1.op =
      (machine O).next (reach O before) u.1.op := by
    rw [hx, hu]
    exact congrArg Prod.snd (next_unregister_call (reach O before) key i)
  rw [reach_append, reach_append]
  exact congrArg (fun registry => (machine O).run registry (ops after)) hnext

theorem Ordered.insert (h : Ordered O history (before ++ u :: after) registry)
    (hu : u.1.op = .unregister key) (hobject : reach O before key = some object)
    (hop : e.op = .call key i) (hanswer : e.answer = .called (some (O.out object i)))
    (hbegan : e.began ≤ u.1.began) (hended : e.ended = history.length) :
    Ordered O (history ++ [e]) (before ++ (e, none) :: u :: after) registry := by
  have hcalled : (machine O).out (reach O before) e.op = e.answer := by
    rw [hop, hanswer]
    exact congrArg Prod.fst (step_call_of_some hobject i)
  have hstep : (machine O).step ((machine O).next (reach O before) e.op) u.1.op =
      (machine O).step (reach O before) u.1.op := by
    rw [hop, hu]
    exact next_unregister_call (reach O before) key i
  -- what comes after the removal is not touched
  have hnext : (machine O).next ((machine O).next (reach O before) e.op) u.1.op =
      (machine O).next (reach O before) u.1.op := congrArg Prod.snd hstep
  have hout : (machine O).out ((machine O).next (reach O before) e.op) u.1.op =
      (machine O).out (reach O before) u.1.op := congrArg Prod.fst hstep
  obtain ⟨hbefore, hafter, hacross⟩ := List.pairwise_append.mp h.realTime
  refine ⟨?_, ?_, ?_, ?_, ?_⟩
  · have hperm : (before.map (·.1) ++ e :: (u :: after).map (·.1)).Perm
        (e :: (before ++ u :: after).map (·.1)) := by
      rw [List.map_append]
      exact List.perm_middle
    rw [List.map_append]
    exact hperm.trans ((h.perm.cons e).trans (List.perm_append_singleton e history).symm)
  · have hanswers := h.answers
    rw [outs_append, List.map_append] at hanswers
    have hlength : ((machine O).outs (fun _ => none) (ops before)).length =
        (before.map (·.1.answer)).length := by
      rw [Machine.length_outs, ops, List.length_map, List.length_map]
    obtain ⟨hfirst, hlast⟩ := List.append_inj hanswers hlength
    rw [outs_append, List.map_append, hfirst]
    refine congrArg (before.map (·.1.answer) ++ ·) ?_
    change (machine O).out (reach O before) e.op ::
      (machine O).out ((machine O).next (reach O before) e.op) u.1.op ::
        (machine O).outs
          ((machine O).next ((machine O).next (reach O before) e.op) u.1.op) (ops after) =
      e.answer :: (u :: after).map (·.1.answer)
    rw [hcalled, hout, hnext]
    exact congrArg (e.answer :: ·) hlast
  · rw [← h.reached]
    exact reach_insert before after hop hu
  · rw [List.pairwise_append]
    refine ⟨hbefore, List.pairwise_cons.mpr ⟨fun b hb => ?_, hafter⟩, fun a ha b hb => ?_⟩
    · rcases List.mem_cons.mp hb with rfl | hb
      · exact hbegan.trans (h.timed b (by simp)).1
      · exact hbegan.trans ((List.pairwise_cons.mp hafter).1 b hb)
    · rcases List.mem_cons.mp hb with rfl | hb
      · exact (h.timed a (List.mem_append_left _ ha)).2.trans hended.ge
      · exact hacross a ha b hb
  · intro x hx
    rw [List.length_append]
    have hmem : x = (e, none) ∨ x ∈ before ++ u :: after := by
      simp only [List.mem_append, List.mem_cons] at hx ⊢
      tauto
    rcases hmem with rfl | hx
    · have hle : u.1.began ≤ history.length := (h.timed u (by simp)).2
      exact ⟨(hbegan.trans hle).trans hended.ge, Nat.le_add_right_of_le (hbegan.trans hle)⟩
    · exact ⟨(h.timed x hx).1, Nat.le_add_right_of_le (h.timed x hx).2⟩

end Ordered

namespace Shared
variable {O : Machine σ ι ω} {s s' : Shared κ σ ι ω θ} {order : List (Placed κ σ ι ω)} {o : ℕ}
    {key : κ}
  {thread : θ} {p : Pending κ ι}

theorem view_of_some (h : s.registry key = some o) : s.view key = s.objects[o]? := by
  rw [view, h]
  rfl

theorem view_of_none (h : s.registry key = none) : s.view key = none := by
  rw [view, h]
  rfl

theorem pending_of_update [DecidableEq θ] {thread' : θ}
    (h : update s.pending thread none thread' = some p) : s.pending thread' = some p := by
  by_cases hne : thread' = thread
  · rw [hne, Function.update_self] at h
    cases h
  · rwa [Function.update_of_ne hne] at h

variable [DecidableEq κ]

/-- A removed object is as the calls before its removal have left it, and the calls that still have
it began before that. -/
def Cut (O : Machine σ ι ω) (s : Shared κ σ ι ω θ) (order : List (Placed κ σ ι ω)) (o : ℕ) : Prop :=
  ∃ (before : List (Placed κ σ ι ω)) (u : Placed κ σ ι ω) (after : List (Placed κ σ ι ω)) (key : κ),
    order = before ++ u :: after ∧ u.2 = some o ∧ u.1.op = .unregister key ∧
      reach O before key = s.objects[o]? ∧
      ∀ thread p, s.pending thread = some p → p.object = o → p.key = key ∧ p.began ≤ u.1.began

structure Inv (O : Machine σ ι ω) (s : Shared κ σ ι ω θ) (order : List (Placed κ σ ι ω)) :
    Prop where
  ordered : Ordered O s.history order s.view
  valid : ∀ key o, s.registry key = some o → o < s.objects.length
  injective : ∀ key key' o, s.registry key = some o → s.registry key' = some o → key = key'
  pending : ∀ thread p, s.pending thread = some p →
    p.object < s.objects.length ∧ p.began ≤ s.history.length
  keyed : ∀ key thread p, s.pending thread = some p → s.registry key = some p.object → p.key = key
  cut : ∀ o, o < s.objects.length → (∀ key, s.registry key ≠ some o) → Cut O s order o

theorem Inv.object (h : Inv O s order) (hkey : s.registry key = some o) :
    ∃ object, s.objects[o]? = some object ∧ s.view key = some object := by
  have hlt := h.valid key o hkey
  exact ⟨s.objects[o], List.getElem?_eq_getElem hlt,
    (view_of_some hkey).trans (List.getElem?_eq_getElem hlt)⟩

theorem Cut.concat (h : Cut O s order o) (x : Placed κ σ ι ω)
    (hobject : s'.objects[o]? = s.objects[o]?)
    (hpending : ∀ thread p, s'.pending thread = some p → p.object = o → s.pending thread = some p) :
    Cut O s' (order ++ [x]) o := by
  obtain ⟨before, u, after, key, rfl, hu, hop, hreach, hcalls⟩ := h
  refine ⟨before, u, after ++ [x], key, by simp, hu, hop, hreach.trans hobject.symm, ?_⟩
  intro thread p hp ho
  exact hcalls thread p (hpending thread p hp ho) ho

theorem Cut.insert {before after : List (Placed κ σ ι ω)} {x u : Placed κ σ ι ω} {i : ι}
    (h : Cut O s (before ++ u :: after) o) (hx : x.1.op = .call key i)
      (hu : u.1.op = .unregister key)
    (hother : u.2 ≠ some o) (hobject : s'.objects[o]? = s.objects[o]?)
    (hpending : ∀ thread p, s'.pending thread = some p → s.pending thread = some p) :
    Cut O s' (before ++ x :: u :: after) o := by
  obtain ⟨before', u', after', key', horder, hu', hop, hreach, hcalls⟩ := h
  have hcalls' : ∀ thread p, s'.pending thread = some p → p.object = o →
      p.key = key' ∧ p.began ≤ u'.1.began :=
    fun thread p hp ho => hcalls thread p (hpending thread p hp) ho
  rcases List.append_eq_append_iff.mp horder with ⟨middle, rfl, hrest⟩ | ⟨middle, rfl, hrest⟩
  · -- the removal of the other object comes later
    cases middle with
    | nil =>
      rw [List.nil_append] at hrest
      obtain ⟨rfl, -⟩ := List.cons.inj hrest
      exact absurd hu' hother
    | cons first middle =>
      obtain ⟨rfl, rfl⟩ := List.cons.inj hrest
      refine ⟨before ++ x :: u :: middle, u', after', key', by simp, hu', hop, ?_, hcalls'⟩
      rw [reach_insert before middle hx hu, hreach, hobject]
  · cases middle with
    | nil =>
      rw [List.nil_append] at hrest
      obtain ⟨rfl, -⟩ := List.cons.inj hrest
      exact absurd hu' hother
    | cons first middle =>
      obtain ⟨rfl, rfl⟩ := List.cons.inj hrest
      exact ⟨before', u', middle ++ x :: u :: after, key', by simp, hu', hop,
        hreach.trans hobject.symm, hcalls'⟩

theorem Inv.note (h : Inv O s order) {op : Op κ σ ι} {answer : Answer ω}
    (hstep : (Linearization.machine O).step s.view op = (answer, s.view)) :
    Inv O { s with history := s.history ++ [s.atOnce op answer] }
      (order ++ [(s.atOnce op answer, none)]) where
  ordered := h.ordered.concat none le_rfl rfl hstep
  valid := h.valid
  injective := h.injective
  pending thread p hp := by
    refine ⟨(h.pending thread p hp).1, ?_⟩
    rw [List.length_append]
    exact Nat.le_add_right_of_le (h.pending thread p hp).2
  keyed := h.keyed
  cut o ho hdead := (h.cut o ho hdead).concat _ rfl fun _ _ hp _ => hp

theorem inv_init : Inv O ({} : Shared κ σ ι ω θ) [] where
  ordered := ⟨.nil, rfl, rfl, .nil, fun x hx => by cases hx⟩
  valid key o hkey := by cases hkey
  injective key key' o hkey := by cases hkey
  pending thread p hp := by cases hp
  keyed key thread p hp := by cases hp
  cut o ho := by cases ho

variable [DecidableEq θ]

theorem Inv.register (h : Inv O s order) (key : κ) (first : σ) :
    ∃ order', Inv O (s.next O (.register key first)) order' := by
  simp only [next]
  cases hkey : s.registry key with
  | some o =>
    obtain ⟨object, -, hview⟩ := h.object hkey
    exact ⟨_, h.note (step_register_of_some hview first)⟩
  | none =>
    have hview : Shared.view
        { s with
          registry := update s.registry key (some s.objects.length)
          objects := s.objects ++ [first]
          history := s.history ++ [s.atOnce (.register key first) (.done true)] } =
        update s.view key (some first) := by
      funext key'
      by_cases hne : key' = key
      · subst hne
        rw [Function.update_self]
        simp [view]
      · rw [Function.update_of_ne hne]
        cases hkey' : s.registry key' with
        | none => simp [view, hne, hkey']
        | some o =>
          have hlt := h.valid key' o hkey'
          simp [view, hne, hkey', List.getElem?_append_left hlt]
    have hordered :=
      h.ordered.concat (e := s.atOnce (.register key first) (.done true)) none le_rfl rfl
      (step_register_of_none (view_of_none hkey) first)
    -- the new object is behind the old ones
    have hold : ∀ {key' o}, update s.registry key (some s.objects.length) key' = some o →
        o < s.objects.length → key' ≠ key ∧ s.registry key' = some o := by
      intro key' o hkey' hlt
      by_cases hne : key' = key
      · rw [hne, Function.update_self, Option.some.injEq] at hkey'
        omega
      · rw [Function.update_of_ne hne] at hkey'
        exact ⟨hne, hkey'⟩
    have hnew : ∀ {key' o}, update s.registry key (some s.objects.length) key' = some o →
        ¬ o < s.objects.length → key' = key ∧ o = s.objects.length := by
      intro key' o hkey' hge
      by_cases hne : key' = key
      · rw [hne, Function.update_self, Option.some.injEq] at hkey'
        exact ⟨hne, hkey'.symm⟩
      · rw [Function.update_of_ne hne] at hkey'
        exact absurd (h.valid key' o hkey') hge
    refine ⟨_, ⟨hview ▸ hordered, ?_, ?_, ?_, ?_, ?_⟩⟩
    · intro key' o hkey'
      rw [List.length_append]
      by_cases hlt : o < s.objects.length
      · exact Nat.lt_add_right _ hlt
      · rw [(hnew hkey' hlt).2]
        exact Nat.lt_succ_self _
    · intro key' key'' o hkey' hkey''
      by_cases hlt : o < s.objects.length
      · exact h.injective key' key'' o (hold hkey' hlt).2 (hold hkey'' hlt).2
      · exact (hnew hkey' hlt).1.trans (hnew hkey'' hlt).1.symm
    · intro thread p hp
      rw [List.length_append, List.length_append]
      exact ⟨Nat.lt_add_right _ (h.pending thread p hp).1,
        Nat.le_add_right_of_le (h.pending thread p hp).2⟩
    · intro key' thread p hp hkey'
      exact h.keyed key' thread p hp (hold hkey' (h.pending thread p hp).1).2
    · intro o ho hdead
      have hlt : o < s.objects.length := by
        rw [List.length_append, List.length_singleton] at ho
        have hne : o ≠ s.objects.length := by
          intro heq
          refine hdead key ?_
          rw [heq]
          exact Function.update_self _ _ _
        omega
      refine (h.cut o hlt fun key' hkey' => hdead key' ?_).concat _ (List.getElem?_append_left hlt)
        fun _ _ hp _ => hp
      by_cases hne : key' = key
      · rw [hne, hkey] at hkey'
        cases hkey'
      · exact (Function.update_of_ne hne _ _).trans hkey'

theorem Inv.unregister (h : Inv O s order) (key : κ) :
    ∃ order', Inv O (s.next O (.unregister key)) order' := by
  simp only [next]
  cases hkey : s.registry key with
  | none => exact ⟨_, h.note (step_unregister_of_none (view_of_none hkey))⟩
  | some o =>
    obtain ⟨object, hobject, hlook⟩ := h.object hkey
    have hview : Shared.view
        { s with
          registry := update s.registry key none
          history := s.history ++ [s.atOnce (.unregister key) (.done true)] } =
        update s.view key none := by
      funext key'
      by_cases hne : key' = key
      · simp [view, hne]
      · simp [view, hne]
    have hordered :=
      h.ordered.concat (e := s.atOnce (.unregister key) (.done true)) (some o) le_rfl rfl
      (step_unregister_of_some hlook)
    have hrest : ∀ {key' o'}, update s.registry key none key' = some o' →
        s.registry key' = some o' ∧ key' ≠ key := by
      intro key' o' hkey'
      by_cases hne : key' = key
      · rw [hne, Function.update_self] at hkey'
        cases hkey'
      · rw [Function.update_of_ne hne] at hkey'
        exact ⟨hkey', hne⟩
    refine ⟨_, ⟨hview ▸ hordered, ?_, ?_, ?_, ?_, ?_⟩⟩
    · intro key' o' hkey'
      exact h.valid key' o' (hrest hkey').1
    · intro key' key'' o' hkey' hkey''
      exact h.injective key' key'' o' (hrest hkey').1 (hrest hkey'').1
    · intro thread p hp
      rw [List.length_append]
      exact ⟨(h.pending thread p hp).1, Nat.le_add_right_of_le (h.pending thread p hp).2⟩
    · intro key' thread p hp hkey'
      exact h.keyed key' thread p hp (hrest hkey').1
    · intro o' ho' hdead
      by_cases hsame : o' = o
      · -- the object that is removed now
        refine ⟨order, (s.atOnce (.unregister key) (.done true), some o), [], key, rfl,
          congrArg some hsame.symm, rfl, ?_, ?_⟩
        · rw [h.ordered.reached, hlook, hsame, hobject]
        · intro thread p hp hobj
          refine ⟨h.keyed key thread p hp ?_, (h.pending thread p hp).2⟩
          rw [hkey, hobj, hsame]
      · refine (h.cut o' ho' fun key' hkey' => hdead key' ?_).concat _ rfl fun _ _ hp _ => hp
        have hne : key' ≠ key := by
          rintro rfl
          rw [hkey, Option.some.injEq] at hkey'
          exact hsame hkey'.symm
        exact (Function.update_of_ne hne _ _).trans hkey'

theorem Inv.has (h : Inv O s order) (key : κ) : ∃ order', Inv O (s.next O (.has key)) order' := by
  have hsome : (s.view key).isSome = (s.registry key).isSome := by
    cases hkey : s.registry key with
    | none =>
      rw [view_of_none hkey]
      rfl
    | some o =>
      obtain ⟨object, -, hlook⟩ := h.object hkey
      rw [hlook]
      rfl
  exact ⟨_, h.note (congrArg (fun b => (Answer.done b, s.view)) hsome)⟩

theorem Inv.find (h : Inv O s order) (thread : θ) (key : κ) (i : ι) :
    ∃ order', Inv O (s.next O (.find thread key i)) order' := by
  simp only [next]
  cases hpending : s.pending thread with
  | some p => exact ⟨order, h⟩
  | none =>
    cases hkey : s.registry key with
    | none => exact ⟨_, h.note (step_call_of_none (view_of_none hkey) i)⟩
    | some o =>
      have hcases : ∀ {thread' p},
        update s.pending thread (some ⟨o, key, i, s.history.length⟩) thread' =
          some p → p = ⟨o, key, i, s.history.length⟩ ∨ s.pending thread' = some p := by
        intro thread' p hp
        by_cases hne : thread' = thread
        · rw [hne, Function.update_self, Option.some.injEq] at hp
          exact Or.inl hp.symm
        · rw [Function.update_of_ne hne] at hp
          exact Or.inr hp
      refine ⟨order, ⟨h.ordered, h.valid, h.injective, ?_, ?_, ?_⟩⟩
      · intro thread' p hp
        rcases hcases hp with rfl | hp
        · exact ⟨h.valid key o hkey, le_rfl⟩
        · exact h.pending thread' p hp
      · intro key' thread' p hp hkey'
        rcases hcases hp with rfl | hp
        · exact h.injective key key' o hkey hkey'
        · exact h.keyed key' thread' p hp hkey'
      · intro o' ho' hdead
        obtain ⟨before, u, after, key', horder, hu, hop, hreach, hcalls⟩ := h.cut o' ho' hdead
        refine ⟨before, u, after, key', horder, hu, hop, hreach, fun thread' p hp hobj => ?_⟩
        rcases hcases hp with rfl | hp
        · obtain rfl : o = o' := hobj
          exact absurd hkey (hdead key)
        · exact hcalls thread' p hp hobj

theorem Inv.act_registered (h : Inv O s order) (hp : s.pending thread = some p) {object : σ}
    (hobject : s.objects[p.object]? = some object) (hkey : s.registry p.key = some p.object) :
    ∃ order', Inv O (s.next O (.act thread)) order' := by
  have hlt := (h.pending thread p hp).1
  have hview : Shared.view
      { s with
        objects := s.objects.set p.object (O.next object p.i)
        pending := update s.pending thread none } =
      update s.view p.key (some (O.next object p.i)) := by
    funext key'
    by_cases hne : key' = p.key
    · rw [hne, Function.update_self]
      simp [view, hkey, hlt]
    · rw [Function.update_of_ne hne]
      cases hkey' : s.registry key' with
      | none => simp [view, hkey']
      | some o =>
        have hother : p.object ≠ o := by
          rintro rfl
          exact hne (h.injective key' p.key _ hkey' hkey)
        simp [view, hkey', hother]
  have hlook : s.view p.key = some object := (view_of_some hkey).trans hobject
  have hordered := h.ordered.concat
    (e := ⟨.call p.key p.i, .called (some (O.out object p.i)), p.began, s.history.length⟩) none
    (h.pending thread p hp).2 rfl (step_call_of_some hlook p.i)
  simp only [next, hp, hobject]
  refine ⟨_, ⟨hview ▸ hordered, ?_, h.injective, ?_, ?_, ?_⟩⟩
  · intro key' o hkey'
    rw [List.length_set]
    exact h.valid key' o hkey'
  · intro thread' p' hp'
    rw [List.length_set, List.length_append]
    have hbefore := h.pending thread' p' (pending_of_update hp')
    exact ⟨hbefore.1, Nat.le_add_right_of_le hbefore.2⟩
  · intro key' thread' p' hp' hkey'
    exact h.keyed key' thread' p' (pending_of_update hp') hkey'
  · intro o ho hdead
    rw [List.length_set] at ho
    have hother : p.object ≠ o := by
      rintro rfl
      exact hdead p.key hkey
    exact (h.cut o ho hdead).concat _ (List.getElem?_set_ne hother) fun _ _ hp' _ =>
      pending_of_update hp'

theorem Inv.act_removed (h : Inv O s order) (hp : s.pending thread = some p) {object : σ}
    (hobject : s.objects[p.object]? = some object) (hdead : ∀ key, s.registry key ≠ some p.object) :
    ∃ order', Inv O (s.next O (.act thread)) order' := by
  have hlt := (h.pending thread p hp).1
  obtain ⟨before, u, after, key, rfl, hu, hop, hreach, hcalls⟩ := h.cut p.object hlt hdead
  obtain ⟨hkey, hbegan⟩ := hcalls thread p hp rfl
  have hview : Shared.view
      { s with
        objects := s.objects.set p.object (O.next object p.i)
        pending := update s.pending thread none } = s.view := by
    funext key'
    cases hkey' : s.registry key' with
    | none => simp [view, hkey']
    | some o =>
      have hother : p.object ≠ o := by
        rintro rfl
        exact hdead key' hkey'
      simp [view, hkey', hother]
  have hordered := h.ordered.insert
    (e := ⟨.call p.key p.i, .called (some (O.out object p.i)), p.began, s.history.length⟩)
    (i := p.i) hop (hreach.trans hobject) (by rw [hkey]) rfl hbegan rfl
  simp only [next, hp, hobject]
  refine ⟨_, ⟨hview ▸ hordered, ?_, h.injective, ?_, ?_, ?_⟩⟩
  · intro key' o hkey'
    rw [List.length_set]
    exact h.valid key' o hkey'
  · intro thread' p' hp'
    rw [List.length_set, List.length_append]
    have hbefore := h.pending thread' p' (pending_of_update hp')
    exact ⟨hbefore.1, Nat.le_add_right_of_le hbefore.2⟩
  · intro key' thread' p' hp' hkey'
    exact h.keyed key' thread' p' (pending_of_update hp') hkey'
  · intro o ho hdead'
    rw [List.length_set] at ho
    by_cases hsame : o = p.object
    · subst hsame
      refine ⟨before ++ [(⟨.call p.key p.i, .called (some (O.out object p.i)), p.began,
        s.history.length⟩, none)], u, after, key, by simp, hu, hop, ?_, ?_⟩
      · have hcalled : (Linearization.machine O).next (reach O before) (.call p.key p.i) =
            update (reach O before) p.key (some (O.next object p.i)) :=
          congrArg Prod.snd (step_call_of_some (hkey ▸ hreach.trans hobject) p.i)
        rw [reach_append]
        refine (congrFun hcalled key).trans ?_
        rw [hkey, Function.update_self]
        exact (List.getElem?_set_self hlt).symm
      · intro thread' p' hp' hobj
        exact hcalls thread' p' (pending_of_update hp') hobj
    · refine (h.cut o ho hdead').insert (i := p.i) rfl (hop.trans (by rw [hkey])) ?_
        (List.getElem?_set_ne (Ne.symm hsame)) fun _ _ hp' => pending_of_update hp'
      rw [hu]
      exact fun heq => hsame (Option.some.inj heq).symm

theorem Inv.act (h : Inv O s order) (thread : θ) : ∃ order',
    Inv O (s.next O (.act thread)) order' := by
  cases hp : s.pending thread with
  | none =>
    simp only [next, hp]
    exact ⟨order, h⟩
  | some p =>
    have hlt : p.object < s.objects.length := (h.pending thread p hp).1
    have hobject : s.objects[p.object]? = some s.objects[p.object] := List.getElem?_eq_getElem hlt
    by_cases hlive : ∃ key, s.registry key = some p.object
    · obtain ⟨key, hkey⟩ := hlive
      have hown : p.key = key := h.keyed key thread p hp hkey
      exact h.act_registered hp hobject (hown ▸ hkey)
    · exact h.act_removed hp hobject fun key hkey => hlive ⟨key, hkey⟩

theorem Inv.next (h : Inv O s order) (x : Step κ σ ι θ) : ∃ order', Inv O (s.next O x) order' := by
  cases x with
  | register key first => exact h.register key first
  | unregister key => exact h.unregister key
  | has key => exact h.has key
  | find thread key i => exact h.find thread key i
  | act thread => exact h.act thread

theorem run_inv (xs : List (Step κ σ ι θ)) : ∃ order, Inv O ((machine O).run {} xs) order :=
  (machine O).run_invariant (P := fun s => ∃ order, Inv O s order)
    (fun _ x ⟨_, h⟩ => h.next x) ⟨[], inv_init⟩ xs

end Shared

theorem Ordered.linearizes [DecidableEq κ] {O : Machine σ ι ω}
    {history : List (Entry (Op κ σ ι) (Answer ω))}
    {order : List (Placed κ σ ι ω)} {registry : κ → Option σ}
      (h : Ordered O history order registry) :
    Linearizes (machine O) (fun _ => none) history (order.map (·.1)) where
  perm := h.perm
  answers := by
    rw [List.map_map, List.map_map]
    exact h.answers
  realTime := List.pairwise_map.mpr h.realTime

theorem run_linearizes [DecidableEq κ] [DecidableEq θ] (O : Machine σ ι ω)
    (xs : List (Step κ σ ι θ)) :
    ∃ order, Linearizes (machine O) (fun _ => none)
      ((Shared.machine O).run {} xs).history order := by
  obtain ⟨order, h⟩ := Shared.run_inv (O := O) xs
  exact ⟨_, h.ordered.linearizes⟩

end Linearization
