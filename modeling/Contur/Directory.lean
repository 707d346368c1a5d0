import Mathlib.Data.List.AList
import Mathlib.Data.List.Induction
import Contur.Transition

/-!
# Directories of objects under keys

A machine can keep objects of one kind under keys: an operation creates the object
under a key, calls it, destroys it or leaves it alone. The object under a key is then
what its own machine makes of the calls since it was created, and the users of a key
learn nothing of the operations on the other keys.
-/

namespace Directory
open Transition

variable {α σ τ ι κ ω ρ : Type*}

inductive Effect (σ ι : Type*) where
  | keep
  | create (first : σ)
  | call (i : ι)
  | destroy

namespace Effect
variable (O : Machine σ ι ω)

def apply (object : Option σ) : Effect σ ι → Option σ
  | keep => object
  | create first => some (object.getD first)
  | call i => object.map (O.next · i)
  | destroy => none

def applyAll (object : Option σ) (es : List (Effect σ ι)) : Option σ := es.foldl (apply O) object

def call? : Effect σ ι → Option ι
  | call i => some i
  | _ => none

def calls (es : List (Effect σ ι)) : List ι := es.filterMap call?

theorem applyAll_append (object : Option σ) (es es' : List (Effect σ ι)) :
    applyAll O object (es ++ es') = applyAll O (applyAll O object es) es' := List.foldl_append

theorem applyAll_concat (object : Option σ) (es : List (Effect σ ι)) (e : Effect σ ι) :
    applyAll O object (es ++ [e]) = apply O (applyAll O object es) e :=
      applyAll_append O object es [e]

theorem calls_concat (es : List (Effect σ ι)) (e : Effect σ ι) :
    calls (es ++ [e]) = calls es ++ (call? e).toList := by
  unfold calls
  rw [List.filterMap_append]
  cases e <;> rfl

theorem applyAll_some {es : List (Effect σ ι)} (h : destroy ∉ es) (object : σ) :
    applyAll O (some object) es = some (O.run object (calls es)) := by
  induction es generalizing object with
  | nil => rfl
  | cons e es ih =>
    rw [List.mem_cons, not_or] at h
    cases e with
    | keep => exact ih h.2 object
    | create first => exact ih h.2 object
    | call i => exact ih h.2 (O.next object i)
    | destroy => exact absurd rfl h.1

theorem applyAll_eq_some {es : List (Effect σ ι)} {object : σ} :
    applyAll O none es = some object ↔ ∃ before first after, es = before ++ create first :: after ∧
      applyAll O none before = none ∧ destroy ∉ after ∧ object = O.run first (calls after) := by
  constructor
  · intro h
    induction es using List.reverseRecOn generalizing object with
    | nil => cases h
    | append_singleton es e ih =>
      rw [applyAll_concat] at h
      -- one more effect that does not create the object comes after its creation
      have later : ∀ {object'}, applyAll O none es = some object' → e ≠ destroy →
          object = O.run object' (call? e).toList → ∃ before first after,
            es ++ [e] = before ++ create first :: after ∧ applyAll O none before = none ∧
              destroy ∉ after ∧ object = O.run first (calls after) := by
        intro object' hobject he hrun
        obtain ⟨before, first, after, rfl, hbefore, hafter, rfl⟩ := ih hobject
        refine ⟨before, first, after ++ [e], by simp, hbefore, ?_, ?_⟩
        · simp [hafter, Ne.symm he]
        · rw [calls_concat, Machine.run_append, hrun]
      cases hes : applyAll O none es with
      | none =>
        rw [hes] at h
        cases e with
        | create first =>
            exact ⟨es, first, [], rfl, hes, List.not_mem_nil, (Option.some.inj h).symm⟩
        | keep | call | destroy => cases h
      | some object' =>
        rw [hes] at h
        cases e with
        | keep | create | call => exact later hes (by simp) (Option.some.inj h).symm
        | destroy => cases h
  · rintro ⟨before, first, after, rfl, hbefore, hafter, rfl⟩
    rw [applyAll_append, hbefore]
    exact applyAll_some O hafter first

end Effect

/-- The machine `M` keeps objects with the machine `O`. Here `view` looks up the object under a key,
`effect` is what an operation does to it, `concerns` says which operations have to do with a key,
and `reply` is what they answer. -/
structure Keeps (M : Machine τ κ ρ) (O : Machine σ ι ω) (view : τ → α → Option σ)
    (effect : α → κ → Effect σ ι) (concerns : α → κ → Bool) (reply : α → κ → Option σ → ρ) :
    Prop where
  view_next : ∀ s i x, view (M.next s i) x = (effect x i).apply O (view s x)
  keep : ∀ x i, concerns x i = false → effect x i = .keep
  out : ∀ s i x, concerns x i = true → M.out s i = reply x i (view s x)

def answers (M : Machine τ κ ρ) (p : κ → Bool) : τ → List κ → List ρ
  | _, [] => []
  | s, i :: is =>
    if p i then M.out s i :: answers M p (M.next s i) is else answers M p (M.next s i) is

namespace Keeps
variable {M : Machine τ κ ρ} {O : Machine σ ι ω} {view : τ → α → Option σ}
  {effect : α → κ → Effect σ ι} {concerns : α → κ → Bool} {reply : α → κ → Option σ → ρ}

theorem view_run (h : Keeps M O view effect concerns reply) (s : τ) (is : List κ) (x : α) :
    view (M.run s is) x = Effect.applyAll O (view s x) (is.map (effect x)) := by
  induction is generalizing s with
  | nil => rfl
  | cons i is ih =>
    rw [Machine.run_cons, ih, h.view_next]
    rfl

theorem lifetime (h : Keeps M O view effect concerns reply) {s : τ} {x : α} (hs : view s x = none)
    {is : List κ} {object : σ} :
    view (M.run s is) x = some object ↔ ∃ before i first after, is = before ++ i :: after ∧
      effect x i = .create first ∧ view (M.run s before) x = none ∧
      (∀ j ∈ after, effect x j ≠ .destroy) ∧
      object = O.run first (Effect.calls (after.map (effect x))) := by
  rw [h.view_run, hs, Effect.applyAll_eq_some]
  constructor
  · rintro ⟨before, first, after, hes, hbefore, hafter, hobject⟩
    obtain ⟨is₁, is₂, rfl, rfl, his₂⟩ := List.map_eq_append_iff.mp hes
    obtain ⟨i, is₃, rfl, hi, rfl⟩ := List.map_eq_cons_iff.mp his₂
    refine ⟨is₁, i, first, is₃, rfl, hi, ?_, fun j hj hdestroy => ?_, hobject⟩
    · rw [h.view_run, hs]
      exact hbefore
    · exact hafter (List.mem_map.mpr ⟨j, hj, hdestroy⟩)
  · rintro ⟨before, i, first, after, rfl, hi, hbefore, hafter, hobject⟩
    rw [h.view_run, hs] at hbefore
    refine ⟨before.map (effect x), first, after.map (effect x), ?_, hbefore, ?_, hobject⟩
    · rw [List.map_append, List.map_cons, hi]
    · rintro hmem
      obtain ⟨j, hj, hdestroy⟩ := List.mem_map.mp hmem
      exact hafter j hj hdestroy

theorem run_filter (h : Keeps M O view effect concerns reply) {s s' : τ} {x : α}
    (hview : view s x = view s' x) (is : List κ) :
    answers M (concerns x) s is = answers M (concerns x) s' (is.filter (concerns x)) ∧
      view (M.run s is) x = view (M.run s' (is.filter (concerns x))) x := by
  induction is generalizing s s' with
  | nil => exact ⟨rfl, hview⟩
  | cons i is ih =>
    by_cases hi : concerns x i = true
    · have hnext : view (M.next s i) x = view (M.next s' i) x := by
        rw [h.view_next, h.view_next, hview]
      have hout : M.out s i = M.out s' i := by rw [h.out s i x hi, h.out s' i x hi, hview]
      obtain ⟨hanswers, hrun⟩ := ih hnext
      rw [List.filter_cons_of_pos hi]
      refine ⟨?_, hrun⟩
      rw [answers, answers, if_pos hi, if_pos hi, hout, hanswers]
    · have hnext : view (M.next s i) x = view s' x := by
        rw [h.view_next, h.keep x i (by simpa using hi)]
        exact hview
      obtain ⟨hanswers, hrun⟩ := ih hnext
      rw [List.filter_cons_of_neg hi]
      refine ⟨?_, hrun⟩
      rw [answers, if_neg hi, hanswers]

theorem isolated (h : Keeps M O view effect concerns reply) (s : τ) (x : α) {is is' : List κ}
    (hsame : is.filter (concerns x) = is'.filter (concerns x)) :
    answers M (concerns x) s is = answers M (concerns x) s is' ∧
      view (M.run s is) x = view (M.run s is') x := by
  obtain ⟨hanswers, hrun⟩ := h.run_filter (s := s) rfl is
  obtain ⟨hanswers', hrun'⟩ := h.run_filter (s := s) rfl is'
  rw [hanswers, hrun, hanswers', hrun', hsame]
  exact ⟨rfl, rfl⟩

end Keeps

section Tables
variable [DecidableEq α] (O : Machine σ ι ω) (t : AList (fun _ : α => σ)) (x y : α)

theorem lookup_create (first : σ) : (if x ∈ t then t else t.insert x first).lookup y =
    (if x = y then Effect.create first else .keep).apply O (t.lookup y) := by
  by_cases hxy : x = y
  · subst hxy
    rw [if_pos rfl]
    by_cases hmem : x ∈ t
    · obtain ⟨object, hobject⟩ := Option.isSome_iff_exists.mp (AList.lookup_isSome.mpr hmem)
      rw [if_pos hmem, hobject]
      rfl
    · rw [if_neg hmem, AList.lookup_insert, AList.lookup_eq_none.mpr hmem]
      rfl
  · rw [if_neg hxy]
    by_cases hmem : x ∈ t
    · rw [if_pos hmem]
      rfl
    · rw [if_neg hmem]
      exact AList.lookup_insert_ne (Ne.symm hxy)

theorem lookup_call (i : ι) :
    ((t.lookup x).elim t fun object => t.insert x (O.next object i)).lookup y =
      (if x = y then Effect.call i else .keep).apply O (t.lookup y) := by
  cases hx : t.lookup x with
  | none =>
    by_cases hxy : x = y
    · subst hxy
      rw [if_pos rfl, Option.elim_none, hx]
      rfl
    · rw [if_neg hxy]
      rfl
  | some object =>
    rw [Option.elim_some]
    by_cases hxy : x = y
    · subst hxy
      rw [if_pos rfl, AList.lookup_insert, hx]
      rfl
    · rw [if_neg hxy]
      exact AList.lookup_insert_ne (Ne.symm hxy)

theorem lookup_destroy : (t.erase x).lookup y =
    (if x = y then (Effect.destroy : Effect σ ι) else .keep).apply O (t.lookup y) := by
  by_cases hxy : x = y
  · subst hxy
    rw [if_pos rfl]
    exact AList.lookup_erase _ _
  · rw [if_neg hxy]
    exact AList.lookup_erase_ne (Ne.symm hxy)

end Tables
end Directory
