import Mathlib.Data.Set.Insert
import Mathlib.Logic.Function.Basic
import Mathlib.Tactic.Common

/-!
# Demand paging over arbitrary pages and frames

The abstract state of a pager: which pages exist, on which frame a resident page
lies, the swapped-out contents, the owner of each frame, the free frames and the
cells. A page belongs to a process through a fixed map `proc`.

A pager moves a page in several small writes. The invariant therefore carries
the pages that are pending (they exist but have neither a frame nor a swap entry)
and the one frame that is held (owned, but not yet mapped by a page). Each
operation below keeps the invariant for the next such pair and leaves the logical
content of the pages it is not about unchanged.
-/

namespace Paging
open Function (update)

@[ext] structure State (κ φ π β : Type*) where
  live : Set κ
  frameOf : κ → Option φ
  swap : κ → Option β
  owner : φ → Option π
  free : Set φ
  cell : φ → Option β

variable {κ φ π β : Type*}

namespace State

def content (s : State κ φ π β) (k : κ) : Option β :=
  match s.frameOf k with
  | some f => s.cell f
  | none => s.swap k

theorem content_of_frame {s : State κ φ π β} {k : κ} {f : φ} (h : s.frameOf k = some f) :
    s.content k = s.cell f := by
  simp [content, h]

theorem content_of_absent {s : State κ φ π β} {k : κ} (h : s.frameOf k = none) :
    s.content k = s.swap k := by
  simp [content, h]

theorem content_congr {s t : State κ φ π β} {k : κ} (hf : t.frameOf k = s.frameOf k)
    (hc : ∀ f, s.frameOf k = some f → t.cell f = s.cell f)
    (hs : s.frameOf k = none → t.swap k = s.swap k) : t.content k = s.content k := by
  cases h : s.frameOf k with
  | none => rw [content_of_absent h, content_of_absent (hf.trans h), hs h]
  | some f => rw [content_of_frame h, content_of_frame (hf.trans h), hc f h]

end State

structure Inv (proc : κ → π) (frames : Set φ) (pend : Set κ) (held : Option (φ × π))
    (s : State κ φ π β) : Prop where
  owner_mem : ∀ f p, s.owner f = some p → f ∈ frames
  free_mem : ∀ f ∈ s.free, f ∈ frames
  free_iff : ∀ f ∈ frames, f ∈ s.free ↔ s.owner f = none
  owner_iff : ∀ f p, s.owner f = some p ↔
    (∃ k, proc k = p ∧ s.frameOf k = some f) ∨ held = some (f, p)
  held_unmapped : ∀ f p, held = some (f, p) → ∀ k, s.frameOf k ≠ some f
  frame_inj : ∀ k l f, s.frameOf k = some f → s.frameOf l = some f → k = l
  frame_live : ∀ k f, s.frameOf k = some f → k ∈ s.live
  swap_iff : ∀ k, (s.swap k).isSome ↔ k ∈ s.live ∧ s.frameOf k = none ∧ k ∉ pend
  pend_live : ∀ k ∈ pend, k ∈ s.live ∧ s.frameOf k = none
  cell_isSome : ∀ f ∈ frames, (s.cell f).isSome

namespace Inv
variable {proc : κ → π} {frames : Set φ} {pend : Set κ} {held : Option (φ × π)}
variable {s : State κ φ π β}

theorem owner_of_frame (h : Inv proc frames pend held s) {k : κ} {f : φ}
    (hk : s.frameOf k = some f) : s.owner f = some (proc k) :=
  (h.owner_iff f (proc k)).mpr (Or.inl ⟨k, rfl, hk⟩)

theorem frame_mem (h : Inv proc frames pend held s) {k : κ} {f : φ} (hk : s.frameOf k = some f) :
    f ∈ frames :=
  h.owner_mem f _ (h.owner_of_frame hk)

theorem frame_not_free (h : Inv proc frames pend held s) {k : κ} {f : φ}
    (hk : s.frameOf k = some f) : f ∉ s.free := by
  intro hf
  have hnone := (h.free_iff f (h.frame_mem hk)).mp hf
  rw [h.owner_of_frame hk] at hnone
  cases hnone

theorem swap_none_of_not_live (h : Inv proc frames pend held s) {k : κ} (hk : k ∉ s.live) :
    s.swap k = none := by
  by_contra hs
  exact hk ((h.swap_iff k).mp (Option.isSome_iff_ne_none.mpr hs)).1

theorem swap_none_of_pend (h : Inv proc frames pend held s) {k : κ} (hk : k ∈ pend) :
    s.swap k = none := by
  by_contra hs
  exact ((h.swap_iff k).mp (Option.isSome_iff_ne_none.mpr hs)).2.2 hk

theorem held_ne {f g : φ} {p q : π} (hgf : g ≠ f) : some (f, p) ≠ some (g, q) := by
  intro he
  cases he
  exact hgf rfl

end Inv

section Operations
variable [DecidableEq κ] [DecidableEq φ]

namespace State

def take (s : State κ φ π β) (f : φ) (p : π) : State κ φ π β :=
  { s with free := s.free \ {f}, owner := update s.owner f (some p) }

def evict (s : State κ φ π β) (k : κ) (f : φ) (p : π) : State κ φ π β :=
  { s with
    frameOf := update s.frameOf k none
    swap := update s.swap k (s.cell f)
    owner := update s.owner f (some p) }

def restore (s : State κ φ π β) (k : κ) (f : φ) : State κ φ π β :=
  { s with cell := update s.cell f (s.swap k), swap := update s.swap k none }

def install (s : State κ φ π β) (k : κ) (f : φ) : State κ φ π β :=
  { s with frameOf := update s.frameOf k (some f) }

def swapOut (s : State κ φ π β) (k : κ) (f : φ) : State κ φ π β :=
  { s with
    frameOf := update s.frameOf k none
    swap := update s.swap k (s.cell f)
    owner := update s.owner f none
    free := insert f s.free }

def openPages (s : State κ φ π β) (ks : Set κ) : State κ φ π β :=
  { s with live := s.live ∪ ks }

def store (s : State κ φ π β) (f : φ) (b : β) : State κ φ π β :=
  { s with cell := update s.cell f (some b) }

def closeProcess [DecidableEq π] (s : State κ φ π β) (proc : κ → π) (p : π) : State κ φ π β :=
  { s with
    live := {k | k ∈ s.live ∧ proc k ≠ p}
    frameOf := fun k => if proc k = p then none else s.frameOf k
    swap := fun k => if proc k = p then none else s.swap k
    owner := fun f => if s.owner f = some p then none else s.owner f
    free := {f | f ∈ s.free ∨ s.owner f = some p} }

end State

namespace Inv
variable {proc : κ → π} {frames : Set φ} {pend : Set κ} {held : Option (φ × π)}
variable {s : State κ φ π β} {k l : κ} {f : φ} {p : π}

omit [DecidableEq κ] in
theorem take (h : Inv proc frames pend none s) (hf : f ∈ s.free) :
    Inv proc frames pend (some (f, p)) (s.take f p) where
  owner_mem g q hg := by
    by_cases hgf : g = f
    · exact hgf ▸ h.free_mem f hf
    · exact h.owner_mem g q (by simpa [State.take, hgf] using hg)
  free_mem g hg := h.free_mem g hg.1
  free_iff g hg := by
    by_cases hgf : g = f
    · simp [State.take, hgf]
    · simp [State.take, hgf, h.free_iff g hg]
  owner_iff g q := by
    by_cases hgf : g = f
    · subst g
      have hmap : ¬ ∃ k, proc k = q ∧ s.frameOf k = some f :=
        fun ⟨k, _, hk⟩ => h.frame_not_free hk hf
      simp only [State.take, Function.update_self, hmap, false_or, Option.some.injEq,
        Prod.mk.injEq, true_and]
    · have hheld : some (f, p) ≠ some (g, q) := held_ne hgf
      have hold := h.owner_iff g q
      simp only [reduceCtorEq, or_false] at hold
      simp only [State.take, Function.update_of_ne hgf, hheld, or_false, hold]
  held_unmapped g q hg k hk := by
    obtain ⟨rfl, rfl⟩ : f = g ∧ p = q := by simpa using hg
    exact h.frame_not_free hk hf
  frame_inj := h.frame_inj
  frame_live := h.frame_live
  swap_iff := h.swap_iff
  pend_live := h.pend_live
  cell_isSome := h.cell_isSome

theorem evict (h : Inv proc frames pend none s) (hk : s.frameOf k = some f) :
    Inv proc frames pend (some (f, p)) (s.evict k f p) where
  owner_mem g q hg := by
    by_cases hgf : g = f
    · exact hgf ▸ h.frame_mem hk
    · exact h.owner_mem g q (by simpa [State.evict, hgf] using hg)
  free_mem := h.free_mem
  free_iff g hg := by
    by_cases hgf : g = f
    · subst g
      simp [State.evict, h.frame_not_free hk]
    · simp [State.evict, hgf, h.free_iff g hg]
  owner_iff g q := by
    by_cases hgf : g = f
    · subst g
      have hmap : ¬ ∃ l, proc l = q ∧ update s.frameOf k none l = some f := by
        rintro ⟨l, _, hl⟩
        by_cases hlk : l = k
        · simp [hlk] at hl
        · rw [Function.update_of_ne hlk] at hl
          exact hlk (h.frame_inj l k f hl hk)
      simp only [State.evict, Function.update_self, hmap, false_or, Option.some.injEq,
        Prod.mk.injEq, true_and]
    · have hheld : some (f, p) ≠ some (g, q) := held_ne hgf
      have hold := h.owner_iff g q
      simp only [reduceCtorEq, or_false] at hold
      simp only [State.evict, Function.update_of_ne hgf, hheld, or_false, hold]
      refine exists_congr fun l => and_congr_right fun _ => ?_
      by_cases hlk : l = k
      · subst l
        simp [hk, Ne.symm hgf]
      · rw [Function.update_of_ne hlk]
  held_unmapped g q hg l hl := by
    obtain ⟨rfl, rfl⟩ : f = g ∧ p = q := by simpa using hg
    by_cases hlk : l = k
    · simp [State.evict, hlk] at hl
    · simp only [State.evict, Function.update_of_ne hlk] at hl
      exact hlk (h.frame_inj l k f hl hk)
  frame_inj l m g hl hm := by
    by_cases hlk : l = k
    · simp [State.evict, hlk] at hl
    · by_cases hmk : m = k
      · simp [State.evict, hmk] at hm
      · simp only [State.evict, Function.update_of_ne hlk, Function.update_of_ne hmk] at hl hm
        exact h.frame_inj l m g hl hm
  frame_live l g hl := by
    by_cases hlk : l = k
    · simp [State.evict, hlk] at hl
    · exact h.frame_live l g (by simpa [State.evict, hlk] using hl)
  swap_iff l := by
    by_cases hlk : l = k
    · subst l
      have hpend : k ∉ pend := fun hkp => by
        have := (h.pend_live k hkp).2
        rw [hk] at this
        cases this
      simp [State.evict, h.cell_isSome f (h.frame_mem hk), h.frame_live k f hk, hpend]
    · simp [State.evict, hlk, h.swap_iff l]
  pend_live l hl := by
    obtain ⟨hlive, hframe⟩ := h.pend_live l hl
    refine ⟨hlive, ?_⟩
    by_cases hlk : l = k
    · simp [State.evict, hlk]
    · simp [State.evict, hlk, hframe]
  cell_isSome := h.cell_isSome

theorem restore (h : Inv proc frames pend (some (f, p)) s) (hk : (s.swap k).isSome) :
    Inv proc frames (insert k pend) (some (f, p)) (s.restore k f) where
  owner_mem := h.owner_mem
  free_mem := h.free_mem
  free_iff := h.free_iff
  owner_iff := h.owner_iff
  held_unmapped := h.held_unmapped
  frame_inj := h.frame_inj
  frame_live := h.frame_live
  swap_iff l := by
    by_cases hlk : l = k
    · simp [State.restore, hlk]
    · simp [State.restore, hlk, h.swap_iff l]
  pend_live l hl := by
    rcases hl with rfl | hl
    · exact ⟨((h.swap_iff l).mp hk).1, ((h.swap_iff l).mp hk).2.1⟩
    · exact h.pend_live l hl
  cell_isSome g hg := by
    by_cases hgf : g = f
    · simp [State.restore, hgf, hk]
    · simp [State.restore, hgf, h.cell_isSome g hg]

omit [DecidableEq φ] in
theorem install (h : Inv proc frames pend (some (f, proc k)) s) (hk : k ∈ pend) :
    Inv proc frames (pend \ {k}) none (s.install k f) where
  owner_mem := h.owner_mem
  free_mem := h.free_mem
  free_iff := h.free_iff
  owner_iff g q := by
    have hold := h.owner_iff g q
    simp only [State.install, reduceCtorEq, or_false]
    rw [hold]
    constructor
    · rintro (⟨l, hlp, hl⟩ | hg)
      · refine ⟨l, hlp, ?_⟩
        have hlk : l ≠ k := by
          rintro rfl
          rw [(h.pend_live l hk).2] at hl
          cases hl
        rw [Function.update_of_ne hlk, hl]
      · obtain ⟨rfl, rfl⟩ : f = g ∧ proc k = q := by simpa using hg
        exact ⟨k, rfl, Function.update_self ..⟩
    · rintro ⟨l, hlp, hl⟩
      by_cases hlk : l = k
      · subst l
        obtain rfl : f = g := by simpa using hl
        exact Or.inr (by rw [hlp])
      · exact Or.inl ⟨l, hlp, by rwa [Function.update_of_ne hlk] at hl⟩
  held_unmapped := nofun
  frame_inj l m g hl hm := by
    have hfresh := h.held_unmapped f (proc k) rfl
    by_cases hlk : l = k <;> by_cases hmk : m = k
    · rw [hlk, hmk]
    · subst l
      obtain rfl : f = g := by simpa [State.install] using hl
      exact (hfresh m (by simpa [State.install, hmk] using hm)).elim
    · subst m
      obtain rfl : f = g := by simpa [State.install] using hm
      exact (hfresh l (by simpa [State.install, hlk] using hl)).elim
    · simp only [State.install, Function.update_of_ne hlk, Function.update_of_ne hmk] at hl hm
      exact h.frame_inj l m g hl hm
  frame_live l g hl := by
    by_cases hlk : l = k
    · exact hlk ▸ (h.pend_live k hk).1
    · exact h.frame_live l g (by simpa [State.install, hlk] using hl)
  swap_iff l := by
    by_cases hlk : l = k
    · subst l
      simp [State.install, h.swap_none_of_pend hk]
    · simp [State.install, hlk, h.swap_iff l]
  pend_live l hl := by
    obtain ⟨hlp, hlk⟩ := hl
    have hlk : l ≠ k := hlk
    obtain ⟨hlive, hframe⟩ := h.pend_live l hlp
    exact ⟨hlive, by simp [State.install, hlk, hframe]⟩
  cell_isSome := h.cell_isSome

theorem swapOut (h : Inv proc frames pend none s) (hk : s.frameOf k = some f) :
    Inv proc frames pend none (s.swapOut k f) := by
  have he : Inv proc frames pend (some (f, proc k)) (s.evict k f (proc k)) := h.evict hk
  refine ⟨?_, ?_, ?_, ?_, nofun, he.frame_inj, he.frame_live, he.swap_iff, he.pend_live,
    he.cell_isSome⟩
  · intro g q hg
    by_cases hgf : g = f
    · simp [State.swapOut, hgf] at hg
    · exact h.owner_mem g q (by simpa [State.swapOut, hgf] using hg)
  · rintro g (rfl | hg)
    · exact h.frame_mem hk
    · exact h.free_mem g hg
  · intro g hg
    by_cases hgf : g = f
    · simp [State.swapOut, hgf]
    · simp [State.swapOut, hgf, h.free_iff g hg]
  · intro g q
    have hold := he.owner_iff g q
    by_cases hgf : g = f
    · subst g
      have hmap : ¬ ∃ l, proc l = q ∧ (s.swapOut k f).frameOf l = some f :=
        fun ⟨l, _, hl⟩ => he.held_unmapped f (proc k) rfl l hl
      simp only [hmap, reduceCtorEq, or_self, iff_false]
      simp [State.swapOut]
    · have hheld : some (f, proc k) ≠ some (g, q) := held_ne hgf
      simp only [hheld, or_false] at hold
      simp only [reduceCtorEq, or_false]
      simpa [State.evict, State.swapOut, hgf] using hold

omit [DecidableEq κ] [DecidableEq φ] in
theorem openPages (h : Inv proc frames pend none s) {ks : Set κ} (hks : ∀ k ∈ ks, k ∉ s.live) :
    Inv proc frames (pend ∪ ks) none (s.openPages ks) where
  owner_mem := h.owner_mem
  free_mem := h.free_mem
  free_iff := h.free_iff
  owner_iff := h.owner_iff
  held_unmapped := nofun
  frame_inj := h.frame_inj
  frame_live l g hl := Or.inl (h.frame_live l g hl)
  swap_iff l := by
    have hold := h.swap_iff l
    have hnew := hks l
    simp only [State.openPages, Set.mem_union, hold]
    tauto
  pend_live l hl := by
    rcases hl with hl | hl
    · exact ⟨Or.inl (h.pend_live l hl).1, (h.pend_live l hl).2⟩
    · refine ⟨Or.inr hl, ?_⟩
      by_contra hframe
      obtain ⟨g, hg⟩ := Option.ne_none_iff_exists'.mp hframe
      exact hks l hl (h.frame_live l g hg)
  cell_isSome := h.cell_isSome

omit [DecidableEq κ] in
theorem store (h : Inv proc frames pend held s) (b : β) :
    Inv proc frames pend held (s.store f b) where
  owner_mem := h.owner_mem
  free_mem := h.free_mem
  free_iff := h.free_iff
  owner_iff := h.owner_iff
  held_unmapped := h.held_unmapped
  frame_inj := h.frame_inj
  frame_live := h.frame_live
  swap_iff := h.swap_iff
  pend_live := h.pend_live
  cell_isSome g hg := by
    by_cases hgf : g = f
    · simp [State.store, hgf]
    · simp [State.store, hgf, h.cell_isSome g hg]

omit [DecidableEq κ] [DecidableEq φ] in
theorem closeProcess [DecidableEq π] (h : Inv proc frames pend none s) :
    Inv proc frames {k | k ∈ pend ∧ proc k ≠ p} none (s.closeProcess proc p) where
  owner_mem g q hg := by
    simp only [State.closeProcess] at hg
    split_ifs at hg
    exact h.owner_mem g q hg
  free_mem g hg := by
    rcases hg with hg | hg
    · exact h.free_mem g hg
    · exact h.owner_mem g p hg
  free_iff g hg := by
    have hold := h.free_iff g hg
    by_cases hgp : s.owner g = some p
    · simp [State.closeProcess, hgp]
    · simp [State.closeProcess, hgp, hold]
  owner_iff g q := by
    have hold := h.owner_iff g q
    simp only [reduceCtorEq, or_false] at hold ⊢
    by_cases hqp : q = p
    · subst q
      have hmap : ¬ ∃ k, proc k = p ∧ (s.closeProcess proc p).frameOf k = some g := by
        rintro ⟨k, hkp, hk⟩
        simp [State.closeProcess, hkp] at hk
      simp only [hmap, iff_false]
      simp only [State.closeProcess]
      split_ifs with hgp
      · simp
      · exact hgp
    · have howner : (s.closeProcess proc p).owner g = some q ↔ s.owner g = some q := by
        simp only [State.closeProcess]
        split_ifs with hgp
        · simp [hgp, Ne.symm hqp]
        · rfl
      rw [howner, hold]
      refine exists_congr fun k => and_congr_right fun hkq => ?_
      have hkp : proc k ≠ p := hkq ▸ hqp
      simp [State.closeProcess, hkp]
  held_unmapped := nofun
  frame_inj l m g hl hm := by
    simp only [State.closeProcess] at hl hm
    split_ifs at hl hm
    exact h.frame_inj l m g hl hm
  frame_live l g hl := by
    simp only [State.closeProcess] at hl
    split_ifs at hl with hlp
    exact ⟨h.frame_live l g hl, hlp⟩
  swap_iff l := by
    by_cases hlp : proc l = p
    · simp [State.closeProcess, hlp]
    · simp [State.closeProcess, hlp, h.swap_iff l]
  pend_live l hl := by
    obtain ⟨hlive, hframe⟩ := h.pend_live l hl.1
    exact ⟨⟨hlive, hl.2⟩, by simp [State.closeProcess, hl.2, hframe]⟩
  cell_isSome := h.cell_isSome

theorem content_evict (hk : s.frameOf k = some f) (p : π) (l : κ) :
    (s.evict k f p).content l = s.content l := by
  by_cases hlk : l = k
  · subst l
    rw [State.content_of_frame hk, State.content_of_absent (Function.update_self ..)]
    simp [State.evict]
  · exact State.content_congr (by simp [State.evict, hlk]) (fun _ _ => rfl)
      (fun _ => by simp [State.evict, hlk])

theorem content_swapOut (hk : s.frameOf k = some f) (p : π) (l : κ) :
    (s.swapOut k f).content l = s.content l :=
  content_evict hk p l

omit [DecidableEq φ] in
theorem content_install_ne (s : State κ φ π β) (hlk : l ≠ k) :
    (s.install k f).content l = s.content l :=
  State.content_congr (by simp [State.install, hlk]) (fun _ _ => rfl) (fun _ => rfl)

/-- A page that comes back from the swap space to a held frame keeps its content, and the
held frame carries no other page. -/
theorem content_restore_install (h : Inv proc frames pend (some (f, p)) s)
    (hk : (s.swap k).isSome) (l : κ) :
    ((s.restore k f).install k f).content l = s.content l := by
  have habsent := ((h.swap_iff k).mp hk).2.1
  by_cases hlk : l = k
  · subst l
    rw [State.content_of_absent habsent, State.content_of_frame (Function.update_self ..)]
    simp [State.install, State.restore]
  · refine State.content_congr (by simp [State.install, State.restore, hlk]) ?_ ?_
    · intro g hg
      have hgf : g ≠ f := by
        rintro rfl
        exact h.held_unmapped g p rfl l hg
      simp [State.install, State.restore, hgf]
    · intro _
      simp [State.install, State.restore, hlk]

omit [DecidableEq κ] in
theorem content_store_self (hk : s.frameOf k = some f) (b : β) :
    (s.store f b).content k = some b := by
  rw [State.content_of_frame (show (s.store f b).frameOf k = some f from hk)]
  simp [State.store]

omit [DecidableEq κ] in
theorem content_store_ne (h : Inv proc frames pend held s) (hk : s.frameOf k = some f) (b : β)
    (hlk : l ≠ k) : (s.store f b).content l = s.content l := by
  refine State.content_congr rfl ?_ (fun _ => rfl)
  intro g hg
  have hgf : g ≠ f := by
    rintro rfl
    exact hlk (h.frame_inj l k g hg hk)
  simp [State.store, hgf]

omit [DecidableEq κ] [DecidableEq φ] in
theorem content_closeProcess [DecidableEq π] (s : State κ φ π β) (proc : κ → π)
    (hl : proc l ≠ p) : (s.closeProcess proc p).content l = s.content l :=
  State.content_congr (by simp [State.closeProcess, hl]) (fun _ _ => rfl)
    (fun _ => by simp [State.closeProcess, hl])

variable [DecidableEq π]

omit [DecidableEq κ] in
theorem closeProcess_take (h : Inv proc frames pend none s) (hf : f ∈ s.free) :
    (s.take f p).closeProcess proc p = s.closeProcess proc p := by
  have hnone : s.owner f = none := (h.free_iff f (h.free_mem f hf)).mp hf
  refine State.ext rfl rfl rfl ?_ ?_ rfl
  · funext g
    by_cases hgf : g = f
    · simp [State.closeProcess, State.take, hgf, hnone]
    · simp [State.closeProcess, State.take, hgf]
  · ext g
    by_cases hgf : g = f
    · simp [State.closeProcess, State.take, hgf, hf]
    · simp [State.closeProcess, State.take, hgf]

theorem closeProcess_evict (s : State κ φ π β) (f : φ) (hk : proc k ≠ p) :
    (s.evict k f p).closeProcess proc p = (s.closeProcess proc p).swapOut k f := by
  refine State.ext rfl ?_ ?_ ?_ ?_ rfl
  · funext l
    by_cases hlk : l = k
    · simp [State.closeProcess, State.evict, State.swapOut, hlk]
    · simp [State.closeProcess, State.evict, State.swapOut, hlk]
  · funext l
    by_cases hlk : l = k
    · simp [State.closeProcess, State.evict, State.swapOut, hlk, hk]
    · simp [State.closeProcess, State.evict, State.swapOut, hlk]
  · funext g
    by_cases hgf : g = f
    · simp [State.closeProcess, State.evict, State.swapOut, hgf]
    · simp [State.closeProcess, State.evict, State.swapOut, hgf]
  · ext g
    by_cases hgf : g = f
    · simp [State.closeProcess, State.evict, State.swapOut, hgf]
    · simp [State.closeProcess, State.evict, State.swapOut, hgf]

omit [DecidableEq φ] in
theorem closeProcess_install (s : State κ φ π β) (f : φ) (hk : proc k = p) :
    (s.install k f).closeProcess proc p = s.closeProcess proc p := by
  refine State.ext rfl ?_ rfl rfl rfl rfl
  funext l
  by_cases hlk : l = k
  · simp [State.closeProcess, State.install, hlk, hk]
  · simp [State.closeProcess, State.install, hlk]

omit [DecidableEq κ] [DecidableEq φ] in
theorem closeProcess_openPages (h : Inv proc frames pend none s) {ks : Set κ}
    (hks : ∀ k ∈ ks, proc k = p) (hfresh : ∀ k ∈ s.live, proc k ≠ p) :
    (s.openPages ks).closeProcess proc p = s := by
  have hframe : ∀ k, proc k = p → s.frameOf k = none := by
    intro k hk
    by_contra hne
    obtain ⟨f, hf⟩ := Option.ne_none_iff_exists'.mp hne
    exact hfresh k (h.frame_live k f hf) hk
  have howner : ∀ f, s.owner f ≠ some p := by
    intro f hf
    obtain ⟨k, hk, hkf⟩ := ((h.owner_iff f p).mp hf).resolve_right (by simp)
    simp [hframe k hk] at hkf
  refine State.ext ?_ ?_ ?_ ?_ ?_ rfl
  · ext k
    have hnew := hks k
    have hold := hfresh k
    simp only [State.closeProcess, State.openPages, Set.mem_union, Set.mem_ofPred_eq]
    tauto
  · funext k
    by_cases hk : proc k = p
    · simp [State.closeProcess, hk, hframe k hk]
    · simp [State.closeProcess, State.openPages, hk]
  · funext k
    by_cases hk : proc k = p
    · simp [State.closeProcess, hk, h.swap_none_of_not_live fun hl => hfresh k hl hk]
    · simp [State.closeProcess, State.openPages, hk]
  · funext f
    simp [State.closeProcess, State.openPages, howner f]
  · ext f
    simp [State.closeProcess, State.openPages, howner f]

end Inv

/-- The second state comes from the first by swapping out resident pages, one after another. -/
inductive SwapsOut : State κ φ π β → State κ φ π β → Prop
  | refl (s : State κ φ π β) : SwapsOut s s
  | step {s t : State κ φ π β} {k : κ} {f : φ} (h : SwapsOut s t) (hk : t.frameOf k = some f) :
      SwapsOut s (t.swapOut k f)

namespace SwapsOut
variable {s t u : State κ φ π β}

theorem head {k : κ} {f : φ} (hk : s.frameOf k = some f) (h : SwapsOut (s.swapOut k f) t) :
    SwapsOut s t := by
  induction h with
  | refl => exact (SwapsOut.refl s).step hk
  | step _ hl ih => exact ih.step hl

theorem live_eq (h : SwapsOut s t) : t.live = s.live := by
  induction h with
  | refl => rfl
  | step _ _ ih => exact ih

theorem content_eq (h : SwapsOut s t) (p : π) (l : κ) : t.content l = s.content l := by
  induction h with
  | refl => rfl
  | step _ hk ih => exact (Inv.content_swapOut hk p l).trans ih

theorem frameOf_cases (h : SwapsOut s t) (l : κ) :
    t.frameOf l = s.frameOf l ∨ ∃ f, s.frameOf l = some f ∧ t.frameOf l = none ∧ f ∈ t.free := by
  induction h with
  | refl => exact Or.inl rfl
  | @step t k f _ hk ih =>
    by_cases hlk : l = k
    · subst l
      right
      rcases ih with hsame | ⟨g, hg, hnone, -⟩
      · exact ⟨f, hsame ▸ hk, Function.update_self .., Set.mem_insert _ _⟩
      · rw [hnone] at hk
        cases hk
    · have hframe : (t.swapOut k f).frameOf l = t.frameOf l := Function.update_of_ne hlk ..
      rw [hframe]
      exact ih.imp_right fun ⟨g, hg, hnone, hfree⟩ => ⟨g, hg, hnone, Set.mem_insert_of_mem _ hfree⟩

theorem mem_free_iff (h : SwapsOut s t) (g : φ) :
    g ∈ t.free ↔ g ∈ s.free ∨ ∃ l, s.frameOf l = some g ∧ t.frameOf l = none := by
  induction h with
  | refl => exact ⟨Or.inl, fun hg => hg.resolve_right fun ⟨l, hl, hnone⟩ => by simp [hl] at hnone⟩
  | @step t k f h hk ih =>
    have hs : s.frameOf k = some f := by
      rcases h.frameOf_cases k with hsame | ⟨_, -, hnone, -⟩
      · exact hsame ▸ hk
      · rw [hnone] at hk
        cases hk
    constructor
    · rintro (rfl | hg)
      · exact Or.inr ⟨k, hs, Function.update_self ..⟩
      · refine (ih.mp hg).imp_right fun ⟨l, hl, hnone⟩ => ⟨l, hl, ?_⟩
        by_cases hlk : l = k
        · exact hlk ▸ Function.update_self ..
        · exact (Function.update_of_ne hlk ..).trans hnone
    · rintro (hg | ⟨l, hl, hnone⟩)
      · exact Or.inr (ih.mpr (Or.inl hg))
      · by_cases hlk : l = k
        · subst l
          left
          rw [hl] at hs
          exact Option.some.inj hs
        · have hnone : t.frameOf l = none := (Function.update_of_ne hlk ..).symm.trans hnone
          exact Or.inr (ih.mpr (Or.inr ⟨l, hl, hnone⟩))

end SwapsOut
end Operations
end Paging
