import Contur.MmuLog
import Contur.MmuRefinement

/-!
# What a replacement policy knows about the resident pages

A fact about the set of mapped frames and the state of a policy holds in every
reachable state when the three calls of the policy keep it: a load adds the frame
to the set, a victim leaves the set, an access changes nothing in it. The set
itself may shrink at any time, since frames are also given back without a call to
the policy. With such facts for two of the policies the page loop of `allocate` is
followed round by round, and the requests that succeed are exactly determined.
-/

namespace Contur
open Function (update)
open Transition
open Recency (concat_eq_append_cons)

namespace ReplacementPolicy

structure Keeps (P : ReplacementPolicy) (J : Set FrameId → P.State → Prop) : Prop where
  init : J ∅ P.init
  mono : ∀ {M M' σ}, J M σ → M' ⊆ M → J M' σ
  onAccess : ∀ {M σ f}, J M σ → f ∈ M → J M (P.onAccess σ f)
  onLoad : ∀ {M σ f}, J M σ → f ≠ invalidFrame → J (insert f M) (P.onLoad σ f)
  selectVictim : ∀ {M σ} t, J M σ → J (M \ {(P.selectVictim σ t).1}) (P.selectVictim σ t).2

theorem Keeps.reload {P : ReplacementPolicy} {J : Set FrameId → P.State → Prop} (hJ : P.Keeps J)
    {M : Set FrameId} {σ : P.State} (h : J M σ) (t : PageTable)
    (hv : (P.selectVictim σ t).1 ≠ invalidFrame) :
    J (insert (P.selectVictim σ t).1 M) (P.onLoad (P.selectVictim σ t).2 (P.selectVictim σ t).1) :=
  hJ.mono (hJ.onLoad (hJ.selectVictim t h) hv) (by rw [Set.insert_sdiff_singleton])

end ReplacementPolicy

namespace Mmu
variable {P : ReplacementPolicy} {N : ℕ} {s s' : Mmu P}
variable {pend : Set SwapKey} {held : Option (FrameId × ProcessId)}

theorem Inv.mapped_eq (h : Inv N pend none s) : s.mapped = {f | (s.frameOwners f).isSome} := by
  ext f
  rw [mem_mapped_iff]
  constructor
  · rintro ⟨k, hk⟩
    exact Option.isSome_iff_exists.mpr ⟨_, h.paging.owner_of_frame hk⟩
  · intro hf
    obtain ⟨p, hp⟩ := Option.isSome_iff_exists.mp hf
    obtain ⟨k, -, hk⟩ := ((h.paging.owner_iff f p).mp hp).resolve_right (by simp)
    exact ⟨k, hk⟩

structure Loaded (s : Mmu P) (p : ProcessId) (f : FrameId) (σ : P.State) (s' : Mmu P) : Prop where
  source : (f ∈ s.freeFrames ∧ σ = s.replacementPolicy) ∨
    (s.freeFrames = [] ∧ ∃ t, P.selectVictim s.replacementPolicy t = (f, σ))
  policy : s'.replacementPolicy = P.onLoad σ f
  owners : s'.frameOwners = update s.frameOwners f (some p)
  free : s'.freeFrames = s.freeFrames.erase f

theorem Loaded.frame_lt {p : ProcessId} {f : FrameId} {σ : P.State} (hl : Loaded s p f σ s')
    (h' : Inv N pend none s') : f < N :=
  h'.paging.owner_mem f p (show s'.frameOwners f = some p by rw [hl.owners, Function.update_self])

theorem Loaded.mapped_eq {p : ProcessId} {f : FrameId} {σ : P.State} (hl : Loaded s p f σ s')
    {pend' : Set SwapKey} (h : Inv N pend none s) (h' : Inv N pend' none s') :
    s'.mapped = insert f s.mapped := by
  rw [h.mapped_eq, h'.mapped_eq, hl.owners]
  ext g
  by_cases hg : g = f
  · simp [hg]
  · simp [hg]

theorem Loaded.keeps {J : Set FrameId → P.State → Prop} (hN : N ≤ invalidFrame) (hJ : P.Keeps J)
    {p : ProcessId} {f : FrameId} {σ : P.State} (hl : Loaded s p f σ s') {pend' : Set SwapKey}
    (h : Inv N pend none s) (h' : Inv N pend' none s') (hs : J s.mapped s.replacementPolicy) :
    J s'.mapped s'.replacementPolicy := by
  have hvalid : f ≠ invalidFrame := Nat.ne_of_lt ((hl.frame_lt h').trans_le hN)
  rw [hl.mapped_eq h h', hl.policy]
  rcases hl.source with ⟨-, rfl⟩ | ⟨-, t, ht⟩
  · exact hJ.onLoad hs hvalid
  · have hreload := hJ.reload hs t
    rw [ht] at hreload
    exact hreload hvalid

theorem askEvents_of_nil (hnil : s.freeFrames = []) (p : ProcessId) (t : PageTable) :
    s.askEvents p t = [.asked s t] := by
  rw [askEvents, allocateFrame_of_nil hnil, if_pos rfl]

theorem Inv.askEvents_of_ne (hN : N ≤ invalidFrame) (h : Inv N pend none s)
    (hne : s.freeFrames ≠ []) (p : ProcessId) (t : PageTable) : s.askEvents p t = [] := by
  obtain ⟨f, hf, heq⟩ := allocateFrame_of_ne hne p
  have hvalid : f ≠ invalidFrame := Nat.ne_of_lt ((h.paging.free_mem f hf).trans_le hN)
  rw [askEvents, heq, if_neg hvalid]

theorem pageEvents_of_frame {p : ProcessId} (page n : ℕ) {t : PageTable}
    (ht : s.pageTables p = some t) {f : FrameId} {s₁ : Mmu P}
    (heq : s.obtainFrame p t = (f, s₁)) (hvalid : f ≠ invalidFrame) :
    s.pageEvents p page (n + 1) = s.askEvents p t ++
      .loaded f :: ((s₁.mapPage p page f).onLoad f).pageEvents p (page + 1) n := by
  simp only [pageEvents, ht, heq, if_neg hvalid]

theorem obtainFrame_of_nil (hnil : s.freeFrames = []) (p : ProcessId) (t : PageTable) :
    s.obtainFrame p t =
      let choice := P.selectVictim s.replacementPolicy t
      if choice.1 ≠ invalidFrame ∧ s.frameOwners choice.1 = some p then
        (invalidFrame, { s with replacementPolicy := P.onLoad choice.2 choice.1 })
      else if choice.1 = invalidFrame then
        (invalidFrame, { s with replacementPolicy := choice.2 })
      else (choice.1, ({ s with replacementPolicy := choice.2 } : Mmu P).evict choice.1 p) := by
  simp only [obtainFrame, allocateFrame_of_nil hnil, ↓reduceIte, selectVictim]
  rfl

theorem Placing.loaded {p : ProcessId} {page n : ℕ} (h : Placing N p page (n + 1) s)
    {f : FrameId} {σ : P.State} {s₁ : Mmu P}
    (hobt : Obtained N (pendingFrom p page (n + 1)) s p f s₁)
    (hother : ∀ k, s.view.frameOf k = some f → k.processId ≠ p)
    (hsource : (f ∈ s.freeFrames ∧ σ = s.replacementPolicy) ∨
      (s.freeFrames = [] ∧ ∃ t, P.selectVictim s.replacementPolicy t = (f, σ)))
    (hpolicy : s₁.replacementPolicy = σ)
      (howners : s₁.frameOwners = update s.frameOwners f (some p))
    (hfree : s₁.freeFrames = s.freeFrames.erase f) :
    Placing N p (page + 1) n ((s₁.mapPage p page f).onLoad f) ∧
      Loaded s p f σ ((s₁.mapPage p page f).onLoad f) := by
  obtain ⟨-, hfree', hpolicy', howners'⟩ := mapPage_rest s₁ p page f
  refine ⟨(h.placed hobt hother).1, hsource, ?_, howners'.trans howners,
    hfree'.trans hfree⟩
  rw [← hpolicy, ← hpolicy']
  rfl

theorem Placing.round_of_free (hP : P.Sound) (hN : N ≤ invalidFrame) {p : ProcessId} {page n : ℕ}
    (h : Placing N p page (n + 1) s) (hne : s.freeFrames ≠ []) :
    ∃ f s₂, s.allocatePages p page (n + 1) = s₂.allocatePages p (page + 1) n ∧
      s.pageEvents p page (n + 1) = .loaded f :: s₂.pageEvents p (page + 1) n ∧
      Placing N p (page + 1) n s₂ ∧ Loaded s p f s.replacementPolicy s₂ := by
  obtain ⟨f, hf, heq⟩ := allocateFrame_of_ne hne p
  have hvalid : f ≠ invalidFrame := Nat.ne_of_lt ((h.inv.paging.free_mem f hf).trans_le hN)
  obtain ⟨t, ht, ⟨σ, hfail, -⟩ | ⟨g, s₁, hg, -, hobt, hother, hnext⟩⟩ := h.allocatePages_succ hP hN
  · simp [obtainFrame, heq, hvalid] at hfail
  · have hevents := pageEvents_of_frame page n ht hg
    rw [obtainFrame, heq] at hg
    simp only [hvalid, ↓reduceIte, Prod.mk.injEq] at hg
    obtain ⟨rfl, rfl⟩ := hg
    have hevents := hevents hvalid
    rw [h.inv.askEvents_of_ne hN hne, List.nil_append] at hevents
    obtain ⟨hplacing, hloaded⟩ := h.loaded hobt hother (Or.inl ⟨hf, rfl⟩) rfl rfl rfl
    exact ⟨f, _, hnext, hevents, hplacing, hloaded⟩

def Refused (s : Mmu P) (p : ProcessId) (choice : FrameId × P.State) (σ : P.State) : Prop :=
  (choice.1 = invalidFrame ∧ σ = choice.2) ∨
    (choice.1 ≠ invalidFrame ∧ s.frameOwners choice.1 = some p ∧ σ = P.onLoad choice.2 choice.1)

theorem obtainFrame_refused (hnil : s.freeFrames = []) {p : ProcessId} {t : PageTable}
    (hrefused : (P.selectVictim s.replacementPolicy t).1 = invalidFrame ∨
      s.frameOwners (P.selectVictim s.replacementPolicy t).1 = some p) :
    ∃ σ, Refused s p (P.selectVictim s.replacementPolicy t) σ ∧
      s.obtainFrame p t = (invalidFrame, { s with replacementPolicy := σ }) := by
  rw [obtainFrame_of_nil hnil]
  generalize P.selectVictim s.replacementPolicy t = choice at hrefused
  by_cases hinv : choice.1 = invalidFrame
  · exact ⟨choice.2, Or.inl ⟨hinv, rfl⟩, by simp [hinv]⟩
  · have hself := hrefused.resolve_left hinv
    exact ⟨_, Or.inr ⟨hinv, hself, rfl⟩, by simp [hinv, hself]⟩

/-- Without a free frame the round succeeds exactly when the policy proposes a frame of another
process. -/
theorem Placing.round_of_full (hP : P.Sound) (hN : N ≤ invalidFrame) {p : ProcessId} {page n : ℕ}
    (h : Placing N p page (n + 1) s) (hnil : s.freeFrames = []) :
    ∃ t, (∃ σ, Refused s p (P.selectVictim s.replacementPolicy t) σ ∧
        s.allocatePages p page (n + 1) =
          (.error .outOfMemory, ({ s with replacementPolicy := σ } : Mmu P).rollback p page) ∧
        s.pageEvents p page (n + 1) = [.asked s t]) ∨
      ∃ f σ s₂, P.selectVictim s.replacementPolicy t = (f, σ) ∧ f < N ∧
        s.frameOwners f ≠ some p ∧
        s.allocatePages p page (n + 1) = s₂.allocatePages p (page + 1) n ∧
        s.pageEvents p page (n + 1) = .asked s t :: .loaded f :: s₂.pageEvents p (page + 1) n ∧
        Placing N p (page + 1) n s₂ ∧ Loaded s p f σ s₂ := by
  obtain ⟨t, ht, hround⟩ := h.allocatePages_succ hP hN
  refine ⟨t, ?_⟩
  by_cases hrefused : (P.selectVictim s.replacementPolicy t).1 = invalidFrame ∨
      s.frameOwners (P.selectVictim s.replacementPolicy t).1 = some p
  · left
    obtain ⟨σ, hσ, heq⟩ := obtainFrame_refused hnil hrefused
    refine ⟨σ, hσ, by simp only [allocatePages, ht, heq, ↓reduceIte], ?_⟩
    simp only [pageEvents, ht, heq, ↓reduceIte, askEvents_of_nil hnil, List.append_nil]
  · right
    have hlt := h.inv.tracks.victim_lt hP t
    have hevents := @pageEvents_of_frame P s p page n t ht
    rw [obtainFrame_of_nil hnil] at hround hevents
    generalize hchoice : P.selectVictim s.replacementPolicy t =
      choice at hrefused hround hlt hevents
    obtain ⟨hvalid, hother⟩ := not_or.mp hrefused
    simp only [hvalid, hother, ne_eq, not_false_eq_true, and_false, ↓reduceIte] at hround hevents
    rcases hround with ⟨σ, hfail, -⟩ | ⟨f, s₁, hf, -, hobt, hpages, hnext⟩
    · exact (hvalid (congrArg Prod.fst hfail)).elim
    · have hevents := hevents hf
      obtain ⟨rfl, rfl⟩ := Prod.mk.inj hf
      obtain ⟨-, hfree, hpolicy, howners⟩ :=
        evict_rest ({ s with replacementPolicy := choice.2 } : Mmu P) choice.1 p
      have hkept : s.freeFrames = s.freeFrames.erase choice.1 := by simp [hnil]
      obtain ⟨hplacing, hloaded⟩ := h.loaded hobt hpages (Or.inr ⟨hnil, t, hchoice⟩) hpolicy
        howners (hfree.trans hkept)
      rw [askEvents_of_nil hnil] at hevents
      exact ⟨choice.1, choice.2, _, rfl, hlt hvalid, hother, hnext, hevents hvalid, hplacing,
        hloaded⟩

/-- A fact about the log, the set of mapped frames and the state of the policy that every event
keeps. A frame may leave the set at any time. A frame outside the set may be loaded again without
a word in the log: this is what `allocate` does with a victim that it refuses and gives back. -/
structure Follows (N : ℕ) (J : List (Event P) → Set FrameId → P.State → Prop) : Prop where
  init : J [] ∅ P.init
  mono : ∀ {log M M' σ}, J log M σ → M' ⊆ M → J log M' σ
  accessed : ∀ {log M σ f}, J log M σ → f ∈ M → J (log ++ [.accessed f]) M (P.onAccess σ f)
  loaded : ∀ {log M σ f}, J log M σ → f < N →
    J (log ++ [.loaded f]) (insert f M) (P.onLoad σ f)
  requeued : ∀ {log M σ f}, J log M σ → f < N → f ∉ M → J log M (P.onLoad σ f)
  asked : ∀ {log pend s} t, Inv N pend none s → s.freeFrames = [] →
    J log s.mapped s.replacementPolicy →
      J (log ++ [.asked s t]) (s.mapped \ {s.victim t}) (P.selectVictim s.replacementPolicy t).2

/-- Every time the policy was asked, no frame was free and the fact held of the log so far. -/
def Answered (N : ℕ) (J : List (Event P) → Set FrameId → P.State → Prop)
    (log : List (Event P)) : Prop :=
  ∀ before s t after, log = before ++ .asked s t :: after →
    (∃ pend, Inv N pend none s) ∧ s.freeFrames = [] ∧ J before s.mapped s.replacementPolicy

section Follows
variable {J : List (Event P) → Set FrameId → P.State → Prop} {log : List (Event P)}

theorem Answered.append (h : Answered N J log) {e : Event P}
    (he : ∀ s t, e = .asked s t → (∃ pend, Inv N pend none s) ∧ s.freeFrames = [] ∧
      J log s.mapped s.replacementPolicy) : Answered N J (log ++ [e]) := by
  intro before s t after heq
  rcases concat_eq_append_cons heq with ⟨rfl, hs, -⟩ | ⟨rest, hlog, -⟩
  · exact he s t hs
  · exact h before s t rest hlog

theorem Follows.answered (hJ : Follows N J) :
    Follows N fun log M σ => J log M σ ∧ Answered N J log where
  init := ⟨hJ.init, fun before s t after heq => by simp at heq⟩
  mono h hM := ⟨hJ.mono h.1 hM, h.2⟩
  accessed h hf := ⟨hJ.accessed h.1 hf, h.2.append fun s t he => by cases he⟩
  loaded h hf := ⟨hJ.loaded h.1 hf, h.2.append fun s t he => by cases he⟩
  requeued h hf hM := ⟨hJ.requeued h.1 hf hM, h.2⟩
  asked {log pend s} t hinv hnil h := by
    refine ⟨hJ.asked t hinv hnil h.1, h.2.append fun s' t' he => ?_⟩
    obtain ⟨rfl, rfl⟩ := Event.asked.inj he
    exact ⟨⟨pend, hinv⟩, hnil, h.1⟩

theorem follows_of_keeps {K : Set FrameId → P.State → Prop}
    (hN : N ≤ invalidFrame) (hK : P.Keeps K) : Follows N fun _ => K where
  init := hK.init
  mono := hK.mono
  accessed := hK.onAccess
  loaded h hf := hK.onLoad h (Nat.ne_of_lt (hf.trans_le hN))
  requeued h hf _ := hK.mono (hK.onLoad h (Nat.ne_of_lt (hf.trans_le hN))) (Set.subset_insert _ _)
  asked t _ _ h := hK.selectVictim t h

theorem Loaded.follows_of_free (hJ : Follows N J) {p : ProcessId} {f : FrameId}
    (hl : Loaded s p f s.replacementPolicy s') {pend' : Set SwapKey} (h : Inv N pend none s)
    (h' : Inv N pend' none s') (hs : J log s.mapped s.replacementPolicy) :
    J (log ++ [.loaded f]) s'.mapped s'.replacementPolicy := by
  rw [hl.mapped_eq h h', hl.policy]
  exact hJ.loaded hs (hl.frame_lt h')

theorem Loaded.follows_of_full (hJ : Follows N J) {p : ProcessId} {f : FrameId} {σ : P.State}
    (hl : Loaded s p f σ s') {pend' : Set SwapKey} (h : Inv N pend none s)
    (h' : Inv N pend' none s') (hnil : s.freeFrames = []) {t : PageTable}
    (ht : P.selectVictim s.replacementPolicy t = (f, σ))
    (hs : J log s.mapped s.replacementPolicy) :
    J (log ++ [.asked s t, .loaded f]) s'.mapped s'.replacementPolicy := by
  have hasked := hJ.asked t h hnil hs
  rw [victim, ht] at hasked
  have hloaded := hJ.loaded hasked (hl.frame_lt h')
  rw [Set.insert_sdiff_singleton] at hloaded
  rw [hl.mapped_eq h h', hl.policy]
  simpa using hloaded

theorem mapped_setTable_none (s : Mmu P) (p : ProcessId) {f : FrameId}
    (hf : f ∈ (s.setTable p none).mapped) : ∃ q ≠ p, ∃ v, s.frameOf q v = some f := by
  obtain ⟨q, v, hv⟩ := hf
  rw [frameOf_setTable] at hv
  split_ifs at hv with hq
  · cases hv
  · exact ⟨q, hq, v, hv⟩

theorem rollback_rest {p : ProcessId} {t : PageTable} (ht : s.pageTables p = some t) (page : ℕ) :
    (s.rollback p page).replacementPolicy = s.replacementPolicy ∧
      ∀ f ∈ (s.rollback p page).mapped, ∃ q ≠ p, ∃ v, s.frameOf q v = some f := by
  obtain ⟨owners, free, heq, -⟩ := freeEntries_spec s (t.entries.take page)
  simp only [rollback, ht, heq]
  exact ⟨rfl, fun f hf => mapped_setTable_none _ p hf⟩

theorem Refused.follows (hP : P.Sound) (hJ : Follows N J) (hN : N ≤ invalidFrame)
    (h : Inv N pend none s) (hnil : s.freeFrames = []) (hs : J log s.mapped s.replacementPolicy)
    {p : ProcessId} {t t' : PageTable} (ht' : s.pageTables p = some t') {σ : P.State}
    (hσ : Refused s p (P.selectVictim s.replacementPolicy t) σ) (page : ℕ) :
    J (log ++ [.asked s t]) (({ s with replacementPolicy := σ } : Mmu P).rollback p page).mapped
      (({ s with replacementPolicy := σ } : Mmu P).rollback p page).replacementPolicy := by
  obtain ⟨hpolicy, hrest⟩ :=
    rollback_rest (s := ({ s with replacementPolicy := σ } : Mmu P)) ht' page
  have hasked := hJ.asked t h hnil hs
  rw [hpolicy]
  refine hJ.mono (M := s.mapped \ {s.victim t}) ?_ fun f hf => ?_
  · rcases hσ with ⟨-, rfl⟩ | ⟨hvalid, -, rfl⟩
    · exact hasked
    · exact hJ.requeued hasked (h.tracks.victim_lt hP t hvalid) fun hmem => hmem.2 rfl
  · -- what stays mapped belongs to other processes, so the victim is not among it
    obtain ⟨q, hq, v, hv⟩ := hrest f hf
    refine ⟨⟨q, v, hv⟩, ?_⟩
    rintro rfl
    rcases hσ with ⟨hinv, -⟩ | ⟨-, hself, -⟩
    · exact Nat.ne_of_lt ((h.frame_lt hv).trans_le hN) hinv
    · have howner := h.paging.owner_of_frame (k := ⟨q, v⟩) hv
      exact hq (Option.some.inj (howner.symm.trans hself))

theorem pageEvents_follows (hP : P.Sound) (hN : N ≤ invalidFrame) (hJ : Follows N J)
    {p : ProcessId} {page n : ℕ} (h : Placing N p page n s)
    (hs : J log s.mapped s.replacementPolicy) :
    J (log ++ s.pageEvents p page n) (s.allocatePages p page n).2.mapped
      (s.allocatePages p page n).2.replacementPolicy := by
  induction n generalizing s page log with
  | zero => simpa [pageEvents, allocatePages] using hs
  | succ n ih =>
    by_cases hnil : s.freeFrames = []
    · obtain ⟨t, ⟨σ, hσ, hfail, hevents⟩ |
        ⟨f, σ, s₂, ht, -, -, hnext, hevents, hplacing, hloaded⟩⟩ :=
        h.round_of_full hP hN hnil
      · have hpages : 0 < s.pageCount p := by
          rw [h.count]
          omega
        obtain ⟨t', ht'⟩ := exists_table_of_pageCount hpages
        rw [hfail, hevents]
        exact hσ.follows hP hJ hN h.inv hnil hs ht' page
      · rw [hnext, hevents]
        have hnow := hloaded.follows_of_full hJ h.inv hplacing.inv hnil ht hs
        simpa using ih hplacing hnow
    · obtain ⟨f, s₂, hnext, hevents, hplacing, hloaded⟩ := h.round_of_free hP hN hnil
      rw [hnext, hevents]
      have hnow := hloaded.follows_of_free hJ h.inv hplacing.inv hs
      simpa using ih hplacing hnow

theorem allocate_follows (hP : P.Sound) (hN : N ≤ invalidFrame) (hJ : Follows N J)
    (h : Inv N ∅ none s) (hs : J log s.mapped s.replacementPolicy) (p : ProcessId) (k : ℕ) :
    J (log ++ s.allocateEvents p k) (s.allocate p k).2.mapped
      (s.allocate p k).2.replacementPolicy := by
  by_cases hk : k = 0
  · simpa [allocate, allocateEvents, hk] using hs
  cases ht : s.pageTables p with
  | some t => simpa [allocate, allocateEvents, hk, ht] using hs
  | none =>
    obtain ⟨hplacing, hview⟩ := h.opened ht k
    rw [allocate_eq hk ht, allocateEvents, if_neg hk, ht]
    refine pageEvents_follows hP hN hJ hplacing (hJ.mono hs ?_)
    refine mapped_subset_of_view fun l f hl => ?_
    rwa [hview] at hl

theorem deallocate_follows (hJ : Follows N J) (hs : J log s.mapped s.replacementPolicy)
    (p : ProcessId) :
    J log (s.deallocate p).2.mapped (s.deallocate p).2.replacementPolicy := by
  unfold deallocate
  cases ht : s.pageTables p with
  | none => exact hs
  | some t =>
    obtain ⟨owners, free, heq, -⟩ := freeEntries_spec s t.entries
    simp only [heq]
    refine hJ.mono hs fun f hf => ?_
    obtain ⟨q, -, v, hv⟩ := mapped_setTable_none _ p hf
    exact ⟨q, v, hv⟩

theorem swapOut_follows (hJ : Follows N J) (h : Inv N ∅ none s)
    (hs : J log s.mapped s.replacementPolicy) (p : ProcessId) (v : ℕ) :
    J log (s.swapOut p v).2.mapped (s.swapOut p v).2.replacementPolicy := by
  have howners : ∀ f q, (s.swapOut p v).2.frameOwners f = some q → s.frameOwners f = some q := by
    intro f q
    simp only [swapOut]
    repeat' split
    all_goals simp only [freeFrame, setTable, Function.update_apply]
    all_goals first | exact id | (split_ifs <;> simp)
  have hmapped : (s.swapOut p v).2.mapped ⊆ s.mapped := by
    rw [(swapOut_spec h p v).1.mapped_eq, h.mapped_eq]
    intro f hf
    obtain ⟨q, hq⟩ := Option.isSome_iff_exists.mp hf
    exact Option.isSome_iff_exists.mpr ⟨q, howners f q hq⟩
  have hpolicy : (s.swapOut p v).2.replacementPolicy = s.replacementPolicy := by
    unfold swapOut
    repeat' split
    all_goals rfl
  rw [hpolicy]
  exact hJ.mono hs hmapped

theorem restore_rest (s : Mmu P) (p : ProcessId) (v : ℕ) (f : FrameId) :
    (s.restore p v f).freeFrames = s.freeFrames ∧
      (s.restore p v f).replacementPolicy = s.replacementPolicy ∧
      (s.restore p v f).frameOwners = s.frameOwners := by
  unfold restore
  split <;> exact ⟨rfl, rfl, rfl⟩

theorem obtainFrameForSwapIn_policy (hN : N ≤ invalidFrame) (h : Inv N ∅ none s) (p : ProcessId)
    (t : PageTable) :
    (s.freeFrames = [] ∧ s.victim t = invalidFrame ∧
      s.obtainFrameForSwapIn p t = (invalidFrame,
        { s with replacementPolicy := (P.selectVictim s.replacementPolicy t).2 })) ∨
    ∃ f s₁, s.obtainFrameForSwapIn p t = (f, s₁) ∧ f ≠ invalidFrame ∧
      ((f ∈ s.freeFrames ∧ s₁.replacementPolicy = s.replacementPolicy) ∨
        (s.freeFrames = [] ∧
          P.selectVictim s.replacementPolicy t = (f, s₁.replacementPolicy))) ∧
      s₁.frameOwners = update s.frameOwners f (some p) ∧
      s₁.freeFrames = s.freeFrames.erase f := by
  by_cases hnil : s.freeFrames = []
  · simp only [obtainFrameForSwapIn, allocateFrame_of_nil hnil, ↓reduceIte, selectVictim, victim]
    generalize P.selectVictim s.replacementPolicy t = choice
    by_cases hinv : choice.1 = invalidFrame
    · left
      rw [if_pos hinv]
      exact ⟨hnil, hinv, rfl⟩
    · right
      rw [if_neg hinv]
      obtain ⟨-, hfree, hpolicy, howners⟩ :=
        evict_rest ({ s with replacementPolicy := choice.2 } : Mmu P) choice.1 p
      refine ⟨choice.1, _, rfl, hinv, Or.inr ⟨hnil, by rw [hpolicy]⟩, howners, ?_⟩
      rw [hfree, hnil]
      rfl
  · right
    obtain ⟨f, hf, heq⟩ := allocateFrame_of_ne hnil p
    have hvalid : f ≠ invalidFrame := Nat.ne_of_lt ((h.paging.free_mem f hf).trans_le hN)
    refine ⟨f, (s.allocateFrame p).2, by simp [obtainFrameForSwapIn, heq, hvalid], hvalid, ?_⟩
    rw [heq]
    exact ⟨Or.inl ⟨hf, rfl⟩, rfl, rfl⟩

theorem swapIn_follows (hP : P.Sound) (hN : N ≤ invalidFrame) (hJ : Follows N J)
    (h : Inv N ∅ none s) (hs : J log s.mapped s.replacementPolicy) (p : ProcessId) (v : ℕ) :
    J (log ++ s.swapInEvents p v) (s.swapIn p v).2.mapped (s.swapIn p v).2.replacementPolicy := by
  have hinv := (swapIn_spec hP hN h p v).1
  unfold swapIn swapInEvents at *
  cases ht : s.pageTables p with
  | none => simpa using hs
  | some t =>
    cases he : t.getEntry v with
    | error e => simpa only [he, List.append_nil] using hs
    | ok entry =>
      by_cases hpres : entry.present = true
      · simpa only [he, hpres, ↓reduceIte, List.append_nil] using hs
      simp only [ht, he, hpres, Bool.false_eq_true, ↓reduceIte] at hinv ⊢
      rcases obtainFrameForSwapIn_policy hN h p t with
        ⟨hnil, hvictim, heq⟩ | ⟨f, s₁, heq, hvalid, hsource, howners, hfree⟩
      · have hasked := hJ.asked t h hnil hs
        simp only [heq, ↓reduceIte, askEvents_of_nil hnil, List.append_nil]
        refine hJ.mono hasked fun f hf => ⟨hf, ?_⟩
        obtain ⟨q, w, hw⟩ := hf
        rw [hvictim]
        exact Nat.ne_of_lt ((h.frame_lt hw).trans_le hN)
      simp only [heq, if_neg hvalid] at hinv ⊢
      obtain ⟨hfree₂, hpolicy₂, howners₂⟩ := restore_rest s₁ p v f
      obtain ⟨-, hfree₃, hpolicy₃, howners₃⟩ := mapPage_rest (s₁.restore p v f) p v f
      have hloaded : Loaded s p f s₁.replacementPolicy
          (((s₁.restore p v f).mapPage p v f).onLoad f) := by
        refine ⟨hsource.imp_right fun hfull => ⟨hfull.1, t, hfull.2⟩, ?_, ?_, ?_⟩
        · rw [← hpolicy₂, ← hpolicy₃]
          rfl
        · exact (howners₃.trans howners₂).trans howners
        · exact (hfree₃.trans hfree₂).trans hfree
      rcases hsource with ⟨hmem, hpolicy⟩ | ⟨hnil, hchoice⟩
      · rw [h.askEvents_of_ne hN (List.ne_nil_of_mem hmem), List.nil_append]
        rw [hpolicy] at hloaded
        exact hloaded.follows_of_free hJ h hinv hs
      · rw [askEvents_of_nil hnil]
        exact hloaded.follows_of_full hJ h hinv hnil hchoice hs

theorem access_follows (hJ : Follows N J) (hs : J log s.mapped s.replacementPolicy)
    {p : ProcessId} {t t' : PageTable} {v : ℕ} {f : FrameId} (ht : s.pageTables p = some t)
    (hf : t.frameAt v = some f) (hc : t'.pageCount = t.pageCount)
    (hframe : ∀ w, t'.frameAt w = t.frameAt w) :
    J (log ++ s.accessEvents p v) ((s.setTable p t').onAccess f).mapped
      ((s.setTable p t').onAccess f).replacementPolicy := by
  have hmapped : ((s.setTable p t').onAccess f).mapped = s.mapped :=
    mapped_congr (view_setTable_same ht hc hframe)
  simp only [hmapped, accessEvents, ht, PageTable.translate_eq, hf]
  exact hJ.accessed hs ⟨p, v, (frameOf_of_table ht v).trans hf⟩

theorem access_cases (s : Mmu P) (p : ProcessId) (v : ℕ) :
    (s.accessEvents p v = [] ∧ (s.read p v).2 = s ∧ ∀ b, (s.write p v b).2 = s) ∨
      ∃ t f, s.pageTables p = some t ∧ t.frameAt v = some f := by
  cases ht : s.pageTables p with
  | none => exact Or.inl (by simp [accessEvents, read, write, ht])
  | some t =>
    cases hf : t.frameAt v with
    | none =>
      have herror : ∃ e, t.translate v = .error e := by
        rw [PageTable.translate_eq, hf]
        exact ⟨_, (apply_ite Result.error
          (v < t.pageCount) .segmentationFault .invalidAddress).symm⟩
      obtain ⟨e, he⟩ := herror
      exact Or.inl (by simp [accessEvents, read, write, ht, he])
    | some f => exact Or.inr ⟨t, f, rfl, hf⟩

theorem read_follows (hJ : Follows N J) (hs : J log s.mapped s.replacementPolicy)
    (p : ProcessId) (v : ℕ) :
    J (log ++ s.accessEvents p v) (s.read p v).2.mapped (s.read p v).2.replacementPolicy := by
  rcases access_cases s p v with ⟨hevents, hread, -⟩ | ⟨t, f, ht, hf⟩
  · rwa [hevents, hread, List.append_nil]
  · simp only [read, ht, PageTable.translate_eq, hf]
    exact access_follows hJ hs ht hf (PageTable.pageCount_setReferenced t v true)
      (PageTable.frameAt_setReferenced t v true)

theorem write_follows (hJ : Follows N J) (hs : J log s.mapped s.replacementPolicy)
    (p : ProcessId) (v : ℕ) (b : Block) :
    J (log ++ s.accessEvents p v) (s.write p v b).2.mapped
      (s.write p v b).2.replacementPolicy := by
  rcases access_cases s p v with ⟨hevents, -, hwrite⟩ | ⟨t, f, ht, hf⟩
  · rwa [hevents, hwrite b, List.append_nil]
  · simp only [write, ht, PageTable.translate_eq, hf]
    have hc : ((t.setReferenced v true).2.setDirty v true).2.pageCount = t.pageCount := by simp
    exact access_follows hJ hs ht hf hc (by simp)

theorem exec_follows (hP : P.Sound) (hN : N ≤ invalidFrame) (hJ : Follows N J)
    (h : Inv N ∅ none s) (hs : J log s.mapped s.replacementPolicy) (op : Op) :
    J (log ++ s.events op) (s.exec op).2.mapped (s.exec op).2.replacementPolicy := by
  cases op with
  | allocate p k => exact allocate_follows hP hN hJ h hs p k
  | deallocate p => simpa [events, exec] using deallocate_follows hJ hs p
  | read p v => exact read_follows hJ hs p v
  | write p v b => exact write_follows hJ hs p v b
  | swapIn p v => exact swapIn_follows hP hN hJ h hs p v
  | swapOut p v => simpa [events, exec] using swapOut_follows hJ h hs p v

theorem log_append (s : Mmu P) (ops : List Op) (op : Op) :
    s.log (ops ++ [op]) = s.log ops ++ ((machine P).run s ops).events op := by
  simp [Mmu.log, Machine.steps_append]

theorem reachable_follows (hP : P.Sound) (hJ : Follows N J) {memory : PhysicalMemory}
    (hsize : memory.size = N) (hN : N ≤ invalidFrame) (order : ℕ → ℕ) (ops : List Op) :
    J ((init P memory order).log ops) ((machine P).run (init P memory order) ops).mapped
      ((machine P).run (init P memory order) ops).replacementPolicy := by
  induction ops using List.reverseRecOn with
  | nil =>
    refine hJ.mono hJ.init ?_
    rintro f ⟨p, v, hv⟩
    cases hv
  | append_singleton ops op ih =>
    have h := reachable_inv hP memory (hsize.trans_le hN) order ops
    rw [hsize] at h
    rw [log_append, Machine.run_append]
    exact exec_follows hP hN hJ h ih op

theorem asked_follows (hP : P.Sound) (hJ : Follows N J) {memory : PhysicalMemory}
    (hsize : memory.size = N) (hN : N ≤ invalidFrame) (order : ℕ → ℕ) (ops : List Op)
    {before after : List (Event P)} {t : PageTable}
    (hlog : (init P memory order).log ops = before ++ .asked s t :: after) :
    (∃ pend, Inv N pend none s) ∧ s.freeFrames = [] ∧ J before s.mapped s.replacementPolicy :=
  (reachable_follows hP hJ.answered hsize hN order ops).2 before s t after hlog

theorem reachable_keeps {K : Set FrameId → P.State → Prop} (hP : P.Sound) (hK : P.Keeps K)
    (memory : PhysicalMemory) (hN : memory.size ≤ invalidFrame) (order : ℕ → ℕ) (ops : List Op) :
    K ((machine P).run (init P memory order) ops).mapped
      ((machine P).run (init P memory order) ops).replacementPolicy :=
  reachable_follows hP (follows_of_keeps hN hK) rfl hN order ops

end Follows

end Mmu
end Contur
