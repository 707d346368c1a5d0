import Mathlib.Order.BooleanAlgebra.Set
import Contur.MmuView

/-!
# Frame ownership over runs of the memory management unit

Every operation keeps the invariant of the pager with no page pending and no
frame held. The two places where the unit obtains a frame have one
specification, `Obtained`: the frame comes from the free set or from a page that
is swapped out. The page loop of `allocate` is an induction in which the pages
still to come are pending.
-/

namespace Contur
open Function (update)

namespace Mmu
variable {P : ReplacementPolicy} {N : ℕ} {s s' : Mmu P}
variable {pend : Set SwapKey} {held : Option (FrameId × ProcessId)}

theorem freeFrames_init (P : ReplacementPolicy) {memory : PhysicalMemory}
    (hN : memory.size ≤ 2 ^ 32) (order : ℕ → ℕ) :
    (init P memory order).freeFrames = List.range memory.size := by
  have hmap : (List.range memory.size).map (fun i => i % 2 ^ 32) = List.range memory.size := by
    conv_rhs => rw [← List.map_id (List.range memory.size)]
    refine List.map_congr_left fun i hi => Nat.mod_eq_of_lt ?_
    exact (List.mem_range.mp hi).trans_le hN
  rw [init, hmap]
  exact List.nodup_range.dedup

theorem inv_init (P : ReplacementPolicy) {memory : PhysicalMemory}
    (hN : memory.size ≤ invalidFrame) (order : ℕ → ℕ) :
    Inv memory.size ∅ none (init P memory order) where
  size := rfl
  nodup := List.nodup_dedup _
  tracks := (P.tracks_init memory.size).mono (fun f ⟨p, v, h⟩ => by cases h)
  paging := {
    owner_mem := nofun
    free_mem := fun f hf => by
      have hf : f ∈ (init P memory order).freeFrames := hf
      rw [freeFrames_init P (hN.trans (by decide))] at hf
      exact List.mem_range.mp hf
    free_iff := fun f hf => ⟨fun _ => rfl, fun _ => by
      change f ∈ (init P memory order).freeFrames
      rw [freeFrames_init P (hN.trans (by decide))]
      exact List.mem_range.mpr hf⟩
    owner_iff := fun f p => ⟨nofun, by rintro (⟨k, -, hk⟩ | h) <;> cases ‹_›⟩
    held_unmapped := nofun
    frame_inj := nofun
    frame_live := nofun
    swap_iff := fun k => ⟨nofun, fun ⟨hk, _⟩ => absurd hk (Nat.not_lt_zero _)⟩
    pend_live := nofun
    cell_isSome := fun f hf => by simpa [view, init, PhysicalMemory.size] using hf }

theorem Inv.of_view_eq (h : Inv N pend held s) (hv : s'.view = s.view)
    (hm : s'.memory.size = s.memory.size) (hf : s'.freeFrames = s.freeFrames)
    (ht : P.Tracks N s.mapped s'.replacementPolicy) : Inv N pend held s' where
  paging := hv ▸ h.paging
  size := hm.trans h.size
  nodup := hf ▸ h.nodup
  tracks := by rwa [mapped_congr hv]

theorem Inv.frame_lt (h : Inv N pend held s) {p : ProcessId} {v : ℕ} {f : FrameId}
    (hf : s.frameOf p v = some f) : f < N :=
  h.paging.frame_mem (k := ⟨p, v⟩) hf

theorem Inv.free_or_mapped (h : Inv N pend none s) {f : FrameId} (hf : f < N) :
    f ∈ s.view.free ∨ ∃ l, s.view.frameOf l = some f := by
  by_cases hfree : f ∈ s.view.free
  · exact Or.inl hfree
  · obtain ⟨q, hq⟩ := Option.ne_none_iff_exists'.mp (mt (h.paging.free_iff f hf).mpr hfree)
    obtain ⟨l, -, hl⟩ := ((h.paging.owner_iff f q).mp hq).resolve_right (by simp)
    exact Or.inr ⟨l, hl⟩

structure Obtained (N : ℕ) (pend : Set SwapKey) (s : Mmu P) (p : ProcessId) (f : FrameId)
    (s' : Mmu P) : Prop where
  inv : Inv N pend (some (f, p)) s'
  memory : s'.memory = s.memory
  moved : s'.view = s.view.take f p ∨
    ∃ l, s.view.frameOf l = some f ∧ s'.view = s.view.evict l f p

theorem obtained_of_free (h : Inv N pend none s) (hne : s.freeFrames ≠ []) (p : ProcessId) :
    ∃ f s', s.allocateFrame p = (f, s') ∧ f < N ∧ Obtained N pend s p f s' := by
  obtain ⟨f, hf, heq⟩ := allocateFrame_of_ne hne p
  have hview := view_take h.nodup f p (fun n => s.order (n + 1))
  refine ⟨f, _, heq, h.paging.free_mem f hf, ⟨?_, h.size, h.nodup.erase f, ?_⟩, rfl, Or.inl hview⟩
  · rw [hview]
    exact h.paging.take hf
  · exact h.tracks.mono (mapped_subset_of_view fun k g hk => by rwa [hview] at hk)

theorem obtained_of_evict (h : Inv N pend none s) (hnil : s.freeFrames = []) {f : FrameId}
    (hf : f < N) (p : ProcessId) : Obtained N pend s p f (s.evict f p) := by
  have hfree : f ∉ s.view.free := by simp [view, hnil]
  obtain ⟨l, hl⟩ := (h.free_or_mapped hf).resolve_left hfree
  have hview := view_evict h hl p
  obtain ⟨hmemory, hfrees, hpolicy, -⟩ := evict_rest s f p
  refine ⟨⟨?_, hmemory ▸ h.size, hfrees ▸ h.nodup, ?_⟩, hmemory, Or.inr ⟨l, hl, hview⟩⟩
  · rw [hview]
    exact h.paging.evict hl
  · rw [hpolicy]
    refine h.tracks.mono (mapped_subset_of_view fun k g hk => ?_)
    rw [hview] at hk
    by_cases hkl : k = l
    · simp [Paging.State.evict, hkl] at hk
    · simpa [Paging.State.evict, hkl] using hk

theorem Inv.setPolicy (h : Inv N pend held s) {σ : P.State} (hσ : P.Tracks N s.mapped σ) :
    Inv N pend held { s with replacementPolicy := σ } :=
  h.of_view_eq rfl rfl rfl hσ

theorem Obtained.of_setPolicy {σ : P.State} {p : ProcessId} {f : FrameId}
    (h : Obtained N pend { s with replacementPolicy := σ } p f s') : Obtained N pend s p f s' :=
  ⟨h.inv, h.memory, h.moved⟩

theorem obtainFrame_spec (hP : P.Sound) (hN : N ≤ invalidFrame) (h : Inv N pend none s)
    (p : ProcessId) (t : PageTable) :
    (∃ σ, s.obtainFrame p t = (invalidFrame, { s with replacementPolicy := σ }) ∧
      P.Tracks N s.mapped σ) ∨
    ∃ f s', s.obtainFrame p t = (f, s') ∧ f ≠ invalidFrame ∧ Obtained N pend s p f s' ∧
      ∀ k, s.view.frameOf k = some f → k.processId ≠ p := by
  by_cases hne : s.freeFrames = []
  · have hvictim := h.tracks.victim_lt hP t
    have htracks := h.tracks.selectVictim t
    simp only [obtainFrame, allocateFrame_of_nil hne, ↓reduceIte, selectVictim]
    generalize P.selectVictim s.replacementPolicy t = choice at hvictim htracks
    by_cases hself : choice.1 ≠ invalidFrame ∧ s.frameOwners choice.1 = some p
    · left
      rw [if_pos hself]
      exact ⟨_, rfl, (htracks.onLoad (hvictim hself.1)).mono (Set.subset_insert _ _)⟩
    · rw [if_neg hself]
      by_cases hinv : choice.1 = invalidFrame
      · left
        rw [if_pos hinv]
        exact ⟨_, rfl, htracks⟩
      · right
        rw [if_neg hinv]
        have hobt := obtained_of_evict (h.setPolicy htracks) hne (hvictim hinv) p
        refine ⟨_, _, rfl, hinv, hobt.of_setPolicy, ?_⟩
        intro k hk hkp
        exact hself ⟨hinv, hkp ▸ h.paging.owner_of_frame hk⟩
  · right
    obtain ⟨f, s', heq, hf, hobt⟩ := obtained_of_free h hne p
    have hinv : f ≠ invalidFrame := Nat.ne_of_lt (hf.trans_le hN)
    refine ⟨f, s', by simp [obtainFrame, heq, hinv], hinv, hobt, ?_⟩
    intro k hk _
    obtain ⟨g, hg, hgeq⟩ := allocateFrame_of_ne hne p
    obtain rfl : f = g := by rw [heq] at hgeq; exact congrArg Prod.fst hgeq
    exact h.paging.frame_not_free hk hg

theorem obtainFrameForSwapIn_spec (hP : P.Sound) (hN : N ≤ invalidFrame) (h : Inv N pend none s)
    (p : ProcessId) (t : PageTable) :
    (∃ σ, s.obtainFrameForSwapIn p t = (invalidFrame, { s with replacementPolicy := σ }) ∧
      P.Tracks N s.mapped σ) ∨
    ∃ f s', s.obtainFrameForSwapIn p t = (f, s') ∧ f ≠ invalidFrame ∧ Obtained N pend s p f s' := by
  by_cases hne : s.freeFrames = []
  · have hvictim := h.tracks.victim_lt hP t
    have htracks := h.tracks.selectVictim t
    simp only [obtainFrameForSwapIn, allocateFrame_of_nil hne, ↓reduceIte, selectVictim]
    generalize P.selectVictim s.replacementPolicy t = choice at hvictim htracks
    by_cases hinv : choice.1 = invalidFrame
    · left
      rw [if_pos hinv]
      exact ⟨_, rfl, htracks⟩
    · right
      rw [if_neg hinv]
      have hobt := obtained_of_evict (h.setPolicy htracks) hne (hvictim hinv) p
      exact ⟨_, _, rfl, hinv, hobt.of_setPolicy⟩
  · right
    obtain ⟨f, s', heq, hf, hobt⟩ := obtained_of_free h hne p
    have hinv : f ≠ invalidFrame := Nat.ne_of_lt (hf.trans_le hN)
    exact ⟨f, s', by simp [obtainFrameForSwapIn, heq, hinv], hinv, hobt⟩

namespace Obtained
variable {p : ProcessId} {f : FrameId} (h : Obtained N pend s p f s')
include h

theorem frame_lt : f < N :=
  h.inv.paging.owner_mem f p ((h.inv.paging.owner_iff f p).mpr (Or.inr rfl))

theorem live : s'.view.live = s.view.live := by
  rcases h.moved with hv | ⟨l, -, hv⟩ <;> rw [hv] <;> rfl

theorem content (k : SwapKey) : s'.view.content k = s.view.content k := by
  rcases h.moved with hv | ⟨l, hl, hv⟩
  · rw [hv]
    rfl
  · rw [hv]
    exact Paging.Inv.content_evict hl p k

theorem keeps {k : SwapKey} (hk : s.view.frameOf k ≠ some f) :
    s'.view.frameOf k = s.view.frameOf k ∧ s'.view.swap k = s.view.swap k := by
  rcases h.moved with hv | ⟨l, hl, hv⟩
  · rw [hv]
    exact ⟨rfl, rfl⟩
  · have hkl : k ≠ l := fun hkl => hk (hkl ▸ hl)
    rw [hv]
    exact ⟨Function.update_of_ne hkl .., Function.update_of_ne hkl ..⟩

end Obtained

theorem pageCount_eq_of_live (h : s'.view.live = s.view.live) (q : ProcessId) :
    s'.pageCount q = s.pageCount q := by
  have hlive : ∀ v, v < s'.pageCount q ↔ v < s.pageCount q :=
    fun v => Set.ext_iff.mp h ⟨q, v⟩
  have h1 := hlive (s'.pageCount q)
  have h2 := hlive (s.pageCount q)
  omega

theorem Inv.installed {p : ProcessId} {v : ℕ} {f : FrameId} (h : Inv N pend (some (f, p)) s)
    (hk : ⟨p, v⟩ ∈ pend) :
    Inv N (pend \ {⟨p, v⟩}) none ((s.mapPage p v f).onLoad f) ∧
      ((s.mapPage p v f).onLoad f).view = s.view.install ⟨p, v⟩ f ∧
      ((s.mapPage p v f).onLoad f).memory = s.memory := by
  have hview : ((s.mapPage p v f).onLoad f).view = s.view.install ⟨p, v⟩ f :=
    view_mapPage (h.paging.pend_live _ hk).1 f
  obtain ⟨hmemory, hfree, hpolicy, -⟩ := mapPage_rest s p v f
  have hlt : f < N := h.paging.owner_mem f p ((h.paging.owner_iff f p).mpr (Or.inr rfl))
  refine ⟨⟨?_, ?_, ?_, ?_⟩, hview, hmemory⟩
  · rw [hview]
    exact h.paging.install hk
  · exact (congrArg PhysicalMemory.size hmemory).trans h.size
  · exact (hfree ▸ h.nodup :)
  · change P.Tracks N _ (P.onLoad (s.mapPage p v f).replacementPolicy f)
    rw [hpolicy]
    refine (h.tracks.onLoad hlt).mono ?_
    intro g hg
    obtain ⟨k, hk⟩ := mem_mapped_iff.mp hg
    rw [hview] at hk
    by_cases hkv : k = ⟨p, v⟩
    · left
      simpa [Paging.State.install, hkv] using hk.symm
    · right
      exact mem_mapped_iff.mpr ⟨k, by simpa [Paging.State.install, hkv] using hk⟩

def pendingFrom (p : ProcessId) (page n : ℕ) : Set SwapKey :=
  {k | k.processId = p ∧ page ≤ k.virtualPage ∧ k.virtualPage < page + n}

theorem pendingFrom_zero (p : ProcessId) (page : ℕ) : pendingFrom p page 0 = ∅ := by
  ext k
  simp only [pendingFrom, Set.mem_ofPred_eq, Set.mem_empty_iff_false, iff_false]
  omega

theorem pendingFrom_succ (p : ProcessId) (page n : ℕ) :
    pendingFrom p page (n + 1) \ {⟨p, page⟩} = pendingFrom p (page + 1) n := by
  ext ⟨q, v⟩
  simp only [pendingFrom, Set.mem_sdiff, Set.mem_ofPred_eq, Set.mem_singleton_iff, SwapKey.mk.injEq]
  constructor
  · rintro ⟨⟨hq, hge, hlt⟩, hne⟩
    have hv : v ≠ page := fun hv => hne ⟨hq, hv⟩
    exact ⟨hq, by omega, by omega⟩
  · rintro ⟨hq, hge, hlt⟩
    exact ⟨⟨hq, by omega, by omega⟩, fun hne => by omega⟩

theorem exists_table_of_pageCount {p : ProcessId} (h : 0 < s.pageCount p) :
    ∃ t, s.pageTables p = some t := by
  cases ht : s.pageTables p with
  | none => simp [pageCount, ht] at h
  | some t => exact ⟨t, rfl⟩

theorem Inv.released (h : Inv N pend none s) {p : ProcessId} {t : PageTable}
    (ht : s.pageTables p = some t) {es : List PageTableEntry}
    (hes : ∀ f, f ∈ es.filterMap PageTableEntry.mappedFrame ↔ ∃ v, t.frameAt v = some f)
    (swap : SwapKey → Option Block)
    (hswap : ∀ k, swap k = if k.processId = p then none else s.swapSpace k) :
    Inv N {k | k ∈ pend ∧ k.processId ≠ p} none
        (({ s.freeEntries es with swapSpace := swap } : Mmu P).setTable p none) ∧
      (∀ k, k.processId ≠ p →
        (({ s.freeEntries es with swapSpace := swap } : Mmu P).setTable p none).view.content k =
          s.view.content k) := by
  have hview := view_release h ht hes hswap
  obtain ⟨owners, free, heq, -, -, hnodup⟩ := freeEntries_spec s es
  have hinv : Paging.Inv SwapKey.processId {f | f < N} {k | k ∈ pend ∧ k.processId ≠ p} none
      (s.view.closeProcess SwapKey.processId p) := h.paging.closeProcess
  refine ⟨⟨hview ▸ hinv, ?_, ?_, ?_⟩, fun k hk => ?_⟩
  · rw [heq]
    exact h.size
  · rw [heq]
    exact hnodup h.nodup
  · have hsub : (({ s.freeEntries es with swapSpace := swap } : Mmu P).setTable p none).mapped ⊆
        s.mapped := mapped_subset_of_view fun k f hk => by
      rw [hview] at hk
      simp only [Paging.State.closeProcess] at hk
      split_ifs at hk
      exact hk
    rw [heq] at hsub ⊢
    exact h.tracks.mono hsub
  · rw [hview]
    exact Paging.Inv.content_closeProcess s.view SwapKey.processId hk

theorem mem_filterMap_take {t : PageTable} {page : ℕ} (h : ∀ v, page ≤ v → t.frameAt v = none)
    (f : FrameId) : f ∈ (t.entries.take page).filterMap PageTableEntry.mappedFrame ↔
      ∃ v, t.frameAt v = some f := by
  rw [show (t.entries.take page).filterMap PageTableEntry.mappedFrame =
    PageTable.frames ⟨t.entries.take page⟩ from rfl, PageTable.mem_frames]
  refine exists_congr fun v => ?_
  by_cases hv : v < page
  · simp [PageTable.frameAt, hv]
  · rw [h v (Nat.not_lt.mp hv)]
    simp [PageTable.frameAt, hv]

/-- What an allocation for `p` leaves: either all pages of the process are mapped, or the process
has no table. Nothing is written to the memory. -/
structure Allocated (N : ℕ) (s : Mmu P) (p : ProcessId) (count : ℕ)
    (r : Result MemoryAddress × Mmu P) : Prop where
  inv : Inv N ∅ none r.2
  memory : r.2.memory = s.memory
  content : ∀ k, k.processId ≠ p → r.2.view.content k = s.view.content k
  outcome : (r.1 = .ok 0 ∧ r.2.pageCount p = count ∧ ∀ v, r.2.swapSpace ⟨p, v⟩ = none) ∨
    (r.1 = .error .outOfMemory ∧ r.2.pageTables p = none)

/-- The rollback frees the frames of the pages that were mapped so far, which are all frames
of the process, and erases its table. -/
theorem rollback_spec {p : ProcessId} {page n : ℕ}
    (h : Inv N (pendingFrom p page n) none s) (hcount : s.pageCount p = page + n) (hn : 0 < n)
    (hswap : ∀ v, s.swapSpace ⟨p, v⟩ = none) :
    Inv N ∅ none (s.rollback p page) ∧
      (s.rollback p page).view = s.view.closeProcess SwapKey.processId p ∧
      (s.rollback p page).memory = s.memory ∧ (s.rollback p page).pageTables p = none := by
  obtain ⟨t, ht⟩ := exists_table_of_pageCount (s := s) (p := p) (by omega)
  have habsent : ∀ v, page ≤ v → t.frameAt v = none := by
    intro v hv
    by_contra hne
    obtain ⟨f, hf⟩ := Option.ne_none_iff_exists'.mp hne
    have hlt := PageTable.frameAt_lt hf
    rw [← pageCount_of_table ht, hcount] at hlt
    have hpend := (h.paging.pend_live ⟨p, v⟩ ⟨rfl, hv, hlt⟩).2
    rw [show s.view.frameOf ⟨p, v⟩ = t.frameAt v from frameOf_of_table ht v, hf] at hpend
    cases hpend
  obtain ⟨owners, free, heq, -, -, -⟩ := freeEntries_spec s (t.entries.take page)
  have hclear : ∀ k : SwapKey,
      s.swapSpace k = if k.processId = p then none else s.swapSpace k := by
    rintro ⟨q, v⟩
    by_cases hq : q = p
    · simp [hq, hswap]
    · simp [hq]
  obtain ⟨hinv, -⟩ := h.released ht (mem_filterMap_take habsent) _ hclear
  have hview := view_release h ht (mem_filterMap_take habsent) hclear
  have hrollback : s.rollback p page =
      (({ s.freeEntries (t.entries.take page) with
        swapSpace := s.swapSpace } : Mmu P).setTable p none) := by
    simp only [rollback, ht, heq]
  have hnone : {k | k ∈ pendingFrom p page n ∧ k.processId ≠ p} = ∅ := by
    ext k
    simp only [pendingFrom, Set.mem_ofPred_eq, Set.mem_empty_iff_false, iff_false]
    tauto
  rw [hnone, ← hrollback] at hinv
  refine ⟨hinv, ?_, ?_, ?_⟩
  · rw [hrollback, hview]
  · simp only [hrollback, heq]
    rfl
  · simp [hrollback, setTable]

theorem allocated_of_rollback {p : ProcessId} {page n : ℕ}
    (h : Inv N (pendingFrom p page n) none s) (hcount : s.pageCount p = page + n) (hn : 0 < n)
    (hswap : ∀ v, s.swapSpace ⟨p, v⟩ = none) :
    Allocated N s p (page + n) (.error .outOfMemory, s.rollback p page) := by
  obtain ⟨hinv, hview, hmemory, htable⟩ := rollback_spec h hcount hn hswap
  refine ⟨hinv, hmemory, fun k hk => ?_, Or.inr ⟨rfl, htable⟩⟩
  rw [hview]
  exact Paging.Inv.content_closeProcess s.view SwapKey.processId hk

/-- The loop invariant of `allocate`: the pages of the process below `page` are mapped, the next
`n` pages are pending, and none of its pages is swapped out. -/
structure Placing (N : ℕ) (p : ProcessId) (page n : ℕ) (s : Mmu P) : Prop where
  inv : Inv N (pendingFrom p page n) none s
  count : s.pageCount p = page + n
  swap : ∀ v, s.swapSpace ⟨p, v⟩ = none

theorem Placing.placed {p : ProcessId} {page n : ℕ} (h : Placing N p page (n + 1) s) {f : FrameId}
    {s₁ : Mmu P} (hobt : Obtained N (pendingFrom p page (n + 1)) s p f s₁)
    (hother : ∀ k, s.view.frameOf k = some f → k.processId ≠ p) :
    Placing N p (page + 1) n ((s₁.mapPage p page f).onLoad f) ∧
      ((s₁.mapPage p page f).onLoad f).view = s₁.view.install ⟨p, page⟩ f ∧
      ((s₁.mapPage p page f).onLoad f).memory = s.memory := by
  have hpage : (⟨p, page⟩ : SwapKey) ∈ pendingFrom p page (n + 1) := ⟨rfl, le_rfl, by simp⟩
  obtain ⟨hinv, hview, hmem⟩ := hobt.inv.installed hpage
  rw [pendingFrom_succ] at hinv
  refine ⟨⟨hinv, ?_, ?_⟩, hview, hmem.trans hobt.memory⟩
  · have hlive : ((s₁.mapPage p page f).onLoad f).view.live = s.view.live := by
      rw [hview]
      exact hobt.live
    rw [pageCount_eq_of_live hlive p, h.count]
    omega
  · intro v
    change ((s₁.mapPage p page f).onLoad f).view.swap ⟨p, v⟩ = none
    rw [hview]
    exact (hobt.keeps fun hk => hother _ hk rfl).2.trans (h.swap v)

/-- One round of the page loop: memory is exhausted and the pages placed so far are given back,
or one more page is placed. -/
theorem Placing.allocatePages_succ (hP : P.Sound) (hN : N ≤ invalidFrame) {p : ProcessId}
    {page n : ℕ} (h : Placing N p page (n + 1) s) :
    ∃ t, s.pageTables p = some t ∧
      ((∃ σ, s.obtainFrame p t = (invalidFrame, { s with replacementPolicy := σ }) ∧
        P.Tracks N s.mapped σ ∧ s.allocatePages p page (n + 1) =
          (.error .outOfMemory, ({ s with replacementPolicy := σ } : Mmu P).rollback p page)) ∨
      ∃ f s₁, s.obtainFrame p t = (f, s₁) ∧ f ≠ invalidFrame ∧
        Obtained N (pendingFrom p page (n + 1)) s p f s₁ ∧
        (∀ k, s.view.frameOf k = some f → k.processId ≠ p) ∧ s.allocatePages p page (n + 1) =
          ((s₁.mapPage p page f).onLoad f).allocatePages p (page + 1) n) := by
  obtain ⟨t, ht⟩ := exists_table_of_pageCount (s := s) (p := p) (by rw [h.count]; omega)
  refine ⟨t, ht, ?_⟩
  rcases obtainFrame_spec hP hN h.inv p t with ⟨σ, heq, hσ⟩ | ⟨f, s₁, heq, hne, hobt, hother⟩
  · left
    exact ⟨σ, heq, hσ, by simp only [allocatePages, ht, heq, ↓reduceIte]⟩
  · right
    exact ⟨f, s₁, heq, hne, hobt, hother, by simp only [allocatePages, ht, heq, if_neg hne]⟩

theorem allocatePages_spec (hP : P.Sound) (hN : N ≤ invalidFrame) {p : ProcessId} {page n : ℕ}
    (h : Placing N p page n s) : Allocated N s p (page + n) (s.allocatePages p page n) := by
  induction n generalizing s page with
  | zero =>
    have hinv := h.inv
    rw [pendingFrom_zero] at hinv
    exact ⟨hinv, rfl, fun _ _ => rfl, Or.inl ⟨rfl, h.count, h.swap⟩⟩
  | succ n ih =>
    obtain ⟨t, -, ⟨σ, -, hσ, hfail⟩ | ⟨f, s₁, -, -, hobt, hother, hnext⟩⟩ :=
      h.allocatePages_succ hP hN
    · rw [hfail]
      have hroll := allocated_of_rollback (h.inv.setPolicy hσ) h.count (Nat.succ_pos n) h.swap
      exact ⟨hroll.inv, hroll.memory, hroll.content, hroll.outcome⟩
    · rw [hnext]
      obtain ⟨hplacing, hview, hmemory⟩ := h.placed hobt hother
      have hrest := ih hplacing
      rw [show page + 1 + n = page + (n + 1) by omega] at hrest
      refine ⟨hrest.inv, hrest.memory.trans hmemory, fun k hk => ?_, hrest.outcome⟩
      have hkp : k ≠ ⟨p, page⟩ := fun he => hk (by rw [he])
      rw [hrest.content k hk, hview, Paging.Inv.content_install_ne _ hkp, hobt.content]

theorem Inv.opened (h : Inv N ∅ none s) {p : ProcessId} (ht : s.pageTables p = none) (k : ℕ) :
    Placing N p 0 k (s.setTable p (PageTable.ofCount k)) ∧
      (s.setTable p (PageTable.ofCount k)).view = s.view.openPages (pendingFrom p 0 k) := by
  have hzero : s.pageCount p = 0 := by simp [pageCount, ht]
  have hframe : ∀ v, s.frameOf p v = none := fun v => by simp [frameOf, ht]
  have hview :
      (s.setTable p (PageTable.ofCount k)).view = s.view.openPages (pendingFrom p 0 k) := by
    refine Paging.State.ext ?_ ?_ rfl rfl rfl rfl
    · ext ⟨q, v⟩
      change v < (s.setTable p (PageTable.ofCount k)).pageCount q ↔
        v < s.pageCount q ∨ q = p ∧ 0 ≤ v ∧ v < 0 + k
      rw [pageCount_setTable]
      by_cases hq : q = p
      · simp [hq, hzero]
      · simp [hq]
    · funext l
      obtain ⟨q, v⟩ := l
      change (s.setTable p (PageTable.ofCount k)).frameOf q v = s.frameOf q v
      rw [frameOf_setTable]
      by_cases hq : q = p
      · simp [hq, hframe]
      · simp [hq]
  have hfresh : ∀ l ∈ pendingFrom p 0 k, l ∉ s.view.live := by
    rintro ⟨q, v⟩ ⟨hq, -, -⟩ hl
    obtain rfl : q = p := hq
    have hl : v < s.pageCount q := hl
    omega
  refine ⟨⟨⟨?_, h.size, h.nodup, ?_⟩, by simp [pageCount_setTable], fun v => ?_⟩, hview⟩
  · have hpaging := h.paging.openPages hfresh
    rwa [Set.empty_union, ← hview] at hpaging
  · refine h.tracks.mono (mapped_subset_of_view fun l f hl => ?_)
    rw [hview] at hl
    exact hl
  · exact h.paging.swap_none_of_not_live (k := ⟨p, v⟩) (by simp [view, hzero])

theorem allocate_eq {p : ProcessId} {k : ℕ} (hk : k ≠ 0) (ht : s.pageTables p = none) :
    s.allocate p k = (s.setTable p (PageTable.ofCount k)).allocatePages p 0 k := by
  simp [allocate, hk, ht]

theorem allocate_spec (hP : P.Sound) (hN : N ≤ invalidFrame) (h : Inv N ∅ none s) (p : ProcessId)
    (k : ℕ) :
    (∃ e, s.allocate p k = (.error e, s)) ∨
      (k ≠ 0 ∧ s.pageTables p = none ∧ Allocated N s p k (s.allocate p k)) := by
  by_cases hk : k = 0
  · exact Or.inl ⟨.invalidAddress, by simp [allocate, hk]⟩
  cases ht : s.pageTables p with
  | some t => exact Or.inl ⟨.invalidPid, by simp [allocate, hk, ht]⟩
  | none =>
    right
    refine ⟨hk, rfl, ?_⟩
    obtain ⟨hplacing, hview⟩ := h.opened ht k
    have hall := allocatePages_spec hP hN hplacing
    rw [Nat.zero_add] at hall
    rw [allocate_eq hk ht]
    refine ⟨hall.inv, hall.memory, fun l hl => ?_, hall.outcome⟩
    rw [hall.content l hl, hview]
    rfl

theorem deallocate_spec (h : Inv N ∅ none s) (p : ProcessId) :
    (s.pageTables p = none ∧ s.deallocate p = (.error .invalidPid, s)) ∨
      ((s.deallocate p).1 = .ok () ∧ Inv N ∅ none (s.deallocate p).2 ∧
        (s.deallocate p).2.pageTables p = none ∧ (s.deallocate p).2.memory = s.memory ∧
        ∀ k, k.processId ≠ p → (s.deallocate p).2.view.content k = s.view.content k) := by
  unfold deallocate
  cases ht : s.pageTables p with
  | none => exact Or.inl ⟨rfl, rfl⟩
  | some t =>
    right
    obtain ⟨owners, free, heq, -, -, -⟩ := freeEntries_spec s t.entries
    obtain ⟨hinv, hcontent⟩ := h.released ht (fun _ => mem_filterMap_entries)
      (fun k => if k.processId = p then none else (s.freeEntries t.entries).swapSpace k)
      (fun k => by rw [heq])
    have hnone : {k : SwapKey | k ∈ (∅ : Set SwapKey) ∧ k.processId ≠ p} = ∅ := by
      ext k
      simp
    rw [hnone] at hinv
    refine ⟨rfl, hinv, by simp [setTable], ?_, hcontent⟩
    simp only [heq]
    rfl

theorem swapIn_spec (hP : P.Sound) (hN : N ≤ invalidFrame) (h : Inv N ∅ none s) (p : ProcessId)
    (v : ℕ) :
    Inv N ∅ none (s.swapIn p v).2 ∧ (s.swapIn p v).2.view.live = s.view.live ∧
      (∀ k, (s.swapIn p v).2.view.content k = s.view.content k) ∧
      ∀ g, (∀ k, (s.swapIn p v).2.view.frameOf k ≠ some g) →
        (s.swapIn p v).2.view.cell g = s.view.cell g := by
  unfold swapIn
  cases ht : s.pageTables p with
  | none => exact ⟨h, rfl, fun _ => rfl, fun _ _ => rfl⟩
  | some t =>
    cases he : t.getEntry v with
    | error e =>
      simp only [he]
      exact ⟨h, trivial, fun _ => trivial, fun _ _ => trivial⟩
    | ok entry =>
      obtain ⟨hlt, hframe⟩ := PageTable.frameAt_of_getEntry he
      by_cases hpres : entry.present = true
      · simp only [he, hpres, ↓reduceIte]
        exact ⟨h, trivial, fun _ => trivial, fun _ _ => trivial⟩
      simp only [he, hpres, Bool.false_eq_true, ↓reduceIte] at hframe ⊢
      rcases obtainFrameForSwapIn_spec hP hN h p t with ⟨σ, heq, hσ⟩ | ⟨f, s₁, heq, hne, hobt⟩
      · simp only [heq, ↓reduceIte]
        exact ⟨h.setPolicy hσ, rfl, fun _ => rfl, fun _ _ => rfl⟩
      simp only [heq, if_neg hne]
      -- the page is absent, so obtaining the frame does not move it and it has a swap entry
      have habsent : s.view.frameOf ⟨p, v⟩ = none := (frameOf_of_table ht v).trans hframe
      have hlive : (⟨p, v⟩ : SwapKey) ∈ s.view.live := by
        change v < s.pageCount p
        rwa [pageCount_of_table ht]
      have hsome : (s₁.swapSpace ⟨p, v⟩).isSome := by
        change (s₁.view.swap ⟨p, v⟩).isSome
        rw [(hobt.keeps (k := ⟨p, v⟩) (by simp [habsent])).2]
        exact (h.paging.swap_iff _).mpr ⟨hlive, habsent, Set.notMem_empty _⟩
      obtain ⟨b, hb⟩ := Option.isSome_iff_exists.mp hsome
      have hsize : f < s₁.memory.size := hobt.inv.size ▸ hobt.frame_lt
      have hrestore := view_restore hb hsize
      have hinv : Inv N (insert ⟨p, v⟩ ∅) (some (f, p)) (s₁.restore p v f) := by
        refine ⟨?_, ?_, ?_, ?_⟩
        · rw [hrestore]
          exact hobt.inv.paging.restore hsome
        · simp only [restore, hb, PhysicalMemory.size_write]
          exact hobt.inv.size
        · simp only [restore, hb]
          exact hobt.inv.nodup
        · simp only [restore, hb]
          exact hobt.inv.tracks
      obtain ⟨hinstalled, hview, -⟩ := hinv.installed (Set.mem_insert _ _)
      rw [Set.insert_sdiff_self_of_notMem (Set.notMem_empty _)] at hinstalled
      refine ⟨hinstalled, ?_, fun k => ?_, fun g hg => ?_⟩
      · rw [hview, hrestore]
        exact hobt.live
      · rw [hview, hrestore, Paging.Inv.content_restore_install hobt.inv.paging hsome,
          hobt.content]
      · have hgf : g ≠ f := by
          rintro rfl
          exact hg ⟨p, v⟩ (by rw [hview]; exact Function.update_self ..)
        rw [hview, hrestore]
        refine (Function.update_of_ne hgf ..).trans ?_
        change s₁.memory.cells[g]? = s.memory.cells[g]?
        rw [hobt.memory]

theorem swapOut_spec (h : Inv N ∅ none s) (p : ProcessId) (v : ℕ) :
    Inv N ∅ none (s.swapOut p v).2 ∧ (s.swapOut p v).2.view.live = s.view.live ∧
      (∀ k, (s.swapOut p v).2.view.content k = s.view.content k) ∧
      (s.swapOut p v).2.view.cell = s.view.cell := by
  unfold swapOut
  cases ht : s.pageTables p with
  | none => exact ⟨h, rfl, fun _ => rfl, rfl⟩
  | some t =>
    cases he : t.getEntry v with
    | error e =>
      simp only [he]
      exact ⟨h, trivial, fun _ => trivial, trivial⟩
    | ok entry =>
      obtain ⟨hlt, hframe⟩ := PageTable.frameAt_of_getEntry he
      by_cases hpres : entry.present = true
      swap
      · simp only [he, hpres, Bool.false_eq_true, ↓reduceIte]
        exact ⟨h, trivial, fun _ => trivial, trivial⟩
      simp only [he, hpres, ↓reduceIte] at hframe ⊢
      have hk : s.view.frameOf ⟨p, v⟩ = some entry.frameId := (frameOf_of_table ht v).trans hframe
      have hf : entry.frameId < s.memory.size := h.size ▸ h.paging.frame_mem hk
      obtain ⟨b, hcell, hread⟩ := PhysicalMemory.read_ok hf
      simp only [hread]
      have htable := view_setTable ht (PageTable.pageCount_unmap t v) (PageTable.frameAt_unmap hlt)
      have hview : (({ s with swapSpace := update s.swapSpace ⟨p, v⟩ (some b) } : Mmu P).setTable p
          (t.unmap v).2 |>.freeFrame entry.frameId).view = s.view.swapOut ⟨p, v⟩ entry.frameId := by
        refine Paging.State.ext ?_ ?_ ?_ rfl ?_ rfl
        · exact (congrArg Paging.State.live htable :)
        · exact (congrArg Paging.State.frameOf htable :)
        · change update s.swapSpace _ (some b) = update s.swapSpace _ s.memory.cells[entry.frameId]?
          rw [hcell]
        · ext g
          exact List.mem_insert_iff
      refine ⟨⟨?_, h.size, h.nodup.insert, ?_⟩, ?_, fun k => ?_, ?_⟩
      · rw [hview]
        exact h.paging.swapOut hk
      · refine h.tracks.mono (mapped_subset_of_view fun k g hg => ?_)
        rw [hview] at hg
        by_cases hkv : k = ⟨p, v⟩
        · simp [Paging.State.swapOut, hkv] at hg
        · simpa [Paging.State.swapOut, hkv] using hg
      · rw [hview]
        rfl
      · rw [hview]
        exact Paging.Inv.content_swapOut hk p k
      · rw [hview]
        rfl

theorem Inv.accessed (h : Inv N pend held s) {p : ProcessId} {t : PageTable} {v : ℕ}
    {f : FrameId} (ht : s.pageTables p = some t) (hf : t.frameAt v = some f) (t' : PageTable)
    (hc : t'.pageCount = t.pageCount) (hframe : ∀ w, t'.frameAt w = t.frameAt w) :
    Inv N pend held ((s.setTable p t').onAccess f) ∧
      ((s.setTable p t').onAccess f).view = s.view := by
  have hview : ((s.setTable p t').onAccess f).view = s.view := view_setTable_same ht hc hframe
  exact ⟨h.of_view_eq hview rfl rfl
    (h.tracks.onAccess ⟨p, v, (frameOf_of_table ht v).trans hf⟩), hview⟩

theorem read_spec (h : Inv N pend held s) (p : ProcessId) (v : ℕ) :
    Inv N pend held (s.read p v).2 ∧ (s.read p v).2.view = s.view ∧
      (∀ b, (s.read p v).1 = .ok b → s.view.content ⟨p, v⟩ = some b) ∧
      ((s.read p v).1.isOk ↔ (s.frameOf p v).isSome) := by
  unfold read
  cases ht : s.pageTables p with
  | none => exact ⟨h, rfl, by simp, by simp [frameOf, ht]⟩
  | some t =>
    simp only [PageTable.translate_eq, frameOf_of_table ht]
    cases hf : t.frameAt v with
    | none =>
      by_cases hv : v < t.pageCount
      · simp only [hv, ↓reduceIte]
        exact ⟨h, trivial, by simp, by simp⟩
      · simp only [hv, ↓reduceIte]
        exact ⟨h, trivial, by simp, by simp⟩
    | some f =>
      obtain ⟨hinv, hview⟩ := h.accessed ht hf _ (PageTable.pageCount_setReferenced t v true)
        (PageTable.frameAt_setReferenced t v true)
      have hk : s.view.frameOf ⟨p, v⟩ = some f := (frameOf_of_table ht v).trans hf
      obtain ⟨b, hcell, hread⟩ := PhysicalMemory.read_ok (h.size ▸ h.paging.frame_mem hk)
      refine ⟨hinv, hview, fun c hc => ?_, by simp [hread]⟩
      rw [Paging.State.content_of_frame hk]
      exact PhysicalMemory.read_ok_iff.mp hc

theorem Inv.stored (h : Inv N pend held s) {f : FrameId} (hf : f < N) (b : Block) :
    Inv N pend held { s with memory := (s.memory.write f b).2 } ∧
      ({ s with memory := (s.memory.write f b).2 } : Mmu P).view = s.view.store f b := by
  have hview : ({ s with memory := (s.memory.write f b).2 } : Mmu P).view = s.view.store f b := by
    refine Paging.State.ext rfl rfl rfl rfl rfl ?_
    funext g
    change (s.memory.write f b).2.cells[g]? = update s.view.cell f (some b) g
    by_cases hg : g = f
    · rw [hg, PhysicalMemory.cell_write_self b (h.size ▸ hf), Function.update_self]
    · rw [PhysicalMemory.cell_write_ne _ b hg, Function.update_of_ne hg]
      rfl
  refine ⟨⟨hview ▸ h.paging.store b, ?_, h.nodup, h.tracks⟩, hview⟩
  exact (PhysicalMemory.size_write ..).trans h.size

theorem write_spec (h : Inv N pend held s) (p : ProcessId) (v : ℕ) (b : Block) :
    (∃ e, s.write p v b = (.error e, s) ∧ s.frameOf p v = none) ∨
      ∃ f, s.view.frameOf ⟨p, v⟩ = some f ∧ (s.write p v b).1 = .ok () ∧
        Inv N pend held (s.write p v b).2 ∧ (s.write p v b).2.view = s.view.store f b := by
  unfold write
  cases ht : s.pageTables p with
  | none => exact Or.inl ⟨_, rfl, by simp [frameOf, ht]⟩
  | some t =>
    simp only [PageTable.translate_eq, frameOf_of_table ht]
    cases hf : t.frameAt v with
    | none =>
      left
      by_cases hv : v < t.pageCount
      · simp [hv]
      · simp [hv]
    | some f =>
      right
      have hk : s.view.frameOf ⟨p, v⟩ = some f := (frameOf_of_table ht v).trans hf
      have hlt : f < s.memory.size := h.size ▸ h.paging.frame_mem hk
      obtain ⟨hinv, hview⟩ := h.accessed ht hf
        ((t.setReferenced v true).2.setDirty v true).2 (by simp) (by simp)
      obtain ⟨hstored, hstore⟩ := hinv.stored (h.paging.frame_mem hk) b
      refine ⟨f, hk, ?_, hstored, hstore.trans (by rw [hview])⟩
      exact congrArg Prod.fst (PhysicalMemory.write_ok b hlt)

end Mmu
end Contur
