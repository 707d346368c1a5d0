import Contur.MmuRefinement

/-!
# Failed allocations

An allocation that runs out of memory gives back the frames it took and erases
the table it made. The pages of other processes that it evicted on the way stay
in the swap space. In the view the whole call is therefore a sequence of swap-outs:
what the rollback would leave at any moment is what the last eviction has swapped
out so far.
-/

namespace Contur
open Function (update)
open Transition

namespace Mmu
variable {P : ReplacementPolicy} {N : ℕ} {s s' : Mmu P}

theorem Obtained.closeProcess_install {pend : Set SwapKey} {p : ProcessId} {f : FrameId} {v : ℕ}
    {s₁ : Mmu P} (h : Inv N pend none s) (hobt : Obtained N pend s p f s₁)
    (hother : ∀ k, s.view.frameOf k = some f → k.processId ≠ p) :
    (s₁.view.install ⟨p, v⟩ f).closeProcess SwapKey.processId p =
        s.view.closeProcess SwapKey.processId p ∨
      ∃ l, (s.view.closeProcess SwapKey.processId p).frameOf l = some f ∧
        (s₁.view.install ⟨p, v⟩ f).closeProcess SwapKey.processId p =
          (s.view.closeProcess SwapKey.processId p).swapOut l f := by
  rw [Paging.Inv.closeProcess_install s₁.view f rfl]
  rcases hobt.moved with hview | ⟨l, hl, hview⟩
  · left
    rcases h.free_or_mapped hobt.frame_lt with hf | ⟨l, hl⟩
    · rw [hview]
      exact h.paging.closeProcess_take hf
    · have hheld := hobt.inv.paging.held_unmapped f p rfl l
      rw [hview] at hheld
      exact (hheld hl).elim
  · right
    have hlp : l.processId ≠ p := hother l hl
    refine ⟨l, ?_, ?_⟩
    · simpa [Paging.State.closeProcess, hlp] using hl
    · rw [hview]
      exact Paging.Inv.closeProcess_evict s.view f hlp

theorem allocatePages_swapsOut (hP : P.Sound) (hN : N ≤ invalidFrame) {p : ProcessId} {page n : ℕ}
    (h : Placing N p page n s) {e : ErrorCode} (he : (s.allocatePages p page n).1 = .error e) :
    Paging.SwapsOut (s.view.closeProcess SwapKey.processId p)
      (s.allocatePages p page n).2.view := by
  induction n generalizing s page with
  | zero => cases he
  | succ n ih =>
    obtain ⟨t, -, ⟨σ, -, hσ, hfail⟩ | ⟨f, s₁, -, -, hobt, hother, hnext⟩⟩ :=
      h.allocatePages_succ hP hN
    · have hroll := (rollback_spec (h.inv.setPolicy hσ) h.count (Nat.succ_pos n) h.swap).2.1
      rw [hfail, hroll]
      exact .refl _
    · obtain ⟨hplacing, hview, -⟩ := h.placed hobt hother
      rw [hnext] at he ⊢
      have hrest := ih hplacing he
      rw [hview] at hrest
      rcases hobt.closeProcess_install h.inv hother (v := page) with hsame | ⟨l, hl, hswapped⟩
      · rwa [hsame] at hrest
      · rw [hswapped] at hrest
        exact hrest.head hl

theorem allocate_swapsOut (hP : P.Sound) (hN : N ≤ invalidFrame) (h : Inv N ∅ none s)
    {p : ProcessId} {k : ℕ} (hk : k ≠ 0) (ht : s.pageTables p = none) {e : ErrorCode}
    (he : (s.allocate p k).1 = .error e) : Paging.SwapsOut s.view (s.allocate p k).2.view := by
  obtain ⟨hplacing, hview⟩ := h.opened ht k
  have hfresh : ∀ l ∈ s.view.live, l.processId ≠ p := by
    intro l hl hlp
    have hl : l.virtualPage < s.pageCount l.processId := hl
    simp [hlp, pageCount, ht] at hl
  rw [allocate_eq hk ht] at he ⊢
  have hswaps := allocatePages_swapsOut hP hN hplacing he
  rwa [hview, h.paging.closeProcess_openPages (fun l hl => hl.1) hfresh] at hswaps

theorem swapIn_of_free (hN : N ≤ invalidFrame) (h : Inv N ∅ none s) {p : ProcessId} {v : ℕ}
    (hv : v < s.pageCount p) {f : FrameId} (hf : f ∈ s.freeFrames) : (s.swapIn p v).1 = .ok () := by
  obtain ⟨t, ht⟩ := exists_table_of_pageCount (Nat.zero_lt_of_lt hv)
  rw [pageCount_of_table ht] at hv
  obtain ⟨entry, hentry⟩ := PageTable.getEntry_ok hv
  obtain ⟨g, s₁, heq, hg, -⟩ := obtained_of_free h (List.ne_nil_of_mem hf) p
  have hvalid : g ≠ invalidFrame := Nat.ne_of_lt (hg.trans_le hN)
  by_cases hpres : entry.present = true
  · simp [swapIn, ht, hentry, hpres]
  · simp [swapIn, ht, hentry, hpres, obtainFrameForSwapIn, heq, hvalid]

/-- Two states agree on the answer of a read that finds the page at the same place with the same
content. -/
theorem read_congr (h : Inv N ∅ none s) (h' : Inv N ∅ none s') {p : ProcessId} {v : ℕ}
    (hv : v < s.pageCount p) (hcontent : s'.content p v = s.content p v)
    (hframe : s'.frameOf p v = s.frameOf p v) : (s'.read p v).1 = (s.read p v).1 := by
  obtain ⟨b, hb⟩ := Option.isSome_iff_exists.mp ((h.content_isSome_iff p v).mpr hv)
  rw [read_eq h hb, read_eq h' (hcontent.trans hb), hframe]

theorem write_of_resident (h : Inv N ∅ none s) {p : ProcessId} {v : ℕ} {f : FrameId}
    (hf : s.frameOf p v = some f) (b : Block) : (s.write p v b).1 = .ok () := by
  rcases write_spec h p v b with ⟨e, -, hnone⟩ | ⟨g, -, hok, -⟩
  · rw [hf] at hnone
    cases hnone
  · exact hok

theorem length_freeFrames_eq_iff (h : Inv N ∅ none s) (h' : Inv N ∅ none s')
    (hkept : ∀ q v, s'.frameOf q v = s.frameOf q v ∨
      ∃ f, s.frameOf q v = some f ∧ s'.frameOf q v = none ∧ f ∈ s'.freeFrames)
    (hfree : ∀ f, f ∈ s'.freeFrames ↔
      f ∈ s.freeFrames ∨ ∃ q v, s.frameOf q v = some f ∧ s'.frameOf q v = none) :
    s'.freeFrames.length = s.freeFrames.length ↔ ∀ q v, s'.frameOf q v = s.frameOf q v := by
  have hsub : s.freeFrames ⊆ s'.freeFrames := fun f hf => (hfree f).mpr (Or.inl hf)
  constructor
  · intro hlen q v
    have hperm : s.freeFrames.Perm s'.freeFrames :=
      (List.subperm_of_subset h.nodup hsub).perm_of_length_le hlen.le
    refine (hkept q v).resolve_right ?_
    rintro ⟨f, hf, -, hmem⟩
    exact h.paging.frame_not_free (k := ⟨q, v⟩) hf (hperm.mem_iff.mpr hmem)
  · intro hsame
    have hperm : s'.freeFrames.Perm s.freeFrames := by
      rw [List.perm_ext_iff_of_nodup h'.nodup h.nodup]
      intro f
      refine (hfree f).trans (or_iff_left ?_)
      rintro ⟨q, v, hf, hnone⟩
      rw [hsame, hf] at hnone
      cases hnone
    exact hperm.length_eq

/-- A failed allocation either changes nothing, or it runs out of memory after it has swapped out
some pages of other processes. No content is lost: a page that was resident is still on its frame
and answers reads and writes as before, or its frame is free and the page can be swapped in. -/
theorem failed_allocate (kind : ReplacementKind) (memory : PhysicalMemory)
    (hN : memory.size ≤ invalidFrame) (order : ℕ → ℕ) (ops : List Op) (p : ProcessId) (k : ℕ)
    (e : ErrorCode) :
    let s := (machine kind.policy).run (init kind.policy memory order) ops
    let s' := (s.allocate p k).2
    (s.allocate p k).1 = .error e →
      s' = s ∨
      (e = .outOfMemory ∧ s.pageTables p = none ∧ s'.pageTables p = none ∧
        s'.memory = s.memory ∧
        (∀ q v, s'.pageCount q = s.pageCount q ∧ s'.content q v = s.content q v) ∧
        (∀ q v, s.frameOf q v = none → s'.frameOf q v = none) ∧
        (∀ q v f, s.frameOf q v = some f →
          (s'.frameOf q v = some f ∧ (s'.read q v).1 = (s.read q v).1 ∧
            ∀ b, (s'.write q v b).1 = (s.write q v b).1) ∨
          (s'.frameOf q v = none ∧ f ∈ s'.freeFrames ∧ (s'.swapIn q v).1 = .ok ())) ∧
        (∀ f, f ∈ s'.freeFrames ↔
          f ∈ s.freeFrames ∨ ∃ q v, s.frameOf q v = some f ∧ s'.frameOf q v = none) ∧
        (s'.freeFrames.length = s.freeFrames.length ↔ ∀ q v, s'.frameOf q v = s.frameOf q v)) := by
  intro s s' he
  have h : Inv memory.size ∅ none s := reachable_inv kind.sound memory hN order ops
  rcases allocate_spec kind.sound hN h p k with ⟨e', he'⟩ | ⟨hk, ht, hall⟩
  · exact Or.inl (congrArg Prod.snd he')
  right
  have hswaps : Paging.SwapsOut s.view s'.view := allocate_swapsOut kind.sound hN h hk ht he
  have hinv : Inv memory.size ∅ none s' := hall.inv
  obtain ⟨herr, htable⟩ := hall.outcome.resolve_left fun hok => by
    rw [hok.1] at he
    cases he
  have hcount := pageCount_eq_of_live hswaps.live_eq
  have hcontent : ∀ q v, s'.content q v = s.content q v := by
    intro q v
    rw [hinv.content_eq, h.content_eq]
    exact hswaps.content_eq p _
  have hkept : ∀ q v, s'.frameOf q v = s.frameOf q v ∨
      ∃ f, s.frameOf q v = some f ∧ s'.frameOf q v = none ∧ f ∈ s'.freeFrames :=
    fun q v => hswaps.frameOf_cases ⟨q, v⟩
  have hfree : ∀ f, f ∈ s'.freeFrames ↔
      f ∈ s.freeFrames ∨ ∃ q v, s.frameOf q v = some f ∧ s'.frameOf q v = none := by
    intro f
    refine (hswaps.mem_free_iff f).trans (or_congr_right ?_)
    exact ⟨fun ⟨l, hl⟩ => ⟨l.processId, l.virtualPage, hl⟩, fun ⟨q, v, hv⟩ => ⟨⟨q, v⟩, hv⟩⟩
  refine ⟨?_, ht, htable, hall.memory, fun q v => ⟨hcount q, hcontent q v⟩, ?_, ?_, hfree, ?_⟩
  · rw [he] at herr
    cases herr
    rfl
  · intro q v hnone
    rcases hkept q v with hsame | ⟨f, hf, -⟩
    · exact hsame.trans hnone
    · rw [hnone] at hf
      cases hf
  · intro q v f hf
    have hv : v < s.pageCount q := h.paging.frame_live ⟨q, v⟩ f hf
    rcases hkept q v with hsame | ⟨g, hg, hnone, hgfree⟩
    · left
      refine ⟨hsame.trans hf, read_congr h hinv hv (hcontent q v) hsame,
        fun b => ?_⟩
      rw [write_of_resident h hf, write_of_resident hinv (hsame.trans hf)]
    · right
      rw [hf] at hg
      cases hg
      exact ⟨hnone, hgfree, swapIn_of_free hN hinv (hcount q ▸ hv) hgfree⟩
  · exact length_freeFrames_eq_iff h hinv hkept hfree

theorem failed_allocate_swapped :
    let s := (machine fifoReplacement).run (init fifoReplacement (.ofSize 2) fun _ => 0)
      [.allocate 1 1]
    (s.allocate 2 3).1 = .error .outOfMemory ∧ (s.allocate 2 3).2.content 1 0 = s.content 1 0 ∧
      ((s.allocate 2 3).2.swapIn 1 0).1 = .ok () := by
  intro s
  rcases failed_allocate .fifo (.ofSize 2) (by decide) (fun _ => 0) [.allocate 1 1] 2 3
    .outOfMemory rfl with hsame | ⟨-, -, -, -, hcontent, -, hresident, -⟩
  · have hmoved : (s.allocate 2 3).2.frameOf 1 0 ≠ s.frameOf 1 0 := by decide
    exact (hmoved (congrArg (fun t => t.frameOf 1 0) hsame)).elim
  · refine ⟨rfl, (hcontent 1 0).2, ?_⟩
    rcases hresident 1 0 0 rfl with ⟨hkept, -⟩ | ⟨-, -, hswapIn⟩
    · cases hkept
    · exact hswapIn

/-- The same failed request leaves one more free frame, and the page that was readable before
raises a segmentation fault. -/
theorem failed_allocate_leaves_trace :
    let s := (machine fifoReplacement).run (init fifoReplacement (.ofSize 2) fun _ => 0)
      [.allocate 1 1]
    let s' := (s.allocate 2 3).2
    (s.allocate 2 3).1 = .error .outOfMemory ∧
      s.freeFrames.length = 1 ∧ s'.freeFrames.length = 2 ∧
      (s.read 1 0).1 = .ok {} ∧ (s'.read 1 0).1 = .error .segmentationFault := by
  decide

end Mmu
end Contur
