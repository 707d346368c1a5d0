import Contur.MmuInvariant

/-!
# The memory management unit as a map from pages to blocks

The results about whole runs. From a fresh unit, every sequence of operations
keeps frame ownership exact, and the logical content of the pages behaves as a
map: only a successful write changes it, and a successful read returns it. A page
that moves between its frame and the swap space keeps its content.
-/

namespace Contur
open Function (update)
open Transition

namespace Mmu
variable {P : ReplacementPolicy} {N : ℕ} {s s' : Mmu P}
variable {pend : Set SwapKey} {held : Option (FrameId × ProcessId)}

theorem Inv.content_eq (h : Inv N pend held s) (p : ProcessId) (v : ℕ) :
    s.content p v = s.view.content ⟨p, v⟩ := by
  by_cases hv : v < s.pageCount p
  · simp only [content, hv, ↓reduceIte]
    cases hf : s.frameOf p v with
    | none => exact (Paging.State.content_of_absent (s := s.view) (k := ⟨p, v⟩) hf).symm
    | some f => exact (Paging.State.content_of_frame (s := s.view) (k := ⟨p, v⟩) hf).symm
  · have hlive : (⟨p, v⟩ : SwapKey) ∉ s.view.live := hv
    have hframe : s.view.frameOf ⟨p, v⟩ = none := by
      by_contra hne
      obtain ⟨f, hf⟩ := Option.ne_none_iff_exists'.mp hne
      exact hlive (h.paging.frame_live _ f hf)
    rw [Paging.State.content_of_absent hframe, h.paging.swap_none_of_not_live hlive]
    simp [content, hv]

theorem Inv.content_isSome_iff (h : Inv N ∅ none s) (p : ProcessId) (v : ℕ) :
    (s.content p v).isSome ↔ v < s.pageCount p := by
  constructor
  · intro hsome
    by_contra hv
    simp [content, hv] at hsome
  · intro hv
    rw [h.content_eq]
    cases hf : s.view.frameOf ⟨p, v⟩ with
    | none =>
      rw [Paging.State.content_of_absent hf]
      exact (h.paging.swap_iff _).mpr ⟨hv, hf, Set.notMem_empty _⟩
    | some f =>
      rw [Paging.State.content_of_frame hf]
      exact h.paging.cell_isSome f (h.paging.frame_mem hf)

theorem exec_inv (hP : P.Sound) (hN : N ≤ invalidFrame) (op : Op) (h : Inv N ∅ none s) :
    Inv N ∅ none (s.exec op).2 := by
  cases op with
  | allocate p k =>
    rcases allocate_spec hP hN h p k with ⟨e, he⟩ | ⟨-, -, hall⟩
    · simpa only [exec, he] using h
    · exact hall.inv
  | deallocate p =>
    rcases deallocate_spec h p with ⟨-, he⟩ | ⟨-, hinv, -⟩
    · simpa only [exec, he] using h
    · exact hinv
  | read p v => exact (read_spec h p v).1
  | write p v b =>
    rcases write_spec h p v b with ⟨e, he, -⟩ | ⟨f, -, -, hinv, -⟩
    · simpa only [exec, he] using h
    · exact hinv
  | swapIn p v => exact (swapIn_spec hP hN h p v).1
  | swapOut p v => exact (swapOut_spec h p v).1

theorem run_inv (hP : P.Sound) (hN : N ≤ invalidFrame) (h : Inv N ∅ none s) (ops : List Op) :
    Inv N ∅ none ((machine P).run s ops) :=
  (machine P).run_invariant (fun _ op hs => exec_inv hP hN op hs) h ops

theorem reachable_inv (hP : P.Sound) (memory : PhysicalMemory) (hN : memory.size ≤ invalidFrame)
    (order : ℕ → ℕ) (ops : List Op) :
    Inv memory.size ∅ none ((machine P).run (init P memory order) ops) :=
  run_inv hP hN (inv_init P hN order) ops

theorem read_eq (h : Inv N ∅ none s) {p : ProcessId} {v : ℕ} {b : Block}
    (hb : s.content p v = some b) :
    (s.read p v).1 = if (s.frameOf p v).isSome then .ok b else .error .segmentationFault := by
  have hv : v < s.pageCount p := (h.content_isSome_iff p v).mp (by simp [hb])
  obtain ⟨-, -, hcontent, hok⟩ := read_spec h p v
  by_cases hf : (s.frameOf p v).isSome
  · obtain ⟨c, hc⟩ := Result.isOk_iff.mp (hok.mpr hf)
    have hcb := hcontent c hc
    rw [← h.content_eq, hb] at hcb
    cases hcb
    rw [hc, if_pos hf]
  · rw [if_neg hf]
    obtain ⟨t, ht⟩ := exists_table_of_pageCount (Nat.zero_lt_of_lt hv)
    rw [pageCount_of_table ht] at hv
    have hframe : t.frameAt v = none := by simpa [frameOf_of_table ht] using hf
    simp [read, ht, PageTable.translate_eq, hframe, hv]

theorem content_write (h : Inv N ∅ none s) {p : ProcessId} {v : ℕ} {b : Block}
    (hok : (s.write p v b).1 = .ok ()) :
    (s.write p v b).2.content p v = some b ∧
      ∀ q w, (q, w) ≠ (p, v) → (s.write p v b).2.content q w = s.content q w := by
  rcases write_spec h p v b with ⟨e, he, -⟩ | ⟨f, hf, -, hinv, hview⟩
  · simp [he] at hok
  · refine ⟨?_, fun q w hne => ?_⟩
    · rw [hinv.content_eq, hview]
      exact Paging.Inv.content_store_self hf b
    · have hkey : (⟨q, w⟩ : SwapKey) ≠ ⟨p, v⟩ := fun he => hne (by cases he; rfl)
      rw [hinv.content_eq, hview, Paging.Inv.content_store_ne h.paging hf b hkey, h.content_eq]

/-- An operation of a process changes the content of no other process, and of its own pages
only by a write or by giving all of them up. -/
theorem content_untouched (hP : P.Sound) (hN : N ≤ invalidFrame) (h : Inv N ∅ none s) {op : Op}
    {q : ProcessId} (htable : (s.pageTables q).isSome) {w : ℕ} (hwrite : ∀ b, op ≠ .write q w b)
    (hdealloc : op ≠ .deallocate q) : (s.exec op).2.content q w = s.content q w := by
  rw [(exec_inv hP hN op h).content_eq, h.content_eq]
  cases op with
  | allocate p k =>
    rcases allocate_spec hP hN h p k with ⟨e, he⟩ | ⟨-, hnone, hall⟩
    · simp only [exec, he]
    · refine hall.content ⟨q, w⟩ ?_
      rintro rfl
      simp [hnone] at htable
  | deallocate p =>
    rcases deallocate_spec h p with ⟨-, he⟩ | ⟨-, -, -, -, hcontent⟩
    · simp only [exec, he]
    · refine hcontent ⟨q, w⟩ ?_
      rintro rfl
      exact hdealloc rfl
  | read p v => rw [show (s.exec (.read p v)).2.view = s.view from (read_spec h p v).2.1]
  | write p v b =>
    rcases write_spec h p v b with ⟨e, he, -⟩ | ⟨f, hf, -, -, hview⟩
    · simp only [exec, he]
    · have hne : (⟨q, w⟩ : SwapKey) ≠ ⟨p, v⟩ := by
        rintro ⟨⟩
        exact hwrite b rfl
      rw [show (s.exec (.write p v b)).2.view = s.view.store f b from hview]
      exact Paging.Inv.content_store_ne h.paging hf b hne
  | swapIn p v => exact (swapIn_spec hP hN h p v).2.2.1 ⟨q, w⟩
  | swapOut p v => exact (swapOut_spec h p v).2.2.1 ⟨q, w⟩

/-- In every reachable state the pages form a map to blocks: each existing page has a content,
a successful write updates the map at one page, a successful read looks it up, and no other
call changes it for a process that keeps its page table. -/
theorem refines_page_map (hP : P.Sound) (memory : PhysicalMemory)
    (hN : memory.size ≤ invalidFrame) (order : ℕ → ℕ) (ops : List Op) :
    let s := (machine P).run (init P memory order) ops
    (∀ p v, (s.content p v).isSome ↔ v < s.pageCount p) ∧
    (∀ p v b, (s.write p v b).1 = .ok () →
      (s.write p v b).2.content p v = some b ∧
        ∀ q w, (q, w) ≠ (p, v) → (s.write p v b).2.content q w = s.content q w) ∧
    (∀ p v b, (s.read p v).1 = .ok b → s.content p v = some b) ∧
    ∀ op, (∀ p v b, op = .write p v b → (s.write p v b).1 ≠ .ok ()) →
      ∀ q, (s.pageTables q).isSome → (((machine P).next s op).pageTables q).isSome →
        ∀ w, ((machine P).next s op).content q w = s.content q w := by
  intro s
  have h : Inv memory.size ∅ none s := reachable_inv hP memory hN order ops
  refine ⟨h.content_isSome_iff, fun p v b hok => content_write h hok, fun p v b hok => ?_, ?_⟩
  · rw [h.content_eq]
    exact (read_spec h p v).2.2.1 b hok
  · intro op hop q hbefore hafter w
    by_cases hwrite : ∃ b, op = .write q w b
    · obtain ⟨b, rfl⟩ := hwrite
      rcases write_spec h q w b with ⟨e, he, -⟩ | ⟨f, -, hok, -⟩
      · simp only [Machine.next, machine, exec, he]
      · exact (hop q w b rfl hok).elim
    · refine content_untouched hP hN h hbefore (fun b hb => hwrite ⟨b, hb⟩) ?_
      rintro rfl
      rcases deallocate_spec h q with ⟨hnone, -⟩ | ⟨-, -, hnone, -⟩
      · simp [hnone] at hbefore
      · simp [Machine.next, machine, exec, hnone] at hafter

theorem refines_page_map_evicted :
    let s := (machine fifoReplacement).run (init fifoReplacement (.ofSize 1) (fun _ => 0))
      [.allocate 1 1, .write 1 0 { code := .add, reg := 3, operand := 7 }]
    ((machine fifoReplacement).next s (.allocate 2 1)).frameOf 1 0 = none ∧
      ((machine fifoReplacement).next s (.allocate 2 1)).content 1 0 = s.content 1 0 := by
  intro s
  have hmap := refines_page_map fifoReplacement_sound (.ofSize 1) (by decide) (fun _ => 0)
    [.allocate 1 1, .write 1 0 { code := .add, reg := 3, operand := 7 }]
  exact ⟨rfl, hmap.2.2.2 (.allocate 2 1) (fun _ _ _ h => by cases h) 1 rfl rfl 0⟩

theorem allocate_distinct (hP : P.Sound) (hN : N ≤ invalidFrame) (h : Inv N ∅ none s)
    {p : ProcessId} {k : ℕ} (hok : (s.allocate p k).1.isOk) :
    (s.allocate p k).2.pageCount p = k ∧ ∃ frame : Fin k → FrameId,
      Function.Injective frame ∧ ∀ v : Fin k, (s.allocate p k).2.frameOf p v = some (frame v) := by
  rcases allocate_spec hP hN h p k with ⟨e, he⟩ | ⟨-, -, hall⟩
  · simp [he] at hok
  rcases hall.outcome with ⟨-, hcount, hswap⟩ | ⟨herr, -⟩
  swap
  · simp [herr] at hok
  have hpaging := hall.inv.paging
  have hframe : ∀ v : Fin k, ∃ f, (s.allocate p k).2.frameOf p v = some f := by
    intro v
    by_contra hnone
    have habsent : (s.allocate p k).2.view.frameOf ⟨p, v⟩ = none :=
      Option.eq_none_iff_forall_ne_some.mpr fun f hf => hnone ⟨f, hf⟩
    have hlive : (⟨p, v⟩ : SwapKey) ∈ (s.allocate p k).2.view.live := by
      change (v : ℕ) < (s.allocate p k).2.pageCount p
      rw [hcount]
      exact v.isLt
    have hsome := (hpaging.swap_iff ⟨p, v⟩).mpr ⟨hlive, habsent, Set.notMem_empty _⟩
    rw [show (s.allocate p k).2.view.swap ⟨p, v⟩ = none from hswap v] at hsome
    cases hsome
  choose frame hframe using hframe
  refine ⟨hcount, frame, ?_, hframe⟩
  intro v w hvw
  have hkey := hpaging.frame_inj ⟨p, v⟩ ⟨p, w⟩ (frame v) (hframe v) (hvw ▸ hframe w)
  exact Fin.ext (congrArg SwapKey.virtualPage hkey)

theorem Inv.lt_iff (h : Inv N ∅ none s) (f : FrameId) :
    f < N ↔ (f ∈ s.freeFrames ∨ (s.frameOwners f).isSome) := by
  constructor
  · intro hf
    have hfree : f ∈ s.freeFrames ↔ s.frameOwners f = none := h.paging.free_iff f hf
    rw [hfree]
    cases s.frameOwners f <;> simp
  · rintro (hf | hf)
    · exact h.paging.free_mem f hf
    · obtain ⟨p, hp⟩ := Option.isSome_iff_exists.mp hf
      exact h.paging.owner_mem f p hp

theorem Inv.owner_iff (h : Inv N ∅ none s) (f : FrameId) (p : ProcessId) :
    s.frameOwners f = some p ↔ (s.pageTables p).isSome ∧
      ∃ v, s.frameOf p v = some f ∧ ∀ q w, s.frameOf q w = some f → (q, w) = (p, v) := by
  constructor
  · intro hp
    obtain ⟨⟨q, v⟩, rfl, hv⟩ : ∃ k, SwapKey.processId k = p ∧ s.view.frameOf k = some f := by
      simpa using (h.paging.owner_iff f p).mp hp
    obtain ⟨t, ht, -⟩ := exists_table_of_frameOf hv
    refine ⟨by simp [ht], v, hv, fun r w hw => ?_⟩
    have hkey := h.paging.frame_inj ⟨r, w⟩ ⟨q, v⟩ f hw hv
    simpa using hkey
  · rintro ⟨-, v, hv, -⟩
    exact h.paging.owner_of_frame (k := ⟨p, v⟩) hv

theorem Inv.present_xor_swapped (h : Inv N ∅ none s) {p : ProcessId} {t : PageTable}
    (ht : s.pageTables p = some t) {v : ℕ} (hv : v < t.pageCount) :
    Xor (t.frameAt v).isSome (s.swapSpace ⟨p, v⟩).isSome := by
  have hswap := h.paging.swap_iff ⟨p, v⟩
  have hlive : (⟨p, v⟩ : SwapKey) ∈ s.view.live := by
    change v < s.pageCount p
    rwa [pageCount_of_table ht]
  have hframe : s.view.frameOf ⟨p, v⟩ = t.frameAt v := frameOf_of_table ht v
  simp only [hlive, hframe, Set.mem_empty_iff_false, not_false_eq_true, and_true,
    true_and] at hswap
  rw [show s.swapSpace ⟨p, v⟩ = s.view.swap ⟨p, v⟩ from rfl, hswap]
  cases t.frameAt v <;> simp [Xor]

theorem Inv.table_of_swapped (h : Inv N ∅ none s) {p : ProcessId} {v : ℕ}
    (hsome : (s.swapSpace ⟨p, v⟩).isSome) :
    ∃ t, s.pageTables p = some t ∧ v < t.pageCount ∧ t.frameAt v = none := by
  obtain ⟨hlive, habsent, -⟩ := (h.paging.swap_iff ⟨p, v⟩).mp hsome
  have hlive : v < s.pageCount p := hlive
  obtain ⟨t, ht⟩ := exists_table_of_pageCount (Nat.zero_lt_of_lt hlive)
  refine ⟨t, ht, by rwa [pageCount_of_table ht] at hlive, ?_⟩
  exact (frameOf_of_table ht v).symm.trans habsent

/-- In every reachable state each frame is free or has one owner, which maps it exactly once; each
page is either resident or swapped out; and an allocation maps its pages to distinct frames. -/
theorem frame_ownership (hP : P.Sound) (memory : PhysicalMemory)
    (hN : memory.size ≤ invalidFrame) (order : ℕ → ℕ) (ops : List Op) :
    let s := (machine P).run (init P memory order) ops
    (∀ f, f < memory.size ↔ (f ∈ s.freeFrames ∨ (s.frameOwners f).isSome)) ∧
    (∀ f ∈ s.freeFrames, s.frameOwners f = none) ∧
    (∀ f p, s.frameOwners f = some p ↔ (s.pageTables p).isSome ∧
      ∃ v, s.frameOf p v = some f ∧ ∀ q w, s.frameOf q w = some f → (q, w) = (p, v)) ∧
    (∀ p t, s.pageTables p = some t → ∀ v < t.pageCount,
      Xor (t.frameAt v).isSome (s.swapSpace ⟨p, v⟩).isSome) ∧
    (∀ p v, (s.swapSpace ⟨p, v⟩).isSome →
      ∃ t, s.pageTables p = some t ∧ v < t.pageCount ∧ t.frameAt v = none) ∧
    ∀ p k, (s.allocate p k).1.isOk →
      (s.allocate p k).2.pageCount p = k ∧ ∃ frame : Fin k → FrameId,
        Function.Injective frame ∧
          ∀ v : Fin k, (s.allocate p k).2.frameOf p v = some (frame v) := by
  intro s
  have h : Inv memory.size ∅ none s := reachable_inv hP memory hN order ops
  refine ⟨h.lt_iff, fun f hf => ?_, h.owner_iff, fun p t ht v => h.present_xor_swapped ht,
    fun p v => h.table_of_swapped, fun p k => allocate_distinct hP hN h⟩
  exact (h.paging.free_iff f (h.paging.free_mem f hf)).mp hf

theorem frame_ownership_evicted :
    ∃ frame : Fin 1 → FrameId, Function.Injective frame ∧
      ∀ v : Fin 1, (((machine clockReplacement).run (init clockReplacement (.ofSize 2) (fun _ => 1))
        [.allocate 1 2]).allocate 2 1).2.frameOf 2 v = some (frame v) := by
  have hown := frame_ownership clockReplacement_sound (.ofSize 2) (by decide) (fun _ => 1)
    [.allocate 1 2]
  exact (hown.2.2.2.2.2 2 1 rfl).2

theorem allocateFrame_reserved (hfree : s.freeFrames = List.range (invalidFrame + 1))
    (horder : s.order 0 = invalidFrame) (p : ProcessId) :
    s.allocateFrame p = (invalidFrame, { s with
      freeFrames := s.freeFrames.erase invalidFrame
      frameOwners := update s.frameOwners invalidFrame (some p)
      order := fun n => s.order (n + 1) }) := by
  have hlen : s.freeFrames.length = invalidFrame + 1 := by rw [hfree, List.length_range]
  have hne : ¬ s.freeFrames.isEmpty = true := by
    rw [List.isEmpty_iff_length_eq_zero, hlen]
    exact Nat.succ_ne_zero _
  have hframe : s.freeFrames.getD (s.order 0 % s.freeFrames.length) invalidFrame =
      invalidFrame := by
    rw [horder, hlen, Nat.mod_eq_of_lt (Nat.lt_succ_self _), hfree, List.getD_eq_getElem?_getD,
      List.getElem?_range (Nat.lt_succ_self _), Option.getD_some]
  rw [allocateFrame, if_neg hne, hframe]

theorem obtainFrame_reserved (hfree : s.freeFrames = List.range (invalidFrame + 1))
    (horder : s.order 0 = invalidFrame) {p : ProcessId} {t : PageTable}
    (hvictim : (P.selectVictim s.replacementPolicy t).1 = invalidFrame) :
    ∃ s₁, s.obtainFrame p t = (invalidFrame, s₁) ∧ s₁.frameOwners invalidFrame = some p := by
  simp only [obtainFrame, allocateFrame_reserved hfree horder p, ↓reduceIte, selectVictim, hvictim,
    ne_eq, not_true_eq_false, false_and]
  exact ⟨_, rfl, by simp⟩

theorem allocate_reserved_eq (hfree : s.freeFrames = List.range (invalidFrame + 1))
    (horder : s.order 0 = invalidFrame) {p : ProcessId} (htable : s.pageTables p = none)
    (hvictim : (P.selectVictim s.replacementPolicy (PageTable.ofCount 1)).1 = invalidFrame) :
    ∃ s₁ : Mmu P, s.allocate p 1 = (.error .outOfMemory, s₁.rollback p 0) ∧
      s₁.frameOwners invalidFrame = some p := by
  have htable₁ : (s.setTable p (PageTable.ofCount 1)).pageTables p = some (PageTable.ofCount 1) :=
    Function.update_self ..
  obtain ⟨s₁, hobtain, howner⟩ :=
    obtainFrame_reserved (s := s.setTable p (PageTable.ofCount 1)) (p := p) hfree horder hvictim
  exact ⟨s₁, by simp [allocate, htable, allocatePages, htable₁, hobtain], howner⟩

theorem allocate_reserved (hfree : s.freeFrames = List.range (invalidFrame + 1))
    (horder : s.order 0 = invalidFrame) {p : ProcessId} (htable : s.pageTables p = none)
    (hvictim : (P.selectVictim s.replacementPolicy (PageTable.ofCount 1)).1 = invalidFrame) :
    (s.allocate p 1).1 = .error .outOfMemory := by
  obtain ⟨s₁, heq, -⟩ := allocate_reserved_eq hfree horder htable hvictim
  rw [heq]

theorem run_allocate_reserved (hfree : s.freeFrames = List.range (invalidFrame + 1))
    (horder : s.order 0 = invalidFrame) {p : ProcessId} (htable : s.pageTables p = none)
    (hvictim : (P.selectVictim s.replacementPolicy (PageTable.ofCount 1)).1 = invalidFrame) :
    ((machine P).run s [.allocate p 1]).frameOwners invalidFrame = some p ∧
      ((machine P).run s [.allocate p 1]).pageTables p = none := by
  obtain ⟨s₁, heq, howner⟩ := allocate_reserved_eq hfree horder htable hvictim
  have hrun : (machine P).run s [.allocate p 1] = s₁.rollback p 0 := by
    simp [machine, Machine.next, exec, heq]
  rw [hrun]
  simp only [rollback, List.take_zero, freeEntries]
  cases ht : s₁.pageTables p with
  | none => exact ⟨howner, ht⟩
  | some t => exact ⟨howner, Function.update_self ..⟩

theorem not_ownership_of_unbacked {f : FrameId} {p : ProcessId} (howner : s.frameOwners f = some p)
    (htable : s.pageTables p = none) :
    ¬ ∀ f p, s.frameOwners f = some p ↔ (s.pageTables p).isSome ∧
      ∃ v, s.frameOf p v = some f ∧ ∀ q w, s.frameOf q w = some f → (q, w) = (p, v) := by
  intro hown
  have hsome := ((hown f p).mp howner).1
  rw [htable] at hsome
  cases hsome

/-- One cell too many: the reserved number is a free frame. The allocation that receives it takes
it for a failure and leaves it with an owner that has no pages. -/
theorem frame_ownership_reserved :
    let s := (machine fifoReplacement).run
      (init fifoReplacement (.ofSize (invalidFrame + 1)) fun _ => invalidFrame) [.allocate 1 1]
    ¬ ∀ f p, s.frameOwners f = some p ↔ (s.pageTables p).isSome ∧
      ∃ v, s.frameOf p v = some f ∧ ∀ q w, s.frameOf q w = some f → (q, w) = (p, v) := by
  have hsize := PhysicalMemory.size_ofSize (invalidFrame + 1)
  have hfree := freeFrames_init fifoReplacement (hsize.trans_le (by simp [invalidFrame]))
    fun _ => invalidFrame
  rw [hsize] at hfree
  obtain ⟨howner, htable⟩ := run_allocate_reserved hfree rfl (p := 1) rfl rfl
  exact not_ownership_of_unbacked howner htable

end Mmu
end Contur
