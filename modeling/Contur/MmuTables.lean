import Contur.MmuView

/-!
# Which processes have a page table, and of what size

Page tables are created by `allocate` and erased by `deallocate` or by the
rollback of a failed `allocate`. Everything else, eviction included, replaces a
table by one with the same number of pages. No invariant is needed for this.
-/

namespace Contur
open Function (update)

namespace Mmu
variable {P : ReplacementPolicy} {s : Mmu P}

def tableSize (s : Mmu P) (p : ProcessId) : Option ℕ := (s.pageTables p).map PageTable.pageCount

theorem tableSize_of_table {p : ProcessId} {t : PageTable} (h : s.pageTables p = some t) :
    s.tableSize p = some t.pageCount := by
  simp [tableSize, h]

theorem tableSize_eq_none {p : ProcessId} : s.tableSize p = none ↔ s.pageTables p = none := by
  simp [tableSize]

theorem isSome_tableSize (s : Mmu P) (p : ProcessId) :
    (s.tableSize p).isSome = (s.pageTables p).isSome := by
  simp [tableSize]

theorem pageCount_eq_tableSize (s : Mmu P) (p : ProcessId) :
    s.pageCount p = (s.tableSize p).getD 0 := by
  cases h : s.pageTables p <;> simp [pageCount, tableSize, h]

theorem tableSize_setTable (s : Mmu P) (p : ProcessId) (t : Option PageTable) :
    (s.setTable p t).tableSize = update s.tableSize p (t.map PageTable.pageCount) := by
  funext q
  by_cases hq : q = p
  · simp [tableSize, setTable, hq]
  · simp [tableSize, setTable, hq]

theorem tableSize_replace {p : ProcessId} {t t' : PageTable} (h : s.pageTables p = some t)
    (hc : t'.pageCount = t.pageCount) : (s.setTable p t').tableSize = s.tableSize := by
  rw [tableSize_setTable, Function.update_eq_self_iff, tableSize_of_table h, Option.map_some, hc]

@[simp] theorem tableSize_onLoad (s : Mmu P) (f : FrameId) :
    (s.onLoad f).tableSize = s.tableSize := rfl

@[simp] theorem tableSize_allocateFrame (s : Mmu P) (p : ProcessId) :
    (s.allocateFrame p).2.tableSize = s.tableSize := by
  unfold allocateFrame
  split_ifs <;> rfl

@[simp] theorem tableSize_saveToSwap (s : Mmu P) (f : FrameId) :
    (s.saveToSwap f).tableSize = s.tableSize := by
  unfold saveToSwap
  split
  · rfl
  · split
    · next ht =>
      split
      · rfl
      · exact tableSize_replace ht (PageTable.pageCount_unmap ..)
    · rfl

@[simp] theorem tableSize_evict (s : Mmu P) (f : FrameId) (p : ProcessId) :
    (s.evict f p).tableSize = s.tableSize :=
  tableSize_saveToSwap s f

@[simp] theorem tableSize_obtainFrame (s : Mmu P) (p : ProcessId) (t : PageTable) :
    (s.obtainFrame p t).2.tableSize = s.tableSize := by
  simp only [obtainFrame]
  split_ifs
  · exact tableSize_allocateFrame s p
  · exact tableSize_allocateFrame s p
  · exact (tableSize_evict ..).trans (tableSize_allocateFrame s p)
  · exact tableSize_allocateFrame s p

@[simp] theorem tableSize_obtainFrameForSwapIn (s : Mmu P) (p : ProcessId) (t : PageTable) :
    (s.obtainFrameForSwapIn p t).2.tableSize = s.tableSize := by
  simp only [obtainFrameForSwapIn]
  split_ifs
  · exact tableSize_allocateFrame s p
  · exact (tableSize_evict ..).trans (tableSize_allocateFrame s p)
  · exact tableSize_allocateFrame s p

@[simp] theorem tableSize_mapPage (s : Mmu P) (p : ProcessId) (v : ℕ) (f : FrameId) :
    (s.mapPage p v f).tableSize = s.tableSize := by
  unfold mapPage
  split
  · rfl
  · next ht => exact tableSize_replace ht (PageTable.pageCount_map ..)

@[simp] theorem tableSize_freeEntries (s : Mmu P) (es : List PageTableEntry) :
    (s.freeEntries es).tableSize = s.tableSize := by
  obtain ⟨owners, free, heq, -⟩ := freeEntries_spec s es
  rw [heq]
  rfl

@[simp] theorem tableSize_restore (s : Mmu P) (p : ProcessId) (v : ℕ) (f : FrameId) :
    (s.restore p v f).tableSize = s.tableSize := by
  unfold restore
  split <;> rfl

theorem tableSize_rollback (s : Mmu P) (p : ProcessId) (page : ℕ) :
    (s.rollback p page).tableSize = update s.tableSize p none := by
  unfold rollback
  split
  · next ht => rw [eq_comm, Function.update_eq_self_iff, tableSize_eq_none.mpr ht]
  · rw [tableSize_setTable, tableSize_freeEntries, Option.map_none]

theorem tableSize_allocatePages (s : Mmu P) (p : ProcessId) (page n : ℕ) :
    (s.allocatePages p page n).2.tableSize =
      if (s.allocatePages p page n).1.isOk then s.tableSize else update s.tableSize p none := by
  induction n generalizing s page with
  | zero => rfl
  | succ n ih =>
    cases ht : s.pageTables p with
    | none => simp [allocatePages, ht]
    | some t =>
      by_cases hf : (s.obtainFrame p t).1 = invalidFrame
      · simp only [allocatePages, ht, hf, ↓reduceIte, Result.isOk_error, Bool.false_eq_true]
        rw [tableSize_rollback, tableSize_obtainFrame]
      · simp only [allocatePages, ht, hf, ↓reduceIte, ih, tableSize_onLoad, tableSize_mapPage,
          tableSize_obtainFrame]

theorem tableSize_allocate (s : Mmu P) (p : ProcessId) (k : ℕ) :
    (s.allocate p k).2.tableSize =
      if (s.allocate p k).1.isOk then update s.tableSize p (some k) else s.tableSize := by
  unfold allocate
  by_cases hk : k = 0
  · simp [hk]
  rw [if_neg hk]
  split
  · rfl
  · next ht =>
    have hopen :
        (s.setTable p (PageTable.ofCount k)).tableSize = update s.tableSize p (some k) := by
      simp [tableSize_setTable]
    rw [tableSize_allocatePages, hopen, Function.update_idem]
    congr 1
    rw [Function.update_eq_self_iff, tableSize_eq_none.mpr ht]

theorem tableSize_deallocate (s : Mmu P) (p : ProcessId) :
    (s.deallocate p).2.tableSize = update s.tableSize p none ∧
      ((s.deallocate p).1 = .ok () ↔ (s.pageTables p).isSome) := by
  unfold deallocate
  split
  · next ht =>
    refine ⟨?_, by simp [ht]⟩
    rw [eq_comm, Function.update_eq_self_iff, tableSize_eq_none.mpr ht]
  · next t ht =>
    refine ⟨?_, by simp [ht]⟩
    rw [tableSize_setTable, Option.map_none]
    exact congrArg (update · p none) (tableSize_freeEntries s t.entries)

@[simp] theorem tableSize_read (s : Mmu P) (p : ProcessId) (v : ℕ) :
    (s.read p v).2.tableSize = s.tableSize := by
  unfold read
  split
  · rfl
  · next ht =>
    split
    · rfl
    · exact tableSize_replace ht (PageTable.pageCount_setReferenced ..)

@[simp] theorem tableSize_write (s : Mmu P) (p : ProcessId) (v : ℕ) (b : Block) :
    (s.write p v b).2.tableSize = s.tableSize := by
  unfold write
  split
  · rfl
  · next ht =>
    split
    · rfl
    · exact tableSize_replace ht (by simp)

@[simp] theorem tableSize_swapIn (s : Mmu P) (p : ProcessId) (v : ℕ) :
    (s.swapIn p v).2.tableSize = s.tableSize := by
  unfold swapIn
  split
  · rfl
  · next t ht =>
    split
    · rfl
    · dsimp only
      split_ifs
      · rfl
      · exact tableSize_obtainFrameForSwapIn s p t
      · rw [tableSize_onLoad, tableSize_mapPage, tableSize_restore, tableSize_obtainFrameForSwapIn]

@[simp] theorem tableSize_swapOut (s : Mmu P) (p : ProcessId) (v : ℕ) :
    (s.swapOut p v).2.tableSize = s.tableSize := by
  unfold swapOut
  split
  · rfl
  · next t ht =>
    split
    · rfl
    · next entry he =>
      dsimp only
      split_ifs
      · cases s.memory.read entry.frameId with
        | ok b => exact tableSize_replace (s := s) ht (PageTable.pageCount_unmap ..)
        | error e => exact tableSize_replace (s := s) ht (PageTable.pageCount_unmap ..)
      · rfl

def Op.processId : Op → ProcessId
  | .allocate p _ | .deallocate p | .read p _ | .write p _ _ | .swapIn p _ | .swapOut p _ => p

theorem tableSize_exec_of_ne (s : Mmu P) {op : Op} {q : ProcessId} (hq : q ≠ op.processId) :
    (s.exec op).2.tableSize q = s.tableSize q := by
  cases op with
  | allocate p k =>
    simp only [exec, tableSize_allocate]
    split_ifs
    · exact Function.update_of_ne hq ..
    · rfl
  | deallocate p =>
    simp only [exec, (tableSize_deallocate s p).1]
    exact Function.update_of_ne hq ..
  | read p v => simp [exec]
  | write p v b => simp [exec]
  | swapIn p v => simp [exec]
  | swapOut p v => simp [exec]

end Mmu
end Contur
