import Contur.Mmu
import Contur.Paging

/-!
# The memory management unit as a pager

The unit is a pager over the pages `(process, virtual page)`. `view` forgets the
status bits, the order of the free frames and the policy; every step of the
source acts on the view as one operation of the abstract pager, so that the
invariant of the pager carries over. What the view forgets has its own clauses:
the size of the memory, the absence of duplicates among the free frames, and the
history of the replacement policy.
-/

namespace Contur
open Function (update)

namespace Mmu
variable {P : ReplacementPolicy} {N : ℕ} {s : Mmu P}
variable {pend : Set SwapKey} {held : Option (FrameId × ProcessId)}

def view (s : Mmu P) : Paging.State SwapKey FrameId ProcessId Block where
  live := {k | k.virtualPage < s.pageCount k.processId}
  frameOf k := s.frameOf k.processId k.virtualPage
  swap := s.swapSpace
  owner := s.frameOwners
  free := {f | f ∈ s.freeFrames}
  cell f := s.memory.cells[f]?

structure Inv (N : ℕ) (pend : Set SwapKey) (held : Option (FrameId × ProcessId)) (s : Mmu P) :
    Prop where
  paging : Paging.Inv SwapKey.processId {f | f < N} pend held s.view
  size : s.memory.size = N
  nodup : s.freeFrames.Nodup
  tracks : P.Tracks N s.mapped s.replacementPolicy

theorem pageCount_of_table {p : ProcessId} {t : PageTable} (h : s.pageTables p = some t) :
    s.pageCount p = t.pageCount := by
  simp [pageCount, h]

theorem frameOf_of_table {p : ProcessId} {t : PageTable} (h : s.pageTables p = some t) (v : ℕ) :
    s.frameOf p v = t.frameAt v := by
  simp [frameOf, h]

theorem exists_table_of_frameOf {p : ProcessId} {v : ℕ} {f : FrameId}
    (h : s.frameOf p v = some f) : ∃ t, s.pageTables p = some t ∧ t.frameAt v = some f := by
  simpa [frameOf, Option.bind_eq_some_iff] using h

theorem pageCount_setTable (s : Mmu P) (p : ProcessId) (t : Option PageTable) (q : ProcessId) :
    (s.setTable p t).pageCount q =
      if q = p then t.elim 0 PageTable.pageCount else s.pageCount q := by
  by_cases hq : q = p
  · simp [pageCount, setTable, hq]
  · simp [pageCount, setTable, hq]

theorem frameOf_setTable (s : Mmu P) (p : ProcessId) (t : Option PageTable) (q : ProcessId)
    (v : ℕ) : (s.setTable p t).frameOf q v =
      if q = p then t.bind (·.frameAt v) else s.frameOf q v := by
  by_cases hq : q = p
  · simp [frameOf, setTable, hq]
  · simp [frameOf, setTable, hq]

theorem view_setTable {p : ProcessId} {t t' : PageTable} (h : s.pageTables p = some t) {v : ℕ}
    {x : Option FrameId} (hc : t'.pageCount = t.pageCount)
    (hf : ∀ w, t'.frameAt w = if w = v then x else t.frameAt w) :
    (s.setTable p t').view = { s.view with frameOf := update s.view.frameOf ⟨p, v⟩ x } := by
  refine Paging.State.ext ?_ ?_ rfl rfl rfl rfl
  · ext l
    change l.virtualPage < (s.setTable p t').pageCount l.processId ↔
      l.virtualPage < s.pageCount l.processId
    rw [pageCount_setTable]
    split_ifs with hl
    · simp [hl, pageCount_of_table h, hc]
    · rfl
  · funext l
    change (s.setTable p t').frameOf l.processId l.virtualPage = update s.view.frameOf ⟨p, v⟩ x l
    rw [frameOf_setTable]
    by_cases hl : l = ⟨p, v⟩
    · subst l
      simp [hf]
    · rw [Function.update_of_ne hl]
      split_ifs with hp
      · have hv : l.virtualPage ≠ v := fun hv => hl (by cases l; simp_all)
        simp [hf, hv, view, hp, frameOf_of_table h]
      · rfl

theorem view_setTable_same {p : ProcessId} {t t' : PageTable} (h : s.pageTables p = some t)
    (hc : t'.pageCount = t.pageCount) (hf : ∀ v, t'.frameAt v = t.frameAt v) :
    (s.setTable p t').view = s.view := by
  have hsame : ∀ w, t'.frameAt w = if w = 0 then t.frameAt 0 else t.frameAt w := by
    intro w
    rw [hf]
    split_ifs with hw
    · rw [hw]
    · rfl
  have hv := view_setTable h hc hsame
  have h0 : update s.view.frameOf ⟨p, 0⟩ (t.frameAt 0) = s.view.frameOf := by
    rw [Function.update_eq_self_iff]
    exact (frameOf_of_table h 0).symm
  rw [hv, h0]

theorem mem_mapped_iff {f : FrameId} : f ∈ s.mapped ↔ ∃ k, s.view.frameOf k = some f :=
  ⟨fun ⟨p, v, h⟩ => ⟨⟨p, v⟩, h⟩, fun ⟨k, h⟩ => ⟨k.processId, k.virtualPage, h⟩⟩

theorem mapped_subset_of_view {s' : Mmu P}
    (h : ∀ k f, s'.view.frameOf k = some f → s.view.frameOf k = some f) : s'.mapped ⊆ s.mapped := by
  intro f hf
  obtain ⟨k, hk⟩ := mem_mapped_iff.mp hf
  exact mem_mapped_iff.mpr ⟨k, h k f hk⟩

theorem mapped_congr {s' : Mmu P} (h : s'.view = s.view) : s'.mapped = s.mapped := by
  ext f
  rw [mem_mapped_iff, mem_mapped_iff, h]

theorem allocateFrame_of_nil (h : s.freeFrames = []) (p : ProcessId) :
    s.allocateFrame p = (invalidFrame, s) := by
  simp [allocateFrame, h]

theorem allocateFrame_of_ne (h : s.freeFrames ≠ []) (p : ProcessId) :
    ∃ f ∈ s.freeFrames, s.allocateFrame p = (f, { s with
      freeFrames := s.freeFrames.erase f
      frameOwners := update s.frameOwners f (some p)
      order := fun n => s.order (n + 1) }) := by
  have hlt : s.order 0 % s.freeFrames.length < s.freeFrames.length :=
    Nat.mod_lt _ (List.length_pos_iff.mpr h)
  refine ⟨s.freeFrames.getD (s.order 0 % s.freeFrames.length) invalidFrame, ?_, ?_⟩
  · rw [List.getD_eq_getElem?_getD, List.getElem?_eq_getElem hlt]
    exact List.getElem_mem hlt
  · simp [allocateFrame, h]

theorem view_take (hn : s.freeFrames.Nodup) (f : FrameId) (p : ProcessId) (order : ℕ → ℕ) :
    ({ s with
      freeFrames := s.freeFrames.erase f
      frameOwners := update s.frameOwners f (some p)
      order := order } : Mmu P).view = s.view.take f p := by
  refine Paging.State.ext rfl rfl rfl rfl ?_ rfl
  ext g
  exact hn.mem_erase_iff.trans and_comm

theorem view_evict (h : Inv N pend none s) {k : SwapKey} {f : FrameId}
    (hk : s.view.frameOf k = some f) (p : ProcessId) :
    (s.evict f p).view = s.view.evict k f p := by
  obtain ⟨q, v⟩ := k
  have hlt : f < s.memory.size := h.size ▸ h.paging.frame_mem hk
  obtain ⟨b, hcell, hread⟩ := PhysicalMemory.read_ok hlt
  obtain ⟨t, ht, hframe⟩ := exists_table_of_frameOf hk
  obtain ⟨page, hpage⟩ := PageTable.exists_findPage hframe
  have hat := PageTable.frameAt_of_findPage hpage
  have hsame := h.paging.frame_inj ⟨q, v⟩ ⟨q, page⟩ f hk ((frameOf_of_table ht page).trans hat)
  obtain rfl : v = page := by simpa using hsame
  have howner : s.frameOwners f = some q := h.paging.owner_of_frame hk
  have hlive : v < t.pageCount := PageTable.frameAt_lt hat
  have hsave : s.evict f p = { s.setTable q (some (t.unmap v).2) with
      swapSpace := update s.swapSpace ⟨q, v⟩ (some b)
      frameOwners := update s.frameOwners f (some p) } := by
    simp only [evict, saveToSwap, howner, hread, ht, hpage, setTable]
  rw [hsave]
  have hview := view_setTable ht (PageTable.pageCount_unmap t v) (PageTable.frameAt_unmap hlive)
  refine Paging.State.ext ?_ ?_ ?_ rfl rfl rfl
  · exact (congrArg Paging.State.live hview :)
  · exact (congrArg Paging.State.frameOf hview :)
  · change update s.swapSpace _ (some b) = update s.swapSpace _ s.memory.cells[f]?
    rw [hcell]

theorem view_mapPage {p : ProcessId} {v : ℕ} (hv : v < s.pageCount p) (f : FrameId) :
    (s.mapPage p v f).view = s.view.install ⟨p, v⟩ f := by
  obtain ⟨t, ht⟩ : ∃ t, s.pageTables p = some t := by
    by_contra hnone
    have hnone : s.pageTables p = none :=
      Option.eq_none_iff_forall_ne_some.mpr (by simpa using hnone)
    simp [pageCount, hnone] at hv
  rw [pageCount_of_table ht] at hv
  simp only [mapPage, ht]
  exact view_setTable ht (PageTable.pageCount_map t v f) (PageTable.frameAt_map hv f)

theorem evict_rest (s : Mmu P) (f : FrameId) (p : ProcessId) :
    (s.evict f p).memory = s.memory ∧ (s.evict f p).freeFrames = s.freeFrames ∧
      (s.evict f p).replacementPolicy = s.replacementPolicy ∧
      (s.evict f p).frameOwners = update s.frameOwners f (some p) := by
  simp only [evict, saveToSwap]
  repeat' split
  all_goals exact ⟨rfl, rfl, rfl, rfl⟩

theorem mapPage_rest (s : Mmu P) (p : ProcessId) (v : ℕ) (f : FrameId) :
    (s.mapPage p v f).memory = s.memory ∧ (s.mapPage p v f).freeFrames = s.freeFrames ∧
      (s.mapPage p v f).replacementPolicy = s.replacementPolicy ∧
      (s.mapPage p v f).frameOwners = s.frameOwners := by
  unfold mapPage
  split <;> exact ⟨rfl, rfl, rfl, rfl⟩

theorem view_restore {p : ProcessId} {v : ℕ} {b : Block} {f : FrameId}
    (hb : s.swapSpace ⟨p, v⟩ = some b) (hf : f < s.memory.size) :
    (s.restore p v f).view = s.view.restore ⟨p, v⟩ f := by
  simp only [restore, hb]
  refine Paging.State.ext rfl rfl rfl rfl rfl ?_
  funext g
  change (s.memory.write f b).2.cells[g]? = update s.view.cell f (s.swapSpace ⟨p, v⟩) g
  by_cases hg : g = f
  · rw [hg, PhysicalMemory.cell_write_self b hf, Function.update_self, hb]
  · rw [PhysicalMemory.cell_write_ne _ b hg, Function.update_of_ne hg]
    rfl

theorem freeEntries_spec (s : Mmu P) (es : List PageTableEntry) :
    ∃ owners free, s.freeEntries es = { s with frameOwners := owners, freeFrames := free } ∧
      (∀ g, owners g = if g ∈ es.filterMap PageTableEntry.mappedFrame then none
        else s.frameOwners g) ∧
      (∀ g, g ∈ free ↔ g ∈ s.freeFrames ∨ g ∈ es.filterMap PageTableEntry.mappedFrame) ∧
      (s.freeFrames.Nodup → free.Nodup) := by
  induction es generalizing s with
  | nil => exact ⟨s.frameOwners, s.freeFrames, rfl, by simp, by simp, id⟩
  | cons e es ih =>
    by_cases hp : e.present = true
    · have hframe : e.mappedFrame = some e.frameId := by simp [PageTableEntry.mappedFrame, hp]
      obtain ⟨owners, free, heq, howners, hfree, hnodup⟩ := ih (s.freeFrame e.frameId)
      refine ⟨owners, free, ?_, ?_, ?_, fun hn => hnodup hn.insert⟩
      · rw [freeEntries, if_pos hp]
        exact heq
      · intro g
        rw [howners, List.filterMap_cons_some hframe]
        by_cases hg : g = e.frameId
        · simp [hg, freeFrame]
        · simp [hg, freeFrame]
      · intro g
        rw [hfree, List.filterMap_cons_some hframe]
        simp only [freeFrame, List.mem_insert_iff, List.mem_cons]
        tauto
    · have hframe : e.mappedFrame = none := by simp [PageTableEntry.mappedFrame, hp]
      rw [List.filterMap_cons_none hframe]
      simpa [freeEntries, hp] using ih s

theorem mem_filterMap_entries {t : PageTable} {f : FrameId} :
    f ∈ t.entries.filterMap PageTableEntry.mappedFrame ↔ ∃ v, t.frameAt v = some f :=
  PageTable.mem_frames

/-- A process whose frames are freed, whose swap entries are cleared and whose table is erased
disappears from the view. -/
theorem view_release (h : Inv N pend none s) {p : ProcessId} {t : PageTable}
    (ht : s.pageTables p = some t) {es : List PageTableEntry}
    (hes : ∀ f, f ∈ es.filterMap PageTableEntry.mappedFrame ↔ ∃ v, t.frameAt v = some f)
    {swap : SwapKey → Option Block}
    (hswap : ∀ k, swap k = if k.processId = p then none else s.swapSpace k) :
    (({ s.freeEntries es with swapSpace := swap } : Mmu P).setTable p none).view =
      s.view.closeProcess SwapKey.processId p := by
  obtain ⟨owners, free, heq, howners, hfree, _⟩ := freeEntries_spec s es
  have hmem : ∀ f, f ∈ es.filterMap PageTableEntry.mappedFrame ↔ s.frameOwners f = some p := by
    intro f
    rw [hes, show s.frameOwners f = some p ↔ _ from h.paging.owner_iff f p]
    simp only [reduceCtorEq, or_false]
    constructor
    · rintro ⟨v, hv⟩
      exact ⟨⟨p, v⟩, rfl, (frameOf_of_table ht v).trans hv⟩
    · rintro ⟨⟨q, v⟩, rfl, hv⟩
      exact ⟨v, (frameOf_of_table ht v).symm.trans hv⟩
  rw [heq]
  refine Paging.State.ext ?_ ?_ ?_ ?_ ?_ rfl
  · ext l
    change l.virtualPage < (s.setTable p none).pageCount l.processId ↔ _
    rw [pageCount_setTable]
    split_ifs with hl
    · simp [Paging.State.closeProcess, hl]
    · simp [Paging.State.closeProcess, hl, view]
  · funext l
    change (s.setTable p none).frameOf l.processId l.virtualPage = _
    rw [frameOf_setTable]
    split_ifs with hl
    · simp [Paging.State.closeProcess, hl]
    · simp [Paging.State.closeProcess, hl, view]
  · exact funext hswap
  · funext f
    change owners f = if s.frameOwners f = some p then none else s.frameOwners f
    simp only [howners, hmem]
  · ext f
    change f ∈ free ↔ f ∈ s.freeFrames ∨ s.frameOwners f = some p
    rw [hfree, hmem]

end Mmu
end Contur
