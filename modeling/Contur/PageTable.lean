import Contur.Types

/-!
# Page tables

A page table is a vector of entries, one for each virtual page. `frameAt` is the
view the proofs use: the frame of a page that is present. All that the memory
management unit needs to know of an update is how it moves `frameAt`.
-/

namespace Contur

structure PageTableEntry where
  frameId : FrameId := invalidFrame
  present : Bool := false
  dirty : Bool := false
  referenced : Bool := false
  deriving DecidableEq, Repr, Inhabited

structure PageTable where
  entries : List PageTableEntry
  deriving DecidableEq, Repr

def PageTableEntry.mappedFrame (entry : PageTableEntry) : Option FrameId :=
  if entry.present then some entry.frameId else none

namespace PageTable

def ofCount (pageCount : ℕ) : PageTable := ⟨List.replicate pageCount {}⟩

def pageCount (t : PageTable) : ℕ := t.entries.length

def map (t : PageTable) (virtualPage : ℕ) (frame : FrameId) : Result Unit × PageTable :=
  if virtualPage < t.pageCount then
    (.ok (), ⟨t.entries.set virtualPage
      { frameId := frame, present := true, dirty := false, referenced := true }⟩)
  else (.error .invalidAddress, t)

def unmap (t : PageTable) (virtualPage : ℕ) : Result Unit × PageTable :=
  if virtualPage < t.pageCount then (.ok (), ⟨t.entries.set virtualPage {}⟩)
  else (.error .invalidAddress, t)

def translate (t : PageTable) (virtualPage : ℕ) : Result FrameId :=
  match t.entries[virtualPage]? with
  | none => .error .invalidAddress
  | some entry => if entry.present then .ok entry.frameId else .error .segmentationFault

def getEntry (t : PageTable) (virtualPage : ℕ) : Result PageTableEntry :=
  match t.entries[virtualPage]? with
  | none => .error .invalidAddress
  | some entry => .ok entry

def setReferenced (t : PageTable) (virtualPage : ℕ) (value : Bool) : Result Unit × PageTable :=
  match t.entries[virtualPage]? with
  | none => (.error .invalidAddress, t)
  | some entry => (.ok (), ⟨t.entries.set virtualPage { entry with referenced := value }⟩)

def setDirty (t : PageTable) (virtualPage : ℕ) (value : Bool) : Result Unit × PageTable :=
  match t.entries[virtualPage]? with
  | none => (.error .invalidAddress, t)
  | some entry => (.ok (), ⟨t.entries.set virtualPage { entry with dirty := value }⟩)

def findPage (t : PageTable) (frame : FrameId) : Option ℕ :=
  t.entries.findIdx? (fun entry => entry.present && entry.frameId == frame)

def frameAt (t : PageTable) (virtualPage : ℕ) : Option FrameId :=
  t.entries[virtualPage]?.bind PageTableEntry.mappedFrame

@[simp] theorem pageCount_ofCount (n : ℕ) : (ofCount n).pageCount = n := by
  simp [ofCount, pageCount]

@[simp] theorem frameAt_ofCount (n v : ℕ) : (ofCount n).frameAt v = none := by
  simp only [frameAt, ofCount, List.getElem?_replicate]
  split_ifs <;> rfl

theorem frameAt_lt {t : PageTable} {v : ℕ} {f : FrameId} (h : t.frameAt v = some f) :
    v < t.pageCount := by
  by_contra hv
  simp [frameAt, List.getElem?_eq_none (Nat.not_lt.mp hv)] at h

theorem frameAt_set (t : PageTable) {v : ℕ} (hv : v < t.pageCount) (e : PageTableEntry) (w : ℕ) :
    (⟨t.entries.set v e⟩ : PageTable).frameAt w =
      if w = v then PageTableEntry.mappedFrame e else t.frameAt w := by
  by_cases hw : w = v
  · subst w
    rw [if_pos rfl, frameAt, List.getElem?_set_self hv, Option.bind_some]
  · rw [if_neg hw, frameAt, List.getElem?_set_ne (Ne.symm hw), frameAt]

@[simp] theorem pageCount_map (t : PageTable) (v : ℕ) (f : FrameId) :
    (t.map v f).2.pageCount = t.pageCount := by
  unfold map
  split_ifs <;> simp [pageCount]

@[simp] theorem pageCount_unmap (t : PageTable) (v : ℕ) :
    (t.unmap v).2.pageCount = t.pageCount := by
  unfold unmap
  split_ifs <;> simp [pageCount]

@[simp] theorem pageCount_setReferenced (t : PageTable) (v : ℕ) (b : Bool) :
    (t.setReferenced v b).2.pageCount = t.pageCount := by
  unfold setReferenced
  split <;> simp [pageCount]

@[simp] theorem pageCount_setDirty (t : PageTable) (v : ℕ) (b : Bool) :
    (t.setDirty v b).2.pageCount = t.pageCount := by
  unfold setDirty
  split <;> simp [pageCount]

theorem frameAt_map {t : PageTable} {v : ℕ} (hv : v < t.pageCount) (f : FrameId) (w : ℕ) :
    (t.map v f).2.frameAt w = if w = v then some f else t.frameAt w := by
  simp only [map, if_pos hv]
  exact frameAt_set t hv _ w

theorem frameAt_unmap {t : PageTable} {v : ℕ} (hv : v < t.pageCount) (w : ℕ) :
    (t.unmap v).2.frameAt w = if w = v then none else t.frameAt w := by
  simp only [unmap, if_pos hv]
  exact frameAt_set t hv _ w

theorem frameAt_replace {t : PageTable} {v : ℕ} {e : PageTableEntry} (e' : PageTableEntry)
    (he : t.entries[v]? = some e) (hp : e'.present = e.present) (hf : e'.frameId = e.frameId)
    (w : ℕ) : (⟨t.entries.set v e'⟩ : PageTable).frameAt w = t.frameAt w := by
  have hv : v < t.pageCount := (List.getElem?_eq_some_iff.mp he).1
  rw [frameAt_set t hv]
  split_ifs with hw
  · subst w
    simp [frameAt, he, PageTableEntry.mappedFrame, hp, hf]
  · rfl

@[simp] theorem frameAt_setReferenced (t : PageTable) (v : ℕ) (b : Bool) (w : ℕ) :
    (t.setReferenced v b).2.frameAt w = t.frameAt w := by
  unfold setReferenced
  split
  · rfl
  · next e he => exact frameAt_replace { e with referenced := b } he rfl rfl w

@[simp] theorem frameAt_setDirty (t : PageTable) (v : ℕ) (b : Bool) (w : ℕ) :
    (t.setDirty v b).2.frameAt w = t.frameAt w := by
  unfold setDirty
  split
  · rfl
  · next e he => exact frameAt_replace { e with dirty := b } he rfl rfl w

theorem translate_eq (t : PageTable) (v : ℕ) :
    t.translate v = match t.frameAt v with
      | some f => .ok f
      | none => if v < t.pageCount then .error .segmentationFault else .error .invalidAddress := by
  unfold translate frameAt
  cases he : t.entries[v]? with
  | none =>
    have hv : ¬ v < t.pageCount := Nat.not_lt.mpr (List.getElem?_eq_none_iff.mp he)
    simp [hv]
  | some e =>
    have hv : v < t.pageCount := (List.getElem?_eq_some_iff.mp he).1
    cases hp : e.present <;> simp [PageTableEntry.mappedFrame, hp, hv]

theorem getEntry_ok {t : PageTable} {v : ℕ} (h : v < t.pageCount) : ∃ e, t.getEntry v = .ok e := by
  have hlt : v < t.entries.length := h
  exact ⟨t.entries[v], by simp [getEntry, hlt]⟩

theorem frameAt_of_getEntry {t : PageTable} {v : ℕ} {e : PageTableEntry}
    (h : t.getEntry v = .ok e) :
    v < t.pageCount ∧ t.frameAt v = if e.present then some e.frameId else none := by
  unfold getEntry at h
  split at h
  · cases h
  · next e' he =>
    obtain rfl : e' = e := by simpa using h
    exact ⟨(List.getElem?_eq_some_iff.mp he).1, by simp [frameAt, he, PageTableEntry.mappedFrame]⟩

theorem frameAt_of_findPage {t : PageTable} {f : FrameId} {v : ℕ} (h : t.findPage f = some v) :
    t.frameAt v = some f := by
  obtain ⟨hv, hp, _⟩ := List.findIdx?_eq_some_iff_getElem.mp h
  obtain ⟨hpresent, hframe⟩ : (t.entries[v]).present = true ∧ (t.entries[v]).frameId = f := by
    simpa using hp
  simp [frameAt, hv, PageTableEntry.mappedFrame, hpresent, hframe]

theorem exists_findPage {t : PageTable} {f : FrameId} {v : ℕ} (h : t.frameAt v = some f) :
    ∃ w, t.findPage f = some w := by
  have hv := frameAt_lt h
  apply Option.isSome_iff_exists.mp
  rw [findPage, List.findIdx?_isSome, List.any_eq_true]
  refine ⟨t.entries[v], List.getElem_mem hv, ?_⟩
  simp only [frameAt, List.getElem?_eq_getElem hv, Option.bind_some, PageTableEntry.mappedFrame]
    at h
  split_ifs at h with hp
  simpa [hp] using h

def frames (t : PageTable) : List FrameId := t.entries.filterMap PageTableEntry.mappedFrame

theorem mem_frames {t : PageTable} {f : FrameId} : f ∈ t.frames ↔ ∃ v, t.frameAt v = some f := by
  simp only [frames, List.mem_filterMap, frameAt, Option.bind_eq_some_iff]
  constructor
  · rintro ⟨e, he, hf⟩
    obtain ⟨v, hv⟩ := List.mem_iff_getElem?.mp he
    exact ⟨v, e, hv, hf⟩
  · rintro ⟨v, e, hv, hf⟩
    exact ⟨e, List.mem_of_getElem? hv, hf⟩

end PageTable
end Contur
