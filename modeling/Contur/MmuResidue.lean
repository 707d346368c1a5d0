import Contur.MmuRefinement
import Contur.MmuTables

/-!
# What a fresh page holds

Blocks are moved by the memory management unit and never looked at: applying a
function to every stored block commutes with every operation. Two runs that
differ in the written blocks only therefore agree on page tables, owners, free
frames and the policy. A freed or evicted frame is not wiped, so the pages of a
new process hold what their frames held before the allocation, and the blocks of
two runs differ exactly as these cells differ.
-/

namespace Contur
open Function (update)
open Transition

theorem PhysicalMemory.read_map (g : Block → Block) (m : PhysicalMemory) (a : MemoryAddress) :
    (⟨m.cells.map g⟩ : PhysicalMemory).read a = match m.read a with
      | .ok b => .ok (g b)
      | .error e => .error e := by
  unfold PhysicalMemory.read
  cases h : m.cells[a]? <;> simp [h]

theorem PhysicalMemory.write_map (g : Block → Block) (m : PhysicalMemory) (a : MemoryAddress)
    (b : Block) : (⟨m.cells.map g⟩ : PhysicalMemory).write a (g b) =
      ((m.write a b).1, ⟨(m.write a b).2.cells.map g⟩) := by
  by_cases ha : a < m.size
  · simp [PhysicalMemory.write, PhysicalMemory.size, show a < m.cells.length from ha]
  · simp [PhysicalMemory.write, PhysicalMemory.size, show ¬ a < m.cells.length from ha]

namespace Mmu
variable {P : ReplacementPolicy} {N : ℕ} {s : Mmu P}

def mapBlocks (g : Block → Block) (s : Mmu P) : Mmu P :=
  { s with
    memory := ⟨s.memory.cells.map g⟩
    swapSpace := fun key => (s.swapSpace key).map g }

def Op.mapBlocks (g : Block → Block) : Op → Op
  | .write p v b => .write p v (g b)
  | op => op

section MapBlocks
variable (g : Block → Block) (s : Mmu P)

@[simp] theorem memory_mapBlocks : (s.mapBlocks g).memory = ⟨s.memory.cells.map g⟩ := rfl
@[simp] theorem pageTables_mapBlocks : (s.mapBlocks g).pageTables = s.pageTables := rfl
@[simp] theorem frameOwners_mapBlocks : (s.mapBlocks g).frameOwners = s.frameOwners := rfl
@[simp] theorem freeFrames_mapBlocks : (s.mapBlocks g).freeFrames = s.freeFrames := rfl
@[simp] theorem swapSpace_mapBlocks (k : SwapKey) :
    (s.mapBlocks g).swapSpace k = (s.swapSpace k).map g := rfl

theorem allocateFrame_mapBlocks (p : ProcessId) :
    (s.mapBlocks g).allocateFrame p =
      ((s.allocateFrame p).1, (s.allocateFrame p).2.mapBlocks g) := by
  by_cases h : s.freeFrames.isEmpty = true
  · simp only [allocateFrame, freeFrames_mapBlocks, h, ↓reduceIte]
  · simp only [allocateFrame, freeFrames_mapBlocks, h, Bool.false_eq_true, ↓reduceIte]
    rfl

theorem swap_update_map (k : SwapKey) (b : Option Block) :
    (fun key => (update s.swapSpace k b key).map g) =
      update (fun key => (s.swapSpace key).map g) k (b.map g) := by
  funext key
  by_cases h : key = k
  · simp [h]
  · simp [h]

theorem saveToSwap_mapBlocks (f : FrameId) :
    (s.mapBlocks g).saveToSwap f = (s.saveToSwap f).mapBlocks g := by
  simp only [saveToSwap, frameOwners_mapBlocks, memory_mapBlocks, PhysicalMemory.read_map,
    pageTables_mapBlocks]
  cases s.frameOwners f with
  | none => rfl
  | some owner =>
    dsimp only
    cases s.memory.read f with
    | error e => rfl
    | ok b =>
      dsimp only
      cases s.pageTables owner with
      | none => rfl
      | some t =>
        dsimp only
        cases t.findPage f with
        | none => rfl
        | some page =>
          simp only [mapBlocks, swap_update_map, Option.map_some]

theorem evict_mapBlocks (f : FrameId) (p : ProcessId) :
    (s.mapBlocks g).evict f p = (s.evict f p).mapBlocks g := by
  simp only [evict, saveToSwap_mapBlocks]
  rfl

theorem selectVictim_mapBlocks (t : PageTable) :
    (s.mapBlocks g).selectVictim t = ((s.selectVictim t).1, (s.selectVictim t).2.mapBlocks g) :=
  rfl

theorem obtainFrame_mapBlocks (p : ProcessId) (t : PageTable) :
    (s.mapBlocks g).obtainFrame p t =
      ((s.obtainFrame p t).1, (s.obtainFrame p t).2.mapBlocks g) := by
  simp only [obtainFrame, allocateFrame_mapBlocks, selectVictim_mapBlocks, evict_mapBlocks,
    frameOwners_mapBlocks]
  split_ifs <;> rfl

theorem obtainFrameForSwapIn_mapBlocks (p : ProcessId) (t : PageTable) :
    (s.mapBlocks g).obtainFrameForSwapIn p t =
      ((s.obtainFrameForSwapIn p t).1, (s.obtainFrameForSwapIn p t).2.mapBlocks g) := by
  simp only [obtainFrameForSwapIn, allocateFrame_mapBlocks, selectVictim_mapBlocks,
    evict_mapBlocks]
  split_ifs <;> rfl

theorem mapPage_mapBlocks (p : ProcessId) (v : ℕ) (f : FrameId) :
    (s.mapBlocks g).mapPage p v f = (s.mapPage p v f).mapBlocks g := by
  simp only [mapPage, pageTables_mapBlocks]
  cases s.pageTables p <;> rfl

theorem freeEntries_mapBlocks (es : List PageTableEntry) :
    (s.mapBlocks g).freeEntries es = (s.freeEntries es).mapBlocks g := by
  induction es generalizing s with
  | nil => rfl
  | cons e es ih =>
    simp only [freeEntries]
    split_ifs
    · exact ih (s.freeFrame e.frameId)
    · exact ih s

theorem rollback_mapBlocks (p : ProcessId) (page : ℕ) :
    (s.mapBlocks g).rollback p page = (s.rollback p page).mapBlocks g := by
  simp only [rollback, pageTables_mapBlocks, freeEntries_mapBlocks]
  cases s.pageTables p <;> rfl

theorem allocatePages_mapBlocks (p : ProcessId) (page n : ℕ) :
    (s.mapBlocks g).allocatePages p page n =
      ((s.allocatePages p page n).1, (s.allocatePages p page n).2.mapBlocks g) := by
  induction n generalizing s page with
  | zero => rfl
  | succ n ih =>
    simp only [allocatePages, pageTables_mapBlocks, obtainFrame_mapBlocks, rollback_mapBlocks,
      mapPage_mapBlocks]
    cases s.pageTables p with
    | none => rfl
    | some t =>
      dsimp only
      split_ifs
      · rfl
      · exact ih (((s.obtainFrame p t).2.mapPage p page (s.obtainFrame p t).1).onLoad
          (s.obtainFrame p t).1) (page + 1)

theorem restore_mapBlocks (p : ProcessId) (v : ℕ) (f : FrameId) :
    (s.mapBlocks g).restore p v f = (s.restore p v f).mapBlocks g := by
  simp only [restore, swapSpace_mapBlocks, memory_mapBlocks]
  cases s.swapSpace ⟨p, v⟩ with
  | none => rfl
  | some b =>
    simp only [Option.map_some, PhysicalMemory.write_map, mapBlocks, swap_update_map,
      Option.map_none]

theorem allocate_mapBlocks (p : ProcessId) (k : ℕ) :
    (s.mapBlocks g).allocate p k = ((s.allocate p k).1, (s.allocate p k).2.mapBlocks g) := by
  simp only [allocate, pageTables_mapBlocks]
  split_ifs
  · rfl
  cases s.pageTables p with
  | some t => rfl
  | none => exact allocatePages_mapBlocks g (s.setTable p (PageTable.ofCount k)) p 0 k

theorem deallocate_mapBlocks (p : ProcessId) :
    (s.mapBlocks g).deallocate p = ((s.deallocate p).1, (s.deallocate p).2.mapBlocks g) := by
  simp only [deallocate, pageTables_mapBlocks, freeEntries_mapBlocks, swapSpace_mapBlocks]
  cases s.pageTables p with
  | none => rfl
  | some t =>
    simp only [mapBlocks, setTable, Prod.mk.injEq, true_and, Mmu.mk.injEq, and_true]
    funext key
    split_ifs <;> rfl

theorem swapIn_mapBlocks (p : ProcessId) (v : ℕ) :
    (s.mapBlocks g).swapIn p v = ((s.swapIn p v).1, (s.swapIn p v).2.mapBlocks g) := by
  simp only [swapIn, pageTables_mapBlocks, obtainFrameForSwapIn_mapBlocks, restore_mapBlocks,
    mapPage_mapBlocks]
  cases s.pageTables p with
  | none => rfl
  | some t =>
    dsimp only
    cases t.getEntry v with
    | error e => rfl
    | ok entry =>
      dsimp only
      split_ifs <;> rfl

theorem swapOut_mapBlocks (p : ProcessId) (v : ℕ) :
    (s.mapBlocks g).swapOut p v = ((s.swapOut p v).1, (s.swapOut p v).2.mapBlocks g) := by
  simp only [swapOut, pageTables_mapBlocks, memory_mapBlocks, PhysicalMemory.read_map]
  cases s.pageTables p with
  | none => rfl
  | some t =>
    dsimp only
    cases t.getEntry v with
    | error e => rfl
    | ok entry =>
      dsimp only
      split_ifs
      · cases s.memory.read entry.frameId with
        | error e => rfl
        | ok b =>
          simp only [mapBlocks, setTable, freeFrame, swap_update_map, Option.map_some]
      · rfl

theorem read_mapBlocks (p : ProcessId) (v : ℕ) :
    ((s.mapBlocks g).read p v).2 = (s.read p v).2.mapBlocks g ∧
      ((s.mapBlocks g).read p v).1.isOk = (s.read p v).1.isOk := by
  simp only [read, pageTables_mapBlocks, memory_mapBlocks, PhysicalMemory.read_map]
  cases s.pageTables p with
  | none => exact ⟨rfl, rfl⟩
  | some t =>
    dsimp only
    cases t.translate v with
    | error e => exact ⟨rfl, rfl⟩
    | ok f =>
      refine ⟨rfl, ?_⟩
      dsimp only
      cases s.memory.read f <;> rfl

theorem write_mapBlocks (p : ProcessId) (v : ℕ) (b : Block) :
    (s.mapBlocks g).write p v (g b) = ((s.write p v b).1, (s.write p v b).2.mapBlocks g) := by
  simp only [write, pageTables_mapBlocks]
  cases s.pageTables p with
  | none => rfl
  | some t =>
    dsimp only
    cases t.translate v with
    | error e => rfl
    | ok f =>
      have hwrite := PhysicalMemory.write_map g s.memory f b
      simp only [mapBlocks, setTable, onAccess, hwrite]

theorem next_mapBlocks (op : Op) :
    ((machine P).next s op).mapBlocks g = (machine P).next (s.mapBlocks g) (op.mapBlocks g) := by
  cases op with
  | allocate p k => simp [Machine.next, machine, exec, Op.mapBlocks, allocate_mapBlocks]
  | deallocate p => simp [Machine.next, machine, exec, Op.mapBlocks, deallocate_mapBlocks]
  | read p v => simp [Machine.next, machine, exec, Op.mapBlocks, read_mapBlocks]
  | write p v b => simp [Machine.next, machine, exec, Op.mapBlocks, write_mapBlocks]
  | swapIn p v => simp [Machine.next, machine, exec, Op.mapBlocks, swapIn_mapBlocks]
  | swapOut p v => simp [Machine.next, machine, exec, Op.mapBlocks, swapOut_mapBlocks]

end MapBlocks

/-- The control part of a state: every stored block is replaced by the default block. -/
def shape (s : Mmu P) : Mmu P := s.mapBlocks fun _ => default

def SameCalls (ops ops' : List Op) : Prop :=
  ops.map (Op.mapBlocks fun _ => default) = ops'.map (Op.mapBlocks fun _ => default)

instance (ops ops' : List Op) : Decidable (SameCalls ops ops') :=
  inferInstanceAs (Decidable (_ = _))

theorem shape_run {s s' : Mmu P} (hs : s.shape = s'.shape) {ops ops' : List Op}
    (hops : SameCalls ops ops') :
    ((machine P).run s ops).shape = ((machine P).run s' ops').shape := by
  have hrun := (machine P).run_map (machine P) shape (Op.mapBlocks fun _ => default)
    (fun s op => next_mapBlocks _ s op)
  rw [hrun, hrun, hs, hops]

theorem frameOf_of_shape {s s' : Mmu P} (hs : s.shape = s'.shape) (p : ProcessId) (v : ℕ) :
    s.frameOf p v = s'.frameOf p v := by
  change s.shape.frameOf p v = s'.shape.frameOf p v
  rw [hs]

theorem allocate_of_shape {s s' : Mmu P} (hs : s.shape = s'.shape) (p : ProcessId) (k : ℕ) :
    (s.allocate p k).1 = (s'.allocate p k).1 ∧
      (s.allocate p k).2.shape = (s'.allocate p k).2.shape := by
  have hmap := allocate_mapBlocks (fun _ => default) s p k
  have hmap' := allocate_mapBlocks (fun _ => default) s' p k
  rw [show s.mapBlocks (fun _ => default) = s'.mapBlocks (fun _ => default) from hs, hmap'] at hmap
  exact ⟨(Prod.ext_iff.mp hmap).1.symm, (Prod.ext_iff.mp hmap).2.symm⟩

theorem unused_of_sameCalls {ops ops' : List Op} (hops : SameCalls ops ops') {f : FrameId}
    (hunused : ∀ pre, pre <+: ops → f ∉ ((machine P).run s pre).mapped) :
    ∀ pre, pre <+: ops' → f ∉ ((machine P).run s pre).mapped := by
  intro pre hpre
  have htake : SameCalls (ops.take pre.length) pre := by
    rw [SameCalls, List.map_take, hops, ← List.map_take, ← List.prefix_iff_eq_take.mp hpre]
  have hshape := shape_run (rfl : s.shape = s.shape) htake
  intro ⟨p, v, hf⟩
  exact hunused _ (List.take_prefix _ _) ⟨p, v, (frameOf_of_shape hshape p v).trans hf⟩

def Op.Spares (p : ProcessId) (v : ℕ) (op : Op) : Prop :=
  op ≠ .deallocate p ∧ ∀ b, op ≠ .write p v b

theorem spares_of_sameCalls {ops ops' : List Op} (hops : SameCalls ops ops') {p : ProcessId} {v : ℕ}
    (h : ∀ op ∈ ops, op.Spares p v) : ∀ op ∈ ops', op.Spares p v := by
  intro op' hop'
  have hmem : op'.mapBlocks (fun _ => default) ∈ ops.map (Op.mapBlocks fun _ => default) := by
    rw [hops]
    exact List.mem_map_of_mem hop'
  obtain ⟨op, hop, heq⟩ := List.mem_map.mp hmem
  obtain ⟨hdealloc, hwrite⟩ := h op hop
  constructor
  · rintro rfl
    cases op <;> simp_all [Op.mapBlocks]
  · rintro b rfl
    cases op <;> simp_all [Op.mapBlocks]

theorem content_run_spared (hP : P.Sound) (hN : N ≤ invalidFrame) (h : Inv N ∅ none s)
    {p : ProcessId} {v : ℕ} {b : Block} (hb : s.content p v = some b) {ops : List Op}
    (hops : ∀ op ∈ ops, op.Spares p v) : ((machine P).run s ops).content p v = some b := by
  induction ops generalizing s with
  | nil => exact hb
  | cons op ops ih =>
    obtain ⟨⟨hdealloc, hwrite⟩, hrest⟩ := List.forall_mem_cons.mp hops
    have hv : v < s.pageCount p := (h.content_isSome_iff p v).mp (by simp [hb])
    obtain ⟨t, ht⟩ := exists_table_of_pageCount (Nat.zero_lt_of_lt hv)
    refine ih (exec_inv hP hN op h) ?_ hrest
    exact (content_untouched hP hN h (by simp [ht]) hwrite hdealloc).trans hb

theorem cell_exec (hP : P.Sound) (hN : N ≤ invalidFrame) (h : Inv N ∅ none s) (op : Op)
    {f : FrameId} (hbefore : f ∉ s.mapped) (hafter : f ∉ (s.exec op).2.mapped) :
    (s.exec op).2.memory.cells[f]? = s.memory.cells[f]? := by
  cases op with
  | allocate p k =>
    rcases allocate_spec hP hN h p k with ⟨e, he⟩ | ⟨-, -, hall⟩
    · simp only [exec, he]
    · simp only [exec, hall.memory]
  | deallocate p =>
    rcases deallocate_spec h p with ⟨-, he⟩ | ⟨-, -, -, hmemory, -⟩
    · simp only [exec, he]
    · simp only [exec, hmemory]
  | read p v => exact congrFun (congrArg Paging.State.cell (read_spec h p v).2.1) f
  | write p v b =>
    rcases write_spec h p v b with ⟨e, he, -⟩ | ⟨g, hg, -, -, hview⟩
    · simp only [exec, he]
    · have hfg : f ≠ g := by
        rintro rfl
        exact hbefore (mem_mapped_iff.mpr ⟨_, hg⟩)
      have hcell := congrFun (congrArg Paging.State.cell hview) f
      exact hcell.trans (Function.update_of_ne hfg ..)
  | swapIn p v =>
    refine (swapIn_spec hP hN h p v).2.2.2 f fun k hk => hafter ?_
    exact mem_mapped_iff.mpr ⟨k, hk⟩
  | swapOut p v => exact congrFun (swapOut_spec h p v).2.2.2 f

theorem cell_run_unused (hP : P.Sound) (hN : N ≤ invalidFrame) (h : Inv N ∅ none s) {f : FrameId}
    {ops : List Op} (hunused : ∀ pre, pre <+: ops → f ∉ ((machine P).run s pre).mapped) :
    ((machine P).run s ops).memory.cells[f]? = s.memory.cells[f]? := by
  induction ops generalizing s with
  | nil => rfl
  | cons op ops ih =>
    have hrest := ih (exec_inv hP hN op h) fun pre hpre =>
      hunused (op :: pre) ((List.prefix_cons_inj op).mpr hpre)
    exact hrest.trans (cell_exec hP hN h op (hunused [] (List.nil_prefix))
      (hunused [op] (by simp)))

theorem content_allocate (hP : P.Sound) (hN : N ≤ invalidFrame) (h : Inv N ∅ none s)
    {p : ProcessId} {k v : ℕ} (hok : (s.allocate p k).1.isOk) (hv : v < k) :
    ∃ f b, (s.allocate p k).2.frameOf p v = some f ∧ s.memory.cells[f]? = some b ∧
      (s.allocate p k).2.content p v = some b := by
  obtain ⟨hcount, frame, -, hframe⟩ := allocate_distinct hP hN h hok
  rcases allocate_spec hP hN h p k with ⟨e, he⟩ | ⟨-, -, hall⟩
  · simp [he] at hok
  have hf := hframe ⟨v, hv⟩
  have hlt : frame ⟨v, hv⟩ < s.memory.size := by
    rw [h.size]
    exact hall.inv.frame_lt hf
  obtain ⟨b, hb, -⟩ := PhysicalMemory.read_ok hlt
  refine ⟨frame ⟨v, hv⟩, b, hf, hb, ?_⟩
  rw [hall.inv.content_eq]
  refine (Paging.State.content_of_frame (s := (s.allocate p k).2.view) (k := ⟨p, v⟩) hf).trans ?_
  change (s.allocate p k).2.memory.cells[frame ⟨v, hv⟩]? = some b
  rw [hall.memory, hb]

/-- Two runs that differ in the written blocks only give a new process the same frames. Until
the process writes a page, reads of it succeed in both runs or in none and return what the frame
held before the allocation: the same block when the cells agreed, the default block when no
page ever lay on the frame. -/
theorem read_fresh_page (kind : ReplacementKind) {N : ℕ} (hN : N ≤ invalidFrame) (order : ℕ → ℕ)
    (ops ops' more more' : List Op) (hops : SameCalls ops ops') (hmore : SameCalls more more')
    (p : ProcessId) {k v : ℕ} (hv : v < k)
    (hok : (((machine kind.policy).run (init kind.policy (.ofSize N) order) ops).allocate
      p k).1.isOk)
    (hspares : ∀ op ∈ more, op.Spares p v) :
    let start := init kind.policy (.ofSize N) order
    let s := (machine kind.policy).run start ops
    let s' := (machine kind.policy).run start ops'
    let t := (machine kind.policy).run (s.allocate p k).2 more
    let t' := (machine kind.policy).run (s'.allocate p k).2 more'
    (s'.allocate p k).1 = (s.allocate p k).1 ∧
    ∃ f b b', (s.allocate p k).2.frameOf p v = some f ∧ (s'.allocate p k).2.frameOf p v = some f ∧
      s.memory.cells[f]? = some b ∧ s'.memory.cells[f]? = some b' ∧
      (t.read p v).1 = (if (t.frameOf p v).isSome then .ok b else .error .segmentationFault) ∧
      (t'.read p v).1 = (if (t.frameOf p v).isSome then .ok b' else .error .segmentationFault) ∧
      ((∀ pre, pre <+: ops → f ∉ ((machine kind.policy).run start pre).mapped) →
        b = default ∧ b' = default) := by
  intro start s s' t t'
  have hP := kind.sound
  have hstart : Inv N ∅ none start := by
    have hinit := inv_init kind.policy ((PhysicalMemory.size_ofSize N).trans_le hN) order
    rwa [PhysicalMemory.size_ofSize] at hinit
  have h : Inv N ∅ none s := run_inv hP hN hstart ops
  have h' : Inv N ∅ none s' := run_inv hP hN hstart ops'
  have hshape : s.shape = s'.shape := shape_run rfl hops
  obtain ⟨hresult, halloc⟩ := allocate_of_shape hshape p k
  have hok' : (s'.allocate p k).1.isOk := hresult ▸ hok
  obtain ⟨f, b, hf, hb, hcontent⟩ := content_allocate hP hN h hok hv
  obtain ⟨f', b', hf', hb', hcontent'⟩ := content_allocate hP hN h' hok' hv
  obtain rfl : f = f' := by
    rw [frameOf_of_shape halloc, hf'] at hf
    exact (Option.some.inj hf).symm
  have ht : t.content p v = some b :=
    content_run_spared hP hN (exec_inv hP hN (.allocate p k) h) hcontent hspares
  have ht' : t'.content p v = some b' :=
    content_run_spared hP hN (exec_inv hP hN (.allocate p k) h') hcontent'
      (spares_of_sameCalls hmore hspares)
  have hresident : t'.frameOf p v = t.frameOf p v :=
    (frameOf_of_shape (shape_run halloc hmore) p v).symm
  have hread := read_eq (run_inv hP hN (exec_inv hP hN (.allocate p k) h) more) ht
  have hread' : (t'.read p v).1 =
      if (t.frameOf p v).isSome then .ok b' else .error .segmentationFault := by
    rw [← hresident]
    exact read_eq (run_inv hP hN (exec_inv hP hN (.allocate p k) h') more') ht'
  refine ⟨hresult.symm, f, b, b', hf, hf', hb, hb', hread, hread', fun hunused => ?_⟩
  have hdefault : ∀ c, start.memory.cells[f]? = some c → c = default := fun c hc =>
    List.eq_of_mem_replicate (List.mem_of_getElem? hc)
  have hcell := cell_run_unused hP hN hstart hunused
  have hcell' := cell_run_unused hP hN hstart (unused_of_sameCalls hops hunused)
  exact ⟨hdefault b (hcell.symm.trans hb), hdefault b' (hcell'.symm.trans hb')⟩

theorem read_fresh_page_unused :
    (((machine fifoReplacement).run (init fifoReplacement (.ofSize 2) fun _ => 0)
      [.allocate 1 1, .write 1 0 { code := .halt }, .allocate 2 1]).read 2 0).1 = .ok default := by
  have hread := read_fresh_page .fifo (N := 2) (by decide) (fun _ => 0)
    [.allocate 1 1, .write 1 0 { code := .halt }] [.allocate 1 1, .write 1 0 { code := .nop }] [] []
    (by decide) (by decide) 2 (k := 1) (v := 0) (by decide) rfl (by simp)
  obtain ⟨-, f, b, b', hf, -, hb, -, hr, -, -⟩ := hread
  obtain rfl : f = 1 := by cases hf; rfl
  cases hb
  exact hr

/-- The single frame of process 1 goes to process 2 with the block that process 1 wrote. -/
theorem read_fresh_page_residue :
    let start := init fifoReplacement (.ofSize 1) fun _ => 0
    let ops := [.allocate 1 1, .write 1 0 { code := .halt }, .deallocate 1]
    let ops' := [.allocate 1 1, .write 1 0 { code := .nop }, .deallocate 1]
    let s := (machine fifoReplacement).run start ops
    let s' := (machine fifoReplacement).run start ops'
    SameCalls ops ops' ∧ (s.allocate 2 1).1.isOk ∧ (s'.allocate 2 1).1.isOk ∧
      ((s.allocate 2 1).2.read 2 0).1 = .ok { code := .halt } ∧
      ((s'.allocate 2 1).2.read 2 0).1 = .ok default := by
  exact ⟨by decide, rfl, rfl, rfl, rfl⟩

end Mmu
end Contur
