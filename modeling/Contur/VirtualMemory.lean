import Contur.MmuRefinement
import Contur.MmuTables

/-!
# Virtual memory slots

A slot is the address space of a process, loaded and read as a whole through the
memory management unit. Every call drives the unit with operations of its own
process only. A page of a slot that is swapped out is not brought back: reading
the segment fails until the page is resident again, though its content is kept.
-/

namespace Contur
open Function (update)
open Transition

structure SlotInfo where
  processId : ProcessId
  size : ℕ
  deriving DecidableEq, Repr

structure VirtualMemory (P : ReplacementPolicy) where
  mmu : Mmu P
  maxSlots : ℕ
  slots : AList (fun _ : ProcessId => SlotInfo)

namespace Mmu
variable {P : ReplacementPolicy}

def writeBlocks (s : Mmu P) (pid : ProcessId) (i : ℕ) : List Block → Result Unit × Mmu P
  | [] => (.ok (), s)
  | block :: blocks =>
    match s.write pid i block with
    | (.ok _, s) => writeBlocks s pid (i + 1) blocks
    | (.error e, s) => (.error e, s)

def readBlocks (s : Mmu P) (pid : ProcessId) (i : ℕ) : ℕ → Result (List Block) × Mmu P
  | 0 => (.ok [], s)
  | n + 1 =>
    match s.read pid i with
    | (.error e, s) => (.error e, s)
    | (.ok block, s) =>
      match readBlocks s pid (i + 1) n with
      | (.error e, s) => (.error e, s)
      | (.ok blocks, s) => (.ok (block :: blocks), s)

end Mmu

namespace VirtualMemory
variable {P : ReplacementPolicy} {N : ℕ} {s : VirtualMemory P}

def init (mmu : Mmu P) (maxSlots : ℕ) : VirtualMemory P := ⟨mmu, maxSlots, ∅⟩

def allocateSlot (s : VirtualMemory P) (pid : ProcessId) (size : ℕ) :
    Result MemoryAddress × VirtualMemory P :=
  if size = 0 then (.error .invalidAddress, s)
  else if s.maxSlots ≤ s.slots.entries.length then (.error .outOfMemory, s)
  else if pid ∈ s.slots then (.error .invalidPid, s)
  else
    match s.mmu.allocate pid size with
    | (.error e, mmu) => (.error e, { s with mmu := mmu })
    | (.ok address, mmu) =>
      (.ok address, { s with mmu := mmu, slots := s.slots.insert pid ⟨pid, size⟩ })

def freeSlot (s : VirtualMemory P) (pid : ProcessId) : Result Unit × VirtualMemory P :=
  match s.slots.lookup pid with
  | none => (.error .invalidPid, s)
  | some _ =>
    match s.mmu.deallocate pid with
    | (.error e, mmu) => (.error e, { s with mmu := mmu })
    | (.ok _, mmu) => (.ok (), { s with mmu := mmu, slots := s.slots.erase pid })

def loadSegment (s : VirtualMemory P) (pid : ProcessId) (data : List Block) :
    Result Unit × VirtualMemory P :=
  match s.slots.lookup pid with
  | none => (.error .invalidPid, s)
  | some slot =>
    if slot.size < data.length then (.error .outOfMemory, s)
    else
      let written := s.mmu.writeBlocks pid 0 data
      (written.1, { s with mmu := written.2 })

def readSegment (s : VirtualMemory P) (pid : ProcessId) : Result (List Block) × VirtualMemory P :=
  match s.slots.lookup pid with
  | none => (.error .invalidPid, s)
  | some slot =>
    let blocks := s.mmu.readBlocks pid 0 slot.size
    (blocks.1, { s with mmu := blocks.2 })

inductive Op where
  | allocateSlot (pid : ProcessId) (size : ℕ)
  | freeSlot (pid : ProcessId)
  | loadSegment (pid : ProcessId) (data : List Block)
  | readSegment (pid : ProcessId)
  deriving DecidableEq, Repr

def Op.processId : Op → ProcessId
  | .allocateSlot p _ | .freeSlot p | .loadSegment p _ | .readSegment p => p

inductive Response where
  | address (r : Result MemoryAddress)
  | unit (r : Result Unit)
  | blocks (r : Result (List Block))
  deriving DecidableEq, Repr

def exec (s : VirtualMemory P) : Op → Response × VirtualMemory P
  | .allocateSlot p n => (.address (s.allocateSlot p n).1, (s.allocateSlot p n).2)
  | .freeSlot p => (.unit (s.freeSlot p).1, (s.freeSlot p).2)
  | .loadSegment p data => (.unit (s.loadSegment p data).1, (s.loadSegment p data).2)
  | .readSegment p => (.blocks (s.readSegment p).1, (s.readSegment p).2)

def machine (P : ReplacementPolicy) : Machine (VirtualMemory P) Op Response := ⟨exec⟩

/-- The slots are the page tables of the unit, with the same sizes. -/
def SlotsMatch (s : VirtualMemory P) : Prop :=
  ∀ p, (s.slots.lookup p).map SlotInfo.size = s.mmu.tableSize p

theorem tableSize_writeBlocks (s : Mmu P) (p : ProcessId) (i : ℕ) (blocks : List Block) :
    (s.writeBlocks p i blocks).2.tableSize = s.tableSize := by
  induction blocks generalizing s i with
  | nil => rfl
  | cons b bs ih =>
    have hw := Mmu.tableSize_write s p i b
    simp only [Mmu.writeBlocks]
    split
    · next hs =>
      rw [hs] at hw
      exact (ih _ _).trans hw
    · next hs =>
      rw [hs] at hw
      exact hw

theorem tableSize_readBlocks (s : Mmu P) (p : ProcessId) (i n : ℕ) :
    (s.readBlocks p i n).2.tableSize = s.tableSize := by
  induction n generalizing s i with
  | zero => rfl
  | succ n ih =>
    have hr := Mmu.tableSize_read s p i
    simp only [Mmu.readBlocks]
    split
    · next hs =>
      rw [hs] at hr
      exact hr
    · next s₁ hs =>
      rw [hs] at hr
      have hrest := (ih s₁ (i + 1)).trans hr
      split
      · next hs₁ => rwa [hs₁] at hrest
      · next hs₁ => rwa [hs₁] at hrest

theorem allocateSlot_slotsMatch (h : s.SlotsMatch) (p : ProcessId) (n : ℕ) :
    (s.allocateSlot p n).2.SlotsMatch := by
  unfold allocateSlot
  split_ifs
  · exact h
  · exact h
  · exact h
  have htables := Mmu.tableSize_allocate s.mmu p n
  split
  · next hs =>
    rw [hs] at htables
    intro q
    rw [htables]
    exact h q
  · next hs =>
    rw [hs] at htables
    intro q
    rw [htables]
    simp only [Result.isOk_ok, ↓reduceIte]
    by_cases hq : q = p
    · subst q
      simp
    · rw [AList.lookup_insert_ne hq, Function.update_of_ne hq]
      exact h q

theorem freeSlot_spec (h : s.SlotsMatch) {p : ProcessId} (hp : p ∈ s.slots) :
    s.freeSlot p =
      (.ok (), { s with mmu := (s.mmu.deallocate p).2, slots := s.slots.erase p }) := by
  obtain ⟨slot, hslot⟩ := Option.isSome_iff_exists.mp (AList.lookup_isSome.mpr hp)
  have htable : (s.mmu.pageTables p).isSome := by
    rw [← Mmu.isSome_tableSize, ← h p, hslot]
    rfl
  have hok := (Mmu.tableSize_deallocate s.mmu p).2.mpr htable
  simp only [freeSlot, hslot]
  split
  · next hs =>
    rw [hs] at hok
    cases hok
  · next hs => rw [hs]

theorem freeSlot_slotsMatch (h : s.SlotsMatch) (p : ProcessId) : (s.freeSlot p).2.SlotsMatch := by
  by_cases hp : p ∈ s.slots
  · rw [freeSlot_spec h hp]
    intro q
    rw [(Mmu.tableSize_deallocate s.mmu p).1]
    by_cases hq : q = p
    · subst q
      simp
    · rw [AList.lookup_erase_ne hq, Function.update_of_ne hq]
      exact h q
  · have hnone : s.slots.lookup p = none := AList.lookup_eq_none.mpr hp
    simpa only [freeSlot, hnone] using h

theorem mem_slots_allocateSlot {p q : ProcessId} {n : ℕ} :
    q ∈ (s.allocateSlot p n).2.slots ↔ ((s.allocateSlot p n).1.isOk ∧ q = p) ∨ q ∈ s.slots := by
  unfold allocateSlot
  split_ifs
  · simp
  · simp
  · simp
  · split
    · simp
    · simp [AList.mem_insert]

theorem slots_loadSegment (p : ProcessId) (data : List Block) :
    (s.loadSegment p data).2.slots = s.slots := by
  unfold loadSegment
  split
  · rfl
  · split_ifs <;> rfl

theorem exec_slotsMatch (op : Op) (h : s.SlotsMatch) : (s.exec op).2.SlotsMatch := by
  cases op with
  | allocateSlot p n => exact allocateSlot_slotsMatch h p n
  | freeSlot p => exact freeSlot_slotsMatch h p
  | loadSegment p data =>
    simp only [exec, loadSegment]
    split
    · exact h
    · split_ifs
      · exact h
      · intro q
        rw [tableSize_writeBlocks]
        exact h q
  | readSegment p =>
    simp only [exec, readSegment]
    split
    · exact h
    · intro q
      rw [tableSize_readBlocks]
      exact h q

theorem writeBlocks_run (s : Mmu P) (p : ProcessId) (i : ℕ) (blocks : List Block) :
    ∃ ops : List Mmu.Op, (∀ op ∈ ops, op.processId = p) ∧
      (s.writeBlocks p i blocks).2 = (Mmu.machine P).run s ops := by
  induction blocks generalizing s i with
  | nil => exact ⟨[], by simp, rfl⟩
  | cons b bs ih =>
    have hnext : (Mmu.machine P).next s (.write p i b) = (s.write p i b).2 := rfl
    simp only [Mmu.writeBlocks]
    split
    · next s₁ hs =>
      obtain ⟨ops, hops, hrun⟩ := ih s₁ (i + 1)
      refine ⟨.write p i b :: ops, ?_, ?_⟩
      · exact List.forall_mem_cons.mpr ⟨rfl, hops⟩
      · rw [Machine.run_cons, hnext, hs]
        exact hrun
    · next s₁ hs =>
      refine ⟨[.write p i b], by simp [Mmu.Op.processId], ?_⟩
      rw [Machine.run_cons, hnext, hs]
      rfl

theorem readBlocks_run (s : Mmu P) (p : ProcessId) (i n : ℕ) :
    ∃ ops : List Mmu.Op, (∀ op ∈ ops, op.processId = p) ∧
      (s.readBlocks p i n).2 = (Mmu.machine P).run s ops := by
  induction n generalizing s i with
  | zero => exact ⟨[], by simp, rfl⟩
  | succ n ih =>
    have hnext : (Mmu.machine P).next s (.read p i) = (s.read p i).2 := rfl
    simp only [Mmu.readBlocks]
    split
    · next s₁ hs =>
      refine ⟨[.read p i], by simp [Mmu.Op.processId], ?_⟩
      rw [Machine.run_cons, hnext, hs]
      rfl
    · next s₁ hs =>
      obtain ⟨ops, hops, hrun⟩ := ih s₁ (i + 1)
      refine ⟨.read p i :: ops, ?_, ?_⟩
      · exact List.forall_mem_cons.mpr ⟨rfl, hops⟩
      · rw [Machine.run_cons, hnext, hs]
        split
        · next hs₁ => rwa [hs₁] at hrun
        · next hs₁ => rwa [hs₁] at hrun

theorem exec_mmu (s : VirtualMemory P) (op : Op) :
    ∃ ops : List Mmu.Op, (∀ o ∈ ops, o.processId = op.processId) ∧
      (s.exec op).2.mmu = (Mmu.machine P).run s.mmu ops := by
  have hnil : ∃ ops : List Mmu.Op, (∀ o ∈ ops, o.processId = op.processId) ∧
      s.mmu = (Mmu.machine P).run s.mmu ops := ⟨[], by simp, rfl⟩
  cases op with
  | allocateSlot p n =>
    simp only [exec, allocateSlot]
    split_ifs
    · exact hnil
    · exact hnil
    · exact hnil
    refine ⟨[.allocate p n], by simp [Mmu.Op.processId, Op.processId], ?_⟩
    have hnext : (Mmu.machine P).next s.mmu (.allocate p n) = (s.mmu.allocate p n).2 := rfl
    rw [Machine.run_cons, hnext]
    split <;> next hs => rw [hs]; rfl
  | freeSlot p =>
    simp only [exec, freeSlot]
    split
    · exact hnil
    refine ⟨[.deallocate p], by simp [Mmu.Op.processId, Op.processId], ?_⟩
    have hnext : (Mmu.machine P).next s.mmu (.deallocate p) = (s.mmu.deallocate p).2 := rfl
    rw [Machine.run_cons, hnext]
    split <;> next hs => rw [hs]; rfl
  | loadSegment p data =>
    simp only [exec, loadSegment]
    split
    · exact hnil
    · split_ifs
      · exact hnil
      · exact writeBlocks_run s.mmu p 0 data
  | readSegment p =>
    simp only [exec, readSegment]
    split
    · exact hnil
    · next slot _ => exact readBlocks_run s.mmu p 0 slot.size

structure Inv (N : ℕ) (s : VirtualMemory P) : Prop where
  mmu : s.mmu.Inv N ∅ none
  slotsMatch : s.SlotsMatch

theorem exec_inv (hP : P.Sound) (hN : N ≤ invalidFrame) (op : Op) (h : Inv N s) :
    Inv N (s.exec op).2 := by
  obtain ⟨ops, -, hrun⟩ := exec_mmu s op
  exact ⟨hrun ▸ Mmu.run_inv hP hN h.mmu ops, exec_slotsMatch op h.slotsMatch⟩

theorem run_inv (hP : P.Sound) (hN : N ≤ invalidFrame) (h : Inv N s) (ops : List Op) :
    Inv N ((machine P).run s ops) :=
  (machine P).run_invariant (fun _ op hs => exec_inv hP hN op hs) h ops

theorem inv_init (P : ReplacementPolicy) {memory : PhysicalMemory}
    (hN : memory.size ≤ invalidFrame) (order : ℕ → ℕ) (maxSlots : ℕ) :
    Inv memory.size (init (Mmu.init P memory order) maxSlots) :=
  ⟨Mmu.inv_init P hN order, fun _ => rfl⟩

/-- What the operations of other processes cannot change. -/
def footprint (m : Mmu P) (p : ProcessId) : Option ℕ × (ℕ → Option Block) :=
  (m.tableSize p, m.content p)

theorem footprint_exec (hP : P.Sound) (hN : N ≤ invalidFrame) {m : Mmu P} (h : m.Inv N ∅ none)
    {p : ProcessId} {op : Mmu.Op} (hop : op.processId ≠ p) :
    footprint (m.exec op).2 p = footprint m p := by
  have htable := Mmu.tableSize_exec_of_ne m hop.symm
  refine Prod.ext htable (funext fun v => ?_)
  cases hsize : m.tableSize p with
  | none =>
    have hnone : ∀ m' : Mmu P, m'.tableSize p = none → m'.content p v = none := by
      intro m' hm'
      simp [Mmu.content, Mmu.pageCount_eq_tableSize, hm']
    exact (hnone _ (htable.trans hsize)).trans (hnone m hsize).symm
  | some n =>
    refine Mmu.content_untouched hP hN h ?_ ?_ ?_
    · rw [← Mmu.isSome_tableSize, hsize]
      rfl
    · rintro b rfl
      exact hop rfl
    · rintro rfl
      exact hop rfl

theorem footprint_run (hP : P.Sound) (hN : N ≤ invalidFrame) (h : Inv N s) {p : ProcessId}
    {ops : List Op} (hops : ∀ op ∈ ops, op.processId ≠ p) :
    footprint ((machine P).run s ops).mmu p = footprint s.mmu p := by
  refine Machine.run_observation (machine P) (Q := fun op => op.processId ≠ p)
    (fun s => footprint s.mmu p) (fun _ op hs => exec_inv hP hN op hs) ?_ h hops
  intro s op hs hop
  obtain ⟨mops, hmops, hrun⟩ := exec_mmu s op
  change footprint (s.exec op).2.mmu p = _
  rw [hrun]
  exact Machine.run_observation (Mmu.machine P) (Q := fun o => o.processId ≠ p)
    (fun m => footprint m p) (fun _ o hm => Mmu.exec_inv hP hN o hm)
    (fun m o hm ho => footprint_exec hP hN hm ho) hs.mmu (fun o ho => hmops o ho ▸ hop)

theorem content_writeBlocks {m : Mmu P} (h : m.Inv N ∅ none) {p : ProcessId} {i : ℕ}
    {blocks : List Block} (hok : (m.writeBlocks p i blocks).1 = .ok ()) :
    (∀ v < i, (m.writeBlocks p i blocks).2.content p v = m.content p v) ∧
      ∀ j < blocks.length, (m.writeBlocks p i blocks).2.content p (i + j) = blocks[j]? := by
  induction blocks generalizing m i with
  | nil => exact ⟨fun _ _ => rfl, by simp⟩
  | cons b bs ih =>
    simp only [Mmu.writeBlocks] at hok
    split at hok
    · next u m₁ hw =>
      have hwrite : (m.write p i b).1 = .ok () := by rw [hw]
      obtain ⟨hself, hother⟩ := Mmu.content_write h hwrite
      have hinv : m₁.Inv N ∅ none := by
        rcases Mmu.write_spec h p i b with ⟨e, he, -⟩ | ⟨f, -, -, hinv, -⟩
        · simp [he] at hwrite
        · rwa [hw] at hinv
      rw [hw] at hself hother
      obtain ⟨hbelow, hdata⟩ := ih hinv hok
      simp only [Mmu.writeBlocks, hw]
      refine ⟨fun v hv => ?_, fun j hj => ?_⟩
      · have hne : (p, v) ≠ (p, i) := fun he => by cases he; omega
        rw [hbelow v (by omega)]
        exact hother p v hne
      · cases j with
        | zero => exact (hbelow i (by omega)).trans hself
        | succ j =>
          have hnext := hdata j (by simpa using hj)
          rwa [show i + 1 + j = i + (j + 1) by omega] at hnext
    · cases hok

theorem readBlocks_eq {m : Mmu P} (h : m.Inv N ∅ none) {p : ProcessId} {i : ℕ}
    (data : List Block) (hdata : ∀ j < data.length, m.content p (i + j) = data[j]?) :
    (m.readBlocks p i data.length).1 =
      if ∀ j < data.length, (m.frameOf p (i + j)).isSome then .ok data
      else .error .segmentationFault := by
  induction data generalizing m i with
  | nil => simp [Mmu.readBlocks]
  | cons b bs ih =>
    have hfirst := Mmu.read_eq h (p := p) (v := i) (b := b) (by simpa using hdata 0 (by simp))
    obtain ⟨hinv, hview, -, -⟩ := Mmu.read_spec h p i
    have hrest := ih hinv (i := i + 1) (fun j hj => by
      have hj' := hdata (j + 1) (by simpa using hj)
      rw [hinv.content_eq, hview, ← h.content_eq]
      simpa [show i + 1 + j = i + (j + 1) by omega] using hj')
    have hframe : ∀ v, (m.read p i).2.frameOf p v = m.frameOf p v := fun v =>
      congrFun (congrArg Paging.State.frameOf hview) ⟨p, v⟩
    have hall : (∀ j < (b :: bs).length, (m.frameOf p (i + j)).isSome) ↔
        (m.frameOf p i).isSome ∧ ∀ j < bs.length, (m.frameOf p (i + 1 + j)).isSome := by
      constructor
      · intro hj
        refine ⟨hj 0 (by simp), fun j hlt => ?_⟩
        have := hj (j + 1) (by simpa using hlt)
        rwa [show i + 1 + j = i + (j + 1) by omega]
      · rintro ⟨h0, hj⟩ (_ | j) hlt
        · exact h0
        · have := hj j (by simpa using hlt)
          rwa [show i + 1 + j = i + (j + 1) by omega] at this
    simp only [hframe] at hrest
    rw [if_congr hall rfl rfl]
    simp only [List.length_cons, Mmu.readBlocks]
    by_cases hf : (m.frameOf p i).isSome
    · rw [if_pos hf] at hfirst
      generalize m.read p i = r at hfirst hrest ⊢
      obtain ⟨r, m₁⟩ := r
      simp only at hfirst hrest ⊢
      subst hfirst
      simp only [hf, true_and]
      generalize m₁.readBlocks p (i + 1) bs.length = q at hrest ⊢
      obtain ⟨q, m₂⟩ := q
      simp only at hrest ⊢
      subst hrest
      split_ifs <;> rfl
    · rw [if_neg hf] at hfirst
      generalize m.read p i = r at hfirst ⊢
      obtain ⟨r, m₁⟩ := r
      simp only at hfirst ⊢
      subst hfirst
      simp [hf]

theorem allocateSlot_ok {s₁ : VirtualMemory P} {p : ProcessId} {n : ℕ} {a : MemoryAddress}
    (h : s.allocateSlot p n = (.ok a, s₁)) : s₁.mmu.tableSize p = some n := by
  unfold allocateSlot at h
  split_ifs at h
  · cases h
  · cases h
  · cases h
  have htables := Mmu.tableSize_allocate s.mmu p n
  split at h
  · cases h
  · next hs =>
    rw [hs] at htables
    cases h
    simpa using congrFun htables p

theorem loadSegment_ok {s₁ : VirtualMemory P} (hinv : Inv N s) {p : ProcessId} {data : List Block}
    (h : s.loadSegment p data = (.ok (), s₁)) :
    s₁.mmu.tableSize p = s.mmu.tableSize p ∧
      ∀ v < data.length, s₁.mmu.content p v = data[v]? := by
  unfold loadSegment at h
  split at h
  · cases h
  · split_ifs at h
    · cases h
    have hok := congrArg Prod.fst h
    obtain rfl := congrArg Prod.snd h
    refine ⟨congrFun (tableSize_writeBlocks s.mmu p 0 data) p, fun v hv => ?_⟩
    have hdata := (content_writeBlocks hinv.mmu hok).2 v hv
    rwa [Nat.zero_add] at hdata

theorem readSegment_eq (h : Inv N s) {p : ProcessId} {data : List Block}
    (htable : s.mmu.tableSize p = some data.length)
    (hdata : ∀ v < data.length, s.mmu.content p v = data[v]?) :
    (s.readSegment p).1 = if ∀ v < data.length, (s.mmu.frameOf p v).isSome then .ok data
      else .error .segmentationFault := by
  have hslot := h.slotsMatch p
  rw [htable] at hslot
  obtain ⟨slot, hlookup, hsize⟩ := Option.map_eq_some_iff.mp hslot
  have hread := readBlocks_eq h.mmu (p := p) (i := 0) data (by simpa using hdata)
  simp only [Nat.zero_add] at hread
  simp only [readSegment, hlookup, hsize]
  exact hread

/-- A loaded segment survives every call of other processes, swapped out or not; reading it back
succeeds exactly while all of its pages are resident. -/
theorem readSegment_after_others (kind : ReplacementKind) (memory : PhysicalMemory)
    (hN : memory.size ≤ invalidFrame) (order : ℕ → ℕ) (maxSlots : ℕ)
      (before between after : List Op)
    (p : ProcessId) (data : List Block) {a : MemoryAddress} {s₁ s₂ : VirtualMemory kind.policy}
    (halloc : ((machine kind.policy).run
      (init (Mmu.init kind.policy memory order) maxSlots) before).allocateSlot p data.length =
        (.ok a, s₁))
    (hbetween : ∀ op ∈ between, op.processId ≠ p)
    (hload : ((machine kind.policy).run s₁ between).loadSegment p data = (.ok (), s₂))
    (hafter : ∀ op ∈ after, op.processId ≠ p) :
    let s := (machine kind.policy).run s₂ after
    (∀ v < data.length, s.mmu.content p v = data[v]?) ∧
      (s.readSegment p).1 = if ∀ v < data.length, (s.mmu.frameOf p v).isSome then .ok data
        else .error .segmentationFault := by
  intro s
  have hP := kind.sound
  have h₀ := run_inv hP hN (inv_init kind.policy hN order maxSlots) before
  have h₁ : Inv memory.size s₁ := by
    have hnext := exec_inv hP hN (.allocateSlot p data.length) h₀
    simpa only [exec, halloc] using hnext
  have h₂ : Inv memory.size s₂ := by
    have hnext := exec_inv hP hN (.loadSegment p data) (run_inv hP hN h₁ between)
    simpa only [exec, hload] using hnext
  obtain ⟨htable, hdata⟩ := loadSegment_ok (run_inv hP hN h₁ between) hload
  have hkept := footprint_run hP hN h₁ hbetween
  have hlast := footprint_run hP hN h₂ hafter
  have htable : s.mmu.tableSize p = some data.length := calc
    s.mmu.tableSize p = s₂.mmu.tableSize p := congrArg Prod.fst hlast
    _ = ((machine kind.policy).run s₁ between).mmu.tableSize p := htable
    _ = s₁.mmu.tableSize p := congrArg Prod.fst hkept
    _ = some data.length := allocateSlot_ok halloc
  have hcontent : ∀ v < data.length, s.mmu.content p v = data[v]? := fun v hv =>
    (congrFun (congrArg Prod.snd hlast) v).trans (hdata v hv)
  exact ⟨hcontent, readSegment_eq (run_inv hP hN h₂ after) htable hcontent⟩

theorem readSegment_after_others_resident :
    (((machine fifoReplacement).run (init (Mmu.init fifoReplacement (.ofSize 2) fun _ => 0) 4)
      [.allocateSlot 1 1, .loadSegment 1 [{ code := .halt }], .allocateSlot 2 1]).readSegment 1).1 =
        .ok [{ code := .halt }] := by
  have hread := readSegment_after_others .fifo (.ofSize 2) (by decide) (fun _ => 0) 4 [] []
    [.allocateSlot 2 1] 1 [{ code := .halt }] rfl (by simp) rfl (by decide)
  exact hread.2

/-- With one frame the allocation of the second process evicts the only page of the first. -/
theorem readSegment_evicted :
    let s := init (Mmu.init fifoReplacement (.ofSize 1) fun _ => 0) 4
    let s₁ := s.allocateSlot 1 1
    let s₂ := s₁.2.loadSegment 1 [{ code := .halt }]
    let s₃ := s₂.2.allocateSlot 2 1
    s₁.1.isOk ∧ s₂.1.isOk ∧ s₃.1.isOk ∧ (s₃.2.readSegment 1).1 ≠ .ok [{ code := .halt }] := by
  exact ⟨rfl, rfl, rfl, nofun⟩

end VirtualMemory
end Contur
