import Mathlib.Algebra.Group.Nat.Defs
import Mathlib.Data.List.Dedup
import Mathlib.Logic.Function.Basic
import Contur.PhysicalMemory
import Contur.Replacement
import Contur.Transition

/-!
# The memory management unit

The state holds the five tables of the source: page tables, free frames, frame
owners, swap space and the state of the replacement policy, next to the memory
they are about. The free frames are a hash set whose iteration order is not
specified: `order` is an arbitrary stream of numbers, and each frame that is
handed out is the element of the free list that the next number points at.

`allocate` and `swapIn` obtain a frame in the same way, but only `allocate`
refuses a victim of the calling process. `at` on the page tables of an owner
never throws because every owner has a page table; the model leaves the state
alone there.
-/

namespace Contur
open Function (update)
open Transition

structure SwapKey where
  processId : ProcessId
  virtualPage : ℕ
  deriving DecidableEq, Repr

structure Mmu (P : ReplacementPolicy) where
  memory : PhysicalMemory
  replacementPolicy : P.State
  pageTables : ProcessId → Option PageTable
  freeFrames : List FrameId
  frameOwners : FrameId → Option ProcessId
  swapSpace : SwapKey → Option Block
  totalFrameCount : ℕ
  order : ℕ → ℕ

namespace Mmu
variable {P : ReplacementPolicy}

/-- The constructor: every frame of the memory is free. The cast of a cell number to a 32-bit
frame number wraps around. -/
def init (P : ReplacementPolicy) (memory : PhysicalMemory) (order : ℕ → ℕ) : Mmu P where
  memory := memory
  replacementPolicy := P.init
  pageTables _ := none
  freeFrames := ((List.range memory.size).map fun i => i % 2 ^ 32).dedup
  frameOwners _ := none
  swapSpace _ := none
  totalFrameCount := memory.size
  order := order

def allocateFrame (s : Mmu P) (pid : ProcessId) : FrameId × Mmu P :=
  if s.freeFrames.isEmpty then (invalidFrame, s)
  else
    let frame := s.freeFrames.getD (s.order 0 % s.freeFrames.length) invalidFrame
    (frame, { s with
      freeFrames := s.freeFrames.erase frame
      frameOwners := update s.frameOwners frame (some pid)
      order := fun n => s.order (n + 1) })

def freeFrame (s : Mmu P) (frame : FrameId) : Mmu P :=
  { s with
    frameOwners := update s.frameOwners frame none
    freeFrames := s.freeFrames.insert frame }

def setTable (s : Mmu P) (pid : ProcessId) (table : Option PageTable) : Mmu P :=
  { s with pageTables := update s.pageTables pid table }

def onAccess (s : Mmu P) (frame : FrameId) : Mmu P :=
  { s with replacementPolicy := P.onAccess s.replacementPolicy frame }

def onLoad (s : Mmu P) (frame : FrameId) : Mmu P :=
  { s with replacementPolicy := P.onLoad s.replacementPolicy frame }

def selectVictim (s : Mmu P) (table : PageTable) : FrameId × Mmu P :=
  let choice := P.selectVictim s.replacementPolicy table
  (choice.1, { s with replacementPolicy := choice.2 })

def read (s : Mmu P) (pid : ProcessId) (virtualAddress : MemoryAddress) : Result Block × Mmu P :=
  match s.pageTables pid with
  | none => (.error .invalidPid, s)
  | some table =>
    match table.translate virtualAddress with
    | .error e => (.error e, s)
    | .ok frame =>
      (s.memory.read frame,
        (s.setTable pid (table.setReferenced virtualAddress true).2).onAccess frame)

def write (s : Mmu P) (pid : ProcessId) (virtualAddress : MemoryAddress) (block : Block) :
    Result Unit × Mmu P :=
  match s.pageTables pid with
  | none => (.error .invalidPid, s)
  | some table =>
    match table.translate virtualAddress with
    | .error e => (.error e, s)
    | .ok frame =>
      let referenced := (table.setReferenced virtualAddress true).2
      let s := (s.setTable pid (referenced.setDirty virtualAddress true).2).onAccess frame
      let written := s.memory.write frame block
      (written.1, { s with memory := written.2 })

/-- The eviction loop: the block of the frame goes to the swap space under the first page of
the owner that is present on the frame, and that page is unmapped. -/
def saveToSwap (s : Mmu P) (frame : FrameId) : Mmu P :=
  match s.frameOwners frame with
  | none => s
  | some owner =>
    match s.memory.read frame, s.pageTables owner with
    | .ok block, some table =>
      match table.findPage frame with
      | none => s
      | some page =>
        { s with
          swapSpace := update s.swapSpace ⟨owner, page⟩ (some block)
          pageTables := update s.pageTables owner (some (table.unmap page).2) }
    | _, _ => s

def evict (s : Mmu P) (frame : FrameId) (pid : ProcessId) : Mmu P :=
  let s := s.saveToSwap frame
  { s with frameOwners := update s.frameOwners frame (some pid) }

/-- The frame for the next page of `allocate`; the frame is invalid when memory is exhausted. -/
def obtainFrame (s : Mmu P) (pid : ProcessId) (table : PageTable) : FrameId × Mmu P :=
  let (frame, s) := s.allocateFrame pid
  if frame = invalidFrame then
    let (victim, s) := s.selectVictim table
    if victim ≠ invalidFrame ∧ s.frameOwners victim = some pid then
      -- the policy proposed a page of the process itself: it is enqueued again and refused
      (invalidFrame, s.onLoad victim)
    else if victim = invalidFrame then (invalidFrame, s)
    else (victim, s.evict victim pid)
  else (frame, s)

def mapPage (s : Mmu P) (pid : ProcessId) (page : ℕ) (frame : FrameId) : Mmu P :=
  match s.pageTables pid with
  | none => s
  | some table => s.setTable pid (table.map page frame).2

def freeEntries (s : Mmu P) : List PageTableEntry → Mmu P
  | [] => s
  | entry :: entries =>
    freeEntries (if entry.present then s.freeFrame entry.frameId else s) entries

def rollback (s : Mmu P) (pid : ProcessId) (page : ℕ) : Mmu P :=
  match s.pageTables pid with
  | none => s
  | some table => (s.freeEntries (table.entries.take page)).setTable pid none

def allocatePages (s : Mmu P) (pid : ProcessId) (page : ℕ) : ℕ → Result MemoryAddress × Mmu P
  | 0 => (.ok 0, s)
  | n + 1 =>
    match s.pageTables pid with
    | none => (.ok 0, s)
    | some table =>
      let (frame, s) := s.obtainFrame pid table
      if frame = invalidFrame then (.error .outOfMemory, s.rollback pid page)
      else allocatePages ((s.mapPage pid page frame).onLoad frame) pid (page + 1) n

def allocate (s : Mmu P) (pid : ProcessId) (pageCount : ℕ) : Result MemoryAddress × Mmu P :=
  if pageCount = 0 then (.error .invalidAddress, s)
  else
    match s.pageTables pid with
    | some _ => (.error .invalidPid, s)
    | none => (s.setTable pid (PageTable.ofCount pageCount)).allocatePages pid 0 pageCount

def deallocate (s : Mmu P) (pid : ProcessId) : Result Unit × Mmu P :=
  match s.pageTables pid with
  | none => (.error .invalidPid, s)
  | some table =>
    let s := s.freeEntries table.entries
    let s := { s with swapSpace := fun key =>
      if key.processId = pid then none else s.swapSpace key }
    (.ok (), s.setTable pid none)

def restore (s : Mmu P) (pid : ProcessId) (page : ℕ) (frame : FrameId) : Mmu P :=
  match s.swapSpace ⟨pid, page⟩ with
  | none => s
  | some block =>
    { s with
      memory := (s.memory.write frame block).2
      swapSpace := update s.swapSpace ⟨pid, page⟩ none }

def obtainFrameForSwapIn (s : Mmu P) (pid : ProcessId) (table : PageTable) : FrameId × Mmu P :=
  let (frame, s) := s.allocateFrame pid
  if frame = invalidFrame then
    let (victim, s) := s.selectVictim table
    if victim = invalidFrame then (invalidFrame, s) else (victim, s.evict victim pid)
  else (frame, s)

def swapIn (s : Mmu P) (pid : ProcessId) (virtualAddress : MemoryAddress) : Result Unit × Mmu P :=
  match s.pageTables pid with
  | none => (.error .invalidPid, s)
  | some table =>
    match table.getEntry virtualAddress with
    | .error e => (.error e, s)
    | .ok entry =>
      if entry.present then (.ok (), s)
      else
        let (frame, s) := s.obtainFrameForSwapIn pid table
        if frame = invalidFrame then (.error .outOfMemory, s)
        else
          let s := s.restore pid virtualAddress frame
          (.ok (), (s.mapPage pid virtualAddress frame).onLoad frame)

def swapOut (s : Mmu P) (pid : ProcessId) (virtualAddress : MemoryAddress) : Result Unit × Mmu P :=
  match s.pageTables pid with
  | none => (.error .invalidPid, s)
  | some table =>
    match table.getEntry virtualAddress with
    | .error e => (.error e, s)
    | .ok entry =>
      if entry.present then
        let s := match s.memory.read entry.frameId with
          | .ok block =>
            { s with swapSpace := update s.swapSpace ⟨pid, virtualAddress⟩ (some block) }
          | .error _ => s
        let s := s.setTable pid (table.unmap virtualAddress).2
        (.ok (), s.freeFrame entry.frameId)
      else (.ok (), s)

inductive Op where
  | allocate (pid : ProcessId) (pageCount : ℕ)
  | deallocate (pid : ProcessId)
  | read (pid : ProcessId) (virtualAddress : MemoryAddress)
  | write (pid : ProcessId) (virtualAddress : MemoryAddress) (block : Block)
  | swapIn (pid : ProcessId) (virtualAddress : MemoryAddress)
  | swapOut (pid : ProcessId) (virtualAddress : MemoryAddress)
  deriving DecidableEq, Repr

inductive Response where
  | address (r : Result MemoryAddress)
  | block (r : Result Block)
  | unit (r : Result Unit)
  deriving DecidableEq, Repr

def exec (s : Mmu P) : Op → Response × Mmu P
  | .allocate p k => ((s.allocate p k).1 |> .address, (s.allocate p k).2)
  | .deallocate p => ((s.deallocate p).1 |> .unit, (s.deallocate p).2)
  | .read p v => ((s.read p v).1 |> .block, (s.read p v).2)
  | .write p v b => ((s.write p v b).1 |> .unit, (s.write p v b).2)
  | .swapIn p v => ((s.swapIn p v).1 |> .unit, (s.swapIn p v).2)
  | .swapOut p v => ((s.swapOut p v).1 |> .unit, (s.swapOut p v).2)

def machine (P : ReplacementPolicy) : Machine (Mmu P) Op Response := ⟨exec⟩

def pageCount (s : Mmu P) (p : ProcessId) : ℕ := (s.pageTables p).elim 0 PageTable.pageCount

def frameOf (s : Mmu P) (p : ProcessId) (v : ℕ) : Option FrameId :=
  (s.pageTables p).bind (·.frameAt v)

def mapped (s : Mmu P) : Set FrameId := {f | ∃ p v, s.frameOf p v = some f}

/-- The logical content of a page: the cell of its frame, or its swap entry. -/
def content (s : Mmu P) (p : ProcessId) (v : ℕ) : Option Block :=
  if v < s.pageCount p then
    match s.frameOf p v with
    | some f => s.memory.cells[f]?
    | none => s.swapSpace ⟨p, v⟩
  else none

end Mmu
end Contur
