import Contur.Mmu
import Contur.Recency

/-!
# The log of the memory management unit

What the operations of the unit do to frames, in the order in which they do it: a
page is mapped onto a frame, the frame of a page is read or written, and the policy
is asked for a victim in some state for the sake of some page table. The log of a
run is not part of the state of the unit; it is read off the operations along the
paths that they take.
-/

namespace Contur
open Transition

namespace Mmu
variable {P : ReplacementPolicy}

inductive Event (P : ReplacementPolicy) where
  | loaded (frame : FrameId)
  | accessed (frame : FrameId)
  | asked (s : Mmu P) (table : PageTable)

/-- The policy is asked when `allocateFrame` returns no frame. -/
def askEvents (s : Mmu P) (pid : ProcessId) (table : PageTable) : List (Event P) :=
  if (s.allocateFrame pid).1 = invalidFrame then [.asked (s.allocateFrame pid).2 table] else []

def pageEvents (s : Mmu P) (pid : ProcessId) (page : ℕ) : ℕ → List (Event P)
  | 0 => []
  | n + 1 =>
    match s.pageTables pid with
    | none => []
    | some table =>
      let obtained := s.obtainFrame pid table
      s.askEvents pid table ++
        -- the page loop ends here without a frame
        if obtained.1 = invalidFrame then []
        else .loaded obtained.1 ::
          pageEvents ((obtained.2.mapPage pid page obtained.1).onLoad obtained.1) pid (page + 1) n

def allocateEvents (s : Mmu P) (pid : ProcessId) (pageCount : ℕ) : List (Event P) :=
  if pageCount = 0 then []
  else
    match s.pageTables pid with
    | some _ => []
    | none => (s.setTable pid (PageTable.ofCount pageCount)).pageEvents pid 0 pageCount

def accessEvents (s : Mmu P) (pid : ProcessId) (virtualAddress : MemoryAddress) : List (Event P) :=
  match s.pageTables pid with
  | none => []
  | some table =>
    match table.translate virtualAddress with
    | .error _ => []
    | .ok frame => [.accessed frame]

def swapInEvents (s : Mmu P) (pid : ProcessId) (virtualAddress : MemoryAddress) : List (Event P) :=
  match s.pageTables pid with
  | none => []
  | some table =>
    match table.getEntry virtualAddress with
    | .error _ => []
    | .ok entry =>
      if entry.present then []
      else
        let frame := (s.obtainFrameForSwapIn pid table).1
        s.askEvents pid table ++ if frame = invalidFrame then [] else [.loaded frame]

def events (s : Mmu P) : Op → List (Event P)
  | .allocate p k => s.allocateEvents p k
  | .deallocate _ => []
  | .read p v => s.accessEvents p v
  | .write p v _ => s.accessEvents p v
  | .swapIn p v => s.swapInEvents p v
  | .swapOut _ _ => []

def log (s : Mmu P) (ops : List Op) : List (Event P) :=
  ((machine P).steps s ops).flatMap fun step => step.1.events step.2

namespace Event

/-- The frames in the order in which pages were mapped onto them. -/
def loads (log : List (Event P)) : List FrameId :=
  log.filterMap fun
    | .loaded frame => some frame
    | _ => none

/-- The frames in the order in which they were loaded, read or written. -/
def touches (log : List (Event P)) : List FrameId :=
  log.filterMap fun
    | .loaded frame => some frame
    | .accessed frame => some frame
    | .asked _ _ => none

@[simp] theorem loads_append (log log' : List (Event P)) :
    loads (log ++ log') = loads log ++ loads log' := List.filterMap_append

@[simp] theorem loads_loaded (f : FrameId) : loads [(.loaded f : Event P)] = [f] := rfl

@[simp] theorem loads_accessed (f : FrameId) : loads [(.accessed f : Event P)] = [] := rfl

@[simp] theorem loads_asked (s : Mmu P) (t : PageTable) : loads [.asked s t] = [] := rfl

@[simp] theorem touches_append (log log' : List (Event P)) :
    touches (log ++ log') = touches log ++ touches log' := List.filterMap_append

@[simp] theorem touches_loaded (f : FrameId) : touches [(.loaded f : Event P)] = [f] := rfl

@[simp] theorem touches_accessed (f : FrameId) : touches [(.accessed f : Event P)] = [f] := rfl

@[simp] theorem touches_asked (s : Mmu P) (t : PageTable) : touches [.asked s t] = [] := rfl

end Event

def owned (s : Mmu P) : Set FrameId := {f | (s.frameOwners f).isSome}

def victim (s : Mmu P) (table : PageTable) : FrameId :=
  (P.selectVictim s.replacementPolicy table).1

end Mmu
end Contur
