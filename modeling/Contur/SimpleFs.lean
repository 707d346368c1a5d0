import Mathlib.Algebra.Group.Nat.Defs
import Mathlib.Data.Char
import Mathlib.Data.List.AList
import Mathlib.Data.List.Lex
import Mathlib.Data.UInt
import Mathlib.Logic.Function.Basic
import Contur.BlockFile
import Contur.Transition
import Contur.Types

/-!
# The file system

Inodes live in one table; a directory maps names to inode numbers, a file lists
the disk blocks that hold its bytes. Blocks come from a bitmap allocator and are
wiped when a file gives them back. Inode numbers are handed out by a 32-bit counter
that wraps around, times by a 64-bit one; a number that is taken is not given to a
second node. Names and paths are lists of characters.

A call whose behaviour is undefined answers `none`, and the model does not follow it
further. There are three such places: the copy loops of `writeToNode` and
`readFromNode` index the block list and the disk without a check; the counter of the
file descriptors is signed and has no value after its last one; and `open` and `mkdir`
use the iterator of the parent after the new node went into the hash table, which is
invalid when that insertion rehashes. The table rehashes when it holds as many nodes
as it has buckets. How many buckets it has after the root was inserted is up to the
implementation, and a parameter here.
-/

namespace Contur
open Function (update)
open Transition

abbrev InodeId := ℕ
abbrev Byte := UInt8
abbrev Name := List Char

def rootInodeId : InodeId := 1

structure BlockAllocator where
  freeBitmap : List Bool
  freeCount : ℕ
  deriving DecidableEq, Repr

namespace BlockAllocator

def ofTotal (totalBlocks : ℕ) : BlockAllocator := ⟨List.replicate totalBlocks true, totalBlocks⟩

def allocate (a : BlockAllocator) : Result ℕ × BlockAllocator :=
  if a.freeCount = 0 then (.error .outOfMemory, a)
  else
    match a.freeBitmap.findIdx? id with
    | none => (.error .outOfMemory, a)
    | some i => (.ok i, ⟨a.freeBitmap.set i false, a.freeCount - 1⟩)

def free (a : BlockAllocator) (blockIndex : ℕ) : Result Unit × BlockAllocator :=
  match a.freeBitmap[blockIndex]? with
  | none => (.error .invalidAddress, a)
  | some true => (.error .invalidState, a)
  | some false => (.ok (), ⟨a.freeBitmap.set blockIndex true, a.freeCount + 1⟩)

end BlockAllocator

abbrev OpenMode := BitVec 8

namespace OpenMode
def read : OpenMode := 1
def write : OpenMode := 2
def create : OpenMode := 4
def truncate : OpenMode := 8
def append : OpenMode := 16
end OpenMode

def hasOpenMode (value flag : OpenMode) : Bool := value &&& flag != 0

structure OpenFileState where
  inodeId : InodeId
  offset : ℕ
  mode : OpenMode
  deriving DecidableEq, Repr

abbrev FileDescriptor := ℤ

structure FileDescriptorTable where
  entries : FileDescriptor → Option OpenFileState := fun _ => none
  nextFd : FileDescriptor := 0

namespace FileDescriptorTable

/-- The counter is a 32-bit integer; `nextFd++` has no value at the largest one. -/
def «open» (t : FileDescriptorTable) (state : OpenFileState) :
    Option (FileDescriptor × FileDescriptorTable) :=
  if t.nextFd = 2 ^ 31 - 1 then none
  else some (t.nextFd, {
    entries := if (t.entries t.nextFd).isSome then t.entries
      else update t.entries t.nextFd (some state)
    nextFd := t.nextFd + 1 })

def close (t : FileDescriptorTable) (fd : FileDescriptor) : Result Unit × FileDescriptorTable :=
  match t.entries fd with
  | none => (.error .notFound, t)
  | some _ => (.ok (), { t with entries := update t.entries fd none })

def set (t : FileDescriptorTable) (fd : FileDescriptor) (state : OpenFileState) :
    FileDescriptorTable :=
  { t with entries := update t.entries fd (some state) }

end FileDescriptorTable

inductive InodeType where
  | file
  | directory
  deriving DecidableEq, Repr

structure Inode where
  id : InodeId
  type : InodeType := .file
  size : ℕ := 0
  blocks : List ℕ := []
  parent : Option InodeId := none
  createdAt : Tick := 0
  modifiedAt : Tick := 0
  deriving DecidableEq, Repr

structure Node where
  inode : Inode
  children : AList (fun _ : Name => InodeId) := ∅

structure InodeInfo where
  id : InodeId
  type : InodeType
  size : ℕ
  blockCount : ℕ
  createdAt : Tick
  modifiedAt : Tick
  deriving DecidableEq, Repr

structure DirectoryEntry where
  name : Name
  inodeId : InodeId
  type : InodeType
  deriving DecidableEq, Repr

def splitPath : List Char → Result (List Name)
  | '/' :: rest =>
    -- repeated and trailing slashes are skipped
    let tokens := (rest.splitOn '/').filter (· ≠ [])
    if tokens.any (fun token => token = [] || token = ['.'] || token = ['.', '.']) then
      .error .invalidArgument
    else .ok tokens
  | _ => .error .invalidArgument

structure SimpleFs where
  blockSize : ℕ
  disk : List (List Byte)
  allocator : BlockAllocator
  fdTable : FileDescriptorTable
  nodes : InodeId → Option Node
  nodeCount : ℕ
  bucketCount : ℕ
  nextInodeId : InodeId
  tick : Tick

namespace SimpleFs

def init (totalBlocks blockSize bucketCount : ℕ) : SimpleFs where
  blockSize := max 1 blockSize
  disk := List.replicate (max 1 totalBlocks) (List.replicate (max 1 blockSize) 0)
  allocator := .ofTotal (max 1 totalBlocks)
  fdTable := {}
  nodes := update (fun _ => none) rootInodeId
    (some { inode := { id := rootInodeId, type := .directory } })
  nodeCount := 1
  bucketCount := bucketCount
  nextInodeId := rootInodeId + 1
  tick := 0

def setNode (s : SimpleFs) (id : InodeId) (node : Node) : SimpleFs :=
  { s with nodes := update s.nodes id (some node) }

@[simp] theorem nodes_setNode (s : SimpleFs) (id : InodeId) (node : Node) :
    (s.setNode id node).nodes id = some node := Function.update_self ..

/-- The node enters the table unless its number is taken. -/
def emplace (s : SimpleFs) (id : InodeId) (node : Node) : SimpleFs :=
  if (s.nodes id).isSome then s
  else { s with nodes := update s.nodes id (some node), nodeCount := s.nodeCount + 1 }

/-- Inserting the number needs more buckets than there are, for a load of one node each. -/
def rehashes (s : SimpleFs) (id : InodeId) : Bool :=
  decide (s.bucketCount < s.nodeCount + 1) && (s.nodes id).isNone

def erase (s : SimpleFs) (id : InodeId) : SimpleFs :=
  { s with nodes := update s.nodes id none, nodeCount := s.nodeCount - 1 }

def nextTick (s : SimpleFs) : Tick := (s.tick + 1) % 2 ^ 64

def descend (s : SimpleFs) : InodeId → List Name → Result InodeId
  | current, [] => .ok current
  | current, token :: tokens =>
    match s.nodes current with
    | none => .error .notFound
    | some node =>
      if node.inode.type ≠ .directory then .error .notFound
      else
        match node.children.lookup token with
        | none => .error .notFound
        | some child => descend s child tokens

def resolvePath (s : SimpleFs) (path : List Char) : Result InodeId :=
  match splitPath path with
  | .error e => .error e
  | .ok tokens => s.descend rootInodeId tokens

def resolveParent (s : SimpleFs) (path : List Char) : Result (InodeId × Name) :=
  match splitPath path with
  | .error e => .error e
  | .ok tokens =>
    match tokens.getLast? with
    | none => .error .invalidArgument
    | some name =>
      match s.descend rootInodeId tokens.dropLast with
      | .error e => .error e
      | .ok parent => .ok (parent, name)

def wipe (s : SimpleFs) (blockIndex : ℕ) : SimpleFs :=
  { s with disk := s.disk.set blockIndex (List.replicate s.blockSize 0) }

def growBlocks (s : SimpleFs) (blocks : List ℕ) : ℕ → Result Unit × SimpleFs × List ℕ
  | 0 => (.ok (), s, blocks)
  | n + 1 =>
    match s.allocator.allocate with
    | (.error e, allocator) => (.error e, { s with allocator := allocator }, blocks)
    | (.ok block, allocator) =>
      growBlocks { s with allocator := allocator } (blocks ++ [block]) n

def shrinkBlocks (s : SimpleFs) (blocks : List ℕ) : ℕ → Result Unit × SimpleFs × List ℕ
  | 0 => (.ok (), s, blocks)
  | n + 1 =>
    match blocks.getLast? with
    | none => (.ok (), s, blocks)
    | some block =>
      match s.allocator.free block with
      | (.error e, allocator) => (.error e, { s with allocator := allocator }, blocks)
      | (.ok _, allocator) =>
        shrinkBlocks ({ s with allocator := allocator }.wipe block) blocks.dropLast n

def requiredBlocks (s : SimpleFs) (requiredBytes : ℕ) : ℕ :=
  if requiredBytes = 0 then 0 else (requiredBytes + s.blockSize - 1) / s.blockSize

def ensureFileBlocks (s : SimpleFs) (blocks : List ℕ) (requiredBytes : ℕ) :
    Result Unit × SimpleFs × List ℕ :=
  let required := s.requiredBlocks requiredBytes
  match s.growBlocks blocks (required - blocks.length) with
  | (.error e, s, blocks) => (.error e, s, blocks)
  | (.ok _, s, blocks) => s.shrinkBlocks blocks (blocks.length - required)

/-- The copy loop of `writeToNode`: the rest of the data goes to the absolute offset. Each round
copies at least one byte, so as many rounds as bytes are enough. -/
def writeChunks (blockSize : ℕ) (blocks : List ℕ) :
    ℕ → List (List Byte) → ℕ → List Byte → Option (List (List Byte))
  | _, disk, _, [] => some disk
  | 0, _, _, _ :: _ => none
  | rounds + 1, disk, absolute, byte :: bytes =>
    let data := byte :: bytes
    let blockSlot := absolute / blockSize
    let blockOffset := absolute % blockSize
    let chunk := min (blockSize - blockOffset) data.length
    match blocks[blockSlot]? with
    | none => none
    | some diskBlock =>
      match BlockFile.copyInto disk diskBlock blockOffset (data.take chunk) with
      | none => none
      | some disk => writeChunks blockSize blocks rounds disk (absolute + chunk) (data.drop chunk)

def readChunks (blockSize : ℕ) (blocks : List ℕ) (disk : List (List Byte)) :
    ℕ → ℕ → ℕ → Option (List Byte)
  | _, _, 0 => some []
  | 0, _, _ + 1 => none
  | rounds + 1, absolute, n + 1 =>
    let blockSlot := absolute / blockSize
    let blockOffset := absolute % blockSize
    let chunk := min (blockSize - blockOffset) (n + 1)
    match blocks[blockSlot]? with
    | none => none
    | some diskBlock =>
      match BlockFile.copyFrom disk diskBlock blockOffset chunk with
      | none => none
      | some bytes =>
        match readChunks blockSize blocks disk rounds (absolute + chunk) (n + 1 - chunk) with
        | none => none
        | some rest => some (bytes ++ rest)

def writeToNode (s : SimpleFs) (id : InodeId) (node : Node) (offset : ℕ) (data : List Byte) :
    Option (Result ℕ) × SimpleFs :=
  if data.isEmpty then (some (.ok 0), s)
  else
    let endOffset := offset + data.length
    match s.ensureFileBlocks node.inode.blocks (max node.inode.size endOffset) with
    | (.error e, s, blocks) =>
      (some (.error e), s.setNode id { node with inode := { node.inode with blocks := blocks } })
    | (.ok _, s, blocks) =>
      match writeChunks s.blockSize blocks data.length s.disk offset data with
      | none => (none, s.setNode id { node with inode := { node.inode with blocks := blocks } })
      | some disk =>
        (some (.ok data.length), { s with disk := disk, tick := s.nextTick }.setNode id
          { node with
            inode := { node.inode with
              blocks := blocks
              size := max node.inode.size endOffset
              modifiedAt := s.nextTick } })

/-- The bytes that are copied to a buffer of the given size; their number is the result. -/
def readFromNode (s : SimpleFs) (node : Node) (offset bufferSize : ℕ) : Option (List Byte) :=
  if bufferSize = 0 then some []
  else if node.inode.size ≤ offset then some []
  else
    let totalRead := min bufferSize (node.inode.size - offset)
    readChunks s.blockSize node.inode.blocks s.disk totalRead offset totalRead

/-- Adds an inode below the parent of the path, as `open` and `mkdir` do. -/
def createEntry (s : SimpleFs) (path : List Char) (type : InodeType) :
    Option (Result InodeId) × SimpleFs :=
  match s.resolveParent path with
  | .error e => (some (.error e), s)
  | .ok (parentId, name) =>
    match s.nodes parentId with
    | none => (some (.error .notFound), s)
    | some parent =>
      if parent.inode.type ≠ .directory then (some (.error .notFound), s)
      else if name ∈ parent.children then (some (.error .alreadyExists), s)
      else
        let newId := s.nextInodeId
        -- the child map and the times of the parent are reached through its old iterator
        if s.rehashes newId then (none, s)
        else
          let createdAt := s.nextTick
          let node : Node := { inode := {
            id := newId, type := type, parent := some parentId
            createdAt := createdAt, modifiedAt := createdAt } }
          let children := parent.children.insert name newId
          let s := { s with
            nextInodeId := (newId + 1) % 2 ^ 32, tick := createdAt }.emplace newId node
          (some (.ok newId), { s with tick := s.nextTick }.setNode parentId
            { inode := { parent.inode with
                size := children.entries.length, modifiedAt := s.nextTick }
              children := children })

def openFd (s opened : SimpleFs) (state : OpenFileState) :
    Option (Result FileDescriptor) × SimpleFs :=
  match opened.fdTable.open state with
  | none => (none, s)
  | some (fd, fdTable) => (some (.ok fd), { opened with fdTable := fdTable })

def openNode (s : SimpleFs) (id : InodeId) (mode : OpenMode) :
    Option (Result FileDescriptor) × SimpleFs :=
  match s.nodes id with
  | none => (some (.error .notFound), s)
  | some node =>
    if node.inode.type ≠ .file then (some (.error .invalidState), s)
    else if hasOpenMode mode .truncate then
      match s.ensureFileBlocks node.inode.blocks 0 with
      | (.error e, s, blocks) =>
        (some (.error e), s.setNode id { node with inode := { node.inode with blocks := blocks } })
      | (.ok _, emptied, blocks) =>
        let opened := { emptied with tick := emptied.nextTick }.setNode id
          { node with inode := { node.inode with
              blocks := blocks, size := 0, modifiedAt := emptied.nextTick } }
        s.openFd opened ⟨node.inode.id, 0, mode⟩
    else
      let offset := if hasOpenMode mode .append then node.inode.size else 0
      s.openFd s ⟨node.inode.id, offset, mode⟩

def «open» (s : SimpleFs) (path : List Char) (mode : OpenMode) :
    Option (Result FileDescriptor) × SimpleFs :=
  if !hasOpenMode mode .read && !hasOpenMode mode .write then (some (.error .invalidArgument), s)
  else
    match s.resolvePath path with
    | .ok id => s.openNode id mode
    | .error e =>
      if !hasOpenMode mode .create then (some (.error e), s)
      else
        match s.createEntry path .file with
        | (none, s) => (none, s)
        | (some (.error e), s) => (some (.error e), s)
        | (some (.ok id), s) => s.openNode id mode

def read (s : SimpleFs) (fd : FileDescriptor) (bufferSize : ℕ) :
    Option (Result (List Byte)) × SimpleFs :=
  match s.fdTable.entries fd with
  | none => (some (.error .notFound), s)
  | some state =>
    if !hasOpenMode state.mode .read then (some (.error .permissionDenied), s)
    else
      match s.nodes state.inodeId with
      | none => (some (.error .notFound), s)
      | some node =>
        match s.readFromNode node state.offset bufferSize with
        | none => (none, s)
        | some bytes =>
          (some (.ok bytes), { s with
            fdTable := s.fdTable.set fd { state with offset := state.offset + bytes.length } })

def write (s : SimpleFs) (fd : FileDescriptor) (data : List Byte) : Option (Result ℕ) × SimpleFs :=
  match s.fdTable.entries fd with
  | none => (some (.error .notFound), s)
  | some state =>
    if !hasOpenMode state.mode .write then (some (.error .permissionDenied), s)
    else
      match s.nodes state.inodeId with
      | none => (some (.error .notFound), s)
      | some node =>
        let offset := if hasOpenMode state.mode .append then node.inode.size else state.offset
        match s.writeToNode state.inodeId node offset data with
        | (none, s) => (none, s)
        | (some (.error e), s) => (some (.error e), s)
        | (some (.ok written), s) =>
          (some (.ok written), { s with
            fdTable := s.fdTable.set fd { state with offset := offset + written } })

def close (s : SimpleFs) (fd : FileDescriptor) : Result Unit × SimpleFs :=
  let closed := s.fdTable.close fd
  (closed.1, { s with fdTable := closed.2 })

def mkdir (s : SimpleFs) (path : List Char) : Option (Result Unit) × SimpleFs :=
  match s.createEntry path .directory with
  | (none, s) => (none, s)
  | (some (.error e), s) => (some (.error e), s)
  | (some (.ok _), s) => (some (.ok ()), s)

def freeBlocks (s : SimpleFs) : List ℕ → Result Unit × SimpleFs
  | [] => (.ok (), s)
  | block :: blocks =>
    match s.allocator.free block with
    | (.error e, allocator) => (.error e, { s with allocator := allocator })
    | (.ok _, allocator) => freeBlocks ({ s with allocator := allocator }.wipe block) blocks

def remove (s : SimpleFs) (path : List Char) : Result Unit × SimpleFs :=
  match s.resolveParent path with
  | .error e => (.error e, s)
  | .ok (parentId, name) =>
    match s.nodes parentId with
    | none => (.error .notFound, s)
    | some parent =>
      if parent.inode.type ≠ .directory then (.error .notFound, s)
      else
        match parent.children.lookup name with
        | none => (.error .notFound, s)
        | some childId =>
          match s.nodes childId with
          | none => (.error .notFound, s)
          | some node =>
            if node.inode.id = rootInodeId then (.error .permissionDenied, s)
            else if node.inode.type = .directory ∧ ¬ node.children.entries.isEmpty then
              (.error .invalidState, s)
            else
              let freed := if node.inode.type = .file then s.freeBlocks node.inode.blocks
                else (.ok (), s)
              match freed with
              | (.error e, s) => (.error e, s)
              | (.ok _, s) =>
                let children := parent.children.erase name
                let s := s.erase childId
                (.ok (), { s with tick := s.nextTick }.setNode parentId
                  { inode := { parent.inode with
                      size := children.entries.length, modifiedAt := s.nextTick }
                    children := children })

def listDir (s : SimpleFs) (path : List Char) : Result (List DirectoryEntry) :=
  match s.resolvePath path with
  | .error e => .error e
  | .ok id =>
    match s.nodes id with
    | none => .error .notFound
    | some node =>
      if node.inode.type ≠ .directory then .error .invalidState
      else
        let entries := node.children.entries.filterMap fun entry =>
          (s.nodes entry.2).map fun child => ⟨entry.1, entry.2, child.inode.type⟩
        .ok (entries.mergeSort fun lhs rhs => decide (lhs.name ≤ rhs.name))

def stat (s : SimpleFs) (path : List Char) : Result InodeInfo :=
  match s.resolvePath path with
  | .error e => .error e
  | .ok id =>
    match s.nodes id with
    | none => .error .notFound
    | some node =>
      let inode := node.inode
      .ok ⟨inode.id, inode.type, inode.size, inode.blocks.length, inode.createdAt, inode.modifiedAt⟩

inductive Op where
  | open (path : List Char) (mode : OpenMode)
  | read (fd : FileDescriptor) (bufferSize : ℕ)
  | write (fd : FileDescriptor) (data : List Byte)
  | close (fd : FileDescriptor)
  | mkdir (path : List Char)
  | remove (path : List Char)
  | listDir (path : List Char)
  | stat (path : List Char)
  deriving DecidableEq, Repr

inductive Response where
  | descriptor (r : Result FileDescriptor)
  | bytes (r : Result (List Byte))
  | count (r : Result ℕ)
  | unit (r : Result Unit)
  | entries (r : Result (List DirectoryEntry))
  | info (r : Result InodeInfo)
  deriving DecidableEq, Repr

def exec (s : SimpleFs) : Op → Option Response × SimpleFs
  | .open path mode => ((s.open path mode).1.map .descriptor, (s.open path mode).2)
  | .read fd n => ((s.read fd n).1.map .bytes, (s.read fd n).2)
  | .write fd data => ((s.write fd data).1.map .count, (s.write fd data).2)
  | .close fd => (some (.unit (s.close fd).1), (s.close fd).2)
  | .mkdir path => ((s.mkdir path).1.map .unit, (s.mkdir path).2)
  | .remove path => (some (.unit (s.remove path).1), (s.remove path).2)
  | .listDir path => (some (.entries (s.listDir path)), s)
  | .stat path => (some (.info (s.stat path)), s)

def machine : Machine SimpleFs Op (Option Response) := ⟨exec⟩

end SimpleFs
end Contur
