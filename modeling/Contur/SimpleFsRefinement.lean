import Mathlib.Data.List.Lattice
import Contur.SimpleFsInvariant

/-!
# Files as lists of bytes

The results about whole runs of the file system. Blocks are owned by exactly one
file or free, and free blocks and the ends of files are blank; every access of the
copy loops is in range. Over this the files behave as plain lists of bytes, for
any number of open descriptors.
-/

namespace Contur
open Function (update)
open BlockFile
open Transition

namespace SimpleFs
variable {s : SimpleFs}

theorem inv_init (totalBlocks blockSize bucketCount : ℕ) :
    Inv (init totalBlocks blockSize bucketCount) := by
  have hfile : ∀ i, (init totalBlocks blockSize bucketCount).fileAt i = none := by
    intro i
    by_cases hi : i = rootInodeId
    · simp [fileAt, init, hi]
    · simp [fileAt, init, hi]
  have hblocks : ∀ i, (init totalBlocks blockSize bucketCount).blocksOf i = [] := fun i => by
    simp [blocksOf, hfile]
  have hsize : ∀ i, (init totalBlocks blockSize bucketCount).sizeOf i = 0 :=
    fun i => by simp [sizeOf, hfile]
  have hothers : ∀ i, (init totalBlocks blockSize bucketCount).othersOf i = ∅ := by
    intro i
    ext b
    simp [othersOf, hblocks]
  refine ⟨fun i => ?_, fun i => by simp [hsize], ?_, ?_, by simp [init], fun _ _ => rfl⟩
  · rw [hblocks, hsize, hothers]
    refine ⟨Nat.lt_of_lt_of_le Nat.one_pos (Nat.le_max_left 1 blockSize), ?_, ?_, ?_,
      List.nodup_nil, by simp, ?_, ?_, ?_⟩
    · intro block hblock
      rw [List.eq_of_mem_replicate hblock]
      simp [init]
    · simp [init, BlockAllocator.ofTotal]
    · simp [init, BlockAllocator.ofTotal]
    · intro b
      simp only [init, BlockAllocator.ofTotal, List.getElem?_replicate]
      split_ifs <;> simp
    · intro b hb
      simp only [init, BlockAllocator.ofTotal, List.getElem?_replicate] at hb ⊢
      split_ifs at hb ⊢
      rfl
    · intro i _
      exact byteAt_eq_zero (Nat.zero_le _)
  · intro i node hnode
    by_cases hi : i = rootInodeId
    · subst i
      obtain rfl := Option.some.inj hnode
      rfl
    · simp [init, hi] at hnode
  · intro i hi
    have hi : rootInodeId + 1 ≤ i := hi
    have hne : i ≠ rootInodeId := Nat.ne_of_gt hi
    simp [init, hne]

theorem close_spec (h : Inv s) (fd : FileDescriptor) :
    Inv (s.close fd).2 ∧ ∀ j, (s.close fd).2.content j = s.content j := by
  have hless : ∀ fd', (s.close fd).2.fdTable.entries fd' = none ∨
      (s.close fd).2.fdTable.entries fd' = s.fdTable.entries fd' := by
    intro fd'
    simp only [close, FileDescriptorTable.close]
    split
    · exact Or.inr rfl
    · by_cases hd : fd' = fd
      · exact Or.inl (by simp [hd])
      · exact Or.inr (by simp [hd])
  have hnext : (s.close fd).2.fdTable.nextFd = s.fdTable.nextFd := by
    simp only [close, FileDescriptorTable.close]
    split <;> rfl
  refine ⟨⟨fun i => (h.owned i).of_files rfl rfl rfl, h.enough, h.id_eq, h.fresh, ?_, ?_⟩,
    fun _ => rfl⟩
  · intro fd' state hfd
    rcases hless fd' with hnone | hsame
    · rw [hnone] at hfd
      cases hfd
    · exact h.fd_file fd' state (hsame ▸ hfd)
  · intro fd' hle
    rcases hless fd' with hnone | hsame
    · exact hnone
    · exact hsame.trans (h.fd_fresh fd' (hnext ▸ hle))

theorem mkdir_spec (h : Inv s) (hroom : s.nextInodeId + 1 < 2 ^ 32) (path : List Char) :
    Inv (s.mkdir path).2 ∧
      ∀ j, (s.content j).isSome → (s.mkdir path).2.content j = s.content j := by
  rw [mkdir_state]
  rcases createEntry_spec h hroom path .directory with ⟨r, hr, -⟩ |
    ⟨s', node, he, hinv, -, -, -, -, hothers⟩
  · rw [hr]
    exact ⟨h, fun _ _ => rfl⟩
  · rw [he]
    refine ⟨hinv, fun j hj => hothers j ?_⟩
    rintro rfl
    simp [content, fileAt, h.fresh _ le_rfl] at hj

theorem Inv.removeChild {s' : SimpleFs} {parentId childId : InodeId} {parent node : Node}
    (h : Inv s) (parent' : Node) (hparent : s.nodes parentId = some parent)
    (hdir : parent.inode.type = .directory) (hchild : s.nodes childId = some node)
    (hre : Reblocked s (s.othersOf childId) s')
    (hown : Owned s' (s.othersOf childId) [] 0) (hid : parent'.inode.id = parent.inode.id)
    (hdir' : parent'.inode.type = .directory) (tick : Tick) :
    let t := { s'.erase childId with tick := tick }.setNode parentId parent'
    Inv t ∧ t.content childId = none ∧ ∀ j, j ≠ childId → t.content j = s.content j := by
  intro t
  have hnodes : s'.nodes = s.nodes := by rw [hre.shape]
  have hfds : s'.fdTable = s.fdTable := by rw [hre.shape]
  have hnext : s'.nextInodeId = s.nextInodeId := by rw [hre.shape]
  have hparentT : t.nodes parentId = some parent' := by simp [t, setNode, erase]
  have hrest : ∀ j, j ≠ parentId → j ≠ childId → t.nodes j = s.nodes j := by
    intro j hjp hjc
    simp [t, setNode, erase, hjp, hjc, hnodes]
  have hgone : childId ≠ parentId → t.nodes childId = none := by
    intro hne
    simp [t, setNode, erase, hne]
  have hfileC : t.fileAt childId = none := by
    by_cases hcp : childId = parentId
    · simp [fileAt, hcp, hparentT, hdir']
    · simp [fileAt, hgone hcp]
  have hfile : ∀ j, j ≠ childId → t.fileAt j = s.fileAt j := by
    intro j hj
    by_cases hjp : j = parentId
    · simp [fileAt, hjp, hparentT, hparent, hdir, hdir']
    · simp [fileAt, hrest j hjp hj]
  obtain ⟨howned, henough⟩ := h.local_views (t := t) hre hown (Nat.zero_le _) rfl rfl rfl
    (by
      funext j
      by_cases hj : j = childId
      · subst j
        simp [blocksOf, hfileC]
      · simp [blocksOf, hfile j hj, hj])
    (by
      funext j
      by_cases hj : j = childId
      · subst j
        simp [sizeOf, hfileC]
      · simp [sizeOf, hfile j hj, hj])
  refine ⟨⟨howned, henough, ?_, ?_, ?_, hfds ▸ h.fd_fresh⟩, by simp [content, hfileC], ?_⟩
  · intro j n hn
    by_cases hjp : j = parentId
    · subst j
      obtain rfl : parent' = n := Option.some.inj (hparentT.symm.trans hn)
      exact hid.trans (h.id_eq parentId parent hparent)
    · by_cases hjc : j = childId
      · subst j
        rw [hgone hjp] at hn
        cases hn
      · exact h.id_eq j n ((hrest j hjp hjc).symm.trans hn)
  · intro j hj
    have hnone := h.fresh j (hnext ▸ hj)
    exact (hrest j (ne_of_found hparent hnone) (ne_of_found hchild hnone)).trans hnone
  · intro fd state hfd
    have hfd : s.fdTable.entries fd = some state := hfds ▸ hfd
    obtain ⟨hlt, htype⟩ := h.fd_file fd state hfd
    have hjp := h.fd_ne hfd hparent hdir
    refine ⟨hnext.symm ▸ hlt, fun n hn => ?_⟩
    by_cases hjc : state.inodeId = childId
    · rw [hjc, hgone (hjc ▸ hjp)] at hn
      cases hn
    · exact htype n ((hrest _ hjp hjc).symm.trans hn)
  · intro j hj
    exact Inv.content_others hre rfl rfl hj (hfile j hj)

theorem remove_spec (h : Inv s) (path : List Char) :
    (∃ e, s.remove path = (.error e, s)) ∨
      ∃ i s', s.remove path = (.ok (), s') ∧ Inv s' ∧ s'.content i = none ∧
        ∀ j, j ≠ i → s'.content j = s.content j := by
  unfold remove
  cases s.resolveParent path with
  | error e => exact Or.inl ⟨e, rfl⟩
  | ok target =>
    obtain ⟨parentId, name⟩ := target
    dsimp only
    cases hparent : s.nodes parentId with
    | none => exact Or.inl ⟨_, rfl⟩
    | some parent =>
      dsimp only
      by_cases hdir : parent.inode.type ≠ .directory
      · exact Or.inl ⟨_, if_pos hdir⟩
      rw [if_neg hdir]
      have hdir : parent.inode.type = .directory := not_not.mp hdir
      cases parent.children.lookup name with
      | none => exact Or.inl ⟨_, rfl⟩
      | some childId =>
        dsimp only
        cases hchild : s.nodes childId with
        | none => exact Or.inl ⟨_, rfl⟩
        | some node =>
          dsimp only
          by_cases hroot : node.inode.id = rootInodeId
          · exact Or.inl ⟨_, if_pos hroot⟩
          by_cases hfull : node.inode.type = .directory ∧ ¬ node.children.entries.isEmpty
          · exact Or.inl ⟨_, by rw [if_neg hroot, if_pos hfull]⟩
          rw [if_neg hroot, if_neg hfull]
          have hfreed : ∃ s', (if node.inode.type = .file then s.freeBlocks node.inode.blocks
              else (.ok (), s)) = (.ok (), s') ∧ Owned s' (s.othersOf childId) [] 0 ∧
              Reblocked s (s.othersOf childId) s' := by
            have hown := h.owned childId
            by_cases hf : node.inode.type = .file
            · rw [blocksOf_of_file hchild hf] at hown
              rw [if_pos hf]
              exact freeBlocks_spec hown
            · have hnone : s.fileAt childId = none := by simp [fileAt, hchild, hf]
              rw [if_neg hf]
              refine ⟨s, rfl, ?_, .refl s _⟩
              simpa [blocksOf, sizeOf, hnone] using hown
          obtain ⟨s', heq, hown, hre⟩ := hfreed
          simp only [heq]
          obtain ⟨hinv, hgone, hothers⟩ := h.removeChild
            { inode := { parent.inode with
                size := (parent.children.erase name).entries.length
                modifiedAt := (s'.erase childId).nextTick }
              children := parent.children.erase name }
            hparent hdir hchild hre hown rfl hdir (s'.erase childId).nextTick
          exact Or.inr ⟨childId, _, rfl, hinv, hgone, hothers⟩

@[simp] theorem nextInodeId_ensureFileBlocks (s : SimpleFs) (blocks : List ℕ) (n : ℕ) :
    (s.ensureFileBlocks blocks n).2.1.nextInodeId = s.nextInodeId := by
  obtain ⟨disk, allocator, heq⟩ := ensureFileBlocks_shape s blocks n
  rw [heq]

@[simp] theorem nextInodeId_freeBlocks (s : SimpleFs) (blocks : List ℕ) :
    (s.freeBlocks blocks).2.nextInodeId = s.nextInodeId := by
  obtain ⟨disk, allocator, heq⟩ := freeBlocks_shape s blocks
  rw [heq]

theorem openNode_cases (s : SimpleFs) (i : InodeId) (mode : OpenMode) :
    (∃ e t, s.openNode i mode = (some (.error e), t) ∧ t.nextInodeId = s.nextInodeId ∧
        t.fdTable = s.fdTable) ∨
      ∃ t state, s.openNode i mode = s.openFd t state ∧ t.nextInodeId = s.nextInodeId ∧
        t.fdTable = s.fdTable := by
  unfold openNode
  split
  · exact Or.inl ⟨_, _, rfl, rfl, rfl⟩
  next node _ =>
    split_ifs
    · exact Or.inl ⟨_, _, rfl, rfl, rfl⟩
    · obtain ⟨disk, allocator, hshape⟩ := ensureFileBlocks_shape s node.inode.blocks 0
      split <;> next s₁ blocks heq =>
        rw [heq] at hshape
        obtain rfl : s₁ = { s with disk := disk, allocator := allocator } := hshape
        first
        | exact Or.inl ⟨_, _, rfl, rfl, rfl⟩
        | exact Or.inr ⟨_, _, rfl, rfl, rfl⟩
    · exact Or.inr ⟨_, _, rfl, rfl, rfl⟩
    · exact Or.inr ⟨_, _, rfl, rfl, rfl⟩

@[simp] theorem nextInodeId_openNode (s : SimpleFs) (i : InodeId) (mode : OpenMode) :
    (s.openNode i mode).2.nextInodeId = s.nextInodeId := by
  rcases openNode_cases s i mode with ⟨e, t, heq, hnext, -⟩ | ⟨t, state, heq, hnext, -⟩
  · rw [heq]
    exact hnext
  · rw [heq, openFd]
    split
    · rfl
    · exact hnext

theorem nextInodeId_writeToNode (s : SimpleFs) (i : InodeId) (node : Node) (offset : ℕ)
    (data : List Byte) : (s.writeToNode i node offset data).2.nextInodeId = s.nextInodeId := by
  have hensure := nextInodeId_ensureFileBlocks s node.inode.blocks
    (max node.inode.size (offset + data.length))
  unfold writeToNode
  split_ifs
  · rfl
  · dsimp only
    split
    · next heq =>
      rw [heq] at hensure
      exact hensure
    · next heq =>
      rw [heq] at hensure
      split
      · exact hensure
      · exact hensure

theorem nextInodeId_createEntry (s : SimpleFs) (path : List Char) (type : InodeType) :
    (s.createEntry path type).2.nextInodeId = s.nextInodeId ∨
      (s.createEntry path type).2.nextInodeId = (s.nextInodeId + 1) % 2 ^ 32 := by
  unfold createEntry
  split
  · exact Or.inl rfl
  · split
    · exact Or.inl rfl
    · dsimp only
      split_ifs
      · exact Or.inl rfl
      · exact Or.inl rfl
      · exact Or.inl rfl
      · right
        simp only [emplace, setNode]
        split <;> rfl

theorem nextInodeId_open (s : SimpleFs) (path : List Char) (mode : OpenMode) :
    (s.open path mode).2.nextInodeId = s.nextInodeId ∨
      hasOpenMode mode .create ∧
        (s.open path mode).2.nextInodeId = (s.nextInodeId + 1) % 2 ^ 32 := by
  unfold «open»
  split
  · exact Or.inl rfl
  split
  · exact Or.inl (nextInodeId_openNode ..)
  split
  · exact Or.inl rfl
  next hcreate =>
    have hcreate : hasOpenMode mode .create = true := by simpa using hcreate
    have hentry := nextInodeId_createEntry s path .file
    split <;> next heq =>
      rw [heq] at hentry
      simpa [hcreate] using hentry

theorem nextInodeId_write (s : SimpleFs) (fd : FileDescriptor) (data : List Byte) :
    (s.write fd data).2.nextInodeId = s.nextInodeId := by
  unfold write
  split
  · rfl
  next state _ =>
    split
    · rfl
    split
    · rfl
    next node _ =>
      have hwrite := nextInodeId_writeToNode s state.inodeId node
        (if hasOpenMode state.mode .append then node.inode.size else state.offset) data
      dsimp only
      split <;> next heq =>
        rw [heq] at hwrite
        exact hwrite

theorem nextInodeId_remove (s : SimpleFs) (path : List Char) :
    (s.remove path).2.nextInodeId = s.nextInodeId := by
  have hfreed : ∀ node : Node, (if node.inode.type = .file then s.freeBlocks node.inode.blocks
      else (.ok (), s)).2.nextInodeId = s.nextInodeId := by
    intro node
    split
    · exact nextInodeId_freeBlocks ..
    · rfl
  unfold remove
  split
  · rfl
  split
  · rfl
  split
  · rfl
  split
  · rfl
  split
  · rfl
  next node _ =>
    split
    · rfl
    split
    · rfl
    have hnode := hfreed node
    dsimp only
    split <;> next heq =>
      rw [heq] at hnode
      exact hnode

def Op.creates : Op → Bool
  | .open _ mode => hasOpenMode mode .create
  | .mkdir _ => true
  | _ => false

theorem nextInodeId_exec (s : SimpleFs) (op : Op) :
    (s.exec op).2.nextInodeId = s.nextInodeId ∨
      op.creates ∧ (s.exec op).2.nextInodeId = (s.nextInodeId + 1) % 2 ^ 32 := by
  cases op with
  | «open» path mode => exact nextInodeId_open s path mode
  | read fd n =>
    left
    simp only [exec, read]
    repeat' split
    all_goals rfl
  | write fd data => exact Or.inl (nextInodeId_write s fd data)
  | close fd => exact Or.inl rfl
  | mkdir path =>
    simp only [exec, mkdir_state, Op.creates, true_and]
    exact nextInodeId_createEntry s path .directory
  | remove path => exact Or.inl (nextInodeId_remove s path)
  | listDir path => exact Or.inl rfl
  | stat path => exact Or.inl rfl

def Op.opens : Op → Bool
  | .open _ _ => true
  | _ => false

theorem fdTable_createEntry (s : SimpleFs) (path : List Char) (type : InodeType) :
    (s.createEntry path type).2.fdTable = s.fdTable := by
  unfold createEntry
  split
  · rfl
  split
  · rfl
  dsimp only
  split_ifs
  · rfl
  · rfl
  · rfl
  · simp only [emplace, setNode]
    split <;> rfl

theorem fdTable_writeToNode (s : SimpleFs) (i : InodeId) (node : Node) (offset : ℕ)
    (data : List Byte) : (s.writeToNode i node offset data).2.fdTable = s.fdTable := by
  unfold writeToNode
  split_ifs
  · rfl
  · dsimp only
    obtain ⟨disk, allocator, hshape⟩ :=
      ensureFileBlocks_shape s node.inode.blocks (max node.inode.size (offset + data.length))
    split <;> next s₁ blocks heq =>
      rw [heq] at hshape
      obtain rfl : s₁ = { s with disk := disk, allocator := allocator } := hshape
      first
      | rfl
      | (split <;> rfl)

theorem fdTable_remove (s : SimpleFs) (path : List Char) :
    (s.remove path).2.fdTable = s.fdTable := by
  have hfreed : ∀ node : Node, (if node.inode.type = .file then s.freeBlocks node.inode.blocks
      else (.ok (), s)).2.fdTable = s.fdTable := by
    intro node
    split_ifs
    · obtain ⟨disk, allocator, heq⟩ := freeBlocks_shape s node.inode.blocks
      rw [heq]
    · rfl
  unfold remove
  split
  · rfl
  split
  · rfl
  split
  · rfl
  split
  · rfl
  split
  · rfl
  next node _ =>
    split
    · rfl
    split
    · rfl
    have hnode := hfreed node
    dsimp only
    split <;> next heq =>
      rw [heq] at hnode
      exact hnode

theorem fdTable_openNode (s : SimpleFs) (i : InodeId) (mode : OpenMode) :
    (s.openNode i mode).2.fdTable = s.fdTable ∨
      ∃ fd state, s.fdTable.open state = some (fd, (s.openNode i mode).2.fdTable) := by
  rcases openNode_cases s i mode with ⟨e, t, heq, -, hfds⟩ | ⟨t, state, heq, -, hfds⟩
  · rw [heq]
    exact Or.inl hfds
  · rw [heq, openFd]
    cases hopen : t.fdTable.open state with
    | none => exact Or.inl rfl
    | some opened => exact Or.inr ⟨opened.1, state, hfds ▸ hopen⟩

theorem fdTable_open (s : SimpleFs) (path : List Char) (mode : OpenMode) :
    (s.open path mode).2.fdTable = s.fdTable ∨
      ∃ fd state, s.fdTable.open state = some (fd, (s.open path mode).2.fdTable) := by
  unfold «open»
  split
  · exact Or.inl rfl
  split
  · exact fdTable_openNode ..
  split
  · exact Or.inl rfl
  have hcreate := fdTable_createEntry s path .file
  split <;> next heq =>
    rw [heq] at hcreate
    simp only at hcreate
    rw [← hcreate]
    first
    | exact Or.inl rfl
    | exact fdTable_openNode ..

theorem FileDescriptorTable.nextFd_open {t t' : FileDescriptorTable} {state : OpenFileState}
    {fd : FileDescriptor} (h : t.open state = some (fd, t')) : t'.nextFd = t.nextFd + 1 := by
  unfold FileDescriptorTable.open at h
  split at h
  · cases h
  · obtain ⟨-, rfl⟩ := Prod.mk.inj (Option.some.inj h)
    rfl

theorem nextFd_exec (s : SimpleFs) (op : Op) :
    (s.exec op).2.fdTable.nextFd = s.fdTable.nextFd ∨
      op.opens ∧ (s.exec op).2.fdTable.nextFd = s.fdTable.nextFd + 1 := by
  cases op with
  | «open» path mode =>
    rcases fdTable_open s path mode with hsame | ⟨fd, state, hopen⟩
    · exact Or.inl (congrArg _ hsame)
    · exact Or.inr ⟨rfl, FileDescriptorTable.nextFd_open hopen⟩
  | read fd n =>
    left
    simp only [exec, read]
    repeat' split
    all_goals rfl
  | write fd data =>
    left
    simp only [exec, write]
    split
    · rfl
    next state _ =>
      split
      · rfl
      split
      · rfl
      next node _ =>
        have hwrite := fdTable_writeToNode s state.inodeId node
          (if hasOpenMode state.mode .append then node.inode.size else state.offset) data
        split <;> next heq =>
          rw [heq] at hwrite
          have hnext := congrArg FileDescriptorTable.nextFd hwrite
          exact hnext
  | close fd =>
    left
    simp only [exec, close, FileDescriptorTable.close]
    split <;> rfl
  | mkdir path =>
    left
    simp only [exec, mkdir_state, fdTable_createEntry]
  | remove path => exact Or.inl (congrArg _ (fdTable_remove s path))
  | listDir path => exact Or.inl rfl
  | stat path => exact Or.inl rfl

theorem exec_inv (op : Op) (hroom : s.nextInodeId + 1 < 2 ^ 32) (h : Inv s) :
    Inv (s.exec op).2 := by
  cases op with
  | «open» path mode =>
    rcases open_spec h hroom path mode with ⟨r, s', hr, -, hinv, -⟩ | ⟨fd, s', state, he, hinv, -⟩
    · simpa only [exec, hr] using hinv
    · simpa only [exec, he] using hinv
  | read fd n =>
    rcases read_spec h fd n with ⟨e, he⟩ | ⟨state, l, -, -, -, hinv, -⟩
    · simpa only [exec, he] using h
    · exact hinv
  | write fd data => exact (write_spec h fd data).1
  | close fd => exact (close_spec h fd).1
  | mkdir path => exact (mkdir_spec h hroom path).1
  | remove path =>
    rcases remove_spec h path with ⟨e, he⟩ | ⟨i, s', he, hinv, -⟩
    · simpa only [exec, he] using h
    · simpa only [exec, he] using hinv
  | listDir path => exact h
  | stat path => exact h

theorem room_cons {op : Op} {ops : List Op}
    (hroom : s.nextInodeId + (op :: ops).countP Op.creates + 1 < 2 ^ 32) :
    s.nextInodeId + 1 < 2 ^ 32 ∧
      (s.exec op).2.nextInodeId + ops.countP Op.creates + 1 < 2 ^ 32 := by
  rw [List.countP_cons] at hroom
  have hnow : s.nextInodeId + 1 < 2 ^ 32 := by
    unfold InodeId at *
    omega
  refine ⟨hnow, ?_⟩
  rcases nextInodeId_exec s op with hsame | ⟨hcreates, hnext⟩
  · rw [hsame]
    unfold InodeId at *
    omega
  · rw [hnext, Nat.mod_eq_of_lt hnow]
    rw [if_pos hcreates] at hroom
    unfold InodeId at *
    omega

theorem run_inv (h : Inv s) {ops : List Op}
    (hroom : s.nextInodeId + ops.countP Op.creates + 1 < 2 ^ 32) :
    Inv (machine.run s ops) ∧ (machine.run s ops).nextInodeId + 1 < 2 ^ 32 := by
  induction ops generalizing s with
  | nil => exact ⟨h, by simpa using hroom⟩
  | cons op ops ih =>
    obtain ⟨hnow, hrest⟩ := room_cons hroom
    exact ih (exec_inv op hnow h) hrest

theorem reachable_inv (totalBlocks blockSize bucketCount : ℕ) {ops : List Op}
    (hops : ops.countP Op.creates < 2 ^ 32 - 3) :
    Inv (machine.run (init totalBlocks blockSize bucketCount) ops) ∧
      (machine.run (init totalBlocks blockSize bucketCount) ops).nextInodeId + 1 < 2 ^ 32 := by
  refine run_inv (inv_init totalBlocks blockSize bucketCount) ?_
  change (1 : ℕ) + 1 + _ + 1 < 2 ^ 32
  omega

/-- The path names a new entry below a directory. -/
def Creatable (s : SimpleFs) (path : List Char) : Prop :=
  ∃ parentId name parent, s.resolveParent path = .ok (parentId, name) ∧
    s.nodes parentId = some parent ∧ parent.inode.type = .directory ∧ name ∉ parent.children

def Op.AddsNode (s : SimpleFs) : Op → Prop
  | .open path mode => (hasOpenMode mode .read ∨ hasOpenMode mode .write) ∧
      hasOpenMode mode .create ∧ (∃ e, s.resolvePath path = .error e) ∧ s.Creatable path
  | .mkdir path => s.Creatable path
  | _ => False

/-- A node that is added does not make the table rehash. -/
def HasBucket (s : SimpleFs) (op : Op) : Prop := op.AddsNode s → s.nodeCount < s.bucketCount

theorem rehashes_next (h : Inv s) :
    s.rehashes s.nextInodeId = true ↔ s.bucketCount ≤ s.nodeCount := by
  rw [rehashes, h.fresh _ le_rfl, Option.isNone_none, Bool.and_true, decide_eq_true_iff,
    Nat.lt_succ_iff]

theorem createEntry_defined (h : Inv s) (path : List Char) (type : InodeType) :
    (s.createEntry path type).1.isSome ↔ (s.Creatable path → s.nodeCount < s.bucketCount) := by
  unfold createEntry Creatable
  cases hparent : s.resolveParent path with
  | error e => simp
  | ok target =>
    obtain ⟨parentId, name⟩ := target
    dsimp only
    cases hnode : s.nodes parentId with
    | none => simp [hnode]
    | some parent =>
      dsimp only
      by_cases hdir : parent.inode.type = .directory
      · by_cases hname : name ∈ parent.children
        · simp [hdir, hname, hnode]
        · by_cases hrehash : s.rehashes s.nextInodeId = true
          · have hfull := (rehashes_next h).mp hrehash
            simp [hdir, hname, hnode, hrehash, hfull]
          · have hfull := mt (rehashes_next h).mpr hrehash
            simp only [Nat.not_le] at hfull
            simp [hdir, hname, hrehash, hfull]
      · simp [hdir, hnode]

theorem openNode_defined (s : SimpleFs) (i : InodeId) (mode : OpenMode)
    (hfd : s.fdTable.nextFd ≠ 2 ^ 31 - 1) : (s.openNode i mode).1.isSome := by
  rcases openNode_cases s i mode with ⟨e, t, heq, -, -⟩ | ⟨t, state, heq, -, hfds⟩
  · rw [heq]
    rfl
  · simp only [heq, openFd, hfds, FileDescriptorTable.open, if_neg hfd]
    rfl

theorem read_defined (h : Inv s) (fd : FileDescriptor) (n : ℕ) : (s.read fd n).1.isSome := by
  rcases read_spec h fd n with ⟨e, he⟩ | ⟨state, l, -, -, hr, -⟩
  · simp [he]
  · simp [hr]

theorem write_defined (h : Inv s) (fd : FileDescriptor) (data : List Byte) :
    (s.write fd data).1.isSome := by
  rcases (write_spec h fd data).2 with ⟨r, hr, -⟩ | ⟨state, l, -, -, -, hr, -⟩
  · simp [hr]
  · simp [hr]

theorem mkdir_defined (h : Inv s) (path : List Char) :
    (s.mkdir path).1.isSome ↔ HasBucket s (.mkdir path) := by
  have hsame : (s.mkdir path).1.isSome = (s.createEntry path .directory).1.isSome := by
    unfold mkdir
    split <;> next heq => rw [heq]; rfl
  rw [hsame]
  exact createEntry_defined h path .directory

theorem open_defined (h : Inv s) (hroom : s.nextInodeId + 1 < 2 ^ 32) (path : List Char)
    (mode : OpenMode) (hfd : s.fdTable.nextFd ≠ 2 ^ 31 - 1) :
    (s.open path mode).1.isSome ↔ HasBucket s (.open path mode) := by
  have hentry := createEntry_defined h path .file
  unfold «open» HasBucket
  by_cases hmode : (!hasOpenMode mode .read && !hasOpenMode mode .write) = true
  · have hno : ¬ (hasOpenMode mode .read = true ∨ hasOpenMode mode .write = true) := by
      simpa using hmode
    simp [Op.AddsNode, hmode, hno]
  rw [if_neg hmode]
  have hmode : hasOpenMode mode .read = true ∨ hasOpenMode mode .write = true := by
    by_contra hno
    simp [not_or] at hno
    simp [hno] at hmode
  cases hpath : s.resolvePath path with
  | ok i => simp [Op.AddsNode, hpath, openNode_defined s i mode hfd]
  | error e =>
    by_cases hcreate : hasOpenMode mode .create = true
    · have hadds : (Op.open path mode).AddsNode s ↔ s.Creatable path := by
        simp [Op.AddsNode, hmode, hcreate, hpath]
      rw [hadds, ← hentry]
      rcases createEntry_spec h hroom path .file with ⟨r, hr, hbad⟩ |
        ⟨s₁, node, hr, hinv, hfds, -⟩
      · simp only [hcreate, hr, Bool.not_true, Bool.false_eq_true, ↓reduceIte]
        cases r with
        | none => rfl
        | some r =>
          cases r with
          | error e => rfl
          | ok k => exact absurd rfl (hbad k)
      · simp [hcreate, hr, openNode_defined s₁ s.nextInodeId mode (hfds ▸ hfd)]
    · simp [Op.AddsNode, hcreate]

theorem exec_defined (h : Inv s) (hroom : s.nextInodeId + 1 < 2 ^ 32) (op : Op)
    (hfd : op.opens → s.fdTable.nextFd ≠ 2 ^ 31 - 1) :
    (s.exec op).1.isSome ↔ HasBucket s op := by
  cases op with
  | «open» path mode =>
    simpa only [exec, Option.isSome_map] using open_defined h hroom path mode (hfd rfl)
  | mkdir path => simpa only [exec, Option.isSome_map] using mkdir_defined h path
  | read fd n => simp [exec, read_defined h fd n, HasBucket, Op.AddsNode]
  | write fd data => simp [exec, write_defined h fd data, HasBucket, Op.AddsNode]
  | _ => simp [exec, HasBucket, Op.AddsNode]

theorem fds_cons {op : Op} {ops : List Op}
    (hfds : s.fdTable.nextFd + (op :: ops).countP Op.opens < 2 ^ 31) :
    (op.opens → s.fdTable.nextFd ≠ 2 ^ 31 - 1) ∧
      (s.exec op).2.fdTable.nextFd + ops.countP Op.opens < 2 ^ 31 := by
  rw [List.countP_cons] at hfds
  constructor
  · intro hopens
    rw [if_pos hopens] at hfds
    unfold FileDescriptor at *
    omega
  · rcases nextFd_exec s op with hsame | ⟨hopens, hnext⟩
    · rw [hsame]
      unfold FileDescriptor at *
      push_cast at hfds
      omega
    · rw [hnext]
      rw [if_pos hopens] at hfds
      unfold FileDescriptor at *
      push_cast at hfds
      omega

theorem run_defined (h : Inv s) {ops : List Op}
    (hroom : s.nextInodeId + ops.countP Op.creates + 1 < 2 ^ 32)
    (hfds : s.fdTable.nextFd + ops.countP Op.opens < 2 ^ 31) :
    (∀ r ∈ machine.outs s ops, r.isSome) ↔ machine.Guarded HasBucket s ops := by
  induction ops generalizing s with
  | nil => simp [Machine.outs, Machine.Guarded]
  | cons op ops ih =>
    obtain ⟨hnow, hrest⟩ := room_cons hroom
    obtain ⟨hfd, hfds⟩ := fds_cons hfds
    have hstep := exec_defined h hnow op hfd
    have hlater := ih (exec_inv op hnow h) hrest hfds
    simp only [Machine.outs, List.mem_cons, forall_eq_or_imp, Machine.Guarded]
    exact and_congr hstep hlater

theorem reachable_defined (totalBlocks blockSize bucketCount : ℕ) {ops : List Op}
    (hops : ops.countP Op.creates < 2 ^ 32 - 3) (hopens : ops.countP Op.opens < 2 ^ 31) :
    (∀ r ∈ machine.outs (init totalBlocks blockSize bucketCount) ops, r.isSome) ↔
      machine.Guarded HasBucket (init totalBlocks blockSize bucketCount) ops := by
  refine run_defined (inv_init totalBlocks blockSize bucketCount) ?_ ?_
  · change (1 : ℕ) + 1 + _ + 1 < 2 ^ 32
    omega
  · change (0 : ℤ) + _ < 2 ^ 31
    omega

/-- Blocks belong to one file or are free, as long as no inode number is handed out twice, the
descriptors do not run out and no new node makes the table rehash. -/
theorem block_ownership (totalBlocks blockSize bucketCount : ℕ) (ops : List Op)
    (hops : ops.countP Op.creates < 2 ^ 32 - 3) (hopens : ops.countP Op.opens < 2 ^ 31)
    (hbuckets : machine.Guarded HasBucket (init totalBlocks blockSize bucketCount) ops) :
    let s := machine.run (init totalBlocks blockSize bucketCount) ops
    (∀ r ∈ machine.outs (init totalBlocks blockSize bucketCount) ops, r.isSome) ∧
    (∀ i inode, s.fileAt i = some inode → inode.blocks.Nodup) ∧
    (∀ i j inode inode', i ≠ j → s.fileAt i = some inode → s.fileAt j = some inode' →
      inode.blocks.Disjoint inode'.blocks) ∧
    (∀ b : ℕ, s.allocator.freeBitmap[b]? = some false ↔
      ∃ i inode, s.fileAt i = some inode ∧ b ∈ inode.blocks) ∧
    s.allocator.freeBitmap.length = s.disk.length ∧
    s.allocator.freeCount = s.allocator.freeBitmap.count true ∧
    (∀ i inode, s.fileAt i = some inode →
      (inode.size + s.blockSize - 1) / s.blockSize ≤ inode.blocks.length) ∧
    (∀ fd n, (s.read fd n).1.isSome) ∧
    (∀ fd data, (s.write fd data).1.isSome) ∧
    (∀ b : ℕ, s.allocator.freeBitmap[b]? = some true →
      s.disk[b]? = some (List.replicate s.blockSize 0)) ∧
    ∀ i inode, s.fileAt i = some inode → ∀ (slot o b : ℕ) block byte,
      inode.blocks[slot]? = some b → s.disk[b]? = some block → block[o]? = some byte →
      inode.size ≤ slot * s.blockSize + o → byte = 0 := by
  intro s
  have h : Inv s := (reachable_inv totalBlocks blockSize bucketCount hops).1
  have hblocks : ∀ i inode, s.fileAt i = some inode → s.blocksOf i = inode.blocks := by
    intro i inode hi
    simp [blocksOf, hi]
  have hfile : ∀ i b, b ∈ s.blocksOf i → ∃ inode, s.fileAt i = some inode ∧ b ∈ inode.blocks := by
    intro i b hb
    cases hi : s.fileAt i with
    | none => simp [blocksOf, hi] at hb
    | some inode => exact ⟨inode, rfl, hblocks i inode hi ▸ hb⟩
  have hpos := (h.owned 0).blockSize_pos
  refine ⟨(reachable_defined totalBlocks blockSize bucketCount hops hopens).mpr hbuckets,
    ?_, ?_, ?_, (h.owned 0).length, (h.owned 0).count, ?_, read_defined h, write_defined h,
      (h.owned 0).blank, ?_⟩
  · intro i inode hi
    have hnodup := (h.owned i).nodup
    rwa [hblocks i inode hi] at hnodup
  · intro i j inode inode' hij hi hj b hb hb'
    refine (h.owned i).apart b (hblocks i inode hi ▸ hb) ⟨j, Ne.symm hij, ?_⟩
    rwa [hblocks j inode' hj]
  · intro b
    rw [(h.owned 0).used b]
    constructor
    · rintro (hb | ⟨j, -, hb⟩)
      · obtain ⟨inode, hi, hb⟩ := hfile 0 b hb
        exact ⟨0, inode, hi, hb⟩
      · obtain ⟨inode, hi, hb⟩ := hfile j b hb
        exact ⟨j, inode, hi, hb⟩
    · rintro ⟨i, inode, hi, hb⟩
      rw [← hblocks i inode hi] at hb
      by_cases h0 : i = 0
      · exact Or.inl (h0 ▸ hb)
      · exact Or.inr ⟨i, h0, hb⟩
  · intro i inode hi
    have henough := h.enough i
    rw [hblocks i inode hi, show s.sizeOf i = inode.size by simp [sizeOf, hi]] at henough
    rw [Nat.div_le_iff_le_mul hpos, Nat.mul_comm]
    omega
  · intro i inode hi slot o b block byte hb hd hbyte hle
    have hlen : block.length = s.blockSize := (h.owned 0).uniform block (List.mem_of_getElem? hd)
    have ho : o < s.blockSize := by
      rw [← hlen]
      exact (List.getElem?_eq_some_iff.mp hbyte).1
    obtain ⟨hdiv, hmod⟩ := (Nat.div_mod_unique (a := slot * s.blockSize + o) (d := slot) (c := o)
      hpos).mpr ⟨by rw [Nat.mul_comm, Nat.add_comm], ho⟩
    have htail := (h.owned i).tail (slot * s.blockSize + o) (by simpa [sizeOf, hi] using hle)
    rw [hblocks i inode hi, byteAt_of_slot (by rw [hdiv]; exact hb) hd, hmod, hbyte] at htail
    exact htail

theorem block_ownership_removed :
    (machine.run (init 4 2 13)
      [.open ['/', 'f'] 7, .write 0 [1, 2, 3], .remove ['/', 'f']]).disk[0]? =
      some [0, 0] := by
  have hblocks := block_ownership 4 2 13
    [.open ['/', 'f'] 7, .write 0 [1, 2, 3], .remove ['/', 'f']] (by decide) (by decide)
    ⟨fun _ => by decide +kernel, fun _ => by decide +kernel, fun _ => by decide +kernel, trivial⟩
  exact hblocks.2.2.2.2.2.2.2.2.2.1 0 rfl

/-- The calls that may change the bytes of a file: a successful write of some data and a
successful open with truncation. -/
def Op.Rewrites (s : SimpleFs) : Op → Prop
  | .write fd data => data ≠ [] ∧ ∃ k, (s.write fd data).1 = some (.ok k)
  | .open path mode => hasOpenMode mode .truncate ∧ ∃ fd, (s.open path mode).1 = some (.ok fd)
  | _ => False

theorem content_exec (h : Inv s) (hroom : s.nextInodeId + 1 < 2 ^ 32) {op : Op}
    (hop : ¬ op.Rewrites s) {i : InodeId} (hbefore : (s.content i).isSome)
      (hafter : ((s.exec op).2.content i).isSome) :
    (s.exec op).2.content i = s.content i := by
  cases op with
  | «open» path mode =>
    rcases open_spec h hroom path mode with ⟨r, s', hr, -, -, hsame⟩ |
      ⟨fd, s', state, he, -, -, -, -, hself, hothers⟩
    · simp only [exec, hr]
      exact hsame i hbefore
    · have htrunc : hasOpenMode mode .truncate = false := by
        by_contra htrunc
        exact hop ⟨by simpa using htrunc, fd, by rw [he]⟩
      simp only [exec, he]
      by_cases hi : i = state.inodeId
      · obtain ⟨l, hl⟩ := Option.isSome_iff_exists.mp hbefore
        rw [← hi, htrunc, hl] at hself
        rw [hself, hl]
        rfl
      · exact hothers i hi
  | read fd n =>
    rcases read_spec h fd n with ⟨e, he⟩ | ⟨state, l, -, -, -, -, -, hsame⟩
    · simp only [exec, he]
    · exact hsame i
  | write fd data =>
    rcases (write_spec h fd data).2 with ⟨r, -, -, hsame⟩ | ⟨state, l, hdata, -, -, hr, -⟩
    · exact hsame i
    · exact (hop ⟨hdata, _, hr⟩).elim
  | close fd => exact (close_spec h fd).2 i
  | mkdir path => exact (mkdir_spec h hroom path).2 i hbefore
  | remove path =>
    rcases remove_spec h path with ⟨e, he⟩ | ⟨k, s', he, -, hgone, hothers⟩
    · simp only [exec, he]
    · simp only [exec, he] at hafter ⊢
      refine hothers i ?_
      rintro rfl
      simp [hgone] at hafter
  | listDir path => rfl
  | stat path => rfl

/-- In every state that is reached before the inode numbers and the descriptors run out, without
a new node that makes the table rehash, the files are lists of bytes: reads return a slice and
move one offset, writes splice the data into one list, truncation empties one list, and no other
call changes the list of a file that still exists. -/
theorem refines_byte_lists (totalBlocks blockSize bucketCount : ℕ) (ops : List Op)
    (hops : ops.countP Op.creates < 2 ^ 32 - 3) (hopens : ops.countP Op.opens < 2 ^ 31)
    (hbuckets : machine.Guarded HasBucket (init totalBlocks blockSize bucketCount) ops) :
    let s := machine.run (init totalBlocks blockSize bucketCount) ops
    (∀ r ∈ machine.outs (init totalBlocks blockSize bucketCount) ops, r.isSome) ∧
    (∀ fd n bytes, (s.read fd n).1 = some (.ok bytes) →
      ∃ state l, s.fdTable.entries fd = some state ∧ s.content state.inodeId = some l ∧
        bytes = (l.drop state.offset).take n ∧
        (s.read fd n).2.fdTable.entries = update s.fdTable.entries fd
          (some { state with offset := state.offset + bytes.length })) ∧
    (∀ fd data k, data ≠ [] → (s.write fd data).1 = some (.ok k) →
      ∃ state l, s.fdTable.entries fd = some state ∧ s.content state.inodeId = some l ∧
        k = data.length ∧
        (s.write fd data).2.content state.inodeId = some (splice l
          (if hasOpenMode state.mode .append then l.length else state.offset) data) ∧
        ∀ j, j ≠ state.inodeId → (s.write fd data).2.content j = s.content j) ∧
    (∀ path mode fd, hasOpenMode mode .truncate → (s.open path mode).1 = some (.ok fd) →
      ∃ state, (s.open path mode).2.fdTable.entries fd = some state ∧
        (∀ i, s.resolvePath path = .ok i → state.inodeId = i) ∧
        ((∃ e, s.resolvePath path = .error e) → s.content state.inodeId = none) ∧
        (s.open path mode).2.content state.inodeId = some [] ∧
        ∀ j, j ≠ state.inodeId → (s.open path mode).2.content j = s.content j) ∧
    ∀ op, ¬ op.Rewrites s → (machine.out s op).isSome → ∀ i, (s.content i).isSome →
      ((machine.next s op).content i).isSome → (machine.next s op).content i = s.content i := by
  intro s
  obtain ⟨h, hroom⟩ : Inv s ∧ s.nextInodeId + 1 < 2 ^ 32 :=
    reachable_inv totalBlocks blockSize bucketCount hops
  refine ⟨(reachable_defined totalBlocks blockSize bucketCount hops hopens).mpr hbuckets,
    ?_, ?_, ?_, fun op hop _ i => content_exec h hroom hop⟩
  · intro fd n bytes hok
    rcases read_spec h fd n with ⟨e, he⟩ | ⟨state, l, hfd, hl, hr, -, hfds, -⟩
    · simp [he] at hok
    · rw [hr] at hok
      cases hok
      exact ⟨state, l, hfd, hl, rfl, hfds⟩
  · intro fd data k hdata hok
    rcases (write_spec h fd data).2 with ⟨r, hr, hcase, -⟩ |
      ⟨state, l, -, hfd, hl, hr, hself, hothers⟩
    · rw [hr] at hok
      cases hok
      rcases hcase with hnil | ⟨e, he⟩
      · exact (hdata hnil).elim
      · cases he
    · rw [hr] at hok
      cases hok
      exact ⟨state, l, hfd, hl, rfl, hself, hothers⟩
  · intro path mode fd htrunc hok
    rcases open_spec h hroom path mode with ⟨r, s', hr, hbad, -⟩ |
      ⟨fd', s', state, he, -, hfds, hpath, hnew, hself, hothers⟩
    · exact absurd hok (hr ▸ hbad fd)
    · rw [he] at hok ⊢
      cases hok
      refine ⟨state, by simp [hfds], hpath, hnew, ?_, hothers⟩
      rw [hself, if_pos htrunc]

theorem refines_byte_lists_shared :
    let s := machine.run (init 4 2 13)
      [.open ['/', 'f'] 7, .open ['/', 'f'] 7, .write 0 [1, 2, 3]]
    ∃ state l, s.fdTable.entries 1 = some state ∧ s.content state.inodeId = some l ∧
      [1, 2] = (l.drop state.offset).take 2 ∧
      (s.read 1 2).2.fdTable.entries = update s.fdTable.entries 1
        (some { state with offset := state.offset + 2 }) := by
  have hbytes := refines_byte_lists 4 2 13
    [.open ['/', 'f'] 7, .open ['/', 'f'] 7, .write 0 [1, 2, 3]] (by decide) (by decide)
    ⟨fun _ => by decide +kernel, fun _ => by decide +kernel, fun _ => by decide +kernel, trivial⟩
  exact hbytes.2.1 1 2 [1, 2] rfl

def worn (nextInodeId : InodeId) (tick : Tick) : SimpleFs where
  blockSize := 1
  disk := [[0]]
  allocator := ⟨[true], 1⟩
  fdTable := { entries := update (fun _ => none) 0 (some ⟨2, 0, 7⟩), nextFd := 1 }
  nodes := update (fun _ => none) rootInodeId
    (some { inode := { id := rootInodeId, type := .directory, modifiedAt := tick } })
  nodeCount := 1
  bucketCount := 13
  nextInodeId := nextInodeId
  tick := tick

def wornDir (n : InodeId) (tick : Tick) : SimpleFs :=
  { worn n tick with
    nodes := update (update (worn n tick).nodes n (some { inode := {
      id := n, type := .directory, parent := some rootInodeId
      createdAt := tick + 1, modifiedAt := tick + 1 } })) rootInodeId (some {
        inode := { id := rootInodeId, type := .directory, size := 1, modifiedAt := tick + 2 }
        children := AList.insert ['d'] n ∅ })
    nodeCount := 2
    nextInodeId := (n + 1) % 2 ^ 32
    tick := tick + 2 }

variable {n : InodeId} {t : ℕ}

theorem run_worn :
    machine.run (init 1 1 13) [.open ['/', 'f'] 7, .remove ['/', 'f']] = worn 3 3 := by
  obtain ⟨x, y, z, hrun⟩ : ∃ x y z : Option Node,
      machine.run (init 1 1 13) [.open ['/', 'f'] 7, .remove ['/', 'f']] = { worn 3 3 with
        nodes := update (update (update (update (update (fun _ => none) 1 x) 2 y) 1 z) 2 none) 1
          (some { inode := { id := rootInodeId, type := .directory, modifiedAt := 3 } }) } :=
    ⟨_, _, _, rfl⟩
  rw [hrun]
  refine congrArg (fun nodes => { worn 3 3 with nodes := nodes }) (funext fun i => ?_)
  by_cases h1 : i = 1
  · simp [rootInodeId, h1]
  · by_cases h2 : i = 2
    · simp [rootInodeId, h2]
    · simp [rootInodeId, h1, h2]

theorem exec_mkdir_worn (hn : n ≠ rootInodeId) (ht : t + 3 < 2 ^ 64) :
    ((worn n t).exec (.mkdir ['/', 'd'])).2 = wornDir n t := by
  have hfree : ((worn n t).nodes n).isSome = false := by simp [worn, hn]
  have hparent : (worn n t).resolveParent ['/', 'd'] = .ok (rootInodeId, ['d']) := rfl
  have hroot : (worn n t).nodes rootInodeId = some {
      inode := { id := rootInodeId, type := .directory, modifiedAt := t } } := rfl
  have hname : ['d'] ∉ (∅ : AList fun _ : Name => InodeId) := AList.notMem_empty _
  have hrehash : (worn n t).rehashes n = false := rfl
  have hfirst : (t + 1) % 2 ^ 64 = t + 1 := Nat.mod_eq_of_lt (by omega)
  have hsecond : (t + 1 + 1) % 2 ^ 64 = t + 2 := Nat.mod_eq_of_lt (by omega)
  have hnext : (worn n t).nextInodeId = n := rfl
  have htick : (worn n t).tick = t := rfl
  simp only [exec, mkdir_state, createEntry, hparent, hroot, hname, hrehash, hnext, hfree, emplace,
    setNode, nextTick, htick, hfirst, hsecond, ne_eq, not_true_eq_false, Bool.false_eq_true,
    ↓reduceIte]
  rfl

theorem exec_remove_wornDir (hn : n ≠ rootInodeId) (ht : t + 3 < 2 ^ 64) :
    ((wornDir n t).exec (.remove ['/', 'd'])).2 = worn ((n + 1) % 2 ^ 32) (t + 3) := by
  have hparent : (wornDir n t).resolveParent ['/', 'd'] = .ok (rootInodeId, ['d']) := rfl
  have hroot : (wornDir n t).nodes rootInodeId = some {
      inode := { id := rootInodeId, type := .directory, size := 1, modifiedAt := t + 2 }
      children := AList.insert ['d'] n ∅ } := rfl
  have hlookup : (AList.insert ['d'] n ∅ : AList fun _ : Name => InodeId).lookup ['d'] = some n :=
    AList.lookup_insert _
  have hchild : (wornDir n t).nodes n = some { inode := {
      id := n, type := .directory, parent := some rootInodeId
      createdAt := t + 1, modifiedAt := t + 1 } } := by
    simp [wornDir, hn]
  have hempty : (AList.insert ['d'] n ∅ : AList fun _ : Name => InodeId).erase ['d'] = ∅ := rfl
  have htick : ((wornDir n t).erase n).nextTick = t + 3 :=
    Nat.mod_eq_of_lt (show t + 2 + 1 < 2 ^ 64 by omega)
  have hrun : ((wornDir n t).exec (.remove ['/', 'd'])).2 = { worn ((n + 1) % 2 ^ 32) (t + 3) with
      nodes := update (update (wornDir n t).nodes n none) rootInodeId (some {
        inode := { id := rootInodeId, type := .directory, size := 0, modifiedAt := t + 3 }}) } := by
    simp only [exec, remove, hparent, hroot, hlookup, hchild, hempty]
    simp [hn, htick]
    rfl
  rw [hrun]
  refine congrArg (fun nodes => { worn ((n + 1) % 2 ^ 32) (t + 3) with nodes := nodes })
    (funext fun i => ?_)
  by_cases h1 : i = rootInodeId
  · simp [h1]
  · by_cases h2 : i = n
    · simp [wornDir, h2, hn]
    · simp [wornDir, worn, h1, h2]

def wearCycle : List Op := [.mkdir ['/', 'd'], .remove ['/', 'd']]

theorem run_wearCycles (k : ℕ) (hk : k ≤ 2 ^ 32 - 2) :
    machine.run (worn 3 3) (List.replicate k wearCycle).flatten =
      worn ((3 + k) % 2 ^ 32) (3 + 3 * k) := by
  induction k with
  | zero => rfl
  | succ k ih =>
    have hn : (3 + k) % 2 ^ 32 ≠ 1 := by omega
    rw [List.replicate_succ', List.flatten_append, Machine.run_append, ih (by omega)]
    change (((worn _ _).exec (.mkdir ['/', 'd'])).2.exec (.remove ['/', 'd'])).2 = _
    have ht : 3 + 3 * k + 3 < 2 ^ 64 := by omega
    rw [exec_mkdir_worn hn ht, exec_remove_wornDir hn ht, Nat.mod_add_mod]
    rfl

/-- The file `2` is removed with a descriptor open, and creations take all numbers up to the
ones that are in use: the root gets its number a second time, and a directory gets `2`. -/
def reusingOps : List Op :=
  [.open ['/', 'f'] 7, .remove ['/', 'f']] ++ (List.replicate (2 ^ 32 - 2) wearCycle).flatten ++
    [.mkdir ['/', 'd'], .mkdir ['/', 'e']]

def reused : SimpleFs :=
  machine.run (worn 1 12884901885) [.mkdir ['/', 'd'], .mkdir ['/', 'e']]

theorem run_reusingOps : machine.run (init 1 1 13) reusingOps = reused := by
  have hnext : (3 + (2 ^ 32 - 2)) % 2 ^ 32 = 1 := by decide
  have htick : 3 + 3 * (2 ^ 32 - 2) = 12884901885 := by decide
  rw [reusingOps, Machine.run_append, Machine.run_append, run_worn,
    run_wearCycles (2 ^ 32 - 2) le_rfl, hnext, htick]
  rfl

theorem refines_byte_lists_reused :
    let s := machine.run (init 1 1 13) reusingOps
    ¬ ∀ fd data k, data ≠ [] → (s.write fd data).1 = some (.ok k) →
      ∃ state l, s.fdTable.entries fd = some state ∧ s.content state.inodeId = some l ∧
        k = data.length ∧
        (s.write fd data).2.content state.inodeId = some (splice l
          (if hasOpenMode state.mode .append then l.length else state.offset) data) ∧
        ∀ j, j ≠ state.inodeId → (s.write fd data).2.content j = s.content j := by
  rw [run_reusingOps]
  have hwrite : (reused.write 0 [1]).1 = some (.ok 1) := by decide +kernel
  intro s h
  obtain ⟨state, l, hfd, hl, -⟩ := h 0 [1] 1 (by simp) hwrite
  cases hfd
  cases hl

theorem block_ownership_reused :
    let s := machine.run (init 1 1 13) (reusingOps ++ [.write 0 [1]])
    ¬ ∀ b : ℕ, s.allocator.freeBitmap[b]? = some false ↔
      ∃ i inode, s.fileAt i = some inode ∧ b ∈ inode.blocks := by
  rw [Machine.run_append, run_reusingOps]
  have hused : (machine.run reused [.write 0 [1]]).allocator.freeBitmap[0]? = some false := by
    decide +kernel
  have hdirs : ∀ i, (machine.run reused [.write 0 [1]]).fileAt i = none := by
    obtain ⟨v, w, x, y, z, hnodes⟩ : ∃ v w x y z : Option Node,
        (machine.run reused [.write 0 [1]]).nodes =
          update (update (update (update (update (fun _ => none) 1 v) 1 w) 2 x) 1 y) 2 z :=
      ⟨_, _, _, _, _, rfl⟩
    intro i
    by_cases h1 : i = 1
    · subst h1
      rfl
    · by_cases h2 : i = 2
      · subst h2
        rfl
      · rw [fileAt, hnodes]
        simp [h1, h2]
  intro s h
  obtain ⟨i, inode, hi, -⟩ := (h 0).mp hused
  rw [hdirs i] at hi
  cases hi

end SimpleFs
end Contur
