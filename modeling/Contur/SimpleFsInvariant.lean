import Contur.SimpleFsBlocks

/-!
# Block ownership in the file system

The invariant puts the local view of every file together: for each inode number
the disk looks as `Owned` says, with the blocks of all other files as the rest.
An operation on one file is a local step followed by storing the inode, so one
lemma (`Inv.store`) carries the invariant over every operation that moves blocks.
-/

namespace Contur
open Function (update)
open BlockFile
open Transition

namespace SimpleFs
variable {s s' : SimpleFs} {i j : InodeId} {node : Node}

def fileAt (s : SimpleFs) (i : InodeId) : Option Inode :=
  (s.nodes i).bind fun node => if node.inode.type = .file then some node.inode else none

def blocksOf (s : SimpleFs) (i : InodeId) : List ℕ := (s.fileAt i).elim [] Inode.blocks
def sizeOf (s : SimpleFs) (i : InodeId) : ℕ := (s.fileAt i).elim 0 Inode.size
def othersOf (s : SimpleFs) (i : InodeId) : Set ℕ := {b | ∃ j, j ≠ i ∧ b ∈ s.blocksOf j}

/-- The bytes of a file, read through its block list. -/
def content (s : SimpleFs) (i : InodeId) : Option (List Byte) :=
  (s.fileAt i).map fun inode => contents s.disk s.blockSize inode.blocks inode.size

structure Inv (s : SimpleFs) : Prop where
  owned : ∀ i, Owned s (s.othersOf i) (s.blocksOf i) (s.sizeOf i)
  enough : ∀ i, s.sizeOf i ≤ s.blockSize * (s.blocksOf i).length
  id_eq : ∀ i node, s.nodes i = some node → node.inode.id = i
  fresh : ∀ i, s.nextInodeId ≤ i → s.nodes i = none
  fd_file : ∀ fd state, s.fdTable.entries fd = some state → state.inodeId < s.nextInodeId ∧
    ∀ node, s.nodes state.inodeId = some node → node.inode.type = .file
  fd_fresh : ∀ fd, s.fdTable.nextFd ≤ fd → s.fdTable.entries fd = none

theorem fileAt_of_file (h : s.nodes i = some node) (hf : node.inode.type = .file) :
    s.fileAt i = some node.inode := by
  simp [fileAt, h, hf]

theorem blocksOf_of_file (h : s.nodes i = some node) (hf : node.inode.type = .file) :
    s.blocksOf i = node.inode.blocks := by
  simp [blocksOf, fileAt_of_file h hf]

theorem sizeOf_of_file (h : s.nodes i = some node) (hf : node.inode.type = .file) :
    s.sizeOf i = node.inode.size := by
  simp [sizeOf, fileAt_of_file h hf]

theorem content_of_file (h : s.nodes i = some node) (hf : node.inode.type = .file) :
    s.content i = some (contents s.disk s.blockSize node.inode.blocks node.inode.size) := by
  simp [content, fileAt_of_file h hf]

theorem content_eq (s : SimpleFs) (i : InodeId) :
    s.content i =
      (s.fileAt i).map fun _ => contents s.disk s.blockSize (s.blocksOf i) (s.sizeOf i) := by
  cases h : s.fileAt i <;> simp [content, blocksOf, sizeOf, h]

theorem fileAt_setNode (s : SimpleFs) (i : InodeId) (node : Node) :
    (s.setNode i node).fileAt =
      update s.fileAt i (if node.inode.type = .file then some node.inode else none) := by
  funext j
  by_cases hj : j = i
  · subst j
    simp [fileAt, setNode]
  · simp [fileAt, setNode, hj]

theorem Owned.of_files {others : Set ℕ} {blocks : List ℕ} {size : ℕ}
    (h : Owned s others blocks size) (hb : s'.blockSize = s.blockSize) (hd : s'.disk = s.disk)
    (ha : s'.allocator = s.allocator) : Owned s' others blocks size := by
  obtain ⟨h1, h2, h3, h4, h5, h6, h7, h8, h9⟩ := h
  exact ⟨by rwa [hb], by rwa [hb, hd], by rwa [ha, hd], by rwa [ha], h5, h6, by rwa [ha],
    by rwa [ha, hd, hb], by rwa [hd, hb]⟩

theorem othersOf_congr (h : s'.blocksOf = s.blocksOf) : s'.othersOf i = s.othersOf i := by
  simp only [othersOf, h]

section Store
variable {blocks : List ℕ} {size : ℕ} {node' : Node}

/-- The file `i` gets new blocks and a new size, and the disk looks as its local view says. The
same holds when `i` stops being a file: it then has no blocks. -/
theorem Inv.local_views (h : Inv s) (hre : Reblocked s (s.othersOf i) s')
    (hown : Owned s' (s.othersOf i) blocks size) (hsize : size ≤ s'.blockSize * blocks.length)
    {t : SimpleFs} (hbs : t.blockSize = s'.blockSize) (hdisk : t.disk = s'.disk)
    (hall : t.allocator = s'.allocator) (hblocks : t.blocksOf = update s.blocksOf i blocks)
    (hsizes : t.sizeOf = update s.sizeOf i size) :
    (∀ j, Owned t (t.othersOf j) (t.blocksOf j) (t.sizeOf j)) ∧
      ∀ j, t.sizeOf j ≤ t.blockSize * (t.blocksOf j).length := by
  have hself : t.othersOf i = s.othersOf i := by
    ext b
    simp only [othersOf, hblocks, Set.mem_ofPred_eq]
    refine exists_congr fun k => and_congr_right fun hk => ?_
    rw [Function.update_of_ne hk]
  constructor
  · intro j
    by_cases hj : j = i
    · subst j
      rw [hself, hblocks, hsizes, Function.update_self, Function.update_self]
      exact hown.of_files hbs hdisk hall
    · have hj' := h.owned j
      rw [hblocks, hsizes, Function.update_of_ne hj, Function.update_of_ne hj]
      have hmine : ∀ b ∈ s.blocksOf j, b ∈ s.othersOf i := fun b hb => ⟨j, hj, hb⟩
      have hothers : ∀ b, b ∈ t.othersOf j ↔
          b ∈ blocks ∨ (b ∈ s.othersOf i ∧ b ∈ s.othersOf j) := by
        intro b
        simp only [othersOf, hblocks, Set.mem_ofPred_eq]
        constructor
        · rintro ⟨k, hkj, hb⟩
          by_cases hki : k = i
          · subst k
            exact Or.inl (by simpa using hb)
          · rw [Function.update_of_ne hki] at hb
            exact Or.inr ⟨⟨k, hki, hb⟩, ⟨k, hkj, hb⟩⟩
        · rintro (hb | ⟨⟨k, hki, hb⟩, l, hlj, hb'⟩)
          · exact ⟨i, Ne.symm hj, by simpa using hb⟩
          · by_cases hkj : k = j
            · subst k
              exact absurd ⟨l, hlj, hb'⟩ (hj'.apart b hb)
            · exact ⟨k, hkj, by rwa [Function.update_of_ne hki]⟩
      refine Owned.of_files (s := s') ?_ hbs hdisk hall
      refine ⟨hown.blockSize_pos, hown.uniform, hown.length, hown.count, hj'.nodup, ?_, ?_,
        hown.blank, ?_⟩
      · intro b hb hin
        rcases (hothers b).mp hin with hin | ⟨-, hin⟩
        · exact hown.apart b hin (hmine b hb)
        · exact hj'.apart b hb hin
      · intro b
        rw [hown.used b, hothers b]
        constructor
        · rintro (hb | hb)
          · exact Or.inr (Or.inl hb)
          · by_cases hbj : b ∈ s.blocksOf j
            · exact Or.inl hbj
            · obtain ⟨k, hki, hbk⟩ := hb
              have hkj : k ≠ j := by
                rintro rfl
                exact hbj hbk
              exact Or.inr (Or.inr ⟨⟨k, hki, hbk⟩, ⟨k, hkj, hbk⟩⟩)
        · rintro (hb | hb | ⟨hb, -⟩)
          · exact Or.inr (hmine b hb)
          · exact Or.inl hb
          · exact Or.inr hb
      · intro x hx
        rw [hre.blockSize, byteAt_congr (fun b hb => hre.frame b (hmine b hb))]
        exact hj'.tail x hx
  · intro j
    rw [hblocks, hsizes, hbs]
    by_cases hj : j = i
    · subst j
      simpa using hsize
    · rw [Function.update_of_ne hj, Function.update_of_ne hj, hre.blockSize]
      exact h.enough j

theorem Inv.content_others (hre : Reblocked s (s.othersOf i) s') {t : SimpleFs}
    (hbs : t.blockSize = s'.blockSize) (hdisk : t.disk = s'.disk) (hj : j ≠ i)
    (hfile : t.fileAt j = s.fileAt j) : t.content j = s.content j := by
  rw [content, content, hfile, hbs, hdisk, hre.blockSize]
  cases hf : s.fileAt j with
  | none => rfl
  | some inode =>
    simp only [Option.map_some, Option.some.injEq]
    refine contents_congr fun x _ => byteAt_congr (fun b hb => hre.frame b ⟨j, hj, ?_⟩) x
    simpa [blocksOf, hf] using hb

theorem Inv.store (h : Inv s) (node' : Node) (hnode : s.nodes i = some node)
    (hre : Reblocked s (s.othersOf i) s') (hown : Owned s' (s.othersOf i) blocks size)
    (hsize : size ≤ s'.blockSize * blocks.length) (htype : node'.inode.type = .file)
    (hid : node'.inode.id = node.inode.id) (hblocks : node'.inode.blocks = blocks)
    (hsizes : node'.inode.size = size) (tick : Tick) :
    Inv ({ s' with tick := tick }.setNode i node') ∧
      ({ s' with tick := tick }.setNode i node').content i =
        some (contents s'.disk s'.blockSize blocks size) ∧
      ∀ j, j ≠ i → ({ s' with tick := tick }.setNode i node').content j = s.content j := by
  have hnodes : s'.nodes = s.nodes := by rw [hre.shape]
  have hfds : s'.fdTable = s.fdTable := by rw [hre.shape]
  have hnext : s'.nextInodeId = s.nextInodeId := by rw [hre.shape]
  have hfile : ({ s' with tick := tick }.setNode i node').fileAt =
      update s.fileAt i (some node'.inode) := by
    rw [fileAt_setNode, if_pos htype]
    congr 1
    funext j
    simp only [fileAt, hnodes]
  obtain ⟨howned, henough⟩ := h.local_views (t := { s' with tick := tick }.setNode i node') hre hown
    hsize rfl rfl rfl
    (by
      funext j
      by_cases hj : j = i
      · subst j
        simp [blocksOf, hfile, hblocks]
      · simp [blocksOf, hfile, hj])
    (by
      funext j
      by_cases hj : j = i
      · subst j
        simp [sizeOf, hfile, hsizes]
      · simp [sizeOf, hfile, hj])
  refine ⟨⟨howned, henough, ?_, ?_, ?_, hfds ▸ h.fd_fresh⟩, ?_, ?_⟩
  · intro j n hn
    by_cases hj : j = i
    · subst j
      obtain rfl : node' = n := by simpa [setNode] using hn
      rw [hid]
      exact h.id_eq i node hnode
    · exact h.id_eq j n (by simpa [setNode, hj, hnodes] using hn)
  · intro j hj
    have hnone := h.fresh j (by simpa [setNode, hnext] using hj)
    have hji : j ≠ i := by
      rintro rfl
      rw [hnode] at hnone
      cases hnone
    simp [setNode, hji, hnodes, hnone]
  · intro fd state hfd
    obtain ⟨hlt, hfile'⟩ := h.fd_file fd state (by simpa [setNode, hfds] using hfd)
    refine ⟨by simpa [setNode, hnext] using hlt, fun n hn => ?_⟩
    by_cases hi : state.inodeId = i
    · obtain rfl : node' = n := by simpa [setNode, hi] using hn
      exact htype
    · exact hfile' n (by simpa [setNode, hi, hnodes] using hn)
  · rw [content, hfile, Function.update_self, Option.map_some, hblocks, hsizes]
    rfl
  · intro j hj
    exact Inv.content_others hre rfl rfl hj (by rw [hfile, Function.update_of_ne hj])

end Store

theorem Inv.setEntry (h : Inv s) {fds : FileDescriptorTable} {fd : FileDescriptor}
    {state : OpenFileState} (hentries : fds.entries = update s.fdTable.entries fd (some state))
    (hfresh : ∀ fd, fds.nextFd ≤ fd → fds.entries fd = none)
    (hfile : ∃ node, s.nodes state.inodeId = some node ∧ node.inode.type = .file) :
    Inv { s with fdTable := fds } := by
  refine ⟨fun i => (h.owned i).of_files rfl rfl rfl, h.enough, h.id_eq, h.fresh, ?_, hfresh⟩
  intro fd' state' hfd
  have hfd : update s.fdTable.entries fd (some state) fd' = some state' := hentries ▸ hfd
  by_cases hd : fd' = fd
  · obtain rfl : state = state' := by simpa [hd] using hfd
    obtain ⟨node, hnode, htype⟩ := hfile
    constructor
    · by_contra hlt
      have hnone := h.fresh state.inodeId (Nat.not_lt.mp hlt)
      rw [hnode] at hnone
      cases hnone
    · intro n hn
      obtain rfl : node = n := Option.some.inj (hnode.symm.trans hn)
      exact htype
  · exact h.fd_file fd' state' (by simpa [hd] using hfd)

theorem Inv.setFd (h : Inv s) {fd : FileDescriptor} {state : OpenFileState}
    (hfd : s.fdTable.entries fd = some state) (state' : OpenFileState)
    (hfile : ∃ node, s.nodes state'.inodeId = some node ∧ node.inode.type = .file) :
    Inv { s with fdTable := s.fdTable.set fd state' } := by
  refine h.setEntry rfl (fun fd' hle => ?_) hfile
  have hnone := h.fd_fresh fd' hle
  have hne : fd' ≠ fd := by
    rintro rfl
    rw [hfd] at hnone
    cases hnone
  exact (Function.update_of_ne hne ..).trans hnone

theorem openFd_spec {t : SimpleFs} (h : Inv t) (s : SimpleFs) (state : OpenFileState)
    (hfile : ∃ node, t.nodes state.inodeId = some node ∧ node.inode.type = .file) :
    s.openFd t state = (none, s) ∨
      ∃ fds, s.openFd t state = (some (.ok t.fdTable.nextFd), { t with fdTable := fds }) ∧
        Inv { t with fdTable := fds } ∧
        fds.entries = update t.fdTable.entries t.fdTable.nextFd (some state) := by
  have hnone := h.fd_fresh _ le_rfl
  by_cases hend : t.fdTable.nextFd = 2 ^ 31 - 1
  · exact Or.inl (by simp only [openFd, FileDescriptorTable.open, if_pos hend])
  let fds : FileDescriptorTable := {
    entries := update t.fdTable.entries t.fdTable.nextFd (some state)
    nextFd := t.fdTable.nextFd + 1 }
  have hopen : t.fdTable.open state = some (t.fdTable.nextFd, fds) := by
    rw [FileDescriptorTable.open, if_neg hend]
    simp [hnone, fds]
  refine Or.inr ⟨fds, by simp only [openFd, hopen], h.setEntry rfl (fun fd hle => ?_) hfile, rfl⟩
  have hlt : t.fdTable.nextFd < fd := Int.lt_of_add_one_le hle
  exact (Function.update_of_ne (Int.ne_of_gt hlt) ..).trans (h.fd_fresh fd hlt.le)

theorem ne_of_found {i j : InodeId} {node : Node} (hnode : s.nodes i = some node)
    (hnone : s.nodes j = none) : j ≠ i := by
  rintro rfl
  rw [hnode] at hnone
  cases hnone

theorem Inv.fd_ne (h : Inv s) {fd : FileDescriptor} {state : OpenFileState} {i : InodeId}
    {node : Node} (hfd : s.fdTable.entries fd = some state) (hnode : s.nodes i = some node)
    (hdir : node.inode.type = .directory) : state.inodeId ≠ i := by
  rintro rfl
  have htype := (h.fd_file fd state hfd).2 node hnode
  rw [hdir] at htype
  cases htype

theorem Inv.addChild (h : Inv s) (hroom : s.nextInodeId + 1 < 2 ^ 32) {parentId : InodeId}
    {parent : Node} (hparent : s.nodes parentId = some parent)
      (hdir : parent.inode.type = .directory)
    (child parent' : Node) (hchild : child.inode.id = s.nextInodeId)
    (hblocks : child.inode.blocks = []) (hsize : child.inode.size = 0)
    (hid : parent'.inode.id = parent.inode.id) (hdir' : parent'.inode.type = .directory)
    (createdAt tick : Tick) :
    let s₁ := { s with nextInodeId := (s.nextInodeId + 1) % 2 ^ 32, tick := createdAt }.emplace
      s.nextInodeId child
    let s' := { s₁ with tick := tick }.setNode parentId parent'
    Inv s' ∧ s'.nodes s.nextInodeId = some child ∧
      ∀ j, j ≠ s.nextInodeId → s'.content j = s.content j := by
  have hnew : s.nodes s.nextInodeId = none := h.fresh _ le_rfl
  rw [Nat.mod_eq_of_lt hroom]
  have hstored : { s with nextInodeId := s.nextInodeId + 1, tick := createdAt }.emplace
      s.nextInodeId child = { s with
        nodes := update s.nodes s.nextInodeId (some child), nodeCount := s.nodeCount + 1
        nextInodeId := s.nextInodeId + 1, tick := createdAt } := by
    simp [emplace, hnew]
  rw [hstored]
  intro s₁ s'
  have hne : s.nextInodeId ≠ parentId := ne_of_found hparent hnew
  have hnodes : ∀ j, j ≠ s.nextInodeId → j ≠ parentId → s'.nodes j = s.nodes j := by
    intro j hj hjp
    simp [s', s₁, setNode, hj, hjp]
  have hnodeP : s'.nodes parentId = some parent' := by simp [s', s₁, setNode]
  have hnodeC : s'.nodes s.nextInodeId = some child := by simp [s', s₁, setNode, hne]
  have hfile : ∀ j, j ≠ s.nextInodeId → s'.fileAt j = s.fileAt j := by
    intro j hj
    by_cases hjp : j = parentId
    · simp [fileAt, hjp, hnodeP, hparent, hdir, hdir']
    · simp [fileAt, hnodes j hj hjp]
  have hviews : s'.blocksOf = s.blocksOf ∧ s'.sizeOf = s.sizeOf := by
    constructor
    · funext j
      by_cases hj : j = s.nextInodeId
      · subst j
        by_cases hf : child.inode.type = .file
        · simp [blocksOf, fileAt, hnodeC, hnew, hf, hblocks]
        · simp [blocksOf, fileAt, hnodeC, hnew, hf]
      · simp [blocksOf, hfile j hj]
    · funext j
      by_cases hj : j = s.nextInodeId
      · subst j
        by_cases hf : child.inode.type = .file
        · simp [sizeOf, fileAt, hnodeC, hnew, hf, hsize]
        · simp [sizeOf, fileAt, hnodeC, hnew, hf]
      · simp [sizeOf, hfile j hj]
  obtain ⟨hblocksOf, hsizeOf⟩ := hviews
  refine ⟨⟨?_, ?_, ?_, ?_, ?_, h.fd_fresh⟩, hnodeC, ?_⟩
  · intro j
    rw [hblocksOf, hsizeOf, othersOf_congr hblocksOf]
    exact (h.owned j).of_files rfl rfl rfl
  · intro j
    rw [hblocksOf, hsizeOf]
    exact h.enough j
  · intro j n hn
    by_cases hj : j = s.nextInodeId
    · subst j
      obtain rfl : child = n := Option.some.inj (hnodeC.symm.trans hn)
      exact hchild
    · by_cases hjp : j = parentId
      · subst j
        obtain rfl : parent' = n := Option.some.inj (hnodeP.symm.trans hn)
        exact hid.trans (h.id_eq parentId parent hparent)
      · exact h.id_eq j n ((hnodes j hj hjp).symm.trans hn)
  · intro j hj
    have hj : s.nextInodeId + 1 ≤ j := hj
    have hjn : j ≠ s.nextInodeId := Nat.ne_of_gt hj
    have hnone := h.fresh j (Nat.le_of_succ_le hj)
    exact (hnodes j hjn (ne_of_found hparent hnone)).trans hnone
  · intro fd state hfd
    obtain ⟨hlt, htype⟩ := h.fd_file fd state hfd
    refine ⟨Nat.lt_succ_of_lt hlt, fun n hn => ?_⟩
    have hjn : state.inodeId ≠ s.nextInodeId := Nat.ne_of_lt hlt
    have hjp := h.fd_ne hfd hparent hdir
    exact htype n ((hnodes _ hjn hjp).symm.trans hn)
  · intro j hj
    rw [content, content, hfile j hj]
    rfl

theorem createEntry_spec (h : Inv s) (hroom : s.nextInodeId + 1 < 2 ^ 32) (path : List Char)
    (type : InodeType) :
    (∃ r, s.createEntry path type = (r, s) ∧ ∀ k, r ≠ some (.ok k)) ∨
      ∃ s' node, s.createEntry path type = (some (.ok s.nextInodeId), s') ∧ Inv s' ∧
        s'.fdTable = s.fdTable ∧ s'.nodes s.nextInodeId = some node ∧ node.inode.type = type ∧
        node.inode.size = 0 ∧ ∀ j, j ≠ s.nextInodeId → s'.content j = s.content j := by
  unfold createEntry
  cases s.resolveParent path with
  | error e => exact Or.inl ⟨_, rfl, by simp⟩
  | ok target =>
    obtain ⟨parentId, name⟩ := target
    dsimp only
    cases hparent : s.nodes parentId with
    | none => exact Or.inl ⟨_, rfl, by simp⟩
    | some parent =>
      dsimp only
      by_cases hdir : parent.inode.type ≠ .directory
      · exact Or.inl ⟨_, if_pos hdir, by simp⟩
      by_cases hname : name ∈ parent.children
      · exact Or.inl ⟨_, by rw [if_neg hdir, if_pos hname], by simp⟩
      rw [if_neg hdir, if_neg hname]
      by_cases hrehash : s.rehashes s.nextInodeId = true
      · exact Or.inl ⟨_, if_pos hrehash, by simp⟩
      rw [if_neg hrehash]
      have hdir : parent.inode.type = .directory := not_not.mp hdir
      have hnew : s.nodes s.nextInodeId = none := h.fresh _ le_rfl
      let child : Node := { inode := {
        id := s.nextInodeId, type := type, parent := some parentId
        createdAt := s.nextTick, modifiedAt := s.nextTick } }
      let s₁ := { s with nextInodeId := (s.nextInodeId + 1) % 2 ^ 32, tick := s.nextTick }.emplace
        s.nextInodeId child
      obtain ⟨hinv, hchild, hcontent⟩ := h.addChild hroom hparent hdir child
        {
          inode := { parent.inode with
            size := (parent.children.insert name s.nextInodeId).entries.length
            modifiedAt := s₁.nextTick }
          children := parent.children.insert name s.nextInodeId }
        rfl rfl rfl rfl hdir s.nextTick s₁.nextTick
      refine Or.inr ⟨_, child, rfl, hinv, ?_, hchild, rfl, rfl, hcontent⟩
      simp [setNode, emplace, hnew]

theorem openNode_spec (h : Inv s) (i : InodeId) (mode : OpenMode) :
    (∃ r, s.openNode i mode = (r, s) ∧ ∀ fd, r ≠ some (.ok fd)) ∨
      ∃ fd s' state, s.openNode i mode = (some (.ok fd), s') ∧ Inv s' ∧
        s'.fdTable.entries = update s.fdTable.entries fd (some state) ∧ state.inodeId = i ∧
        (∃ l, s.content i = some l ∧
          s'.content i = some (if hasOpenMode mode .truncate then [] else l)) ∧
        ∀ j, j ≠ i → s'.content j = s.content j := by
  unfold openNode
  cases hnode : s.nodes i with
  | none => exact Or.inl ⟨_, rfl, by simp⟩
  | some node =>
    dsimp only
    by_cases hfile : node.inode.type ≠ .file
    · exact Or.inl ⟨_, if_pos hfile, by simp⟩
    rw [if_neg hfile]
    have hfile : node.inode.type = .file := not_not.mp hfile
    have hid := h.id_eq i node hnode
    have hbefore := content_of_file hnode hfile
    by_cases htrunc : hasOpenMode mode .truncate = true
    · simp only [htrunc, ↓reduceIte]
      have hown := h.owned i
      rw [blocksOf_of_file hnode hfile] at hown
      obtain ⟨r, s₁, blocks, hrun, hown₁, hre, hcase⟩ := ensureFileBlocks_spec hown 0
      obtain ⟨rfl, hlen, -⟩ := hcase.resolve_right fun hc => absurd hc.1 (Nat.lt_irrefl 0)
      obtain rfl : blocks = [] := List.length_eq_zero_iff.mp (by simpa [requiredBlocks] using hlen)
      have hempty : Owned s₁ (s.othersOf i) [] 0 :=
        { hown₁ with tail := fun x _ => byteAt_eq_zero (Nat.zero_le _) }
      obtain ⟨hinv, hself, hothers⟩ := h.store
        { node with inode := { node.inode with
          blocks := [], size := 0, modifiedAt := s₁.nextTick } }
        hnode hre hempty (Nat.zero_le _) hfile rfl rfl rfl s₁.nextTick
      have hfds : s₁.fdTable = s.fdTable := by rw [hre.shape]
      have hstored : ∀ (t : SimpleFs) n, (t.setNode i n).nodes node.inode.id = some n :=
        fun t n => by simp [setNode, hid]
      simp only [hrun]
      rcases openFd_spec hinv s ⟨node.inode.id, 0, mode⟩ ⟨_, hstored _ _, hfile⟩ with
        he | ⟨fds, he, hinv', hentries⟩
      · exact Or.inl ⟨_, he, by simp⟩
      · refine Or.inr ⟨_, _, ⟨node.inode.id, 0, mode⟩, he, hinv', ?_, hid, ⟨_, hbefore, hself⟩,
          hothers⟩
        rw [hentries]
        simp only [setNode, hfds]
    · simp only [htrunc, Bool.false_eq_true, ↓reduceIte]
      rcases openFd_spec h s
        ⟨node.inode.id, if hasOpenMode mode .append then node.inode.size else 0, mode⟩
        ⟨node, by rw [hid, hnode], hfile⟩ with he | ⟨fds, he, hinv', hentries⟩
      · exact Or.inl ⟨_, he, by simp⟩
      · exact Or.inr ⟨_, _, _, he, hinv', hentries, hid, ⟨_, hbefore, hbefore⟩, fun _ _ => rfl⟩

/-- What `open` does to the descriptors and the bytes. The file is the one the path resolves to,
or a new one. -/
theorem open_spec (h : Inv s) (hroom : s.nextInodeId + 1 < 2 ^ 32) (path : List Char)
    (mode : OpenMode) :
    (∃ r s', s.open path mode = (r, s') ∧ (∀ fd, r ≠ some (.ok fd)) ∧ Inv s' ∧
      ∀ j, (s.content j).isSome → s'.content j = s.content j) ∨
    ∃ fd s' state, s.open path mode = (some (.ok fd), s') ∧ Inv s' ∧
      s'.fdTable.entries = update s.fdTable.entries fd (some state) ∧
      (∀ k, s.resolvePath path = .ok k → state.inodeId = k) ∧
      ((∃ e, s.resolvePath path = .error e) → s.content state.inodeId = none) ∧
      s'.content state.inodeId = some (if hasOpenMode mode .truncate then []
        else (s.content state.inodeId).getD []) ∧
      ∀ j, j ≠ state.inodeId → s'.content j = s.content j := by
  have hsame : ∀ r, s.open path mode = (r, s) → (∀ fd, r ≠ some (.ok fd)) →
      ∃ r s', s.open path mode = (r, s') ∧ (∀ fd, r ≠ some (.ok fd)) ∧ Inv s' ∧
        ∀ j, (s.content j).isSome → s'.content j = s.content j :=
    fun r hr hbad => ⟨r, s, hr, hbad, h, fun _ _ => rfl⟩
  by_cases hmode : (!hasOpenMode mode .read && !hasOpenMode mode .write) = true
  · exact Or.inl (hsame _ (if_pos hmode) (by simp))
  cases hpath : s.resolvePath path with
  | ok i =>
    have hopen : s.open path mode = s.openNode i mode := by
      simp only [«open», hmode, hpath, Bool.false_eq_true, ↓reduceIte]
    rcases openNode_spec h i mode with ⟨r, hr, hbad⟩ |
      ⟨fd, s', state, he, hinv, hfds, rfl, hself, hothers⟩
    · exact Or.inl (hsame r (hopen.trans hr) hbad)
    · obtain ⟨l, hl, hl'⟩ := hself
      refine Or.inr ⟨fd, s', state, hopen.trans he, hinv, hfds, ?_, by simp, ?_, hothers⟩
      · intro k hk
        cases hk
        rfl
      · rw [hl', hl]
        rfl
  | error e =>
    by_cases hcreate : (!hasOpenMode mode .create) = true
    · refine Or.inl (hsame (some (.error e)) ?_ (by simp))
      simp only [«open», hmode, hpath, hcreate, Bool.false_eq_true, ↓reduceIte]
    rcases createEntry_spec h hroom path .file with ⟨r, hr, hbad⟩ | ⟨s₁, node, he', hinv₁, hfds₁,
      hnode, htype, hsize, hothers₁⟩
    · -- without an entry the answer is passed on
      have hpass : ∃ r', s.open path mode = (r', s) ∧ ∀ fd, r' ≠ some (.ok fd) := by
        simp only [«open», hmode, hpath, hcreate, hr, Bool.false_eq_true, ↓reduceIte]
        cases r with
        | none => exact ⟨none, rfl, by simp⟩
        | some r =>
          cases r with
          | error e => exact ⟨_, rfl, by simp⟩
          | ok k => exact absurd rfl (hbad k)
      obtain ⟨r', hr', hbad'⟩ := hpass
      exact Or.inl (hsame r' hr' hbad')
    have hopen : s.open path mode = s₁.openNode s.nextInodeId mode := by
      simp only [«open», hmode, hpath, hcreate, he', Bool.false_eq_true, ↓reduceIte]
    have hnew : s.content s.nextInodeId = none := by
      simp [content, fileAt, h.fresh _ le_rfl]
    rcases openNode_spec hinv₁ s.nextInodeId mode with
      ⟨r, hr, hbad⟩ | ⟨fd, s', state, he'', hinv, hfds, hid, hself, hothers⟩
    · refine Or.inl ⟨r, s₁, hopen.trans hr, hbad, hinv₁, fun j hj => hothers₁ j ?_⟩
      rintro rfl
      simp [hnew] at hj
    · obtain ⟨l, hl, hl'⟩ := hself
      have hempty : l = [] := by
        rw [content_of_file hnode htype, hsize] at hl
        exact (Option.some.inj hl).symm
      refine Or.inr
        ⟨fd, s', state, hopen.trans he'', hinv, by rw [hfds, hfds₁], by simp, ?_, ?_, ?_⟩
      · intro _
        rw [hid, hnew]
      · rw [hid, hl', hnew, hempty]
        simp
      · intro j hj
        rw [hid] at hj
        rw [hothers j hj, hothers₁ j hj]

theorem readFromNode_spec (h : Inv s) (hnode : s.nodes i = some node)
    (hf : node.inode.type = .file) (offset n : ℕ) :
    s.readFromNode node offset n =
      some (((contents s.disk s.blockSize node.inode.blocks
        node.inode.size).drop offset).take n) := by
  have hown := h.owned i
  have henough := h.enough i
  rw [blocksOf_of_file hnode hf, sizeOf_of_file hnode hf] at henough
  rw [blocksOf_of_file hnode hf] at hown
  unfold readFromNode
  split_ifs with hn hoff
  · simp [hn]
  · rw [List.drop_of_length_le (by simpa using hoff)]
    simp
  · rw [← contents_slice]
    exact readChunks_spec hown.blockSize_pos hown.uniform (fun b hb => hown.mem_lt hb) (by omega)
      le_rfl

theorem read_spec (h : Inv s) (fd : FileDescriptor) (n : ℕ) :
    (∃ e, s.read fd n = (some (.error e), s)) ∨
      ∃ state l, s.fdTable.entries fd = some state ∧ s.content state.inodeId = some l ∧
        (s.read fd n).1 = some (.ok ((l.drop state.offset).take n)) ∧ Inv (s.read fd n).2 ∧
        (s.read fd n).2.fdTable.entries = update s.fdTable.entries fd
          (some { state with offset := state.offset + ((l.drop state.offset).take n).length }) ∧
        ∀ j, (s.read fd n).2.content j = s.content j := by
  unfold read
  cases hfd : s.fdTable.entries fd with
  | none => exact Or.inl ⟨_, rfl⟩
  | some state =>
    dsimp only
    by_cases hmode : (!hasOpenMode state.mode .read) = true
    · exact Or.inl ⟨_, if_pos hmode⟩
    rw [if_neg hmode]
    cases hnode : s.nodes state.inodeId with
    | none => exact Or.inl ⟨_, rfl⟩
    | some node =>
      have hf := (h.fd_file fd state hfd).2 node hnode
      simp only [readFromNode_spec h hnode hf]
      refine Or.inr ⟨state, _, rfl, content_of_file hnode hf, rfl, ?_, rfl, fun _ => rfl⟩
      exact h.setFd hfd _ ⟨node, hnode, hf⟩

theorem writeToNode_spec (h : Inv s) (hnode : s.nodes i = some node)
    (hf : node.inode.type = .file) (offset : ℕ) {data : List Byte} (hdata : data ≠ []) :
    ∃ r s' node', s.writeToNode i node offset data = (some r, s') ∧ Inv s' ∧
      s'.fdTable = s.fdTable ∧ s'.nodes i = some node' ∧ node'.inode.type = .file ∧
      (∀ j, j ≠ i → s'.content j = s.content j) ∧
      ((∃ e, r = .error e ∧ s'.content i = s.content i) ∨
        (r = .ok data.length ∧ s'.content i = some (splice
          (contents s.disk s.blockSize node.inode.blocks node.inode.size) offset data))) := by
  have hown := h.owned i
  have henough := h.enough i
  rw [blocksOf_of_file hnode hf, sizeOf_of_file hnode hf] at henough hown
  have hbefore := content_of_file hnode hf
  have hstored : ∀ (t : SimpleFs) n,
    (t.setNode i n).nodes i = some n := fun t n => by simp [setNode]
  have hempty : data.isEmpty = false := by simpa using hdata
  obtain ⟨r, s₁, blocks, hrun, hown₁, hre, hcase⟩ :=
    ensureFileBlocks_spec hown (max node.inode.size (offset + data.length))
  have hfds : s₁.fdTable = s.fdTable := by rw [hre.shape]
  rcases hcase with ⟨rfl, hlen, hkeep⟩ | ⟨-, ⟨e, rfl⟩, hle, hkeep⟩
  · -- enough blocks: the bytes up to the new size are unchanged, the rest is zero on both sides
    have hsame : ∀ x, byteAt s₁.disk s₁.blockSize blocks x =
        byteAt s.disk s.blockSize node.inode.blocks x := by
      intro x
      by_cases hx : x < max node.inode.size (offset + data.length)
      · exact hkeep x hx
      · rw [hown₁.tail x (by omega), hown.tail x (by omega)]
    have hfit := (requiredBlocks_spec hown.blockSize_pos
      (max node.inode.size (offset + data.length))).1
    rw [← hlen, ← hre.blockSize] at hfit
    obtain ⟨disk, hwrite, hU, hdlen, hframe, hbyte⟩ :=
      writeChunks_spec offset data hown₁.blockSize_pos hown₁.uniform
        hown₁.nodup (fun b hb => hown₁.mem_lt hb) (by omega) le_rfl
    have hfree : ∀ b : ℕ, s₁.allocator.freeBitmap[b]? = some true → b ∉ blocks := by
      intro b hb hin
      rw [(hown₁.used b).mpr (Or.inl hin)] at hb
      cases hb
    have hown₂ : Owned { s₁ with disk := disk } (s.othersOf i) blocks
        (max node.inode.size (offset + data.length)) := by
      refine ⟨hown₁.blockSize_pos, hU, hown₁.length.trans hdlen.symm, hown₁.count, hown₁.nodup,
        hown₁.apart, hown₁.used, ?_, ?_⟩
      · intro b hb
        exact (hframe b (hfree b hb)).trans (hown₁.blank b hb)
      · intro x hx
        change byteAt disk s₁.blockSize blocks x = 0
        rw [hbyte x, if_neg (by omega)]
        exact hown₁.tail x (by omega)
    have hre₂ : Reblocked s (s.othersOf i) { s₁ with disk := disk } :=
      hre.trans ⟨rfl, fun b hb => hframe b fun hin => hown₁.apart b hin hb⟩
    obtain ⟨hinv, hself, hothers⟩ := h.store
      { node with inode := { node.inode with
        blocks := blocks
        size := max node.inode.size (offset + data.length)
        modifiedAt := s₁.nextTick } }
      hnode hre₂ hown₂ hfit hf rfl rfl rfl s₁.nextTick
    refine ⟨.ok data.length, _, _, ?_, hinv, hfds, hstored _ _, hf, hothers, Or.inr ⟨rfl, ?_⟩⟩
    · simp only [writeToNode, hempty, Bool.false_eq_true, ↓reduceIte, hrun, hwrite]
    · rw [hself]
      refine congrArg some ?_
      change contents disk s₁.blockSize blocks _ = _
      rw [hre.blockSize] at hbyte hsame ⊢
      exact contents_splice (fun x hx => hown.tail x hx) fun x => by rw [hbyte x, hsame x]
  · obtain ⟨hinv, hself, hothers⟩ := h.store
      { node with inode := { node.inode with blocks := blocks } } hnode hre hown₁
      (by
        rw [hre.blockSize]
        exact henough.trans (Nat.mul_le_mul_left _ hle))
      hf rfl rfl rfl s₁.tick
    refine ⟨.error e, _, _, ?_, hinv, hfds, hstored _ _, hf, hothers, Or.inl ⟨e, rfl, ?_⟩⟩
    · simp only [writeToNode, hempty, Bool.false_eq_true, ↓reduceIte, hrun]
    · rw [hself, hbefore, hre.blockSize]
      rw [hre.blockSize] at hkeep
      exact congrArg some (contents_congr fun x _ => hkeep x)

theorem write_spec (h : Inv s) (fd : FileDescriptor) (data : List Byte) :
    Inv (s.write fd data).2 ∧
    ((∃ r, (s.write fd data).1 = some r ∧ (data = [] ∨ ∃ e, r = .error e) ∧
        ∀ j, (s.write fd data).2.content j = s.content j) ∨
      ∃ state l, data ≠ [] ∧ s.fdTable.entries fd = some state ∧
        s.content state.inodeId = some l ∧ (s.write fd data).1 = some (.ok data.length) ∧
        (s.write fd data).2.content state.inodeId = some (splice l
          (if hasOpenMode state.mode .append then l.length else state.offset) data) ∧
        ∀ j, j ≠ state.inodeId → (s.write fd data).2.content j = s.content j) := by
  unfold write
  cases hfd : s.fdTable.entries fd with
  | none => exact ⟨h, Or.inl ⟨_, rfl, Or.inr ⟨_, rfl⟩, fun _ => rfl⟩⟩
  | some state =>
    dsimp only
    by_cases hmode : (!hasOpenMode state.mode .write) = true
    · rw [if_pos hmode]
      exact ⟨h, Or.inl ⟨_, rfl, Or.inr ⟨_, rfl⟩, fun _ => rfl⟩⟩
    rw [if_neg hmode]
    cases hnode : s.nodes state.inodeId with
    | none => exact ⟨h, Or.inl ⟨_, rfl, Or.inr ⟨_, rfl⟩, fun _ => rfl⟩⟩
    | some node =>
      have hf := (h.fd_file fd state hfd).2 node hnode
      dsimp only
      by_cases hdata : data = []
      · have hrun : ∀ offset, s.writeToNode state.inodeId node offset data = (some (.ok 0), s) :=
          fun offset => by simp [writeToNode, hdata]
        simp only [hrun]
        exact ⟨h.setFd hfd _ ⟨node, hnode, hf⟩, Or.inl ⟨_, rfl, Or.inl hdata, fun _ => rfl⟩⟩
      obtain ⟨r, s', node', hrun, hinv, hfds, hnode', hf', hothers, hcase⟩ :=
        writeToNode_spec h hnode hf
          (if hasOpenMode state.mode .append then node.inode.size else state.offset) hdata
      rcases hcase with ⟨e, rfl, hself⟩ | ⟨rfl, hself⟩
      · simp only [hrun]
        refine ⟨hinv, Or.inl ⟨_, rfl, Or.inr ⟨e, rfl⟩, fun j => ?_⟩⟩
        by_cases hj : j = state.inodeId
        · rw [hj, hself]
        · exact hothers j hj
      · simp only [hrun]
        refine ⟨hinv.setFd (hfds ▸ hfd) _ ⟨node', hnode', hf'⟩, Or.inr ⟨state, _, hdata, rfl,
          content_of_file hnode hf, trivial, ?_, hothers⟩⟩
        rw [length_contents]
        exact hself

end SimpleFs
end Contur
