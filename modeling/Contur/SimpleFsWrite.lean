import Contur.SimpleFsBlocks

/-!
# A write that fails

`writeToNode` attaches blocks to the file one by one and stops at the first that it
does not get. Nothing takes the attached blocks back: a write that runs out of
blocks leaves the file with every block that was free, and everything else as it
was. The results hold in every reachable state, also after the inode numbers have
wrapped around and one node has several names, so the invariant speaks about the
block lists of all nodes and not about names or types.
-/

namespace Contur
open Function (update)
open Transition

namespace SimpleFs
variable {s s' : SimpleFs} {others : Set ℕ} {blocks : List ℕ}

theorem growBlocks_held (h : Held s.allocator others blocks) (n : ℕ) :
    ∃ r a taken, s.growBlocks blocks n = (r, { s with allocator := a }, blocks ++ taken) ∧
      Held a others (blocks ++ taken) ∧
      (∀ b ∈ taken, s.allocator.freeBitmap[b]? = some true) ∧
      (∀ b : ℕ, a.freeBitmap[b]? = if b ∈ taken then some false else s.allocator.freeBitmap[b]?) ∧
      ((r = .ok () ∧ taken.length = n) ∨
        (r = .error .outOfMemory ∧ taken.length < n ∧ a.freeCount = 0)) := by
  induction n generalizing s blocks with
  | zero =>
    refine ⟨.ok (), s.allocator, [], ?_, ?_, by simp, by simp, Or.inl ⟨rfl, rfl⟩⟩
    · rw [List.append_nil]
      rfl
    · rwa [List.append_nil]
  | succ n ih =>
    rcases h.allocate with ⟨heq, hzero⟩ | ⟨b, a, heq, hfree, hbits, hheld⟩
    · refine ⟨.error .outOfMemory, s.allocator, [], ?_, ?_, by simp, by simp,
        Or.inr ⟨rfl, by simp, hzero⟩⟩
      · simp only [growBlocks, heq, List.append_nil]
      · rwa [List.append_nil]
    · have hlt : b < s.allocator.freeBitmap.length := (List.getElem?_eq_some_iff.mp hfree).1
      obtain ⟨r, a', taken, hrun, hheld', hfrom, hbits', hcase⟩ :=
        @ih { s with allocator := a } (blocks ++ [b]) hheld
      refine ⟨r, a', b :: taken, ?_, ?_, ?_, ?_, ?_⟩
      · simp only [growBlocks, heq, hrun, List.append_assoc, List.singleton_append]
      · simpa using hheld'
      · intro c hc
        rcases List.mem_cons.mp hc with rfl | hc
        · exact hfree
        · have hc := hfrom c hc
          by_cases hcb : c = b
          · rwa [hcb]
          · rwa [hbits, List.getElem?_set_ne (Ne.symm hcb)] at hc
      · intro c
        rw [hbits' c, hbits]
        by_cases hcb : c = b
        · simp [hcb, List.getElem?_set_self hlt]
        · simp [hcb, List.getElem?_set_ne (Ne.symm hcb)]
      · simpa using hcase

def blanked (s : SimpleFs) (blocks : List ℕ) : List (List Byte) :=
  blocks.foldr (fun b disk => disk.set b (List.replicate s.blockSize 0)) s.disk

theorem shrinkBlocks_held (h : Held s.allocator others blocks) {n : ℕ} (hn : n ≤ blocks.length) :
    ∃ a, s.shrinkBlocks blocks n =
        (.ok (), { s with disk := s.blanked (blocks.drop (blocks.length - n)), allocator := a },
          blocks.take (blocks.length - n)) ∧
      Held a others (blocks.take (blocks.length - n)) := by
  induction n generalizing s blocks with
  | zero =>
    rw [Nat.sub_zero, List.take_length, List.drop_length]
    exact ⟨s.allocator, rfl, h⟩
  | succ n ih =>
    rcases List.eq_nil_or_concat blocks with rfl | ⟨front, b, rfl⟩
    · simp at hn
    rw [List.concat_eq_append] at h hn ⊢
    obtain ⟨hfront, -, hb⟩ := List.nodup_append.mp h.nodup
    obtain ⟨a, hfree, -, hheld⟩ := h.free (b := b) (by simp) hfront fun c hc =>
      ⟨List.mem_append_left _ hc, hb c hc b (List.mem_singleton_self b)⟩
    have hlen : (front ++ [b]).length - (n + 1) = front.length - n := by
      rw [List.length_append, List.length_singleton, Nat.add_sub_add_right]
    rw [hlen, List.take_append_of_le_length (Nat.sub_le _ _),
      List.drop_append_of_le_length (Nat.sub_le _ _)]
    obtain ⟨a', hrun, hheld'⟩ := @ih ({ s with allocator := a }.wipe b) front hheld
      (by simpa using hn)
    refine ⟨a', ?_, hheld'⟩
    simp only [shrinkBlocks, List.getLast?_append, List.getLast?_singleton, Option.some_or,
      hfree, List.dropLast_concat, hrun, blanked, List.foldr_append, List.foldr_cons,
      List.foldr_nil]
    rfl

theorem freeBlocks_held (h : Held s.allocator others blocks) :
    ∃ disk a, s.freeBlocks blocks = (.ok (), { s with disk := disk, allocator := a }) ∧
      Held a others [] := by
  induction blocks generalizing s with
  | nil => exact ⟨s.disk, s.allocator, rfl, h⟩
  | cons b bs ih =>
    obtain ⟨hb, hbs⟩ := List.nodup_cons.mp h.nodup
    have hmem : ∀ c ∈ bs, c ∈ b :: bs ∧ c ≠ b := by
      intro c hc
      refine ⟨List.mem_cons_of_mem b hc, ?_⟩
      rintro rfl
      exact hb hc
    obtain ⟨a, hfree, -, hheld⟩ := h.free List.mem_cons_self hbs hmem
    obtain ⟨disk, a', hrun, hheld'⟩ := @ih ({ s with allocator := a }.wipe b) hheld
    refine ⟨disk, a', ?_, hheld'⟩
    simp only [freeBlocks, hfree, hrun]
    rfl

theorem ensureFileBlocks_held (h : Held s.allocator others blocks) (n : ℕ) :
    (∃ disk a blocks', s.ensureFileBlocks blocks n =
        (.ok (), { s with disk := disk, allocator := a }, blocks') ∧ Held a others blocks') ∨
      ∃ a taken, s.ensureFileBlocks blocks n =
          (.error .outOfMemory, { s with allocator := a }, blocks ++ taken) ∧
        blocks.length < s.requiredBlocks n ∧ Held a others (blocks ++ taken) ∧
        (∀ b ∈ taken, s.allocator.freeBitmap[b]? = some true) ∧
        (∀ b : ℕ, a.freeBitmap[b]? = if b ∈ taken then some false
          else s.allocator.freeBitmap[b]?) ∧
        a.freeCount = 0 := by
  obtain ⟨r, a, taken, hgrow, hheld, hfrom, hbits, hcase⟩ :=
    growBlocks_held h (s.requiredBlocks n - blocks.length)
  rcases hcase with ⟨rfl, hlen⟩ | ⟨rfl, hlt, hzero⟩
  · left
    obtain ⟨a', hshrink, hheld'⟩ := shrinkBlocks_held (s := { s with allocator := a }) hheld
      (n := (blocks ++ taken).length - s.requiredBlocks n) (Nat.sub_le _ _)
    have hrun : s.ensureFileBlocks blocks n = { s with allocator := a }.shrinkBlocks
        (blocks ++ taken) ((blocks ++ taken).length - s.requiredBlocks n) := by
      simp only [ensureFileBlocks, hgrow]
    exact ⟨_, a', _, hrun.trans hshrink, hheld'⟩
  · right
    exact ⟨a, taken, by simp only [ensureFileBlocks, hgrow], by omega, hheld, hfrom, hbits, hzero⟩

theorem ensureFileBlocks_of_le {n : ℕ} (hn : s.requiredBlocks n ≤ blocks.length) :
    s.ensureFileBlocks blocks n = s.shrinkBlocks blocks (blocks.length - s.requiredBlocks n) := by
  have hgrow : s.growBlocks blocks (s.requiredBlocks n - blocks.length) = (.ok (), s, blocks) := by
    rw [Nat.sub_eq_zero_of_le hn]
    rfl
  simp only [ensureFileBlocks, hgrow]

theorem ensureFileBlocks_enough {t : SimpleFs} {others' : Set ℕ} {n : ℕ}
    (hn : s.requiredBlocks n ≤ blocks.length) (hsize : t.blockSize = s.blockSize)
    (hdisk : t.disk = s.disk) (h : Held s.allocator others blocks)
    (h' : Held t.allocator others' blocks) :
    ∃ disk a₁ a₂ blocks',
      s.ensureFileBlocks blocks n = (.ok (), { s with disk := disk, allocator := a₁ }, blocks') ∧
      t.ensureFileBlocks blocks n =
        (.ok (), { t with disk := disk, allocator := a₂ }, blocks') := by
  have hreq : t.requiredBlocks n = s.requiredBlocks n := by
    simp only [requiredBlocks, hsize]
  have hblank : ∀ bs, t.blanked bs = s.blanked bs := by
    intro bs
    simp only [blanked, hsize, hdisk]
  have hle : blocks.length - s.requiredBlocks n ≤ blocks.length := Nat.sub_le _ _
  obtain ⟨a₁, hrun₁, -⟩ := shrinkBlocks_held h hle
  obtain ⟨a₂, hrun₂, -⟩ := shrinkBlocks_held h' hle
  rw [hblank] at hrun₂
  refine ⟨_, a₁, a₂, _, (ensureFileBlocks_of_le hn).trans hrun₁, ?_⟩
  rw [ensureFileBlocks_of_le (hreq ▸ hn), hreq]
  exact hrun₂

theorem ensureFileBlocks_full {n : ℕ} (hn : blocks.length < s.requiredBlocks n)
    (hfull : s.allocator.freeCount = 0) :
    s.ensureFileBlocks blocks n = (.error .outOfMemory, s, blocks) := by
  obtain ⟨k, hk⟩ := Nat.exists_eq_succ_of_ne_zero (Nat.sub_ne_zero_of_lt hn)
  have hgrow : s.growBlocks blocks (s.requiredBlocks n - blocks.length) =
      (.error .outOfMemory, s, blocks) := by
    rw [hk]
    simp only [growBlocks, BlockAllocator.allocate, hfull, ↓reduceIte]
  simp only [ensureFileBlocks, hgrow]

def blocksAt (s : SimpleFs) (i : InodeId) : List ℕ :=
    (s.nodes i).elim [] fun node => node.inode.blocks
def othersAt (s : SimpleFs) (i : InodeId) : Set ℕ := {b | ∃ j, j ≠ i ∧ b ∈ s.blocksAt j}

def AllHeld (s : SimpleFs) : Prop := ∀ i, Held s.allocator (s.othersAt i) (s.blocksAt i)

theorem blocksAt_of_node {i : InodeId} {node : Node} (h : s.nodes i = some node) :
    s.blocksAt i = node.inode.blocks := by
  simp [blocksAt, h]

theorem AllHeld.of_node {i : InodeId} {node : Node} (h : AllHeld s)
    (hnode : s.nodes i = some node) :
    Held s.allocator (s.othersAt i) node.inode.blocks := by
  rw [← blocksAt_of_node hnode]
  exact h i

theorem allHeld_init (totalBlocks blockSize bucketCount : ℕ) :
    AllHeld (init totalBlocks blockSize bucketCount) := by
  have hblocks : ∀ i, (init totalBlocks blockSize bucketCount).blocksAt i = [] := by
    intro i
    by_cases hi : i = rootInodeId
    · simp [blocksAt, init, hi]
    · simp [blocksAt, init, hi]
  intro i
  rw [hblocks]
  refine ⟨by simp [init, BlockAllocator.ofTotal], List.nodup_nil, by simp, ?_⟩
  simp [othersAt, hblocks]

/-- At most one node has other blocks than before, and it holds them apart from the rest. -/
structure Reheld (s : SimpleFs) (i : InodeId) (s' : SimpleFs) : Prop where
  self : Held s'.allocator (s.othersAt i) (s'.blocksAt i)
  rest : ∀ j, j ≠ i → s'.blocksAt j = s.blocksAt j

theorem Reheld.of_same {i : InodeId} (h : AllHeld s) (ha : s'.allocator = s.allocator)
    (hb : ∀ j, s'.blocksAt j = s.blocksAt j) : Reheld s i s' :=
  ⟨by rw [ha, hb]; exact h i, fun j _ => hb j⟩

theorem Reheld.allHeld {i : InodeId} (hre : Reheld s i s') (h : AllHeld s) : AllHeld s' := by
  have hself : s'.othersAt i = s.othersAt i := by
    ext b
    simp only [othersAt, Set.mem_ofPred_eq]
    refine exists_congr fun j => and_congr_right fun hj => ?_
    rw [hre.rest j hj]
  intro j
  by_cases hj : j = i
  · rw [hj, hself]
    exact hre.self
  have hmine : ∀ b ∈ s.blocksAt j, b ∈ s.othersAt i := fun b hb => ⟨j, hj, hb⟩
  have hothers : ∀ b ∈ s'.othersAt j, b ∈ s'.blocksAt i ∨
      (b ∈ s.othersAt i ∧ b ∈ s.othersAt j) := by
    rintro b ⟨k, hkj, hb⟩
    by_cases hki : k = i
    · exact Or.inl (hki ▸ hb)
    · rw [hre.rest k hki] at hb
      exact Or.inr ⟨⟨k, hki, hb⟩, ⟨k, hkj, hb⟩⟩
  rw [hre.rest j hj]
  refine ⟨hre.self.count, (h j).nodup, ?_, ?_⟩
  · intro b hb hin
    rcases hothers b hin with hin | ⟨-, hin⟩
    · exact hre.self.apart b hin (hmine b hb)
    · exact (h j).apart b hb hin
  · intro b hb
    apply hre.self.used b
    rcases hb with hb | hb
    · exact Or.inr (hmine b hb)
    · exact (hothers b hb).imp_right And.left

theorem Reheld.store {i : InodeId} (node : Node) {disk : List (List Byte)} {a : BlockAllocator}
    (h : Held a (s.othersAt i) node.inode.blocks) (tick : Tick) (fds : FileDescriptorTable) :
    Reheld s i { { s with disk := disk, allocator := a, tick := tick }.setNode i node with
      fdTable := fds } := by
  refine ⟨?_, fun j hj => ?_⟩
  · simpa [blocksAt, setNode] using h
  · simp [blocksAt, setNode, hj]

theorem createEntry_blocksAt (s : SimpleFs) (path : List Char) (type : InodeType) :
    (s.createEntry path type).2.allocator = s.allocator ∧
      ∀ j, (s.createEntry path type).2.blocksAt j = s.blocksAt j := by
  unfold createEntry
  split
  · exact ⟨rfl, fun _ => rfl⟩
  next parentId name _ =>
  cases hparent : s.nodes parentId with
  | none => exact ⟨rfl, fun _ => rfl⟩
  | some parent =>
    dsimp only
    split_ifs with hdir hname hrehash
    · exact ⟨rfl, fun _ => rfl⟩
    · exact ⟨rfl, fun _ => rfl⟩
    · exact ⟨rfl, fun _ => rfl⟩
    · refine ⟨?_, fun j => ?_⟩
      · simp only [emplace, setNode]
        split <;> rfl
      by_cases hj : j = parentId
      · simp [blocksAt, setNode, hj, hparent]
      · -- a number that is taken keeps its node, a free one gets a node without blocks
        by_cases hnew : j = s.nextInodeId
        · cases hnode : s.nodes s.nextInodeId with
          | none => simp [blocksAt, setNode, emplace, hnew ▸ hj, hnew, hnode]
          | some node => simp [blocksAt, setNode, emplace, hnew ▸ hj, hnew, hnode]
        · cases hnode : s.nodes s.nextInodeId with
          | none => simp [blocksAt, setNode, emplace, hj, hnew, hnode]
          | some node => simp [blocksAt, setNode, emplace, hj, hnode]

theorem Reheld.openFd {i : InodeId} (h : AllHeld s) (hre : Reheld s i s') (state : OpenFileState) :
    Reheld s i (s.openFd s' state).2 := by
  unfold SimpleFs.openFd
  split
  · exact .of_same h rfl fun _ => rfl
  · exact ⟨hre.self, hre.rest⟩

theorem openNode_reheld (h : AllHeld s) (i : InodeId) (mode : OpenMode) :
    Reheld s i (s.openNode i mode).2 := by
  have hsame : Reheld s i s := .of_same h rfl fun _ => rfl
  unfold openNode
  cases hnode : s.nodes i with
  | none => exact hsame
  | some node =>
    dsimp only
    by_cases htype : node.inode.type ≠ .file
    · rw [if_pos htype]
      exact hsame
    rw [if_neg htype]
    by_cases htrunc : hasOpenMode mode .truncate = true
    · rw [if_pos htrunc]
      rcases ensureFileBlocks_held (h.of_node hnode) 0 with ⟨disk, a, blocks, hrun, hheld⟩ |
        ⟨a, taken, hrun, -, hheld, -⟩
      · simp only [hrun]
        exact Reheld.openFd h (Reheld.store { node with inode := { node.inode with
          blocks := blocks, size := 0, modifiedAt := s.nextTick } } hheld _ s.fdTable) _
      · simp only [hrun]
        exact Reheld.store { node with inode := { node.inode with
          blocks := node.inode.blocks ++ taken } } hheld s.tick s.fdTable
    · rw [if_neg htrunc]
      exact Reheld.openFd h hsame _

theorem open_reheld (h : AllHeld s) (path : List Char) (mode : OpenMode) :
    ∃ i, Reheld s i (s.open path mode).2 := by
  have hsame : Reheld s rootInodeId s := .of_same h rfl fun _ => rfl
  unfold «open»
  split
  · exact ⟨_, hsame⟩
  split
  · exact ⟨_, openNode_reheld h _ mode⟩
  split
  · exact ⟨_, hsame⟩
  obtain ⟨halloc, hblocks⟩ := createEntry_blocksAt s path .file
  split
  · next heq =>
    rw [heq] at halloc hblocks
    exact ⟨rootInodeId, .of_same h halloc hblocks⟩
  · next heq =>
    rw [heq] at halloc hblocks
    exact ⟨rootInodeId, .of_same h halloc hblocks⟩
  · next i s₁ heq =>
    rw [heq] at halloc hblocks
    have hentry : Reheld s i s₁ := .of_same h halloc hblocks
    have hnode := openNode_reheld (hentry.allHeld h) i mode
    -- the blocks are those from before the entry was made
    have hothers : s₁.othersAt i = s.othersAt i := by
      ext b
      simp only [othersAt, hblocks]
    refine ⟨i, hothers ▸ hnode.self, fun j hj => ?_⟩
    rw [hnode.rest j hj]
    exact hblocks j

theorem writeToNode_reheld (h : AllHeld s) {i : InodeId} {node : Node}
    (hnode : s.nodes i = some node)
    (offset : ℕ) (data : List Byte) : Reheld s i (s.writeToNode i node offset data).2 := by
  unfold writeToNode
  split_ifs
  · exact .of_same h rfl fun _ => rfl
  dsimp only
  rcases ensureFileBlocks_held (h.of_node hnode) (max node.inode.size (offset + data.length)) with
    ⟨disk, a, blocks, hrun, hheld⟩ | ⟨a, taken, hrun, -, hheld, -⟩
  · simp only [hrun]
    split
    · exact Reheld.store { node with inode := { node.inode with blocks := blocks } }
        hheld s.tick s.fdTable
    · exact Reheld.store { node with inode := { node.inode with
        blocks := blocks, size := max node.inode.size (offset + data.length)
        modifiedAt := s.nextTick } } hheld s.nextTick s.fdTable
  · simp only [hrun]
    exact Reheld.store { node with inode := { node.inode with
      blocks := node.inode.blocks ++ taken } } hheld s.tick s.fdTable

theorem write_reheld (h : AllHeld s) (fd : FileDescriptor) (data : List Byte) :
    ∃ i, Reheld s i (s.write fd data).2 := by
  have hsame : Reheld s rootInodeId s := .of_same h rfl fun _ => rfl
  unfold write
  cases s.fdTable.entries fd with
  | none => exact ⟨_, hsame⟩
  | some state =>
    dsimp only
    split
    · exact ⟨_, hsame⟩
    cases hnode : s.nodes state.inodeId with
    | none => exact ⟨_, hsame⟩
    | some node =>
      have hre := writeToNode_reheld h hnode
        (if hasOpenMode state.mode .append then node.inode.size else state.offset) data
      dsimp only
      split <;> next heq =>
        rw [heq] at hre
        exact ⟨state.inodeId, hre.self, hre.rest⟩

theorem remove_reheld (h : AllHeld s) (path : List Char) : ∃ i, Reheld s i (s.remove path).2 := by
  have hsame : Reheld s rootInodeId s := .of_same h rfl fun _ => rfl
  unfold remove
  split
  · exact ⟨_, hsame⟩
  next parentId name _ =>
  cases hparent : s.nodes parentId with
  | none => exact ⟨_, hsame⟩
  | some parent =>
    dsimp only
    by_cases hdir : parent.inode.type ≠ .directory
    · rw [if_pos hdir]
      exact ⟨_, hsame⟩
    rw [if_neg hdir]
    split
    · exact ⟨_, hsame⟩
    next childId _ =>
    cases hchild : s.nodes childId with
    | none => exact ⟨_, hsame⟩
    | some node =>
      dsimp only
      split
      · exact ⟨_, hsame⟩
      split
      · exact ⟨_, hsame⟩
      -- a file is not its own parent, and a directory keeps its blocks marked
      refine ⟨childId, ?_⟩
      by_cases hfile : node.inode.type = .file
      · have hne : childId ≠ parentId := by
          rintro rfl
          obtain rfl := Option.some.inj (hchild.symm.trans hparent)
          simp [hfile] at hdir
        obtain ⟨disk, a, hrun, hheld⟩ := freeBlocks_held (h.of_node hchild)
        simp only [hfile, ↓reduceIte, hrun]
        refine ⟨?_, fun j hj => ?_⟩
        · simpa [blocksAt, setNode, erase, hne] using hheld
        · by_cases hjp : j = parentId
          · simp [blocksAt, setNode, erase, hjp, hparent]
          · simp [blocksAt, setNode, erase, hjp, hj]
      · simp only [hfile, ↓reduceIte]
        refine ⟨?_, fun j hj => ?_⟩
        · by_cases hcp : childId = parentId
          · have hheld := h.of_node hchild
            obtain rfl : node = parent := Option.some.inj (hchild.symm.trans (hcp ▸ hparent))
            simpa [blocksAt, setNode, erase, hcp] using hcp ▸ hheld
          · simpa [blocksAt, setNode, erase, hcp] using (h.of_node hchild).nil
        · by_cases hjp : j = parentId
          · simp [blocksAt, setNode, erase, hjp, hparent]
          · simp [blocksAt, setNode, erase, hjp, hj]

theorem exec_allHeld (op : Op) (h : AllHeld s) : AllHeld (s.exec op).2 := by
  cases op with
  | «open» path mode =>
    obtain ⟨i, hre⟩ := open_reheld h path mode
    exact hre.allHeld h
  | read fd n =>
    have hsame : (s.read fd n).2.allocator = s.allocator ∧ (s.read fd n).2.nodes = s.nodes := by
      unfold read
      repeat' split
      all_goals exact ⟨rfl, rfl⟩
    obtain ⟨halloc, hnodes⟩ := hsame
    exact (Reheld.of_same (i := rootInodeId) h halloc fun j => by simp [blocksAt, hnodes]).allHeld h
  | write fd data =>
    obtain ⟨i, hre⟩ := write_reheld h fd data
    exact hre.allHeld h
  | close fd => exact (Reheld.of_same (i := rootInodeId) h rfl fun _ => rfl).allHeld h
  | mkdir path =>
    obtain ⟨halloc, hblocks⟩ := createEntry_blocksAt s path .directory
    have hre : Reheld s rootInodeId (s.mkdir path).2 :=
      .of_same h (mkdir_state s path ▸ halloc) (mkdir_state s path ▸ hblocks)
    exact hre.allHeld h
  | remove path =>
    obtain ⟨i, hre⟩ := remove_reheld h path
    exact hre.allHeld h
  | listDir path => exact h
  | stat path => exact h

theorem reachable_allHeld (totalBlocks blockSize bucketCount : ℕ) (ops : List Op) :
    AllHeld (machine.run (init totalBlocks blockSize bucketCount) ops) :=
  machine.run_invariant (fun _ op h => exec_allHeld op h)
    (allHeld_init totalBlocks blockSize bucketCount) ops

def writeOffset (state : OpenFileState) (node : Node) : ℕ :=
  if hasOpenMode state.mode .append then node.inode.size else state.offset

/-- The write has data to store, and its file too few blocks for them. -/
def needsBlocks (s : SimpleFs) (fd : FileDescriptor) (data : List Byte) : Bool :=
  match s.fdTable.entries fd with
  | none => false
  | some state =>
    match s.nodes state.inodeId with
    | none => false
    | some node =>
      hasOpenMode state.mode .write && !data.isEmpty && decide (node.inode.blocks.length <
        s.requiredBlocks (max node.inode.size (writeOffset state node + data.length)))

structure TookAll (s : SimpleFs) (fd : FileDescriptor) (s' : SimpleFs) (state : OpenFileState)
    (node : Node) (taken : List ℕ) : Prop where
  entry : s.fdTable.entries fd = some state
  found : s.nodes state.inodeId = some node
  nodup : taken.Nodup
  free : ∀ b : ℕ, b ∈ taken ↔ s.allocator.freeBitmap[b]? = some true
  after : s' = { s with allocator :=
      ⟨List.replicate s.allocator.freeBitmap.length false, 0⟩ }.setNode state.inodeId
    { node with inode := { node.inode with blocks := node.inode.blocks ++ taken } }

theorem write_error (h : AllHeld s) {fd : FileDescriptor} {data : List Byte} {e : ErrorCode}
    (herr : (s.write fd data).1 = some (.error e)) :
    (e ≠ .outOfMemory ∧ (s.write fd data).2 = s) ∨
      (e = .outOfMemory ∧ s.needsBlocks fd data = true ∧
        ∃ state node taken, TookAll s fd (s.write fd data).2 state node taken) := by
  unfold write at herr ⊢
  unfold needsBlocks
  cases hfd : s.fdTable.entries fd with
  | none =>
    simp only [hfd] at herr ⊢
    exact Or.inl ⟨by rintro rfl; simp at herr, trivial⟩
  | some state =>
    simp only [hfd] at herr ⊢
    by_cases hmode : (!hasOpenMode state.mode .write) = true
    · simp only [hmode, ↓reduceIte] at herr ⊢
      exact Or.inl ⟨by rintro rfl; simp at herr, trivial⟩
    cases hnode : s.nodes state.inodeId with
    | none =>
      simp only [hmode, hnode, Bool.false_eq_true, ↓reduceIte] at herr ⊢
      exact Or.inl ⟨by rintro rfl; simp at herr, trivial⟩
    | some node =>
      have hoffset : (if hasOpenMode state.mode .append then node.inode.size else state.offset) =
        writeOffset state node := rfl
      simp only [hmode, hnode, hoffset, Bool.false_eq_true, ↓reduceIte] at herr ⊢
      by_cases hempty : data.isEmpty = true
      · simp [writeToNode, hempty] at herr
      rcases ensureFileBlocks_held (h.of_node hnode)
        (max node.inode.size (writeOffset state node + data.length)) with
        ⟨disk, a, blocks, hrun, -⟩ | ⟨a, taken, hrun, hlt, hheld, hfrom, hbits, hzero⟩
      · -- with enough blocks there is no error
        cases hchunks : writeChunks s.blockSize blocks data.length disk
          (writeOffset state node) data with
        | none => simp [writeToNode, hempty, hrun, hchunks] at herr
        | some disk' => simp [writeToNode, hempty, hrun, hchunks] at herr
      · have hwrite : s.writeToNode state.inodeId node (writeOffset state node) data =
            (some (.error .outOfMemory), { s with allocator := a }.setNode state.inodeId
              { node with inode := { node.inode with blocks := node.inode.blocks ++ taken } }) := by
          simp only [writeToNode, hempty, hrun, Bool.false_eq_true, ↓reduceIte]
        simp only [hwrite] at herr ⊢
        have he : ErrorCode.outOfMemory = e := by simpa using herr
        have hnone := hheld.freeCount_eq_zero.mp hzero
        have htaken : ∀ b : ℕ, b ∈ taken ↔ s.allocator.freeBitmap[b]? = some true := by
          intro b
          refine ⟨hfrom b, fun hb => ?_⟩
          by_contra hin
          have hbit := hbits b
          rw [if_neg hin, hb] at hbit
          exact hnone b hbit
        have ha : a = ⟨List.replicate s.allocator.freeBitmap.length false, 0⟩ := by
          obtain ⟨bitmap, count⟩ := a
          obtain rfl : count = 0 := hzero
          congr 1
          apply List.ext_getElem?
          intro b
          rw [hbits b, List.getElem?_replicate]
          cases hb : s.allocator.freeBitmap[b]? with
          | none =>
            have hlen := List.getElem?_eq_none_iff.mp hb
            rw [if_neg (by rw [htaken, hb]; simp), if_neg (Nat.not_lt.mpr hlen)]
          | some bit =>
            have hlen := (List.getElem?_eq_some_iff.mp hb).1
            rw [if_pos hlen]
            cases bit with
            | true => rw [if_pos ((htaken b).mpr hb)]
            | false => rw [if_neg (by rw [htaken, hb]; simp)]
        refine Or.inr ⟨he.symm, ?_, state, node, taken, hfd, hnode, ?_, htaken, ?_⟩
        · simpa [hempty, hlt] using hmode
        · exact (List.nodup_append.mp hheld.nodup).2.1
        · rw [ha]

/-- The writes of the other files, once the disk is full: what needs no block is not affected,
and nothing else succeeds. -/
theorem write_elsewhere {t : SimpleFs} {i : InodeId} (h : AllHeld s) (ht : AllHeld t)
    (hsize : t.blockSize = s.blockSize) (hdisk : t.disk = s.disk) (hfds : t.fdTable = s.fdTable)
    (hnodes : ∀ j, j ≠ i → t.nodes j = s.nodes j) (hfull : t.allocator.freeCount = 0)
    {fd : FileDescriptor} (hfd : ∀ state, s.fdTable.entries fd = some state → state.inodeId ≠ i)
    (data : List Byte) :
    (t.write fd data).1 =
      if s.needsBlocks fd data then some (.error .outOfMemory) else (s.write fd data).1 := by
  unfold write needsBlocks
  rw [hfds]
  cases hentry : s.fdTable.entries fd with
  | none => rfl
  | some state =>
    have hsame := hnodes state.inodeId (hfd state hentry)
    dsimp only
    rw [hsame]
    by_cases hmode : (!hasOpenMode state.mode .write) = true
    · have hmode' : hasOpenMode state.mode .write = false := by simpa using hmode
      rcases Option.eq_none_or_eq_some (s.nodes state.inodeId) with hnode | ⟨node, hnode⟩
      · simp [hmode', hnode]
      · simp [hmode', hnode]
    have hmode' : hasOpenMode state.mode .write = true := by simpa using hmode
    rcases Option.eq_none_or_eq_some (s.nodes state.inodeId) with hnode | ⟨node, hnode⟩
    · simp [hmode', hnode]
    · have hoffset : (if hasOpenMode state.mode .append then node.inode.size else state.offset) =
        writeOffset state node := rfl
      simp only [hnode, hmode', hoffset, Bool.not_true, Bool.false_eq_true, ↓reduceIte,
        Bool.true_and]
      by_cases hempty : data.isEmpty = true
      · simp [writeToNode, hempty]
      by_cases hneeds : node.inode.blocks.length <
        s.requiredBlocks (max node.inode.size (writeOffset state node + data.length))
      · have hreq : node.inode.blocks.length <
            t.requiredBlocks (max node.inode.size (writeOffset state node + data.length)) := by
          simpa only [requiredBlocks, hsize] using hneeds
        simp [writeToNode, hempty, hneeds, ensureFileBlocks_full hreq hfull]
      · obtain ⟨disk, a₁, a₂, blocks, hrun, hrun'⟩ := ensureFileBlocks_enough
          (Nat.not_lt.mp hneeds) hsize hdisk (h.of_node hnode) (ht.of_node (hsame.trans hnode))
        cases hchunks :
          writeChunks s.blockSize blocks data.length disk (writeOffset state node) data with
        | none => simp [writeToNode, hempty, hneeds, hrun, hrun', hsize, hchunks]
        | some disk' => simp [writeToNode, hempty, hneeds, hrun, hrun', hsize, hchunks]

/-- A write that fails for another reason than missing blocks changes nothing, and neither does one
that finds the disk full. Otherwise the file has taken every free block, and a later write to
another file succeeds as it would have done if it needs no new block, and fails if it does. -/
theorem failed_write (totalBlocks blockSize bucketCount : ℕ) (ops : List Op) (fd : FileDescriptor)
    (data : List Byte) (e : ErrorCode) :
    let s := machine.run (init totalBlocks blockSize bucketCount) ops
    let s' := (s.write fd data).2
    (s.write fd data).1 = some (.error e) →
      (s' = s ↔ e ≠ .outOfMemory ∨ s.allocator.freeCount = 0) ∧
      (e = .outOfMemory → s.needsBlocks fd data = true ∧ ∃ state node taken,
        TookAll s fd s' state node taken ∧
        ∀ fd' data',
          (∀ state', s.fdTable.entries fd' = some state' → state'.inodeId ≠ state.inodeId) →
          (s'.write fd' data').1 = if s.needsBlocks fd' data' then some (.error .outOfMemory)
            else (s.write fd' data').1) := by
  intro s s' herr
  have hheld : AllHeld s := reachable_allHeld totalBlocks blockSize bucketCount ops
  have hheld' : AllHeld s' := exec_allHeld (.write fd data) hheld
  rcases write_error hheld herr with ⟨he, hs⟩ | ⟨rfl, hneeds, state, node, taken, htook⟩
  · exact ⟨⟨fun _ => Or.inl he, fun _ => hs⟩, fun h => absurd h he⟩
  have hafter : s' = _ := htook.after
  have hfull : s'.allocator.freeCount = 0 := by rw [hafter]; rfl
  refine ⟨⟨fun hs => Or.inr (hs ▸ hfull), fun hzero => ?_⟩,
    fun _ => ⟨hneeds, state, node, taken, htook, fun fd' data' hfd' => ?_⟩⟩
  · -- on a full disk there was nothing to take
    have hzero := hzero.resolve_left (fun h => h rfl)
    have hnone := (hheld rootInodeId).freeCount_eq_zero.mp hzero
    have hnil : taken = [] := by
      apply List.eq_nil_iff_forall_not_mem.mpr
      intro b hb
      exact hnone b ((htook.free b).mp hb)
    have hbits : s.allocator.freeBitmap = List.replicate s.allocator.freeBitmap.length false := by
      apply List.eq_replicate_iff.mpr
      refine ⟨rfl, fun bit hbit => ?_⟩
      obtain ⟨b, hb⟩ := List.mem_iff_getElem?.mp hbit
      cases bit with
      | false => rfl
      | true => exact absurd hb (hnone b)
    have halloc : s.allocator = ⟨List.replicate s.allocator.freeBitmap.length false, 0⟩ := by
      rw [← hbits, ← hzero]
    rw [hafter, ← halloc, hnil, List.append_nil, setNode, ← htook.found, Function.update_eq_self]
  · apply write_elsewhere hheld hheld' _ _ _ _ hfull hfd'
    · rw [hafter]; rfl
    · rw [hafter]; rfl
    · rw [hafter]; rfl
    · intro j hj
      rw [hafter]
      simp [setNode, hj]

def twoFiles : List Op :=
    [.open ['/', 'a'] (.create ||| .write), .open ['/', 'b'] (.create ||| .write)]

theorem failed_write_two_files :
    ((machine.run (init 2 1 13) twoFiles).write 0 [1, 2, 3]).1 = some (.error .outOfMemory) ∧
      ∃ state node taken, TookAll (machine.run (init 2 1 13) twoFiles) 0
        ((machine.run (init 2 1 13) twoFiles).write 0 [1, 2, 3]).2 state node taken := by
  have herr : ((machine.run (init 2 1 13) twoFiles).write 0 [1, 2, 3]).1 =
    some (.error .outOfMemory) := by decide +kernel
  obtain ⟨-, state, node, taken, htook, -⟩ :=
    (failed_write 2 1 13 twoFiles 0 [1, 2, 3] .outOfMemory herr).2 rfl
  exact ⟨herr, state, node, taken, htook⟩

/-- The failed write leaves no block for the other file. -/
theorem failed_write_starves_other :
    let s := machine.run (init 2 1 13) twoFiles
    let s' := (s.write 0 [1, 2, 3]).2
    (s.write 0 [1, 2, 3]).1 = some (.error .outOfMemory) ∧
      s.allocator.freeCount = 2 ∧ s'.allocator.freeCount = 0 ∧ s' ≠ s ∧
      (s.blocksAt 2).length = 0 ∧ (s'.blocksAt 2).length = 2 ∧
      (s.write 1 [7]).1 = some (.ok 1) ∧ (s'.write 1 [7]).1 = some (.error .outOfMemory) := by
  intro s s'
  have hbefore : s.allocator.freeCount = 2 := by decide +kernel
  have hafter : s'.allocator.freeCount = 0 := by decide +kernel
  refine ⟨by decide +kernel, hbefore, hafter, ?_, by decide +kernel, by decide +kernel,
    by decide +kernel, by decide +kernel⟩
  intro heq
  rw [heq, hbefore] at hafter
  cases hafter

end SimpleFs
end Contur
