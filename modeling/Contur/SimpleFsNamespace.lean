import Mathlib.Data.Set.Finite.Basic
import Contur.SimpleFsTree

/-!
# Names, numbers and descriptors over runs of the file system

In every reachable state the nodes form a tree of names. Over a run an inode number
is given to one node only, and a descriptor names the file it was opened on or
nothing: numbers and descriptors that were handed out in an earlier state keep their
meaning in every later one (`Later`).
-/

namespace Contur
open Function (update)
open Transition

namespace FileDescriptorTable
variable {t t' t'' : FileDescriptorTable}

structure Later (t t' : FileDescriptorTable) : Prop where
  next_le : t.nextFd ≤ t'.nextFd
  kept : ∀ {fd state'}, t'.entries fd = some state' → fd < t.nextFd →
    ∃ state, t.entries fd = some state ∧ state'.inodeId = state.inodeId ∧ state'.mode = state.mode

theorem Later.refl (t : FileDescriptorTable) : Later t t :=
  ⟨le_rfl, fun hf _ => ⟨_, hf, rfl, rfl⟩⟩

theorem Later.trans (h : Later t t') (h' : Later t' t'') : Later t t'' := by
  refine ⟨h.next_le.trans h'.next_le, ?_⟩
  intro fd state'' hf hlt
  obtain ⟨state', hf', hid', hmode'⟩ := h'.kept hf (hlt.trans_le h.next_le)
  obtain ⟨state, hf, hid, hmode⟩ := h.kept hf' hlt
  exact ⟨state, hf, hid'.trans hid, hmode'.trans hmode⟩

theorem later_open {state : OpenFileState} {fd : FileDescriptor}
    (h : t.open state = some (fd, t')) :
    Later t t' := by
  unfold FileDescriptorTable.open at h
  split at h
  · cases h
  obtain ⟨-, rfl⟩ := Prod.mk.inj (Option.some.inj h)
  refine ⟨(Int.lt_succ t.nextFd).le, ?_⟩
  intro fd state' hf hlt
  refine ⟨state', ?_, rfl, rfl⟩
  dsimp only at hf
  split_ifs at hf
  · exact hf
  · exact (Function.update_of_ne (Int.ne_of_lt hlt) ..).symm.trans hf

theorem later_close (t : FileDescriptorTable) (fd : FileDescriptor) : Later t (t.close fd).2 := by
  unfold close
  split
  · exact .refl t
  · refine ⟨le_rfl, ?_⟩
    intro fd' state' hf _
    by_cases hd : fd' = fd
    · simp [hd] at hf
    · exact ⟨state', (Function.update_of_ne hd ..).symm.trans hf, rfl, rfl⟩

theorem later_set {fd : FileDescriptor} {state : OpenFileState} (h : t.entries fd = some state)
    (offset : ℕ) : Later t (t.set fd { state with offset := offset }) := by
  refine ⟨le_rfl, ?_⟩
  intro fd' state' hf _
  by_cases hd : fd' = fd
  · obtain rfl : { state with offset := offset } = state' := by simpa [set, hd] using hf
    exact ⟨state, hd ▸ h, rfl, rfl⟩
  · exact ⟨state', (Function.update_of_ne hd ..).symm.trans hf, rfl, rfl⟩

end FileDescriptorTable

namespace SimpleFs
variable {s s' s'' : SimpleFs}

structure Later (s s' : SimpleFs) : Prop where
  next_le : s.nextInodeId ≤ s'.nextInodeId
  kept : ∀ {i node'}, s'.nodes i = some node' → i < s.nextInodeId →
    ∃ node, s.nodes i = some node ∧ Kept node node'
  fds : s.fdTable.Later s'.fdTable

theorem Later.refl (s : SimpleFs) : Later s s :=
  ⟨le_rfl, fun hn _ => ⟨_, hn, .refl _⟩, .refl _⟩

theorem Later.trans (h : Later s s') (h' : Later s' s'') : Later s s'' := by
  refine ⟨h.next_le.trans h'.next_le, ?_, h.fds.trans h'.fds⟩
  intro i node'' hn hlt
  obtain ⟨node', hn', hkept'⟩ := h'.kept hn (hlt.trans_le h.next_le)
  obtain ⟨node, hn, hkept⟩ := h.kept hn' hlt
  exact ⟨node, hn, hkept.trans hkept'⟩

theorem Change.next_le {n : ℕ} (h : Change n s s') : s.nextInodeId ≤ s'.nextInodeId := by
  cases h with
  | quiet _ hnext _ _ => exact hnext.ge
  | touch _ h => exact h.next.ge
  | create _ h => exact h.next ▸ Nat.le_succ _
  | remove _ h => exact h.next.ge

theorem Change.kept {n : ℕ} (h : Change n s s') {i : InodeId} {node' : Node}
    (hn : s'.nodes i = some node') (hlt : i < s.nextInodeId) : ∃ node, s.nodes i = some node ∧
      Kept node node' := by
  have hupdated : ∀ {f : InodeId → Option Node} {p : InodeId} {parent parent' : Node},
      s'.nodes = update f p (some parent') → s.nodes p = some parent → Kept parent parent' →
      (i ≠ p → f i = some node' → s.nodes i = some node') →
        ∃ node, s.nodes i = some node ∧ Kept node node' := by
    intro f p parent parent' hnodes hparent hkept hrest
    rw [hnodes] at hn
    by_cases hi : i = p
    · subst i
      rw [Function.update_self] at hn
      obtain rfl := Option.some.inj hn
      exact ⟨parent, hparent, hkept⟩
    · rw [Function.update_of_ne hi] at hn
      exact ⟨node', hrest hi hn, .refl _⟩
  cases h with
  | quiet hnodes _ _ _ => exact ⟨node', hnodes ▸ hn, .refl _⟩
  | touch _ h => exact hupdated h.nodes h.found h.kept fun _ hi => hi
  | create _ h =>
    refine hupdated h.nodes h.found h.kept fun _ hi => ?_
    rwa [Function.update_of_ne (Nat.ne_of_lt hlt)] at hi
  | @remove p k name parent parent' child _ h =>
    refine hupdated h.nodes h.found h.kept fun _ hi => ?_
    by_cases hik : i = k
    · simp [hik] at hi
    · rwa [Function.update_of_ne hik] at hi

theorem fdTable_write (s : SimpleFs) (fd : FileDescriptor) (data : List Byte) :
    s.fdTable.Later (s.write fd data).2.fdTable := by
  unfold write
  cases hfd : s.fdTable.entries fd with
  | none => exact .refl _
  | some state =>
    dsimp only
    by_cases hmode : (!hasOpenMode state.mode .write) = true
    · rw [if_pos hmode]
      exact .refl _
    rw [if_neg hmode]
    cases s.nodes state.inodeId with
    | none => exact .refl _
    | some node =>
      have hwrite := fdTable_writeToNode s state.inodeId node
        (if hasOpenMode state.mode .append then node.inode.size else state.offset) data
      dsimp only
      split <;> next heq =>
        rw [heq] at hwrite
        simp only at hwrite
        rw [hwrite]
        first
        | exact .refl _
        | exact FileDescriptorTable.later_set hfd _

theorem exec_fds (s : SimpleFs) (op : Op) : s.fdTable.Later (s.exec op).2.fdTable := by
  cases op with
  | «open» path mode =>
    rcases fdTable_open s path mode with hsame | ⟨fd, state, hopen⟩
    · simp only [exec, hsame]
      exact .refl _
    · exact FileDescriptorTable.later_open hopen
  | read fd n =>
    simp only [exec, read]
    cases hfd : s.fdTable.entries fd with
    | none => exact .refl _
    | some state =>
      dsimp only
      repeat' split
      all_goals first | exact .refl _ | exact FileDescriptorTable.later_set hfd _
  | write fd data => exact fdTable_write s fd data
  | close fd => exact FileDescriptorTable.later_close ..
  | mkdir path =>
    simp only [exec, mkdir_state, fdTable_createEntry]
    exact .refl _
  | remove path =>
    simp only [exec, fdTable_remove]
    exact .refl _
  | listDir path => exact .refl _
  | stat path => exact .refl _

theorem exec_later (h : Inv s) (hroom : s.nextInodeId + 1 < 2 ^ 32) (op : Op) :
    Later s (s.exec op).2 := by
  obtain ⟨s₁, _, _, -, hfirst, hsecond⟩ := exec_change h hroom op
  refine ⟨hfirst.next_le.trans hsecond.next_le, ?_, exec_fds s op⟩
  intro i node'' hn hlt
  obtain ⟨node', hn', hkept'⟩ := hsecond.kept hn (hlt.trans_le hfirst.next_le)
  obtain ⟨node, hn, hkept⟩ := hfirst.kept hn' hlt
  exact ⟨node, hn, hkept.trans hkept'⟩

theorem namespace_init (totalBlocks blockSize bucketCount : ℕ) :
    Namespace (init totalBlocks blockSize bucketCount) := by
  have hnodes : ∀ {i node}, (init totalBlocks blockSize bucketCount).nodes i = some node →
      i = rootInodeId ∧ node = { inode := { id := rootInodeId, type := .directory } } := by
    intro i node hn
    by_cases hi : i = rootInodeId
    · subst i
      simp only [init, Function.update_self, Option.some.injEq] at hn
      exact ⟨rfl, hn.symm⟩
    · simp [init, hi] at hn
  have hchild : ∀ i name, (init totalBlocks blockSize bucketCount).childOf i name = none := by
    intro i name
    cases hn : (init totalBlocks blockSize bucketCount).nodes i with
    | none => exact childOf_of_none hn name
    | some node =>
      obtain ⟨-, rfl⟩ := hnodes hn
      exact childOf_of_node hn name
  have hroot : (init totalBlocks blockSize bucketCount).nodes rootInodeId =
      some { inode := { id := rootInodeId, type := .directory } } := by
    simp [init]
  refine ⟨⟨by simp [hroot], ?_, ?_, ?_, ?_, ?_, ?_⟩, ⟨_, hroot, rfl⟩, ?_, ?_, ?_, ?_, ?_⟩
  · intro i a k hk
    rw [hchild] at hk
    cases hk
  · intro i a k hk
    rw [hchild] at hk
    cases hk
  · intro i a hk
    rw [hchild] at hk
    cases hk
  · intro i j a b k hk
    rw [hchild] at hk
    cases hk
  · intro k hk hne
    obtain ⟨node, hn⟩ := Option.isSome_iff_exists.mp hk
    exact (hne (hnodes hn).1).elim
  · intro i a k hk
    rw [hchild] at hk
    cases hk
  · intro p name k node hk
    rw [hchild] at hk
    cases hk
  · intro i node hn hf
    obtain ⟨-, rfl⟩ := hnodes hn
    rfl
  · intro i node hn _
    obtain ⟨-, rfl⟩ := hnodes hn
    rfl
  · intro i node hn
    obtain ⟨rfl, -⟩ := hnodes hn
    exact Nat.lt_succ_self _
  · intro i node hn
    obtain ⟨-, rfl⟩ := hnodes hn
    exact ⟨le_rfl, le_rfl⟩

theorem counted_init (totalBlocks blockSize bucketCount : ℕ) :
    Counted (init totalBlocks blockSize bucketCount) := by
  have hset : {i | ((init totalBlocks blockSize bucketCount).nodes i).isSome} = {rootInodeId} := by
    ext i
    by_cases hi : i = rootInodeId
    · simp [init, hi]
    · simp [init, hi]
  exact ⟨hset ▸ Set.finite_singleton _, by rw [hset, Set.ncard_singleton]; rfl⟩

/-- The clock does not wrap around in the call. -/
def HasTicks (s : SimpleFs) (op : Op) : Prop := s.tick + op.ticks < 2 ^ 64

instance (s : SimpleFs) (op : Op) : Decidable (HasTicks s op) :=
  inferInstanceAs (Decidable (s.tick + op.ticks < 2 ^ 64))

/-- Without a wrap of the clock the tree of names is kept. What was handed out keeps its meaning
in any case. -/
theorem run_namespace (h : Inv s) {ops : List Op}
    (hroom : s.nextInodeId + ops.countP Op.creates + 1 < 2 ^ 32) :
    Later s (machine.run s ops) ∧ (machine.Guarded HasTicks s ops → Namespace s →
      Counted s → Namespace (machine.run s ops) ∧ Counted (machine.run s ops)) := by
  induction ops generalizing s with
  | nil => exact ⟨.refl s, fun _ hn hcount => ⟨hn, hcount⟩⟩
  | cons op ops ih =>
    obtain ⟨hnow, hrest⟩ := room_cons hroom
    obtain ⟨hlater, hkeep⟩ := ih (exec_inv op hnow h) hrest
    refine ⟨(exec_later h hnow op).trans hlater, fun hg hn hcount => ?_⟩
    obtain ⟨hclock, hg⟩ := hg
    obtain ⟨hn', hcount'⟩ := exec_namespace h hnow hclock hn hcount
    exact hkeep hg hn' hcount'

theorem Namespace.resolvePath_iff (h : Namespace s) {path : List Char} {k : InodeId} :
    s.resolvePath path = .ok k ↔
      ∃ tokens, splitPath path = .ok tokens ∧
        NameTree.walk s.childOf rootInodeId tokens = some k := by
  unfold resolvePath
  cases hsplit : splitPath path with
  | error e => simp
  | ok tokens => simp [h.descend_iff]

theorem childOf_openFd (s : SimpleFs) {t : SimpleFs} (state : OpenFileState)
    (h : t.childOf = s.childOf) : (s.openFd t state).2.childOf = s.childOf := by
  unfold openFd
  split
  · rfl
  · exact h

theorem childOf_openNode (s : SimpleFs) (i : InodeId) (mode : OpenMode) :
    (s.openNode i mode).2.childOf = s.childOf := by
  unfold openNode
  cases hnode : s.nodes i with
  | none => rfl
  | some node =>
    have hstored : ∀ (t : SimpleFs) (inode : Inode), t.nodes = s.nodes →
        (t.setNode i { node with inode := inode }).childOf = s.childOf := by
      intro t inode ht
      funext j name
      by_cases hj : j = i
      · simp [childOf, setNode, hj, hnode]
      · simp [childOf, setNode, hj, ht]
    dsimp only
    split_ifs
    · rfl
    · obtain ⟨disk, allocator, hshape⟩ := ensureFileBlocks_shape s node.inode.blocks 0
      split
      · next s₁ blocks heq =>
        rw [heq] at hshape
        obtain rfl : s₁ = { s with disk := disk, allocator := allocator } := hshape
        exact hstored _ _ rfl
      · next s₁ blocks heq =>
        rw [heq] at hshape
        obtain rfl : s₁ = { s with disk := disk, allocator := allocator } := hshape
        refine childOf_openFd s _ ?_
        exact hstored _ _ rfl
    · exact childOf_openFd s _ rfl
    · exact childOf_openFd s _ rfl

theorem openFd_names {t : SimpleFs} {state : OpenFileState} {fd : FileDescriptor}
    (hnone : t.fdTable.entries t.fdTable.nextFd = none)
    (hok : (s.openFd t state).1 = some (.ok fd)) :
    (s.openFd t state).2.nodes = t.nodes ∧
      (s.openFd t state).2.fdTable.entries fd = some state ∧
      fd < (s.openFd t state).2.fdTable.nextFd := by
  unfold openFd at hok ⊢
  by_cases hend : t.fdTable.nextFd = 2 ^ 31 - 1
  · simp [FileDescriptorTable.open, hend] at hok
  simp only [FileDescriptorTable.open, hend, hnone, Option.isSome_none, Bool.false_eq_true,
    ↓reduceIte] at hok ⊢
  obtain rfl : t.fdTable.nextFd = fd := by simpa using hok
  exact ⟨trivial, Function.update_self .., Int.lt_succ _⟩

theorem openNode_names (h : Inv s) {i : InodeId} {mode : OpenMode} {fd : FileDescriptor}
    (hok : (s.openNode i mode).1 = some (.ok fd)) :
    (∃ node, (s.openNode i mode).2.nodes i = some node ∧ node.inode.type = .file) ∧
      (∃ state, (s.openNode i mode).2.fdTable.entries fd = some state ∧ state.inodeId = i ∧
        state.mode = mode) ∧ fd < (s.openNode i mode).2.fdTable.nextFd := by
  have hnone := h.fd_fresh _ le_rfl
  unfold openNode at hok ⊢
  cases hnode : s.nodes i with
  | none => simp [hnode] at hok
  | some node =>
    have hid := h.id_eq i node hnode
    simp only [hnode] at hok ⊢
    by_cases hfile : node.inode.type ≠ .file
    · simp [hfile] at hok
    rw [if_neg hfile] at hok ⊢
    have hfile : node.inode.type = .file := not_not.mp hfile
    by_cases htrunc : hasOpenMode mode .truncate = true
    · rw [if_pos htrunc] at hok ⊢
      obtain ⟨disk, allocator, hshape⟩ := ensureFileBlocks_shape s node.inode.blocks 0
      split at hok
      · cases hok
      · next s₁ blocks heq =>
        rw [heq] at hshape
        obtain rfl : s₁ = { s with disk := disk, allocator := allocator } := hshape
        simp only at hok ⊢
        have hopened := fun hnone => openFd_names hnone hok
        obtain ⟨hnodes, hentry, hlt⟩ := hopened hnone
        exact ⟨⟨_, (congrFun hnodes i).trans (nodes_setNode ..), hfile⟩, ⟨_, hentry, hid, rfl⟩, hlt⟩
    · rw [if_neg htrunc] at hok ⊢
      obtain ⟨hnodes, hentry, hlt⟩ := openFd_names hnone hok
      exact ⟨⟨node, hnodes ▸ hnode, hfile⟩, ⟨_, hentry, hid, rfl⟩, hlt⟩

theorem resolveParent_ok {path : List Char} {p : InodeId} {name : Name}
    (h : s.resolveParent path = .ok (p, name)) :
    ∃ tokens, splitPath path = .ok (tokens ++ [name]) ∧ s.descend rootInodeId tokens = .ok p := by
  unfold resolveParent at h
  split at h
  · cases h
  next tokens hsplit =>
    split at h
    · cases h
    next last hlast =>
      split at h
      · cases h
      next parent hdescend =>
        obtain ⟨rfl, rfl⟩ := Prod.mk.inj (Result.ok.inj h)
        refine ⟨tokens.dropLast, ?_, hdescend⟩
        rw [hsplit, List.dropLast_append_getLast? last hlast]

theorem walk_added {p : InodeId} {parent : Node} {name : Name} {tokens : List Name}
    (hnode : s.nodes p = some parent) (hfresh : s.nodes s.nextInodeId = none)
    (hname : parent.children.lookup name = none)
    (hwalk : NameTree.walk s.childOf rootInodeId tokens = some p) {child parent' : Node}
    (hnodes : s'.nodes = update (update s.nodes s.nextInodeId (some child)) p (some parent'))
    (hchildren : parent'.children = parent.children.insert name s.nextInodeId) :
    NameTree.walk s'.childOf rootInodeId (tokens ++ [name]) = some s.nextInodeId := by
  have hself : s'.nodes p = some parent' := by simp [hnodes]
  have hmono : ∀ i b j, s.childOf i b = some j → s'.childOf i b = some j := by
    intro i b j hj
    by_cases hi : i = p
    · subst i
      rw [childOf_of_node hnode] at hj
      have hb : b ≠ name := by
        rintro rfl
        rw [hname] at hj
        cases hj
      rw [childOf_of_node hself, hchildren, AList.lookup_insert_ne hb, hj]
    · have hin : i ≠ s.nextInodeId := by
        rintro rfl
        rw [childOf_of_none hfresh] at hj
        cases hj
      simpa [childOf, hnodes, hi, hin] using hj
  rw [NameTree.walk_concat, NameTree.walk_mono hmono hwalk, Option.bind_some,
    childOf_of_node hself, hchildren, AList.lookup_insert]

theorem createEntry_resolves (h : Inv s) (hroom : s.nextInodeId + 1 < 2 ^ 32)
    (hclock : s.tick + 2 < 2 ^ 64) (hn : Namespace s) {path : List Char} {type : InodeType}
    {id : InodeId} (hok : (s.createEntry path type).1 = some (.ok id)) :
    (s.createEntry path type).2.resolvePath path = .ok id := by
  have hn' := (createEntry_change h hroom path type).keeps hclock hn
  rw [hn'.resolvePath_iff]
  clear hn'
  unfold createEntry at hok ⊢
  cases hparent : s.resolveParent path with
  | error e => simp [hparent] at hok
  | ok target =>
    obtain ⟨p, name⟩ := target
    obtain ⟨tokens, hsplit, hdescend⟩ := resolveParent_ok hparent
    simp only [hparent] at hok ⊢
    cases hnode : s.nodes p with
    | none => simp [hnode] at hok
    | some parent =>
      simp only [hnode] at hok ⊢
      split_ifs at hok ⊢ with hdir hname hrehash
      · cases hok
      · cases hok
      obtain rfl := Result.ok.inj (Option.some.inj hok)
      have hfresh : s.nodes s.nextInodeId = none := h.fresh _ le_rfl
      have hstored : ∀ (t : SimpleFs) (child parent' : Node) (tick : Tick), t.nodes = s.nodes →
          ({ t.emplace s.nextInodeId child with tick := tick }.setNode p parent').nodes =
            update (update s.nodes s.nextInodeId (some child)) p (some parent') := by
        intro t child parent' tick ht
        simp [setNode, emplace, ht, hfresh]
      refine ⟨tokens ++ [name], hsplit, ?_⟩
      exact walk_added hnode hfresh (AList.lookup_eq_none.mpr hname) (hn.descend_iff.mp hdescend)
        (hstored _ _ _ _ rfl) rfl

theorem open_names (h : Inv s) (hroom : s.nextInodeId + 1 < 2 ^ 32) (hn : Namespace s)
    {path : List Char} {mode : OpenMode} {fd : FileDescriptor}
    (hclock : HasTicks s (.open path mode)) (hok : (s.open path mode).1 = some (.ok fd)) :
    ∃ i node state, (s.open path mode).2.nodes i = some node ∧ node.inode.type = .file ∧
      (s.open path mode).2.resolvePath path = .ok i ∧
      (s.open path mode).2.fdTable.entries fd = some state ∧ state.inodeId = i ∧
      state.mode = mode ∧ fd < (s.open path mode).2.fdTable.nextFd := by
  -- opening a node changes no name, so the path still leads to it
  have hnode : ∀ {t : SimpleFs} {i}, Inv t → Namespace t →
      t.tick + (if hasOpenMode mode .truncate then 1 else 0) < 2 ^ 64 →
      t.resolvePath path = .ok i → (t.openNode i mode).1 = some (.ok fd) → ∃ i' node state,
        (t.openNode i mode).2.nodes i' = some node ∧ node.inode.type = .file ∧
        (t.openNode i mode).2.resolvePath path = .ok i' ∧
        (t.openNode i mode).2.fdTable.entries fd = some state ∧ state.inodeId = i' ∧
        state.mode = mode ∧ fd < (t.openNode i mode).2.fdTable.nextFd := by
    intro t i ht htn htick hpath hopen
    obtain ⟨⟨node, hnode, hfile⟩, ⟨state, hstate, hid, hmode⟩, hlt⟩ := openNode_names ht hopen
    refine ⟨i, node, state, hnode, hfile, ?_, hstate, hid, hmode, hlt⟩
    rw [((openNode_change t i mode).keeps htick htn).resolvePath_iff, childOf_openNode]
    exact htn.resolvePath_iff.mp hpath
  simp only [HasTicks, Op.ticks] at hclock
  by_cases hmode : (!hasOpenMode mode .read && !hasOpenMode mode .write) = true
  · rw [«open», if_pos hmode] at hok
    cases hok
  cases hpath : s.resolvePath path with
  | ok i =>
    have hopen : s.open path mode = s.openNode i mode := by
      simp only [«open», hmode, hpath, Bool.false_eq_true, ↓reduceIte]
    rw [hopen] at hok ⊢
    refine hnode h hn ?_ hpath hok
    unfold Tick at *
    omega
  | error e =>
    by_cases hcreate : (!hasOpenMode mode .create) = true
    · simp only [«open», hmode, hpath, hcreate, Bool.false_eq_true, ↓reduceIte] at hok
      cases hok
    rw [if_pos (by simpa using hcreate), ← Nat.add_assoc] at hclock
    have hentry := createEntry_change h hroom path .file
    have hkeeps := hentry.keeps (Nat.lt_of_le_of_lt (Nat.le_add_right _ _) hclock) hn
    have hlater := hentry.tick_le
    rcases createEntry_spec h hroom path .file with ⟨r, hr, hbad⟩ | ⟨s₁, node, he', hinv, -⟩
    · exfalso
      simp only [«open», hmode, hpath, hcreate, hr, Bool.false_eq_true, ↓reduceIte] at hok
      cases r with
      | none => cases hok
      | some r =>
        cases r with
        | error e => cases hok
        | ok k => exact hbad k rfl
    have hopen : s.open path mode = s₁.openNode s.nextInodeId mode := by
      simp only [«open», hmode, hpath, hcreate, he', Bool.false_eq_true, ↓reduceIte]
    have hresolves := createEntry_resolves h hroom
      (Nat.lt_of_le_of_lt (Nat.le_add_right _ _) hclock) hn (congrArg Prod.fst he')
    rw [he'] at hkeeps hresolves hlater
    rw [hopen] at hok ⊢
    exact hnode hinv hkeeps
      (Nat.lt_of_le_of_lt (Nat.add_le_add_right hlater _) hclock) hresolves hok

theorem descriptor_gone {fd : FileDescriptor} (h : s.fdTable.entries fd = none) (n : ℕ)
    (data : List Byte) :
    (s.read fd n).1 = some (.error .notFound) ∧ (s.write fd data).1 = some (.error .notFound) := by
  simp [read, write, h]

theorem file_gone {fd : FileDescriptor} {state : OpenFileState}
    (h : s.fdTable.entries fd = some state) (hnode : s.nodes state.inodeId = none) (n : ℕ)
    (data : List Byte) :
    (s.read fd n).1 = some (.error (if hasOpenMode state.mode .read then .notFound
      else .permissionDenied)) ∧
    (s.write fd data).1 = some (.error (if hasOpenMode state.mode .write then .notFound
      else .permissionDenied)) := by
  by_cases hread : hasOpenMode state.mode .read = true
  · by_cases hwrite : hasOpenMode state.mode .write = true
    · simp [read, write, h, hnode, hread, hwrite]
    · simp [read, write, h, hnode, hread, hwrite]
  · by_cases hwrite : hasOpenMode state.mode .write = true
    · simp [read, write, h, hnode, hread, hwrite]
    · simp [read, write, h, hread, hwrite]

def Op.numbers : Op → Bool
  | .open _ _ => true
  | .mkdir _ => true
  | _ => false

theorem Op.numbers_of_creates {op : Op} (h : op.creates) : op.numbers := by
  cases op <;> simp_all [creates, numbers]

theorem Op.numbers_of_opens {op : Op} (h : op.opens) : op.numbers := by
  cases op <;> simp_all [opens, numbers]

theorem room_of_numbers (totalBlocks blockSize bucketCount : ℕ) {ops : List Op}
    (hops : ops.countP Op.numbers < 2 ^ 31) :
    (init totalBlocks blockSize bucketCount).nextInodeId + ops.countP Op.creates + 1 < 2 ^ 32 := by
  have hle : ops.countP Op.creates ≤ ops.countP Op.numbers :=
    List.countP_mono_left fun op _ h => Op.numbers_of_creates h
  change (1 : ℕ) + 1 + _ + 1 < 2 ^ 32
  omega

/-- The states of a run that stays within the numbers of inodes and descriptors and within the
ticks of the clock. -/
theorem reachable_namespace (totalBlocks blockSize bucketCount : ℕ) {ops : List Op}
    (hops : ops.countP Op.numbers < 2 ^ 31)
    (hticks : machine.Guarded HasTicks (init totalBlocks blockSize bucketCount) ops) :
    Inv (machine.run (init totalBlocks blockSize bucketCount) ops) ∧
      Namespace (machine.run (init totalBlocks blockSize bucketCount) ops) ∧
      (machine.run (init totalBlocks blockSize bucketCount) ops).nextInodeId + 1 < 2 ^ 32 := by
  have hroom := room_of_numbers totalBlocks blockSize bucketCount hops
  obtain ⟨hinv, hnext⟩ := run_inv (inv_init totalBlocks blockSize bucketCount) hroom
  refine ⟨hinv, ?_, hnext⟩
  exact ((run_namespace (inv_init totalBlocks blockSize bucketCount) hroom).2 hticks
    (namespace_init totalBlocks blockSize bucketCount)
    (counted_init totalBlocks blockSize bucketCount)).1

theorem nodeCount_run (totalBlocks blockSize bucketCount : ℕ) {ops : List Op}
    (hops : ops.countP Op.numbers < 2 ^ 31)
    (hticks : machine.Guarded HasTicks (init totalBlocks blockSize bucketCount) ops) :
    Counted (machine.run (init totalBlocks blockSize bucketCount) ops) :=
  ((run_namespace (inv_init totalBlocks blockSize bucketCount)
    (room_of_numbers totalBlocks blockSize bucketCount hops)).2 hticks
    (namespace_init totalBlocks blockSize bucketCount)
    (counted_init totalBlocks blockSize bucketCount)).2

theorem nextInodeId_run_le (s : SimpleFs) (ops : List Op) :
    (machine.run s ops).nextInodeId ≤ s.nextInodeId + ops.countP Op.creates := by
  induction ops generalizing s with
  | nil => exact Nat.le_refl _
  | cons op ops ih =>
    have hrest := ih (machine.next s op)
    have hmod := Nat.mod_le (s.nextInodeId + 1) (2 ^ 32)
    rw [Machine.run_cons, List.countP_cons]
    rcases nextInodeId_exec s op with hsame | ⟨hcreates, hnext⟩
    · have hsame : (machine.next s op).nextInodeId = s.nextInodeId := hsame
      rw [hsame] at hrest
      unfold InodeId at *
      omega
    · have hnext : (machine.next s op).nextInodeId = (s.nextInodeId + 1) % 2 ^ 32 := hnext
      rw [hnext] at hrest
      rw [if_pos hcreates]
      unfold InodeId at *
      omega

theorem later_of_append (totalBlocks blockSize bucketCount : ℕ) {pre post : List Op}
    (hops : (pre ++ post).countP Op.numbers < 2 ^ 31) :
    Later (machine.run (init totalBlocks blockSize bucketCount) pre)
      (machine.run (init totalBlocks blockSize bucketCount) (pre ++ post)) := by
  have hroom := room_of_numbers totalBlocks blockSize bucketCount hops
  rw [List.countP_append] at hroom
  have hpre : (init totalBlocks blockSize bucketCount).nextInodeId + pre.countP Op.creates + 1 <
      2 ^ 32 := by
    unfold InodeId at *
    omega
  obtain ⟨hinv, -⟩ := run_inv (inv_init totalBlocks blockSize bucketCount) hpre
  have hnext := nextInodeId_run_le (init totalBlocks blockSize bucketCount) pre
  rw [Machine.run_append]
  refine (run_namespace hinv ?_).1
  unfold InodeId at *
  omega

namespace Namespace

theorem dir_of_child (h : Namespace s) {p k : InodeId} {name : Name}
    (hk : s.childOf p name = some k) :
    ∃ dir, s.nodes p = some dir ∧ dir.inode.type = .directory ∧
      dir.children.lookup name = some k := by
  obtain ⟨dir, hdir⟩ := Option.isSome_iff_exists.mp (h.tree.source_mem hk)
  have hlookup : dir.children.lookup name = some k := (childOf_of_node hdir name).symm.trans hk
  refine ⟨dir, hdir, ?_, hlookup⟩
  by_contra hfile
  rw [h.leaf hdir (InodeType.ne_directory.mp hfile), AList.lookup_empty] at hlookup
  cases hlookup

theorem entry (h : Namespace s) {k : InodeId} {node : Node} (hk : s.nodes k = some node)
    (hne : k ≠ rootInodeId) : ∃ p name dir,
      s.nodes p = some dir ∧ dir.inode.type = .directory ∧ dir.children.lookup name = some k ∧
      node.inode.parent = some p ∧ ∀ q b, s.childOf q b = some k → q = p ∧ b = name := by
  obtain ⟨p, name, hchild⟩ := h.tree.parent (Option.isSome_iff_exists.mpr ⟨node, hk⟩) hne
  obtain ⟨dir, hdir, htype, hlookup⟩ := h.dir_of_child hchild
  exact ⟨p, name, dir, hdir, htype, hlookup, h.parent hchild hk,
    fun q b hqb => h.tree.unique hqb hchild⟩

theorem resolvePath_inj (h : Namespace s) {path path' : List Char} {k k' : InodeId}
    (hk : s.resolvePath path = .ok k) (hk' : s.resolvePath path' = .ok k') :
    k = k' ↔ splitPath path = splitPath path' := by
  obtain ⟨tokens, hsplit, hwalk⟩ := h.resolvePath_iff.mp hk
  obtain ⟨tokens', hsplit', hwalk'⟩ := h.resolvePath_iff.mp hk'
  constructor
  · rintro rfl
    rw [hsplit, hsplit', h.tree.walk_inj hwalk hwalk']
  · intro heq
    rw [hsplit, hsplit'] at heq
    obtain rfl := Result.ok.inj heq
    exact Option.some.inj (hwalk.symm.trans hwalk')

end Namespace

theorem Inv.below (h : Inv s) {i : InodeId} {node : Node} (hnode : s.nodes i = some node) :
    i < s.nextInodeId := by
  by_contra hle
  rw [h.fresh i (Nat.not_lt.mp hle)] at hnode
  cases hnode

theorem number_once (totalBlocks blockSize bucketCount : ℕ) {pre mid : List Op} {op op' : Op}
    (hops : (pre ++ op :: (mid ++ [op'])).countP Op.numbers < 2 ^ 31) {i : InodeId}
    (hsome : ((machine.run (init totalBlocks blockSize bucketCount) (pre ++ [op])).nodes i).isSome)
    (hnone : (machine.run (init totalBlocks blockSize bucketCount) (pre ++ op :: mid)).nodes i =
      none) :
    (machine.run (init totalBlocks blockSize bucketCount) (pre ++ op :: (mid ++ [op']))).nodes i =
      none := by
  by_contra hne
  obtain ⟨node, hnode⟩ := Option.isSome_iff_exists.mp hsome
  obtain ⟨node', hnode'⟩ := Option.ne_none_iff_exists'.mp hne
  have hsplit : pre ++ op :: (mid ++ [op']) = (pre ++ op :: mid) ++ [op'] := by simp
  have hbefore : pre ++ op :: mid = (pre ++ [op]) ++ mid := by simp
  have hlater := later_of_append totalBlocks blockSize bucketCount (hsplit ▸ hops)
  rw [hsplit, List.countP_append] at hops
  have hmid : (pre ++ op :: mid).countP Op.numbers < 2 ^ 31 :=
    Nat.lt_of_le_of_lt (Nat.le_add_right ..) hops
  have hle := (later_of_append totalBlocks blockSize bucketCount (hbefore ▸ hmid)).next_le
  rw [hbefore, List.countP_append] at hmid
  have hfirst : (pre ++ [op]).countP Op.numbers < 2 ^ 31 :=
    Nat.lt_of_le_of_lt (Nat.le_add_right ..) hmid
  obtain ⟨hinv, -⟩ := run_inv (inv_init totalBlocks blockSize bucketCount)
    (room_of_numbers totalBlocks blockSize bucketCount hfirst)
  rw [hsplit] at hnode'
  rw [← hbefore] at hle
  obtain ⟨old, hold, -⟩ := hlater.kept hnode' ((hinv.below hnode).trans_le hle)
  rw [hnone] at hold
  cases hold

/-- The descriptor refers to the file it was opened on, or every use of it fails because it was
closed or the file was removed. -/
def StillNames (s : SimpleFs) (fd : FileDescriptor) (mode : OpenMode) (i : InodeId) (file : Node) :
    Prop :=
  (s.fdTable.entries fd = none ∧ ∀ n data, (s.read fd n).1 = some (.error .notFound) ∧
      (s.write fd data).1 = some (.error .notFound)) ∨
    ∃ state, s.fdTable.entries fd = some state ∧ state.inodeId = i ∧ state.mode = mode ∧
      ((∃ node, s.nodes i = some node ∧ Kept file node) ∨
        (s.nodes i = none ∧ ∀ n data,
          (s.read fd n).1 = some (.error (if hasOpenMode mode .read then .notFound
            else .permissionDenied)) ∧
          (s.write fd data).1 = some (.error (if hasOpenMode mode .write then .notFound
            else .permissionDenied))))

theorem Later.stillNames (h : Later s s') {fd : FileDescriptor} {state : OpenFileState}
    {file : Node}
    (hfd : s.fdTable.entries fd = some state) (hlt : fd < s.fdTable.nextFd)
    (hfile : s.nodes state.inodeId = some file) (hbelow : state.inodeId < s.nextInodeId) :
    s'.StillNames fd state.mode state.inodeId file := by
  cases hfd' : s'.fdTable.entries fd with
  | none => exact Or.inl ⟨hfd', fun n data => descriptor_gone hfd' n data⟩
  | some state' =>
    obtain ⟨old, hold, hid, hmode⟩ := h.fds.kept hfd' hlt
    obtain rfl := Option.some.inj (hold.symm.trans hfd)
    refine Or.inr ⟨state', hfd', hid, hmode, ?_⟩
    cases hnode : s'.nodes old.inodeId with
    | none =>
      rw [← hid] at hnode
      rw [← hmode]
      exact Or.inr ⟨rfl, fun n data => file_gone hfd' hnode n data⟩
    | some node' =>
      obtain ⟨node, hnode, hkept⟩ := h.kept hnode hbelow
      obtain rfl := Option.some.inj (hnode.symm.trans hfile)
      exact Or.inl ⟨node', rfl, hkept⟩

theorem descriptor_meaning (totalBlocks blockSize bucketCount : ℕ) {pre post : List Op}
    {path : List Char} {mode : OpenMode} {fd : FileDescriptor}
    (hops : (pre ++ .open path mode :: post).countP Op.numbers < 2 ^ 31)
    (hticks : machine.Guarded HasTicks (init totalBlocks blockSize bucketCount)
      (pre ++ .open path mode :: post))
    (hok : ((machine.run (init totalBlocks blockSize bucketCount) pre).open path mode).1 =
      some (.ok fd)) :
    let start := init totalBlocks blockSize bucketCount
    ∃ i file,
      (machine.run start (pre ++ [.open path mode])).resolvePath path = .ok i ∧
      (machine.run start (pre ++ [.open path mode])).nodes i = some file ∧
      file.inode.type = .file ∧
      (machine.run start (pre ++ .open path mode :: post)).StillNames fd mode i file := by
  intro start
  have hsplit : pre ++ Op.open path mode :: post = (pre ++ [.open path mode]) ++ post := by simp
  have hclock : HasTicks (machine.run start pre) (.open path mode) := by
    simpa using hticks.getElem? (n := pre.length) (by simp)
  have hpreTicks : machine.Guarded HasTicks start pre := by simpa using hticks.take pre.length
  have hopened : (pre ++ [Op.open path mode]).countP Op.numbers < 2 ^ 31 := by
    rw [hsplit, List.countP_append] at hops
    exact Nat.lt_of_le_of_lt (Nat.le_add_right ..) hops
  have hpre : pre.countP Op.numbers < 2 ^ 31 := by
    rw [List.countP_append] at hopened
    exact Nat.lt_of_le_of_lt (Nat.le_add_right ..) hopened
  obtain ⟨hinv, hn, hroom⟩ := reachable_namespace totalBlocks blockSize bucketCount hpre hpreTicks
  obtain ⟨i, file, state, hfile, htype, hpath, hfd, rfl, rfl, hlt⟩ :=
    open_names hinv hroom hn hclock hok
  have hstate : machine.run start (pre ++ [.open path state.mode]) =
      ((machine.run start pre).open path state.mode).2 := by
    rw [Machine.run_append]
    rfl
  have hinv' : Inv ((machine.run start pre).open path state.mode).2 :=
    exec_inv (.open path state.mode) hroom hinv
  have hlater := later_of_append totalBlocks blockSize bucketCount (hsplit ▸ hops)
  rw [← hsplit] at hlater
  change Later (machine.run start (pre ++ [.open path state.mode])) _ at hlater
  rw [hstate] at hlater ⊢
  exact ⟨state.inodeId, file, hpath, hfile, htype,
    hlater.stillNames hfd hlt hfile (hinv'.below hfile)⟩

/-- What the namespace promises for a run: every call has an answer, the last state is a tree of
names with the right sizes and times, no number is given to two nodes, and a descriptor names the
file it was opened on or nothing. -/
structure NamespaceTree (start : SimpleFs) (ops : List Op) : Prop where
  answered : ∀ r ∈ machine.outs start ops, r.isSome
  finite : {i | ((machine.run start ops).nodes i).isSome}.Finite
  root : ∃ root, (machine.run start ops).nodes rootInodeId = some root ∧
    root.inode.type = .directory
  root_top : ∀ p name, (machine.run start ops).childOf p name ≠ some rootInodeId
  entry : ∀ k node, (machine.run start ops).nodes k = some node → k ≠ rootInodeId →
    ∃ p name dir, (machine.run start ops).nodes p = some dir ∧ dir.inode.type = .directory ∧
      dir.children.lookup name = some k ∧ node.inode.parent = some p ∧
      ∀ q b, (machine.run start ops).childOf q b = some k → q = p ∧ b = name
  child : ∀ p name k, (machine.run start ops).childOf p name = some k →
    ((machine.run start ops).nodes k).isSome
  leaf : ∀ i node, (machine.run start ops).nodes i = some node → node.children ≠ ∅ →
    node.inode.type = .directory
  reached : ∀ k, ((machine.run start ops).nodes k).isSome →
    ∃ tokens, (machine.run start ops).descend rootInodeId tokens = .ok k
  inode : ∀ i node, (machine.run start ops).nodes i = some node →
    (node.inode.type = .directory → node.inode.size = node.children.entries.length) ∧
    node.inode.id = i ∧ i < (machine.run start ops).nextInodeId ∧
    node.inode.createdAt ≤ node.inode.modifiedAt ∧
    node.inode.modifiedAt ≤ (machine.run start ops).tick
  number : ∀ pre op mid op' post i, ops = pre ++ op :: (mid ++ op' :: post) →
    (machine.run start pre).nodes i = none →
    ((machine.run start (pre ++ [op])).nodes i).isSome →
    (machine.run start (pre ++ op :: mid)).nodes i = none →
    (machine.run start (pre ++ op :: (mid ++ [op']))).nodes i = none
  path : ∀ path path' k k', (machine.run start ops).resolvePath path = .ok k →
    (machine.run start ops).resolvePath path' = .ok k' →
    (k = k' ↔ splitPath path = splitPath path')
  descriptor : ∀ pre path mode post fd, ops = pre ++ .open path mode :: post →
    ((machine.run start pre).open path mode).1 = some (.ok fd) →
    ∃ i file, (machine.run start (pre ++ [.open path mode])).resolvePath path = .ok i ∧
      (machine.run start (pre ++ [.open path mode])).nodes i = some file ∧
      file.inode.type = .file ∧ (machine.run start ops).StillNames fd mode i file

/-- A new node that makes the table rehash is the only way to lose an answer, and a run without
one keeps all promises unless its clock wraps around. -/
theorem namespace_tree (totalBlocks blockSize bucketCount : ℕ) (ops : List Op)
    (hops : ops.countP Op.numbers < 2 ^ 31) :
    let start := init totalBlocks blockSize bucketCount
    (machine.Guarded HasBucket start ops → machine.Guarded HasTicks start ops →
      NamespaceTree start ops) ∧
    (NamespaceTree start ops → machine.Guarded HasBucket start ops) := by
  intro start
  have hanswers :
      (∀ r ∈ machine.outs start ops, r.isSome) ↔ machine.Guarded HasBucket start ops := by
    refine run_defined (inv_init totalBlocks blockSize bucketCount)
      (room_of_numbers totalBlocks blockSize bucketCount hops) ?_
    have hle : ops.countP Op.opens ≤ ops.countP Op.numbers :=
      List.countP_mono_left fun op _ h => Op.numbers_of_opens h
    change (0 : ℤ) + _ < 2 ^ 31
    omega
  refine ⟨fun hbuckets hticks => ?_, fun h => hanswers.mp h.answered⟩
  obtain ⟨hinv, hn, -⟩ := reachable_namespace totalBlocks blockSize bucketCount hops hticks
  refine ⟨hanswers.mpr hbuckets,
    (nodeCount_run totalBlocks blockSize bucketCount hops hticks).finite,
    hn.root, fun _ _ => hn.tree.root_top, fun k node => hn.entry,
    fun p name k hk => hn.tree.target_mem hk, ?_, ?_, ?_, ?_,
    fun path path' k k' => hn.resolvePath_inj, ?_⟩
  · intro i node hnode hchildren
    by_contra hfile
    exact hchildren (hn.leaf hnode (InodeType.ne_directory.mp hfile))
  · intro k hk
    obtain ⟨tokens, hwalk⟩ := hn.tree.exists_walk hk
    exact ⟨tokens, hn.descend_iff.mpr hwalk⟩
  · intro i node hnode
    exact ⟨hn.size hnode, hinv.id_eq i node hnode, hn.below hnode, hn.times hnode⟩
  · intro pre op mid op' post i heq _ hsome hnone
    refine number_once totalBlocks blockSize bucketCount ?_ hsome hnone
    have hops' := hops
    rw [heq, show pre ++ op :: (mid ++ op' :: post) = (pre ++ op :: (mid ++ [op'])) ++ post by simp,
      List.countP_append] at hops'
    exact Nat.lt_of_le_of_lt (Nat.le_add_right ..) hops'
  · intro pre path mode post fd heq hok
    obtain ⟨i, file, hpath, hfile, htype, hnames⟩ :=
      descriptor_meaning totalBlocks blockSize bucketCount (heq ▸ hops) (heq ▸ hticks) hok
    refine ⟨i, file, hpath, hfile, htype, ?_⟩
    rwa [← heq] at hnames

theorem namespace_tree_recreated :
    let s := machine.run (init 4 4 13)
      [.open ['/', 'f'] 7, .remove ['/', 'f'], .open ['/', 'f'] 7]
    ∃ i file, s.StillNames 0 7 i file ∧ s.nodes i = none ∧ s.resolvePath ['/', 'f'] = .ok 3 := by
  intro s
  have htree := (namespace_tree 4 4 13
    [.open ['/', 'f'] 7, .remove ['/', 'f'], .open ['/', 'f'] 7] (by decide)).1
    ⟨fun _ => by decide +kernel, fun _ => by decide +kernel, fun _ => by decide +kernel, trivial⟩
    ⟨by decide +kernel, by decide +kernel, by decide +kernel, trivial⟩
  obtain ⟨i, file, hpath, -, -, hnames⟩ := htree.descriptor [] ['/', 'f'] 7
    [.remove ['/', 'f'], .open ['/', 'f'] 7] 0 rfl (by decide +kernel)
  have htwo : (machine.run (init 4 4 13) [.open ['/', 'f'] 7]).resolvePath ['/', 'f'] = .ok 2 := by
    decide +kernel
  obtain rfl := Result.ok.inj (hpath.symm.trans htwo)
  exact ⟨2, file, hnames, rfl, by decide +kernel⟩

def thirteenDirs : List Op :=
  ['a', 'b', 'c', 'd', 'e', 'f', 'g', 'h', 'i', 'j', 'k', 'l', 'm'].map fun c => .mkdir ['/', c]

/-- With thirteen buckets the last of thirteen directories makes the table rehash. -/
theorem namespace_tree_rehash :
    thirteenDirs.countP Op.numbers < 2 ^ 31 ∧ ¬ NamespaceTree (init 4 4 13) thirteenDirs := by
  refine ⟨by decide, fun h => ?_⟩
  have hlast : (machine.outs (init 4 4 13) thirteenDirs)[12]? = some none := by decide +kernel
  have hsome := h.answered none (List.mem_of_getElem? hlast)
  cases hsome

end SimpleFs
end Contur
