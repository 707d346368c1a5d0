import Mathlib.Data.Set.Card
import Contur.NameTree
import Contur.SimpleFsRefinement

/-!
# The namespace of the file system

The node table with its child maps is a tree of names. Every operation changes the
table in one of four ways (`Change`): not at all, in the bytes and the time of one
file, by a new leaf, or by a leaf that disappears. A numbered node therefore stays
the node it was for as long as it exists.
-/

namespace Contur
open Function (update)
open Transition

namespace SimpleFs
variable {s s' s'' : SimpleFs}

def childOf (s : SimpleFs) (i : InodeId) (name : Name) : Option InodeId :=
  (s.nodes i).bind fun node => node.children.lookup name

/-- The namespace: what the flat table of nodes has to satisfy in order to be a tree. -/
structure Namespace (s : SimpleFs) : Prop where
  tree : NameTree.Tree rootInodeId {i | (s.nodes i).isSome} s.childOf
  root : ∃ node, s.nodes rootInodeId = some node ∧ node.inode.type = .directory
  parent : ∀ {p name k node}, s.childOf p name = some k → s.nodes k = some node →
    node.inode.parent = some p
  leaf : ∀ {i node}, s.nodes i = some node → node.inode.type = .file → node.children = ∅
  size : ∀ {i node}, s.nodes i = some node → node.inode.type = .directory →
    node.inode.size = node.children.entries.length
  below : ∀ {i node}, s.nodes i = some node → i < s.nextInodeId
  times : ∀ {i node}, s.nodes i = some node →
    node.inode.createdAt ≤ node.inode.modifiedAt ∧ node.inode.modifiedAt ≤ s.tick

theorem childOf_of_node {i : InodeId} {node : Node} (h : s.nodes i = some node) (name : Name) :
    s.childOf i name = node.children.lookup name := by
  simp [childOf, h]

theorem childOf_of_none {i : InodeId} (h : s.nodes i = none) (name : Name) :
    s.childOf i name = none := by
  simp [childOf, h]

theorem InodeType.ne_file {t : InodeType} : t ≠ .file ↔ t = .directory := by
  cases t <;> simp

theorem InodeType.ne_directory {t : InodeType} : t ≠ .directory ↔ t = .file := by
  cases t <;> simp

/-- The walk of the source is the walk in the tree: only a file could make a difference, and
files have no children. -/
theorem Namespace.descend_iff (h : Namespace s) {i k : InodeId} {tokens : List Name} :
    s.descend i tokens = .ok k ↔ NameTree.walk s.childOf i tokens = some k := by
  induction tokens generalizing i with
  | nil => simp [descend, NameTree.walk]
  | cons token tokens ih =>
    simp only [descend, NameTree.walk, childOf]
    cases hnode : s.nodes i with
    | none => simp
    | some node =>
      by_cases hdir : node.inode.type ≠ .directory
      · have hleaf := h.leaf hnode (InodeType.ne_directory.mp hdir)
        simp [hdir, hleaf]
      · simp only [hdir, ↓reduceIte, Option.bind_some]
        cases node.children.lookup token with
        | none => simp
        | some child => exact ih

structure Kept (node node' : Node) : Prop where
  id : node'.inode.id = node.inode.id
  type : node'.inode.type = node.inode.type
  parent : node'.inode.parent = node.inode.parent
  createdAt : node'.inode.createdAt = node.inode.createdAt

theorem Kept.refl (node : Node) : Kept node node := ⟨rfl, rfl, rfl, rfl⟩

theorem Kept.trans {a b c : Node} (h : Kept a b) (h' : Kept b c) : Kept a c :=
  ⟨h'.id.trans h.id, h'.type.trans h.type, h'.parent.trans h.parent, h'.createdAt.trans h.createdAt⟩

structure Touched (s s' : SimpleFs) (i : InodeId) (node node' : Node) : Prop where
  found : s.nodes i = some node
  file : node.inode.type = .file
  nodes : s'.nodes = update s.nodes i (some node')
  next : s'.nextInodeId = s.nextInodeId
  kept : Kept node node'
  children : node'.children = node.children
  time : (s'.tick = s.tick ∧ node'.inode.modifiedAt = node.inode.modifiedAt) ∨
    (s'.tick = s.nextTick ∧ node'.inode.modifiedAt = s.nextTick)
  count : s'.nodeCount = s.nodeCount

structure Created (s s' : SimpleFs) (p : InodeId) (name : Name) (parent parent' child : Node) :
    Prop where
  found : s.nodes p = some parent
  dir : parent.inode.type = .directory
  entry : parent.children.lookup name = none
  nodes : s'.nodes = update (update s.nodes s.nextInodeId (some child)) p (some parent')
  next : s'.nextInodeId = s.nextInodeId + 1
  tick : s'.tick = (s.nextTick + 1) % 2 ^ 64
  kept : Kept parent parent'
  children : parent'.children = parent.children.insert name s.nextInodeId
  size : parent'.inode.size = parent'.children.entries.length
  modified : parent'.inode.modifiedAt = s'.tick
  leaf : child.inode.parent = some p ∧ child.children = ∅ ∧ child.inode.size = 0 ∧
    child.inode.createdAt = s.nextTick ∧ child.inode.modifiedAt = s.nextTick
  count : s'.nodeCount = s.nodeCount + 1

structure Removed (s s' : SimpleFs) (p k : InodeId) (name : Name) (parent parent' child : Node) :
    Prop where
  found : s.nodes p = some parent
  dir : parent.inode.type = .directory
  entry : parent.children.lookup name = some k
  target : s.nodes k = some child
  leaf : child.inode.type = .directory → child.children = ∅
  nodes : s'.nodes = update (update s.nodes k none) p (some parent')
  next : s'.nextInodeId = s.nextInodeId
  tick : s'.tick = s.nextTick
  kept : Kept parent parent'
  children : parent'.children = parent.children.erase name
  size : parent'.inode.size = parent'.children.entries.length
  modified : parent'.inode.modifiedAt = s.nextTick
  count : s'.nodeCount = s.nodeCount - 1

/-- A change that moves the clock at most `n` times. -/
inductive Change (n : ℕ) (s s' : SimpleFs) : Prop
  | quiet (hnodes : s'.nodes = s.nodes) (hnext : s'.nextInodeId = s.nextInodeId)
      (htick : s'.tick = s.tick) (hcount : s'.nodeCount = s.nodeCount)
  | touch {i : InodeId} {node node' : Node} (hn : 1 ≤ n) (h : Touched s s' i node node')
  | create {p : InodeId} {name : Name} {parent parent' child : Node} (hn : 2 ≤ n)
      (h : Created s s' p name parent parent' child)
  | remove {p k : InodeId} {name : Name} {parent parent' child : Node} (hn : 1 ≤ n)
      (h : Removed s s' p k name parent parent' child)

structure Fits (s : SimpleFs) (i : InodeId) (node : Node) : Prop where
  leaf : node.inode.type = .file → node.children = ∅
  size : node.inode.type = .directory → node.inode.size = node.children.entries.length
  below : i < s.nextInodeId
  created : node.inode.createdAt ≤ node.inode.modifiedAt
  modified : node.inode.modifiedAt ≤ s.tick

theorem Fits.later {i : InodeId} {node : Node} (h : Fits s i node)
    (hnext : s.nextInodeId ≤ s'.nextInodeId) (htick : s.tick ≤ s'.tick) : Fits s' i node :=
  ⟨h.leaf, h.size, h.below.trans_le hnext, h.created, h.modified.trans htick⟩

theorem nextTick_eq (hclock : s.tick + 1 < 2 ^ 64) : s.nextTick = s.tick + 1 :=
  Nat.mod_eq_of_lt hclock

namespace Namespace

theorem fits (h : Namespace s) {i : InodeId} {node : Node} (hnode : s.nodes i = some node) :
    Fits s i node :=
  ⟨h.leaf hnode, h.size hnode, h.below hnode, (h.times hnode).1, (h.times hnode).2⟩

theorem of_fits (htree : NameTree.Tree rootInodeId {i | (s.nodes i).isSome} s.childOf)
    (hroot : ∃ node, s.nodes rootInodeId = some node ∧ node.inode.type = .directory)
    (hparent : ∀ {p name k node}, s.childOf p name = some k → s.nodes k = some node →
      node.inode.parent = some p)
    (hfits : ∀ {i node}, s.nodes i = some node → Fits s i node) : Namespace s where
  tree := htree
  root := hroot
  parent := hparent
  leaf hnode := (hfits hnode).leaf
  size hnode := (hfits hnode).size
  below hnode := (hfits hnode).below
  times hnode := ⟨(hfits hnode).created, (hfits hnode).modified⟩

theorem quiet (h : Namespace s) (hnodes : s'.nodes = s.nodes)
    (hnext : s'.nextInodeId = s.nextInodeId) (htick : s'.tick = s.tick) : Namespace s' := by
  have hchild : s'.childOf = s.childOf := by
    funext i name
    simp only [childOf, hnodes]
  refine ⟨?_, ?_, ?_, ?_, ?_, ?_, ?_⟩
  · rw [hchild, hnodes]
    exact h.tree
  · rw [hnodes]
    exact h.root
  · rw [hchild, hnodes]
    exact h.parent
  · rw [hnodes]
    exact h.leaf
  · rw [hnodes]
    exact h.size
  · rw [hnodes, hnext]
    exact h.below
  · rw [hnodes, htick]
    exact h.times

theorem touch (h : Namespace s) (hclock : s.tick + 1 < 2 ^ 64) {i : InodeId} {node node' : Node}
    (hc : Touched s s' i node node') : Namespace s' := by
  obtain ⟨hnode, hfile, hnodes, hnext, hkept, hchildren, htime, -⟩ := hc
  rw [nextTick_eq hclock] at htime
  have hself : s'.nodes i = some node' := by rw [hnodes, Function.update_self]
  have hother : ∀ j ≠ i, s'.nodes j = s.nodes j := fun j hj => by
    rw [hnodes, Function.update_of_ne hj]
  have hchild : s'.childOf = s.childOf := by
    funext j name
    by_cases hj : j = i
    · rw [hj, childOf_of_node hself, childOf_of_node hnode, hchildren]
    · simp only [childOf, hother j hj]
  have hmem : {j | (s'.nodes j).isSome} = {j | (s.nodes j).isSome} := by
    ext j
    by_cases hj : j = i
    · simp [hj, hself, hnode]
    · simp [hother j hj]
  have hcases : ∀ {j n}, s'.nodes j = some n → (j = i ∧ n = node') ∨
      (j ≠ i ∧ s.nodes j = some n) := by
    intro j n hn
    by_cases hj : j = i
    · subst j
      exact Or.inl ⟨rfl, Option.some.inj (hn.symm.trans hself)⟩
    · exact Or.inr ⟨hj, (hother j hj).symm.trans hn⟩
  have hfile' : node'.inode.type = .file := hkept.type.trans hfile
  refine of_fits ?_ ?_ ?_ ?_
  · rw [hchild, hmem]
    exact h.tree
  · obtain ⟨root, hroot, hdir⟩ := h.root
    have hne : rootInodeId ≠ i := by
      rintro rfl
      rw [hroot] at hnode
      cases hnode
      rw [hdir] at hfile
      cases hfile
    exact ⟨root, (hother _ hne).trans hroot, hdir⟩
  · intro p name k n hk hn
    rw [hchild] at hk
    rcases hcases hn with ⟨rfl, rfl⟩ | ⟨-, hn⟩
    · rw [hkept.parent]
      exact h.parent hk hnode
    · exact h.parent hk hn
  · intro j n hn
    have hold := h.fits hnode
    rcases hcases hn with ⟨rfl, rfl⟩ | ⟨-, hn⟩
    · have htimes := hold.created.trans hold.modified
      refine ⟨fun _ => hchildren.trans (hold.leaf hfile), fun hdir => ?_, hnext.symm ▸ hold.below,
        ?_, ?_⟩
      · rw [hfile'] at hdir
        cases hdir
      · rw [hkept.createdAt]
        rcases htime with ⟨-, hmodified⟩ | ⟨-, hmodified⟩
        · exact hmodified.symm ▸ hold.created
        · exact hmodified.symm ▸ Nat.le_succ_of_le htimes
      · rcases htime with ⟨htick, hmodified⟩ | ⟨htick, hmodified⟩
        · rw [htick, hmodified]
          exact hold.modified
        · rw [htick, hmodified]
    · refine (h.fits hn).later hnext.ge ?_
      rcases htime with ⟨htick, -⟩ | ⟨htick, -⟩
      · exact htick.ge
      · exact htick.symm ▸ Nat.le_succ _

theorem create (h : Namespace s) (hclock : s.tick + 2 < 2 ^ 64) {p : InodeId} {name : Name}
    {parent parent' child : Node} (hc : Created s s' p name parent parent' child) :
    Namespace s' := by
  obtain ⟨hparent, hdir, hname, hnodes, hnext, htick, hkept, hchildren, hsize, hmodified,
    ⟨hchildParent, hempty, hzero, hcreated, hmodified'⟩, -⟩ := hc
  have hfirst : s.nextTick = s.tick + 1 := nextTick_eq (Nat.lt_of_succ_lt hclock)
  rw [hfirst, Nat.mod_eq_of_lt hclock] at htick
  rw [hfirst] at hcreated hmodified'
  rw [htick] at hmodified
  have hlt : p < s.nextInodeId := h.below hparent
  have hfresh : s.nodes s.nextInodeId = none := by
    by_contra hne
    obtain ⟨node, hnode⟩ := Option.ne_none_iff_exists'.mp hne
    exact (Nat.lt_irrefl _ (h.below hnode)).elim
  have hself : s'.nodes p = some parent' := by rw [hnodes, Function.update_self]
  have hnew : s'.nodes s.nextInodeId = some child := by
    rw [hnodes, Function.update_of_ne (Nat.ne_of_gt hlt), Function.update_self]
  have hother : ∀ j, j ≠ p → j ≠ s.nextInodeId → s'.nodes j = s.nodes j := fun j hj hjn => by
    rw [hnodes, Function.update_of_ne hj, Function.update_of_ne hjn]
  have hedge : ∀ i b, ¬ (i = p ∧ b = name) → s'.childOf i b = s.childOf i b := by
    intro i b hib
    by_cases hi : i = p
    · have hb : b ≠ name := fun hb => hib ⟨hi, hb⟩
      rw [hi, childOf_of_node hself, childOf_of_node hparent, hchildren, AList.lookup_insert_ne hb]
    · by_cases hin : i = s.nextInodeId
      · rw [hin, childOf_of_node hnew, childOf_of_none hfresh, hempty, AList.lookup_empty]
      · simp only [childOf, hother i hi hin]
  have hcases : ∀ {j n}, s'.nodes j = some n → (j = p ∧ n = parent') ∨
      (j = s.nextInodeId ∧ n = child) ∨ (j ≠ p ∧ j ≠ s.nextInodeId ∧ s.nodes j = some n) := by
    intro j n hn
    by_cases hj : j = p
    · subst j
      exact Or.inl ⟨rfl, Option.some.inj (hn.symm.trans hself)⟩
    · by_cases hjn : j = s.nextInodeId
      · subst j
        exact Or.inr (Or.inl ⟨rfl, Option.some.inj (hn.symm.trans hnew)⟩)
      · exact Or.inr (Or.inr ⟨hj, hjn, (hother j hj hjn).symm.trans hn⟩)
  have hdir' : parent'.inode.type = .directory := hkept.type.trans hdir
  refine of_fits ?_ ?_ ?_ ?_
  · refine h.tree.insert (p := p) (k := s.nextInodeId) (a := name) ?_ ?_ ?_ hlt ?_ ?_ hedge
    · simp [hparent]
    · simp [hfresh]
    · rw [childOf_of_node hparent, hname]
    · intro i
      by_cases hi : i = p
      · simp [hi, hself, hparent]
      · by_cases hin : i = s.nextInodeId
        · simp [hin, hnew]
        · simp [hin, hother i hi hin]
    · rw [childOf_of_node hself, hchildren, AList.lookup_insert]
  · by_cases hp : p = rootInodeId
    · exact ⟨parent', hp ▸ hself, hdir'⟩
    · obtain ⟨root, hroot, hrootDir⟩ := h.root
      exact ⟨root, (hother _ (Ne.symm hp) (Nat.ne_of_lt (h.below hroot))).trans hroot, hrootDir⟩
  · intro q b k n hk hn
    by_cases hqb : q = p ∧ b = name
    · obtain ⟨rfl, rfl⟩ := hqb
      rw [childOf_of_node hself, hchildren, AList.lookup_insert] at hk
      obtain rfl := Option.some.inj hk
      obtain rfl := Option.some.inj (hnew.symm.trans hn)
      exact hchildParent
    · rw [hedge q b hqb] at hk
      rcases hcases hn with ⟨rfl, rfl⟩ | ⟨rfl, -⟩ | ⟨-, -, hn⟩
      · rw [hkept.parent]
        exact h.parent hk hparent
      · have hmem : (s.nodes s.nextInodeId).isSome := h.tree.target_mem hk
        rw [hfresh] at hmem
        cases hmem
      · exact h.parent hk hn
  · intro j n hn
    rcases hcases hn with ⟨rfl, rfl⟩ | ⟨rfl, rfl⟩ | ⟨-, -, hn⟩
    · have hold := h.fits hparent
      refine ⟨fun hf => ?_, fun _ => hsize, hnext.symm ▸ Nat.lt_succ_of_lt hlt, ?_, ?_⟩
      · rw [hdir'] at hf
        cases hf
      · rw [hkept.createdAt, hmodified]
        exact (hold.created.trans hold.modified).trans (Nat.le_add_right _ _)
      · rw [hmodified, htick]
    · refine ⟨fun _ => hempty, fun _ => ?_, hnext.symm ▸ Nat.lt_succ_self _, ?_, ?_⟩
      · rw [hempty, hzero]
        rfl
      · rw [hcreated, hmodified']
      · rw [hmodified', htick]
        exact Nat.le_succ _
    · exact (h.fits hn).later (hnext.symm ▸ Nat.le_succ _) (htick.symm ▸ Nat.le_add_right _ _)

theorem remove (h : Namespace s) (hclock : s.tick + 1 < 2 ^ 64) {p k : InodeId} {name : Name}
    {parent parent' child : Node} (hc : Removed s s' p k name parent parent' child) :
    Namespace s' := by
  obtain ⟨hparent, hdir, hname, hchild, hleaf, hnodes, hnext, htick, hkept, hchildren, hsize,
    hmodified, -⟩ := hc
  rw [nextTick_eq hclock] at htick hmodified
  have hk : s.childOf p name = some k := (childOf_of_node hparent name).trans hname
  have hkp : k ≠ p := Nat.ne_of_gt (h.tree.lt hk)
  have hempty : child.children = ∅ := by
    by_cases hf : child.inode.type = .file
    · exact h.leaf hchild hf
    · exact hleaf (InodeType.ne_file.mp hf)
  have hself : s'.nodes p = some parent' := by rw [hnodes, Function.update_self]
  have hgone : s'.nodes k = none := by
    rw [hnodes, Function.update_of_ne hkp, Function.update_self]
  have hother : ∀ j, j ≠ p → j ≠ k → s'.nodes j = s.nodes j := fun j hj hjk => by
    rw [hnodes, Function.update_of_ne hj, Function.update_of_ne hjk]
  have hedge : ∀ i b, ¬ (i = p ∧ b = name) → s'.childOf i b = s.childOf i b := by
    intro i b hib
    by_cases hi : i = p
    · have hb : b ≠ name := fun hb => hib ⟨hi, hb⟩
      rw [hi, childOf_of_node hself, childOf_of_node hparent, hchildren, AList.lookup_erase_ne hb]
    · by_cases hik : i = k
      · rw [hik, childOf_of_none hgone, childOf_of_node hchild, hempty, AList.lookup_empty]
      · simp only [childOf, hother i hi hik]
  have hcases : ∀ {j n}, s'.nodes j = some n →
      (j = p ∧ n = parent') ∨ (j ≠ p ∧ j ≠ k ∧ s.nodes j = some n) := by
    intro j n hn
    by_cases hj : j = p
    · subst j
      exact Or.inl ⟨rfl, Option.some.inj (hn.symm.trans hself)⟩
    · have hjk : j ≠ k := by
        rintro rfl
        rw [hgone] at hn
        cases hn
      exact Or.inr ⟨hj, hjk, (hother j hj hjk).symm.trans hn⟩
  have hdir' : parent'.inode.type = .directory := hkept.type.trans hdir
  refine of_fits ?_ ?_ ?_ ?_
  · refine h.tree.remove hk ?_ ?_ ?_ hedge
    · intro b
      rw [childOf_of_node hchild, hempty, AList.lookup_empty]
    · intro i
      by_cases hi : i = p
      · simp [hi, hself, hparent, Ne.symm hkp]
      · by_cases hik : i = k
        · simp [hik, hgone]
        · simp [hik, hother i hi hik]
    · rw [childOf_of_node hself, hchildren, AList.lookup_erase]
  · by_cases hp : p = rootInodeId
    · exact ⟨parent', hp ▸ hself, hdir'⟩
    · obtain ⟨root, hroot, hrootDir⟩ := h.root
      have hne : rootInodeId ≠ k := by
        rintro rfl
        exact h.tree.root_top hk
      exact ⟨root, (hother _ (Ne.symm hp) hne).trans hroot, hrootDir⟩
  · intro q b l n hl hn
    have hqb : ¬ (q = p ∧ b = name) := by
      rintro ⟨rfl, rfl⟩
      rw [childOf_of_node hself, hchildren, AList.lookup_erase] at hl
      cases hl
    rw [hedge q b hqb] at hl
    rcases hcases hn with ⟨rfl, rfl⟩ | ⟨-, -, hn⟩
    · rw [hkept.parent]
      exact h.parent hl hparent
    · exact h.parent hl hn
  · intro j n hn
    rcases hcases hn with ⟨rfl, rfl⟩ | ⟨-, -, hn⟩
    · have hold := h.fits hparent
      refine ⟨fun hf => ?_, fun _ => hsize, hnext.symm ▸ hold.below, ?_, ?_⟩
      · rw [hdir'] at hf
        cases hf
      · rw [hkept.createdAt, hmodified]
        exact (hold.created.trans hold.modified).trans (Nat.le_succ _)
      · rw [hmodified, htick]
    · exact (h.fits hn).later hnext.ge (htick.symm ▸ Nat.le_succ _)

end Namespace

theorem Change.keeps {n : ℕ} (hc : Change n s s') (hclock : s.tick + n < 2 ^ 64)
    (h : Namespace s) : Namespace s' := by
  have hle : ∀ {k}, k ≤ n → s.tick + k < 2 ^ 64 := fun hk =>
    Nat.lt_of_le_of_lt (Nat.add_le_add_left hk _) hclock
  cases hc with
  | quiet hnodes hnext htick => exact h.quiet hnodes hnext htick
  | touch hn hc => exact h.touch (hle hn) hc
  | create hn hc => exact h.create (hle hn) hc
  | remove hn hc => exact h.remove (hle hn) hc

theorem Change.tick_le {n : ℕ} (hc : Change n s s') : s'.tick ≤ s.tick + n := by
  have hnext : s.nextTick ≤ s.tick + 1 := Nat.mod_le _ _
  cases hc with
  | quiet _ _ htick => exact htick.le.trans (Nat.le_add_right _ _)
  | touch hn hc =>
    rcases hc.time with ⟨htick, -⟩ | ⟨htick, -⟩
    · exact htick.le.trans (Nat.le_add_right _ _)
    · exact htick.le.trans (hnext.trans (Nat.add_le_add_left hn _))
  | create hn hc =>
    rw [hc.tick]
    exact (Nat.mod_le _ _).trans ((Nat.succ_le_succ hnext).trans (Nat.add_le_add_left hn _))
  | remove hn hc => exact hc.tick.le.trans (hnext.trans (Nat.add_le_add_left hn _))

/-- How often a call moves the clock, at most. -/
def Op.ticks : Op → ℕ
  | .open _ mode => (if hasOpenMode mode .create then 2 else 0) +
      if hasOpenMode mode .truncate then 1 else 0
  | .write _ data => if data.isEmpty then 0 else 1
  | .mkdir _ => 2
  | .remove _ => 1
  | _ => 0

theorem Change.setFds {n : ℕ} (h : Change n s s') (fds : FileDescriptorTable) :
    Change n s { s' with fdTable := fds } := by
  cases h with
  | quiet hnodes hnext htick hcount => exact .quiet hnodes hnext htick hcount
  | touch hn h => exact .touch hn { h with }
  | create hn h => exact .create hn { h with }
  | remove hn h => exact .remove hn { h with }

theorem openFd_change {t : SimpleFs} {n : ℕ} (h : Change n s t) (state : OpenFileState) :
    Change n s (s.openFd t state).2 := by
  unfold openFd
  split
  · exact .quiet rfl rfl rfl rfl
  · exact h.setFds _

theorem openNode_change (s : SimpleFs) (i : InodeId) (mode : OpenMode) :
    Change (if hasOpenMode mode .truncate then 1 else 0) s (s.openNode i mode).2 := by
  unfold openNode
  cases hnode : s.nodes i with
  | none => exact .quiet rfl rfl rfl rfl
  | some node =>
    dsimp only
    by_cases hfile : node.inode.type ≠ .file
    · rw [if_pos hfile]
      exact .quiet rfl rfl rfl rfl
    rw [if_neg hfile]
    have hfile : node.inode.type = .file := not_not.mp hfile
    by_cases htrunc : hasOpenMode mode .truncate = true
    · rw [if_pos htrunc, if_pos htrunc]
      obtain ⟨disk, allocator, hshape⟩ := ensureFileBlocks_shape s node.inode.blocks 0
      split
      · next s₁ blocks heq =>
        rw [heq] at hshape
        obtain rfl : s₁ = { s with disk := disk, allocator := allocator } := hshape
        exact .touch le_rfl
          ⟨hnode, hfile, rfl, rfl, ⟨rfl, rfl, rfl, rfl⟩, rfl, Or.inl ⟨rfl, rfl⟩, rfl⟩
      · next s₁ blocks heq =>
        rw [heq] at hshape
        obtain rfl : s₁ = { s with disk := disk, allocator := allocator } := hshape
        refine openFd_change ?_ _
        exact .touch le_rfl
          ⟨hnode, hfile, rfl, rfl, ⟨rfl, rfl, rfl, rfl⟩, rfl, Or.inr ⟨rfl, rfl⟩, rfl⟩
    · rw [if_neg htrunc, if_neg htrunc]
      exact openFd_change (.quiet rfl rfl rfl rfl) _

theorem writeToNode_change {i : InodeId} {node : Node} (hnode : s.nodes i = some node)
    (hfile : node.inode.type = .file) (offset : ℕ) (data : List Byte) :
    Change (if data.isEmpty then 0 else 1) s (s.writeToNode i node offset data).2 := by
  unfold writeToNode
  split_ifs
  · exact .quiet rfl rfl rfl rfl
  · dsimp only
    obtain ⟨disk, allocator, hshape⟩ :=
      ensureFileBlocks_shape s node.inode.blocks (max node.inode.size (offset + data.length))
    split
    · next s₁ blocks heq =>
      rw [heq] at hshape
      obtain rfl : s₁ = { s with disk := disk, allocator := allocator } := hshape
      exact .touch le_rfl
        ⟨hnode, hfile, rfl, rfl, ⟨rfl, rfl, rfl, rfl⟩, rfl, Or.inl ⟨rfl, rfl⟩, rfl⟩
    · next s₁ blocks heq =>
      rw [heq] at hshape
      obtain rfl : s₁ = { s with disk := disk, allocator := allocator } := hshape
      split
      · exact .touch le_rfl
          ⟨hnode, hfile, rfl, rfl, ⟨rfl, rfl, rfl, rfl⟩, rfl, Or.inl ⟨rfl, rfl⟩, rfl⟩
      · exact .touch le_rfl
          ⟨hnode, hfile, rfl, rfl, ⟨rfl, rfl, rfl, rfl⟩, rfl, Or.inr ⟨rfl, rfl⟩, rfl⟩

theorem write_change (h : Inv s) (fd : FileDescriptor) (data : List Byte) :
    Change (if data.isEmpty then 0 else 1) s (s.write fd data).2 := by
  generalize hbudget : (if data.isEmpty then 0 else 1) = n
  unfold write
  cases hfd : s.fdTable.entries fd with
  | none => exact .quiet rfl rfl rfl rfl
  | some state =>
    dsimp only
    by_cases hmode : (!hasOpenMode state.mode .write) = true
    · rw [if_pos hmode]
      exact .quiet rfl rfl rfl rfl
    rw [if_neg hmode]
    cases hnode : s.nodes state.inodeId with
    | none => exact .quiet rfl rfl rfl rfl
    | some node =>
      have hchange := writeToNode_change hnode ((h.fd_file fd state hfd).2 node hnode)
        (if hasOpenMode state.mode .append then node.inode.size else state.offset) data
      rw [hbudget] at hchange
      dsimp only
      split <;> next heq =>
        rw [heq] at hchange
        first
        | exact hchange
        | exact hchange.setFds _

theorem createEntry_change (h : Inv s) (hroom : s.nextInodeId + 1 < 2 ^ 32) (path : List Char)
    (type : InodeType) : Change 2 s (s.createEntry path type).2 := by
  unfold createEntry
  split
  · exact .quiet rfl rfl rfl rfl
  split
  · exact .quiet rfl rfl rfl rfl
  next parentId name _ _ parent hparent =>
    dsimp only
    split_ifs with hdir hname hrehash
    · exact .quiet rfl rfl rfl rfl
    · exact .quiet rfl rfl rfl rfl
    · exact .quiet rfl rfl rfl rfl
    · have hdir : parent.inode.type = .directory := not_not.mp hdir
      have hfresh : s.nodes s.nextInodeId = none := h.fresh _ le_rfl
      have hstored : ∀ child : Node,
          { s with nextInodeId := (s.nextInodeId + 1) % 2 ^ 32, tick := s.nextTick }.emplace
            s.nextInodeId child = { s with
              nodes := update s.nodes s.nextInodeId (some child), nodeCount := s.nodeCount + 1
              nextInodeId := s.nextInodeId + 1, tick := s.nextTick } := by
        intro child
        rw [Nat.mod_eq_of_lt hroom]
        simp [emplace, hfresh]
      rw [hstored]
      exact .create le_rfl ⟨hparent, hdir, AList.lookup_eq_none.mpr hname, rfl, rfl, rfl,
        ⟨rfl, rfl, rfl, rfl⟩, rfl, rfl, rfl, ⟨rfl, rfl, rfl, rfl, rfl⟩, rfl⟩

theorem remove_change (s : SimpleFs) (path : List Char) : Change 1 s (s.remove path).2 := by
  unfold remove
  split
  · exact .quiet rfl rfl rfl rfl
  split
  · exact .quiet rfl rfl rfl rfl
  next parentId name _ _ parent hparent =>
    by_cases hdir : parent.inode.type ≠ .directory
    · rw [if_pos hdir]
      exact .quiet rfl rfl rfl rfl
    rw [if_neg hdir]
    have hdir : parent.inode.type = .directory := not_not.mp hdir
    split
    · exact .quiet rfl rfl rfl rfl
    next childId hname =>
      split
      · exact .quiet rfl rfl rfl rfl
      next node hchild =>
        by_cases hroot : node.inode.id = rootInodeId
        · rw [if_pos hroot]
          exact .quiet rfl rfl rfl rfl
        by_cases hfull : node.inode.type = .directory ∧ ¬ node.children.entries.isEmpty
        · rw [if_neg hroot, if_pos hfull]
          exact .quiet rfl rfl rfl rfl
        rw [if_neg hroot, if_neg hfull]
        have hleaf : node.inode.type = .directory → node.children = ∅ := by
          intro hdir
          have hempty : node.children.entries = [] := by simpa [hdir] using hfull
          exact AList.ext hempty
        have hfreed : ∃ disk allocator, (if node.inode.type = .file then
            s.freeBlocks node.inode.blocks else (.ok (), s)).2 =
              { s with disk := disk, allocator := allocator } := by
          split_ifs
          · exact freeBlocks_shape s node.inode.blocks
          · exact ⟨s.disk, s.allocator, rfl⟩
        obtain ⟨disk, allocator, hfreed⟩ := hfreed
        dsimp only
        split
        · next s₁ heq =>
          rw [heq] at hfreed
          obtain rfl : s₁ = { s with disk := disk, allocator := allocator } := hfreed
          exact .quiet rfl rfl rfl rfl
        · next s₁ heq =>
          rw [heq] at hfreed
          obtain rfl : s₁ = { s with disk := disk, allocator := allocator } := hfreed
          exact .remove le_rfl ⟨hparent, hdir, hname, hchild, hleaf, rfl, rfl, rfl,
            ⟨rfl, rfl, rfl, rfl⟩, rfl, rfl, rfl, rfl⟩

theorem exec_change (h : Inv s) (hroom : s.nextInodeId + 1 < 2 ^ 32) (op : Op) :
    ∃ s₁ n m, n + m ≤ op.ticks ∧ Change n s s₁ ∧ Change m s₁ (s.exec op).2 := by
  have hquiet : ∀ t : SimpleFs, Change 0 t t := fun t => .quiet rfl rfl rfl rfl
  cases op with
  | «open» path mode =>
    have hopened := fun (t : SimpleFs) i => openNode_change t i mode
    simp only [exec, «open», Op.ticks]
    generalize hn : (if hasOpenMode mode .create then 2 else 0) = n
    generalize (if hasOpenMode mode .truncate then 1 else 0) = m at hopened ⊢
    split
    · exact ⟨s, 0, 0, Nat.zero_le _, hquiet s, hquiet s⟩
    split
    · exact ⟨s, 0, m, by omega, hquiet s, hopened ..⟩
    split
    · exact ⟨s, 0, 0, Nat.zero_le _, hquiet s, hquiet s⟩
    next hcreate =>
      rw [if_pos (by simpa using hcreate)] at hn
      subst n
      have hentry := createEntry_change h hroom path .file
      split <;> next heq =>
        rw [heq] at hentry
        first
        | exact ⟨_, 2, 0, Nat.le_add_right _ _, hentry, hquiet _⟩
        | exact ⟨_, 2, m, le_rfl, hentry, hopened ..⟩
  | read fd n =>
    refine ⟨s, 0, 0, le_rfl, hquiet s, ?_⟩
    simp only [exec, read]
    repeat' split
    all_goals exact .quiet rfl rfl rfl rfl
  | write fd data => exact ⟨s, 0, _, (Nat.zero_add _).le, hquiet s, write_change h fd data⟩
  | close fd => exact ⟨s, 0, 0, le_rfl, hquiet s, .quiet rfl rfl rfl rfl⟩
  | mkdir path =>
    refine ⟨s, 0, 2, le_rfl, hquiet s, ?_⟩
    simp only [exec, mkdir_state]
    exact createEntry_change h hroom path .directory
  | remove path => exact ⟨s, 0, 1, le_rfl, hquiet s, remove_change s path⟩
  | listDir path => exact ⟨s, 0, 0, le_rfl, hquiet s, hquiet s⟩
  | stat path => exact ⟨s, 0, 0, le_rfl, hquiet s, hquiet s⟩

structure Counted (s : SimpleFs) : Prop where
  finite : {i | (s.nodes i).isSome}.Finite
  count : {i | (s.nodes i).isSome}.ncard = s.nodeCount

theorem Change.counted {n : ℕ} (hc : Change n s s') (hn : Namespace s) (h : Counted s) :
    Counted s' := by
  obtain ⟨hfinite, hcount⟩ := h
  cases hc with
  | quiet hnodes _ _ hsame => exact ⟨by rwa [hnodes], by rw [hnodes, hsame, hcount]⟩
  | @touch i node node' _ hc =>
    have hset : {j | (s'.nodes j).isSome} = {j | (s.nodes j).isSome} := by
      ext j
      by_cases hj : j = i
      · simp [hc.nodes, hj, hc.found]
      · simp [hc.nodes, hj]
    exact ⟨hset ▸ hfinite, by rw [hset, hc.count, hcount]⟩
  | @create p name parent parent' child _ hc =>
    have hnew : s.nextInodeId ∉ {j | (s.nodes j).isSome} := by
      intro hmem
      obtain ⟨node, hnode⟩ := Option.isSome_iff_exists.mp hmem
      exact Nat.lt_irrefl _ (hn.below hnode)
    have hset : {j | (s'.nodes j).isSome} = insert s.nextInodeId {j | (s.nodes j).isSome} := by
      ext j
      by_cases hj : j = p
      · simp [hc.nodes, hj, hc.found]
      · by_cases hjn : j = s.nextInodeId
        · simp [hc.nodes, hjn, hjn ▸ hj]
        · simp [hc.nodes, hj, hjn]
    refine ⟨hset ▸ hfinite.insert _, ?_⟩
    rw [hset, Set.ncard_insert_of_notMem hnew hfinite, hcount, hc.count]
  | @remove p k name parent parent' child _ hc =>
    have hkp : k ≠ p := Nat.ne_of_gt (hn.tree.lt ((childOf_of_node hc.found name).trans hc.entry))
    have hmem : k ∈ {j | (s.nodes j).isSome} := by simp [hc.target]
    have hset : {j | (s'.nodes j).isSome} = {j | (s.nodes j).isSome} \ {k} := by
      ext j
      by_cases hj : j = p
      · simp [hc.nodes, hj, hc.found, Ne.symm hkp]
      · by_cases hjk : j = k
        · simp [hc.nodes, hjk, hkp]
        · simp [hc.nodes, hj, hjk]
    refine ⟨hset ▸ hfinite.subset Set.sdiff_subset, ?_⟩
    rw [hset, Set.ncard_sdiff_singleton_of_mem hmem, hcount, hc.count]

theorem exec_namespace (h : Inv s) (hroom : s.nextInodeId + 1 < 2 ^ 32) {op : Op}
    (hclock : s.tick + op.ticks < 2 ^ 64) (hn : Namespace s) (hcount : Counted s) :
    Namespace (s.exec op).2 ∧ Counted (s.exec op).2 := by
  obtain ⟨s₁, n, m, hticks, hfirst, hsecond⟩ := exec_change h hroom op
  have hle := hfirst.tick_le
  have hn₁ : s.tick + n < 2 ^ 64 := by
    unfold Tick at *
    omega
  have hn₂ : s₁.tick + m < 2 ^ 64 := by
    unfold Tick at *
    omega
  have hmid := hfirst.keeps hn₁ hn
  exact ⟨hsecond.keeps hn₂ hmid, hsecond.counted hmid (hfirst.counted hn hcount)⟩

end SimpleFs
end Contur
