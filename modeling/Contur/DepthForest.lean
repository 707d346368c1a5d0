import Mathlib.Data.List.TakeWhile
import Mathlib.Data.Nat.Notation

/-!
# Forests as lists of depths

A forest is written down in preorder, each label with its depth. The depths are enough
to read it back: from the right, a label takes the trees before it that are deeper.
-/

namespace DepthForest

/-- The first tree of a forest, and the trees beside it. -/
inductive Forest (α : Type*) where
  | nil
  | node (a : α) (children rest : Forest α)
  deriving DecidableEq

variable {α : Type*}

def Forest.listing : ℕ → Forest α → List (ℕ × α)
  | _, .nil => []
  | depth, .node a children rest =>
    (depth, a) :: (listing (depth + 1) children ++ listing depth rest)

structure Root (α : Type*) where
  depth : ℕ
  label : α
  children : Forest α

def ofRoots : List (Root α) → Forest α
  | [] => .nil
  | root :: roots => .node root.label root.children (ofRoots roots)

def place (depth : ℕ) (a : α) (roots : List (Root α)) : List (Root α) :=
  { depth := depth, label := a, children := ofRoots (roots.takeWhile (depth < ·.depth)) } ::
    roots.dropWhile (depth < ·.depth)

def roots (listed : List (ℕ × α)) : List (Root α) :=
  listed.foldr (fun x roots => place x.1 x.2 roots) []

def rebuild (listed : List (ℕ × α)) : Forest α := ofRoots (roots listed)

def Forest.tops (depth : ℕ) : Forest α → List (Root α)
  | .nil => []
  | .node a children rest => { depth := depth, label := a, children := children } :: tops depth rest

theorem ofRoots_tops (depth : ℕ) (f : Forest α) : ofRoots (f.tops depth) = f := by
  induction f with
  | nil => rfl
  | node a children rest _ ih => exact congrArg (Forest.node a children) ih

theorem depth_of_mem_tops {depth : ℕ} {f : Forest α} {root : Root α} (h : root ∈ f.tops depth) :
    root.depth = depth := by
  induction f with
  | nil => cases h
  | node a children rest _ ih =>
    rcases List.mem_cons.mp h with rfl | h
    · rfl
    · exact ih h

def Begins (depth : ℕ) (roots : List (Root α)) : Prop :=
  ∀ root ∈ roots.head?, root.depth ≤ depth

theorem Begins.tops {depth : ℕ} {roots : List (Root α)} (h : Begins depth roots) (f : Forest α) :
    Begins depth (f.tops depth ++ roots) := by
  cases f with
  | nil => exact h
  | node a children rest =>
    intro root hroot
    obtain rfl := Option.mem_some.mp hroot
    exact le_rfl

theorem place_tops {depth : ℕ} {tail : List (Root α)} (a : α) (children : Forest α)
    (htail : Begins depth tail) : place depth a (children.tops (depth + 1) ++ tail) =
      { depth := depth, label := a, children := children } :: tail := by
  have hdeeper : ∀ root ∈ children.tops (depth + 1), decide (depth < root.depth) = true := by
    intro root hroot
    rw [depth_of_mem_tops hroot]
    exact decide_eq_true (Nat.lt_succ_self depth)
  have htake : tail.takeWhile (depth < ·.depth) = [] := by
    cases tail with
    | nil => rfl
    | cons root tail =>
      refine List.takeWhile_cons_of_neg ?_
      simpa using htail root rfl
  have hdrop : tail.dropWhile (depth < ·.depth) = tail := by
    have h := List.takeWhile_append_dropWhile (p := fun root : Root α => depth < root.depth)
      (l := tail)
    rwa [htake, List.nil_append] at h
  rw [place, List.takeWhile_append_of_pos hdeeper, List.dropWhile_append_of_pos hdeeper, htake,
    hdrop,
    List.append_nil, ofRoots_tops]

theorem roots_listing (f : Forest α) {depth : ℕ} (tail : List (ℕ × α))
    (htail : Begins depth (roots tail)) :
    roots (f.listing depth ++ tail) = f.tops depth ++ roots tail := by
  induction f generalizing depth tail with
  | nil => rfl
  | node a children rest ihchildren ihrest =>
    have hrest := ihrest tail htail
    have hbegins : Begins depth (roots (rest.listing depth ++ tail)) := by
      rw [hrest]
      exact htail.tops rest
    have hdeeper : Begins (depth + 1) (roots (rest.listing depth ++ tail)) :=
      fun root hroot => Nat.le_succ_of_le (hbegins root hroot)
    calc roots ((Forest.node a children rest).listing depth ++ tail)
        = place depth a (roots (children.listing (depth + 1) ++ (rest.listing depth ++ tail))) := by
          rw [Forest.listing, List.cons_append, List.append_assoc]
          rfl
      _ = place depth a (children.tops (depth + 1) ++ roots (rest.listing depth ++ tail)) := by
          rw [ihchildren _ hdeeper]
      _ = { depth := depth, label := a, children := children } ::
            roots (rest.listing depth ++ tail) := place_tops a children hbegins
      _ = (Forest.node a children rest).tops depth ++ roots tail := by
          rw [hrest]
          rfl

theorem rebuild_listing (f : Forest α) (depth : ℕ) : rebuild (f.listing depth) = f := by
  have h : roots (f.listing depth ++ []) = f.tops depth ++ roots [] :=
    roots_listing f [] fun _ hroot => by cases hroot
  rw [List.append_nil] at h
  rw [rebuild, h]
  exact (congrArg ofRoots (List.append_nil _)).trans (ofRoots_tops depth f)

end DepthForest
