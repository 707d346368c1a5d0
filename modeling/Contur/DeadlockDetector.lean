import Mathlib.Data.Finset.Sort
import Mathlib.Data.List.AList
import Mathlib.Data.Prod.Lex
import Contur.CycleNodes
import Contur.Types

/-!
# The deadlock detector

The detector is told who acquires, releases and waits for which resource, and keeps
the owners of each resource and a wait-for graph. A node is a process together with
a thread. The edges of a node are made when it begins to wait, from the owners the
resource has then, and removed when it acquires a resource or waits again. A second
graph has the order in which the internal locks were taken. Both graphs are hash
maps; a search goes through them in an order of iteration that can be any. What a
search collects is an ordered set, listed in ascending order.
-/

namespace Contur
open Relation (TransGen)

abbrev ResourceId := ℕ
abbrev ThreadToken := ℕ

structure WaitNode where
  pid : ProcessId
  threadToken : ThreadToken
  deriving DecidableEq, Repr

namespace WaitNode

def le (a b : WaitNode) : Prop := toLex (a.pid, a.threadToken) ≤ toLex (b.pid, b.threadToken)

instance : DecidableRel le := fun a b =>
  inferInstanceAs (Decidable (toLex (a.pid, a.threadToken) ≤ toLex (b.pid, b.threadToken)))

instance : IsTrans WaitNode le where
  trans _ _ _ hab hbc := le_trans (α := ℕ ×ₗ ℕ) hab hbc

instance : Std.Antisymm le where
  antisymm a b hab hba := by
    have heq : toLex (a.pid, a.threadToken) = toLex (b.pid, b.threadToken) := le_antisymm hab hba
    obtain ⟨hpid, htoken⟩ := Prod.mk.inj (toLex.injective heq)
    cases a
    cases b
    simp only [mk.injEq]
    exact ⟨hpid, htoken⟩

instance : Std.Total le where
  total _ _ := le_total (α := ℕ ×ₗ ℕ) _ _

end WaitNode

structure DeadlockDetector where
  resourceOwners : AList (fun _ : ResourceId => Finset WaitNode) := ∅
  waitFor : AList (fun _ : WaitNode => Finset WaitNode) := ∅
  heldInternalLocks : AList (fun _ : ThreadToken => List ResourceId) := ∅
  lockOrderGraph : AList (fun _ : ResourceId => Finset ResourceId) := ∅

/-- An order in which the keys of a graph and the successors of each key are iterated. -/
structure Iteration {α : Type} [DecidableEq α] (graph : AList (fun _ : α => Finset α)) where
  keys : List α
  next : α → List α
  nodup_keys : keys.Nodup
  nodup_next : ∀ a, (next a).Nodup
  mem_keys : ∀ a, a ∈ keys ↔ a ∈ graph
  mem_next : ∀ a b, b ∈ next a ↔ ∃ targets, graph.lookup a = some targets ∧ b ∈ targets

def GraphEdge {α : Type} [DecidableEq α] (graph : AList (fun _ : α => Finset α)) (a b : α) : Prop :=
  ∃ targets, graph.lookup a = some targets ∧ b ∈ targets

namespace Iteration
variable {α : Type} [DecidableEq α] {graph : AList (fun _ : α => Finset α)}
    (order : Iteration graph)

theorem mem_keys_of_next (a b : α) (h : b ∈ order.next a) : a ∈ order.keys := by
  obtain ⟨targets, htargets, -⟩ := (order.mem_next a b).mp h
  rw [order.mem_keys, ← AList.lookup_isSome, htargets]
  rfl

theorem edge_next : CycleSearch.Edge order.next = GraphEdge graph := by
  funext a b
  exact propext (order.mem_next a b)

theorem hasCycle_spec :
    ∃ found, CycleSearch.hasCycle order.next order.keys = some found ∧
      (found = true ↔ ∃ a, TransGen (GraphEdge graph) a a) := by
  rw [← order.edge_next]
  exact CycleSearch.hasCycle_spec order.mem_keys_of_next

theorem cycleNodes_spec :
    ∃ found, CycleSearch.cycleNodes order.next order.keys = some found ∧
      (∀ a, a ∈ found ↔ CycleSearch.OnFirstCycle order.next order.keys a) ∧
      (found.Nonempty ↔ ∃ a, TransGen (GraphEdge graph) a a) ∧
      ∀ a ∈ found, TransGen (GraphEdge graph) a a := by
  rw [← order.edge_next]
  obtain ⟨found, hsearch, hmem, hcyclic⟩ := CycleSearch.cycleNodes_spec order.mem_keys_of_next
  exact ⟨found, hsearch, hmem, hcyclic, fun a ha => ((hmem a).mp ha).cycle⟩

end Iteration

namespace DeadlockDetector

def entry {α β : Type} [DecidableEq α] (map : AList (fun _ : α => Finset β)) (a : α) : Finset β :=
  (map.lookup a).getD ∅

theorem entry_insert {α β : Type} [DecidableEq α] (map : AList (fun _ : α => Finset β)) (a b : α)
    (t : Finset β) : entry (map.insert a t) b = if b = a then t else entry map b := by
  unfold entry
  split_ifs with h
  · subst h
    rw [AList.lookup_insert]
    rfl
  · rw [AList.lookup_insert_ne h]

theorem entry_erase {α β : Type} [DecidableEq α] (map : AList (fun _ : α => Finset β)) (a b : α) :
    entry (map.erase a) b = if b = a then ∅ else entry map b := by
  unfold entry
  split_ifs with h
  · subst h
    rw [AList.lookup_erase]
    rfl
  · rw [AList.lookup_erase_ne h]

theorem graphEdge_iff {α : Type} [DecidableEq α] (graph : AList (fun _ : α => Finset α)) (a b : α) :
    GraphEdge graph a b ↔ b ∈ entry graph a := by
  unfold GraphEdge entry
  cases graph.lookup a with
  | none => simp
  | some targets => simp

def onAcquire (d : DeadlockDetector) (pid : ProcessId) (resource : ResourceId)
    (threadToken : ThreadToken) : DeadlockDetector :=
  if pid = invalidPid then d
  else
    let node : WaitNode := ⟨pid, threadToken⟩
    { d with
      resourceOwners :=
        d.resourceOwners.insert resource (insert node (entry d.resourceOwners resource))
      waitFor := d.waitFor.erase node }

def onRelease (d : DeadlockDetector) (pid : ProcessId) (resource : ResourceId)
    (threadToken : ThreadToken) : DeadlockDetector :=
  match d.resourceOwners.lookup resource with
  | none => d
  | some owners =>
    let owners := owners.erase ⟨pid, threadToken⟩
    if owners = ∅ then { d with resourceOwners := d.resourceOwners.erase resource }
    else { d with resourceOwners := d.resourceOwners.insert resource owners }

/-- The node gets an entry in the graph only if somebody else owns the resource. -/
def onWait (d : DeadlockDetector) (pid : ProcessId) (resource : ResourceId)
    (threadToken : ThreadToken) : DeadlockDetector :=
  if pid = invalidPid then d
  else
    let waitingNode : WaitNode := ⟨pid, threadToken⟩
    let waitFor := d.waitFor.erase waitingNode
    match d.resourceOwners.lookup resource with
    | none => { d with waitFor := waitFor }
    | some owners =>
      let others := owners.erase waitingNode
      if others = ∅ then { d with waitFor := waitFor }
      else { d with waitFor := waitFor.insert waitingNode others }

/-- The loop of `onInternalLockAcquire` over the locks that the thread holds. -/
def orderAfter (graph : AList (fun _ : ResourceId => Finset ResourceId)) (lockId : ResourceId) :
    List ResourceId → AList (fun _ : ResourceId => Finset ResourceId)
  | [] => graph
  | heldLock :: held =>
    orderAfter (if heldLock ≠ lockId then graph.insert heldLock
      (insert lockId (entry graph heldLock))
      else graph) lockId held

def onInternalLockAcquire (d : DeadlockDetector) (threadToken : ThreadToken) (lockId : ResourceId) :
    DeadlockDetector :=
  let held := (d.heldInternalLocks.lookup threadToken).getD []
  { d with
    heldInternalLocks := d.heldInternalLocks.insert threadToken (held ++ [lockId])
    lockOrderGraph := orderAfter d.lockOrderGraph lockId held }

def onInternalLockRelease (d : DeadlockDetector) (threadToken : ThreadToken) (lockId : ResourceId) :
    DeadlockDetector :=
  match d.heldInternalLocks.lookup threadToken with
  | none => d
  | some held =>
    let held := held.erase lockId
    if held = [] then { d with heldInternalLocks := d.heldInternalLocks.erase threadToken }
    else { d with heldInternalLocks := d.heldInternalLocks.insert threadToken held }

def hasWaitForCycle (d : DeadlockDetector) (order : Iteration d.waitFor) : Option Bool :=
  CycleSearch.hasCycle order.next order.keys

def hasLockOrderCycle (d : DeadlockDetector) (order : Iteration d.lockOrderGraph) : Option Bool :=
  CycleSearch.hasCycle order.next order.keys

def waitForCycleNodes (d : DeadlockDetector) (order : Iteration d.waitFor) :
    Option (List WaitNode) :=
  (CycleSearch.cycleNodes order.next order.keys).map fun cycleSet => cycleSet.sort WaitNode.le

def lockOrderCycleNodes (d : DeadlockDetector) (order : Iteration d.lockOrderGraph) :
    Option (List ResourceId) :=
  (CycleSearch.cycleNodes order.next order.keys).map fun cycleSet => cycleSet.sort

def hasDeadlock (d : DeadlockDetector) (order : Iteration d.waitFor)
    (lockOrder : Iteration d.lockOrderGraph) : Option Bool :=
  match d.hasWaitForCycle order with
  | some false => d.hasLockOrderCycle lockOrder
  | found => found

def getDeadlockedProcesses (d : DeadlockDetector) (order : Iteration d.waitFor) :
    Option (List ProcessId) :=
  (d.waitForCycleNodes order).map fun nodes => (nodes.map WaitNode.pid).toFinset.sort

def hasInternalLockOrderCycle (d : DeadlockDetector) (order : Iteration d.lockOrderGraph) :
    Option Bool :=
  d.hasLockOrderCycle order

def getInternalLockOrderCycle (d : DeadlockDetector) (order : Iteration d.lockOrderGraph) :
    Option (List ResourceId) :=
  d.lockOrderCycleNodes order

end DeadlockDetector
end Contur
