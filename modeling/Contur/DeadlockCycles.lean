import Contur.WaitForGraph

/-!
# Deadlocks that are reported

Both searches of the wait-for graph come to an end, for every order of iteration, and
they agree on whether there is a cycle. Every node that the second one lists is on a
cycle, but not every node on a cycle is listed: the search never goes again through a
node it has left, so of two ways around a cycle it may see one only. The processes
that are reported are all that are in a deadlock exactly if each of them has a node on
a cycle that consists of a part of a first way and one edge.
-/

namespace Contur
open Relation (TransGen)
open CycleSearch (OnFirstCycle)

namespace DeadlockDetector
variable (d : DeadlockDetector) (order : Iteration d.waitFor)

def InCycle (node : WaitNode) : Prop := TransGen d.Edge node node

theorem waitForCycleNodes_spec :
    ∃ nodes, d.waitForCycleNodes order = some nodes ∧
      (∀ node, node ∈ nodes ↔ OnFirstCycle order.next order.keys node) ∧
      (nodes ≠ [] ↔ ∃ node, d.InCycle node) ∧ ∀ node ∈ nodes, d.InCycle node := by
  obtain ⟨found, hsearch, hmem, hcyclic, hcycle⟩ := order.cycleNodes_spec
  have hsort : ∀ node, node ∈ found.sort WaitNode.le ↔ node ∈ found := fun node => Finset.mem_sort _
  refine ⟨found.sort WaitNode.le, by simp only [waitForCycleNodes, hsearch, Option.map_some],
    fun node => (hsort node).trans (hmem node), ?_, fun node hnode =>
      hcycle node ((hsort node).mp hnode)⟩
  rw [ne_eq, List.eq_nil_iff_forall_not_mem, not_forall_not]
  exact (exists_congr hsort).trans hcyclic

/-- For every graph and all orders of iteration both searches end. The first one finds a cycle, and
the second one finds a node, exactly if there is a cycle, and all nodes found are on cycles. -/
theorem wait_for_cycles_decided (listOrder : Iteration d.waitFor) :
    (∃ found, d.hasWaitForCycle order = some found ∧ (found = true ↔ ∃ node, d.InCycle node)) ∧
    ∃ nodes, d.waitForCycleNodes listOrder = some nodes ∧ (nodes ≠ [] ↔ ∃ node, d.InCycle node) ∧
      ∀ node ∈ nodes, d.InCycle node := by
  obtain ⟨nodes, hnodes, -, hnonempty, hcycle⟩ := d.waitForCycleNodes_spec listOrder
  exact ⟨order.hasCycle_spec, nodes, hnodes, hnonempty, hcycle⟩

/-- The reported processes, in ascending order and each once, are those with a node on a cycle. -/
def ReportsAll : Prop :=
  ∃ pids, d.getDeadlockedProcesses order = some pids ∧ pids.SortedLT ∧
    ∀ pid, pid ∈ pids ↔ ∃ node, node.pid = pid ∧ d.InCycle node

theorem getDeadlockedProcesses_spec :
    ∃ pids, d.getDeadlockedProcesses order = some pids ∧ pids.SortedLT ∧
      ∀ pid, pid ∈ pids ↔ ∃ node, node.pid = pid ∧ OnFirstCycle order.next order.keys node := by
  obtain ⟨nodes, hnodes, hmem, -, -⟩ := d.waitForCycleNodes_spec order
  refine ⟨(nodes.map WaitNode.pid).toFinset.sort, ?_, Finset.sortedLT_sort _, fun pid => ?_⟩
  · simp only [getDeadlockedProcesses, hnodes, Option.map_some]
  · rw [Finset.mem_sort, List.mem_toFinset, List.mem_map]
    simp only [hmem, and_comm]

/-- All processes in a deadlock are reported if and only if each process with a node on a cycle has
a node on a cycle that consists of a part of a first way of the search and one edge. -/
theorem deadlocked_processes_complete_iff :
    d.ReportsAll order ↔
      ∀ node, d.InCycle node →
        ∃ node', node'.pid = node.pid ∧ OnFirstCycle order.next order.keys node' := by
  obtain ⟨pids, hpids, hsorted, hmem⟩ := d.getDeadlockedProcesses_spec order
  constructor
  · rintro ⟨pids', hpids', -, hall⟩ node hnode
    rw [hpids] at hpids'
    cases hpids'
    exact (hmem node.pid).mp ((hall node.pid).mpr ⟨node, rfl, hnode⟩)
  · intro hcondition
    refine ⟨pids, hpids, hsorted, fun pid => (hmem pid).trans ⟨?_, ?_⟩⟩
    · rintro ⟨node, hpid, hfirst⟩
      refine ⟨node, hpid, ?_⟩
      have hcycle := hfirst.cycle
      rwa [order.edge_next] at hcycle
    · rintro ⟨node, rfl, hnode⟩
      exact hcondition node hnode

def overlapEvents : List Event :=
  [.acquire ⟨1, 0⟩ 30, .acquire ⟨2, 0⟩ 10, .acquire ⟨4, 0⟩ 10, .acquire ⟨3, 0⟩ 20,
    .wait ⟨1, 0⟩ 10, .wait ⟨2, 0⟩ 20, .wait ⟨4, 0⟩ 20, .wait ⟨3, 0⟩ 30]

def overlapSuccessors (ofFirst : List WaitNode) (node : WaitNode) : List WaitNode :=
  if node = ⟨1, 0⟩ then ofFirst
  else if node = ⟨2, 0⟩ ∨ node = ⟨4, 0⟩ then [⟨3, 0⟩]
  else if node = ⟨3, 0⟩ then [⟨1, 0⟩]
  else []

theorem lookup_overlap (node : WaitNode) :
    (machine.run {} overlapEvents).waitFor.lookup node =
      if node = ⟨1, 0⟩ then some {⟨2, 0⟩, ⟨4, 0⟩}
      else if node = ⟨2, 0⟩ ∨ node = ⟨4, 0⟩ then some {⟨3, 0⟩}
      else if node = ⟨3, 0⟩ then some {⟨1, 0⟩}
      else none := by
  have hkeys : (machine.run {} overlapEvents).waitFor.keys = [⟨3, 0⟩, ⟨4, 0⟩, ⟨2, 0⟩, ⟨1, 0⟩] := by
    decide +kernel
  split_ifs with h1 h24 h3
  · subst h1
    decide +kernel
  · rcases h24 with rfl | rfl <;> decide +kernel
  · subst h3
    decide +kernel
  · rw [AList.lookup_eq_none, AList.mem_keys, hkeys]
    rw [not_or] at h24
    simp [h1, h3, h24]

def overlapOrder (ofFirst : List WaitNode) (hnodup : ofFirst.Nodup)
    (hmem : ∀ node, node ∈ ofFirst ↔ node = ⟨2, 0⟩ ∨ node = ⟨4, 0⟩) :
    Iteration (machine.run {} overlapEvents).waitFor where
  keys := [⟨1, 0⟩, ⟨2, 0⟩, ⟨3, 0⟩, ⟨4, 0⟩]
  next := overlapSuccessors ofFirst
  nodup_keys := by decide
  nodup_next a := by
    unfold overlapSuccessors
    split_ifs <;> simp [hnodup]
  mem_keys a := by
    rw [← AList.lookup_isSome, lookup_overlap]
    split_ifs with h1 h24 h3
    · simp [h1]
    · rcases h24 with rfl | rfl <;> simp
    · simp [h3]
    · rw [not_or] at h24
      simp [h1, h3, h24]
  mem_next a b := by
    rw [lookup_overlap]
    unfold overlapSuccessors
    split_ifs <;> simp [hmem]

theorem mem_getDeadlockedProcesses (found : Finset WaitNode)
    (hfound : CycleSearch.cycleNodes order.next order.keys = some found) :
    ∃ pids, d.getDeadlockedProcesses order = some pids ∧
      ∀ pid, pid ∈ pids ↔ ∃ node ∈ found, node.pid = pid := by
  have hpids : d.getDeadlockedProcesses order =
      some ((found.sort WaitNode.le).map WaitNode.pid).toFinset.sort := by
    simp only [getDeadlockedProcesses, waitForCycleNodes, hfound, Option.map_some]
  exact ⟨_, hpids, by simp⟩

/-- Process 4 is in a deadlock, but it is not reported if 1 has its successor 2 before 4; the
processes that are reported depend on the order of iteration. -/
theorem deadlocked_processes_incomplete :
    let d := machine.run {} overlapEvents
    d.InCycle ⟨4, 0⟩ ∧ ∃ order order' : Iteration d.waitFor, ∃ pids pids',
      d.getDeadlockedProcesses order = some pids ∧ 4 ∉ pids ∧ ¬ d.ReportsAll order ∧
        d.getDeadlockedProcesses order' = some pids' ∧ 4 ∈ pids' := by
  intro d
  have hedge : ∀ a b, d.Edge a b ↔ b ∈ overlapSuccessors [⟨2, 0⟩, ⟨4, 0⟩] a := fun a b =>
    ((overlapOrder [⟨2, 0⟩, ⟨4, 0⟩] (by decide) (by simp)).mem_next a b).symm
  have hcycle : d.InCycle ⟨4, 0⟩ := by
    have h43 : d.Edge ⟨4, 0⟩ ⟨3, 0⟩ := (hedge _ _).mpr (by decide)
    have h31 : d.Edge ⟨3, 0⟩ ⟨1, 0⟩ := (hedge _ _).mpr (by decide)
    have h14 : d.Edge ⟨1, 0⟩ ⟨4, 0⟩ := (hedge _ _).mpr (by decide)
    exact ((TransGen.single h43).tail h31).tail h14
  obtain ⟨pids, hpids, hmem⟩ := d.mem_getDeadlockedProcesses
    (overlapOrder [⟨2, 0⟩, ⟨4, 0⟩] (by decide) (by simp))
      {⟨1, 0⟩, ⟨2, 0⟩, ⟨3, 0⟩} (by decide +kernel)
  obtain ⟨pids', hpids', hmem'⟩ := d.mem_getDeadlockedProcesses
    (overlapOrder [⟨4, 0⟩, ⟨2, 0⟩] (by decide) (by simp [or_comm])) {⟨1, 0⟩, ⟨3, 0⟩, ⟨4, 0⟩}
    (by decide +kernel)
  have hmissing : 4 ∉ pids := by
    rw [hmem]
    decide
  refine ⟨hcycle, _, _, pids, pids', hpids, hmissing, ?_, hpids', ?_⟩
  · rintro ⟨listed, hlisted, -, hall⟩
    rw [hpids] at hlisted
    cases hlisted
    exact hmissing ((hall 4).mpr ⟨⟨4, 0⟩, rfl, hcycle⟩)
  · rw [hmem']
    decide

end DeadlockDetector
end Contur
