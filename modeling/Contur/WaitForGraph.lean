import Mathlib.Logic.Function.Basic
import Contur.DeadlockDetector
import Contur.Transition

/-!
# The wait-for graph and the resources

Beside the detector stands what its events say about the resources: a node waits
from its `onWait` to its next `onAcquire` or `onWait`, and owns a resource from its
`onAcquire` to its `onRelease`. The graph has the edges of a node as they were when
it began to wait. So it is right after an event exactly if it was right before and
the event does not change the owners of a resource that another node waits for; and
as long as it is right, a deadlock is reported if and only if there is a circular
wait. Events with the invalid pid are not recorded.
-/

namespace Contur
open Function (update)
open Relation (TransGen)

namespace DeadlockDetector

inductive Event where
  | acquire (node : WaitNode) (resource : ResourceId)
  | release (node : WaitNode) (resource : ResourceId)
  | wait (node : WaitNode) (resource : ResourceId)
  deriving DecidableEq, Repr

def exec (d : DeadlockDetector) : Event → DeadlockDetector
  | .acquire node resource => d.onAcquire node.pid resource node.threadToken
  | .release node resource => d.onRelease node.pid resource node.threadToken
  | .wait node resource => d.onWait node.pid resource node.threadToken

def machine : Transition.Machine DeadlockDetector Event Unit where
  step d event := ((), d.exec event)

def Edge (d : DeadlockDetector) (p q : WaitNode) : Prop :=
  ∃ targets, d.waitFor.lookup p = some targets ∧ q ∈ targets

end DeadlockDetector

structure ResourceState where
  waiting : WaitNode → Option ResourceId
  owned : Finset (WaitNode × ResourceId)

namespace ResourceState
open DeadlockDetector (Event)

def start : ResourceState := ⟨fun _ => none, ∅⟩

def exec (s : ResourceState) : Event → ResourceState
  | .acquire node resource =>
    ⟨update s.waiting node none, insert (node, resource) s.owned⟩
  | .release node resource => { s with owned := s.owned.erase (node, resource) }
  | .wait node resource => { s with waiting := update s.waiting node (some resource) }

def machine : Transition.Machine ResourceState Event Unit where
  step s event := ((), s.exec event)

def WaitsFor (s : ResourceState) (p q : WaitNode) : Prop :=
  p ≠ q ∧ ∃ r, s.waiting p = some r ∧ (q, r) ∈ s.owned

def CircularWait (s : ResourceState) : Prop := ∃ p, TransGen s.WaitsFor p p

/-- The event leaves the owners alone of every resource that another node waits for, and a wait
that has to be recorded is not one of the invalid pid or for it. -/
def Keeps (s : ResourceState) : Event → Prop
  | .acquire node resource =>
    ∀ p, p ≠ node → s.waiting p = some resource → (node, resource) ∈ s.owned
  | .release node resource =>
    ∀ p, p ≠ node → s.waiting p = some resource → (node, resource) ∉ s.owned
  | .wait node resource =>
    ∀ q, q ≠ node → (q, resource) ∈ s.owned → node.pid ≠ invalidPid ∧ q.pid ≠ invalidPid

end ResourceState

namespace DeadlockDetector
variable {d : DeadlockDetector} {s : ResourceState} {p q node : WaitNode} {r resource : ResourceId}

theorem edge_iff : d.Edge p q ↔ q ∈ entry d.waitFor p := graphEdge_iff d.waitFor p q

theorem entry_onAcquire (hpid : node.pid ≠ invalidPid) (r : ResourceId) :
    entry (d.exec (.acquire node resource)).resourceOwners r =
      if r = resource then insert node (entry d.resourceOwners resource)
      else entry d.resourceOwners r := by
  simp only [exec, onAcquire, if_neg hpid]
  exact entry_insert _ _ _ _

theorem entry_onRelease (r : ResourceId) :
    entry (d.exec (.release node resource)).resourceOwners r =
      if r = resource then (entry d.resourceOwners resource).erase node
      else entry d.resourceOwners r := by
  simp only [exec, onRelease]
  cases hlookup : d.resourceOwners.lookup resource with
  | none =>
    split_ifs with hr
    · subst hr
      simp [entry, hlookup]
    · rfl
  | some owners =>
    have hentry : entry d.resourceOwners resource = owners := by simp [entry, hlookup]
    dsimp only
    split_ifs with hempty hr hr
    · rw [entry_erase, if_pos hr, hentry, hempty]
    · rw [entry_erase, if_neg hr]
    · rw [entry_insert, if_pos hr, hentry]
    · rw [entry_insert, if_neg hr]

theorem edge_onAcquire (hpid : node.pid ≠ invalidPid) :
    (d.exec (.acquire node resource)).Edge p q ↔ p ≠ node ∧ d.Edge p q := by
  rw [edge_iff, edge_iff]
  simp only [exec, onAcquire, if_neg hpid]
  rw [entry_erase]
  split_ifs with hp
  · simp [hp]
  · simp [hp]

theorem edge_onWait (hpid : node.pid ≠ invalidPid) :
    (d.exec (.wait node resource)).Edge p q ↔
      if p = node then q ≠ node ∧ q ∈ entry d.resourceOwners resource else d.Edge p q := by
  rw [edge_iff, edge_iff]
  simp only [exec, onWait, if_neg hpid]
  cases hlookup : d.resourceOwners.lookup resource with
  | none =>
    have hentry : entry d.resourceOwners resource = ∅ := by simp [entry, hlookup]
    dsimp only
    rw [entry_erase, hentry]
    split_ifs with hp <;> simp
  | some owners =>
    have hentry : entry d.resourceOwners resource = owners := by simp [entry, hlookup]
    have hmem : q ∈ owners.erase node ↔ q ≠ node ∧ q ∈ owners := Finset.mem_erase
    dsimp only
    split_ifs with hempty hp hp
    · rw [entry_erase, if_pos hp, hentry, ← hmem, hempty]
    · rw [entry_erase, if_neg hp]
    · rw [entry_insert, if_pos hp, hentry]
      exact hmem
    · rw [entry_insert, if_neg hp, entry_erase, if_neg hp]

/-- What the detector has recorded in every run, whatever the graph is worth. -/
structure Records (d : DeadlockDetector) (s : ResourceState) : Prop where
  owners : ∀ n r, n ∈ entry d.resourceOwners r ↔ n.pid ≠ invalidPid ∧ (n, r) ∈ s.owned
  valid : ∀ p q, d.Edge p q → p.pid ≠ invalidPid
  lockOrderGraph : d.lockOrderGraph = ∅

theorem records_start : Records {} .start :=
  ⟨fun n r => by simp [entry, ResourceState.start],
    fun p q h => by simp [edge_iff, entry] at h, rfl⟩

theorem lockOrderGraph_exec (d : DeadlockDetector) (event : Event) :
    (d.exec event).lockOrderGraph = d.lockOrderGraph := by
  cases event with
  | acquire node resource =>
    simp only [exec, onAcquire]
    split_ifs <;> rfl
  | release node resource =>
    simp only [exec, onRelease]
    split
    · rfl
    · split_ifs <;> rfl
  | wait node resource =>
    simp only [exec, onWait]
    split_ifs
    · rfl
    · split
      · rfl
      · split_ifs <;> rfl

theorem exec_invalid (hpid : node.pid = invalidPid) :
    d.exec (.acquire node resource) = d ∧ d.exec (.wait node resource) = d := by
  simp [exec, onAcquire, onWait, hpid]

theorem edge_onRelease : (d.exec (.release node resource)).Edge p q ↔ d.Edge p q := by
  have hwaitFor : (d.exec (.release node resource)).waitFor = d.waitFor := by
    simp only [exec, onRelease]
    split
    · rfl
    · split_ifs <;> rfl
  rw [edge_iff, edge_iff, hwaitFor]

theorem Records.exec (h : Records d s) (event : Event) : Records (d.exec event) (s.exec event) := by
  refine ⟨fun n r => ?_, fun p q hedge => ?_, (lockOrderGraph_exec d event).trans h.lockOrderGraph⟩
  · cases event with
    | acquire node resource =>
      simp only [ResourceState.exec, Finset.mem_insert, Prod.mk.injEq]
      by_cases hpid : node.pid = invalidPid
      · rw [(exec_invalid hpid).1, h.owners]
        refine and_congr_right fun hn => (or_iff_right fun heq => ?_).symm
        exact hn (heq.1 ▸ hpid)
      · rw [entry_onAcquire hpid]
        split_ifs with hr
        · rw [Finset.mem_insert, h.owners, hr]
          by_cases hn : n = node
          · simp [hn, hpid]
          · simp [hn]
        · rw [h.owners]
          simp [hr]
    | release node resource =>
      simp only [ResourceState.exec, Finset.mem_erase, ne_eq, Prod.mk.injEq]
      rw [entry_onRelease]
      split_ifs with hr
      · rw [Finset.mem_erase, h.owners, hr]
        by_cases hn : n = node
        · simp [hn]
        · simp [hn]
      · rw [h.owners]
        simp [hr]
    | wait node resource =>
      have hsame : (d.exec (.wait node resource)).resourceOwners = d.resourceOwners := by
        simp only [DeadlockDetector.exec, onWait]
        split_ifs
        · rfl
        · split
          · rfl
          · split_ifs <;> rfl
      rw [hsame]
      exact h.owners n r
  · cases event with
    | acquire node resource =>
      by_cases hpid : node.pid = invalidPid
      · rw [(exec_invalid hpid).1] at hedge
        exact h.valid p q hedge
      · exact h.valid p q ((edge_onAcquire hpid).mp hedge).2
    | release node resource => exact h.valid p q (edge_onRelease.mp hedge)
    | wait node resource =>
      by_cases hpid : node.pid = invalidPid
      · rw [(exec_invalid hpid).2] at hedge
        exact h.valid p q hedge
      · rw [edge_onWait hpid] at hedge
        split_ifs at hedge with hp
        · exact hp ▸ hpid
        · exact h.valid p q hedge

def Matches (d : DeadlockDetector) (s : ResourceState) : Prop :=
  ∀ p q, d.Edge p q ↔ s.WaitsFor p q

theorem matches_acquire (h : Records d s) (hm : d.Matches s) :
    (d.exec (.acquire node resource)).Matches (s.exec (.acquire node resource)) ↔
      s.Keeps (.acquire node resource) := by
  -- of the node that acquires there are no edges, in the graph and in the resources
  have hedge : ∀ p q, (d.exec (.acquire node resource)).Edge p q ↔ p ≠ node ∧ s.WaitsFor p q := by
    intro p q
    by_cases hpid : node.pid = invalidPid
    · rw [(exec_invalid hpid).1, ← hm p q]
      refine ⟨fun hpq => ⟨fun heq => ?_, hpq⟩, And.right⟩
      exact h.valid p q hpq (by rw [heq, hpid])
    · rw [edge_onAcquire hpid, hm p q]
  have hwaits : ∀ p q, (s.exec (.acquire node resource)).WaitsFor p q ↔ p ≠ node ∧ p ≠ q ∧
      ∃ r, s.waiting p = some r ∧ (q = node ∧ r = resource ∨ (q, r) ∈ s.owned) := by
    intro p q
    unfold ResourceState.WaitsFor
    simp only [ResourceState.exec, Finset.mem_insert, Prod.mk.injEq]
    by_cases hp : p = node
    · simp [hp]
    · simp [hp]
  constructor
  · intro hmatch p hp hwaiting
    have hpn := (hmatch p node).mpr ((hwaits p node).mpr
      ⟨hp, hp, resource, hwaiting, Or.inl ⟨rfl, rfl⟩⟩)
    obtain ⟨-, -, r, hr, howned⟩ := (hedge p node).mp hpn
    rw [hwaiting] at hr
    cases hr
    exact howned
  · intro hkeeps p q
    rw [hedge, hwaits]
    refine and_congr_right fun hp => and_congr_right fun _ => exists_congr fun r => ?_
    refine and_congr_right fun hr => (or_iff_right_of_imp ?_).symm
    rintro ⟨rfl, rfl⟩
    exact hkeeps p hp hr

theorem matches_release (hm : d.Matches s) :
    (d.exec (.release node resource)).Matches (s.exec (.release node resource)) ↔
      s.Keeps (.release node resource) := by
  have hwaits : ∀ p q, (s.exec (.release node resource)).WaitsFor p q ↔
      p ≠ q ∧ ∃ r, s.waiting p = some r ∧ ¬ (q = node ∧ r = resource) ∧ (q, r) ∈ s.owned := by
    intro p q
    unfold ResourceState.WaitsFor
    simp only [ResourceState.exec, Finset.mem_erase, ne_eq, Prod.mk.injEq]
  constructor
  · intro hmatch p hp hwaiting howned
    have hpn := (hmatch p node).mp (edge_onRelease.mpr ((hm p node).mpr
      ⟨hp, resource, hwaiting, howned⟩))
    obtain ⟨-, r, hr, hne, -⟩ := (hwaits p node).mp hpn
    rw [hwaiting] at hr
    cases hr
    exact hne ⟨rfl, rfl⟩
  · intro hkeeps p q
    rw [edge_onRelease, hm p q, hwaits]
    refine and_congr_right fun hpq => exists_congr fun r => and_congr_right fun hr => ?_
    refine (and_iff_right_of_imp ?_).symm
    rintro howned ⟨rfl, rfl⟩
    exact hkeeps p hpq hr howned

theorem matches_wait (h : Records d s) (hm : d.Matches s) :
    (d.exec (.wait node resource)).Matches (s.exec (.wait node resource)) ↔
      s.Keeps (.wait node resource) := by
  have hwaits : ∀ p q, (s.exec (.wait node resource)).WaitsFor p q ↔
      if p = node then q ≠ node ∧ (q, resource) ∈ s.owned else s.WaitsFor p q := by
    intro p q
    unfold ResourceState.WaitsFor
    simp only [ResourceState.exec]
    split_ifs with hp
    · simp [hp, eq_comm]
    · simp [hp]
  have hedge : ∀ p q, (d.exec (.wait node resource)).Edge p q ↔
      if p = node then node.pid ≠ invalidPid ∧ q ≠ node ∧ q.pid ≠ invalidPid ∧
        (q, resource) ∈ s.owned
      else s.WaitsFor p q := by
    intro p q
    by_cases hpid : node.pid = invalidPid
    · rw [(exec_invalid hpid).2]
      split_ifs with hp
      · refine iff_of_false (fun hpq => h.valid p q hpq (hp ▸ hpid)) fun hne => hne.1 hpid
      · exact hm p q
    · rw [edge_onWait hpid, h.owners]
      split_ifs with hp
      · simp [hpid]
      · exact hm p q
  constructor
  · intro hmatch q hq howned
    have hnq := (hmatch node q).mpr ((hwaits node q).mpr (by simp [hq, howned]))
    have hnode := (hedge node q).mp hnq
    rw [if_pos rfl] at hnode
    exact ⟨hnode.1, hnode.2.2.1⟩
  · intro hkeeps p q
    rw [hedge, hwaits]
    split_ifs with hp
    · constructor
      · rintro ⟨-, hq, -, howned⟩
        exact ⟨hq, howned⟩
      · rintro ⟨hq, howned⟩
        obtain ⟨hnode, hqpid⟩ := hkeeps q hq howned
        exact ⟨hnode, hq, hqpid, howned⟩
    · rfl

theorem matches_exec_iff (h : Records d s) (hm : d.Matches s) (event : Event) :
    (d.exec event).Matches (s.exec event) ↔ s.Keeps event := by
  cases event with
  | acquire node resource => exact matches_acquire h hm
  | release node resource => exact matches_release hm
  | wait node resource => exact matches_wait h hm

theorem Matches.hasWaitForCycle (hm : d.Matches s) (order : Iteration d.waitFor) :
    ∃ found, d.hasWaitForCycle order = some found ∧ (found = true ↔ s.CircularWait) := by
  have hrel : GraphEdge d.waitFor = s.WaitsFor := by
    funext a b
    exact propext (hm a b)
  obtain ⟨found, hsearch, hcyclic⟩ := order.hasCycle_spec
  refine ⟨found, hsearch, hcyclic.trans ?_⟩
  unfold ResourceState.CircularWait
  rw [hrel]

theorem hasLockOrderCycle_of_empty (h : d.lockOrderGraph = ∅) (order : Iteration d.lockOrderGraph) :
    d.hasLockOrderCycle order = some false := by
  have hkeys : order.keys = [] := by
    rw [List.eq_nil_iff_forall_not_mem]
    intro a ha
    rw [order.mem_keys, h] at ha
    exact AList.notMem_empty a ha
  unfold hasLockOrderCycle
  rw [hkeys]
  rfl

/-- The graph is right, and deadlocks are reported exactly when there is a circular wait. -/
structure Exact (d : DeadlockDetector) (s : ResourceState) : Prop where
  edges : ∀ p q, d.Edge p q ↔ p ≠ q ∧ ∃ r, s.waiting p = some r ∧ (q, r) ∈ s.owned
  deadlock : ∀ (order : Iteration d.waitFor) (lockOrder : Iteration d.lockOrderGraph),
    ∃ found, d.hasDeadlock order lockOrder = some found ∧ (found = true ↔ s.CircularWait)

theorem Records.exact_iff (h : Records d s) : d.Exact s ↔ d.Matches s := by
  refine ⟨fun hexact => hexact.edges, fun hm => ⟨hm, fun order lockOrder => ?_⟩⟩
  obtain ⟨found, hsearch, hcircular⟩ := hm.hasWaitForCycle order
  refine ⟨found, ?_, hcircular⟩
  unfold hasDeadlock
  rw [hsearch]
  cases found with
  | true => rfl
  | false => exact hasLockOrderCycle_of_empty h.lockOrderGraph lockOrder

theorem run_exact_iff (h : Records d s) (hm : d.Matches s) (events : List Event) :
    (∀ before, before <+: events →
      (machine.run d before).Exact (ResourceState.machine.run s before)) ↔
      ResourceState.machine.Guarded ResourceState.Keeps s events := by
  induction events generalizing d s with
  | nil =>
    refine iff_of_true (fun before hbefore => ?_) trivial
    rw [List.prefix_nil.mp hbefore]
    exact h.exact_iff.mpr hm
  | cons event events ih =>
    have hnext := h.exec event
    constructor
    · intro hall
      have hfirst := hall [event] (List.cons_prefix_cons.mpr ⟨rfl, List.nil_prefix⟩)
      have hm' : (d.exec event).Matches (s.exec event) := hnext.exact_iff.mp hfirst
      refine ⟨(matches_exec_iff h hm event).mp hm', (ih hnext hm').mp fun before hbefore => ?_⟩
      exact hall (event :: before) (List.cons_prefix_cons.mpr ⟨rfl, hbefore⟩)
    · rintro ⟨hkeeps, hrest⟩ before hbefore
      have hm' := (matches_exec_iff h hm event).mpr hkeeps
      cases before with
      | nil => exact h.exact_iff.mpr hm
      | cons first before =>
        obtain ⟨rfl, htail⟩ := List.cons_prefix_cons.mp hbefore
        exact (ih hnext hm').mpr hrest before htail

/-- After every part of a sequence of events the graph has exactly the edges from waiting nodes to
the owners of what they wait for, and a deadlock is reported exactly when there is a circular wait:
if and only if no event of the sequence changes the owners of a resource while another node waits
for it, or is a wait of the invalid pid for somebody or of somebody for the invalid pid. -/
theorem wait_for_graph_exact_iff (events : List Event) :
    (∀ before, before <+: events →
      (machine.run {} before).Exact (ResourceState.machine.run .start before)) ↔
    ResourceState.machine.Guarded ResourceState.Keeps .start events :=
  run_exact_iff records_start (fun p q => by simp [edge_iff, entry, ResourceState.WaitsFor,
    ResourceState.start]) events

def staleEvents : List Event :=
  [.acquire ⟨1, 0⟩ 100, .acquire ⟨2, 0⟩ 200, .wait ⟨1, 0⟩ 200, .release ⟨2, 0⟩ 200,
    .wait ⟨2, 0⟩ 100]

/-- The edge to the former owner stays, and a deadlock is reported where nobody waits in a circle.
-/
theorem wait_for_graph_not_exact :
    let d := machine.run {} staleEvents
    let s := ResourceState.machine.run .start staleEvents
    d.Edge ⟨1, 0⟩ ⟨2, 0⟩ ∧ ¬ s.WaitsFor ⟨1, 0⟩ ⟨2, 0⟩ ∧
      (∀ order lockOrder, d.hasDeadlock order lockOrder = some true) ∧ ¬ s.CircularWait := by
  intro d s
  have hforth : d.Edge ⟨1, 0⟩ ⟨2, 0⟩ := ⟨{⟨2, 0⟩}, by decide +kernel, by decide +kernel⟩
  have hback : d.Edge ⟨2, 0⟩ ⟨1, 0⟩ := ⟨{⟨1, 0⟩}, by decide +kernel, by decide +kernel⟩
  have howned : ∀ q r, (q, r) ∈ s.owned → q = ⟨1, 0⟩ ∧ r = 100 := by
    intro q r hmem
    have hset : s.owned = {(⟨1, 0⟩, 100)} := by decide +kernel
    rw [hset, Finset.mem_singleton, Prod.mk.injEq] at hmem
    exact hmem
  have hwaiting : s.waiting ⟨1, 0⟩ = some 200 := by decide +kernel
  have hfirst : ∀ q, ¬ s.WaitsFor ⟨1, 0⟩ q := by
    rintro q ⟨-, r, hr, hmem⟩
    rw [hwaiting] at hr
    cases hr
    exact absurd (howned q 200 hmem).2 (by decide)
  refine ⟨hforth, hfirst _, fun order lockOrder => ?_, ?_⟩
  · obtain ⟨found, hsearch, hcyclic⟩ := order.hasCycle_spec
    have hfound : found = true := hcyclic.mpr ⟨⟨1, 0⟩, (TransGen.single hforth).tail hback⟩
    unfold hasDeadlock hasWaitForCycle
    rw [hsearch, hfound]
  · -- every edge leads to the first node, from which none goes on
    rintro ⟨p, hcycle⟩
    obtain ⟨b, hstep, -⟩ := Relation.TransGen.head'_iff.mp hcycle
    obtain ⟨a, -, hlast⟩ := Relation.TransGen.tail'_iff.mp hcycle
    obtain ⟨-, r, -, hmem⟩ := hlast
    obtain ⟨rfl, -⟩ := howned p r hmem
    exact hfirst b hstep

end DeadlockDetector
end Contur
