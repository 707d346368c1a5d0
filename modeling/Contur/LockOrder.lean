import Mathlib.Data.Multiset.AddSub
import Contur.WaitForGraph
import Contur.WaitingLine

/-!
# The order of the internal locks

A thread that takes a lock puts it after every lock it holds at that moment. What a
thread holds is a multiset: a lock that is taken twice has to be released twice, and
the release of a lock that is not held changes nothing. The graph has exactly the
pairs of the history, so the search for a cycle is a search in the history.
-/

namespace Contur
open Function (update)
open Relation (TransGen)

inductive LockEvent where
  | acquire (threadToken : ThreadToken) (lockId : ResourceId)
  | release (threadToken : ThreadToken) (lockId : ResourceId)
  deriving DecidableEq, Repr

namespace LockEvent

def track (held : ThreadToken → Multiset ResourceId) : LockEvent → ThreadToken → Multiset ResourceId
  | .acquire threadToken lockId => update held threadToken (lockId ::ₘ held threadToken)
  | .release threadToken lockId => update held threadToken ((held threadToken).erase lockId)

def heldAfter (events : List LockEvent) : ThreadToken → Multiset ResourceId :=
  events.foldl track fun _ => 0

/-- At some point of the sequence a thread acquired `b` while it held `a`. -/
def TakenAfter (events : List LockEvent) (a b : ResourceId) : Prop :=
  a ≠ b ∧ ∃ before after threadToken, events = before ++ .acquire threadToken b :: after ∧
    a ∈ heldAfter before threadToken

theorem heldAfter_append (events : List LockEvent) (event : LockEvent) :
    heldAfter (events ++ [event]) = track (heldAfter events) event := by
  unfold heldAfter
  rw [List.foldl_append]
  rfl

theorem takenAfter_append {events : List LockEvent} {event : LockEvent} {a b : ResourceId} :
    TakenAfter (events ++ [event]) a b ↔ TakenAfter events a b ∨
      ∃ threadToken, event = .acquire threadToken b ∧ a ≠ b ∧ a ∈ heldAfter events threadToken := by
  constructor
  · rintro ⟨hne, before, after, threadToken, heq, hmem⟩
    rcases WaitingLine.append_singleton_eq heq with ⟨rfl, hevent, -⟩ | ⟨rest, -, rfl⟩
    · exact Or.inr ⟨threadToken, hevent, hne, hmem⟩
    · exact Or.inl ⟨hne, before, rest, threadToken, rfl, hmem⟩
  · rintro (⟨hne, before, after, threadToken, rfl, hmem⟩ | ⟨threadToken, rfl, hne, hmem⟩)
    · exact ⟨hne, before, after ++ [event], threadToken, by simp, hmem⟩
    · exact ⟨hne, events, [], threadToken, rfl, hmem⟩

end LockEvent

namespace DeadlockDetector
open LockEvent

def execLock (d : DeadlockDetector) : LockEvent → DeadlockDetector
  | .acquire threadToken lockId => d.onInternalLockAcquire threadToken lockId
  | .release threadToken lockId => d.onInternalLockRelease threadToken lockId

def lockMachine : Transition.Machine DeadlockDetector LockEvent Unit where
  step d event := ((), d.execLock event)

theorem edge_orderAfter (graph : AList (fun _ : ResourceId => Finset ResourceId))
    (lockId : ResourceId) (held : List ResourceId) (a b : ResourceId) :
    GraphEdge (orderAfter graph lockId held) a b ↔
      GraphEdge graph a b ∨ b = lockId ∧ a ≠ b ∧ a ∈ held := by
  induction held generalizing graph with
  | nil => simp [orderAfter]
  | cons heldLock held ih =>
    have hfirst : GraphEdge (if heldLock ≠ lockId then
        graph.insert heldLock (insert lockId (entry graph heldLock)) else graph) a b ↔
        GraphEdge graph a b ∨ b = lockId ∧ a ≠ b ∧ a = heldLock := by
      split_ifs with hne
      · rw [graphEdge_iff, entry_insert, graphEdge_iff]
        split_ifs with ha
        · subst ha
          rw [Finset.mem_insert, or_comm]
          refine or_congr_right ⟨fun hb => ⟨hb, hb ▸ hne, rfl⟩, And.left⟩
        · simp [ha]
      · rw [not_not] at hne
        refine (or_iff_left ?_).symm
        rintro ⟨hb, hab, ha⟩
        exact hab (by rw [ha, hb, hne])
    rw [orderAfter, ih, hfirst, or_assoc, List.mem_cons, ← and_or_left, ← and_or_left]

structure Follows (d : DeadlockDetector) (events : List LockEvent) : Prop where
  held : ∀ threadToken, (((d.heldInternalLocks.lookup threadToken).getD [] : List ResourceId) :
    Multiset ResourceId) = heldAfter events threadToken
  edges : ∀ a b, GraphEdge d.lockOrderGraph a b ↔ TakenAfter events a b

theorem follows_nil : Follows {} [] := by
  refine ⟨fun threadToken => rfl, fun a b => ?_⟩
  rw [graphEdge_iff]
  simp [entry, TakenAfter]

theorem Follows.acquire {d : DeadlockDetector} {events : List LockEvent} (h : d.Follows events)
    (threadToken : ThreadToken) (lockId : ResourceId) :
    (d.onInternalLockAcquire threadToken lockId).Follows
      (events ++ [.acquire threadToken lockId]) := by
  refine ⟨fun t => ?_, fun a b => ?_⟩
  · rw [heldAfter_append]
    simp only [onInternalLockAcquire, track]
    by_cases ht : t = threadToken
    · subst ht
      rw [AList.lookup_insert, Function.update_self, ← h.held]
      simp [← Multiset.coe_add, ← Multiset.singleton_add, add_comm]
    · rw [AList.lookup_insert_ne ht, Function.update_of_ne ht, h.held]
  · rw [takenAfter_append, ← h.edges]
    simp only [onInternalLockAcquire]
    rw [edge_orderAfter]
    refine or_congr_right ⟨?_, ?_⟩
    · rintro ⟨rfl, hne, hmem⟩
      exact ⟨threadToken, rfl, hne, by rw [← h.held]; exact hmem⟩
    · rintro ⟨t, heq, hne, hmem⟩
      cases heq
      rw [← h.held] at hmem
      exact ⟨rfl, hne, hmem⟩

theorem Follows.release {d : DeadlockDetector} {events : List LockEvent} (h : d.Follows events)
    (threadToken : ThreadToken) (lockId : ResourceId) :
    (d.onInternalLockRelease threadToken lockId).Follows
      (events ++ [.release threadToken lockId]) := by
  have hgraph : (d.onInternalLockRelease threadToken lockId).lockOrderGraph = d.lockOrderGraph := by
    unfold onInternalLockRelease
    split
    · rfl
    · dsimp only
      split_ifs <;> rfl
  refine ⟨fun t => ?_, fun a b => ?_⟩
  · rw [heldAfter_append]
    simp only [track]
    by_cases ht : t = threadToken
    · subst ht
      rw [Function.update_self, ← h.held]
      unfold onInternalLockRelease
      cases hlookup : d.heldInternalLocks.lookup t with
      | none => simp [hlookup]
      | some locks =>
        dsimp only
        split_ifs with hempty
        · simp [hempty, AList.lookup_erase]
        · simp [AList.lookup_insert]
    · rw [Function.update_of_ne ht, ← h.held]
      unfold onInternalLockRelease
      cases d.heldInternalLocks.lookup threadToken with
      | none => rfl
      | some locks =>
        dsimp only
        split_ifs
        · rw [AList.lookup_erase_ne ht]
        · rw [AList.lookup_insert_ne ht]
  · rw [hgraph, h.edges, takenAfter_append]
    simp

theorem run_follows (events : List LockEvent) : (lockMachine.run {} events).Follows events := by
  induction events using List.reverseRecOn with
  | nil => exact follows_nil
  | append_singleton events event ih =>
    rw [lockMachine.run_append]
    cases event with
    | acquire threadToken lockId => exact ih.acquire threadToken lockId
    | release threadToken lockId => exact ih.release threadToken lockId

/-- After every sequence of events and for all orders of iteration: a cycle of the lock order is
reported, and locks are listed, exactly if the history has a cycle, and every listed lock is on one.
-/
theorem lock_order_exact (events : List LockEvent)
    (order order' : Iteration (lockMachine.run {} events).lockOrderGraph) :
    (∃ found, (lockMachine.run {} events).hasInternalLockOrderCycle order = some found ∧
      (found = true ↔ ∃ a, TransGen (TakenAfter events) a a)) ∧
    ∃ locks, (lockMachine.run {} events).getInternalLockOrderCycle order' = some locks ∧
      (locks ≠ [] ↔ ∃ a, TransGen (TakenAfter events) a a) ∧
      ∀ a ∈ locks, TransGen (TakenAfter events) a a := by
  have hrel : GraphEdge (lockMachine.run {} events).lockOrderGraph = TakenAfter events := by
    funext a b
    exact propext ((run_follows events).edges a b)
  obtain ⟨found, hsearch, -, hcyclic, hcycle⟩ := order'.cycleNodes_spec
  rw [← hrel]
  refine ⟨order.hasCycle_spec, found.sort, ?_, ?_, fun a ha => hcycle a ((Finset.mem_sort _).mp ha)⟩
  · simp only [getInternalLockOrderCycle, lockOrderCycleNodes, hsearch, Option.map_some]
  · rw [ne_eq, List.eq_nil_iff_forall_not_mem, not_forall_not]
    exact (exists_congr fun a => Finset.mem_sort _).trans hcyclic

end DeadlockDetector
end Contur
