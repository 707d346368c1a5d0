import Mathlib.Data.List.Induction
import Mathlib.Data.Multiset.AddSub
import Mathlib.Order.Nat
import Contur.StableOrder
import Contur.Transition
import Contur.Types

/-!
# Message queues

A message queue holds at most `maxMessages` messages. In priority mode a message is put
before the first one of smaller priority, otherwise at the end; the front is what is
received next. Beside the queue stands the list of the messages that have been accepted
and not yet received, in the order in which they were sent: the queue is that list, in
stable order by priority or as it is.
-/

namespace Contur
open Transition
open StableOrder (Arranged earliestGreatest)

structure Message where
  type : ℕ := 0
  priority : ℕ := 0
  payload : List UInt8
  deriving DecidableEq, Repr

structure MessageQueue where
  maxMessages : ℕ
  priorityMode : Bool
  isOpen : Bool := true
  queue : List Message := []
  deriving DecidableEq, Repr

namespace MessageQueue

def init (maxMessages : ℕ) (priorityMode : Bool) : MessageQueue :=
  { maxMessages := max 1 maxMessages, priorityMode := priorityMode }

def send (q : MessageQueue) (message : Message) : Result Unit × MessageQueue :=
  if !q.isOpen then (.error .invalidState, q)
  else if q.queue.length ≥ q.maxMessages then (.error .bufferFull, q)
  else if q.priorityMode then
    let it := q.queue.findIdx fun existing => message.priority > existing.priority
    (.ok (), { q with queue := q.queue.insertIdx it message })
  else (.ok (), { q with queue := q.queue ++ [message] })

def receive (q : MessageQueue) : Result Message × MessageQueue :=
  if !q.isOpen then (.error .invalidState, q)
  else
    match q.queue with
    | [] => (.error .bufferEmpty, q)
    | message :: queue => (.ok message, { q with queue := queue })

def close (q : MessageQueue) : MessageQueue := { q with isOpen := false, queue := [] }

inductive Op where
  | send (message : Message)
  | receive
  | close
  deriving DecidableEq, Repr

inductive Response where
  | sent (r : Result Unit)
  | got (r : Result Message)
  | closed
  deriving DecidableEq, Repr

def exec (q : MessageQueue) : Op → Response × MessageQueue
  | .send message => (.sent (q.send message).1, (q.send message).2)
  | .receive => (.got q.receive.1, q.receive.2)
  | .close => (.closed, q.close)

def machine : Machine MessageQueue Op Response := ⟨exec⟩

def accepted : MessageQueue × Op → List Message
  | (q, .send message) => if (q.send message).1.isOk then [message] else []
  | _ => []

def received : MessageQueue × Op → List Message
  | (q, .receive) =>
    match q.receive.1 with
    | .ok message => [message]
    | .error _ => []
  | _ => []

/-- The messages that have been accepted and not yet received, in the order of their sends. -/
def pending (steps : List (MessageQueue × Op)) : List Message :=
  steps.foldl (fun pending step => (pending ++ accepted step).diff (received step)) []

theorem pending_append (steps : List (MessageQueue × Op)) (step : MessageQueue × Op) :
    pending (steps ++ [step]) = (pending steps ++ accepted step).diff (received step) := by
  unfold pending
  rw [List.foldl_append]
  rfl

def Follows (q : MessageQueue) (pending : List Message) : Prop :=
  if q.priorityMode then Arranged Message.priority pending q.queue else q.queue = pending

/-- The pending message that is to be received next. -/
def next (q : MessageQueue) (pending : List Message) : Option Message :=
  if q.priorityMode then earliestGreatest Message.priority pending else pending.head?

structure Sound (q : MessageQueue) (pending : List Message) : Prop where
  isOpen : q.isOpen = true
  fits : q.queue.length ≤ q.maxMessages
  follows : q.Follows pending

theorem Follows.perm {q : MessageQueue} {pending : List Message} (h : q.Follows pending) :
    q.queue.Perm pending := by
  unfold Follows at h
  split_ifs at h
  · exact h.perm
  · rw [h]

theorem sound_init (maxMessages : ℕ) (priorityMode : Bool) :
    (init maxMessages priorityMode).Sound [] := by
  refine ⟨rfl, Nat.zero_le _, ?_⟩
  unfold Follows
  split_ifs
  · exact StableOrder.arranged_nil
  · rfl

theorem send_of_open {q : MessageQueue} (hopen : q.isOpen = true) (message : Message) :
    q.send message =
      if q.queue.length ≥ q.maxMessages then (.error .bufferFull, q)
      else (.ok (), { q with queue :=
        if q.priorityMode then StableOrder.insert Message.priority message q.queue
        else q.queue ++ [message] }) := by
  have hclosed : ¬ (!q.isOpen) = true := by simp [hopen]
  rw [send, if_neg hclosed]
  split_ifs <;> rfl

theorem receive_of_open {q : MessageQueue} (hopen : q.isOpen = true) :
    q.receive = (q.queue.head?.elim (.error .bufferEmpty) .ok,
      { q with queue := q.queue.tail }) := by
  obtain ⟨maxMessages, priorityMode, isOpen, queue⟩ := q
  obtain rfl : isOpen = true := hopen
  cases queue with
  | nil => rfl
  | cons message queue => rfl

theorem Follows.send {q : MessageQueue} {pending : List Message} (h : q.Follows pending)
    (message : Message) :
    Follows { q with queue :=
      if q.priorityMode then StableOrder.insert Message.priority message q.queue
      else q.queue ++ [message] } (pending ++ [message]) := by
  unfold Follows at h ⊢
  dsimp only
  split_ifs at h ⊢
  · exact h.insert message
  · rw [h]

theorem Follows.receive {q : MessageQueue} {pending : List Message} (h : q.Follows pending) :
    q.queue.head? = q.next pending ∧
      Follows { q with queue := q.queue.tail } (pending.diff q.queue.head?.toList) := by
  cases hqueue : q.queue with
  | nil =>
    have hpending : pending = [] := List.Perm.eq_nil (hqueue ▸ h.perm.symm)
    subst hpending
    refine ⟨?_, ?_⟩
    · unfold next
      split_ifs <;> rfl
    · unfold Follows at h ⊢
      rwa [hqueue] at h
  | cons message queue =>
    unfold Follows at h ⊢
    unfold next
    rw [hqueue] at h
    simp only [List.head?_cons, Option.toList_some, List.diff_cons, List.diff_nil, List.tail_cons]
    split_ifs at h ⊢
    · obtain ⟨hfirst, hrest⟩ := h.front
      exact ⟨hfirst.symm, hrest⟩
    · rw [← h]
      exact ⟨rfl, (List.erase_cons_head _ _).symm⟩

theorem Sound.next {q : MessageQueue} {pending : List Message} (h : q.Sound pending) {op : Op}
    (hop : op ≠ .close) :
    (machine.next q op).Sound ((pending ++ accepted (q, op)).diff (received (q, op))) ∧
      (machine.next q op).maxMessages = q.maxMessages ∧
      (machine.next q op).priorityMode = q.priorityMode ∧
      (received (q, op) ++ (machine.next q op).queue).Perm (q.queue ++ accepted (q, op)) := by
  cases op with
  | send message =>
    have hstep : machine.next q (.send message) = (q.send message).2 := rfl
    have hreceived : received (q, .send message) = [] := rfl
    rw [hstep, hreceived, List.diff_nil, accepted, send_of_open h.isOpen]
    by_cases hfull : q.queue.length ≥ q.maxMessages
    · simpa [hfull] using h
    · rw [if_neg hfull]
      have hfollows := h.follows.send message
      have hperm := hfollows.perm.trans (h.follows.perm.symm.append_right [message])
      refine ⟨⟨h.isOpen, ?_, hfollows⟩, rfl, rfl, hperm⟩
      rw [hperm.length_eq, List.length_append]
      exact not_le.mp hfull
  | receive =>
    have hstep : machine.next q .receive = q.receive.2 := rfl
    have haccepted : accepted (q, .receive) = [] := rfl
    have hreceived : received (q, .receive) = q.queue.head?.toList := by
      rw [received, receive_of_open h.isOpen]
      cases q.queue <;> rfl
    rw [hstep, haccepted, hreceived, receive_of_open h.isOpen, List.append_nil]
    refine ⟨⟨h.isOpen, ?_, h.follows.receive.2⟩, rfl, rfl, ?_⟩
    · exact le_trans (List.tail_sublist _).length_le h.fits
    · rw [List.append_nil]
      cases q.queue <;> exact .refl _
  | close => exact absurd rfl hop

theorem run_sound (maxMessages : ℕ) (priorityMode : Bool) {ops : List Op} (hopen : .close ∉ ops) :
    let q := machine.run (init maxMessages priorityMode) ops
    let steps := machine.steps (init maxMessages priorityMode) ops
    q.Sound (pending steps) ∧ q.maxMessages = max 1 maxMessages ∧ q.priorityMode = priorityMode ∧
      (steps.flatMap received ++ q.queue).Perm (steps.flatMap accepted) ∧
      (pending steps).Sublist (steps.flatMap accepted) := by
  induction ops using List.reverseRecOn with
  | nil => exact ⟨sound_init maxMessages priorityMode, rfl, rfl, .refl _, .refl _⟩
  | append_singleton ops op ih =>
    rw [List.mem_append, not_or, List.mem_singleton] at hopen
    obtain ⟨hsound, hmax, hmode, hperm, hsublist⟩ := ih hopen.1
    obtain ⟨hsound', hmax', hmode', hperm'⟩ := hsound.next (Ne.symm hopen.2)
    rw [machine.run_append, machine.steps_append]
    dsimp only
    rw [pending_append, List.flatMap_append,
      List.flatMap_append, List.flatMap_singleton, List.flatMap_singleton]
    refine ⟨hsound', hmax'.trans hmax, hmode'.trans hmode, ?_, ?_⟩
    · rw [List.append_assoc]
      refine (hperm'.append_left _).trans ?_
      rw [← List.append_assoc]
      exact hperm.append_right _
    · exact (List.diff_sublist _ _).trans (hsublist.append_right _)

/-- Before it is closed, a queue in priority mode is sorted by priority, with messages of equal
priority in the order of their sends, and each receive returns the message that was sent first among
the pending ones of greatest priority; otherwise it is in the order of the sends and each receive
returns the first pending message. No message is lost or received twice, and the queue is never
longer than it may be. -/
theorem delivery_order (maxMessages : ℕ) (priorityMode : Bool) (ops : List Op)
    (hopen : .close ∉ ops) :
    let q := machine.run (init maxMessages priorityMode) ops
    let steps := machine.steps (init maxMessages priorityMode) ops
    (priorityMode = true → q.queue.Pairwise (fun a b => b.priority ≤ a.priority) ∧
      (∀ k, q.queue.filter (fun a => a.priority = k) =
        (pending steps).filter fun a => a.priority = k) ∧
      q.receive.1 = (earliestGreatest Message.priority (pending steps)).elim
        (.error .bufferEmpty) .ok) ∧
    (priorityMode = false → q.queue = pending steps ∧
      q.receive.1 = (pending steps).head?.elim (.error .bufferEmpty) .ok) ∧
    (pending steps).Sublist (steps.flatMap accepted) ∧
    (steps.flatMap received : Multiset Message) + (q.queue : Multiset Message) =
      (steps.flatMap accepted : List Message) ∧
    q.queue.length ≤ q.maxMessages ∧ q.maxMessages = max 1 maxMessages := by
  intro q steps
  obtain ⟨hsound, hmax, hmode, hperm, hsublist⟩ := run_sound maxMessages priorityMode hopen
  have hreceive : q.receive.1 = (q.next (pending steps)).elim (.error .bufferEmpty) .ok := by
    rw [receive_of_open hsound.isOpen]
    exact congrArg (fun front => Option.elim front _ _) hsound.follows.receive.1
  have hfollows := hsound.follows
  unfold Follows at hfollows
  unfold next at hreceive
  refine ⟨fun htrue => ?_, fun hfalse =>
    ?_, hsublist, Multiset.coe_eq_coe.mpr hperm, hsound.fits, hmax⟩
  · rw [if_pos (hmode.trans htrue)] at hfollows hreceive
    exact ⟨hfollows.sorted, hfollows.stable, hreceive⟩
  · have hnot : ¬ q.priorityMode = true := by
      rw [hmode.trans hfalse]
      exact Bool.false_ne_true
    rw [if_neg hnot] at hfollows hreceive
    exact ⟨hfollows, hreceive⟩

theorem delivery_order_two :
    let ops : List Op := [.send ⟨1, 5, []⟩, .send ⟨2, 7, []⟩, .send ⟨3, 7, []⟩, .receive]
    let q := machine.run (init 3 true) ops
    q.queue = [⟨3, 7, []⟩, ⟨1, 5, []⟩] ∧ q.receive.1 = .ok ⟨3, 7, []⟩ ∧
      q.queue.Pairwise fun a b => b.priority ≤ a.priority := by
  intro ops q
  have horder := (delivery_order 3 true ops (by decide)).1 rfl
  exact ⟨by decide, by decide, horder.1⟩

end MessageQueue
end Contur
