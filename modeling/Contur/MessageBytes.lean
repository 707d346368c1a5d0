import Contur.MessageQueue

/-!
# Message queues as byte channels

Through the interface of a channel a message queue takes and gives bytes: a write sends
one message of priority zero, and a read receives one message and copies what fits the
span of the caller. The rest of the message is gone. Since all these messages have one
priority, they are read in the order of the writes in both modes.
-/

namespace Contur
open Transition

namespace MessageQueue

def write (q : MessageQueue) (data : List UInt8) : Result ℕ × MessageQueue :=
  match q.send { payload := data } with
  | (.error code, q) => (.error code, q)
  | (.ok _, q) => (.ok data.length, q)

/-- The span of the caller comes back with the bytes that were read at its front. -/
def read (q : MessageQueue) (span : List UInt8) : (Result ℕ × List UInt8) × MessageQueue :=
  match q.receive with
  | (.error code, q) => ((.error code, span), q)
  | (.ok message, q) =>
    let toCopy := min span.length message.payload.length
    ((.ok toCopy, message.payload.take toCopy ++ span.drop toCopy), q)

inductive ByteOp where
  | write (data : List UInt8)
  | read (span : List UInt8)
  | close
  deriving DecidableEq, Repr

inductive ByteResponse where
  | written (r : Result ℕ)
  | got (r : Result ℕ) (span : List UInt8)
  | closed
  deriving DecidableEq, Repr

def execBytes (q : MessageQueue) : ByteOp → ByteResponse × MessageQueue
  | .write data => (.written (q.write data).1, (q.write data).2)
  | .read span => (.got (q.read span).1.1 (q.read span).1.2, (q.read span).2)
  | .close => (.closed, q.close)

def byteMachine : Machine MessageQueue ByteOp ByteResponse := ⟨execBytes⟩

def sent : MessageQueue × ByteOp → List (List UInt8)
  | (q, .write data) => if (q.write data).1.isOk then [data] else []
  | _ => []

def isRead : MessageQueue × ByteOp → Bool
  | (q, .read span) => (q.read span).1.1.isOk
  | _ => false

/-- How a packet arrives in a span: cut off where the span ends, before the old bytes otherwise. -/
def deliver (packet span : List UInt8) : List UInt8 :=
  packet.take span.length ++ span.drop packet.length

theorem deliver_eq (packet span : List UInt8) :
    packet.take (min span.length packet.length) ++ span.drop (min span.length packet.length) =
      deliver packet span := by
  have htake : packet.take (min span.length packet.length) = packet.take span.length := by
    rw [List.take_eq_take_iff]
    omega
  have hdrop : span.drop (min span.length packet.length) = span.drop packet.length := by
    rw [List.drop_eq_drop_iff]
    omega
  rw [htake, hdrop, deliver]

structure Packets (q : MessageQueue) (packets : List (List UInt8)) : Prop where
  isOpen : q.isOpen = true
  priority : ∀ message ∈ q.queue, message.priority = 0
  payload : q.queue.map Message.payload = packets

theorem packets_init (maxMessages : ℕ) (priorityMode : Bool) :
    (init maxMessages priorityMode).Packets [] := ⟨rfl, by simp [init], rfl⟩

theorem Packets.write {q : MessageQueue} {packets : List (List UInt8)} (h : q.Packets packets)
    (data : List UInt8) :
    q.write data = if packets.length ≥ q.maxMessages then (.error .bufferFull, q)
      else (.ok data.length, { q with queue := q.queue ++ [{ payload := data }] }) := by
  have hlength : q.queue.length = packets.length := by
    rw [← h.payload, List.length_map]
  have hinsert : StableOrder.insert Message.priority { payload := data } q.queue =
      q.queue ++ [{ payload := data }] :=
    StableOrder.insert_of_le fun message _ => Nat.zero_le _
  have hlast : (if q.priorityMode then
        StableOrder.insert Message.priority { payload := data } q.queue
      else q.queue ++ [{ payload := data }]) = q.queue ++ [{ payload := data }] := by
    rw [hinsert, ite_self]
  rw [MessageQueue.write, send_of_open h.isOpen, hlength, hlast]
  split_ifs <;> rfl

theorem Packets.read {q : MessageQueue} {packets : List (List UInt8)} (h : q.Packets packets)
    (span : List UInt8) :
    (q.read span).1 = packets.head?.elim (.error .bufferEmpty, span)
        (fun data => (.ok (min span.length data.length), deliver data span)) ∧
      (q.read span).2 = { q with queue := q.queue.tail } := by
  rw [MessageQueue.read, receive_of_open h.isOpen, ← h.payload]
  cases hqueue : q.queue with
  | nil => exact ⟨rfl, rfl⟩
  | cons message queue =>
    refine ⟨?_, rfl⟩
    exact congrArg (Prod.mk _) (deliver_eq message.payload span)

theorem Packets.next {q : MessageQueue} {packets : List (List UInt8)} (h : q.Packets packets)
    {op : ByteOp} (hop : op ≠ .close) (hfits : packets.length ≤ q.maxMessages) :
    let packets' := if isRead (q, op) then packets.tail else packets ++ sent (q, op)
    (byteMachine.next q op).Packets packets' ∧ packets'.length ≤ q.maxMessages ∧
      (byteMachine.next q op).maxMessages = q.maxMessages ∧
      (isRead (q, op) = true → packets ≠ [] ∧ sent (q, op) = []) := by
  cases op with
  | write data =>
    have hread : isRead (q, .write data) = false := rfl
    have hstep : byteMachine.next q (.write data) = (q.write data).2 := rfl
    intro packets'
    have hpackets : packets' = packets ++ sent (q, .write data) := by simp [packets', hread]
    by_cases hfull : packets.length ≥ q.maxMessages
    · have hsent : sent (q, .write data) = [] := by
        rw [sent, h.write, if_pos hfull]
        rfl
      rw [hpackets, hstep, hsent, List.append_nil, h.write, if_pos hfull]
      exact ⟨h, hfits, rfl, by simp [hread]⟩
    · have hsent : sent (q, .write data) = [data] := by
        rw [sent, h.write, if_neg hfull]
        rfl
      rw [hpackets, hstep, hsent, h.write, if_neg hfull]
      refine ⟨⟨h.isOpen, fun message hmessage => ?_, by simp [h.payload]⟩, ?_, rfl, by simp [hread]⟩
      · rcases List.mem_append.mp hmessage with hold | hnew
        · exact h.priority message hold
        · rw [List.mem_singleton.mp hnew]
      · rw [List.length_append, List.length_singleton]
        omega
  | read span =>
    have hstep : byteMachine.next q (.read span) = (q.read span).2 := rfl
    obtain ⟨hanswer, hnext⟩ := h.read span
    have hread : isRead (q, .read span) = packets.head?.isSome := by
      rw [isRead, hanswer]
      cases packets <;> rfl
    intro packets'
    have hpackets : packets' = packets.tail := by
      cases packets <;> simp [packets', hread, sent]
    rw [hpackets, hstep, hnext]
    refine ⟨⟨h.isOpen, ?_, ?_⟩, ?_, rfl, fun hsome => ⟨?_, rfl⟩⟩
    · exact fun message hmessage => h.priority message (List.mem_of_mem_tail hmessage)
    · rw [← h.payload, List.map_tail]
    · exact le_trans (List.tail_sublist _).length_le hfits
    · rintro rfl
      simp [hread] at hsome
  | close => exact absurd rfl hop

def sentBy (maxMessages : ℕ) (priorityMode : Bool) (ops : List ByteOp) : List (List UInt8) :=
  (byteMachine.steps (init maxMessages priorityMode) ops).flatMap sent

def readsOf (maxMessages : ℕ) (priorityMode : Bool) (ops : List ByteOp) : ℕ :=
  (byteMachine.steps (init maxMessages priorityMode) ops).countP isRead

theorem run_packets (maxMessages : ℕ) (priorityMode : Bool) {ops : List ByteOp}
    (hopen : .close ∉ ops) :
    let q := byteMachine.run (init maxMessages priorityMode) ops
    let packets := (sentBy maxMessages priorityMode ops).drop (readsOf maxMessages priorityMode ops)
    q.Packets packets ∧ q.maxMessages = max 1 maxMessages ∧ packets.length ≤ q.maxMessages ∧
      readsOf maxMessages priorityMode ops ≤ (sentBy maxMessages priorityMode ops).length := by
  induction ops using List.reverseRecOn with
  | nil => exact ⟨packets_init maxMessages priorityMode, rfl, Nat.zero_le _, Nat.zero_le _⟩
  | append_singleton ops op ih =>
    rw [List.mem_append, not_or, List.mem_singleton] at hopen
    obtain ⟨hpackets, hmax, hfits, hreads⟩ := ih hopen.1
    obtain ⟨hpackets', hfits', hmax', hread⟩ := hpackets.next (Ne.symm hopen.2) hfits
    have hsent : sentBy maxMessages priorityMode (ops ++ [op]) =
        sentBy maxMessages priorityMode ops ++
          sent (byteMachine.run (init maxMessages priorityMode) ops, op) := by
      simp only [sentBy, byteMachine.steps_append, List.flatMap_append, List.flatMap_singleton]
    have hcount : readsOf maxMessages priorityMode (ops ++ [op]) =
        readsOf maxMessages priorityMode ops +
          if isRead (byteMachine.run (init maxMessages priorityMode) ops, op) then 1 else 0 := by
      simp [readsOf, byteMachine.steps_append, List.countP_append, List.countP_singleton]
    intro q packets
    have hrun : q = byteMachine.next (byteMachine.run (init maxMessages priorityMode) ops) op := by
      simp only [q, byteMachine.run_append]
      rfl
    -- the packets that wait are still those behind the ones that were read
    have hwait : packets = if isRead (byteMachine.run (init maxMessages priorityMode) ops, op)
        then ((sentBy maxMessages priorityMode ops).drop
          (readsOf maxMessages priorityMode ops)).tail
        else (sentBy maxMessages priorityMode ops).drop (readsOf maxMessages priorityMode ops) ++
          sent (byteMachine.run (init maxMessages priorityMode) ops, op) := by
      simp only [packets, hsent, hcount]
      split_ifs with hisRead
      · rw [(hread hisRead).2, List.append_nil, List.tail_drop]
      · rw [Nat.add_zero, List.drop_append_of_le_length hreads]
    rw [hwait, hrun, hmax']
    refine ⟨hpackets', hmax, hfits', ?_⟩
    rw [hsent, hcount, List.length_append]
    split_ifs with hisRead
    · have hsome : readsOf maxMessages priorityMode ops <
          (sentBy maxMessages priorityMode ops).length := by
        rw [← not_le, ← List.drop_eq_nil_iff]
        exact (hread hisRead).1
      omega
    · omega

structure Refuses (q : MessageQueue) : Prop where
  write : ∀ data, q.write data = (.error .invalidState, q)
  read : ∀ span, q.read span = ((.error .invalidState, span), q)

theorem refuses_of_closed {q : MessageQueue} (h : q.isOpen = false) : q.Refuses :=
  ⟨fun data => by simp [write, send, h], fun span => by simp [read, receive, h]⟩

theorem run_closed {q : MessageQueue} (h : q.isOpen = false) (ops : List ByteOp) :
    (byteMachine.run q ops).isOpen = false := by
  refine byteMachine.run_invariant (P := fun q : MessageQueue => q.isOpen = false)
    (fun q op hq => ?_) h ops
  cases op with
  | write data =>
      simpa [byteMachine, Machine.next, execBytes, (refuses_of_closed hq).write] using hq
  | read span => simpa [byteMachine, Machine.next, execBytes, (refuses_of_closed hq).read] using hq
  | close => rfl

/-- Before it is closed, a message queue passes the accepted writes on whole and in order, in both
modes: the read after `k` others copies the packet of the accepted write number `k`, cut off at the
end of the span, and the rest of this packet is lost. Reads fail only if no packet waits, writes
only if `maxMessages` of them do. Once closed, the queue refuses every call. -/
theorem packets_in_order (maxMessages : ℕ) (priorityMode : Bool) (ops : List ByteOp)
    (hopen : .close ∉ ops) :
    let q := byteMachine.run (init maxMessages priorityMode) ops
    let packets := sentBy maxMessages priorityMode ops
    let k := readsOf maxMessages priorityMode ops
    k ≤ packets.length ∧ packets.length - k ≤ max 1 maxMessages ∧
      (∀ span, (q.read span).1 = packets[k]?.elim (.error .bufferEmpty, span)
        fun data => (.ok (min span.length data.length), deliver data span)) ∧
      (∀ data, (q.write data).1 =
        if packets.length - k = max 1 maxMessages then .error .bufferFull else .ok data.length) ∧
      ∀ more, Refuses (byteMachine.run q (.close :: more)) := by
  intro q packets k
  obtain ⟨hpackets, hmax, hfits, hreads⟩ := run_packets maxMessages priorityMode hopen
  rw [hmax, List.length_drop] at hfits
  have hwait : packets.length - k ≤ max 1 maxMessages := hfits
  refine ⟨hreads, hwait, fun span => ?_, fun data => ?_, fun more => ?_⟩
  · rw [(hpackets.read span).1, List.head?_drop]
  · have hfull :
      (packets.drop k).length ≥ q.maxMessages ↔ packets.length - k = max 1 maxMessages := by
      rw [hmax, List.length_drop]
      omega
    rw [hpackets.write data]
    by_cases hlength : packets.length - k = max 1 maxMessages
    · rw [if_pos hlength, if_pos (hfull.mpr hlength)]
    · rw [if_neg hlength, if_neg fun hle => hlength (hfull.mp hle)]
  · exact refuses_of_closed (run_closed rfl more)

theorem packets_in_order_short :
    let ops : List ByteOp :=
      [.write [1], .write [2, 3, 4], .write [5], .write [6], .read [], .read [0]]
    let q := byteMachine.run (init 3 true) ops
    sentBy 3 true ops = [[1], [2, 3, 4], [5]] ∧ readsOf 3 true ops = 2 ∧
      (q.read [0, 0, 0]).1 = (.ok 1, [5, 0, 0]) ∧ (q.write [7]).1 = .ok 1 := by
  intro ops q
  obtain ⟨-, -, hread, hwrite, -⟩ := packets_in_order 3 true ops (by decide)
  refine ⟨by decide, by decide, (hread [0, 0, 0]).trans ?_, (hwrite [7]).trans ?_⟩
  · decide
  · decide

end MessageQueue
end Contur
