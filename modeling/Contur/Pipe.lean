import Mathlib.Data.Nat.Basic
import Contur.Transition
import Contur.Types

/-!
# Pipes

A pipe is a bounded queue of bytes. A write takes as many bytes as there is room for,
a read copies as many bytes as there are and as the span of the caller holds; the rest
of the span stays as it was. As long as the pipe is open, what has been read and what
is buffered is what has been written, in order. A closed pipe refuses every call.
-/

namespace Contur
open Transition

structure Pipe where
  capacity : ℕ
  isOpen : Bool := true
  buffer : List UInt8 := []
  deriving DecidableEq, Repr

namespace Pipe

def init (capacity : ℕ) : Pipe := { capacity := max 1 capacity }

def write (p : Pipe) (data : List UInt8) : Result ℕ × Pipe :=
  if !p.isOpen then (.error .invalidState, p)
  else if data.isEmpty then (.ok 0, p)
  else
    let available := p.capacity - p.buffer.length
    if available = 0 then (.error .bufferFull, p)
    else
      let toWrite := min available data.length
      (.ok toWrite, { p with buffer := p.buffer ++ data.take toWrite })

def read (p : Pipe) (span : List UInt8) : (Result ℕ × List UInt8) × Pipe :=
  if !p.isOpen then ((.error .invalidState, span), p)
  else if span.isEmpty then ((.ok 0, span), p)
  else if p.buffer.isEmpty then ((.error .bufferEmpty, span), p)
  else
    let toRead := min span.length p.buffer.length
    ((.ok toRead, p.buffer.take toRead ++ span.drop toRead),
      { p with buffer := p.buffer.drop toRead })

def close (p : Pipe) : Pipe := { p with isOpen := false, buffer := [] }

inductive Op where
  | write (data : List UInt8)
  | read (span : List UInt8)
  | close
  deriving DecidableEq, Repr

inductive Response where
  | written (r : Result ℕ)
  | got (r : Result ℕ) (span : List UInt8)
  | closed
  deriving DecidableEq, Repr

def exec (p : Pipe) : Op → Response × Pipe
  | .write data => (.written (p.write data).1, (p.write data).2)
  | .read span => (.got (p.read span).1.1 (p.read span).1.2, (p.read span).2)
  | .close => (.closed, p.close)

def machine : Machine Pipe Op Response := ⟨exec⟩

def accepted : Pipe × Op → List UInt8
  | (p, .write data) =>
    match (p.write data).1 with
    | .ok n => data.take n
    | .error _ => []
  | _ => []

def delivered : Pipe × Op → List UInt8
  | (p, .read span) =>
    match (p.read span).1 with
    | (.ok n, span) => span.take n
    | (.error _, _) => []
  | _ => []

structure Sound (p : Pipe) : Prop where
  isOpen : p.isOpen = true
  fits : p.buffer.length ≤ p.capacity

theorem sound_init (capacity : ℕ) : (init capacity).Sound := ⟨rfl, Nat.zero_le _⟩

/-- A write takes the bytes for which there is room. It fails only if there are bytes and no room.
-/
structure Writes (p : Pipe) (data : List UInt8) : Prop where
  response : (p.write data).1 =
    if data ≠ [] ∧ p.capacity - p.buffer.length = 0 then .error .bufferFull
    else .ok (min data.length (p.capacity - p.buffer.length))
  taken : accepted (p, .write data) = data.take (min data.length (p.capacity - p.buffer.length))
  next : (p.write data).2 = { p with buffer := p.buffer ++ accepted (p, .write data) }

/-- A read delivers the first bytes of the buffer, as many as the span holds, and leaves the rest of
the span alone. It fails only if something is asked for and nothing is there. -/
structure Reads (p : Pipe) (span : List UInt8) : Prop where
  response : (p.read span).1.1 =
    if span ≠ [] ∧ p.buffer = [] then .error .bufferEmpty
    else .ok (min span.length p.buffer.length)
  given : delivered (p, .read span) = p.buffer.take (min span.length p.buffer.length)
  rest : (p.read span).1.2 = delivered (p, .read span) ++
    span.drop (min span.length p.buffer.length)
  next : (p.read span).2 = { p with buffer := p.buffer.drop (min span.length p.buffer.length) }

structure Refuses (p : Pipe) : Prop where
  write : ∀ data, p.write data = (.error .invalidState, p)
  read : ∀ span, p.read span = ((.error .invalidState, span), p)

theorem Sound.writes {p : Pipe} (h : p.Sound) (data : List UInt8) : Writes p data := by
  by_cases hdata : data = []
  · subst hdata
    have hwrite : p.write [] = (.ok 0, p) := by simp [write, h.isOpen]
    exact ⟨by simp [hwrite], by simp [accepted, hwrite], by simp [accepted, hwrite]⟩
  by_cases hfull : p.capacity - p.buffer.length = 0
  · have hwrite : p.write data = (.error .bufferFull, p) := by simp [write, h.isOpen, hdata, hfull]
    exact ⟨by simp [hwrite, hdata, hfull], by simp [accepted, hwrite, hfull],
      by simp [accepted, hwrite]⟩
  · have hwrite : p.write data = (.ok (min data.length (p.capacity - p.buffer.length)),
        { p with buffer :=
          p.buffer ++ data.take (min data.length (p.capacity - p.buffer.length)) }) := by
      simp [write, h.isOpen, hdata, hfull, min_comm]
    exact ⟨by simp [hwrite, hfull], by simp [accepted, hwrite], by simp [accepted, hwrite]⟩

theorem Sound.reads {p : Pipe} (h : p.Sound) (span : List UInt8) : Reads p span := by
  by_cases hspan : span = []
  · subst hspan
    have hread : p.read [] = ((.ok 0, []), p) := by simp [read, h.isOpen]
    exact ⟨by simp [hread], by simp [delivered, hread], by simp [delivered, hread], by simp [hread]⟩
  by_cases hempty : p.buffer = []
  · have hread : p.read span = ((.error .bufferEmpty, span), p) := by
      simp [read, h.isOpen, hspan, hempty]
    have hsame : p.buffer.drop (min span.length p.buffer.length) = p.buffer := by simp [hempty]
    exact ⟨by simp [hread, hspan, hempty], by simp [delivered, hread, hempty],
      by simp [delivered, hread, hempty], by rw [hsame, hread]⟩
  · have hread : p.read span = ((.ok (min span.length p.buffer.length),
        p.buffer.take (min span.length p.buffer.length) ++
          span.drop (min span.length p.buffer.length)),
        { p with buffer := p.buffer.drop (min span.length p.buffer.length) }) := by
      simp [read, h.isOpen, hspan, hempty]
    have hgiven : delivered (p, .read span) = p.buffer.take (min span.length p.buffer.length) := by
      simp only [delivered, hread]
      rw [List.take_append_of_le_length (by simp), List.take_take, min_self]
    exact ⟨by simp [hread, hempty], hgiven, by rw [hread, hgiven], by rw [hread]⟩

theorem Sound.next {p : Pipe} (h : p.Sound) {op : Op} (hop : op ≠ .close) :
    (machine.next p op).Sound ∧ (machine.next p op).capacity = p.capacity ∧
      p.buffer ++ accepted (p, op) = delivered (p, op) ++ (machine.next p op).buffer := by
  cases op with
  | write data =>
    obtain ⟨-, htaken, hnext⟩ := h.writes data
    have hstep : machine.next p (.write data) = (p.write data).2 := rfl
    rw [hstep, hnext, htaken]
    refine ⟨⟨h.isOpen, ?_⟩, rfl, rfl⟩
    have hfits := h.fits
    simp only [List.length_append, List.length_take]
    omega
  | read span =>
    obtain ⟨-, hgiven, -, hnext⟩ := h.reads span
    have hstep : machine.next p (.read span) = (p.read span).2 := rfl
    rw [hstep, hnext, hgiven]
    refine ⟨⟨h.isOpen, ?_⟩, rfl, by simp [accepted]⟩
    exact le_trans (List.drop_sublist _ _).length_le h.fits
  | close => exact absurd rfl hop

theorem run_sound {p : Pipe} (h : p.Sound) {ops : List Op} (hopen : .close ∉ ops) :
    (machine.run p ops).Sound ∧ (machine.run p ops).capacity = p.capacity ∧
      p.buffer ++ (machine.steps p ops).flatMap accepted =
        (machine.steps p ops).flatMap delivered ++ (machine.run p ops).buffer := by
  induction ops generalizing p with
  | nil => exact ⟨h, rfl, by simp [Machine.steps]⟩
  | cons op ops ih =>
    rw [List.mem_cons, not_or] at hopen
    obtain ⟨hsound, hcapacity, hstep⟩ := h.next (Ne.symm hopen.1)
    obtain ⟨hrun, hcapacity', hstream⟩ := ih hsound hopen.2
    refine ⟨hrun, hcapacity'.trans hcapacity, ?_⟩
    simp only [Machine.steps, List.flatMap_cons, Machine.run_cons]
    rw [← List.append_assoc, hstep, List.append_assoc, hstream, List.append_assoc]

theorem refuses_of_closed {p : Pipe} (h : p.isOpen = false) : p.Refuses :=
  ⟨fun data => by simp [write, h], fun span => by simp [read, h]⟩

theorem run_closed {p : Pipe} (h : p.isOpen = false) (ops : List Op) :
    (machine.run p ops).isOpen = false := by
  refine machine.run_invariant (P := fun p : Pipe => p.isOpen = false) (fun p op hp => ?_) h ops
  cases op with
  | write data =>
    have hwrite := (refuses_of_closed hp).write data
    simpa [machine, Machine.next, exec, hwrite] using hp
  | read span =>
    have hread := (refuses_of_closed hp).read span
    simpa [machine, Machine.next, exec, hread] using hp
  | close => rfl

/-- Before it is closed, a pipe delivers exactly the bytes it accepted, in order, except those it
still has, of which there are never more than its capacity; and each call takes or delivers what it
can. Once closed, it refuses every call. -/
theorem lossless_stream (capacity : ℕ) (ops : List Op) (hopen : .close ∉ ops) :
    let p := machine.run (init capacity) ops
    let steps := machine.steps (init capacity) ops
    steps.flatMap delivered ++ p.buffer = steps.flatMap accepted ∧
      p.buffer.length ≤ p.capacity ∧ p.capacity = max 1 capacity ∧
      (∀ data, Writes p data) ∧ (∀ span, Reads p span) ∧
      ∀ more, Refuses (machine.run p (.close :: more)) := by
  intro p steps
  obtain ⟨hsound, hcapacity, hstream⟩ := run_sound (sound_init capacity) hopen
  refine ⟨hstream.symm, hsound.fits, hcapacity, hsound.writes, hsound.reads, fun more => ?_⟩
  exact refuses_of_closed (run_closed rfl more)

theorem lossless_stream_partial :
    let ops : List Op := [.write [1, 2, 3, 4], .read [0], .write [4], .read [0, 0]]
    let p := machine.run (init 3) ops
    (machine.steps (init 3) ops).flatMap accepted = [1, 2, 3, 4] ∧ p.buffer = [4] ∧
      (machine.steps (init 3) ops).flatMap delivered ++ p.buffer = [1, 2, 3, 4] := by
  intro ops p
  have haccepted : (machine.steps (init 3) ops).flatMap accepted = [1, 2, 3, 4] := by decide
  exact ⟨haccepted, by decide, (lossless_stream 3 ops (by decide)).1.trans haccepted⟩

end Pipe
end Contur
