import Mathlib.Data.Finset.Card
import Mathlib.Data.List.Induction
import Mathlib.Order.Nat
import Contur.Transition
import Contur.Types

/-!
# Shared memory

A shared region has a fixed number of bytes. Every write goes to its front and is cut
off at its end, every read copies from its front. So a byte of the region is the one of
the last write that was long enough to reach it. Whether a process is attached is
recorded, but neither a read nor a write asks for it.
-/

namespace Contur
open Transition

structure SharedMemory where
  isOpen : Bool := true
  region : List UInt8
  attached : Finset ProcessId := ∅
  deriving DecidableEq

namespace SharedMemory

def init (bytes : ℕ) : SharedMemory := { region := List.replicate (max 1 bytes) 0 }

def write (m : SharedMemory) (data : List UInt8) : Result ℕ × SharedMemory :=
  if !m.isOpen then (.error .invalidState, m)
  else if data.isEmpty then (.ok 0, m)
  else
    let toWrite := min data.length m.region.length
    (.ok toWrite, { m with region := data.take toWrite ++ m.region.drop toWrite })

/-- The span of the caller comes back with the bytes that were read at its front. -/
def read (m : SharedMemory) (span : List UInt8) : Result ℕ × List UInt8 :=
  if !m.isOpen then (.error .invalidState, span)
  else if span.isEmpty then (.ok 0, span)
  else
    let toRead := min span.length m.region.length
    (.ok toRead, m.region.take toRead ++ span.drop toRead)

def close (m : SharedMemory) : SharedMemory :=
  { isOpen := false, region := m.region.map fun _ => 0 }

def attach (m : SharedMemory) (pid : ProcessId) : Result Unit × SharedMemory :=
  if !m.isOpen then (.error .invalidState, m)
  else if pid = invalidPid then (.error .invalidPid, m)
  else (.ok (), { m with attached := insert pid m.attached })

def detach (m : SharedMemory) (pid : ProcessId) : Result Unit × SharedMemory :=
  if pid = invalidPid then (.error .invalidPid, m)
  else if pid ∉ m.attached then (.error .notFound, m)
  else (.ok (), { m with attached := m.attached.erase pid })

def isAttached (m : SharedMemory) (pid : ProcessId) : Bool := pid ∈ m.attached

def size (m : SharedMemory) : ℕ := m.region.length

inductive Op where
  | write (data : List UInt8)
  | read (span : List UInt8)
  | close
  | attach (pid : ProcessId)
  | detach (pid : ProcessId)
  deriving DecidableEq, Repr

inductive Response where
  | written (r : Result ℕ)
  | got (r : Result ℕ) (span : List UInt8)
  | closed
  | done (r : Result Unit)
  deriving DecidableEq, Repr

def exec (m : SharedMemory) : Op → Response × SharedMemory
  | .write data => (.written (m.write data).1, (m.write data).2)
  | .read span => (.got (m.read span).1 (m.read span).2, m)
  | .close => (.closed, m.close)
  | .attach pid => (.done (m.attach pid).1, (m.attach pid).2)
  | .detach pid => (.done (m.detach pid).1, (m.detach pid).2)

def machine : Machine SharedMemory Op Response := ⟨exec⟩

def data? : Op → Option (List UInt8)
  | .write data => some data
  | _ => none

def writtenAt (ops : List Op) (i : ℕ) : List UInt8 :=
  (ops.filterMap data?).filterMap (·[i]?)

/-- The byte of the last write that reaches this far, or the zero of a fresh region. -/
def lastWritten (ops : List Op) (i : ℕ) : UInt8 := (writtenAt ops i).getLast?.getD 0

def mentions (pid : ProcessId) : Op → Bool
  | .attach p => p = pid
  | .detach p => p = pid
  | _ => false

/-- The last call that attached or detached this process. -/
def lastMention (ops : List Op) (pid : ProcessId) : Option Op :=
    (ops.filter (mentions pid)).getLast?

theorem write_of_open {m : SharedMemory} (hopen : m.isOpen = true) (data : List UInt8) :
    m.write data = (.ok (min data.length m.region.length),
      { m with region := data.take m.region.length ++ m.region.drop data.length }) := by
  have hclosed : ¬ (!m.isOpen) = true := by simp [hopen]
  rw [write, if_neg hclosed]
  by_cases hdata : data = []
  · subst hdata
    simp
  · have htake : data.take (min data.length m.region.length) = data.take m.region.length := by
      rw [List.take_eq_take_iff]
      omega
    have hdrop : m.region.drop (min data.length m.region.length) = m.region.drop data.length := by
      rw [List.drop_eq_drop_iff]
      omega
    rw [if_neg (by simpa using hdata)]
    dsimp only
    rw [htake, hdrop]

theorem read_of_open {m : SharedMemory} (hopen : m.isOpen = true) (span : List UInt8) :
    m.read span = (.ok (min span.length m.size),
      m.region.take span.length ++ span.drop m.size) := by
  have hclosed : ¬ (!m.isOpen) = true := by simp [hopen]
  rw [read, if_neg hclosed]
  by_cases hspan : span = []
  · subst hspan
    simp
  · have htake : m.region.take (min span.length m.region.length) = m.region.take span.length := by
      rw [List.take_eq_take_iff]
      omega
    have hdrop : span.drop (min span.length m.region.length) = span.drop m.region.length := by
      rw [List.drop_eq_drop_iff]
      omega
    rw [if_neg (by simpa using hspan)]
    dsimp only
    rw [htake, hdrop, size]

theorem region_write {m : SharedMemory} (hopen : m.isOpen = true) (data : List UInt8) (i : ℕ) :
    (m.write data).2.region[i]? =
      if i < m.size then (data[i]?).or m.region[i]? else none := by
  rw [write_of_open hopen, size]
  dsimp only
  by_cases hi : i < m.region.length
  · rw [if_pos hi]
    by_cases hdata : i < data.length
    · rw [List.getElem?_append_left (by simp; omega), List.getElem?_take_of_lt hi,
        List.getElem?_eq_getElem hdata, Option.some_or]
    · have hlen : (data.take m.region.length).length = data.length := by simp; omega
      rw [List.getElem?_append_right (by omega), hlen, List.getElem?_drop,
        List.getElem?_eq_none (by omega : data.length ≤ i), Option.none_or,
        Nat.add_sub_cancel' (by omega)]
  · rw [if_neg hi, List.getElem?_eq_none]
    simp
    omega

theorem size_write {m : SharedMemory} (hopen : m.isOpen = true) (data : List UInt8) :
    (m.write data).2.size = m.size := by
  rw [write_of_open hopen, size, size]
  simp
  omega

theorem attach_of_open {m : SharedMemory} (hopen : m.isOpen = true) (pid : ProcessId) :
    (m.attach pid).2 =
      { m with attached := if pid = invalidPid then m.attached else insert pid m.attached } := by
  have hclosed : ¬ (!m.isOpen) = true := by simp [hopen]
  rw [attach, if_neg hclosed]
  split_ifs <;> rfl

theorem detach_eq (m : SharedMemory) (pid : ProcessId) :
    (m.detach pid).2 =
      { m with attached := if pid = invalidPid then m.attached else m.attached.erase pid } := by
  rw [detach]
  by_cases hpid : pid = invalidPid
  · rw [if_pos hpid, if_pos hpid]
  · rw [if_neg hpid, if_neg hpid]
    by_cases hmem : pid ∈ m.attached
    · rw [if_neg (not_not.mpr hmem)]
    · rw [if_pos hmem, Finset.erase_eq_of_notMem hmem]

structure Sound (bytes : ℕ) (ops : List Op) (m : SharedMemory) : Prop where
  isOpen : m.isOpen = true
  size : m.size = max 1 bytes
  region : ∀ i < m.size, m.region[i]? = some (lastWritten ops i)
  attached : ∀ pid, pid ∈ m.attached ↔ pid ≠ invalidPid ∧ lastMention ops pid = some (.attach pid)

theorem lastWritten_concat (ops : List Op) (op : Op) (i : ℕ) :
    lastWritten (ops ++ [op]) i = ((data? op).bind (·[i]?)).getD (lastWritten ops i) := by
  unfold lastWritten writtenAt
  rw [List.filterMap_append, List.filterMap_append]
  cases hdata : data? op with
  | none => simp [hdata]
  | some data =>
    cases hi : data[i]? with
    | none => simp [hdata, hi]
    | some byte => simp [hdata, hi]

theorem lastMention_concat (ops : List Op) (op : Op) (pid : ProcessId) :
    lastMention (ops ++ [op]) pid = if mentions pid op then some op else lastMention ops pid := by
  unfold lastMention
  rw [List.filter_append]
  split_ifs with hop
  · simp [hop]
  · simp [hop]

theorem sound_init (bytes : ℕ) : (init bytes).Sound bytes [] := by
  refine ⟨rfl, by simp [init, size], fun i hi => ?_, fun pid => by simp [init, lastMention]⟩
  rw [size] at hi
  rw [List.getElem?_eq_getElem hi]
  simp [init, lastWritten, writtenAt]

theorem Sound.concat {bytes : ℕ} {ops : List Op} {m m' : SharedMemory} (h : m.Sound bytes ops)
    {op : Op} (hopen : m'.isOpen = true) (hregion : data? op = none → m'.region = m.region)
    (hattached : (∀ pid, mentions pid op = false) → m'.attached = m.attached)
    (hwrites : ∀ data, data? op = some data → m' = (m.write data).2)
    (hmentions : ∀ pid, mentions pid op = true → ∀ p,
      (p ∈ m'.attached ↔ if p = pid then pid ≠ invalidPid ∧ op = .attach pid else p ∈ m.attached)) :
    m'.Sound bytes (ops ++ [op]) := by
  have hsize : m'.size = m.size := by
    cases hdata : data? op with
    | none => rw [SharedMemory.size, hregion hdata, SharedMemory.size]
    | some data => rw [hwrites data hdata, size_write h.isOpen]
  refine ⟨hopen, hsize.trans h.size, fun i hi => ?_, fun p => ?_⟩
  · rw [hsize] at hi
    rw [lastWritten_concat]
    cases hdata : data? op with
    | none => simpa [hregion hdata] using h.region i hi
    | some data =>
      rw [hwrites data hdata, region_write h.isOpen, if_pos hi, h.region i hi]
      rw [Option.bind_some]
      cases data[i]? <;> rfl
  · rw [lastMention_concat]
    by_cases hop : mentions p op = true
    · rw [if_pos hop, hmentions p hop p, if_pos rfl, Option.some.injEq]
    · rw [if_neg hop, ← h.attached]
      by_cases hany : ∃ pid, mentions pid op = true
      · obtain ⟨pid, hpid⟩ := hany
        have hne : p ≠ pid := by
          rintro rfl
          exact hop hpid
        rw [hmentions pid hpid, if_neg hne]
      · rw [hattached fun pid => by simpa using not_exists.mp hany pid]

theorem Sound.next {bytes : ℕ} {ops : List Op} {m : SharedMemory} (h : m.Sound bytes ops) {op : Op}
    (hop : op ≠ .close) : (machine.next m op).Sound bytes (ops ++ [op]) := by
  cases op with
  | write data =>
    have hstep : machine.next m (.write data) = (m.write data).2 := rfl
    rw [hstep]
    refine h.concat ?_ (by simp [data?]) (fun _ => ?_) ?_ (by simp [mentions])
    · rw [write_of_open h.isOpen]
      exact h.isOpen
    · rw [write_of_open h.isOpen]
    · rintro data' hdata
      cases hdata
      rfl
  | read span =>
      exact h.concat h.isOpen (fun _ => rfl) (fun _ => rfl) (by simp [data?]) (by simp [mentions])
  | close => exact absurd rfl hop
  | attach pid =>
    have hstep : machine.next m (.attach pid) = (m.attach pid).2 := rfl
    rw [hstep, attach_of_open h.isOpen]
    refine h.concat h.isOpen (fun _ => rfl) (fun hnone => ?_) (by simp [data?])
      fun pid' hpid p => ?_
    · simpa [mentions] using hnone pid
    · obtain rfl : pid = pid' := by simpa [mentions] using hpid
      dsimp only
      split_ifs with hinvalid hp hp
      · subst hp
        simp [hinvalid, h.attached]
      · rfl
      · simp [hp, hinvalid]
      · simp [hp]
  | detach pid =>
    have hstep : machine.next m (.detach pid) = (m.detach pid).2 := rfl
    rw [hstep, detach_eq]
    refine h.concat h.isOpen (fun _ => rfl) (fun hnone => ?_) (by simp [data?])
      fun pid' hpid p => ?_
    · simpa [mentions] using hnone pid
    · obtain rfl : pid = pid' := by simpa [mentions] using hpid
      dsimp only
      split_ifs with hinvalid hp hp
      · subst hp
        simp [hinvalid, h.attached]
      · rfl
      · simp [hp]
      · simp [hp]

theorem run_sound (bytes : ℕ) {ops : List Op} (hopen : .close ∉ ops) :
    (machine.run (init bytes) ops).Sound bytes ops := by
  induction ops using List.reverseRecOn with
  | nil => exact sound_init bytes
  | append_singleton ops op ih =>
    rw [List.mem_append, not_or, List.mem_singleton] at hopen
    rw [machine.run_append]
    exact (ih hopen.1).next (Ne.symm hopen.2)

structure Refuses (m : SharedMemory) : Prop where
  write : ∀ data, m.write data = (.error .invalidState, m)
  read : ∀ span, m.read span = (.error .invalidState, span)
  attach : ∀ pid, m.attach pid = (.error .invalidState, m)
  detach : ∀ pid, m.detach pid = (.error (if pid = invalidPid then .invalidPid else .notFound), m)
  erased : ∀ byte ∈ m.region, byte = 0

structure Closed (m : SharedMemory) : Prop where
  isOpen : m.isOpen = false
  attached : m.attached = ∅
  erased : ∀ byte ∈ m.region, byte = 0

theorem closed_close (m : SharedMemory) : m.close.Closed :=
  ⟨rfl, rfl, fun byte hbyte => by
    obtain ⟨_, -, rfl⟩ := List.mem_map.mp hbyte
    rfl⟩

theorem Closed.refuses {m : SharedMemory} (h : m.Closed) : m.Refuses := by
  refine ⟨fun data => ?_, fun span => ?_, fun pid => ?_, fun pid => ?_, h.erased⟩
  · simp [SharedMemory.write, h.isOpen]
  · simp [SharedMemory.read, h.isOpen]
  · simp [SharedMemory.attach, h.isOpen]
  · by_cases hpid : pid = invalidPid
    · simp [SharedMemory.detach, hpid]
    · simp [SharedMemory.detach, hpid, h.attached]

theorem Closed.run {m : SharedMemory} (h : m.Closed) (ops : List Op) :
    (machine.run m ops).Closed := by
  refine machine.run_invariant (P := Closed) (fun m op hm => ?_) h ops
  cases op with
  | write data => simpa [machine, Machine.next, exec, hm.refuses.write data] using hm
  | read span => exact hm
  | close => exact closed_close m
  | attach pid => simpa [machine, Machine.next, exec, hm.refuses.attach pid] using hm
  | detach pid => simpa [machine, Machine.next, exec, hm.refuses.detach pid] using hm

/-- As long as it is open, a region of `bytes` bytes has at each place the byte of the last write
that was long enough to reach it, a read copies these bytes, and the attached processes are those
that have attached since they last detached. Once closed, it has only zeros, and refuses every call.
-/
theorem last_writer (bytes : ℕ) (ops : List Op) (hopen : .close ∉ ops) :
    let m := machine.run (init bytes) ops
    m.size = max 1 bytes ∧
      (∀ span, (m.read span).1 = .ok (min span.length m.size) ∧
        (m.read span).2.length = span.length ∧
        ∀ i < span.length, (m.read span).2[i]? =
          if i < m.size then some (lastWritten ops i) else span[i]?) ∧
      (∀ data, (m.write data).1 = .ok (min data.length m.size)) ∧
      (∀ pid, m.isAttached pid ↔ pid ≠ invalidPid ∧ lastMention ops pid = some (.attach pid)) ∧
      ∀ more, Refuses (machine.run m (.close :: more)) := by
  intro m
  have hsound : m.Sound bytes ops := run_sound bytes hopen
  refine ⟨hsound.size, fun span => ?_, fun data => ?_, fun pid => ?_, fun more => ?_⟩
  · rw [read_of_open hsound.isOpen]
    dsimp only
    refine ⟨rfl, by simp [size]; omega, fun i hi => ?_⟩
    split_ifs with hsize
    · rw [List.getElem?_append_left (by simp; exact ⟨hi, hsize⟩), List.getElem?_take_of_lt hi]
      exact hsound.region i hsize
    · have hlen : (m.region.take span.length).length = m.size := by
        rw [List.length_take]
        exact min_eq_right (by rw [size] at hsize; omega)
      rw [List.getElem?_append_right (by omega), hlen, List.getElem?_drop,
        Nat.add_sub_cancel' (by omega)]
  · rw [write_of_open hsound.isOpen, size]
  · simpa [isAttached] using hsound.attached pid
  · exact ((closed_close m).run more).refuses

theorem last_writer_front :
    let ops : List Op := [.write [1, 2, 3, 4], .attach 7, .write [9], .attach 8, .detach 7]
    let m := machine.run (init 3) ops
    m.size = 3 ∧ (m.read [5, 5, 5, 5]).2 = [9, 2, 3, 5] ∧ lastMention ops 8 = some (.attach 8) ∧
      m.isAttached 8 = true := by
  intro ops m
  obtain ⟨hsize, -, -, hattached, -⟩ := last_writer 3 ops (by decide)
  exact ⟨hsize, by decide, by decide, (hattached 8).mpr ⟨by decide, by decide⟩⟩

end SharedMemory
end Contur
