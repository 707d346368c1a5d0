import Mathlib.Data.List.Induction
import Contur.Block
import Contur.Transition
import Contur.Types

/-!
# Devices behind their manager

The manager finds a device by its number, asks whether it is ready and passes the call
on. A network device is ready as long as its buffer is not full. So a full device is
not ready to be read either: the manager refuses the read that would make room. Apart
from this the device is a bounded queue, first in, first out.
-/

namespace Contur
open Transition

abbrev DeviceId := ℕ

def consoleDeviceId : DeviceId := 1
def networkDeviceId : DeviceId := 2

structure NetworkDevice where
  capacity : ℕ
  buffer : List RegisterValue := []
  deriving DecidableEq, Repr

namespace NetworkDevice

def read (d : NetworkDevice) : Result RegisterValue × NetworkDevice :=
  match d.buffer with
  | [] => (.error .bufferEmpty, d)
  | value :: buffer => (.ok value, { d with buffer := buffer })

def write (d : NetworkDevice) (value : RegisterValue) : Result Unit × NetworkDevice :=
  if d.buffer.length ≥ d.capacity then (.error .bufferFull, d)
  else (.ok (), { d with buffer := d.buffer ++ [value] })

def isReady (d : NetworkDevice) : Bool := d.buffer.length < d.capacity

end NetworkDevice

inductive Device where
  | console (lastValue : RegisterValue)
  | network (device : NetworkDevice)
  deriving DecidableEq, Repr

namespace Device

def id : Device → DeviceId
  | .console _ => consoleDeviceId
  | .network _ => networkDeviceId

def read : Device → Result RegisterValue × Device
  | .console lastValue => (.ok lastValue, .console lastValue)
  | .network device => (device.read.1, .network device.read.2)

def write (value : RegisterValue) : Device → Result Unit × Device
  | .console _ => (.ok (), .console value)
  | .network device => ((device.write value).1, .network (device.write value).2)

def isReady : Device → Bool
  | .console _ => true
  | .network device => device.isReady

end Device

structure DeviceManager where
  devices : List Device := []
  deriving DecidableEq, Repr

namespace DeviceManager

def findDevice (m : DeviceManager) (id : DeviceId) : Option Device :=
  m.devices.find? fun device => device.id = id

def registerDevice (m : DeviceManager) (device : Device) : Result Unit × DeviceManager :=
  if (m.findDevice device.id).isSome then (.error .alreadyExists, m)
  else (.ok (), { m with devices := m.devices ++ [device] })

def replace (id : DeviceId) (device : Device) : List Device → List Device
  | [] => []
  | first :: devices =>
      if first.id = id then device :: devices else first :: replace id device devices

def write (m : DeviceManager) (id : DeviceId) (value : RegisterValue) :
    Result Unit × DeviceManager :=
  match m.findDevice id with
  | none => (.error .notFound, m)
  | some device =>
    if !device.isReady then (.error .deviceError, m)
    else
      let written := device.write value
      (written.1, { m with devices := replace id written.2 m.devices })

def read (m : DeviceManager) (id : DeviceId) : Result RegisterValue × DeviceManager :=
  match m.findDevice id with
  | none => (.error .notFound, m)
  | some device =>
    if !device.isReady then (.error .deviceError, m)
    else (device.read.1, { m with devices := replace id device.read.2 m.devices })

inductive Op where
  | write (id : DeviceId) (value : RegisterValue)
  | read (id : DeviceId)
  deriving DecidableEq, Repr

inductive Response where
  | written (r : Result Unit)
  | got (r : Result RegisterValue)
  deriving DecidableEq, Repr

def exec (m : DeviceManager) : Op → Response × DeviceManager
  | .write id value => (.written (m.write id value).1, (m.write id value).2)
  | .read id => (.got (m.read id).1, (m.read id).2)

def machine : Machine DeviceManager Op Response := ⟨exec⟩

def track (values : List RegisterValue) : DeviceManager × Op → List RegisterValue
  | (m, .write id value) =>
    if id = networkDeviceId ∧ (m.write id value).1.isOk then values ++ [value] else values
  | (m, .read id) => if id = networkDeviceId ∧ (m.read id).1.isOk then values.tail else values

/-- The values successfully written and not yet read, the oldest first. -/
def outstanding (steps : List (DeviceManager × Op)) : List RegisterValue := steps.foldl track []

/-- What a bounded queue owes to a call, if these values are outstanding. -/
def Lawful (capacity : ℕ) (values : List RegisterValue) (m : DeviceManager) : Op → Prop
  | .write id value =>
    id = networkDeviceId → values.length < capacity → (m.write id value).1.isOk
  | .read id =>
    id = networkDeviceId → (∀ value, (m.read id).1 = .ok value → values.head? = some value) ∧
      (values ≠ [] → (m.read id).1.isOk)

theorem outstanding_append (steps : List (DeviceManager × Op)) (step : DeviceManager × Op) :
    outstanding (steps ++ [step]) = track (outstanding steps) step := by
  unfold outstanding
  rw [List.foldl_append]
  rfl

theorem id_read (device : Device) : device.read.2.id = device.id := by
  cases device <;> rfl

theorem id_write (device : Device) (value : RegisterValue) :
    (device.write value).2.id = device.id := by
  cases device <;> rfl

theorem find_replace {id id' : DeviceId} {device : Device} {devices : List Device}
    (hid : device.id = id) :
    (replace id device devices).find? (fun d => d.id = id') =
      if id' = id ∧ (devices.find? fun d => d.id = id).isSome then some device
      else devices.find? fun d => d.id = id' := by
  induction devices with
  | nil => simp [replace]
  | cons first devices ih =>
    unfold replace
    by_cases hfirst : first.id = id
    · by_cases hid' : id' = id
      · simp [hfirst, hid, hid']
      · have hne : ¬ id = id' := fun h => hid' h.symm
        simp [hfirst, hid, hid', hne]
    · by_cases hid' : first.id = id'
      · have hne : ¬ id' = id := fun h => hfirst (hid'.trans h)
        simp [hid', hne]
      · simp [hfirst, hid', ih]

theorem findDevice_write_ne (m : DeviceManager) {id id' : DeviceId} (hne : id' ≠ id)
    (value : RegisterValue) : (m.write id value).2.findDevice id' = m.findDevice id' := by
  unfold write
  cases hfind : m.findDevice id with
  | none => rfl
  | some device =>
    have hid : device.id = id := by simpa using List.find?_some hfind
    dsimp only
    split_ifs
    · rfl
    · simp only [findDevice, find_replace ((id_write device value).trans hid), hne, false_and,
        ↓reduceIte]

theorem findDevice_read_ne (m : DeviceManager) {id id' : DeviceId} (hne : id' ≠ id) :
    (m.read id).2.findDevice id' = m.findDevice id' := by
  unfold read
  cases hfind : m.findDevice id with
  | none => rfl
  | some device =>
    have hid : device.id = id := by simpa using List.find?_some hfind
    dsimp only
    split_ifs
    · rfl
    · simp only [findDevice, find_replace ((id_read device).trans hid), hne, false_and, ↓reduceIte]

structure Holds (m : DeviceManager) (capacity : ℕ) (values : List RegisterValue) : Prop where
  found : m.findDevice networkDeviceId = some (.network ⟨capacity, values⟩)
  fits : values.length ≤ capacity

section Holds
variable {m : DeviceManager} {capacity : ℕ} {values : List RegisterValue}

theorem Holds.found_replace (h : m.Holds capacity values) (device : NetworkDevice) :
    findDevice { m with devices := replace networkDeviceId (.network device) m.devices }
      networkDeviceId = some (.network device) := by
  have hsome : (m.devices.find? fun d => d.id = networkDeviceId).isSome = true :=
    Option.isSome_iff_exists.mpr ⟨_, h.found⟩
  have hid : (Device.network device).id = networkDeviceId := rfl
  rw [findDevice, find_replace hid, if_pos ⟨rfl, hsome⟩]

theorem Holds.write_of_room (h : m.Holds capacity values) (hroom : values.length < capacity)
    (value : RegisterValue) :
    m.write networkDeviceId value = (.ok (), { m with
      devices := replace networkDeviceId (.network ⟨capacity, values ++ [value]⟩) m.devices }) := by
  have hnot : ¬ values.length ≥ capacity := Nat.not_le.mpr hroom
  simp [write, h.found, Device.isReady, NetworkDevice.isReady, hroom, Device.write,
    NetworkDevice.write, hnot]

theorem Holds.read_of_room (h : m.Holds capacity values) (hroom : values.length < capacity) :
    m.read networkDeviceId = (values.head?.elim (.error .bufferEmpty) .ok, { m with
      devices := replace networkDeviceId (.network ⟨capacity, values.tail⟩) m.devices }) := by
  simp only [read, h.found, Device.isReady, NetworkDevice.isReady, hroom, decide_true,
    Bool.not_true,
    Bool.false_eq_true, ↓reduceIte, Device.read, NetworkDevice.read]
  cases values <;> rfl

theorem Holds.of_full (h : m.Holds capacity values) (hfull : ¬ values.length < capacity) :
    (∀ value, m.write networkDeviceId value = (.error .deviceError, m)) ∧
      m.read networkDeviceId = (.error .deviceError, m) := by
  simp [write, read, h.found, Device.isReady, NetworkDevice.isReady, hfull]

theorem Holds.next (h : m.Holds capacity values) (op : Op) :
    (machine.next m op).Holds capacity (track values (m, op)) := by
  cases op with
  | write id value =>
    have hstep : machine.next m (.write id value) = (m.write id value).2 := rfl
    rw [hstep, track]
    by_cases hid : id = networkDeviceId
    · subst hid
      by_cases hroom : values.length < capacity
      · rw [h.write_of_room hroom, if_pos ⟨rfl, rfl⟩]
        exact ⟨h.found_replace _, by simp; omega⟩
      · rw [(h.of_full hroom).1, if_neg (by simp)]
        exact h
    · rw [if_neg fun hand => hid hand.1]
      exact ⟨(findDevice_write_ne m (Ne.symm hid) value).trans h.found, h.fits⟩
  | read id =>
    have hstep : machine.next m (.read id) = (m.read id).2 := rfl
    rw [hstep, track]
    by_cases hid : id = networkDeviceId
    · subst hid
      by_cases hroom : values.length < capacity
      · rw [h.read_of_room hroom]
        cases values with
        | nil => exact ⟨h.found_replace _, h.fits⟩
        | cons value values =>
          exact ⟨h.found_replace _, by simp at hroom ⊢; omega⟩
      · rw [(h.of_full hroom).2, if_neg (by simp)]
        exact h
    · rw [if_neg fun hand => hid hand.1]
      exact ⟨(findDevice_read_ne m (Ne.symm hid)).trans h.found, h.fits⟩

theorem Holds.lawful_iff (h : m.Holds capacity values) (hpos : 1 ≤ capacity) (op : Op) :
    Lawful capacity values m op ↔ (op = .read networkDeviceId → values.length ≠ capacity) := by
  cases op with
  | write id value =>
    refine iff_of_true ?_ (by simp)
    rintro rfl hroom
    rw [h.write_of_room hroom]
    rfl
  | read id =>
    by_cases hid : id = networkDeviceId
    · subst hid
      by_cases hroom : values.length < capacity
      · refine iff_of_true (fun _ => ?_) fun _ => Nat.ne_of_lt hroom
        rw [h.read_of_room hroom]
        cases values with
        | nil => simp
        | cons value values => simp
      · have hfull : values.length = capacity := Nat.le_antisymm h.fits (Nat.not_lt.mp hroom)
        refine iff_of_false (fun hlaw => ?_) fun hne => hne rfl hfull
        have hsome : values ≠ [] := List.ne_nil_of_length_pos (by omega)
        have hok := (hlaw rfl).2 hsome
        rw [(h.of_full hroom).2] at hok
        cases hok
    · exact iff_of_true (fun hid' => absurd hid' hid) fun hop => absurd (Op.read.inj hop) hid

end Holds

theorem run_holds {m : DeviceManager} {capacity : ℕ}
    (hnew : m.findDevice networkDeviceId = some (.network ⟨capacity, []⟩)) (ops : List Op) :
    (machine.run m ops).Holds capacity (outstanding (machine.steps m ops)) := by
  induction ops using List.reverseRecOn with
  | nil => exact ⟨hnew, Nat.zero_le _⟩
  | append_singleton ops op ih =>
    rw [machine.run_append, machine.steps_append, outstanding_append]
    exact ih.next op

/-- In a run of calls on a manager with a new network device of positive capacity, every call is
answered as by a bounded queue if and only if no read is made while the queue is full. -/
theorem network_fifo_iff {m : DeviceManager} {capacity : ℕ} (hpos : 1 ≤ capacity)
    (hnew : m.findDevice networkDeviceId = some (.network ⟨capacity, []⟩)) (ops : List Op) :
    (∀ before op after, ops = before ++ op :: after →
      Lawful capacity (outstanding (machine.steps m before)) (machine.run m before) op) ↔
    ∀ before op after, ops = before ++ op :: after → op = .read networkDeviceId →
      (outstanding (machine.steps m before)).length ≠ capacity := by
  refine forall_congr' fun before => forall_congr' fun op => forall_congr' fun after => ?_
  exact imp_congr_right fun _ => (run_holds hnew before).lawful_iff hpos op

theorem network_fifo_iff_two :
    let m : DeviceManager := (registerDevice {} (.network ⟨2, []⟩)).2
    let ops : List Op :=
      [.write networkDeviceId 10, .read networkDeviceId, .write networkDeviceId 20]
    ∀ before op after, ops = before ++ op :: after →
      Lawful 2 (outstanding (machine.steps m before)) (machine.run m before) op := by
  intro m ops
  refine (network_fifo_iff (by decide) rfl ops).mpr fun before op after heq hop => ?_
  -- the only read comes after the first write
  have hbefore : before = [.write networkDeviceId 10] := by
    subst hop
    rcases before with _ | ⟨first, _ | ⟨second, _ | ⟨third, before⟩⟩⟩
    · exact Op.noConfusion (List.cons.inj heq).1
    · rw [← (List.cons.inj heq).1]
    · exact Op.noConfusion (List.cons.inj (List.cons.inj (List.cons.inj heq).2).2).1
    · have hlength := congrArg List.length heq
      simp [ops] at hlength
  rw [hbefore]
  decide

/-- A device for one value cannot be read once it has it. -/
theorem network_full_unreadable :
    let m : DeviceManager := (registerDevice {} (.network ⟨1, []⟩)).2
    let before : List Op := [.write networkDeviceId 10]
    outstanding (machine.steps m before) = [10] ∧
      ((machine.run m before).read networkDeviceId).1 = .error .deviceError ∧
      ¬ Lawful 1 (outstanding (machine.steps m before)) (machine.run m before)
        (.read networkDeviceId) := by
  intro m before
  have hvalues : outstanding (machine.steps m before) = [10] := by decide
  have hread : ((machine.run m before).read networkDeviceId).1 = .error .deviceError := by decide
  refine ⟨hvalues, hread, fun hlaw => ?_⟩
  have hok := (hlaw rfl).2 (by rw [hvalues]; simp)
  rw [hread] at hok
  cases hok

end DeviceManager
end Contur
