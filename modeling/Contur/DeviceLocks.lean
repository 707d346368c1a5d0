import Mathlib.Data.List.Find
import Contur.DeviceManager
import Contur.Linearization

/-!
# Devices under their locks

The manager looks a device up under the mutex of its registry, together with the mutex
of the device, and asks and calls the device under the latter alone. So a device can be
taken off the registry, or another one get its number, between the two. Each action
here is what a thread does under one of the two mutexes, and the device is asked whether
it is ready and called in two actions: that nobody comes in between is due to the
mutex.
-/

namespace Contur
open Function (update)
open Linearization
open Transition

section Keys
variable {α κ : Type*} [DecidableEq κ] {f : α → κ} {l : List α}

theorem find_concat {a : α} (hnone : (l.find? fun b => f b = f a) = none) (k : κ) :
    ((l ++ [a]).find? fun b => f b = k) = if k = f a then some a else l.find? fun b => f b = k := by
  rw [List.find?_append]
  by_cases hk : k = f a
  · subst hk
    rw [hnone, if_pos rfl, Option.none_or]
    simp
  · have hlast : ([a].find? fun b => f b = k) = none := by
      simpa using Ne.symm hk
    rw [hlast, if_neg hk, Option.or_none]

theorem find_erase (hdistinct : l.Pairwise fun a b => f a ≠ f b) (k k' : κ) :
    ((l.eraseP fun a => f a = k).find? fun a => f a = k') =
      if k' = k then none else l.find? fun a => f a = k' := by
  induction l with
  | nil => simp
  | cons first l ih =>
    obtain ⟨hfirst, hrest⟩ := List.pairwise_cons.mp hdistinct
    by_cases hk : f first = k
    · rw [List.eraseP_cons_of_pos (by simpa using hk)]
      by_cases hk' : k' = k
      · rw [if_pos hk', List.find?_eq_none]
        intro a ha
        have hne := hfirst a ha
        rw [hk, ← hk'] at hne
        simpa using hne.symm
      · rw [if_neg hk', List.find?_cons_of_neg]
        simpa [hk] using Ne.symm hk'
    · rw [List.eraseP_cons_of_neg (by simpa using hk)]
      by_cases hk' : f first = k'
      · have hne : k' ≠ k := hk' ▸ hk
        rw [List.find?_cons_of_pos (by simpa using hk'), if_neg hne,
          List.find?_cons_of_pos (by simpa using hk')]
      · rw [List.find?_cons_of_neg (by simpa using hk'), ih hrest,
          List.find?_cons_of_neg (by simpa using hk')]

end Keys

namespace DeviceManager

inductive Call where
  | write (value : RegisterValue)
  | read
  deriving DecidableEq, Repr

def Call.refused (code : ErrorCode) : Call → Response
  | .write _ => .written (.error code)
  | .read => .got (.error code)

def Call.op (id : DeviceId) : Call → Op
  | .write value => .write id value
  | .read => .read id

def unregisterDevice (m : DeviceManager) (id : DeviceId) : Result Unit × DeviceManager :=
  match m.findDevice id with
  | none => (.error .notFound, m)
  | some _ => (.ok (), { m with devices := m.devices.eraseP fun device => device.id = id })

def hasDevice (m : DeviceManager) (id : DeviceId) : Bool := (m.findDevice id).isSome

inductive Request where
  | register (device : Device)
  | unregister (id : DeviceId)
  | has (id : DeviceId)
  | call (id : DeviceId) (call : Call)
  deriving DecidableEq, Repr

inductive Reply where
  | done (r : Result Unit)
  | found (has : Bool)
  | response (r : Response)
  deriving DecidableEq, Repr

def serve (m : DeviceManager) : Request → Reply × DeviceManager
  | .register device => (.done (m.registerDevice device).1, (m.registerDevice device).2)
  | .unregister id => (.done (m.unregisterDevice id).1, (m.unregisterDevice id).2)
  | .has id => (.found (m.hasDevice id), m)
  | .call id call => (.response (m.exec (call.op id)).1, (m.exec (call.op id)).2)

def server : Machine DeviceManager Request Reply := ⟨serve⟩

end DeviceManager

open DeviceManager (Call Request Reply Response)

namespace Device

def serve (device : Device) : Call → Response × Device
  | .write value => (.written (device.write value).1, (device.write value).2)
  | .read => (.got device.read.1, device.read.2)

def attempt (device : Device) (call : Call) : Response × Device :=
  if device.isReady then device.serve call else (call.refused .deviceError, device)

def machine : Machine Device Call Response := ⟨attempt⟩

theorem id_serve (device : Device) (call : Call) : (device.serve call).2.id = device.id := by
  cases call with
  | write value => exact DeviceManager.id_write device value
  | read => exact DeviceManager.id_read device

theorem id_attempt (device : Device) (call : Call) : (device.attempt call).2.id = device.id := by
  unfold attempt
  split_ifs
  · exact device.id_serve call
  · rfl

end Device

/-- Whether a caller has the mutex of its device, and has found the device ready. -/
inductive Phase where
  | looked
  | locked
  | ready
  deriving DecidableEq, Repr

structure Visit where
  id : DeviceId
  call : Call
  device : ℕ
  mutex : ℕ
  phase : Phase := .looked
  began : ℕ

/-- Devices and mutexes are numbered as they are made. A device that is off the registry lives on
for those who have a pointer to it. -/
structure LockedManager (θ : Type*) where
  devices : List ℕ := []
  objects : List Device := []
  deviceLocks : DeviceId → Option ℕ := fun _ => none
  mutexes : ℕ := 0
  owner : ℕ → Option θ := fun _ => none
  visits : θ → Option Visit := fun _ => none
  history : List (Entry Request Reply) := []

namespace LockedManager
variable {θ : Type*}

inductive Action (θ : Type*) where
  | registerDevice (device : Device)
  | unregisterDevice (id : DeviceId)
  | hasDevice (id : DeviceId)
  | enter (thread : θ) (id : DeviceId) (call : Call)
  | lock (thread : θ)
  | check (thread : θ)
  | finish (thread : θ)

def idOf (m : LockedManager θ) (device : ℕ) : Option DeviceId := m.objects[device]?.map Device.id

def findDevice (m : LockedManager θ) (id : DeviceId) : Option ℕ :=
  m.devices.find? fun device => m.idOf device = some id

def note (m : LockedManager θ) (request : Request) (reply : Reply) : LockedManager θ :=
  { m with history := m.history ++ [⟨request, reply, m.history.length, m.history.length⟩] }

def tryEmplace (m : LockedManager θ) (id : DeviceId) : LockedManager θ :=
  match m.deviceLocks id with
  | some _ => m
  | none => { m with
      deviceLocks := update m.deviceLocks id (some m.mutexes)
      mutexes := m.mutexes + 1 }

def lockableDevice (m : LockedManager θ) (id : DeviceId) : Option (ℕ × ℕ) × LockedManager θ :=
  match m.findDevice id with
  | none => (none, m)
  | some device => (((m.tryEmplace id).deviceLocks id).map (device, ·), m.tryEmplace id)

def registerDevice (m : LockedManager θ) (device : Device) : LockedManager θ :=
  match m.findDevice device.id with
  | some _ => m.note (.register device) (.done (.error .alreadyExists))
  | none =>
    let pushed : LockedManager θ := { m with
      devices := m.devices ++ [m.objects.length]
      objects := m.objects ++ [device] }
    (pushed.tryEmplace device.id).note (.register device) (.done (.ok ()))

def unregisterDevice (m : LockedManager θ) (id : DeviceId) : LockedManager θ :=
  match m.findDevice id with
  | none => m.note (.unregister id) (.done (.error .notFound))
  | some _ =>
    let erased : LockedManager θ := { m with
      devices := m.devices.eraseP fun device => m.idOf device = some id
      deviceLocks := update m.deviceLocks id none }
    erased.note (.unregister id) (.done (.ok ()))

section Threads
variable [DecidableEq θ]

/-- A thread in a call starts no other. -/
def enter (m : LockedManager θ) (thread : θ) (id : DeviceId) (call : Call) : LockedManager θ :=
  match m.visits thread, m.lockableDevice id with
  | some _, _ => m
  | none, (none, m') => m'.note (.call id call) (.response (call.refused .notFound))
  | none, (some (device, mutex), m') => { m' with
      visits := update m'.visits thread (some
        { id := id, call := call, device := device, mutex := mutex, began := m'.history.length }) }

def lock (m : LockedManager θ) (thread : θ) : LockedManager θ :=
  match m.visits thread with
  | none => m
  | some v =>
    if v.phase = .looked ∧ m.owner v.mutex = none then { m with
      owner := update m.owner v.mutex (some thread)
      visits := update m.visits thread (some { v with phase := .locked }) }
    else m

def leave (m : LockedManager θ) (thread : θ) (v : Visit) (response : Response)
    (objects : List Device) : LockedManager θ :=
  { m with
    objects := objects
    owner := update m.owner v.mutex none
    visits := update m.visits thread none
    history := m.history ++ [⟨.call v.id v.call, .response response, v.began, m.history.length⟩] }

def check (m : LockedManager θ) (thread : θ) : LockedManager θ :=
  match m.visits thread with
  | none => m
  | some v =>
    match v.phase, m.objects[v.device]? with
    | .locked, some device =>
      if device.isReady then
        { m with visits := update m.visits thread (some { v with phase := .ready }) }
      else m.leave thread v (v.call.refused .deviceError) m.objects
    | _, _ => m

def finish (m : LockedManager θ) (thread : θ) : LockedManager θ :=
  match m.visits thread with
  | none => m
  | some v =>
    match v.phase, m.objects[v.device]? with
    | .ready, some device =>
      m.leave thread v (device.serve v.call).1 (m.objects.set v.device (device.serve v.call).2)
    | _, _ => m

def next (m : LockedManager θ) : Action θ → LockedManager θ
  | .registerDevice device => m.registerDevice device
  | .unregisterDevice id => m.unregisterDevice id
  | .hasDevice id => m.note (.has id) (.found (m.findDevice id).isSome)
  | .enter thread id call => m.enter thread id call
  | .lock thread => m.lock thread
  | .check thread => m.check thread
  | .finish thread => m.finish thread

def machine : Machine (LockedManager θ) (Action θ) Unit := ⟨fun m action => ((), m.next action)⟩

end Threads

section Registry
variable {m : LockedManager θ} {id id' : DeviceId} {o : ℕ} {device : Device} {thread thread' : θ}
  {v v' : Visit}

theorem findDevice_eq_some (h : m.findDevice id = some o) : o ∈ m.devices ∧ m.idOf o = some id :=
  ⟨List.mem_of_find?_eq_some h, by simpa using List.find?_some h⟩

theorem not_mem_erased (hdistinct : m.devices.Pairwise fun a b => m.idOf a ≠ m.idOf b)
    (ho : o ∈ m.devices.eraseP fun device => m.idOf device = some id) : m.idOf o ≠ some id := by
  have hnone := find_erase hdistinct (some id) (some id)
  rw [if_pos rfl, List.find?_eq_none] at hnone
  simpa using hnone o ho

theorem tryEmplace_spec (m : LockedManager θ) (id : DeviceId) :
    ∃ locks mutexes, m.tryEmplace id = { m with deviceLocks := locks, mutexes := mutexes } ∧
      (∃ mutex, locks id = some mutex) ∧
      ∀ id' mutex, m.deviceLocks id' = some mutex → locks id' = some mutex := by
  unfold tryEmplace
  cases hlock : m.deviceLocks id with
  | some mutex => exact ⟨m.deviceLocks, m.mutexes, rfl, ⟨mutex, hlock⟩, fun _ _ h => h⟩
  | none =>
    refine ⟨_, _, rfl, ⟨m.mutexes, Function.update_self _ _ _⟩, fun id' mutex h => ?_⟩
    have hne : id' ≠ id := by
      rintro rfl
      rw [hlock] at h
      cases h
    exact (Function.update_of_ne hne _ _).trans h

structure Visiting (m : LockedManager θ) (lockOf : ℕ → ℕ) (thread : θ) (v : Visit) : Prop where
  device : v.device < m.objects.length
  mutex : v.mutex = lockOf v.device
  owned : v.phase ≠ .looked → m.owner v.mutex = some thread
  ready : v.phase = .ready → ∃ device, m.objects[v.device]? = some device ∧ device.isReady = true

structure Inv (m : LockedManager θ) (lockOf : ℕ → ℕ) : Prop where
  valid : ∀ o ∈ m.devices, o < m.objects.length
  distinct : m.devices.Pairwise fun a b => m.idOf a ≠ m.idOf b
  locks : ∀ o ∈ m.devices, ∀ id, m.idOf o = some id → m.deviceLocks id = some (lockOf o)
  visiting : ∀ thread v, m.visits thread = some v → m.Visiting lockOf thread v

variable {lockOf : ℕ → ℕ}

theorem Inv.note (h : m.Inv lockOf) (request : Request) (reply : Reply) :
    (m.note request reply).Inv lockOf :=
  ⟨h.valid, h.distinct, h.locks, fun thread v hv =>
    ⟨(h.visiting thread v hv).device, (h.visiting thread v hv).mutex,
      (h.visiting thread v hv).owned,
      (h.visiting thread v hv).ready⟩⟩

theorem Inv.lockableDevice (h : m.Inv lockOf) (hfind : m.findDevice id = some o) :
    m.lockableDevice id = (some (o, lockOf o), m) := by
  obtain ⟨hmem, hid⟩ := findDevice_eq_some hfind
  have hlock := h.locks o hmem id hid
  have hsame : m.tryEmplace id = m := by rw [tryEmplace, hlock]
  simp only [LockedManager.lockableDevice, hfind, hsame, hlock, Option.map_some]

theorem registerDevice_of_none (hfind : m.findDevice device.id = none) :
    ∃ locks mutexes mutex, m.registerDevice device = { m with
        devices := m.devices ++ [m.objects.length]
        objects := m.objects ++ [device]
        deviceLocks := locks
        mutexes := mutexes
        history := m.history ++
          [⟨.register device, .done (.ok ()), m.history.length, m.history.length⟩] } ∧
      locks device.id = some mutex ∧
      ∀ id mutex, m.deviceLocks id = some mutex → locks id = some mutex := by
  obtain ⟨locks, mutexes, hsame, ⟨mutex, hmutex⟩, hlocks⟩ := tryEmplace_spec
    { m with
      devices := m.devices ++ [m.objects.length]
      objects := m.objects ++ [device] } device.id
  refine ⟨locks, mutexes, mutex, ?_, hmutex, hlocks⟩
  simp only [registerDevice, hfind, hsame]
  rfl

theorem unregisterDevice_of_some (hfind : m.findDevice id = some o) :
    m.unregisterDevice id = { m with
      devices := m.devices.eraseP fun device => m.idOf device = some id
      deviceLocks := update m.deviceLocks id none
      history := m.history ++
        [⟨.unregister id, .done (.ok ()), m.history.length, m.history.length⟩] } := by
  simp only [unregisterDevice, hfind]
  rfl

theorem getElem?_append (ho : o < m.objects.length) (device : Device) :
    (m.objects ++ [device])[o]? = m.objects[o]? :=
  List.getElem?_append_left ho

theorem idOf_append (ho : o < m.objects.length) (device : Device) :
    (m.objects ++ [device])[o]?.map Device.id = m.idOf o :=
  congrArg (Option.map Device.id) (getElem?_append ho device)

theorem idOf_append_self (m : LockedManager θ) (device : Device) :
    (m.objects ++ [device])[m.objects.length]?.map Device.id = some device.id := by
  rw [List.getElem?_concat_length]
  rfl

theorem Inv.find_append (h : m.Inv lockOf) (hfind : m.findDevice device.id = none) (id : DeviceId) :
    ((m.devices ++ [m.objects.length]).find? fun o =>
        (m.objects ++ [device])[o]?.map Device.id = some id) =
      if id = device.id then some m.objects.length else m.findDevice id := by
  have hold : ∀ id, (m.devices.find? fun o => (m.objects ++ [device])[o]?.map Device.id = some id) =
      m.findDevice id := by
    intro id
    refine List.find?_congr fun o ho => ?_
    rw [idOf_append (h.valid o ho)]
  have hself := idOf_append_self m device
  have hnone : (m.devices.find? fun o => (m.objects ++ [device])[o]?.map Device.id =
      (m.objects ++ [device])[m.objects.length]?.map Device.id) = none := by
    rw [hself, hold]
    exact hfind
  refine (find_concat (f := fun o : ℕ => (m.objects ++ [device])[o]?.map Device.id) hnone
    (some id)).trans ?_
  rw [hself, hold]
  simp only [Option.some.injEq]

theorem Inv.registerDevice (h : m.Inv lockOf) (device : Device) :
    ∃ lockOf', (m.registerDevice device).Inv lockOf' := by
  cases hfind : m.findDevice device.id with
  | some o =>
    simp only [LockedManager.registerDevice, hfind]
    exact ⟨lockOf, h.note _ _⟩
  | none =>
    obtain ⟨locks, mutexes, mutex, hsame, hmutex, hlocks⟩ := registerDevice_of_none hfind
    rw [hsame]
    have hold : ∀ {o}, o < m.objects.length →
        update lockOf m.objects.length mutex o = lockOf o := fun ho =>
      Function.update_of_ne (Nat.ne_of_lt ho) _ _
    refine ⟨update lockOf m.objects.length mutex, ⟨?_, ?_, ?_, ?_⟩⟩
    · intro o ho
      rw [List.length_append, List.length_singleton]
      rcases List.mem_append.mp ho with ho | ho
      · exact Nat.lt_succ_of_lt (h.valid o ho)
      · exact (List.mem_singleton.mp ho).symm ▸ Nat.lt_succ_self _
    · rw [List.pairwise_append]
      refine ⟨h.distinct.imp_of_mem fun {a b} ha hb hab => ?_, List.pairwise_singleton _ _,
        fun a ha b hb => ?_⟩
      · unfold idOf
        rwa [idOf_append (h.valid a ha), idOf_append (h.valid b hb)]
      · rw [List.mem_singleton.mp hb]
        unfold idOf
        rw [idOf_append (h.valid a ha), idOf_append_self]
        simpa using List.find?_eq_none.mp hfind a ha
    · intro o ho id hid
      change (m.objects ++ [device])[o]?.map Device.id = some id at hid
      rcases List.mem_append.mp ho with ho | ho
      · rw [idOf_append (h.valid o ho)] at hid
        rw [hold (h.valid o ho)]
        exact hlocks id _ (h.locks o ho id hid)
      · rw [List.mem_singleton.mp ho] at hid ⊢
        rw [idOf_append_self] at hid
        rw [Function.update_self, ← Option.some.inj hid]
        exact hmutex
    · intro thread v hv
      have hvisiting := h.visiting thread v hv
      refine ⟨?_, hvisiting.mutex.trans (hold hvisiting.device).symm, hvisiting.owned,
        fun hready => ?_⟩
      · rw [List.length_append]
        exact Nat.lt_add_right _ hvisiting.device
      · obtain ⟨found, hfound, hisready⟩ := hvisiting.ready hready
        exact ⟨found, (getElem?_append hvisiting.device device).trans hfound, hisready⟩

theorem Inv.unregisterDevice (h : m.Inv lockOf) (id : DeviceId) :
    (m.unregisterDevice id).Inv lockOf := by
  cases hfind : m.findDevice id with
  | none =>
    simp only [LockedManager.unregisterDevice, hfind]
    exact h.note _ _
  | some o =>
    rw [unregisterDevice_of_some hfind]
    refine ⟨fun o ho => h.valid o (List.mem_of_mem_eraseP ho),
      h.distinct.sublist List.eraseP_sublist, fun o' ho' id' hid' => ?_,
      fun thread v hv => ⟨(h.visiting thread v hv).device, (h.visiting thread v hv).mutex,
        (h.visiting thread v hv).owned, (h.visiting thread v hv).ready⟩⟩
    have hne : id' ≠ id := by
      rintro rfl
      exact not_mem_erased h.distinct ho' hid'
    exact (Function.update_of_ne hne _ _).trans (h.locks o' (List.mem_of_mem_eraseP ho') id' hid')

theorem idOf_set (hdevice : m.objects[o]? = some device) {served : Device}
    (hid : served.id = device.id)
    (o' : ℕ) : (m.objects.set o served)[o']?.map Device.id = m.idOf o' := by
  by_cases hne : o' = o
  · subst hne
    have hlt := (List.getElem?_eq_some_iff.mp hdevice).1
    rw [List.getElem?_set_self hlt, idOf, hdevice, Option.map_some, Option.map_some, hid]
  · rw [List.getElem?_set_ne (Ne.symm hne), idOf]

theorem Visiting.exclusive (h : m.Visiting lockOf thread v) (h' : m.Visiting lockOf thread' v')
    (hphase : v.phase ≠ .looked) (hphase' : v'.phase ≠ .looked) (hmutex : v.mutex = v'.mutex) :
    thread = thread' := by
  have howner : m.owner v.mutex = some thread' := hmutex ▸ h'.owned hphase'
  exact Option.some.inj ((h.owned hphase).symm.trans howner)

end Registry

section Calls
variable [DecidableEq θ] {m : LockedManager θ} {lockOf : ℕ → ℕ} {thread thread' : θ} {v v' : Visit}
  {id : DeviceId} {o : ℕ} {call : Call} {device : Device} {objects : List Device}

theorem lock_cases (m : LockedManager θ) (thread : θ) :
    m.lock thread = m ∨ ∃ v, m.visits thread = some v ∧ v.phase = .looked ∧ m.owner v.mutex = none ∧
      m.lock thread = { m with
        owner := update m.owner v.mutex (some thread)
        visits := update m.visits thread (some { v with phase := .locked }) } := by
  unfold lock
  cases hvisit : m.visits thread with
  | none => exact Or.inl rfl
  | some v =>
    by_cases hfree : v.phase = .looked ∧ m.owner v.mutex = none
    · exact Or.inr ⟨v, rfl, hfree.1, hfree.2, if_pos hfree⟩
    · exact Or.inl (if_neg hfree)

theorem check_cases (m : LockedManager θ) (thread : θ) :
    m.check thread = m ∨ ∃ v device, m.visits thread = some v ∧ v.phase = .locked ∧
      m.objects[v.device]? = some device ∧
      ((device.isReady = true ∧ m.check thread =
          { m with visits := update m.visits thread (some { v with phase := .ready }) }) ∨
        (device.isReady = false ∧
          m.check thread = m.leave thread v (v.call.refused .deviceError) m.objects)) := by
  unfold check
  cases hvisit : m.visits thread with
  | none => exact Or.inl rfl
  | some v =>
    dsimp only
    split
    · next device hphase hdevice =>
      refine Or.inr ⟨v, device, rfl, hphase, hdevice, ?_⟩
      cases hready : device.isReady with
      | true => exact Or.inl ⟨rfl, rfl⟩
      | false => exact Or.inr ⟨rfl, rfl⟩
    · exact Or.inl rfl

theorem finish_cases (m : LockedManager θ) (thread : θ) :
    m.finish thread = m ∨ ∃ v device, m.visits thread = some v ∧ v.phase = .ready ∧
      m.objects[v.device]? = some device ∧
      m.finish thread = m.leave thread v (device.serve v.call).1
        (m.objects.set v.device (device.serve v.call).2) := by
  unfold finish
  cases hvisit : m.visits thread with
  | none => exact Or.inl rfl
  | some v =>
    dsimp only
    split
    · next device hphase hdevice => exact Or.inr ⟨v, device, rfl, hphase, hdevice, rfl⟩
    · exact Or.inl rfl

theorem visits_update (h : update m.visits thread (some v) thread' = some v') :
    (thread' = thread ∧ v' = v) ∨ (thread' ≠ thread ∧ m.visits thread' = some v') := by
  by_cases hne : thread' = thread
  · rw [hne, Function.update_self, Option.some.injEq] at h
    exact Or.inl ⟨hne, h.symm⟩
  · rw [Function.update_of_ne hne] at h
    exact Or.inr ⟨hne, h⟩

theorem Inv.enter (h : m.Inv lockOf) (thread : θ) (id : DeviceId) (call : Call) :
    (m.enter thread id call).Inv lockOf := by
  unfold LockedManager.enter
  cases hvisit : m.visits thread with
  | some v => exact h
  | none =>
    cases hfind : m.findDevice id with
    | none =>
      simp only [LockedManager.lockableDevice, hfind]
      exact h.note _ _
    | some o =>
      rw [h.lockableDevice hfind]
      refine ⟨h.valid, h.distinct, h.locks, fun thread' v' hv' => ?_⟩
      rcases visits_update hv' with ⟨-, rfl⟩ | ⟨-, hv'⟩
      · exact ⟨h.valid o (findDevice_eq_some hfind).1, rfl, fun hphase => absurd rfl hphase,
          fun hready => by cases hready⟩
      · exact ⟨(h.visiting thread' v' hv').device, (h.visiting thread' v' hv').mutex,
          (h.visiting thread' v' hv').owned, (h.visiting thread' v' hv').ready⟩

theorem Inv.lock (h : m.Inv lockOf) (thread : θ) : (m.lock thread).Inv lockOf := by
  rcases m.lock_cases thread with hsame | ⟨v, hvisit, -, hfree, hsame⟩
  · rwa [hsame]
  · rw [hsame]
    refine ⟨h.valid, h.distinct, h.locks, fun thread' v' hv' => ?_⟩
    rcases visits_update hv' with ⟨rfl, rfl⟩ | ⟨hne, hv'⟩
    · exact ⟨(h.visiting thread' v hvisit).device, (h.visiting thread' v hvisit).mutex,
        fun _ => Function.update_self _ _ _, fun hready => by cases hready⟩
    · have hvisiting := h.visiting thread' v' hv'
      refine ⟨hvisiting.device, hvisiting.mutex, fun hphase => ?_, hvisiting.ready⟩
      have hother : v'.mutex ≠ v.mutex := by
        intro hmutex
        have howner := hvisiting.owned hphase
        rw [hmutex, hfree] at howner
        cases howner
      exact (Function.update_of_ne hother _ _).trans (hvisiting.owned hphase)

theorem Inv.leave (h : m.Inv lockOf) (hv : m.visits thread = some v) (hphase : v.phase ≠ .looked)
    (response : Response) (hlength : objects.length = m.objects.length)
    (hids : ∀ o : ℕ, objects[o]?.map Device.id = m.idOf o)
    (hothers : ∀ o, o ≠ v.device → objects[o]? = m.objects[o]?) :
    (m.leave thread v response objects).Inv lockOf := by
  have hself := h.visiting thread v hv
  refine ⟨fun o ho => hlength ▸ h.valid o ho, h.distinct.imp fun {a b} hab => ?_,
    fun o ho id hid => h.locks o ho id ((hids o).symm.trans hid), fun thread' v' hv' => ?_⟩
  · change objects[a]?.map Device.id ≠ objects[b]?.map Device.id
    rwa [hids, hids]
  · change update m.visits thread none thread' = some v' at hv'
    have hne : thread' ≠ thread := by
      rintro rfl
      rw [Function.update_self] at hv'
      cases hv'
    have hvisit : m.visits thread' = some v' := (Function.update_of_ne hne _ _).symm.trans hv'
    have hvisiting := h.visiting thread' v' hvisit
    refine ⟨hlength ▸ hvisiting.device, hvisiting.mutex, fun hphase' => ?_, fun hready => ?_⟩
    · have hother : v'.mutex ≠ v.mutex := fun hmutex =>
        hne (hvisiting.exclusive hself hphase' hphase hmutex)
      exact (Function.update_of_ne hother _ _).trans (hvisiting.owned hphase')
    · have hphase' : v'.phase ≠ .looked := by
        rw [hready]
        decide
      have hother : v'.device ≠ v.device := by
        intro hdevice
        refine hne (hvisiting.exclusive hself hphase' hphase ?_)
        rw [hvisiting.mutex, hself.mutex, hdevice]
      obtain ⟨device, hdevice, hisready⟩ := hvisiting.ready hready
      exact ⟨device, (hothers _ hother).trans hdevice, hisready⟩

theorem Inv.check (h : m.Inv lockOf) (thread : θ) : (m.check thread).Inv lockOf := by
  rcases m.check_cases thread with hsame | ⟨v, device, hvisit, hphase, hdevice, hcheck⟩
  · rwa [hsame]
  · have hself := h.visiting thread v hvisit
    have hnot : v.phase ≠ .looked := by
      rw [hphase]
      decide
    rcases hcheck with ⟨hready, hsame⟩ | ⟨hready, hsame⟩
    · rw [hsame]
      refine ⟨h.valid, h.distinct, h.locks, fun thread' v' hv' => ?_⟩
      rcases visits_update hv' with ⟨rfl, rfl⟩ | ⟨-, hv'⟩
      · exact ⟨hself.device, hself.mutex, fun _ => hself.owned hnot, fun _ =>
          ⟨device, hdevice, hready⟩⟩
      · exact ⟨(h.visiting thread' v' hv').device, (h.visiting thread' v' hv').mutex,
          (h.visiting thread' v' hv').owned, (h.visiting thread' v' hv').ready⟩
    · rw [hsame]
      exact h.leave hvisit hnot _ rfl (fun _ => rfl) fun _ _ => rfl

theorem Inv.finish (h : m.Inv lockOf) (thread : θ) : (m.finish thread).Inv lockOf := by
  rcases m.finish_cases thread with hsame | ⟨v, device, hvisit, hphase, hdevice, hsame⟩
  · rwa [hsame]
  · have hnot : v.phase ≠ .looked := by
      rw [hphase]
      decide
    rw [hsame]
    exact h.leave hvisit hnot _ List.length_set (idOf_set hdevice (device.id_serve v.call))
      fun o hne => List.getElem?_set_ne (Ne.symm hne)

theorem Inv.next (h : m.Inv lockOf) (action : Action θ) : ∃ lockOf',
    (m.next action).Inv lockOf' := by
  cases action with
  | registerDevice device => exact h.registerDevice device
  | unregisterDevice id => exact ⟨lockOf, h.unregisterDevice id⟩
  | hasDevice id => exact ⟨lockOf, h.note _ _⟩
  | enter thread id call => exact ⟨lockOf, h.enter thread id call⟩
  | lock thread => exact ⟨lockOf, h.lock thread⟩
  | check thread => exact ⟨lockOf, h.check thread⟩
  | finish thread => exact ⟨lockOf, h.finish thread⟩

end Calls

end LockedManager
end Contur
