import Contur.DeviceLocks
import Contur.Linearization

/-!
# Calls of devices one after the other

The manager under its locks does what a registry does whose calls are two actions: what
a thread finds and asks while it has the mutex of its device is as good as one action
at the end of the call. Such calls have an order in which they are one action each, and
in that order the manager of one thread gives the same answers.
-/

namespace Contur
open Function (update)
open Linearization
open Transition
open DeviceManager (Call Request Reply Response)

namespace LockedManager
variable {θ : Type*}

section Sim
variable {m : LockedManager θ} {s : Shared DeviceId Device Call Response θ} {lockOf : ℕ → ℕ}

def request : Op DeviceId Device Call → Request
  | .register _ device => .register device
  | .unregister id => .unregister id
  | .has id => .has id
  | .call id call => .call id call

def reply : Op DeviceId Device Call → Answer Response → Reply
  | .register _ _, .done true => .done (.ok ())
  | .register _ _, _ => .done (.error .alreadyExists)
  | .unregister _, .done true => .done (.ok ())
  | .unregister _, _ => .done (.error .notFound)
  | .has _, .done has => .found has
  | .has _, _ => .found false
  | .call _ _, .called (some response) => .response response
  | .call _ call, _ => .response (call.refused .notFound)

def entry (e : Entry (Op DeviceId Device Call) (Answer Response)) : Entry Request Reply :=
  ⟨request e.op, reply e.op e.answer, e.began, e.ended⟩

def Own (e : Entry (Op DeviceId Device Call) (Answer Response)) : Prop :=
  ∀ id device, e.op = .register id device → id = device.id

def pendingOf (v : Visit) : Pending DeviceId Call := ⟨v.device, v.id, v.call, v.began⟩

structure Sim (m : LockedManager θ) (s : Shared DeviceId Device Call Response θ) : Prop where
  registry : ∀ id, s.registry id = m.findDevice id
  objects : s.objects = m.objects
  pending : ∀ thread, s.pending thread = (m.visits thread).map pendingOf
  history : s.history.map entry = m.history
  own : ∀ e ∈ s.history, Own e

theorem Sim.length (h : Sim m s) : s.history.length = m.history.length := by
  rw [← h.history, List.length_map]

theorem Sim.history_concat (h : Sim m s) {e : Entry (Op DeviceId Device Call) (Answer Response)}
    {e' : Entry Request Reply} (he : entry e = e') (how : Own e) :
    (s.history ++ [e]).map entry = m.history ++ [e'] ∧ ∀ x ∈ s.history ++ [e], Own x := by
  refine ⟨?_, fun x hx => ?_⟩
  · rw [List.map_append, h.history, ← he]
    rfl
  · rcases List.mem_append.mp hx with hx | hx
    · exact h.own x hx
    · rw [List.mem_singleton.mp hx]
      exact how

theorem Sim.entry_atOnce (h : Sim m s) {op : Op DeviceId Device Call} {answer : Answer Response} :
    entry (s.atOnce op answer) =
      ⟨request op, reply op answer, m.history.length, m.history.length⟩ := by
  rw [← h.length]
  rfl

theorem Sim.note (h : Sim m s) (op : Op DeviceId Device Call) (answer : Answer Response)
    (how : ∀ id device, op = .register id device → id = device.id) :
    Sim (m.note (request op) (reply op answer))
      { s with history := s.history ++ [s.atOnce op answer] } where
  registry := h.registry
  objects := h.objects
  pending := h.pending
  history := (h.history_concat h.entry_atOnce how).1
  own := (h.history_concat h.entry_atOnce how).2

theorem sim_init : Sim ({} : LockedManager θ) {} where
  registry _ := rfl
  objects := rfl
  pending _ := rfl
  history := rfl
  own e he := by cases he

theorem inv_init : Inv ({} : LockedManager θ) fun _ => 0 where
  valid o ho := by cases ho
  distinct := .nil
  locks o ho := by cases ho
  visiting thread v hv := by cases hv

variable [DecidableEq θ]

theorem Sim.go_on (h : Sim m s) {thread : θ} {v : Visit} (hv : m.visits thread = some v)
    (phase : Phase) (owner : ℕ → Option θ) :
    Sim { m with
      owner := owner
      visits := update m.visits thread (some { v with phase := phase }) } s where
  registry := h.registry
  objects := h.objects
  pending thread' := by
    by_cases hne : thread' = thread
    · simp only [hne, Function.update_self, h.pending, hv, Option.map_some]
      rfl
    · simp only [Function.update_of_ne hne, h.pending]
  history := h.history
  own := h.own

theorem Sim.registerDevice (h : Sim m s) (hinv : m.Inv lockOf) (device : Device) :
    Sim (m.registerDevice device) (s.next Device.machine (.register device.id device)) := by
  have hown : ∀ id first, Op.register (ι := Call) device.id device = .register id first →
      id = first.id := by
    intro id first heq
    obtain ⟨rfl, rfl⟩ := Op.register.inj heq
    rfl
  simp only [Shared.next, h.registry]
  cases hfind : m.findDevice device.id with
  | some o =>
    simp only [LockedManager.registerDevice, hfind]
    exact h.note (.register device.id device) (.done false) hown
  | none =>
    obtain ⟨locks, mutexes, mutex, hsame, -, -⟩ := registerDevice_of_none hfind
    rw [hsame]
    refine ⟨fun id => ?_, congrArg (· ++ [device]) h.objects, h.pending,
      (h.history_concat h.entry_atOnce hown).1, (h.history_concat h.entry_atOnce hown).2⟩
    refine Eq.trans ?_ (hinv.find_append hfind id).symm
    change update s.registry device.id (some s.objects.length) id = _
    rw [Function.update_apply, h.objects, h.registry]

theorem Sim.unregisterDevice (h : Sim m s) (hinv : m.Inv lockOf) (id : DeviceId) :
    Sim (m.unregisterDevice id) (s.next Device.machine (.unregister id)) := by
  have hown : ∀ id' first, Op.unregister (σ := Device) (ι := Call) id = .register id' first →
      id' = first.id := by
    intro id' first heq
    cases heq
  simp only [Shared.next, h.registry]
  cases hfind : m.findDevice id with
  | none =>
    simp only [LockedManager.unregisterDevice, hfind]
    exact h.note (.unregister id) (.done false) hown
  | some o =>
    rw [unregisterDevice_of_some hfind]
    refine ⟨fun id' => ?_, h.objects, h.pending, (h.history_concat h.entry_atOnce hown).1,
      (h.history_concat h.entry_atOnce hown).2⟩
    refine Eq.trans ?_ (find_erase hinv.distinct (some id) (some id')).symm
    change update s.registry id none id' = _
    rw [Function.update_apply, h.registry]
    simp only [Option.some.injEq]
    rfl

theorem Sim.enter (h : Sim m s) (hinv : m.Inv lockOf) (thread : θ) (id : DeviceId) (call : Call) :
    Sim (m.enter thread id call) (s.next Device.machine (.find thread id call)) := by
  have hown : ∀ id' first, Op.call (σ := Device) id call = .register id' first →
      id' = first.id := by
    intro id' first heq
    cases heq
  unfold LockedManager.enter
  have hpending := h.pending thread
  cases hvisit : m.visits thread with
  | some v =>
    rw [hvisit, Option.map_some] at hpending
    simp only [Shared.next, hpending]
    exact h
  | none =>
    rw [hvisit, Option.map_none] at hpending
    cases hfind : m.findDevice id with
    | none =>
      simp only [LockedManager.lockableDevice, Shared.next, hpending, h.registry, hfind]
      exact h.note (.call id call) (.called none) hown
    | some o =>
      rw [hinv.lockableDevice hfind]
      simp only [Shared.next, hpending, h.registry, hfind]
      refine ⟨h.registry, h.objects, fun thread' => ?_, h.history, h.own⟩
      by_cases hne : thread' = thread
      · simp only [hne, Function.update_self, h.length, Option.map_some]
        rfl
      · simp only [Function.update_of_ne hne, h.pending]

theorem Sim.leave (h : Sim m s) {thread : θ} {v : Visit} {device : Device}
    (hv : m.visits thread = some v) (hdevice : m.objects[v.device]? = some device) :
    Sim (m.leave thread v (device.attempt v.call).1
        (m.objects.set v.device (device.attempt v.call).2))
      (s.next Device.machine (.act thread)) := by
  have hpending : s.pending thread = some (pendingOf v) := by
    rw [h.pending, hv]
    rfl
  have hobject : s.objects[(pendingOf v).object]? = some device := by
    rw [h.objects]
    exact hdevice
  have hlast := h.history_concat
    (e := ⟨.call v.id v.call, .called (some (device.attempt v.call).1), v.began, s.history.length⟩)
    (by rw [entry, h.length]) fun id' first heq => by cases heq
  simp only [Shared.next, hpending, hobject]
  refine ⟨fun id => ?_, congrArg (List.set · v.device (device.attempt v.call).2) h.objects,
    fun thread' => ?_, hlast.1, hlast.2⟩
  · refine (h.registry id).trans (List.find?_congr fun o _ => ?_)
    have hid := idOf_set hdevice (device.id_attempt v.call) o
    change decide (m.idOf o = some id) =
      decide ((m.objects.set v.device (device.attempt v.call).2)[o]?.map Device.id = some id)
    rw [hid]
  · by_cases hne : thread' = thread
    · simp [hne, LockedManager.leave]
    · simp [hne, LockedManager.leave, h.pending]

theorem Sim.next (h : Sim m s) (hinv : m.Inv lockOf) (action : Action θ) :
    ∃ xs, Sim (m.next action) ((Shared.machine Device.machine).run s xs) := by
  cases action with
  | registerDevice device => exact ⟨[.register device.id device], h.registerDevice hinv device⟩
  | unregisterDevice id => exact ⟨[.unregister id], h.unregisterDevice hinv id⟩
  | hasDevice id =>
    have hnote := h.note (.has id) (.done (s.registry id).isSome) fun id' first heq => by cases heq
    refine ⟨[.has id], ?_⟩
    rw [h.registry] at hnote
    change Sim _ { s with history := s.history ++ [s.atOnce _ (.done (s.registry id).isSome)] }
    rw [h.registry]
    exact hnote
  | enter thread id call => exact ⟨[.find thread id call], h.enter hinv thread id call⟩
  | lock thread =>
    simp only [LockedManager.next]
    rcases m.lock_cases thread with hsame | ⟨v, hvisit, -, -, hsame⟩
    · rw [hsame]
      exact ⟨[], h⟩
    · rw [hsame]
      exact ⟨[], h.go_on hvisit .locked _⟩
  | check thread =>
    simp only [LockedManager.next]
    rcases m.check_cases thread with hsame | ⟨v, device, hvisit, -, hdevice, hcheck⟩
    · rw [hsame]
      exact ⟨[], h⟩
    · rcases hcheck with ⟨hready, hsame⟩ | ⟨hready, hsame⟩
      · rw [hsame]
        exact ⟨[], h.go_on hvisit .ready _⟩
      · have hattempt : device.attempt v.call = (v.call.refused .deviceError, device) := by
          simp only [Device.attempt, hready, Bool.false_eq_true, ↓reduceIte]
        have hobjects : m.objects.set v.device device = m.objects := by
          obtain ⟨hlt, hget⟩ := List.getElem?_eq_some_iff.mp hdevice
          rw [← hget, List.set_getElem_self]
        have hleave := h.leave hvisit hdevice
        rw [hattempt, hobjects] at hleave
        rw [hsame]
        exact ⟨[.act thread], hleave⟩
  | finish thread =>
    simp only [LockedManager.next]
    rcases m.finish_cases thread with hsame | ⟨v, device, hvisit, hphase, hdevice, hsame⟩
    · rw [hsame]
      exact ⟨[], h⟩
    · obtain ⟨found, hfound, hready⟩ := (hinv.visiting thread v hvisit).ready hphase
      obtain rfl : found = device := Option.some.inj (hfound.symm.trans hdevice)
      have hattempt : found.attempt v.call = found.serve v.call := by
        rw [Device.attempt, hready, if_pos rfl]
      have hleave := h.leave hvisit hdevice
      rw [hattempt] at hleave
      rw [hsame]
      exact ⟨[.act thread], hleave⟩

theorem run_sim (actions : List (Action θ)) :
    ∃ xs, Sim (machine.run ({} : LockedManager θ) actions)
      ((Shared.machine Device.machine).run {} xs) := by
  have hrun := machine.run_invariant
    (P := fun m : LockedManager θ => (∃ lockOf, m.Inv lockOf) ∧
      ∃ xs, Sim m ((Shared.machine Device.machine).run {} xs))
    (fun m action ⟨⟨lockOf, hinv⟩, xs, hsim⟩ => by
      obtain ⟨xs', hsim'⟩ := hsim.next hinv action
      refine ⟨hinv.next action, xs ++ xs', ?_⟩
      rw [Machine.run_append]
      exact hsim') ⟨⟨_, inv_init⟩, [], sim_init⟩ actions
  exact hrun.2

end Sim

structure Matches (registry : DeviceId → Option Device) (m : DeviceManager) : Prop where
  found : ∀ id, m.findDevice id = registry id
  distinct : m.devices.Pairwise fun a b => a.id ≠ b.id

theorem pairwise_replace {id : DeviceId} {device : Device} {devices : List Device}
    (hid : device.id = id) (h : devices.Pairwise fun a b => a.id ≠ b.id) :
    (DeviceManager.replace id device devices).Pairwise fun a b => a.id ≠ b.id := by
  have hmap : (DeviceManager.replace id device devices).map Device.id = devices.map Device.id := by
    induction devices with
    | nil => rfl
    | cons first devices ih =>
      unfold DeviceManager.replace
      split_ifs with hfirst
      · simp [hid, hfirst]
      · rw [List.map_cons, List.map_cons, ih (List.pairwise_cons.mp h).2]
  have hids : (devices.map Device.id).Pairwise (· ≠ ·) := List.pairwise_map.mpr h
  rw [← hmap] at hids
  exact List.pairwise_map.mp hids

theorem exec_call (m : DeviceManager) (id : DeviceId) (call : Call) :
    m.exec (call.op id) = match m.findDevice id with
      | none => (call.refused .notFound, m)
      | some device => if device.isReady then ((device.serve call).1, { m with
          devices := DeviceManager.replace id (device.serve call).2 m.devices })
        else (call.refused .deviceError, m) := by
  cases call with
  | write value =>
    simp only [Call.op, DeviceManager.exec, DeviceManager.write, Call.refused, Device.serve]
    cases m.findDevice id with
    | none => rfl
    | some device =>
      cases hready : device.isReady with
      | false => simp [hready]
      | true => simp [hready]
  | read =>
    simp only [Call.op, DeviceManager.exec, DeviceManager.read, Call.refused, Device.serve]
    cases m.findDevice id with
    | none => rfl
    | some device =>
      cases hready : device.isReady with
      | false => simp [hready]
      | true => simp [hready]

def InStep (registry : DeviceId → Option Device) (m : DeviceManager)
    (op : Op DeviceId Device Call) : Prop :=
  DeviceManager.server.out m (request op) =
      reply op ((Linearization.machine Device.machine).out registry op) ∧
    Matches ((Linearization.machine Device.machine).next registry op)
      (DeviceManager.server.next m (request op))

section Matches
variable {registry : DeviceId → Option Device} {m : DeviceManager}

theorem Matches.register (h : Matches registry m) (device : Device) :
    InStep registry m (.register device.id device) := by
  have hfound := h.found device.id
  unfold InStep Machine.out Machine.next
  cases hreg : registry device.id with
  | some old =>
    rw [hreg] at hfound
    have hserve : DeviceManager.server.step m (.register device) =
        (.done (.error .alreadyExists), m) := by
      simp [DeviceManager.server, DeviceManager.serve, DeviceManager.registerDevice, hfound]
    rw [step_register_of_some hreg]
    exact ⟨congrArg Prod.fst hserve, (congrArg Prod.snd hserve).symm ▸ h⟩
  | none =>
    rw [hreg] at hfound
    have hserve : DeviceManager.server.step m (.register device) =
        (.done (.ok ()), { m with devices := m.devices ++ [device] }) := by
      simp [DeviceManager.server, DeviceManager.serve, DeviceManager.registerDevice, hfound]
    rw [step_register_of_none hreg]
    refine ⟨congrArg Prod.fst hserve, (congrArg Prod.snd hserve).symm ▸ ⟨fun id => ?_, ?_⟩⟩
    · refine (find_concat hfound id).trans ?_
      change _ = update registry device.id (some device) id
      rw [Function.update_apply, ← h.found]
      rfl
    · rw [List.pairwise_append]
      refine ⟨h.distinct, List.pairwise_singleton _ _, fun a ha b hb => ?_⟩
      rw [List.mem_singleton.mp hb]
      simpa using List.find?_eq_none.mp hfound a ha

theorem Matches.unregister (h : Matches registry m) (id : DeviceId) :
    InStep registry m (.unregister id) := by
  have hfound := h.found id
  unfold InStep Machine.out Machine.next
  cases hreg : registry id with
  | none =>
    rw [hreg] at hfound
    have hserve : DeviceManager.server.step m (.unregister id) = (.done (.error .notFound), m) := by
      simp [DeviceManager.server, DeviceManager.serve, DeviceManager.unregisterDevice, hfound]
    rw [step_unregister_of_none hreg]
    exact ⟨congrArg Prod.fst hserve, (congrArg Prod.snd hserve).symm ▸ h⟩
  | some old =>
    rw [hreg] at hfound
    have hserve : DeviceManager.server.step m (.unregister id) =
        (.done (.ok ()), { m with devices := m.devices.eraseP fun device => device.id = id }) := by
      simp [DeviceManager.server, DeviceManager.serve, DeviceManager.unregisterDevice, hfound]
    rw [step_unregister_of_some hreg]
    refine ⟨congrArg Prod.fst hserve, (congrArg Prod.snd hserve).symm ▸ ⟨fun id' => ?_, ?_⟩⟩
    · refine (find_erase h.distinct id id').trans ?_
      change _ = update registry id none id'
      rw [Function.update_apply, ← h.found]
      rfl
    · exact h.distinct.sublist List.eraseP_sublist

theorem Matches.has (h : Matches registry m) (id : DeviceId) : InStep registry m (.has id) :=
  ⟨congrArg (fun found : Option Device => Reply.found found.isSome) (h.found id), h⟩

theorem Matches.call (h : Matches registry m) (id : DeviceId) (call : Call) :
    InStep registry m (.call id call) := by
  have hfound := h.found id
  have hexec := exec_call m id call
  have hserve : DeviceManager.server.step m (.call id call) =
      (.response (m.exec (call.op id)).1, (m.exec (call.op id)).2) := rfl
  unfold InStep Machine.out Machine.next
  rw [request, hserve]
  cases hreg : registry id with
  | none =>
    rw [hfound, hreg] at hexec
    rw [step_call_of_none hreg, hexec]
    exact ⟨rfl, h⟩
  | some device =>
    rw [hfound, hreg] at hexec
    have hid : device.id = id := by
      rw [hreg] at hfound
      simpa using List.find?_some hfound
    rw [step_call_of_some hreg, hexec]
    cases hready : device.isReady with
    | false =>
      have hattempt : Device.machine.step device call = (call.refused .deviceError, device) := by
        simp [Device.machine, Device.attempt, hready]
      simp only [Machine.out, Machine.next, hattempt, hready, Bool.false_eq_true, ↓reduceIte]
      refine ⟨rfl, fun id' => ?_, h.distinct⟩
      rw [h.found, Function.update_apply]
      split_ifs with hsame
      · rw [hsame, hreg]
      · rfl
    | true =>
      have hattempt : Device.machine.step device call = device.serve call := by
        simp [Device.machine, Device.attempt, hready]
      have hserved : (device.serve call).2.id = id := (device.id_serve call).trans hid
      simp only [Machine.out, Machine.next, hattempt, hready, ↓reduceIte]
      refine ⟨rfl, fun id' => ?_, pairwise_replace hserved h.distinct⟩
      have hsome : (m.devices.find? fun d => d.id = id).isSome = true := by
        rw [DeviceManager.findDevice, hreg] at hfound
        rw [hfound]
        rfl
      rw [DeviceManager.findDevice, DeviceManager.find_replace hserved, Function.update_apply,
        hsome,
        ← h.found]
      simp only [and_true]
      rfl

theorem Matches.step (h : Matches registry m)
    {e : Entry (Op DeviceId Device Call) (Answer Response)} (how : Own e)
    (hanswer : (Linearization.machine Device.machine).out registry e.op = e.answer) :
    DeviceManager.server.out m (entry e).op = (entry e).answer ∧
      Matches ((Linearization.machine Device.machine).next registry e.op)
        (DeviceManager.server.next m (entry e).op) := by
  have hstep : InStep registry m e.op := by
    cases hop : e.op with
    | register id device =>
      rw [how id device hop]
      exact h.register device
    | unregister id => exact h.unregister id
    | has id => exact h.has id
    | call id call => exact h.call id call
  unfold InStep at hstep
  rw [hanswer] at hstep
  exact hstep

end Matches

/-- Whatever the threads do under the mutexes, their calls that are over have the answers of a
manager that makes the calls one after the other, in an order in which no call comes before one that
was over when it began. -/
theorem calls_linearize [DecidableEq θ] (actions : List (Action θ)) :
    ∃ order, Linearizes DeviceManager.server {} (machine.run {} actions).history order := by
  obtain ⟨xs, hsim⟩ := run_sim actions
  obtain ⟨order, horder⟩ := run_linearizes Device.machine xs
  rw [← hsim.history]
  exact ⟨_, horder.map (R := Matches) (fun s t e how h hanswer => h.step how hanswer)
    (fun e => ⟨rfl, rfl⟩) hsim.own ⟨fun _ => rfl, .nil⟩⟩

/-- A late write is answered by a device that cannot be found any more. -/
example :
    ((machine.run ({} : LockedManager (Fin 2)) [.registerDevice (.console 0),
        .enter 0 consoleDeviceId (.write 7), .unregisterDevice consoleDeviceId,
        .hasDevice consoleDeviceId, .lock 0, .check 0, .finish 0]).history.map (·.answer)) =
      [.done (.ok ()), .done (.ok ()), .found false, .response (.written (.ok ()))] := by decide

end LockedManager
end Contur
