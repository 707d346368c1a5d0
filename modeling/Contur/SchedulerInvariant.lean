import Contur.Scheduler

/-!
# Every registered process is in one place

`Placed n s place` ties a scheduler with `n` lanes to a map that gives each registered process its
place. Each operation is described by what it does to this map: it moves one
process, or it changes nothing. A preemption is two moves, a steal moves a process
and then selects. The partition of the registered processes into ready queues,
running slots and blocked list follows for every run.
-/

namespace Contur.Scheduler
open Function (update)
open Placement

variable {s s' : Scheduler} {place : ProcessId → Option Place} {pid : ProcessId}
  {n lane : ℕ} (now : Tick)

def board (s : Scheduler) : Board ProcessId where
  ready := s.readyByLane
  running := s.runningByLane
  blocked := s.blocked

def Fits (s : Scheduler) (pid : ProcessId) : Option Place → Prop
  | none => s.runStart pid = none
  | some (.ready lane) =>
    (s.pcbs pid).state = .ready ∧ s.processLane pid = some lane ∧ s.runStart pid = none
  | some (.running lane) =>
    (s.pcbs pid).state = .running ∧ s.processLane pid = some lane ∧ (s.runStart pid).isSome
  | some .blocked => (s.pcbs pid).state = .blocked ∧ s.runStart pid = none

structure Placed (n : ℕ) (s : Scheduler) (place : ProcessId → Option Place) : Prop where
  represents : Represents s.board place
  ready_length : s.readyByLane.length = n
  running_length : s.runningByLane.length = n
  lanes_pos : 0 < n
  registered : ∀ pid, pid ∈ s.processes ↔ (place pid).isSome
  fits : ∀ pid, s.Fits pid (place pid)
  invalidPid : place invalidPid = none

structure SameOthers (s s' : Scheduler) (pid : ProcessId) : Prop where
  pcbs : ∀ p, p ≠ pid → s'.pcbs p = s.pcbs p
  processLane : ∀ p, p ≠ pid → s'.processLane p = s.processLane p
  runStart : ∀ p, p ≠ pid → s'.runStart p = s.runStart p

theorem Fits.of_same {p : ProcessId} {x : Option Place} (h : s.Fits p x)
    (hs : SameOthers s s' pid) (hp : p ≠ pid) : s'.Fits p x := by
  rcases x with _ | (i | i | _) <;>
    simpa only [Fits, hs.pcbs p hp, hs.processLane p hp, hs.runStart p hp] using h

namespace Placed

theorem move (h : Placed n s place) (hs : SameOthers s s' pid) {x : Option Place}
    (hrep : Represents s'.board (update place pid x))
    (hlanes : s'.readyByLane.length = s.readyByLane.length ∧
      s'.runningByLane.length = s.runningByLane.length)
    (hreg : ∀ p, p ∈ s'.processes ↔ (update place pid x p).isSome)
    (hfits : s'.Fits pid x) (hvalid : x.isSome → pid ≠ Contur.invalidPid) :
    Placed n s' (update place pid x) := by
  refine ⟨hrep, hlanes.1.trans h.ready_length, hlanes.2.trans h.running_length, h.lanes_pos, hreg,
    ?_, ?_⟩
  · intro p
    by_cases hp : p = pid
    · subst p
      simpa using hfits
    · rw [Function.update_of_ne hp]
      exact (h.fits p).of_same hs hp
  · by_cases hp : Contur.invalidPid = pid
    · cases x with
      | none => simp [← hp]
      | some y => exact absurd hp.symm (hvalid rfl)
    · rw [Function.update_of_ne hp, h.invalidPid]

theorem fits_of (h : Placed n s place) {x : Option Place} (hp : place pid = x) : s.Fits pid x :=
  hp ▸ h.fits pid

theorem ne_invalidPid (h : Placed n s place) (hp : (place pid).isSome) :
    pid ≠ Contur.invalidPid := by
  rintro rfl
  simp [h.invalidPid] at hp

theorem registered_of_move (h : Placed n s place) (hp : (place pid).isSome) (y : Place)
    (hproc : s'.processes = s.processes) (p : ProcessId) :
    p ∈ s'.processes ↔ (update place pid (some y) p).isSome := by
  rw [hproc, h.registered]
  by_cases hpp : p = pid
  · subst p
    simp [hp]
  · rw [Function.update_of_ne hpp]

theorem registered_of_erase (h : Placed n s place) (hproc : s'.processes = s.processes.erase pid)
    (p : ProcessId) : p ∈ s'.processes ↔ (update place pid none p).isSome := by
  rw [hproc, Finset.mem_erase, h.registered]
  by_cases hpp : p = pid
  · simp [hpp]
  · simp [hpp]

theorem setPcb (h : Placed n s place) (hp : place pid = none) (pcb : Pcb) :
    Placed n { s with pcbs := update s.pcbs pid pcb } place := by
  refine ⟨h.represents, h.ready_length, h.running_length, h.lanes_pos, h.registered, ?_,
    h.invalidPid⟩
  intro p
  by_cases hpp : p = pid
  · subst p
    rw [hp]
    exact h.fits_of hp
  · exact (h.fits p).of_same ⟨fun q hq => by simp [hq], fun _ _ => rfl, fun _ _ => rfl⟩ hpp

theorem running_lt_lanes (h : Placed n s place) (hp : place pid = some (.running lane)) :
    lane < n := by
  have hrun := (h.represents.running_iff pid lane).mp hp
  exact h.running_length ▸ (List.getElem?_eq_some_iff.mp hrun).1

end Placed

theorem findRunningLane_spec (h : Represents s.board place) :
    s.findRunningLane pid = some lane ↔ place pid = some (.running lane) := by
  rw [h.running_iff, findRunningLane, List.findIdx?_eq_some_iff_getElem]
  constructor
  · rintro ⟨hlt, hrun, -⟩
    rw [show s.board.running = s.runningByLane from rfl, List.getElem?_eq_getElem hlt]
    simpa using hrun
  · intro hrun
    obtain ⟨hlt, hget⟩ := List.getElem?_eq_some_iff.mp hrun
    refine ⟨hlt, decide_eq_true hget, ?_⟩
    intro j hj
    simp only [decide_eq_true_eq]
    intro hother
    have h1 := (h.running_iff pid j).mpr (List.getElem?_eq_some_iff.mpr ⟨_, hother⟩)
    have h2 := (h.running_iff pid lane).mpr hrun
    rw [h1] at h2
    simp only [Option.some.injEq, Place.running.injEq] at h2
    omega

theorem findReadyLane_spec (h : Represents s.board place) :
    s.findReadyLane pid = some lane ↔ place pid = some (.ready lane) := by
  rw [findReadyLane, List.findIdx?_eq_some_iff_getElem]
  constructor
  · rintro ⟨hlt, hmem, -⟩
    exact (h.ready_iff pid lane).mpr
      ⟨_, List.getElem?_eq_getElem hlt, by simpa using hmem⟩
  · intro hp
    obtain ⟨q, hq, hmem⟩ := (h.ready_iff pid lane).mp hp
    obtain ⟨hlt, hget⟩ := List.getElem?_eq_some_iff.mp hq
    refine ⟨hlt, by simpa [show s.readyByLane[lane] = q from hget] using hmem, ?_⟩
    intro j hj
    simp only [decide_eq_true_eq]
    intro hother
    have hj' := h.ready_of_mem (List.getElem?_eq_getElem (by omega)) hother
    rw [hp] at hj'
    simp only [Option.some.injEq, Place.ready.injEq] at hj'
    omega

theorem findRunningLane_eq_none (h : Represents s.board place) (pid : ProcessId)
    (hp : ∀ lane, place pid ≠ some (.running lane)) : s.findRunningLane pid = none := by
  by_contra hne
  obtain ⟨i, hi⟩ := Option.ne_none_iff_exists'.mp hne
  exact hp i ((findRunningLane_spec h).mp hi)

theorem findReadyLane_eq_none (h : Represents s.board place) (pid : ProcessId)
    (hp : ∀ lane, place pid ≠ some (.ready lane)) : s.findReadyLane pid = none := by
  by_contra hne
  obtain ⟨i, hi⟩ := Option.ne_none_iff_exists'.mp hne
  exact hp i ((findReadyLane_spec h).mp hi)

theorem recordRunningBurst_eq (s : Scheduler) (pid : ProcessId) (now : Tick) :
    ∃ predictions, s.recordRunningBurst pid now =
      { s with predictions := predictions, runStart := update s.runStart pid none } := by
  unfold recordRunningBurst
  cases hstart : s.runStart pid with
  | none =>
    have hsame : update s.runStart pid none = s.runStart := by
      rw [← hstart, Function.update_eq_self]
    exact ⟨s.predictions, by rw [hsame]⟩
  | some started => exact ⟨_, rfl⟩

theorem enqueueToLane_eq (h : Placed n s place) (hp : place pid = none)
    (hnew : (s.pcbs pid).state = .new) (hvalid : pid ≠ Contur.invalidPid) (hlane : lane < n) :
    ∃ pcb, (s.pcbs pid).setState .ready now = some pcb ∧
      s.enqueueToLane pid lane now = (.ok (), { s with
        processes := insert pid s.processes
        pcbs := update s.pcbs pid (estimate (s.predictions pid) pcb)
        readyByLane := s.readyByLane.modify lane (· ++ [pid])
        processLane := update s.processLane pid (some lane) }) := by
  rw [← h.ready_length] at hlane
  have hready : s.findReadyLane pid = none := findReadyLane_eq_none h.represents pid (by simp [hp])
  have hrunning : s.findRunningLane pid = none :=
    findRunningLane_eq_none h.represents pid (by simp [hp])
  obtain ⟨pcb, hpcb, -⟩ := Pcb.setState_of_valid hnew
    (rfl : isValidTransition _ .ready = true) now
  refine ⟨pcb, hpcb, ?_⟩
  simp only [findReadyLane, findRunningLane] at hready hrunning
  simp [enqueueToLane, Nat.not_le.mpr hlane, hvalid, findReadyLane, findRunningLane, hready,
    hrunning, hnew, hpcb]

theorem enqueueToLane_spec (h : Placed n s place) (hp : place pid = none)
    (hnew : (s.pcbs pid).state = .new) (hvalid : pid ≠ Contur.invalidPid)
    (hlane : lane < n) :
    (s.enqueueToLane pid lane now).1 = .ok () ∧
      Placed n (s.enqueueToLane pid lane now).2 (update place pid (some (.ready lane))) := by
  obtain ⟨pcb, hpcb, heq⟩ := enqueueToLane_eq now h hp hnew hvalid hlane
  have hstate : pcb.state = .ready := (Pcb.setState_eq_some hpcb).2.1
  rw [heq]
  rw [← h.ready_length] at hlane
  refine ⟨rfl, h.move ?_ (h.represents.pushReady hp hlane) ?_ ?_ ?_ fun _ => hvalid⟩
  · exact ⟨fun p hp => by simp [hp], fun p hp => by simp [hp], fun p hp => rfl⟩
  · simp
  · intro p
    rw [Finset.mem_insert, h.registered]
    by_cases hpp : p = pid
    · simp [hpp]
    · simp [hpp]
  · have hstart : s.runStart pid = none := h.fits_of hp
    refine ⟨?_, by simp, hstart⟩
    cases hpred : s.predictions pid <;> simp [estimate, hstate]

theorem dequeue_spec (h : Placed n s place) (hp : (place pid).isSome) :
    (s.dequeue pid).1 = .ok () ∧ Placed n (s.dequeue pid).2 (update place pid none) := by
  have hmem : pid ∈ s.processes := (h.registered pid).mpr hp
  simp only [dequeue, hmem, not_true_eq_false, ↓reduceIte, true_and]
  refine h.move ?_ (h.represents.remove pid) ?_ (h.registered_of_erase rfl) ?_ (by simp)
  · exact ⟨fun p hp => rfl, fun p hp => by simp [forget, hp], fun p hp => by simp [forget, hp]⟩
  · simp [removeFromAllReady]
  · simp [Fits, forget]

theorem preempt_spec (h : Placed n s place) (hp : place pid = some (.running lane)) :
    (s.preempt lane pid now).1 = .ok () ∧
      Placed n (s.preempt lane pid now).2 (update place pid (some (.ready lane))) := by
  have hfits := h.fits_of hp
  obtain ⟨predictions, hrec⟩ := recordRunningBurst_eq s pid now
  obtain ⟨pcb, hpcb, hstate⟩ := Pcb.setState_of_valid hfits.1
    (rfl : isValidTransition _ .ready = true) now
  simp only [preempt, hrec, hpcb, true_and]
  have hrep := h.represents.runningToReady hp (h.ready_length ▸ h.running_lt_lanes hp)
  refine h.move ?_ hrep ?_ (h.registered_of_move (by simp [hp]) _ rfl) ?_
    fun _ => h.ne_invalidPid (by simp [hp])
  · exact ⟨fun p hp => by simp [hp], fun p hp => by simp [hp], fun p hp => by simp [hp]⟩
  · simp
  · simp [Fits, hstate]

theorem startOn_spec (h : Placed n s place) (hp : place pid = some (.ready lane))
    (hfree : s.runningByLane[lane]? = some none) :
    (s.startOn lane pid now).1 = .ok pid ∧
      Placed n (s.startOn lane pid now).2 (update place pid (some (.running lane))) := by
  have hfits := h.fits_of hp
  obtain ⟨pcb, hpcb, hstate⟩ := Pcb.setState_of_valid hfits.1
    (rfl : isValidTransition _ .running = true) now
  simp only [startOn, hpcb, true_and]
  refine h.move ?_ (h.represents.readyToRunning hp hfree) ?_
    (h.registered_of_move (by simp [hp]) _ rfl) ?_
    fun _ => h.ne_invalidPid (by simp [hp])
  · exact ⟨fun p hp => by simp [hp], fun p hp => by simp [hp], fun p hp => by simp [hp]⟩
  · simp
  · simp [Fits, hstate]

theorem blockOn_spec (h : Placed n s place) (hp : place pid = some (.running lane)) :
    (s.blockOn lane pid now).1 = .ok () ∧
      Placed n (s.blockOn lane pid now).2 (update place pid (some .blocked)) := by
  have hfits := h.fits_of hp
  obtain ⟨predictions, hrec⟩ := recordRunningBurst_eq s pid now
  obtain ⟨pcb, hpcb, hstate⟩ := Pcb.setState_of_valid hfits.1
    (rfl : isValidTransition _ .blocked = true) now
  simp only [blockOn, hrec, hpcb, true_and]
  refine h.move ?_ (h.represents.runningToBlocked hp) ?_
    (h.registered_of_move (by simp [hp]) _ rfl) ?_
    fun _ => h.ne_invalidPid (by simp [hp])
  · exact ⟨fun p hp => by simp [hp], fun p hp => rfl, fun p hp => by simp [hp]⟩
  · simp
  · simp [Fits, hstate]

theorem returnLane_lt (pid : ProcessId) (h : 0 < s.readyByLane.length) :
    s.returnLane pid < s.readyByLane.length := by
  simp only [returnLane]
  split_ifs with hlane
  · exact h
  · exact Nat.not_le.mp hlane

theorem unblock_spec (h : Placed n s place) (hp : place pid = some .blocked) :
    (s.unblock pid now).1 = .ok () ∧
      Placed n (s.unblock pid now).2 (update place pid (some (.ready (s.returnLane pid)))) := by
  have hfits := h.fits_of hp
  have hmem : pid ∈ s.blocked := (h.represents.blocked_iff pid).mp hp
  obtain ⟨pcb, hpcb, hstate⟩ := Pcb.setState_of_valid hfits.1
    (rfl : isValidTransition _ .ready = true) now
  simp only [unblock, hmem, not_true_eq_false, ↓reduceIte, hpcb, true_and]
  have hrep := h.represents.blockedToReady hp (returnLane_lt pid (h.ready_length ▸ h.lanes_pos))
  refine h.move ?_ hrep ?_ (h.registered_of_move (by simp [hp]) _ rfl) ?_
    fun _ => h.ne_invalidPid (by simp [hp])
  · exact ⟨fun p hp => by simp [hp], fun p hp => by simp [hp], fun p hp => rfl⟩
  · simp
  · simp [Fits, hstate, hfits.2]

theorem terminate_spec (h : Placed n s place) (hp : place pid = some (.running lane)) :
    (s.terminate pid now).1 = .ok () ∧
      Placed n (s.terminate pid now).2 (update place pid none) := by
  have hfits := h.fits_of hp
  have hmem : pid ∈ s.processes := (h.registered pid).mpr (by simp [hp])
  obtain ⟨predictions, hrec⟩ := recordRunningBurst_eq s pid now
  obtain ⟨pcb, hpcb, hstate⟩ := Pcb.setState_of_valid hfits.1
    (rfl : isValidTransition _ .terminated = true) now
  simp only [terminate, hmem, not_true_eq_false, ↓reduceIte,
    (findRunningLane_spec h.represents).mpr hp, hrec,
    hpcb, true_and]
  refine h.move ?_ (h.represents.clearRunning hp) ?_ (h.registered_of_erase rfl) ?_ (by simp)
  · exact ⟨fun p hp => by simp [forget, hp], fun p hp => by simp [forget, hp],
      fun p hp => by simp [forget, hp]⟩
  · simp [forget]
  · simp [Fits, forget]

theorem blockProcess_spec (h : Placed n s place) (hp : place pid = some (.running lane)) :
    (s.blockProcess pid now).1 = .ok () ∧
      Placed n (s.blockProcess pid now).2 (update place pid (some .blocked)) := by
  have hmem : pid ∈ s.processes := (h.registered pid).mpr (by simp [hp])
  simp only [blockProcess, hmem, not_true_eq_false, ↓reduceIte,
    (findRunningLane_spec h.represents).mpr hp]
  exact blockOn_spec now h hp

theorem configureLanes_spec (h : Placed n s place) (laneCount : ℕ) :
    ∃ m, Placed m (s.configureLanes laneCount).2 place := by
  unfold configureLanes
  split_ifs with hzero hproc
  · exact ⟨n, h⟩
  · exact ⟨n, h⟩
  · have hnone : place = fun _ => none := by
      funext p
      rw [← Option.not_isSome_iff_eq_none, ← h.registered]
      simp [Finset.not_nonempty_iff_eq_empty.mp hproc]
    subst hnone
    have hblocked : s.blocked = [] := h.represents.blocked_eq_nil
    refine ⟨laneCount, ?_, by simp, by simp, Nat.pos_of_ne_zero hzero, h.registered, h.fits, rfl⟩
    simpa [board, hblocked] using Represents.empty (α := ProcessId) laneCount laneCount

def SameProcesses (place place' : ProcessId → Option Place) : Prop :=
  ∀ p, (place' p).isSome = (place p).isSome

theorem sameProcesses_update (hp : (place pid).isSome) (y : Place) :
    SameProcesses place (update place pid (some y)) := by
  intro p
  by_cases hpp : p = pid
  · subst p
    simp [hp]
  · rw [Function.update_of_ne hpp]

structure Selected (n : ℕ) (s s' : Scheduler) (lane : ℕ) (place : ProcessId → Option Place)
    (result : Result ProcessId) : Prop where
  placed : ∃ place', Placed n s' place' ∧ SameProcesses place place' ∧
    ∀ pid, result = .ok pid → place' pid = some (.running lane)
  policy : s'.policy = s.policy

theorem Selected.of_error (h : Placed n s place) (code : ErrorCode) :
    Selected n s s lane place (.error code) :=
  ⟨⟨place, h, fun _ => rfl, fun _ heq => by cases heq⟩, rfl⟩

theorem Selected.of_running (h : Placed n s place) (hp : place pid = some (.running lane)) :
    Selected n s s lane place (.ok pid) := by
  refine ⟨⟨place, h, fun _ => rfl, ?_⟩, rfl⟩
  intro p heq
  cases heq
  exact hp

theorem startOn_policy : (s.startOn lane pid now).2.policy = s.policy := by
  simp only [startOn]
  split <;> rfl

theorem preempt_policy : (s.preempt lane pid now).2.policy = s.policy := by
  obtain ⟨predictions, hrec⟩ := recordRunningBurst_eq s pid now
  simp only [preempt, hrec]
  split <;> rfl

theorem preempt_runningByLane (h : Placed n s place) (hp : place pid = some (.running lane)) :
    (s.preempt lane pid now).2.runningByLane[lane]? = some none := by
  obtain ⟨predictions, hrec⟩ := recordRunningBurst_eq s pid now
  obtain ⟨pcb, hpcb, -⟩ := Pcb.setState_of_valid (h.fits_of hp).1
    (rfl : isValidTransition _ .ready = true) now
  have hlane : lane < s.runningByLane.length := h.running_length ▸ h.running_lt_lanes hp
  simp only [preempt, hrec, hpcb]
  exact List.getElem?_set_self hlane

theorem ready_of_preempt {cand : ProcessId} (hp : place pid = some (.running lane))
    (hcand : place cand = some (.ready lane)) :
    update place pid (some (.ready lane)) cand = some (.ready lane) := by
  rw [Function.update_of_ne, hcand]
  rintro rfl
  rw [hp] at hcand
  cases hcand

theorem Selected.of_startOn (h : Placed n s place) (hp : place pid = some (.ready lane))
    (hfree : s.runningByLane[lane]? = some none) :
    Selected n s (s.startOn lane pid now).2 lane place (s.startOn lane pid now).1 := by
  obtain ⟨hres, hplaced⟩ := startOn_spec now h hp hfree
  refine ⟨⟨_, hplaced, sameProcesses_update (by simp [hp]) _, ?_⟩, startOn_policy now⟩
  intro p heq
  rw [hres] at heq
  cases heq
  simp

theorem Selected.after_move {s₁ : Scheduler} {result : Result ProcessId} {y : Place}
    (hp : (place pid).isSome) (hpolicy : s₁.policy = s.policy)
    (h : Selected n s₁ s' lane (update place pid (some y)) result) :
    Selected n s s' lane place result := by
  obtain ⟨place', hplaced, hsame, hrun⟩ := h.placed
  exact ⟨⟨place', hplaced, fun p => (hsame p).trans (sameProcesses_update hp y p), hrun⟩,
    h.policy.trans hpolicy⟩

theorem selectNextForLane_selected (h : Placed n s place) :
    Selected n s (s.selectNextForLane lane now).2 lane place (s.selectNextForLane lane now).1 := by
  cases hready : s.readyByLane[lane]? with
  | none => simpa only [selectNextForLane, hready] using Selected.of_error h _
  | some ready =>
    cases hpolicy : s.policy with
    | none => simpa only [selectNextForLane, hready, hpolicy] using Selected.of_error h _
    | some policy =>
      have hlt : lane < n := h.ready_length ▸ (List.getElem?_eq_some_iff.mp hready).1
      cases hrun : s.runningByLane[lane]? with
      | none =>
        have hle := List.getElem?_eq_none_iff.mp hrun
        rw [h.running_length] at hle
        exact absurd hlt (Nat.not_lt.mpr hle)
      | some running =>
        cases ready with
        | nil =>
          cases running with
          | none =>
            simpa only [selectNextForLane, hready, hpolicy, hrun, Option.join_some] using
              Selected.of_error h _
          | some pid =>
            simpa only [selectNextForLane, hready, hpolicy, hrun, Option.join_some] using
              Selected.of_running h ((h.represents.running_iff pid lane).mpr hrun)
        | cons first rest =>
          simp only [selectNextForLane, hready, hpolicy, hrun, Option.join_some]
          split_ifs with hinvalid hmem
          · exact Selected.of_error h _
          · have hcand := h.represents.ready_of_mem hready hmem
            cases running with
            | none => exact Selected.of_startOn now h hcand hrun
            | some pid =>
              have hpid := (h.represents.running_iff pid lane).mpr hrun
              dsimp only
              split_ifs
              · obtain ⟨hres, hplaced⟩ := preempt_spec now h hpid
                rw [show s.preempt lane pid now = (.ok (), (s.preempt lane pid now).2) from
                  Prod.ext hres rfl]
                exact Selected.after_move (by simp [hpid]) (preempt_policy now)
                  (Selected.of_startOn now hplaced (ready_of_preempt hpid hcand)
                    (preempt_runningByLane now h hpid))
              · exact Selected.of_running h hpid
          · exact Selected.of_error h _

/-- With a policy that selects from the queue, an existing lane fails to select only when it
has no process. -/
theorem selectNextForLane_error (h : Placed n s place) {policy : SchedulingPolicy}
    (hpolicy : s.policy = some policy) (hselects : policy.Selects)
    (hlane : lane < n) {code : ErrorCode}
    (herror : (s.selectNextForLane lane now).1 = .error code) : code = .notFound := by
  obtain ⟨ready, hready⟩ : ∃ ready, s.readyByLane[lane]? = some ready :=
    ⟨_, List.getElem?_eq_getElem (h.ready_length ▸ hlane)⟩
  obtain ⟨running, hrun⟩ : ∃ running, s.runningByLane[lane]? = some running :=
    ⟨_, List.getElem?_eq_getElem (h.running_length ▸ hlane)⟩
  simp only [selectNextForLane, hready, hpolicy, hrun, Option.join_some] at herror
  cases ready with
  | nil =>
    cases running with
    | none => simpa using herror.symm
    | some pid => simp at herror
  | cons first rest =>
    obtain ⟨process, hmem, hsel⟩ := hselects (s.asConst (first :: rest)) now (by simp [asConst])
    obtain ⟨cand, hcand, rfl⟩ := List.mem_map.mp hmem
    have hsel' : policy.selectNext (s.asConst (first :: rest)) now = cand := hsel
    have hplace := h.represents.ready_of_mem hready hcand
    have hvalid : cand ≠ invalidPid := h.ne_invalidPid (by simp [hplace])
    simp only [hsel', hvalid, hcand, not_true_eq_false, ↓reduceIte] at herror
    cases running with
    | none => simp [(startOn_spec now h hplace hrun).1] at herror
    | some pid =>
      have hpid := (h.represents.running_iff pid lane).mpr hrun
      dsimp only at herror
      split_ifs at herror
      obtain ⟨hres, hplaced⟩ := preempt_spec now h hpid
      rw [show s.preempt lane pid now = (.ok (), (s.preempt lane pid now).2) from
        Prod.ext hres rfl] at herror
      simp [(startOn_spec now hplaced (ready_of_preempt hpid hplace)
        (preempt_runningByLane now h hpid)).1] at herror

theorem steal_placed (h : Placed n s place) {thief victim : ℕ} {stolen : ProcessId}
    {rest : List ProcessId} (hq : s.readyByLane[victim]? = some (stolen :: rest))
    (hthief : thief < s.readyByLane.length) :
    Placed n { s with
      readyByLane := (s.readyByLane.modify victim List.tail).modify thief (· ++ [stolen])
      processLane := update s.processLane stolen (some thief) }
      (update place stolen (some (.ready thief))) := by
  have hp := h.represents.ready_of_mem hq List.mem_cons_self
  have hfits := h.fits_of hp
  have htail : s.readyByLane.modify victim List.tail =
      s.readyByLane.modify victim (·.filter (· ≠ stolen)) := h.represents.modify_tail hq
  rw [htail]
  refine h.move ?_ (h.represents.readyToReady hp hthief) ?_
    (h.registered_of_move (by simp [hp]) _ rfl) ?_
    fun _ => h.ne_invalidPid (by simp [hp])
  · exact ⟨fun p hp => rfl, fun p hp => by simp [hp], fun p hp => rfl⟩
  · simp
  · simp [Fits, hfits.1, hfits.2.2]

theorem getElem?_of_getD_cons {queues : List (List ProcessId)} {victim : ℕ} {first : ProcessId}
    {rest : List ProcessId} (h : queues.getD victim [] = first :: rest) :
    queues[victim]? = some (first :: rest) := by
  rw [List.getD_eq_getElem?_getD] at h
  cases hqueue : queues[victim]? with
  | none => simp [hqueue] at h
  | some queue => simpa [hqueue] using h

theorem stealNextForLane_selected (h : Placed n s place) :
    Selected n s (s.stealNextForLane lane now).2 lane place (s.stealNextForLane lane now).1 := by
  unfold stealNextForLane
  split_ifs with hlane
  · exact Selected.of_error h _
  · cases hvictim : (victimLane lane s.readyByLane).1 with
    | none => exact Selected.of_error h _
    | some victim =>
      dsimp only
      cases hq : s.readyByLane.getD victim [] with
      | nil => exact Selected.of_error h _
      | cons stolen rest =>
        have hget := getElem?_of_getD_cons hq
        have hp := h.represents.ready_of_mem hget List.mem_cons_self
        have hplaced := steal_placed h hget (Nat.not_le.mp hlane)
        refine Selected.after_move ?_ ?_ (selectNextForLane_selected now hplaced)
        · simp [hp]
        · rfl

section Policy
variable (s : Scheduler) (pid : ProcessId) (lane : ℕ) (now : Tick)

theorem enqueue_policy : (s.enqueue pid now).2.policy = s.policy := by
  simp only [enqueue, enqueueToLane]
  split_ifs <;> try rfl
  split <;> rfl

theorem dequeue_policy : (s.dequeue pid).2.policy = s.policy := by
  simp only [dequeue]
  split_ifs <;> rfl

theorem blockOn_policy : (s.blockOn lane pid now).2.policy = s.policy := by
  obtain ⟨predictions, hrec⟩ := recordRunningBurst_eq s pid now
  simp only [blockOn, hrec]
  split <;> rfl

theorem blockRunning_policy : (s.blockRunning now).2.policy = s.policy := by
  unfold blockRunning
  split
  · rfl
  split
  · exact blockOn_policy s _ _ now
  · rfl

theorem unblock_policy : (s.unblock pid now).2.policy = s.policy := by
  unfold unblock
  split_ifs
  · split <;> rfl
  · rfl

theorem blockProcess_policy : (s.blockProcess pid now).2.policy = s.policy := by
  simp only [blockProcess]
  split_ifs
  · split
    · exact blockOn_policy s pid _ now
    split
    · rfl
    split <;> rfl
  · rfl

theorem terminate_policy : (s.terminate pid now).2.policy = s.policy := by
  obtain ⟨predictions, hrec⟩ := recordRunningBurst_eq s pid now
  simp only [terminate, hrec]
  split_ifs
  · cases s.findRunningLane pid <;> dsimp only <;> split <;> rfl
  · rfl

end Policy

/-- Control blocks come in as new ones, and only a running process is terminated. -/
def Admissible (s : Scheduler) : Op → Prop
  | .enqueue pid _ => (s.pcbs pid).state = .new
  | .enqueueToLane pid _ _ => (s.pcbs pid).state = .new
  | .terminate pid _ => some pid ∈ s.runningByLane
  | _ => True

theorem enqueueToLane_placed (h : Placed n s place) (hnew : (s.pcbs pid).state = .new) :
    ∃ place', Placed n (s.enqueueToLane pid lane now).2 place' := by
  by_cases hlane : lane < n
  · by_cases hvalid : pid = Contur.invalidPid
    · exact ⟨place, by simpa [enqueueToLane, h.ready_length, Nat.not_le.mpr hlane, hvalid] using h⟩
    · have hp : place pid = none := by
        -- a placed process has left the state of a new one
        rcases hx : place pid with _ | (i | i | _)
        · rfl
        all_goals
          have hstate := (h.fits_of hx).1
          rw [hnew] at hstate
          cases hstate
      exact ⟨_, (enqueueToLane_spec now h hp hnew hvalid hlane).2⟩
  · exact ⟨place, by simpa [enqueueToLane, h.ready_length, Nat.not_lt.mp hlane] using h⟩

theorem blockRunning_placed (h : Placed n s place) :
    ∃ place', Placed n (s.blockRunning now).2 place' := by
  unfold blockRunning
  split
  · exact ⟨place, h⟩
  · rename_i lane _
    split
    · rename_i pid hrun
      exact ⟨_, (blockOn_spec now h ((h.represents.running_iff pid lane).mpr hrun)).2⟩
    · exact ⟨place, h⟩

theorem blockProcess_placed (h : Placed n s place) :
    ∃ place', Placed n (s.blockProcess pid now).2 place' := by
  by_cases hmem : pid ∉ s.processes
  · exact ⟨place, by simpa [blockProcess, hmem] using h⟩
  · simp only [blockProcess, hmem, ↓reduceIte]
    cases hrun : s.findRunningLane pid with
    | some lane => exact ⟨_, (blockOn_spec now h ((findRunningLane_spec h.represents).mp hrun)).2⟩
    | none =>
      cases hready : s.findReadyLane pid with
      | none => exact ⟨place, h⟩
      | some lane =>
        have hstate := (h.fits_of ((findReadyLane_spec h.represents).mp hready)).1
        have hrefused := Pcb.setState_of_invalid hstate
          (rfl : isValidTransition _ .blocked = false) now
        simp only [hrefused]
        exact ⟨place, h⟩

theorem unblock_placed (h : Placed n s place) : ∃ place',
    Placed n (s.unblock pid now).2 place' := by
  by_cases hmem : pid ∈ s.blocked
  · have hp := (h.represents.blocked_iff pid).mpr hmem
    exact ⟨_, (unblock_spec now h hp).2⟩
  · exact ⟨place, by simpa [unblock, hmem] using h⟩

def Inv (s : Scheduler) : Prop := ∃ n place, Placed n s place

theorem Selected.inv {result : Result ProcessId} (h : Selected n s s' lane place result) :
    Inv s' := by
  obtain ⟨place', hplaced, -⟩ := h.placed
  exact ⟨n, place', hplaced⟩

theorem exec_inv {op : Op} (hop : Admissible s op) (h : Inv s) : Inv (machine.next s op) := by
  obtain ⟨n, place, h⟩ := h
  cases op with
  | enqueue pid now => exact ⟨n, enqueueToLane_placed now h hop⟩
  | enqueueToLane pid laneIndex now => exact ⟨n, enqueueToLane_placed now h hop⟩
  | dequeue pid =>
    by_cases hmem : pid ∈ s.processes
    · exact ⟨n, _, (dequeue_spec h ((h.registered pid).mp hmem)).2⟩
    · exact ⟨n, place, by simpa [machine, Transition.Machine.next, exec, dequeue, hmem] using h⟩
  | selectNext now => exact (selectNextForLane_selected now h).inv
  | selectNextForLane laneIndex now => exact (selectNextForLane_selected now h).inv
  | stealNextForLane thiefLane now => exact (stealNextForLane_selected now h).inv
  | blockRunning now => exact ⟨n, blockRunning_placed now h⟩
  | blockProcess pid now => exact ⟨n, blockProcess_placed now h⟩
  | unblock pid now => exact ⟨n, unblock_placed now h⟩
  | terminate pid now =>
    obtain ⟨lane, hlane⟩ := List.mem_iff_getElem?.mp (show some pid ∈ s.runningByLane from hop)
    exact ⟨n, _, (terminate_spec now h ((h.represents.running_iff pid lane).mpr hlane)).2⟩
  | configureLanes laneCount =>
    obtain ⟨m, hm⟩ := configureLanes_spec h laneCount
    exact ⟨m, place, hm⟩
  | setPolicy policy =>
    cases policy with
    | none => exact ⟨n, place, h⟩
    | some policy =>
      exact ⟨n, place, h.represents, h.ready_length, h.running_length, h.lanes_pos, h.registered,
        h.fits, h.invalidPid⟩

theorem placed_create (policy : Option SchedulingPolicy) (pcbs : ProcessId → Pcb) {laneCount : ℕ}
    (h : 0 < laneCount) : Placed laneCount (create policy pcbs laneCount) fun _ => none :=
  ⟨Represents.empty laneCount laneCount, by simp [create], by simp [create], h, by simp [create],
    fun _ => rfl, rfl⟩

/-- The tables of the scheduler partition the registered processes. -/
structure Partitioned (s : Scheduler) : Prop where
  once : ∀ pid, (s.getQueueSnapshot ++ s.runningProcesses ++ s.getBlockedSnapshot).count pid =
    if pid ∈ s.processes then 1 else 0
  ready : ∀ pid ∈ s.processes, (s.pcbs pid).state = .ready ↔ pid ∈ s.getQueueSnapshot
  running : ∀ pid ∈ s.processes, (s.pcbs pid).state = .running ↔ pid ∈ s.runningProcesses
  blocked : ∀ pid ∈ s.processes, (s.pcbs pid).state = .blocked ↔ pid ∈ s.getBlockedSnapshot
  ready_lane : ∀ (lane : ℕ) queue, s.readyByLane[lane]? = some queue →
    ∀ pid ∈ queue, s.processLane pid = some lane
  running_lane : ∀ (lane : ℕ) pid, s.runningByLane[lane]? = some (some pid) →
    s.processLane pid = some lane
  runStart : ∀ pid ∈ s.processes, (s.runStart pid).isSome ↔ pid ∈ s.runningProcesses

theorem mem_getQueueSnapshot (h : Represents s.board place) :
    pid ∈ s.getQueueSnapshot ↔ ∃ lane, place pid = some (.ready lane) := by
  simp only [h.ready_iff, getQueueSnapshot, List.mem_flatten]
  constructor
  · rintro ⟨q, hq, hmem⟩
    obtain ⟨lane, hlane⟩ := List.mem_iff_getElem?.mp hq
    exact ⟨lane, q, hlane, hmem⟩
  · rintro ⟨lane, q, hlane, hmem⟩
    exact ⟨q, List.mem_of_getElem? hlane, hmem⟩

theorem mem_runningProcesses (h : Represents s.board place) :
    pid ∈ s.runningProcesses ↔ ∃ lane, place pid = some (.running lane) := by
  simp only [h.running_iff, runningProcesses, List.reduceOption_mem_iff]
  exact List.mem_iff_getElem?

namespace Placed

theorem exists_place (h : Placed n s place) (hpid : pid ∈ s.processes) :
    ∃ x, place pid = some x ∧ s.Fits pid (some x) := by
  obtain ⟨x, hx⟩ := Option.isSome_iff_exists.mp ((h.registered pid).mp hpid)
  exact ⟨x, hx, h.fits_of hx⟩

theorem partitioned (h : Placed n s place) : Partitioned s where
  once pid := by
    simp only [h.registered]
    exact h.represents.count_all
  ready pid hpid := by
    obtain ⟨x, hx, hfits⟩ := h.exists_place hpid
    rw [mem_getQueueSnapshot h.represents]
    rcases x with i | i | _ <;> simp [hx, hfits.1]
  running pid hpid := by
    obtain ⟨x, hx, hfits⟩ := h.exists_place hpid
    rw [mem_runningProcesses h.represents]
    rcases x with i | i | _ <;> simp [hx, hfits.1]
  blocked pid hpid := by
    obtain ⟨x, hx, hfits⟩ := h.exists_place hpid
    refine Iff.trans ?_ (h.represents.blocked_iff pid)
    rcases x with i | i | _ <;> simp [hx, hfits.1]
  ready_lane lane queue hq pid hpid := (h.fits_of (h.represents.ready_of_mem hq hpid)).2.1
  running_lane lane pid hrun := (h.fits_of ((h.represents.running_iff pid lane).mpr hrun)).2.1
  runStart pid hpid := by
    obtain ⟨x, hx, hfits⟩ := h.exists_place hpid
    rw [mem_runningProcesses h.represents]
    rcases x with i | i | _ <;> simp [hx, hfits.2]

end Placed

/-- In every run, however its operations interleave, each registered process is in exactly one
place and the tables agree with it. -/
theorem partitioned_run (policy : Option SchedulingPolicy) (pcbs : ProcessId → Pcb) (laneCount : ℕ)
    (hlanes : 0 < laneCount) (ops : List Op)
    (hops : machine.Guarded Admissible (create policy pcbs laneCount) ops) :
    Partitioned (machine.run (create policy pcbs laneCount) ops) := by
  obtain ⟨n, place, hplaced⟩ := machine.run_invariant_of_guarded
    (fun _ _ hop hinv => exec_inv hop hinv) ⟨_, _, placed_create policy pcbs hlanes⟩ hops
  exact hplaced.partitioned

def stealingRun : List Op :=
  [.enqueue 1 0, .enqueue 2 0, .enqueue 3 1, .selectNext 2, .stealNextForLane 1 3, .selectNext 5,
    .blockProcess 3 6, .unblock 3 7, .selectNextForLane 1 8, .terminate 2 9]

theorem partitioned_run_stealing :
    Partitioned (machine.run (create (some (roundRobinPolicy 2)) (fun _ => {}) 2) stealingRun) ∧
      (machine.run (create (some (roundRobinPolicy 2)) (fun _ => {}) 2) stealingRun).readyByLane =
        [[1, 3], []] :=
  ⟨partitioned_run _ _ 2 (by decide) stealingRun ⟨rfl, rfl, rfl, trivial, trivial, trivial, trivial,
    trivial, trivial, (by decide : some 2 ∈ [none, some 2]), trivial⟩, by decide +kernel⟩

end Contur.Scheduler
