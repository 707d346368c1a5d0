import Contur.SelectionOrder

/-!
# Places without conditions on the callers

A scheduler may be called in any order and with control blocks in any state. A registered
process may then have no place, since a refused termination takes it off its queue. What
remains is that no process has two places and that its block has the state of its place.
Every operation keeps this, except that `enqueueToLane` does not look for the process on
the blocked list: a blocked process comes onto a ready queue and stays where it is. What an
operation does to one process is a `Change`: its block is replaced when its place is.
-/

namespace Contur.Scheduler
open Function (update)
open Placement

variable {s s' : Scheduler} {place : ProcessId → Option Place} {pid : ProcessId} {lane : ℕ}
  (now : Tick)

def stateOf : Place → ProcessState
  | .ready _ => .ready
  | .running _ => .running
  | .blocked => .blocked

structure Tracked (s : Scheduler) (place : ProcessId → Option Place) : Prop where
  represents : Represents s.board place
  lanes : s.runningByLane.length = s.readyByLane.length
  lanes_pos : 0 < s.readyByLane.length
  registered : ∀ pid, (place pid).isSome → pid ∈ s.processes
  state : ∀ pid x, place pid = some x → (s.pcbs pid).state = stateOf x
  invalidPid : place invalidPid = none

namespace Tracked

theorem move (h : Tracked s place) {x : Option Place}
    (hrep : Represents s'.board (update place pid x)) (hlanes : SameLanes s s')
    (hpcbs : ∀ p, p ≠ pid → s'.pcbs p = s.pcbs p)
    (hprocesses : ∀ p, p ≠ pid → p ∈ s.processes → p ∈ s'.processes)
    (hpid : ∀ y, x = some y →
      pid ∈ s'.processes ∧ (s'.pcbs pid).state = stateOf y ∧ pid ≠ Contur.invalidPid) :
    Tracked s' (update place pid x) where
  represents := hrep
  lanes := LanesMatch.of_sameLanes h.lanes hlanes
  lanes_pos := hlanes.1 ▸ h.lanes_pos
  registered := by
    intro p hp
    by_cases hpp : p = pid
    · subst p
      obtain ⟨y, hy⟩ := Option.isSome_iff_exists.mp hp
      rw [Function.update_self] at hy
      exact (hpid y hy).1
    · rw [Function.update_of_ne hpp] at hp
      exact hprocesses p hpp (h.registered p hp)
  state := by
    intro p y hy
    by_cases hpp : p = pid
    · subst p
      rw [Function.update_self] at hy
      exact (hpid y hy).2.1
    · rw [Function.update_of_ne hpp] at hy
      rw [hpcbs p hpp, h.state p y hy]
  invalidPid := by
    by_cases hp : Contur.invalidPid = pid
    · cases x with
      | none => simp [← hp]
      | some y => exact absurd hp.symm (hpid y rfl).2.2
    · rw [Function.update_of_ne hp, h.invalidPid]

theorem ne_invalidPid (h : Tracked s place) {x : Place} (hp : place pid = some x) :
    pid ≠ Contur.invalidPid := by
  intro heq
  rw [heq, h.invalidPid] at hp
  cases hp

theorem moveTo (h : Tracked s place) {x y : Place} {pcb : Pcb} (hp : place pid = some x)
    (hrep : Represents s'.board (update place pid (some y))) (hlanes : SameLanes s s')
    (hpcbs : s'.pcbs = update s.pcbs pid pcb) (hprocesses : s'.processes = s.processes)
    (hstate : pcb.state = stateOf y) : Tracked s' (update place pid (some y)) := by
  apply h.move hrep hlanes
  · intro p hne
    rw [hpcbs, Function.update_of_ne hne]
  · intro p _ hmem
    rwa [hprocesses]
  · intro z hz
    obtain rfl := Option.some.inj hz
    refine ⟨?_, ?_, h.ne_invalidPid hp⟩
    · rw [hprocesses]
      exact h.registered pid (by simp [hp])
    · rw [hpcbs, Function.update_self, hstate]

theorem register (h : Tracked s place) (pid : ProcessId) :
    Tracked { s with processes := insert pid s.processes } place :=
  ⟨h.represents, h.lanes, h.lanes_pos, fun p hp => Finset.mem_insert_of_mem (h.registered p hp),
    h.state, h.invalidPid⟩

theorem running_lt_lanes (h : Tracked s place) (hp : place pid = some (.running lane)) :
    lane < s.readyByLane.length := by
  have hrun := (h.represents.running_iff pid lane).mp hp
  exact h.lanes ▸ (List.getElem?_eq_some_iff.mp hrun).1

end Tracked

def Chosen (s : Scheduler) (lane : ℕ) (now : Tick) (candidate : ProcessId) : Prop :=
  ∃ policy ready, s.policy = some policy ∧ s.readyByLane[lane]? = some ready ∧
    candidate ∈ ready ∧ policy.selectNext (s.asConst ready) now = candidate

theorem choice_chosen (s : Scheduler) (lane : ℕ) (now : Tick) :
    match s.choice lane now with
    | .starts candidate =>
      (s.runningByLane[lane]?).join = none ∧ s.Chosen lane now candidate
    | .replaces running candidate =>
      (s.runningByLane[lane]?).join = some running ∧ s.Chosen lane now candidate
    | _ => True := by
  unfold choice
  cases hpolicy : s.policy with
  | none => trivial
  | some policy =>
    cases hready : s.readyByLane[lane]? with
    | none => trivial
    | some ready =>
      cases ready with
      | nil => cases (s.runningByLane[lane]?).join <;> trivial
      | cons first rest =>
        dsimp only
        generalize hcandidate : policy.selectNext (s.asConst (first :: rest)) now = candidate
        by_cases hinvalid : candidate = invalidPid ∨ candidate ∉ first :: rest
        · rw [if_pos hinvalid]
          trivial
        · have hmem : candidate ∈ first :: rest := not_not.mp (not_or.mp hinvalid).2
          have hchosen : s.Chosen lane now candidate :=
            ⟨policy, _, hpolicy, hready, hmem, hcandidate⟩
          rw [if_neg hinvalid]
          cases hrun : (s.runningByLane[lane]?).join with
          | none => exact ⟨rfl, hchosen⟩
          | some running =>
            dsimp only
            by_cases hpreempt : policy.shouldPreempt (toSnapshot running (s.pcbs running))
                (toSnapshot candidate (s.pcbs candidate)) now = true
            · rw [if_pos hpreempt]
              exact ⟨rfl, hchosen⟩
            · rw [if_neg hpreempt]
              trivial

/-- The change of one process from place to place. Only a selection starts a process. -/
inductive Change (s s' : Scheduler) (now : Tick) (p : ProcessId) :
    Option Place → Option Place → Prop where
  | kept {x : Option Place} (hpcb : s'.pcbs p = s.pcbs p) : Change s s' now p x x
  | left {x : Option Place} (hpcb : s'.pcbs p = s.pcbs p) : Change s s' now p x none
  | enters {x : Option Place} {lane : ℕ} (hx : ∀ i, x ≠ some (.ready i))
      (hpcb : (s'.pcbs p).timing.lastStateChange = now) : Change s s' now p x (some (.ready lane))
  | starts {lane : ℕ} (hchosen : s.Chosen lane now p)
      (hpcb : (s'.pcbs p).timing.lastStateChange = now) :
      Change s s' now p (some (.ready lane)) (some (.running lane))
  | blocks {x : Option Place} (hpcb : (s'.pcbs p).timing.lastStateChange = now) :
      Change s s' now p x (some .blocked)
  | ends {x : Option Place} (hpcb : (s'.pcbs p).timing.lastStateChange = now) :
      Change s s' now p x none

theorem Change.congr {s₁ : Scheduler} {x y : Option Place} (h : Change s s₁ now pid x y)
    (hpcb : s'.pcbs pid = s₁.pcbs pid) : Change s s' now pid x y := by
  cases h with
  | kept hkept => exact .kept (hpcb.trans hkept)
  | left hkept => exact .left (hpcb.trans hkept)
  | enters hx hchanged => exact .enters hx (hpcb ▸ hchanged)
  | starts hchosen hchanged => exact .starts hchosen (hpcb ▸ hchanged)
  | blocks hchanged => exact .blocks (hpcb ▸ hchanged)
  | ends hchanged => exact .ends (hpcb ▸ hchanged)

structure Moves (s s' : Scheduler) (now : Tick) (place place' : ProcessId → Option Place) :
    Prop where
  tracked : Tracked s' place'
  change : ∀ p, Change s s' now p (place p) (place' p)

theorem Moves.of_pcbs (h : Tracked s' place) (hpcbs : s'.pcbs = s.pcbs) :
    Moves s s' now place place :=
  ⟨h, fun p => .kept (by rw [hpcbs])⟩

theorem Moves.of_update {pcb : Pcb} {x : Option Place} (h : Tracked s' (update place pid x))
    (hpcbs : s'.pcbs = update s.pcbs pid pcb)
    (hchange : s'.pcbs pid = pcb → Change s s' now pid (place pid) x) :
    Moves s s' now place (update place pid x) := by
  refine ⟨h, fun p => ?_⟩
  by_cases hp : p = pid
  · subst p
    rw [Function.update_self]
    apply hchange
    rw [hpcbs, Function.update_self]
  · rw [Function.update_of_ne hp]
    apply Change.kept
    rw [hpcbs, Function.update_of_ne hp]

theorem lastStateChange_of_setState {pcb pcb' : Pcb} {newState : ProcessState}
    (h : pcb.setState newState now = some pcb') : pcb'.timing.lastStateChange = now := by
  obtain ⟨-, -, -, -, -, hchanged⟩ := Pcb.setState_eq_some h
  exact hchanged

theorem lastStateChange_estimate (prediction : Option Tick) (pcb : Pcb) :
    (estimate prediction pcb).timing.lastStateChange = pcb.timing.lastStateChange := by
  cases prediction <;> rfl

theorem enqueueToLane_moves (h : Tracked s place)
    (hblocked : pid ∉ s.blocked ∨ s.readyByLane.length ≤ lane) :
    ∃ place', Moves s (s.enqueueToLane pid lane now).2 now place place' ∧
      ((s.enqueueToLane pid lane now).1 = .ok () → (place' pid).isSome) := by
  have hsame := enqueueToLane_lanes s pid lane now
  unfold enqueueToLane at hsame ⊢
  by_cases hlane : s.readyByLane.length ≤ lane
  · rw [if_pos hlane]
    exact ⟨place, .of_pcbs now h rfl, fun hok => by cases hok⟩
  by_cases hvalid : pid = Contur.invalidPid
  · rw [if_neg hlane, if_pos hvalid]
    exact ⟨place, .of_pcbs now h rfl, fun hok => by cases hok⟩
  rw [if_neg hlane, if_neg hvalid] at hsame ⊢
  have hregister := h.register pid
  cases hp : place pid with
  | some x =>
    cases x with
    | ready i =>
      have hfound := (findReadyLane_spec hregister.represents).mpr hp
      simp only [hfound, Option.isSome_some, ↓reduceIte]
      exact ⟨place, .of_pcbs now hregister rfl, fun _ => by simp [hp]⟩
    | running i =>
      have hready := findReadyLane_eq_none hregister.represents pid (by simp [hp])
      have hfound := (findRunningLane_spec hregister.represents).mpr hp
      simp only [hready, hfound, Option.isSome_none, Option.isSome_some, Bool.false_eq_true,
        ↓reduceIte]
      exact ⟨place, .of_pcbs now hregister rfl, fun _ => by simp [hp]⟩
    | blocked =>
      exact absurd ((h.represents.blocked_iff pid).mp hp) (hblocked.resolve_right hlane)
  | none =>
    have hready := findReadyLane_eq_none hregister.represents pid (by simp [hp])
    have hrunning := findRunningLane_eq_none hregister.represents pid (by simp [hp])
    simp only [hready, hrunning, Option.isSome_none, Bool.false_eq_true, ↓reduceIte] at hsame ⊢
    by_cases hstate : (s.pcbs pid).state = .running
    · rw [if_pos hstate]
      exact ⟨place, .of_pcbs now hregister rfl, fun hok => by cases hok⟩
    rw [if_neg hstate] at hsame ⊢
    cases hset : (s.pcbs pid).setState .ready now with
    | none => exact ⟨place, .of_pcbs now hregister rfl, fun hok => by cases hok⟩
    | some pcb =>
      rw [hset] at hsame
      have hpushed := h.represents.pushReady hp (Nat.not_le.mp hlane)
      have hready : pcb.state = .ready := (Pcb.setState_eq_some hset).2.1
      refine ⟨_, .of_update now (h.move hpushed hsame ?_ ?_ ?_) rfl ?_, fun _ => by simp⟩
      · intro p hp
        simp [hp]
      · exact fun p _ hp => Finset.mem_insert_of_mem hp
      · intro y hy
        obtain rfl := Option.some.inj hy
        refine ⟨Finset.mem_insert_self _ _, ?_, hvalid⟩
        cases hpred : s.predictions pid <;> simp [estimate, hready, stateOf]
      · intro hpcb
        rw [hp]
        apply Change.enters (by simp)
        rw [hpcb, lastStateChange_estimate, lastStateChange_of_setState now hset]

theorem dequeue_moves (h : Tracked s place) (pid : ProcessId) :
    ∃ place', Moves s (s.dequeue pid).2 now place place' := by
  have hsame := dequeue_lanes s pid
  unfold dequeue at hsame ⊢
  by_cases hmem : pid ∈ s.processes
  · rw [if_neg (not_not.mpr hmem)] at hsame ⊢
    have hrep := h.represents.remove pid
    refine ⟨_, h.move hrep hsame (fun p hp => rfl) ?_ (by simp), fun p => ?_⟩
    · exact fun p hne hp => Finset.mem_erase.mpr ⟨hne, hp⟩
    · by_cases hp : p = pid
      · rw [hp, Function.update_self]
        exact .left rfl
      · rw [Function.update_of_ne hp]
        exact .kept rfl
  · rw [if_pos hmem]
    exact ⟨place, .of_pcbs now h rfl⟩

theorem preempt_moves (h : Tracked s place) (hp : place pid = some (.running lane)) :
    ∃ t, s.preempt lane pid now = (.ok (), t) ∧ t.runningByLane[lane]? = some none ∧
      Moves s t now place (update place pid (some (.ready lane))) := by
  have hsame := preempt_lanes s lane pid now
  obtain ⟨predictions, hrec⟩ := recordRunningBurst_eq s pid now
  obtain ⟨pcb, hpcb, hstate⟩ := Pcb.setState_of_valid (h.state pid _ hp)
    (rfl : isValidTransition _ .ready = true) now
  simp only [preempt, hrec, hpcb] at hsame ⊢
  have hrep := h.represents.runningToReady hp (h.running_lt_lanes hp)
  refine ⟨_, rfl, ?_, .of_update now (h.moveTo hp hrep hsame rfl rfl hstate) rfl ?_⟩
  · exact List.getElem?_set_self (h.lanes ▸ h.running_lt_lanes hp)
  · intro heq
    rw [hp]
    apply Change.enters (by simp)
    rw [heq, lastStateChange_of_setState now hpcb]

theorem startOn_tracked (h : Tracked s place) (hp : place pid = some (.ready lane))
    (hfree : s.runningByLane[lane]? = some none) :
    Tracked (s.startOn lane pid now).2 (update place pid (some (.running lane))) ∧
      ∃ pcb, (s.startOn lane pid now).2.pcbs = update s.pcbs pid pcb ∧
        pcb.timing.lastStateChange = now := by
  have hsame := startOn_lanes s lane pid now
  obtain ⟨pcb, hpcb, hstate⟩ := Pcb.setState_of_valid (h.state pid _ hp)
    (rfl : isValidTransition _ .running = true) now
  simp only [startOn, hpcb] at hsame ⊢
  have hrep := h.represents.readyToRunning hp hfree
  exact ⟨h.moveTo hp hrep hsame rfl rfl hstate, pcb, rfl, lastStateChange_of_setState now hpcb⟩

theorem blockOn_moves (h : Tracked s place) (hp : place pid = some (.running lane)) :
    ∃ place', Moves s (s.blockOn lane pid now).2 now place place' := by
  have hsame := blockOn_lanes s lane pid now
  obtain ⟨predictions, hrec⟩ := recordRunningBurst_eq s pid now
  obtain ⟨pcb, hpcb, hstate⟩ := Pcb.setState_of_valid (h.state pid _ hp)
    (rfl : isValidTransition _ .blocked = true) now
  simp only [blockOn, hrec, hpcb] at hsame ⊢
  have hrep := h.represents.runningToBlocked hp
  refine ⟨_, .of_update now (h.moveTo hp hrep hsame rfl rfl hstate) rfl ?_⟩
  intro heq
  apply Change.blocks
  rw [heq, lastStateChange_of_setState now hpcb]

theorem blockRunning_moves (h : Tracked s place) :
    ∃ place', Moves s (s.blockRunning now).2 now place place' := by
  unfold blockRunning
  split
  · exact ⟨place, .of_pcbs now h rfl⟩
  · next lane _ =>
    split
    · next pid hrun =>
      exact blockOn_moves now h ((h.represents.running_iff pid lane).mpr hrun)
    · exact ⟨place, .of_pcbs now h rfl⟩

theorem blockProcess_moves (h : Tracked s place) (pid : ProcessId) :
    ∃ place', Moves s (s.blockProcess pid now).2 now place place' := by
  unfold blockProcess
  by_cases hmem : pid ∈ s.processes
  · rw [if_neg (not_not.mpr hmem)]
    cases hrun : s.findRunningLane pid with
    | some lane => exact blockOn_moves now h ((findRunningLane_spec h.represents).mp hrun)
    | none =>
      cases hready : s.findReadyLane pid with
      | none => exact ⟨place, .of_pcbs now h rfl⟩
      | some lane =>
        have hp := (findReadyLane_spec h.represents).mp hready
        have hrefused : (s.pcbs pid).setState .blocked now = none :=
          Pcb.setState_of_invalid (h.state pid _ hp) rfl now
        simp only [hrefused]
        exact ⟨place, .of_pcbs now h rfl⟩
  · rw [if_pos hmem]
    exact ⟨place, .of_pcbs now h rfl⟩

theorem unblock_moves (h : Tracked s place) (pid : ProcessId) :
    ∃ place', Moves s (s.unblock pid now).2 now place place' ∧ SameProcesses place place' := by
  have hsame := unblock_lanes s pid now
  unfold unblock at hsame ⊢
  by_cases hmem : pid ∈ s.blocked
  · rw [if_neg (not_not.mpr hmem)] at hsame ⊢
    have hp := (h.represents.blocked_iff pid).mpr hmem
    obtain ⟨pcb, hpcb, hstate⟩ := Pcb.setState_of_valid (h.state pid _ hp)
      (rfl : isValidTransition _ .ready = true) now
    simp only [hpcb] at hsame ⊢
    have hrep := h.represents.blockedToReady hp (returnLane_lt pid h.lanes_pos)
    refine ⟨_, .of_update now (h.moveTo hp hrep hsame rfl rfl hstate) rfl ?_,
      sameProcesses_update (by simp [hp]) _⟩
    intro heq
    rw [hp]
    apply Change.enters (by simp)
    rw [heq, lastStateChange_of_setState now hpcb]
  · rw [if_pos hmem]
    exact ⟨place, .of_pcbs now h rfl, fun _ => rfl⟩

theorem removed_represents (h : Represents s.board place) (hrun : s.findRunningLane pid = none) :
    Represents ⟨removeFromAllReady s.readyByLane pid, s.runningByLane, removeFrom s.blocked pid⟩
      (update place pid none) := by
  have hnot : ∀ x ∈ s.runningByLane, (if x = some pid then none else x) = x := by
    intro x hx
    have hne := List.findIdx?_eq_none_iff.mp hrun x hx
    exact if_neg (by simpa using hne)
  have hslots := (List.map_congr_left hnot).trans (List.map_id _)
  have hremove := h.remove pid
  rwa [Board.remove, show s.board.running = s.runningByLane from rfl, hslots] at hremove

theorem terminate_moves (h : Tracked s place) (pid : ProcessId) :
    ∃ place', Moves s (s.terminate pid now).2 now place place' := by
  have hsame := terminate_lanes s pid now
  unfold terminate at hsame ⊢
  by_cases hmem : pid ∈ s.processes
  · rw [if_neg (not_not.mpr hmem)] at hsame ⊢
    have hforgotten : ∀ p, p ≠ pid → p ∈ s.processes → p ∈ s.processes.erase pid :=
      fun p hne hp => Finset.mem_erase.mpr ⟨hne, hp⟩
    cases hrun : s.findRunningLane pid with
    | some lane =>
      have hp := (findRunningLane_spec h.represents).mp hrun
      obtain ⟨predictions, hrec⟩ := recordRunningBurst_eq s pid now
      obtain ⟨pcb, hpcb, -⟩ := Pcb.setState_of_valid (h.state pid _ hp)
        (rfl : isValidTransition _ .terminated = true) now
      simp only [hrun, hrec, hpcb] at hsame ⊢
      have hrep := h.represents.clearRunning hp
      refine ⟨_, .of_update now (h.move hrep hsame ?_ hforgotten (by simp)) rfl ?_⟩
      · intro p hne
        simp [forget, hne]
      · intro heq
        apply Change.ends
        rw [heq, lastStateChange_of_setState now hpcb]
    | none =>
      have hrep := removed_represents h.represents hrun
      simp only [hrun] at hsame ⊢
      cases hset : (s.pcbs pid).setState .terminated now with
      | none =>
        rw [hset] at hsame
        have hsame_pcbs := (Function.update_eq_self pid s.pcbs).symm
        exact ⟨_, .of_update now (h.move hrep hsame (fun _ _ => rfl) (fun p _ hp => hp) (by simp))
          hsame_pcbs fun heq => .left heq⟩
      | some pcb =>
        rw [hset] at hsame
        refine ⟨_, .of_update now (h.move hrep hsame ?_ hforgotten (by simp)) rfl ?_⟩
        · intro p hne
          simp [forget, hne]
        · intro heq
          apply Change.ends
          rw [heq, lastStateChange_of_setState now hset]
  · rw [if_pos hmem]
    exact ⟨place, .of_pcbs now h rfl⟩

inductive Switch (s : Scheduler) (lane : ℕ) (now : Tick) : Scheduler → Prop where
  | stays : Switch s lane now s
  | starts {candidate : ProcessId} (hchosen : s.Chosen lane now candidate)
      (hfree : s.runningByLane[lane]? = some none) :
      Switch s lane now (s.startOn lane candidate now).2
  | replaces {running candidate : ProcessId} {t : Scheduler} (hchosen : s.Chosen lane now candidate)
      (hrun : s.runningByLane[lane]? = some (some running))
      (hpreempt : s.preempt lane running now = (.ok (), t)) :
      Switch s lane now (t.startOn lane candidate now).2

theorem Chosen.ready (h : s.Chosen lane now pid) (hs : Tracked s place) :
    place pid = some (.ready lane) := by
  obtain ⟨policy, ready, -, hready, hmem, -⟩ := h
  exact hs.represents.ready_of_mem hready hmem

theorem selectNextForLane_switch (h : Tracked s place) (lane : ℕ) :
    Switch s lane now (s.selectNextForLane lane now).2 := by
  have hselect := selectNextForLane_eq s lane now
  have hchosen := choice_chosen s lane now
  cases hchoice : s.choice lane now with
  | refused =>
    rw [hchoice] at hselect
    obtain ⟨code, heq⟩ := hselect
    rw [heq]
    exact .stays
  | keeps running =>
    rw [hchoice] at hselect
    have heq : s.selectNextForLane lane now = (.ok running, s) := hselect
    rw [heq]
    exact .stays
  | starts candidate =>
    rw [hchoice] at hselect hchosen
    rw [hselect.1]
    obtain ⟨ready, hready, -⟩ := hselect.2
    have hlane : lane < s.runningByLane.length := h.lanes ▸ (List.getElem?_eq_some_iff.mp hready).1
    have hfree : s.runningByLane[lane]? = some none := by
      rw [List.getElem?_eq_getElem hlane, Option.some.injEq]
      have hjoin := hchosen.1
      rwa [List.getElem?_eq_getElem hlane, Option.join_some] at hjoin
    exact .starts hchosen.2 hfree
  | replaces running candidate =>
    rw [hchoice] at hselect hchosen
    have hrun := Option.join_eq_some_iff.mp hchosen.1
    obtain ⟨t, ht, -⟩ := preempt_moves now h ((h.represents.running_iff running lane).mpr hrun)
    rw [hselect.2.2 t ht]
    exact .replaces hchosen.2 hrun ht

theorem selectNextForLane_moves (h : Tracked s place) (lane : ℕ) :
    ∃ place', Moves s (s.selectNextForLane lane now).2 now place place' ∧
      SameProcesses place place' := by
  have hswitch := selectNextForLane_switch now h lane
  generalize (s.selectNextForLane lane now).2 = s' at hswitch ⊢
  cases hswitch with
  | stays => exact ⟨place, .of_pcbs now h rfl, fun _ => rfl⟩
  | starts hchosen hfree =>
    have hp := hchosen.ready now h
    obtain ⟨htracked, pcb, hpcbs, hchanged⟩ := startOn_tracked now h hp hfree
    refine ⟨_, .of_update now htracked hpcbs ?_, sameProcesses_update (by simp [hp]) _⟩
    intro heq
    rw [hp]
    exact .starts hchosen (heq ▸ hchanged)
  | @replaces running candidate t hchosen hrun hpreempt =>
    have hrunning := (h.represents.running_iff _ lane).mpr hrun
    obtain ⟨t, ht, hfree, hmoves⟩ := preempt_moves now h hrunning
    rw [hpreempt] at ht
    cases ht
    have hcandidate := hchosen.ready now h
    have hne : candidate ≠ running := by
      intro heq
      rw [heq, hrunning] at hcandidate
      cases hcandidate
    have hp := ready_of_preempt hrunning hcandidate
    obtain ⟨htracked, pcb, hpcbs, hchanged⟩ := startOn_tracked now hmoves.tracked hp hfree
    refine ⟨_, ⟨htracked, fun p => ?_⟩, fun p => ?_⟩
    · by_cases hpc : p = candidate
      · rw [hpc, Function.update_self, hcandidate]
        apply Change.starts hchosen
        rw [hpcbs, Function.update_self, hchanged]
      · -- the second move leaves the other processes as the first one has put them
        rw [Function.update_of_ne hpc]
        have hkept : (t.startOn lane candidate now).2.pcbs p = t.pcbs p := by
          rw [hpcbs, Function.update_of_ne hpc]
        exact (hmoves.change p).congr now hkept
    · rw [sameProcesses_update (by simp [hp]) _ p, sameProcesses_update (by simp [hrunning]) _ p]

theorem stealNextForLane_tracked (h : Tracked s place) :
    ∃ place', Tracked (s.stealNextForLane lane now).2 place' := by
  unfold stealNextForLane
  by_cases hlane : s.readyByLane.length ≤ lane
  · rw [if_pos hlane]
    exact ⟨place, h⟩
  rw [if_neg hlane]
  cases hvictim : (victimLane lane s.readyByLane).1 with
  | none => exact ⟨place, h⟩
  | some victim =>
    dsimp only
    cases hq : s.readyByLane.getD victim [] with
    | nil => exact ⟨place, h⟩
    | cons stolen rest =>
      have hget := getElem?_of_getD_cons hq
      have hp := h.represents.ready_of_mem hget List.mem_cons_self
      have htail : s.readyByLane.modify victim List.tail =
          s.readyByLane.modify victim (·.filter (· ≠ stolen)) := h.represents.modify_tail hget
      dsimp only
      rw [htail]
      have hrep := h.represents.readyToReady hp (Nat.not_le.mp hlane)
      have hstate : (s.pcbs stolen).state = stateOf (.ready lane) :=
        h.state stolen (.ready victim) hp
      have hmoved : Tracked { s with
          readyByLane := (s.readyByLane.modify victim (·.filter (· ≠ stolen))).modify lane
            (· ++ [stolen])
          processLane := update s.processLane stolen (some lane) }
          (update place stolen (some (.ready lane))) :=
        h.moveTo hp hrep (by simp [SameLanes]) (Function.update_eq_self stolen s.pcbs).symm rfl
          hstate
      obtain ⟨place', hmoves, -⟩ := selectNextForLane_moves now hmoved lane
      exact ⟨place', hmoves.tracked⟩

theorem configureLanes_tracked (h : Tracked s place) (laneCount : ℕ) :
    Tracked (s.configureLanes laneCount).2 place := by
  unfold configureLanes
  split_ifs with hzero hproc
  · exact h
  · exact h
  · have hnone : place = fun _ => none := by
      funext p
      by_contra hp
      have hmem := h.registered p (Option.isSome_iff_ne_none.mpr hp)
      exact hproc ⟨p, hmem⟩
    subst hnone
    have hblocked : s.blocked = [] := h.represents.blocked_eq_nil
    refine ⟨?_, by simp, by simpa using Nat.pos_of_ne_zero hzero, by simp, by simp, rfl⟩
    simpa [board, hblocked] using Represents.empty (α := ProcessId) laneCount laneCount

theorem tracked_create (policy : Option SchedulingPolicy) (pcbs : ProcessId → Pcb) {laneCount : ℕ}
    (h : 0 < laneCount) : Tracked (create policy pcbs laneCount) fun _ => none :=
  ⟨Represents.empty laneCount laneCount, by simp [create], by simpa [create] using h, by simp,
    by simp, rfl⟩

/-- No enqueued process is on the blocked list, unless the lane does not exist. -/
def EnqueuesUnblocked (s : Scheduler) : Op → Prop
  | .enqueue pid _ => pid ∉ s.blocked
  | .enqueueToLane pid laneIndex _ => pid ∉ s.blocked ∨ s.readyByLane.length ≤ laneIndex
  | _ => True

def Op.Single : Op → Prop
  | .stealNextForLane _ _ => False
  | .configureLanes _ => False
  | .setPolicy _ => False
  | _ => True

def Op.tick : Op → Option Tick
  | .enqueue _ now => some now
  | .enqueueToLane _ _ now => some now
  | .dequeue _ => none
  | .selectNext now => some now
  | .selectNextForLane _ now => some now
  | .stealNextForLane _ now => some now
  | .blockRunning now => some now
  | .blockProcess _ now => some now
  | .unblock _ now => some now
  | .terminate _ now => some now
  | .configureLanes _ => none
  | .setPolicy _ => none

theorem exec_moves {op : Op} (hsingle : op.Single) (hop : EnqueuesUnblocked s op)
    (h : Tracked s place) (hnow : ∀ t, op.tick = some t → t = now) :
    ∃ place', Moves s (machine.next s op) now place place' := by
  cases op with
  | enqueue pid t =>
    obtain rfl := hnow t rfl
    have hlane : pid ∉ s.blocked ∨ s.readyByLane.length ≤ 0 := Or.inl hop
    obtain ⟨place', hmoves, -⟩ := enqueueToLane_moves t h hlane
    exact ⟨place', hmoves⟩
  | enqueueToLane pid laneIndex t =>
    obtain rfl := hnow t rfl
    obtain ⟨place', hmoves, -⟩ := enqueueToLane_moves t h hop
    exact ⟨place', hmoves⟩
  | dequeue pid => exact dequeue_moves now h pid
  | selectNext t =>
    obtain rfl := hnow t rfl
    obtain ⟨place', hmoves, -⟩ := selectNextForLane_moves t h 0
    exact ⟨place', hmoves⟩
  | selectNextForLane laneIndex t =>
    obtain rfl := hnow t rfl
    obtain ⟨place', hmoves, -⟩ := selectNextForLane_moves t h laneIndex
    exact ⟨place', hmoves⟩
  | blockRunning t =>
    obtain rfl := hnow t rfl
    exact blockRunning_moves t h
  | blockProcess pid t =>
    obtain rfl := hnow t rfl
    exact blockProcess_moves t h pid
  | unblock pid t =>
    obtain rfl := hnow t rfl
    obtain ⟨place', hmoves, -⟩ := unblock_moves t h pid
    exact ⟨place', hmoves⟩
  | terminate pid t =>
    obtain rfl := hnow t rfl
    exact terminate_moves t h pid
  | stealNextForLane _ _ => exact hsingle.elim
  | configureLanes _ => exact hsingle.elim
  | setPolicy _ => exact hsingle.elim

theorem exec_tracked {op : Op} (hop : EnqueuesUnblocked s op) (h : ∃ place, Tracked s place) :
    ∃ place', Tracked (machine.next s op) place' := by
  obtain ⟨place, h⟩ := h
  by_cases hsingle : op.Single
  · obtain ⟨place', hmoves⟩ := exec_moves (op.tick.getD 0) hsingle hop h
      (fun t ht => by rw [ht, Option.getD_some])
    exact ⟨place', hmoves.tracked⟩
  · cases op with
    | stealNextForLane thiefLane now => exact stealNextForLane_tracked now h
    | configureLanes laneCount => exact ⟨place, configureLanes_tracked h laneCount⟩
    | setPolicy policy =>
      cases policy with
      | none => exact ⟨place, h⟩
      | some policy =>
        exact ⟨place, h.represents, h.lanes, h.lanes_pos, h.registered, h.state, h.invalidPid⟩
    | _ => exact absurd trivial hsingle

theorem tracked_run (policy : Option SchedulingPolicy) (pcbs : ProcessId → Pcb) {laneCount : ℕ}
    (hlanes : 0 < laneCount) {ops : List Op}
    (hops : machine.Guarded EnqueuesUnblocked (create policy pcbs laneCount) ops) :
    ∃ place, Tracked (machine.run (create policy pcbs laneCount) ops) place :=
  machine.run_invariant_of_guarded (fun _ _ => exec_tracked) ⟨_, tracked_create policy pcbs hlanes⟩
    hops

structure InOnePlace (s : Scheduler) (pid : ProcessId) : Prop where
  once : s.board.all.count pid = 1
  ready : pid ∈ s.getQueueSnapshot → (s.pcbs pid).state = .ready
  running : pid ∈ s.runningProcesses → (s.pcbs pid).state = .running
  blocked : pid ∈ s.getBlockedSnapshot → (s.pcbs pid).state = .blocked

theorem Tracked.inOnePlace (h : Tracked s place) (hp : (place pid).isSome) : InOnePlace s pid := by
  refine ⟨?_, ?_, ?_, ?_⟩
  · rw [h.represents.count_all, if_pos hp]
  · intro hmem
    obtain ⟨lane, hlane⟩ := (mem_getQueueSnapshot h.represents).mp hmem
    exact h.state pid _ hlane
  · intro hmem
    obtain ⟨lane, hlane⟩ := (mem_runningProcesses h.represents).mp hmem
    exact h.state pid _ hlane
  · intro hmem
    exact h.state pid _ ((h.represents.blocked_iff pid).mpr hmem)

def Op.Resumes : Op → Prop
  | .selectNext _ => True
  | .selectNextForLane _ _ => True
  | .unblock _ _ => True
  | _ => False

theorem resumes_tracked {op : Op} (hop : op.Resumes)
    (h : ∃ place, Tracked s place ∧ (place pid).isSome) :
    ∃ place', Tracked (machine.next s op) place' ∧ (place' pid).isSome := by
  obtain ⟨place, h, hp⟩ := h
  have hkept : ∃ now place', Moves s (machine.next s op) now place place' ∧
      SameProcesses place place' := by
    cases op with
    | selectNext now => exact ⟨now, selectNextForLane_moves now h 0⟩
    | selectNextForLane laneIndex now => exact ⟨now, selectNextForLane_moves now h laneIndex⟩
    | unblock pid now => exact ⟨now, unblock_moves now h pid⟩
    | _ => exact hop.elim
  obtain ⟨now, place', hmoves, hsame⟩ := hkept
  exact ⟨place', hmoves.tracked, (hsame pid).trans hp⟩

/-- Once `enqueueToLane` has succeeded, the process is in one place, and so it stays. -/
def EnqueuesOnce (s : Scheduler) (pid : ProcessId) (lane : ℕ) (now : Tick) : Prop :=
  (s.enqueueToLane pid lane now).1 = .ok () → ∀ later : List Op, (∀ op ∈ later, op.Resumes) →
    InOnePlace (machine.run (s.enqueueToLane pid lane now).2 later) pid

theorem enqueueToLane_of_blocked (h : Tracked s place) (hblocked : pid ∈ s.blocked)
    (hlane : lane < s.readyByLane.length) :
    (s.enqueueToLane pid lane now).1 = .ok () ∧
      pid ∈ (s.enqueueToLane pid lane now).2.getQueueSnapshot ∧
      pid ∈ (s.enqueueToLane pid lane now).2.getBlockedSnapshot := by
  have hregister := h.register pid
  have hp := (h.represents.blocked_iff pid).mpr hblocked
  have hready := findReadyLane_eq_none hregister.represents pid (by simp [hp])
  have hrunning := findRunningLane_eq_none hregister.represents pid (by simp [hp])
  have hstate : (s.pcbs pid).state = .blocked := h.state pid _ hp
  obtain ⟨pcb, hpcb, -⟩ := Pcb.setState_of_valid hstate
    (rfl : isValidTransition _ .ready = true) now
  have hinvalid := h.ne_invalidPid hp
  simp only [enqueueToLane, Nat.not_le.mpr hlane, hinvalid, hready, hrunning, hstate, hpcb,
    Option.isSome_none, Bool.false_eq_true, reduceCtorEq, ↓reduceIte, true_and]
  refine ⟨List.mem_flatten.mpr ⟨s.readyByLane[lane] ++ [pid], ?_, by simp⟩, hblocked⟩
  apply List.mem_of_getElem? (i := lane)
  simp [hlane]

theorem enqueuesOnce_iff (h : Tracked s place) :
    EnqueuesOnce s pid lane now ↔ pid ∉ s.blocked ∨ s.readyByLane.length ≤ lane := by
  constructor
  · intro honce
    by_contra hnot
    obtain ⟨hblocked, hlane⟩ := not_or.mp hnot
    obtain ⟨hok, hready, hlisted⟩ := enqueueToLane_of_blocked now h (not_not.mp hblocked)
      (Nat.not_le.mp hlane)
    have hcount := (honce hok [] (by simp)).once
    rw [Transition.Machine.run_nil, Board.all, List.count_append, List.count_append] at hcount
    have hone := List.count_pos_iff.mpr hready
    have htwo := List.count_pos_iff.mpr hlisted
    simp only [getQueueSnapshot, getBlockedSnapshot] at hone htwo
    simp only [board] at hcount
    omega
  · intro hnot hok later hlater
    obtain ⟨place', hmoves, hplace⟩ := enqueueToLane_moves now h hnot
    have hguarded := machine.guarded_of_forall (s.enqueueToLane pid lane now).2 hlater
    obtain ⟨place'', htracked', hplace'⟩ := machine.run_invariant_of_guarded
      (P := fun t => ∃ place, Tracked t place ∧ (place pid).isSome)
      (fun _ _ hop => resumes_tracked hop) ⟨place', hmoves.tracked, hplace hok⟩ hguarded
    exact htracked'.inOnePlace hplace'

/-- After a run that has enqueued no blocked process, a successful `enqueueToLane` leaves a process
in one place exactly when it is not blocked. -/
theorem enqueue_once_iff (policy : Option SchedulingPolicy) (pcbs : ProcessId → Pcb) (laneCount : ℕ)
    (hlanes : 0 < laneCount) (ops : List Op)
    (hops : machine.Guarded EnqueuesUnblocked (create policy pcbs laneCount) ops)
    (pid : ProcessId) (lane : ℕ) (now : Tick) :
    let s := machine.run (create policy pcbs laneCount) ops
    EnqueuesOnce s pid lane now ↔ pid ∉ s.blocked ∨ s.readyByLane.length ≤ lane := by
  obtain ⟨place, htracked⟩ := tracked_run policy pcbs hlanes hops
  exact enqueuesOnce_iff now htracked

def blockingRun : List Op := [.enqueue 1 0, .selectNext 1, .blockProcess 1 2]

theorem enqueue_once_of_running :
    EnqueuesOnce (machine.run (create (some fcfsPolicy) (fun _ => {}) 2)
      [.enqueue 1 0, .selectNext 1]) 1 1 2 :=
  (enqueue_once_iff (some fcfsPolicy) (fun _ => {}) 2 (by decide) [.enqueue 1 0, .selectNext 1]
    ⟨List.not_mem_nil, trivial, trivial⟩ 1 1 2).mpr (Or.inl (by decide +kernel))

/-- The blocked process is enqueued, and a selection then runs it while it is on the blocked list.
-/
theorem enqueue_doubles_blocked :
    let s := machine.run (create (some fcfsPolicy) (fun _ => {}) 1) blockingRun
    let enqueued := (s.enqueueToLane 1 0 3).2
    machine.Guarded EnqueuesUnblocked (create (some fcfsPolicy) (fun _ => {}) 1) blockingRun ∧
      s.getBlockedSnapshot = [1] ∧ (s.enqueueToLane 1 0 3).1 = .ok () ∧
      enqueued.getQueueSnapshot = [1] ∧ enqueued.getBlockedSnapshot = [1] ∧
      (machine.next enqueued (.selectNext 4)).runningProcesses = [1] ∧
      (machine.next enqueued (.selectNext 4)).getBlockedSnapshot = [1] ∧
      ¬ EnqueuesOnce s 1 0 3 := by
  intro s enqueued
  have hok : (s.enqueueToLane 1 0 3).1 = .ok () := by decide +kernel
  refine ⟨⟨List.not_mem_nil, trivial, trivial, trivial⟩, by decide +kernel, hok, by decide +kernel,
    by decide +kernel, by decide +kernel, by decide +kernel, ?_⟩
  intro honce
  have htwice : enqueued.board.all.count 1 = 2 := by decide +kernel
  have hcount : enqueued.board.all.count 1 = 1 := (honce hok [] (by simp)).once
  omega

end Contur.Scheduler
