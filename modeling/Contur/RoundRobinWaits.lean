import Mathlib.Data.Finset.Card
import Contur.RoundRobinTurns
import Contur.SchedulerErrors

/-!
# The turns before a waiting process

A process that waits has some processes ahead of it: those that came onto the queue before.
Whatever is done to the queue, nobody gets ahead of it later, and a selection takes the first
one away. The process that runs gives way when its time slice is over, so a process waits for
at most one slice for each other process.
-/

namespace Contur
open Function (update)
open Placement

namespace Scheduler
variable {s s' : Scheduler} {place place' : ProcessId → Option Place} {p q : ProcessId}
  {timeSlice : ℕ} {now : Tick}

def turnKey (s : Scheduler) (p : ProcessId) : ℕ ×ₗ ℕ := toLex (s.changedAt p, p)

def ahead (s : Scheduler) (q : ProcessId) : Finset ProcessId :=
  s.processes.filter fun p => p ∈ s.getQueueSnapshot ∧ s.turnKey p < s.turnKey q

def sliceLeft (timeSlice : ℕ) (s : Scheduler) (now : Tick) : ℕ :=
  (s.runningByLane[0]?).join.elim 0 fun running => timeSlice - (now - s.changedAt running)

/-- The ticks that can pass until it is the turn of a process. -/
def turnsBefore (timeSlice : ℕ) (s : Scheduler) (now : Tick) (q : ProcessId) : ℕ :=
  (s.ahead q).card * timeSlice + s.sliceLeft timeSlice now

theorem mem_ahead : p ∈ s.ahead q ↔
    p ∈ s.processes ∧ p ∈ s.getQueueSnapshot ∧ s.turnKey p < s.turnKey q := by
  rw [ahead, Finset.mem_filter]

theorem sliceLeft_of_none (h : (s.runningByLane[0]?).join = none) :
    s.sliceLeft timeSlice now = 0 := by
  rw [sliceLeft, h]
  rfl

theorem sliceLeft_of_some (h : (s.runningByLane[0]?).join = some p) :
    s.sliceLeft timeSlice now = timeSlice - (now - s.changedAt p) := by
  rw [sliceLeft, h]
  rfl

structure WaitsTurn (timeSlice : ℕ) (s : Scheduler) (now : Tick) (q : ProcessId) : Prop where
  round : RoundRobin timeSlice s
  waiting : q ∈ s.getQueueSnapshot
  earlier : s.changedAt q < now

theorem RoundRobin.lane_eq_zero (h : RoundRobin timeSlice s) (hs : Tracked s place) {lane : ℕ}
    (hp : place p = some (.ready lane)) : lane = 0 := by
  obtain ⟨ready, hready, -⟩ := (hs.represents.ready_iff p lane).mp hp
  change s.readyByLane[lane]? = some ready at hready
  have hlt := (List.getElem?_eq_some_iff.mp hready).1
  rw [h.lanes] at hlt
  exact Nat.lt_one_iff.mp hlt

theorem Chosen.mem_ahead (h : RoundRobin timeSlice s) (hs : Tracked s place) {lane : ℕ}
    (hp : s.Chosen lane now p) (hq : q ∈ s.getQueueSnapshot) (hne : p ≠ q) : p ∈ s.ahead q := by
  have hready := hp.ready now hs
  obtain ⟨policy, ready, hpolicy, hlane, -, hselect⟩ := hp
  obtain rfl := Option.some.inj (h.policy.symm.trans hpolicy)
  have hmem : q ∈ ready := by
    obtain ⟨lane', hplace⟩ := (mem_getQueueSnapshot hs.represents).mp hq
    obtain rfl := h.lane_eq_zero hs hready
    obtain rfl := h.lane_eq_zero hs hplace
    obtain ⟨ready', hready', hin⟩ := (hs.represents.ready_iff q 0).mp hplace
    change s.readyByLane[0]? = some ready' at hready'
    rw [hlane] at hready'
    exact Option.some.inj hready' ▸ hin
  have hle := selectMin_le (s := s) (lessBy_eq (·.lastStateChange)) hmem
  rw [show selectMin _ (s.asConst ready) = p from hselect] at hle
  refine Scheduler.mem_ahead.mpr ⟨hs.registered p (by simp [hready]),
    (mem_getQueueSnapshot hs.represents).mpr ⟨lane, hready⟩, hle.lt_of_ne fun heq => ?_⟩
  exact hne (congrArg Prod.snd (toLex.injective heq))

namespace Moves

theorem ahead_subset (h : Moves s s' now place place') (hs : Tracked s place)
    (hq : s.WaitsTurn timeSlice now q) (hq' : q ∈ s'.getQueueSnapshot) :
    s'.changedAt q = s.changedAt q ∧ s'.ahead q ⊆ s.ahead q := by
  have hkept : s'.changedAt q = s.changedAt q := by
    rcases h.of_ready hs hq' with ⟨-, hpcb⟩ | ⟨hnot, -⟩
    · rw [changedAt, hpcb, changedAt]
    · exact absurd hq.waiting hnot
  refine ⟨hkept, fun p hp => ?_⟩
  obtain ⟨-, hready, hlt⟩ := mem_ahead.mp hp
  rcases h.of_ready hs hready with ⟨hbefore, hpcb⟩ | ⟨-, hchanged⟩
  · obtain ⟨lane, hplace⟩ := (mem_getQueueSnapshot hs.represents).mp hbefore
    have hsame : s'.changedAt p = s.changedAt p := by rw [changedAt, hpcb, changedAt]
    refine mem_ahead.mpr ⟨hs.registered p (by simp [hplace]), hbefore, ?_⟩
    rwa [turnKey, turnKey, hsame, hkept] at hlt
  · -- it has come onto the queue now
    have hlater : s'.turnKey q < s'.turnKey p := by
      refine Prod.Lex.toLex_lt_toLex.mpr (Or.inl ?_)
      change s'.changedAt q < s'.changedAt p
      rw [hkept, show s'.changedAt p = now from hchanged]
      exact hq.earlier
    exact absurd hlt hlater.asymm

theorem turnsBefore_le (h : Moves s s' now place place') (hs : Tracked s place)
    (hq : s.WaitsTurn timeSlice now q) (hq' : q ∈ s'.getQueueSnapshot) (slice : ℕ) :
    s'.turnsBefore slice now q ≤ s.turnsBefore slice now q := by
  obtain ⟨-, hsubset⟩ := h.ahead_subset hs hq hq'
  have hcard := Nat.mul_le_mul_right slice (Finset.card_le_card hsubset)
  unfold turnsBefore
  cases hrun : (s'.runningByLane[0]?).join with
  | none =>
    rw [sliceLeft_of_none hrun]
    exact Nat.le_add_right_of_le hcard
  | some running =>
    have hplace' : place' running = some (.running 0) :=
      (h.tracked.represents.running_iff running 0).mpr (Option.join_eq_some_iff.mp hrun)
    rw [sliceLeft_of_some hrun]
    have hchange := h.change running
    rw [hplace'] at hchange
    generalize hplace : place running = x at hchange
    cases hchange with
    | kept hpcb =>
      have hrun₀ : (s.runningByLane[0]?).join = some running :=
        Option.join_eq_some_iff.mpr ((hs.represents.running_iff running 0).mp hplace)
      have hsame : s'.changedAt running = s.changedAt running := by rw [changedAt, hpcb, changedAt]
      rw [sliceLeft_of_some hrun₀, hsame]
      exact Nat.add_le_add_right hcard _
    | starts hchosen hpcb =>
      have hne : running ≠ q := by
        rintro rfl
        obtain ⟨lane, hready⟩ := (mem_getQueueSnapshot h.tracked.represents).mp hq'
        rw [hplace'] at hready
        cases hready
      have hmem := hchosen.mem_ahead hq.round hs hq.waiting hne
      have hgone : running ∉ s'.ahead q := by
        intro hmem'
        obtain ⟨lane, hready⟩ :=
          (mem_getQueueSnapshot h.tracked.represents).mp (mem_ahead.mp hmem').2.1
        rw [hplace'] at hready
        cases hready
      have hlt : (s'.ahead q).card < (s.ahead q).card :=
        Finset.card_lt_card
          (Finset.ssubset_iff_subset_ne.mpr ⟨hsubset, fun heq => hgone (heq ▸ hmem)⟩)
      have hslice := Nat.mul_le_mul_right slice (Nat.succ_le_of_lt hlt)
      rw [Nat.succ_mul] at hslice
      have hleft : slice - (now - s'.changedAt running) ≤ slice := Nat.sub_le _ _
      omega

end Moves

theorem Placed.tracked {n : ℕ} (h : s.Placed n place) : Tracked s place where
  represents := h.represents
  lanes := h.running_length.trans h.ready_length.symm
  lanes_pos := h.ready_length.symm ▸ h.lanes_pos
  registered pid hp := (h.registered pid).mpr hp
  state pid x hp := by
    have hfits := h.fits_of hp
    cases x with
    | ready lane => exact hfits.1
    | running lane => exact hfits.1
    | blocked => exact hfits.1
  invalidPid := h.invalidPid

theorem WaitsTurn.keeps_within (hq : s.WaitsTurn timeSlice now q) (hs : Tracked s place)
    (hkeeps : s.choice 0 now = .keeps p) : tickSub now (s.changedAt p) < max 1 timeSlice := by
  obtain ⟨lane, hplace⟩ := (mem_getQueueSnapshot hs.represents).mp hq.waiting
  obtain rfl := hq.round.lane_eq_zero hs hplace
  obtain ⟨ready, hready, hmem⟩ := (hs.represents.ready_iff q 0).mp hplace
  change s.readyByLane[0]? = some ready at hready
  cases ready with
  | nil => cases hmem
  | cons first rest =>
    simp only [choice, hq.round.policy, hready] at hkeeps
    split_ifs at hkeeps
    cases hrun : (s.runningByLane[0]?).join with
    | none =>
      rw [hrun] at hkeeps
      cases hkeeps
    | some running =>
      rw [hrun] at hkeeps
      dsimp only at hkeeps
      split_ifs at hkeeps with hpreempt
      cases hkeeps
      have hshort : ¬ (if timeSlice = 0 then 1 else timeSlice) ≤ tickSub now (s.changedAt p) := by
        simpa [roundRobinPolicy, toSnapshot, changedAt] using hpreempt
      split_ifs at hshort
      · exact (Nat.not_le.mp hshort).trans_le (le_max_left 1 timeSlice)
      · exact (Nat.not_le.mp hshort).trans_le (le_max_right 1 timeSlice)

theorem WaitsTurn.sliceLeft_pos {pid : ProcessId} (hq : s.WaitsTurn timeSlice now q)
    (h : s.Placed 1 place)
    (hselect : s.selectNext now = (.ok pid, s')) (hlast : s.changedAt pid ≤ now)
    (hnow : now < 2 ^ 64) :
    (s'.runningByLane[0]?).join = some pid ∧ 0 < s'.sliceLeft (max 1 timeSlice) now := by
  have hs := h.tracked
  change s.selectNextForLane 0 now = (.ok pid, s') at hselect
  have hselected := (selectNextForLane_selected now h : Selected 1 s _ 0 place _)
  obtain ⟨place', hmoves, -⟩ := selectNextForLane_moves now hs 0
  rw [hselect] at hselected hmoves
  have hrun : (s'.runningByLane[0]?).join = some pid := by
    obtain ⟨place'', hplaced, -, hok⟩ := hselected.placed
    exact Option.join_eq_some_iff.mpr ((hplaced.represents.running_iff pid 0).mp (hok pid rfl))
  refine ⟨hrun, ?_⟩
  rw [sliceLeft_of_some hrun]
  have hplace' : place' pid = some (.running 0) :=
    (hmoves.tracked.represents.running_iff pid 0).mpr (Option.join_eq_some_iff.mp hrun)
  have hchange := hmoves.change pid
  rw [hplace'] at hchange
  generalize hplace : place pid = x at hchange
  cases hchange with
  | starts hchosen hpcb =>
    rw [show s'.changedAt pid = now from hpcb, Nat.sub_self]
    exact Nat.one_pos.trans_le (le_max_left 1 timeSlice)
  | kept hpcb =>
    -- it was running before, so it was not replaced
    have hrun₀ : (s.runningByLane[0]?).join = some pid :=
      Option.join_eq_some_iff.mpr ((hs.represents.running_iff pid 0).mp hplace)
    have hsame : s'.changedAt pid = s.changedAt pid := by rw [changedAt, hpcb, changedAt]
    have hselect_eq := s.selectNextForLane_eq 0 now
    have hchosen := s.choice_chosen 0 now
    cases hchoice : s.choice 0 now with
    | refused =>
      rw [hchoice] at hselect_eq
      obtain ⟨code, heq⟩ := hselect_eq
      rw [hselect] at heq
      cases heq
    | keeps running =>
      rw [hchoice] at hselect_eq
      have heq : s.selectNextForLane 0 now = (.ok running, s) := hselect_eq
      rw [hselect] at heq
      cases heq
      have hshort := hq.keeps_within hs hchoice
      rw [tickSub_eq hlast hnow] at hshort
      rw [hsame]
      exact Nat.sub_pos_of_lt hshort
    | starts candidate =>
      rw [hchoice] at hchosen
      have hnone := hchosen.1
      rw [hrun₀] at hnone
      cases hnone
    | replaces running candidate =>
      rw [hchoice] at hchosen hselect_eq
      obtain ⟨hrunning, hready⟩ := hchosen
      have hcandidate := hready.ready now hs
      obtain ⟨t, ht, -⟩ := preempt_moves now hs
        ((hs.represents.running_iff running 0).mpr (Option.join_eq_some_iff.mp hrunning))
      have heq := hselect_eq.2.2 t ht
      rcases t.startOn_cases 0 candidate now with ⟨-, t', pcb, hstart, -⟩ | ⟨-, hstart⟩
      · rw [hselect, hstart] at heq
        cases heq
        rw [hplace] at hcandidate
        cases hcandidate
      · rw [hselect, hstart] at heq
        cases heq

theorem mem_of_selectNext {pid : ProcessId} (h : s.Placed 1 place)
    (hselect : s.selectNext now = (.ok pid, s')) (hq : q ∈ s.getQueueSnapshot) (hne : q ≠ pid) :
    q ∈ s'.getQueueSnapshot := by
  change s.selectNextForLane 0 now = (.ok pid, s') at hselect
  have hswitch := selectNextForLane_switch now h.tracked 0
  have hselected := (selectNextForLane_selected now h : Selected 1 s _ 0 place _)
  rw [hselect] at hswitch hselected
  obtain ⟨place', hplaced, -, hrun⟩ := hselected.placed
  have hslot : s'.runningByLane[0]? = some (some pid) :=
    (hplaced.represents.running_iff pid 0).mp (hrun pid rfl)
  obtain ⟨lane, hplace⟩ := (mem_getQueueSnapshot h.represents).mp hq
  -- whoever has started is the one that is running now
  have hstarted : ∀ {place₁ : ProcessId → Option Place} {candidate : ProcessId},
      s'.Placed 1 (update place₁ candidate (some (.running 0))) → place₁ q = some (.ready lane) →
      q ∈ s'.getQueueSnapshot := by
    intro place₁ candidate hplaced₁ hready
    refine (mem_getQueueSnapshot hplaced₁.represents).mpr ⟨lane, ?_⟩
    rw [Function.update_of_ne, hready]
    rintro rfl
    have hslot₁ : s'.runningByLane[0]? = some (some q) :=
      (hplaced₁.represents.running_iff q 0).mp (Function.update_self _ _ _)
    rw [hslot] at hslot₁
    exact hne (Option.some.inj (Option.some.inj hslot₁)).symm
  change Switch s 0 now s' at hswitch
  cases hswitch with
  | stays => exact hq
  | starts hchosen hfree =>
    have hp := hchosen.ready now h.tracked
    exact hstarted (startOn_spec now h hp hfree).2 hplace
  | @replaces running candidate t hchosen hslot₀ hpreempt =>
    have hp := hchosen.ready now h.tracked
    have hrunning : place running = some (.running 0) :=
      (h.represents.running_iff running 0).mpr hslot₀
    have hplaced₁ := (preempt_spec now h hrunning).2
    have hfree := preempt_runningByLane now h hrunning
    rw [hpreempt] at hplaced₁ hfree
    refine hstarted (startOn_spec now hplaced₁ (ready_of_preempt hrunning hp) hfree).2 ?_
    rw [Function.update_of_ne, hplace]
    rintro rfl
    rw [hrunning] at hplace
    cases hplace

theorem turnsBefore_setPcb (hs : Tracked s place) {pid : ProcessId} (hp : place pid = none)
    (hq : q ∈ s.getQueueSnapshot) (pcb : Pcb) (slice : ℕ) (now : Tick) :
    turnsBefore slice { s with pcbs := update s.pcbs pid pcb } now q = s.turnsBefore slice now q ∧
      changedAt { s with pcbs := update s.pcbs pid pcb } q = s.changedAt q := by
  have hsame : ∀ p, (place p).isSome → changedAt { s with pcbs := update s.pcbs pid pcb } p =
      s.changedAt p := by
    intro p hsome
    have hne : p ≠ pid := by
      rintro rfl
      rw [hp] at hsome
      cases hsome
    simp only [changedAt, Function.update_of_ne hne]
  have hready : ∀ p ∈ s.getQueueSnapshot, (place p).isSome := by
    intro p hmem
    obtain ⟨lane, hplace⟩ := (mem_getQueueSnapshot hs.represents).mp hmem
    rw [hplace]
    rfl
  have hahead : ahead { s with pcbs := update s.pcbs pid pcb } q = s.ahead q := by
    refine Finset.filter_congr fun p _ => and_congr_right fun hmem => ?_
    have hmem : p ∈ s.getQueueSnapshot := hmem
    unfold turnKey
    rw [hsame p (hready p hmem), hsame q (hready q hq)]
  have hleft : sliceLeft slice { s with pcbs := update s.pcbs pid pcb } now =
      s.sliceLeft slice now := by
    unfold sliceLeft
    cases hrun : (s.runningByLane[0]?).join with
    | none => rfl
    | some running =>
      have hplace := (hs.represents.running_iff running 0).mpr (Option.join_eq_some_iff.mp hrun)
      exact congrArg (fun t => slice - (now - t)) (hsame running (by simp [hplace]))
  exact ⟨by rw [turnsBefore, turnsBefore, hahead, hleft], hsame q (hready q hq)⟩

theorem turnsBefore_le_card (hs : Tracked s place) (hq : q ∈ s.getQueueSnapshot) (slice : ℕ)
    (now : Tick) :
    s.turnsBefore slice now q ≤ (s.processes.card - 1) * slice := by
  obtain ⟨lane, hplace⟩ := (mem_getQueueSnapshot hs.represents).mp hq
  have hmem : q ∈ s.processes := hs.registered q (by simp [hplace])
  have hsubset : s.ahead q ⊆ s.processes.erase q := by
    intro p hp
    obtain ⟨hin, -, hlt⟩ := mem_ahead.mp hp
    exact Finset.mem_erase.mpr ⟨fun heq => absurd hlt (heq ▸ lt_irrefl _), hin⟩
  unfold turnsBefore
  cases hrun : (s.runningByLane[0]?).join with
  | none =>
    have hcard := Finset.card_le_card hsubset
    rw [Finset.card_erase_of_mem hmem] at hcard
    rw [sliceLeft_of_none hrun]
    exact Nat.mul_le_mul_right slice hcard
  | some running =>
    have hrunning := (hs.represents.running_iff running 0).mpr (Option.join_eq_some_iff.mp hrun)
    have hne : running ≠ q := by
      rintro rfl
      rw [hplace] at hrunning
      cases hrunning
    have hin : running ∈ s.processes.erase q :=
      Finset.mem_erase.mpr ⟨hne, hs.registered running (by simp [hrunning])⟩
    have hsubset' : s.ahead q ⊆ (s.processes.erase q).erase running := by
      intro p hp
      refine Finset.mem_erase.mpr ⟨?_, hsubset hp⟩
      rintro rfl
      obtain ⟨lane', hready⟩ := (mem_getQueueSnapshot hs.represents).mp (mem_ahead.mp hp).2.1
      rw [hrunning] at hready
      cases hready
    have hcard := Finset.card_le_card hsubset'
    rw [Finset.card_erase_of_mem hin, Finset.card_erase_of_mem hmem] at hcard
    have hpos : 0 < (s.processes.erase q).card := Finset.card_pos.mpr ⟨running, hin⟩
    rw [Finset.card_erase_of_mem hmem] at hpos
    have hslices :=
      Nat.mul_le_mul_right slice (show (s.ahead q).card + 1 ≤ s.processes.card - 1 by omega)
    rw [Nat.succ_mul] at hslices
    rw [sliceLeft_of_some hrun]
    exact (Nat.add_le_add_left (Nat.sub_le _ _) _).trans hslices

structure Nearer (timeSlice : ℕ) (s : Scheduler) (now : Tick) (s' : Scheduler) (now' : Tick)
    (q : ProcessId) : Prop where
  waits : s'.WaitsTurn timeSlice now' q
  turns : s'.turnsBefore (max 1 timeSlice) now' q ≤ s.turnsBefore (max 1 timeSlice) now q

theorem Moves.nearer (h : Moves s s' now place place') (hs : Tracked s place)
    (hq : s.WaitsTurn timeSlice now q) (hq' : q ∈ s'.getQueueSnapshot)
      (hpolicy : s'.policy = s.policy)
    (hlanes : s'.readyByLane.length = s.readyByLane.length) : Nearer timeSlice s now s' now q where
  waits :=
    { round := ⟨hpolicy.trans hq.round.policy, hlanes.trans hq.round.lanes, place', h.tracked⟩
      waiting := hq'
      earlier := (h.ahead_subset hs hq hq').1.symm ▸ hq.earlier }
  turns := h.turnsBefore_le hs hq hq' _

theorem Moves.stops {now' : Tick} (h : Moves s s' now' place place')
    (hs : Tracked s place) (hq : s.WaitsTurn timeSlice now' q) (hq' : q ∈ s'.getQueueSnapshot)
    (hnone : (s'.runningByLane[0]?).join = none) (slice : ℕ) (hleft : 0 < s.sliceLeft slice now) :
    s'.turnsBefore slice now' q < s.turnsBefore slice now q := by
  obtain ⟨-, hsubset⟩ := h.ahead_subset hs hq hq'
  have hcard := Nat.mul_le_mul_right slice (Finset.card_le_card hsubset)
  unfold turnsBefore
  rw [sliceLeft_of_none hnone]
  omega

theorem Nearer.trans {s'' : Scheduler} {now' now'' : Tick} (h : Nearer timeSlice s now s' now' q)
    (h' : Nearer timeSlice s' now' s'' now'' q) : Nearer timeSlice s now s'' now'' q :=
  ⟨h'.waits, h'.turns.trans h.turns⟩

theorem WaitsTurn.setPcb {n : ℕ} (hq : s.WaitsTurn timeSlice now q) (hs : s.Placed n place)
    {pid : ProcessId}
    (hp : place pid = none) (pcb : Pcb) :
    Nearer timeSlice s now { s with pcbs := update s.pcbs pid pcb } now q := by
  have hslices := turnsBefore_setPcb hs.tracked hp hq.waiting pcb (max 1 timeSlice) now
  refine ⟨⟨⟨hq.round.policy, hq.round.lanes, place, (hs.setPcb hp pcb).tracked⟩, hq.waiting, ?_⟩,
    hslices.1.le⟩
  rw [hslices.2]
  exact hq.earlier

theorem WaitsTurn.le_clock {now' : Tick} (hq : s.WaitsTurn timeSlice now q) (hle : now ≤ now') :
    s.WaitsTurn timeSlice now' q :=
  ⟨hq.round, hq.waiting, hq.earlier.trans_le hle⟩

theorem slice_lt {slice now last ticks : ℕ} (hlast : last ≤ now) (hleft : 0 < slice - (now - last))
    (hticks : 0 < ticks) : slice - (now + ticks - last) < slice - (now - last) := by
  omega

theorem sliceLeft_lt {ticks slice : ℕ} (hrun : (s.runningByLane[0]?).join = some p)
    (hlast : s.changedAt p ≤ now) (hleft : 0 < s.sliceLeft slice now) (hticks : 0 < ticks) :
    s.sliceLeft slice (now + ticks) < s.sliceLeft slice now := by
  rw [sliceLeft_of_some hrun] at hleft ⊢
  rw [sliceLeft_of_some hrun]
  exact slice_lt hlast hleft hticks

end Scheduler
end Contur
