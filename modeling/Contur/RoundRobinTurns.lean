import Contur.SchedulerTracking

/-!
# A waiting process is bypassed once

The round-robin policy has no positions in the queue: it selects the ready process whose
state changed first. A process that waits keeps its block, and so the tick at which it came
onto the queue. Another process that has started at a later tick has a later change from
then on, because the ticks of the operations do not decrease. It is not selected again
while the first one waits.
-/

namespace Contur.Scheduler
open Placement

variable {s s' : Scheduler} {place place' : ProcessId → Option Place} {p q : ProcessId}
  {timeSlice : ℕ} {op : Op} {now : Tick}

namespace Moves

theorem lastStateChange (h : Moves s s' now place place') (p : ProcessId) :
    s'.pcbs p = s.pcbs p ∨ (s'.pcbs p).timing.lastStateChange = now := by
  have hchange := h.change p
  generalize place p = x, place' p = y at hchange
  cases hchange with
  | kept hpcb => exact Or.inl hpcb
  | left hpcb => exact Or.inl hpcb
  | enters hx hpcb => exact Or.inr hpcb
  | starts hchosen hpcb => exact Or.inr hpcb
  | blocks hpcb => exact Or.inr hpcb
  | ends hpcb => exact Or.inr hpcb

theorem of_ready (h : Moves s s' now place place') (hs : Tracked s place)
    (hq' : q ∈ s'.getQueueSnapshot) :
    (q ∈ s.getQueueSnapshot ∧ s'.pcbs q = s.pcbs q) ∨
      (q ∉ s.getQueueSnapshot ∧ (s'.pcbs q).timing.lastStateChange = now) := by
  rw [mem_getQueueSnapshot hs.represents]
  obtain ⟨lane, hplace⟩ := (mem_getQueueSnapshot h.tracked.represents).mp hq'
  have hchange := h.change q
  rw [hplace] at hchange
  generalize place q = x at hchange ⊢
  cases hchange with
  | kept hpcb => exact Or.inl ⟨⟨lane, rfl⟩, hpcb⟩
  | enters hx hpcb => exact Or.inr ⟨not_exists.mpr hx, hpcb⟩

theorem of_running (h : Moves s s' now place place') (hs : Tracked s place)
    (hp : p ∉ s.runningProcesses) (hp' : p ∈ s'.runningProcesses) :
    (s'.pcbs p).timing.lastStateChange = now ∧ ∃ lane, s.Chosen lane now p := by
  rw [mem_runningProcesses hs.represents] at hp
  obtain ⟨lane, hplace⟩ := (mem_runningProcesses h.tracked.represents).mp hp'
  have hchange := h.change p
  rw [hplace] at hchange
  generalize place p = x at hchange hp
  cases hchange with
  | kept hpcb => exact absurd ⟨lane, rfl⟩ hp
  | starts hchosen hpcb => exact ⟨hpcb, lane, hchosen⟩

end Moves

/-- New processes come in, are selected, block and unblock, are taken out and end. -/
def OneLane (s : Scheduler) : Op → Prop
  | .enqueue pid _ => (s.pcbs pid).state = .new
  | .selectNext _ => True
  | .blockRunning _ => True
  | .blockProcess _ _ => True
  | .unblock _ _ => True
  | .dequeue _ => True
  | .terminate _ _ => True
  | _ => False

structure RoundRobin (timeSlice : ℕ) (s : Scheduler) : Prop where
  policy : s.policy = some (roundRobinPolicy timeSlice)
  lanes : s.readyByLane.length = 1
  tracked : ∃ place, Tracked s place

theorem OneLane.single (hop : OneLane s op) : op.Single := by
  cases op <;> trivial

theorem OneLane.enqueuesUnblocked (hop : OneLane s op) (h : Tracked s place) :
    EnqueuesUnblocked s op := by
  cases op with
  | enqueue pid t =>
    have hnew : (s.pcbs pid).state = .new := hop
    intro hblocked
    have hstate := h.state pid _ ((h.represents.blocked_iff pid).mpr hblocked)
    rw [hnew] at hstate
    cases hstate
  | enqueueToLane pid laneIndex t => exact hop.elim
  | _ => trivial

theorem OneLane.moves (hop : OneLane s op) (h : Tracked s place) (now : Tick)
    (hnow : ∀ t, op.tick = some t → t = now) :
    ∃ place', Moves s (machine.next s op) now place place' :=
  exec_moves now hop.single (hop.enqueuesUnblocked h) h hnow

theorem selectNextForLane_policy (h : Tracked s place) (lane : ℕ) (now : Tick) :
    (s.selectNextForLane lane now).2.policy = s.policy := by
  have hswitch := selectNextForLane_switch now h lane
  generalize (s.selectNextForLane lane now).2 = s' at hswitch ⊢
  cases hswitch with
  | stays => rfl
  | starts hchosen hfree => exact startOn_policy now
  | @replaces running candidate t hchosen hrun hpreempt =>
    have hkept : (s.preempt lane running now).2.policy = s.policy := preempt_policy now
    rw [hpreempt] at hkept
    exact (startOn_policy now).trans hkept

theorem OneLane.policy (hop : OneLane s op) (h : Tracked s place) :
    (machine.next s op).policy = s.policy := by
  cases op with
  | enqueue pid t => exact enqueue_policy s pid t
  | dequeue pid => exact dequeue_policy s pid
  | selectNext t => exact selectNextForLane_policy h 0 t
  | blockRunning t => exact blockRunning_policy s t
  | blockProcess pid t => exact blockProcess_policy s pid t
  | unblock pid t => exact unblock_policy s pid t
  | terminate pid t => exact terminate_policy s pid t
  | _ => exact hop.elim

theorem OneLane.lanes (hop : OneLane s op) : SameLanes s (machine.next s op) := by
  cases op with
  | enqueue pid t => exact enqueueToLane_lanes s pid 0 t
  | dequeue pid => exact dequeue_lanes s pid
  | selectNext t => exact selectNextForLane_lanes s 0 t
  | blockRunning t => exact blockRunning_lanes s t
  | blockProcess pid t => exact blockProcess_lanes s pid t
  | unblock pid t => exact unblock_lanes s pid t
  | terminate pid t => exact terminate_lanes s pid t
  | _ => exact hop.elim

theorem exec_roundRobin (hop : OneLane s op) (h : RoundRobin timeSlice s) :
    RoundRobin timeSlice (machine.next s op) := by
  obtain ⟨place, htracked⟩ := h.tracked
  exact ⟨(hop.policy htracked).trans h.policy, hop.lanes.1.trans h.lanes,
    exec_tracked (hop.enqueuesUnblocked htracked) ⟨place, htracked⟩⟩

theorem roundRobin_create (timeSlice : ℕ) (pcbs : ProcessId → Pcb) :
    RoundRobin timeSlice (create (some (roundRobinPolicy timeSlice)) pcbs 1) :=
  ⟨rfl, rfl, _, tracked_create _ pcbs Nat.one_pos⟩

def Enters (s : Scheduler) (op : Op) (q : ProcessId) : Prop :=
  q ∉ s.getQueueSnapshot ∧ q ∈ (machine.next s op).getQueueSnapshot

def Starts (s : Scheduler) (op : Op) (p : ProcessId) : Prop :=
  p ∉ s.runningProcesses ∧ p ∈ (machine.next s op).runningProcesses

def changedAt (s : Scheduler) (p : ProcessId) : Tick := (s.pcbs p).timing.lastStateChange

theorem le_changedAt (h : RoundRobin timeSlice s) (hop : OneLane s op) {t : Tick}
    (ht : t ≤ s.changedAt p) (hnow : ∀ u, op.tick = some u → t ≤ u) :
    t ≤ (machine.next s op).changedAt p := by
  obtain ⟨place, htracked⟩ := h.tracked
  obtain ⟨place', hmoves⟩ := hop.moves htracked (op.tick.getD t)
    (fun u hu => by rw [hu, Option.getD_some])
  rcases hmoves.lastStateChange p with hkept | hchanged
  · rw [changedAt, hkept]
    exact ht
  · rw [changedAt, hchanged]
    cases htick : op.tick with
    | none => exact le_refl t
    | some u => exact hnow u htick

theorem changedAt_of_waiting (h : RoundRobin timeSlice s) (hop : OneLane s op)
    (hq : q ∈ s.getQueueSnapshot) (hq' : q ∈ (machine.next s op).getQueueSnapshot) :
    (machine.next s op).changedAt q = s.changedAt q := by
  obtain ⟨place, htracked⟩ := h.tracked
  obtain ⟨place', hmoves⟩ := hop.moves htracked (op.tick.getD 0)
    (fun u hu => by rw [hu, Option.getD_some])
  rcases hmoves.of_ready htracked hq' with ⟨-, hkept⟩ | ⟨hnot, -⟩
  · rw [changedAt, hkept, changedAt]
  · exact absurd hq hnot

theorem Enters.changedAt (h : RoundRobin timeSlice s) (hop : OneLane s op) {t : Tick}
    (hq : Enters s op q) (ht : op.tick = some t) : (machine.next s op).changedAt q = t := by
  obtain ⟨place, htracked⟩ := h.tracked
  obtain ⟨place', hmoves⟩ := hop.moves htracked t
    (fun u hu => Option.some.inj (hu.symm.trans ht))
  rcases hmoves.of_ready htracked hq.2 with ⟨hmem, -⟩ | ⟨-, hchanged⟩
  · exact absurd hmem hq.1
  · exact hchanged

theorem Starts.chosen (h : RoundRobin timeSlice s) (hop : OneLane s op) {t : Tick}
    (hp : Starts s op p) (hnow : ∀ u, op.tick = some u → u = t) :
    (machine.next s op).changedAt p = t ∧ ∃ lane, s.Chosen lane t p := by
  obtain ⟨place, htracked⟩ := h.tracked
  obtain ⟨place', hmoves⟩ := hop.moves htracked t hnow
  exact hmoves.of_running htracked hp.1 hp.2

theorem Chosen.changedAt_le (h : RoundRobin timeSlice s) {lane : ℕ} (hp : s.Chosen lane now p)
    (hq : q ∈ s.getQueueSnapshot) : s.changedAt p ≤ s.changedAt q := by
  obtain ⟨policy, ready, hpolicy, hready, -, hselect⟩ := hp
  obtain rfl := Option.some.inj (h.policy.symm.trans hpolicy)
  obtain ⟨queue, hqueue⟩ := List.length_eq_one_iff.mp h.lanes
  have hqueue' : ready = queue := by
    rw [hqueue] at hready
    exact List.mem_singleton.mp (List.mem_of_getElem? hready)
  have hmem : q ∈ ready := by
    rw [getQueueSnapshot, hqueue, List.flatten_singleton] at hq
    rwa [hqueue']
  have hle := selectMin_le (s := s) (lessBy_eq (·.lastStateChange)) hmem
  rw [show selectMin _ (s.asConst ready) = p from hselect, Prod.Lex.toLex_le_toLex] at hle
  rcases hle with hlt | heq
  · exact hlt.le
  · exact heq.1.le

theorem tick_le_of_lt {ops : List Op} (hticks : (ops.filterMap Op.tick).Pairwise (· ≤ ·)) {j m : ℕ}
    {op op' : Op} {t u : Tick} (hjm : j < m) (hj : ops[j]? = some op) (hm : ops[m]? = some op')
    (ht : op.tick = some t) (hu : op'.tick = some u) : t ≤ u := by
  rw [List.pairwise_filterMap, List.pairwise_iff_getElem] at hticks
  obtain ⟨hjlt, rfl⟩ := List.getElem?_eq_some_iff.mp hj
  obtain ⟨hmlt, rfl⟩ := List.getElem?_eq_some_iff.mp hm
  exact hticks j m hjlt hmlt hjm t ht u hu

/-- While a process waits that came onto the queue at a tick, no process that started at a later
tick starts again. -/
theorem round_robin_bypasses_once (timeSlice : ℕ) (pcbs : ProcessId → Pcb) (ops : List Op)
    (hops : machine.Guarded OneLane (create (some (roundRobinPolicy timeSlice)) pcbs 1) ops)
    (hticks : (ops.filterMap Op.tick).Pairwise (· ≤ ·)) {i j k : ℕ} {enter start again : Op}
    {q p : ProcessId} {t u : Tick} (hjk : j < k) (hi : ops[i]? = some enter)
    (hj : ops[j]? = some start) (hk : ops[k]? = some again) (ht : enter.tick = some t)
    (hu : start.tick = some u) (htu : t < u) :
    let state := fun n =>
      machine.run (create (some (roundRobinPolicy timeSlice)) pcbs 1) (ops.take n)
    Enters (state i) enter q → (∀ m, i < m → m ≤ k → q ∈ (state m).getQueueSnapshot) →
      Starts (state j) start p → ¬ Starts (state k) again p := by
  intro state henters hwaits hstarts hagain
  have hij : i < j := by
    by_contra hle
    rcases (Nat.not_lt.mp hle).lt_or_eq with hlt | rfl
    · exact absurd (tick_le_of_lt hticks hlt hj hi hu ht) (Nat.not_le.mpr htu)
    · rw [hi] at hj
      obtain rfl := Option.some.inj hj
      exact htu.ne (Option.some.inj (ht.symm.trans hu))
  have hklt : k < ops.length := (List.getElem?_eq_some_iff.mp hk).1
  have hround : ∀ n, RoundRobin timeSlice (state n) := fun n =>
    machine.run_invariant_of_guarded (fun _ _ => exec_roundRobin)
      (roundRobin_create timeSlice pcbs) (hops.take n)
  have hnext : ∀ {n op}, ops[n]? = some op → state (n + 1) = machine.next (state n) op :=
    fun hn => machine.run_take_succ _ hn
  -- the waiting process keeps the tick at which it came onto the queue
  have hq : (state k).changedAt q = t := by
    apply machine.run_segment (P := fun s => s.changedAt q = t) (a := i + 1) ?_ hklt.le ?_
      (by omega)
      le_rfl
    · rw [machine.run_take_succ _ hi]
      exact henters.changedAt (hround i) (hops.getElem? hi) ht
    · intro n op hn hnk hop hkept
      have hwait : q ∈ (state n).getQueueSnapshot := hwaits n (by omega) (by omega)
      have hwait' := hwaits (n + 1) (by omega) (by omega)
      rw [hnext hop] at hwait'
      exact (changedAt_of_waiting (hround n) (hops.getElem? hop) hwait hwait').trans hkept
  -- the other one has changed no earlier than at its start
  have hp : u ≤ (state k).changedAt p := by
    apply machine.run_segment (P := fun s => u ≤ s.changedAt p) (a := j + 1) ?_ hklt.le ?_
      (by omega)
      le_rfl
    · rw [machine.run_take_succ _ hj]
      exact (hstarts.chosen (hround j) (hops.getElem? hj)
        fun v hv => Option.some.inj (hv.symm.trans hu)).1.ge
    · intro n op hn hnk hop hle
      exact le_changedAt (hround n) (hops.getElem? hop) hle
        fun v hv => tick_le_of_lt hticks (by omega) hj hop hu hv
  obtain ⟨-, lane, hchosen⟩ := hagain.chosen (hround k) (hops.getElem? hk) (t := again.tick.getD 0)
    fun v hv => by rw [hv, Option.getD_some]
  have hle := hchosen.changedAt_le (hround k) (hwaits k (by omega) le_rfl)
  exact absurd (hp.trans (hle.trans hq.le)) (Nat.not_le.mpr htu)

def turnsRun : List Op :=
  [.enqueue 1 0, .enqueue 2 1, .selectNext 2, .blockRunning 3, .unblock 1 4, .selectNext 5]

theorem round_robin_second_turn :
    let state := fun n =>
      machine.run (create (some (roundRobinPolicy 2)) (fun _ => {}) 1) (turnsRun.take n)
    (state 5).getQueueSnapshot = [2, 1] ∧ (state 6).runningProcesses = [2] ∧
      ¬ Starts (state 5) (.selectNext 5) 1 := by
  intro state
  have hwaits : ∀ m < 6, 1 < m → 2 ∈ (state m).getQueueSnapshot := by decide +kernel
  refine ⟨by decide +kernel, by decide +kernel, ?_⟩
  refine round_robin_bypasses_once 2 (fun _ => {}) turnsRun
    ⟨rfl, rfl, trivial, trivial, trivial, trivial, trivial⟩ (by decide) (i := 1) (j := 2) (k := 5)
    (by decide) rfl rfl rfl rfl rfl (by decide) (q := 2) ⟨?_, ?_⟩
    (fun m hm hmk => hwaits m (Nat.lt_succ_of_le hmk) hm) ⟨?_, ?_⟩
  all_goals decide +kernel

end Contur.Scheduler
