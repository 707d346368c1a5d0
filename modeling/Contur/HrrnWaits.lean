import Contur.BlockSteps
import Contur.PolicyOrder

/-!
# The waiting time of a ready process

A control block counts the time in `Ready` when that state is left, and the response
ratio reads the counter while the process waits. The time a process has really waited is
a fact about the run: each stay in `Ready` from the tick at which the process came to the
tick at which it left, and the stay that is not over up to now. Counter and last change of
a block determine it, so the counters, from which the policy computes its ratios in
doubles, lead to the right choice from a queue and from every part of it exactly when the
stays that are not over put no process ahead of one that is before it by the counters.
-/

namespace Contur.Scheduler
variable {s : Scheduler} {lane : ℕ} {pid p : ProcessId} {now : Tick} {a b : Pcb}

/-- The stays in `Ready` that are over, added up, and the tick at which the last stay began. -/
structure ReadyTime where
  finished : ℕ := 0
  entered : Tick := 0

namespace ReadyTime

def observe (w : ReadyTime) (before after : ProcessState) (now : Tick) : ReadyTime :=
  if before = .ready then
    if after = .ready then w else { w with finished := w.finished + (now - w.entered) }
  else if after = .ready then { w with entered := now }
  else w

/-- The time up to now, with the stay that is not over. -/
def upTo (w : ReadyTime) (state : ProcessState) (now : Tick) : ℕ :=
  w.finished + if state = .ready then now - w.entered else 0

/-- The block knows the stays: the counter has those that are over, and the last change is the
beginning of the one that is not. -/
structure Tells (w : ReadyTime) (pcb : Pcb) (clock : Tick) : Prop where
  total : pcb.timing.totalWaitTime = w.finished
  finished : w.finished ≤ clock
  entered : pcb.state = .ready →
    pcb.timing.lastStateChange = w.entered ∧ w.finished ≤ w.entered ∧ w.entered ≤ clock

variable {w : ReadyTime} {clock : Tick}

theorem Tells.later (h : w.Tells a clock) (hclock : clock ≤ now) : w.Tells a now := by
  refine ⟨h.total, h.finished.trans hclock, fun hready => ?_⟩
  obtain ⟨hlast, hfinished, hentered⟩ := h.entered hready
  exact ⟨hlast, hfinished, hentered.trans hclock⟩

theorem Tells.estimate (h : w.Tells a clock) (prediction : Option Tick) :
    w.Tells (estimate prediction a) clock := by
  cases prediction with
  | none => exact h
  | some burst => exact ⟨h.total, h.finished, h.entered⟩

theorem Tells.observe_self (h : w.Tells a clock) :
    (w.observe a.state a.state now).Tells a clock := by
  have hobserve : w.observe a.state a.state now = w := by
    unfold observe
    split_ifs <;> rfl
  rwa [hobserve]

theorem Tells.setState (h : w.Tells a clock) (hclock : clock ≤ now) (hbound : now < 2 ^ 64)
    {newState : ProcessState} (hset : a.setState newState now = some b) :
    (w.observe a.state b.state now).Tells b now := by
  obtain ⟨hvalid, hstate, -, htotal, -, hlast⟩ := Pcb.setState_eq_some hset
  have hfinished : w.finished ≤ now := h.finished.trans hclock
  by_cases hready : a.state = .ready
  · -- the stay that ends now goes to the counter
    obtain ⟨hbegin, hover, hentered⟩ := h.entered hready
    have hleft : b.state ≠ .ready := by
      intro heq
      rw [hready, ← hstate, heq] at hvalid
      cases hvalid
    have hobserve : w.observe a.state b.state now =
        { w with finished := w.finished + (now - w.entered) } := by
      rw [observe, if_pos hready, if_neg hleft]
    have hsum : w.finished + (now - w.entered) ≤ now := by omega
    rw [hobserve]
    refine ⟨?_, hsum, fun heq => absurd heq hleft⟩
    rw [htotal, hready, hbegin, tickSub_eq (hentered.trans hclock) hbound]
    change tickAdd a.timing.totalWaitTime (now - w.entered) = _
    rw [h.total]
    exact Nat.mod_eq_of_lt (lt_of_le_of_lt hsum hbound)
  · have hkept : b.timing.totalWaitTime = w.finished := by
      rw [htotal, ← h.total]
      cases hcase : a.state with
      | ready => exact absurd hcase hready
      | _ => rfl
    by_cases hafter : b.state = .ready
    · have hobserve : w.observe a.state b.state now = { w with entered := now } := by
        rw [observe, if_neg hready, if_pos hafter]
      rw [hobserve]
      exact ⟨hkept, hfinished, fun _ => ⟨hlast, hfinished, le_refl now⟩⟩
    · have hobserve : w.observe a.state b.state now = w := by
        rw [observe, if_neg hready, if_neg hafter]
      rw [hobserve]
      exact ⟨hkept, hfinished, fun heq => absurd heq hafter⟩

theorem Tells.stateStep (h : w.Tells a clock) (hclock : clock ≤ now) (hbound : now < 2 ^ 64)
    (hstep : StateStep now a b) : (w.observe a.state b.state now).Tells b now := by
  cases hstep with
  | same => exact (h.later hclock).observe_self
  | change hset => exact h.setState hclock hbound hset
  | @restart b' _ hset hset' =>
    -- the stay in between is empty
    obtain ⟨hvalid, hstate, -⟩ := Pcb.setState_eq_some hset
    obtain ⟨-, hstate', -⟩ := Pcb.setState_eq_some hset'
    have hnot : a.state ≠ .ready := by
      intro heq
      rw [heq] at hvalid
      cases hvalid
    have hfirst := h.setState hclock hbound hset
    have hsecond := hfirst.setState (le_refl now) hbound hset'
    rw [hstate, hstate'] at hsecond
    have hrest : ({ w with entered := now } : ReadyTime).Tells b now := by
      simpa [observe, hnot] using hsecond
    have hobserve : w.observe a.state b.state now = w := by simp [observe, hnot, hstate']
    rw [hobserve]
    refine ⟨hrest.total, hrest.finished, fun heq => ?_⟩
    rw [hstate'] at heq
    cases heq

theorem Tells.step (h : w.Tells a clock) (hclock : clock ≤ now) (hbound : now < 2 ^ 64)
    (hstep : BlockStep now a b) : (w.observe a.state b.state now).Tells b now := by
  cases hstep with
  | state hstate => exact h.stateStep hclock hbound hstate
  | @admitted b' prediction hset =>
    have hstate : (Scheduler.estimate prediction b').state = b'.state := by
      cases prediction <;> rfl
    rw [hstate]
    exact (h.setState hclock hbound hset).estimate prediction

end ReadyTime

def readyTime (s : Scheduler) (p : ProcessId) : List Op → ReadyTime → ReadyTime
  | [], w => w
  | op :: ops, w => readyTime (machine.next s op) p ops
      (w.observe (s.pcbs p).state ((machine.next s op).pcbs p).state (op.tick.getD 0))

theorem readyTime_tells {w : ReadyTime} {clock : Tick} (h : w.Tells (s.pcbs p) clock)
    {ops : List Op}
    (hticks : (ops.filterMap Op.tick).Pairwise (· ≤ ·))
    (hclock : ∀ t ∈ ops.filterMap Op.tick, clock ≤ t ∧ t < 2 ^ 64) :
    ∃ clock', (readyTime s p ops w).Tells ((machine.run s ops).pcbs p) clock' := by
  induction ops generalizing s w clock with
  | nil => exact ⟨clock, h⟩
  | cons op ops ih =>
    rw [Transition.Machine.run_cons, readyTime]
    cases htick : op.tick with
    | none =>
      have hstep : (w.observe (s.pcbs p).state ((machine.next s op).pcbs p).state 0).Tells
          ((machine.next s op).pcbs p) clock := by
        rw [pcbs_of_tick_eq_none htick]
        exact h.observe_self
      rw [List.filterMap_cons_none htick] at hticks hclock
      exact ih hstep hticks hclock
    | some t =>
      rw [List.filterMap_cons_some htick] at hticks hclock
      obtain ⟨hle, hbound⟩ := hclock t List.mem_cons_self
      obtain ⟨hlater, hrest⟩ := List.pairwise_cons.mp hticks
      have hstep := h.step hle hbound (exec_block htick s p)
      exact ih hstep hrest fun u hu =>
        ⟨hlater u hu, (hclock u (List.mem_cons_of_mem _ hu)).2⟩

def ratioAfter (s : Scheduler) (p : ProcessId) (wait : ℕ) : ℚ :=
  (wait + serviceTime (s.snapshot p)) / serviceTime (s.snapshot p)

/-- The part of the wait that is not on the counter. -/
def currentWait (s : Scheduler) (now : Tick) (p : ProcessId) : ℕ :=
  if (s.pcbs p).state = .ready then now - (s.pcbs p).timing.lastStateChange else 0

def currentRatio (s : Scheduler) (now : Tick) (p : ProcessId) : ℚ :=
  s.ratioAfter p ((s.pcbs p).timing.totalWaitTime + s.currentWait now p)

/-- The comparison of the policy, which reads the counters alone, puts the first process before the
second one. -/
def CountedBefore (s : Scheduler) (p q : ProcessId) : Prop :=
  lessDoubleResponse (s.snapshot q) (s.snapshot p) = true

/-- The stays that are not over put no process ahead of one that is before it by the counters. -/
def CurrentWaitsAgree (s : Scheduler) (ready : List ProcessId) (now : Tick) : Prop :=
  ∀ p ∈ ready, ∀ q ∈ ready, s.CountedBefore p q → s.currentRatio now q ≤ s.currentRatio now p

structure FreeLane (s : Scheduler) (lane : ℕ) (ready : List ProcessId) : Prop where
  policy : s.policy = some hrrnDoublePolicy
  queue : s.readyByLane[lane]? = some ready
  free : s.runningByLane[lane]? = some none

/-- The process that the lane starts after the run has the greatest ratio of its queue. -/
def StartsGreatest (start : Scheduler) (ops : List Op) (lane : ℕ) (now : Tick) : Prop :=
  let s := machine.run start ops
  let waited := fun p => (readyTime start p ops {}).upTo (s.pcbs p).state now
  ∀ ready pid, s.readyByLane[lane]? = some ready → (s.selectNextForLane lane now).1 = .ok pid →
    ∀ q ∈ ready, s.ratioAfter q (waited q) ≤ s.ratioAfter pid (waited pid)

theorem countedBefore_iff (s : Scheduler) (p q : ProcessId) :
    s.CountedBefore p q ↔
      PolicyKind.hrrnDouble.rank (s.snapshot p) < PolicyKind.hrrnDouble.rank (s.snapshot q) := by
  rw [CountedBefore, lessDoubleResponse_eq, decide_eq_true_iff, PolicyKind.rank_lt]
  simp [PolicyKind.key, Prod.Lex.toLex_lt_toLex, snapshot, toSnapshot]

theorem currentRatio_congr {t : Scheduler} (h : t.pcbs = s.pcbs) (now : Tick) (p : ProcessId) :
    t.currentRatio now p = s.currentRatio now p := by
  simp only [currentRatio, ratioAfter, currentWait, snapshot, h]

theorem countedBefore_congr {t : Scheduler} (h : t.pcbs = s.pcbs) (p q : ProcessId) :
    t.CountedBefore p q ↔ s.CountedBefore p q := by
  simp only [CountedBefore, snapshot, h]

theorem upTo_eq {w : ReadyTime} {clock : Tick} (h : w.Tells (s.pcbs p) clock) (now : Tick) :
    w.upTo (s.pcbs p).state now = (s.pcbs p).timing.totalWaitTime + s.currentWait now p := by
  rw [ReadyTime.upTo, currentWait, h.total]
  by_cases hready : (s.pcbs p).state = .ready
  · rw [if_pos hready, if_pos hready, (h.entered hready).1]
  · rw [if_neg hready, if_neg hready]

theorem ratioAfter_waited {start : Scheduler} {ops : List Op}
    (hfresh : (start.pcbs p).state = .new ∧ (start.pcbs p).timing.totalWaitTime = 0)
    (hticks : (ops.filterMap Op.tick).Pairwise (· ≤ ·))
    (hbound : ∀ t ∈ ops.filterMap Op.tick, t < 2 ^ 64) (now : Tick) :
    (machine.run start ops).ratioAfter p
        ((readyTime start p ops {}).upTo ((machine.run start ops).pcbs p).state now) =
      (machine.run start ops).currentRatio now p := by
  have hbegin : ({} : ReadyTime).Tells (start.pcbs p) 0 := by
    refine ⟨hfresh.2, le_refl 0, fun hready => ?_⟩
    rw [hfresh.1] at hready
    cases hready
  obtain ⟨clock, htells⟩ := readyTime_tells hbegin hticks fun t ht => ⟨Nat.zero_le t, hbound t ht⟩
  rw [upTo_eq htells, currentRatio]

theorem FreeLane.countedBefore {ready : List ProcessId} (h : s.FreeLane lane ready)
    (hlanes : LanesMatch s) (hstart : (s.selectNextForLane lane now).1 = .ok pid) :
    pid ∈ ready ∧ ∀ q ∈ ready, q ≠ pid → s.CountedBefore pid q := by
  have hselect : s.selectNextForLane lane now = (.ok pid, (s.selectNextForLane lane now).2) :=
    Prod.ext hstart rfl
  obtain ⟨queue, _, hqueue, -, -, -, hselection⟩ :=
    selectNextForLane_selection hlanes h.policy hselect
  obtain rfl := Option.some.inj (h.queue.symm.trans hqueue)
  cases hselection with
  | alone hrun => simp [h.free] at hrun
  | keeps _ _ hrun => simp [h.free] at hrun
  | replaces _ _ hrun => simp [h.free] at hrun
  | starts hcandidate hmem =>
    refine ⟨hmem, fun q hq hne => (s.countedBefore_iff pid q).mpr ?_⟩
    have hle := @selectMin_le s _ _ _ PolicyKind.hrrnDouble.rank _ rfl _ hq
    rw [← PolicyKind.selectNext_eq .hrrnDouble _ now,
      show PolicyKind.hrrnDouble.policy.selectNext (s.asConst ready) now = pid from hcandidate]
      at hle
    exact lt_of_le_of_ne hle (PolicyKind.hrrnDouble.rank_ne (Ne.symm hne))

theorem FreeLane.starts {ready : List ProcessId} (h : s.FreeLane lane ready) (hnodup : ready.Nodup)
    (hp : p ∈ ready) (hvalid : p ≠ invalidPid) (hstate : (s.pcbs p).state = .ready)
    (hbefore : ∀ q ∈ ready, q ≠ p → s.CountedBefore p q) (now : Tick) :
    (s.selectNextForLane lane now).1 = .ok p := by
  have hoptimum : PolicyKind.hrrnDouble.Optimum (s.asConst ready) (s.snapshot p) := by
    refine ⟨List.mem_map_of_mem hp, fun other hother hne => ?_⟩
    obtain ⟨q, hq, rfl⟩ := List.mem_map.mp hother
    have hqp : q ≠ p := fun heq => hne (heq ▸ rfl)
    exact (s.countedBefore_iff p q).mp (hbefore q hq hqp)
  have hpids : ((s.asConst ready).map (·.pid)).Nodup := by rwa [asConst_pids]
  have hselect : hrrnDoublePolicy.selectNext (s.asConst ready) now = p :=
    PolicyKind.selectNext_of_optimum hpids hoptimum now
  unfold selectNextForLane
  rw [h.queue, h.policy, h.free]
  cases ready with
  | nil => cases hp
  | cons first rest =>
    dsimp only [Option.join_some]
    rw [hselect, if_neg hvalid, if_neg (not_not.mpr hp), startOn_reply, if_pos hstate]

theorem FreeLane.dequeue {ready : List ProcessId} (h : s.FreeLane lane ready) (pid : ProcessId) :
    ∃ ready', (s.dequeue pid).2.FreeLane lane ready' ∧ ready' ⊆ ready ∧
      (pid ∈ s.processes → ready' = removeFrom ready pid) := by
  by_cases hpid : pid ∈ s.processes
  · rw [Scheduler.dequeue, if_neg (not_not.mpr hpid)]
    refine ⟨removeFrom ready pid, ⟨h.policy, ?_, ?_⟩, List.filter_subset_self _, fun _ => rfl⟩
    · simp [removeFromAllReady, h.queue]
    · simp [h.free]
  · rw [Scheduler.dequeue, if_pos hpid]
    exact ⟨ready, h, List.Subset.refl ready, fun hmem => absurd hmem hpid⟩

theorem FreeLane.dequeues {ready : List ProcessId} (h : s.FreeLane lane ready)
    (gone : List ProcessId) :
    ∃ ready', (machine.run s (gone.map .dequeue)).FreeLane lane ready' ∧ ready' ⊆ ready ∧
      (machine.run s (gone.map .dequeue)).pcbs = s.pcbs := by
  induction gone generalizing s ready with
  | nil => exact ⟨ready, h, List.Subset.refl ready, rfl⟩
  | cons pid gone ih =>
    obtain ⟨ready', h', hsub, -⟩ := h.dequeue pid
    obtain ⟨ready'', h'', hsub', hpcbs⟩ := ih h'
    exact ⟨ready'', h'', fun r hr => hsub (hsub' hr),
      hpcbs.trans (@pcbs_of_tick_eq_none (.dequeue pid) rfl s)⟩

theorem FreeLane.dequeues_tracked {ready : List ProcessId} (h : s.FreeLane lane ready)
    (htracked : ∃ place, Tracked s place) (gone : List ProcessId) :
    (machine.run s (gone.map .dequeue)).FreeLane lane (ready.filter (· ∉ gone)) := by
  induction gone generalizing s ready with
  | nil => simpa using h
  | cons pid gone ih =>
    obtain ⟨place, hplace⟩ := htracked
    obtain ⟨ready', h', -, hleft⟩ := h.dequeue pid
    have hready' : ready' = removeFrom ready pid := by
      by_cases hpid : pid ∈ s.processes
      · exact hleft hpid
      · have hnot : pid ∉ ready := fun hmem => hpid
          (hplace.registered pid (by rw [hplace.represents.ready_of_mem h.queue hmem]; rfl))
        have hsame : (s.dequeue pid).2 = s := by rw [Scheduler.dequeue, if_pos hpid]
        rw [hsame] at h'
        rw [← Option.some.inj (h.queue.symm.trans h'.queue)]
        exact (removeFrom_eq_self.mpr hnot).symm
    have hunblocked : EnqueuesUnblocked s (.dequeue pid) := trivial
    have hnext := ih (hready' ▸ h') (exec_tracked hunblocked ⟨place, hplace⟩)
    have hfilter : (removeFrom ready pid).filter (· ∉ gone) = ready.filter (· ∉ pid :: gone) := by
      rw [removeFrom, List.filter_filter]
      congr 1
      funext r
      simp [Bool.and_comm]
    exact hfilter ▸ hnext

/-- The process that a selection under HRRN starts has the greatest real ratio, also when processes
have left the queue before, if the stays that are not over agree with the counters; and only then,
as long as no blocked process is enqueued. -/
theorem hrrn_real_waits (policy : Option SchedulingPolicy) (pcbs : ProcessId → Pcb)
    (laneCount : ℕ) (ops : List Op)
    (hfresh : ∀ p, (pcbs p).state = .new ∧ (pcbs p).timing.totalWaitTime = 0)
    (hticks : (ops.filterMap Op.tick).Pairwise (· ≤ ·))
    (hbound : ∀ t ∈ ops.filterMap Op.tick, t < 2 ^ 64) (lane : ℕ) (now : Tick)
    (ready : List ProcessId) :
    let start := create policy pcbs laneCount
    let s := machine.run start ops
    s.FreeLane lane ready →
      (s.CurrentWaitsAgree ready now →
        ∀ gone : List ProcessId, StartsGreatest start (ops ++ gone.map .dequeue) lane now) ∧
      (0 < laneCount → machine.Guarded EnqueuesUnblocked start ops →
        (∀ gone : List ProcessId, StartsGreatest start (ops ++ gone.map .dequeue) lane now) →
        s.CurrentWaitsAgree ready now) := by
  intro start s hlane
  have hno : ∀ gone : List ProcessId, (gone.map Op.dequeue).filterMap Op.tick = [] := by
    intro gone
    simp [List.filterMap_map, Function.comp_def, Op.tick]
  have hratio : ∀ (gone : List ProcessId) (q : ProcessId),
      (machine.run start (ops ++ gone.map .dequeue)).ratioAfter q
          ((readyTime start q (ops ++ gone.map .dequeue) {}).upTo
            ((machine.run start (ops ++ gone.map .dequeue)).pcbs q).state now) =
        s.currentRatio now q := by
    intro gone q
    obtain ⟨-, -, -, hpcbs⟩ := hlane.dequeues gone
    rw [ratioAfter_waited (hfresh q) (by rwa [List.filterMap_append, hno, List.append_nil])
      (by rwa [List.filterMap_append, hno, List.append_nil]), machine.run_append]
    exact currentRatio_congr hpcbs now q
  constructor
  · intro hagree gone queue pid hqueue hstart q hq
    obtain ⟨ready', hlane', hsub, hpcbs⟩ := hlane.dequeues gone
    rw [← machine.run_append] at hlane' hpcbs
    obtain rfl := Option.some.inj (hlane'.queue.symm.trans hqueue)
    obtain ⟨hmem, hbefore⟩ := hlane'.countedBefore (run_lanesMatch policy pcbs laneCount _) hstart
    rw [hratio, hratio]
    by_cases hqp : q = pid
    · rw [hqp]
    · exact hagree pid (hsub hmem) q (hsub hq)
        ((countedBefore_congr hpcbs pid q).mp (hbefore q hq hqp))
  · intro hlanes hguarded hgreatest p hp q hq hbefore
    have htracked : ∃ place, Tracked s place :=
      machine.run_invariant_of_guarded (fun _ _ => exec_tracked)
        ⟨_, tracked_create policy pcbs hlanes⟩ hguarded
    -- the two processes are left alone on the queue
    let gone := ready.filter fun r => r ≠ p ∧ r ≠ q
    have hlane' := hlane.dequeues_tracked htracked gone
    obtain ⟨-, -, -, hpcbs⟩ := hlane.dequeues gone
    have hleft : ∀ r, r ∈ ready.filter (· ∉ gone) ↔ r ∈ ready ∧ (r = p ∨ r = q) := by
      intro r
      simp only [gone, List.mem_filter, decide_eq_true_eq]
      tauto
    obtain ⟨place, hplace⟩ := htracked
    have hpready := hplace.represents.ready_of_mem hlane.queue hp
    have hstart := hlane'.starts ((hplace.represents.ready_nodup lane ready hlane.queue).filter _)
      ((hleft p).mpr ⟨hp, Or.inl rfl⟩) (hplace.ne_invalidPid hpready)
      (by rw [hpcbs]; exact hplace.state p _ hpready)
      (fun r hr hne => by
        obtain rfl := ((hleft r).mp hr).2.resolve_left hne
        exact (countedBefore_congr hpcbs p r).mpr hbefore) now
    rw [← machine.run_append] at hlane' hstart
    have hle := hgreatest gone _ p hlane'.queue hstart q ((hleft q).mpr ⟨hq, Or.inr rfl⟩)
    rwa [hratio, hratio] at hle

theorem hrrn_real_waits_of_equal_stays :
    let start := create (some hrrnDoublePolicy) (fun _ => {}) 1
    let ops : List Op := [.enqueue 1 0, .enqueue 2 0]
    (machine.run start ops).CurrentWaitsAgree [1, 2] 10 ∧ StartsGreatest start ops 0 10 ∧
      ((machine.run start ops).selectNextForLane 0 10).1 = .ok 1 := by
  intro start ops
  have hagree : (machine.run start ops).CurrentWaitsAgree [1, 2] 10 := by
    intro p hp q hq _
    apply le_of_eq
    simp only [List.mem_cons, List.not_mem_nil, or_false] at hp hq
    rcases hp with rfl | rfl <;> rcases hq with rfl | rfl <;> rfl
  refine ⟨hagree, ?_, by decide +kernel⟩
  have hreal := hrrn_real_waits (some hrrnDoublePolicy) (fun _ => {}) 1 ops (fun _ => ⟨rfl, rfl⟩)
    (by decide) (by decide) 0 10 [1, 2] ⟨rfl, rfl, rfl⟩
  exact hreal.1 hagree []

def longWaitRun : List Op := [.enqueue 2 0, .enqueue 1 9]

/-- The process that waits for ten ticks has the greater ratio, and the other one starts. -/
theorem hrrn_passes_long_wait :
    let start := create (some hrrnDoublePolicy) (fun _ => {}) 1
    let s := machine.run start longWaitRun
    let waited := fun p => (readyTime start p longWaitRun {}).upTo (s.pcbs p).state 10
    s.readyByLane[0]? = some [2, 1] ∧ s.runningByLane[0]? = some none ∧
      (∀ q ∈ [2, 1], (s.pcbs q).timing.lastStateChange ≤ 10) ∧
      (s.selectNextForLane 0 10).1 = .ok 1 ∧ waited 1 = 1 ∧ waited 2 = 10 ∧
      s.ratioAfter 1 (waited 1) < s.ratioAfter 2 (waited 2) := by
  intro start s waited
  refine ⟨rfl, rfl, by decide +kernel, by decide +kernel, by decide +kernel, by decide +kernel, ?_⟩
  decide +kernel

end Contur.Scheduler
