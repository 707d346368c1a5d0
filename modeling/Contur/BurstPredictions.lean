import Contur.BlockSteps

/-!
# Predicted bursts on the way to the policy

The statistics predict the next burst of a process from the bursts it has run, and the
policies read an estimate in its block. Only `enqueueToLane` copies the one into the other.
A process that is preempted, or that was blocked, comes back onto a ready queue without
it, although its prediction has just changed. So what the policies read is the prediction
exactly as long as every process that comes back has run for a burst that leaves the
prediction, or makes it, at the estimate of its block.
-/

namespace Contur.Scheduler
open Function (update)
open Placement

variable {s : Scheduler} {place : ProcessId → Option Place} {pid p : ProcessId} {now : Tick}
  {op : Op}

/-- New processes come in, are selected, block and unblock, and end. -/
def Bursts (s : Scheduler) : Op → Prop
  | .enqueue pid _ => (s.pcbs pid).state = .new
  | .selectNext _ => True
  | .blockRunning _ => True
  | .blockProcess _ _ => True
  | .unblock _ _ => True
  | .terminate _ _ => True
  | _ => False

theorem Bursts.oneLane (hop : Bursts s op) : OneLane s op := by
  cases op <;> first
    | exact hop
    | trivial

/-- What a policy reads of a process is what the statistics predict. -/
def Predicted (s : Scheduler) (p : ProcessId) : Prop :=
  ∀ burst, s.predictions p = some burst → (s.pcbs p).timing.estimatedBurst = burst

def PredictionsReach (s : Scheduler) : Prop := ∀ p ∈ s.getQueueSnapshot, s.Predicted p

def Returns (s : Scheduler) : Op → ProcessId → Prop
  | .selectNext now, p => ∃ candidate, s.choice 0 now = .replaces p candidate
  | .unblock pid _, p => p = pid ∧ pid ∈ s.blocked
  | _, _ => False

def predictionThen (s : Scheduler) : Op → ProcessId → Option Tick
  | .selectNext now, p => (s.recordRunningBurst p now).predictions p
  | _, p => s.predictions p

/-- The length of the burst that a process ends now, if its start was recorded. -/
def endedBurst (s : Scheduler) (p : ProcessId) (now : Tick) : Option Tick :=
  (s.runStart p).bind fun started => if started ≤ now then some (now - started) else none

/-- The burst that ends now is as long as the estimate, or its average with the old prediction is
the estimate. Where no burst is measured, the old prediction is. -/
def BurstAsEstimated (s : Scheduler) (p : ProcessId) (now : Tick) : Prop :=
  let estimated := (s.pcbs p).timing.estimatedBurst
  match s.endedBurst p now, s.predictions p with
  | some burst, none => burst = estimated
  | some burst, some old => averagedBurst old burst = estimated
  | none, some old => old = estimated
  | none, none => True

/-- A selection preempts only after a burst as estimated, and a blocked process that is called back
has no prediction, or one that is its estimate. -/
def EstimateHolds (s : Scheduler) : Op → Prop
  | .selectNext now => ∀ p candidate, s.choice 0 now = .replaces p candidate →
      s.BurstAsEstimated p now
  | .unblock pid _ => pid ∈ s.blocked → ∀ old, s.predictions pid = some old →
      old = (s.pcbs pid).timing.estimatedBurst
  | _ => True

theorem predictions_recordRunningBurst_self (s : Scheduler) (p : ProcessId) (now : Tick) :
    (s.recordRunningBurst p now).predictions p =
      ((s.endedBurst p now).map (recordBurst (s.predictions p))).or (s.predictions p) := by
  unfold recordRunningBurst endedBurst
  cases s.runStart p with
  | none => rfl
  | some started =>
    dsimp only [Option.bind_some]
    split_ifs
    · exact Function.update_self _ _ _
    · rfl

theorem burstAsEstimated_iff (s : Scheduler) (p : ProcessId) (now : Tick) :
    s.BurstAsEstimated p now ↔
      ∀ burst, (s.recordRunningBurst p now).predictions p = some burst →
        burst = (s.pcbs p).timing.estimatedBurst := by
  rw [predictions_recordRunningBurst_self, BurstAsEstimated]
  cases s.endedBurst p now <;> cases s.predictions p <;> simp [recordBurst]

theorem estimateHolds_iff (s : Scheduler) (op : Op) :
    s.EstimateHolds op ↔ ∀ p, s.Returns op p → ∀ burst, s.predictionThen op p = some burst →
      burst = (s.pcbs p).timing.estimatedBurst := by
  cases op with
  | selectNext now =>
    constructor
    · rintro h p ⟨candidate, hchoice⟩
      exact (s.burstAsEstimated_iff p now).mp (h p candidate hchoice)
    · intro h p candidate hchoice
      exact (s.burstAsEstimated_iff p now).mpr (h p ⟨candidate, hchoice⟩)
  | unblock pid now =>
    constructor
    · rintro h p ⟨rfl, hblocked⟩
      exact h hblocked
    · intro h hblocked
      exact h pid ⟨rfl, hblocked⟩
  | _ => simp [EstimateHolds, Returns]

theorem predictions_recordRunningBurst (s : Scheduler) (now : Tick) (h : p ≠ pid) :
    (s.recordRunningBurst pid now).predictions p = s.predictions p := by
  unfold recordRunningBurst
  cases s.runStart pid with
  | none => rfl
  | some started =>
    dsimp only
    split_ifs
    · exact Function.update_of_ne h _ _
    · rfl

theorem predictions_startOn (s : Scheduler) (lane : ℕ) (candidate : ProcessId) (now : Tick) :
    (s.startOn lane candidate now).2.predictions = s.predictions := by
  unfold startOn
  dsimp only
  split <;> rfl

theorem predictions_preempt (s : Scheduler) (lane : ℕ) (running : ProcessId) (now : Tick) :
    (s.preempt lane running now).2.predictions =
      (s.recordRunningBurst running now).predictions := by
  unfold preempt
  dsimp only
  split <;> rfl

theorem predictions_blockOn (s : Scheduler) (lane : ℕ) (running : ProcessId) (now : Tick) :
    (s.blockOn lane running now).2.predictions =
      (s.recordRunningBurst running now).predictions := by
  unfold blockOn
  dsimp only
  split <;> rfl

theorem mem_flatten_modify {α : Type} {lanes : List (List α)} {f : List α → List α} {x : α} {i : ℕ}
    (h : x ∈ (lanes.modify i f).flatten) : x ∈ lanes.flatten ∨ ∃ queue ∈ lanes, x ∈ f queue := by
  obtain ⟨queue, hqueue, hx⟩ := List.mem_flatten.mp h
  obtain ⟨j, hj⟩ := List.mem_iff_getElem?.mp hqueue
  rw [List.getElem?_modify] at hj
  cases hlane : lanes[j]? with
  | none => simp [hlane] at hj
  | some old =>
    have hmem : old ∈ lanes := List.mem_of_getElem? hlane
    by_cases hij : i = j
    · have heq : f old = queue := by simpa [hlane, hij] using hj
      exact Or.inr ⟨old, hmem, heq ▸ hx⟩
    · have heq : old = queue := by simpa [hlane, hij] using hj
      exact Or.inl (List.mem_flatten.mpr ⟨old, hmem, heq ▸ hx⟩)

theorem mem_of_mem_remove {lanes : List (List ProcessId)} {i : ℕ}
    (h : p ∈ (lanes.modify i (removeFrom · pid)).flatten) : p ∈ lanes.flatten := by
  rcases mem_flatten_modify h with hmem | ⟨queue, hqueue, hmem⟩
  · exact hmem
  · exact List.mem_flatten.mpr ⟨queue, hqueue, List.mem_of_mem_filter hmem⟩

theorem mem_of_mem_push {lanes : List (List ProcessId)} {i : ℕ}
    (h : p ∈ (lanes.modify i (· ++ [pid])).flatten) : p ∈ lanes.flatten ∨ p = pid := by
  rcases mem_flatten_modify h with hmem | ⟨queue, hqueue, hmem⟩
  · exact Or.inl hmem
  · rcases List.mem_append.mp hmem with hmem | hmem
    · exact Or.inl (List.mem_flatten.mpr ⟨queue, hqueue, hmem⟩)
    · exact Or.inr (List.mem_singleton.mp hmem)

theorem queue_recordRunningBurst (s : Scheduler) (pid : ProcessId) (now : Tick) :
    (s.recordRunningBurst pid now).getQueueSnapshot = s.getQueueSnapshot := by
  obtain ⟨predictions, heq⟩ := recordRunningBurst_eq s pid now
  rw [heq]
  rfl

theorem mem_of_mem_startOn {lane : ℕ} (h : p ∈ (s.startOn lane pid now).2.getQueueSnapshot) :
    p ∈ s.getQueueSnapshot := by
  unfold startOn at h
  dsimp only at h
  split at h <;> exact mem_of_mem_remove h

theorem mem_of_mem_preempt {lane : ℕ} (h : p ∈ (s.preempt lane pid now).2.getQueueSnapshot) :
    p ∈ s.getQueueSnapshot ∨ p = pid := by
  rw [← queue_recordRunningBurst s pid now]
  unfold preempt at h
  dsimp only at h
  split at h
  · exact Or.inl h
  · exact mem_of_mem_push h

theorem mem_of_mem_selectNext (h : p ∈ (s.selectNextForLane 0 now).2.getQueueSnapshot) :
    p ∈ s.getQueueSnapshot ∨ s.Returns (.selectNext now) p := by
  have hselect := selectNextForLane_eq s 0 now
  cases hchoice : s.choice 0 now with
  | refused =>
    rw [hchoice] at hselect
    obtain ⟨code, heq⟩ := hselect
    rw [heq] at h
    exact Or.inl h
  | keeps running =>
    rw [hchoice] at hselect
    have heq : s.selectNextForLane 0 now = (.ok running, s) := hselect
    rw [heq] at h
    exact Or.inl h
  | starts candidate =>
    rw [hchoice] at hselect
    rw [hselect.1] at h
    exact Or.inl (mem_of_mem_startOn h)
  | replaces running candidate =>
    rw [hchoice] at hselect
    have hqueue : p ∈ (s.preempt 0 running now).2.getQueueSnapshot := by
      cases hpreempt : s.preempt 0 running now with
      | mk result t =>
        cases result with
        | error code =>
          rw [hselect.2.1 code t hpreempt] at h
          exact h
        | ok done =>
          rw [hselect.2.2 t hpreempt] at h
          exact mem_of_mem_startOn h
    rcases mem_of_mem_preempt hqueue with hmem | rfl
    · exact Or.inl hmem
    · exact Or.inr ⟨candidate, hchoice⟩

theorem mem_of_mem_enqueue {lane : ℕ} (h : p ∈ (s.enqueueToLane pid lane now).2.getQueueSnapshot) :
    p ∈ s.getQueueSnapshot ∨ p = pid := by
  simp only [enqueueToLane] at h
  split_ifs at h
  all_goals try exact Or.inl h
  split at h
  · exact Or.inl h
  · exact mem_of_mem_push h

theorem mem_of_mem_blockOn {lane : ℕ} (h : p ∈ (s.blockOn lane pid now).2.getQueueSnapshot) :
    p ∈ s.getQueueSnapshot := by
  rw [← queue_recordRunningBurst s pid now]
  unfold blockOn at h
  dsimp only at h
  split at h <;> exact h

theorem mem_of_mem_blockRunning (h : p ∈ (s.blockRunning now).2.getQueueSnapshot) :
    p ∈ s.getQueueSnapshot := by
  unfold blockRunning at h
  split at h
  · exact h
  split at h
  · exact mem_of_mem_blockOn h
  · exact h

theorem mem_of_mem_blockProcess (h : p ∈ (s.blockProcess pid now).2.getQueueSnapshot) :
    p ∈ s.getQueueSnapshot := by
  unfold blockProcess at h
  split_ifs at h
  · split at h
    · exact mem_of_mem_blockOn h
    split at h
    · exact h
    split at h
    · exact h
    · exact mem_of_mem_remove h
  · exact h

theorem mem_of_mem_unblock (h : p ∈ (s.unblock pid now).2.getQueueSnapshot) :
    p ∈ s.getQueueSnapshot ∨ s.Returns (.unblock pid now) p := by
  unfold unblock at h
  split_ifs at h with hblocked
  · split at h
    · exact Or.inl h
    · rcases mem_of_mem_push h with hmem | hp
      · exact Or.inl hmem
      · exact Or.inr ⟨hp, hblocked⟩
  · exact Or.inl h

theorem mem_of_mem_terminate (h : p ∈ (s.terminate pid now).2.getQueueSnapshot) :
    p ∈ s.getQueueSnapshot ∧ (p = pid → pid ∈ s.processes → s.findRunningLane pid ≠ none) := by
  unfold terminate at h
  by_cases hmem : pid ∈ s.processes
  · rw [if_neg (not_not.mpr hmem)] at h
    cases hrun : s.findRunningLane pid with
    | some lane =>
      rw [hrun] at h
      dsimp only at h
      refine ⟨?_, fun _ _ => by simp⟩
      rw [← queue_recordRunningBurst s pid now]
      split at h <;> exact h
    | none =>
      rw [hrun] at h
      dsimp only at h
      have hqueue : p ∈ (removeFromAllReady s.readyByLane pid).flatten := by
        split at h <;> exact h
      obtain ⟨queue, hqueue, hp⟩ := List.mem_flatten.mp hqueue
      obtain ⟨old, hold, rfl⟩ := List.mem_map.mp hqueue
      obtain ⟨hin, hne⟩ := List.mem_filter.mp hp
      exact ⟨List.mem_flatten.mpr ⟨old, hold, hin⟩, fun heq => absurd heq (by simpa using hne)⟩
  · rw [if_pos hmem] at h
    exact ⟨h, fun _ hin => absurd hin hmem⟩

structure Waits (s : Scheduler) (op : Op) (p : ProcessId) : Prop where
  mem : p ∈ s.getQueueSnapshot
  prediction : (machine.next s op).predictions p = s.predictions p
  estimatedBurst : ((machine.next s op).pcbs p).timing.estimatedBurst =
    (s.pcbs p).timing.estimatedBurst

theorem Waits.predicted_iff (h : Waits s op p) :
    (machine.next s op).Predicted p ↔ s.Predicted p := by
  rw [Predicted, Predicted, h.prediction, h.estimatedBurst]

theorem estimatedBurst_exec {t : Tick} (htick : op.tick = some t)
    (hop : ∀ pid lane, op ≠ .enqueue pid t ∧ op ≠ .enqueueToLane pid lane t) (s : Scheduler)
    (p : ProcessId) :
    ((machine.next s op).pcbs p).timing.estimatedBurst = (s.pcbs p).timing.estimatedBurst :=
  (exec_stateStep htick hop s p).keys.2.2

theorem Tracked.not_running (h : Tracked s place) {lane : ℕ} (hp : p ∈ s.getQueueSnapshot)
    (hrun : s.runningByLane[lane]? = some (some pid)) : p ≠ pid := by
  intro heq
  obtain ⟨i, hready⟩ := (mem_getQueueSnapshot h.represents).mp hp
  rw [heq, (h.represents.running_iff pid lane).mpr hrun] at hready
  cases hready

theorem enqueue_predicted (h : Tracked s place) (hnew : (s.pcbs pid).state = .new)
    (hp : pid ∈ (s.enqueueToLane pid 0 now).2.getQueueSnapshot) :
    (s.enqueueToLane pid 0 now).2.Predicted pid := by
  have hnot : pid ∉ s.getQueueSnapshot := by
    intro hmem
    obtain ⟨lane, hready⟩ := (mem_getQueueSnapshot h.represents).mp hmem
    have hstate := h.state pid _ hready
    rw [hnew] at hstate
    cases hstate
  simp only [enqueueToLane] at hp ⊢
  split_ifs at hp ⊢
  all_goals try exact absurd hp hnot
  split at hp
  · exact absurd hp hnot
  · next pcb hset =>
    intro burst hburst
    have hburst : s.predictions pid = some burst := hburst
    simp [hburst, estimate]

theorem enqueue_waits (h : Tracked s place) (hnew : (s.pcbs pid).state = .new)
    (hp : p ∈ s.getQueueSnapshot) : Waits s (.enqueue pid now) p := by
  have hne : p ≠ pid := by
    rintro rfl
    obtain ⟨lane, hready⟩ := (mem_getQueueSnapshot h.represents).mp hp
    have hstate := h.state p _ hready
    rw [hnew] at hstate
    cases hstate
  have hkept : (s.enqueueToLane pid 0 now).2.predictions = s.predictions ∧
      (s.enqueueToLane pid 0 now).2.pcbs p = s.pcbs p := by
    simp only [enqueueToLane]
    split_ifs
    all_goals try exact ⟨rfl, rfl⟩
    split
    · exact ⟨rfl, rfl⟩
    · exact ⟨rfl, Function.update_of_ne hne _ _⟩
  exact ⟨hp, congrFun hkept.1 p, congrArg (·.timing.estimatedBurst) hkept.2⟩

theorem selectNext_predictions (h : Tracked s place) (hp : p ∈ s.getQueueSnapshot) :
    (s.selectNextForLane 0 now).2.predictions p = s.predictions p := by
  have hswitch := selectNextForLane_switch now h 0
  generalize (s.selectNextForLane 0 now).2 = s' at hswitch ⊢
  cases hswitch with
  | stays => rfl
  | starts hchosen hfree => rw [predictions_startOn]
  | @replaces running candidate t hchosen hrun hpreempt =>
    have hpredictions := predictions_preempt s 0 running now
    rw [hpreempt] at hpredictions
    rw [predictions_startOn, hpredictions]
    exact predictions_recordRunningBurst s now (h.not_running hp hrun)

theorem blockOn_predictions (h : Tracked s place) (hp : p ∈ s.getQueueSnapshot) {lane : ℕ}
    (hrun : s.runningByLane[lane]? = some (some pid)) :
    (s.blockOn lane pid now).2.predictions p = s.predictions p := by
  rw [predictions_blockOn]
  exact predictions_recordRunningBurst s now (h.not_running hp hrun)

theorem blockRunning_predictions (h : Tracked s place) (hp : p ∈ s.getQueueSnapshot) :
    (s.blockRunning now).2.predictions p = s.predictions p := by
  unfold blockRunning
  split
  · rfl
  split
  · next hrun => exact blockOn_predictions h hp hrun
  · rfl

theorem blockProcess_predictions (h : Tracked s place) (hp : p ∈ s.getQueueSnapshot) :
    (s.blockProcess pid now).2.predictions p = s.predictions p := by
  unfold blockProcess
  split_ifs
  · split
    · next hfound =>
      have hrunning := (findRunningLane_spec h.represents).mp hfound
      exact blockOn_predictions h hp ((h.represents.running_iff _ _).mp hrunning)
    split
    · rfl
    split <;> rfl
  · rfl

theorem unblock_predictions (s : Scheduler) (pid : ProcessId) (now : Tick) :
    (s.unblock pid now).2.predictions = s.predictions := by
  unfold unblock
  split_ifs
  · split <;> rfl
  · rfl

theorem terminate_predictions (s : Scheduler) (now : Tick) (hne : p ≠ pid) :
    (s.terminate pid now).2.predictions p = s.predictions p := by
  have hkept : (s.recordRunningBurst pid now).predictions p = s.predictions p :=
    predictions_recordRunningBurst s now hne
  unfold terminate
  split_ifs
  · cases s.findRunningLane pid with
    | none =>
      dsimp only
      split
      · rfl
      · exact Function.update_of_ne hne _ _
    | some lane =>
      dsimp only
      split
      · exact hkept
      · exact (Function.update_of_ne hne _ _).trans hkept
  · rfl

theorem exec_ready (h : Tracked s place) (hop : Bursts s op)
    (hp : p ∈ (machine.next s op).getQueueSnapshot) :
    Waits s op p ∨ (machine.next s op).Predicted p ∨ s.Returns op p := by
  cases op with
  | enqueue pid t =>
    rcases mem_of_mem_enqueue hp with hmem | rfl
    · exact Or.inl (enqueue_waits h hop hmem)
    · exact Or.inr (Or.inl (enqueue_predicted h hop hp))
  | selectNext t =>
    rcases mem_of_mem_selectNext hp with hmem | hreturns
    · exact Or.inl ⟨hmem, selectNext_predictions h hmem, estimatedBurst_exec rfl (by simp) s p⟩
    · exact Or.inr (Or.inr hreturns)
  | blockRunning t =>
    have hmem : p ∈ s.getQueueSnapshot := mem_of_mem_blockRunning hp
    exact Or.inl ⟨hmem, blockRunning_predictions h hmem, estimatedBurst_exec rfl (by simp) s p⟩
  | blockProcess pid t =>
    have hmem : p ∈ s.getQueueSnapshot := mem_of_mem_blockProcess hp
    exact Or.inl ⟨hmem, blockProcess_predictions h hmem, estimatedBurst_exec rfl (by simp) s p⟩
  | unblock pid t =>
    rcases mem_of_mem_unblock hp with hmem | hreturns
    · exact Or.inl ⟨hmem, congrFun (unblock_predictions s pid t) p,
        estimatedBurst_exec rfl (by simp) s p⟩
    · exact Or.inr (Or.inr hreturns)
  | terminate pid t =>
    obtain ⟨hmem, hgone⟩ := mem_of_mem_terminate hp
    have hne : p ≠ pid := by
      rintro rfl
      obtain ⟨lane, hready⟩ := (mem_getQueueSnapshot h.represents).mp hmem
      apply hgone rfl (h.registered p (by simp [hready]))
      exact findRunningLane_eq_none h.represents p (by simp [hready])
    exact Or.inl ⟨hmem, terminate_predictions s t hne, estimatedBurst_exec rfl (by simp) s p⟩
  | _ => exact hop.elim

theorem unblock_queue (h : Tracked s place) (hblocked : pid ∈ s.blocked) (now : Tick) :
    pid ∈ (s.unblock pid now).2.getQueueSnapshot := by
  have hp := (h.represents.blocked_iff pid).mpr hblocked
  obtain ⟨pcb, hpcb, -⟩ := Pcb.setState_of_valid (h.state pid _ hp)
    (rfl : isValidTransition _ .ready = true) now
  have hlane := returnLane_lt pid h.lanes_pos
  simp only [unblock, hblocked, hpcb, not_true_eq_false, ↓reduceIte]
  refine List.mem_flatten.mpr ⟨s.readyByLane[s.returnLane pid] ++ [pid], ?_, by simp⟩
  apply List.mem_of_getElem? (i := s.returnLane pid)
  simp [hlane]

theorem Returns.spec (hreturns : s.Returns op p) (h : Tracked s place) :
    p ∈ (machine.next s op).getQueueSnapshot ∧
      (machine.next s op).predictions p = s.predictionThen op p ∧
      ((machine.next s op).pcbs p).timing.estimatedBurst =
        (s.pcbs p).timing.estimatedBurst := by
  cases op with
  | selectNext now =>
    have htick : (Op.selectNext now).tick = some now := rfl
    have hestimated := estimatedBurst_exec htick (by simp) s p
    obtain ⟨candidate, hchoice⟩ := hreturns
    have hselect := selectNextForLane_eq s 0 now
    have hchosen := choice_chosen s 0 now
    rw [hchoice] at hselect hchosen
    have hrunning := (h.represents.running_iff p 0).mpr (Option.join_eq_some_iff.mp hchosen.1)
    have hcandidate := hchosen.2.ready now h
    obtain ⟨t, ht, hfree, hmoves⟩ := preempt_moves now h hrunning
    have hnext : machine.next s (.selectNext now) = (t.startOn 0 candidate now).2 :=
      congrArg Prod.snd (hselect.2.2 t ht)
    have hne : p ≠ candidate := by
      rintro rfl
      rw [hrunning] at hcandidate
      cases hcandidate
    obtain ⟨htracked, -⟩ := startOn_tracked now hmoves.tracked
      (ready_of_preempt hrunning hcandidate) hfree
    have hpredictions := predictions_preempt s 0 p now
    rw [ht] at hpredictions
    refine ⟨?_, ?_, hestimated⟩
    · rw [hnext, mem_getQueueSnapshot htracked.represents]
      exact ⟨0, by rw [Function.update_of_ne hne, Function.update_self]⟩
    · rw [hnext, predictions_startOn, hpredictions]
      rfl
  | unblock pid now =>
    obtain ⟨rfl, hblocked⟩ := hreturns
    exact ⟨unblock_queue h hblocked now, congrFun (unblock_predictions s p now) p,
      estimatedBurst_exec rfl (by simp) s p⟩
  | _ => exact hreturns.elim

theorem predictionsReach_iff (h : Tracked s place) (hop : Bursts s op) (hs : s.PredictionsReach) :
    (machine.next s op).PredictionsReach ↔ s.EstimateHolds op := by
  rw [estimateHolds_iff]
  constructor
  · intro hreach p hreturns burst hburst
    obtain ⟨hmem, hprediction, hestimated⟩ := hreturns.spec h
    rw [← hestimated]
    exact (hreach p hmem burst (hprediction.trans hburst)).symm
  · intro hholds p hp
    rcases exec_ready h hop hp with hwaits | hpredicted | hreturns
    · exact hwaits.predicted_iff.mpr (hs p hwaits.mem)
    · exact hpredicted
    · obtain ⟨-, hprediction, hestimated⟩ := hreturns.spec h
      intro burst hburst
      rw [hestimated]
      exact (hholds p hreturns burst (hprediction.symm.trans hburst)).symm

/-- The policies read the predictions at every point of a run exactly when every process that is
preempted or unblocked comes back after bursts as estimated. -/
theorem predictions_reach_policy_iff (policy : Option SchedulingPolicy) (pcbs : ProcessId → Pcb)
    {laneCount : ℕ} (hlanes : 0 < laneCount) {ops : List Op}
    (hops : machine.Guarded Bursts (create policy pcbs laneCount) ops) :
    (∀ n, (machine.run (create policy pcbs laneCount) (ops.take n)).PredictionsReach) ↔
      machine.Guarded EstimateHolds (create policy pcbs laneCount) ops := by
  apply machine.always_iff_guarded (I := fun s => ∃ place, Tracked s place) ?_ ?_
    ⟨_, tracked_create policy pcbs hlanes⟩ ?_ hops
  · rintro s op hop ⟨place, htracked⟩
    exact exec_tracked (hop.oneLane.enqueuesUnblocked htracked) ⟨place, htracked⟩
  · rintro s op hop ⟨place, htracked⟩ hs
    exact predictionsReach_iff htracked hop hs
  · intro p hp
    simp [create, getQueueSnapshot] at hp

def returningRun : List Op := [.enqueue 1 0, .selectNext 1, .blockRunning 5, .unblock 1 6]

theorem predictions_reach_policy_returning :
    let start := create (some spnPolicy) (fun _ => { timing := { estimatedBurst := 4 } }) 1
    let ops := returningRun ++ [.selectNext 7, .blockRunning 10, .unblock 1 11]
    (∀ n, (machine.run start (ops.take n)).PredictionsReach) ∧
      (machine.run start ops).getQueueSnapshot = [1] ∧
      (machine.run start ops).predictions 1 = some 4 := by
  intro start ops
  have hfirst : (machine.run start (ops.take 1)).choice 0 1 = .starts 1 := by decide +kernel
  have hsecond : (machine.run start (ops.take 4)).choice 0 7 = .starts 1 := by decide +kernel
  have hreturns : ∀ n ∈ [3, 6], (machine.run start (ops.take n)).predictions 1 =
      some ((machine.run start (ops.take n)).pcbs 1).timing.estimatedBurst := by decide +kernel
  dsimp only [start] at hfirst hsecond hreturns
  refine ⟨(predictions_reach_policy_iff _ _ Nat.one_pos ?_).mpr ?_, by decide +kernel,
    by decide +kernel⟩
  · exact ⟨rfl, trivial, trivial, trivial, trivial, trivial, trivial, trivial⟩
  · apply machine.guarded_of_getElem?
    intro n op hop
    match n with
    | 0 | 2 | 5 => obtain rfl := Option.some.inj hop; trivial
    | 1 =>
      obtain rfl := Option.some.inj hop
      intro p candidate hpreempt
      cases hfirst.symm.trans hpreempt
    | 4 =>
      obtain rfl := Option.some.inj hop
      intro p candidate hpreempt
      cases hsecond.symm.trans hpreempt
    | 3 =>
      obtain rfl := Option.some.inj hop
      intro _ old hold
      exact Option.some.inj (hold.symm.trans (hreturns 3 (by simp)))
    | 6 =>
      obtain rfl := Option.some.inj hop
      intro _ old hold
      exact Option.some.inj (hold.symm.trans (hreturns 6 (by simp)))
    | n + 7 => cases hop

/-- Its prediction is four ticks, and the policy reads zero. -/
theorem unblock_misses_prediction :
    let s := machine.run (create (some spnPolicy) (fun _ => {}) 1) returningRun
    machine.Guarded Bursts (create (some spnPolicy) (fun _ => {}) 1) returningRun ∧
      s.getQueueSnapshot = [1] ∧ s.predictions 1 = some 4 ∧
      (s.pcbs 1).timing.estimatedBurst = 0 ∧ ¬ s.PredictionsReach := by
  intro s
  have hqueue : s.getQueueSnapshot = [1] := by decide +kernel
  have hprediction : s.predictions 1 = some 4 := by decide +kernel
  have hestimated : (s.pcbs 1).timing.estimatedBurst = 0 := by decide +kernel
  refine ⟨⟨rfl, trivial, trivial, trivial, trivial⟩, hqueue, hprediction, hestimated, ?_⟩
  intro hreach
  have hread := hreach 1 (by simp [hqueue]) 4 hprediction
  rw [hestimated] at hread
  cases hread

end Contur.Scheduler
