import Contur.SchedulerInvariant

/-!
# What a failed scheduler call leaves behind

`unblock` and the ready branch of `blockProcess` ask the process control block first
and move the process afterwards, so a refusal leaves everything in place. The other
calls register, steal, dequeue or record a burst before the block is asked. For each
call the condition is stated on the state before it under which an error leaves no
trace in the queues, the slots, the registry, the burst statistics and the blocks.
-/

namespace Contur
open Function (update)
open Transition

namespace Scheduler
variable {s s' : Scheduler} {pid : ProcessId} {lane : ℕ} {now : Tick}

/-- What an observer of the scheduler sees: the two private tables `runStart` and
`processLane` are left out. -/
structure Same (s s' : Scheduler) : Prop where
  readyByLane : s'.readyByLane = s.readyByLane
  runningByLane : s'.runningByLane = s.runningByLane
  blocked : s'.blocked = s.blocked
  processes : s'.processes = s.processes
  predictions : s'.predictions = s.predictions
  pcbs : s'.pcbs = s.pcbs

theorem Same.refl (s : Scheduler) : Same s s := ⟨rfl, rfl, rfl, rfl, rfl, rfl⟩

def Reply.isError : Reply → Bool
  | .done (.error _) => true
  | .selected (.error _) => true
  | _ => false

def NoTrace (s : Scheduler) (op : Op) : Prop :=
  (machine.out s op).isError = true → Same s (machine.next s op)

/-- A result together with the state after it leaves no trace when it is an error. -/
def Untraced {α : Type} (s : Scheduler) (r : Result α × Scheduler) : Prop :=
  ∀ code, r.1 = .error code → Same s r.2

theorem untraced_same {α : Type} (r : Result α) : Untraced s (r, s) := fun _ _ => Same.refl s

theorem untraced_ok {α : Type} (a : α) (s' : Scheduler) : Untraced s (.ok a, s') := by
  intro code h
  cases h

theorem untraced_error {α : Type} (code : ErrorCode) :
    Untraced s ((.error code : Result α), s') ↔ Same s s' :=
  ⟨fun h => h code rfl, fun h _ _ => h⟩

theorem Reply.isError_done (r : Result Unit) :
    (Reply.done r).isError = true ↔ ∃ code, r = .error code := by
  cases r <;> simp [Reply.isError]

theorem Reply.isError_selected (r : Result ProcessId) :
    (Reply.selected r).isError = true ↔ ∃ code, r = .error code := by
  cases r <;> simp [Reply.isError]

theorem noTrace_iff {α : Type} {reply : Result α → Reply}
    (hreply : ∀ r, (reply r).isError = true ↔ ∃ code, r = .error code) {op : Op}
    {r : Result α × Scheduler} (h : s.exec op = r.map reply id) : NoTrace s op ↔ Untraced s r := by
  have hout : machine.out s op = reply r.1 := congrArg Prod.fst h
  have hnext : machine.next s op = r.2 := congrArg Prod.snd h
  unfold NoTrace Untraced
  rw [hout, hnext, hreply]
  exact forall_exists_index

def BurstSettled (s : Scheduler) (pid : ProcessId) (now : Tick) : Prop :=
  ∀ started, s.runStart pid = some started → started ≤ now →
    s.predictions pid = some (recordBurst (s.predictions pid) (now - started))

theorem same_recordRunningBurst :
    Same s (s.recordRunningBurst pid now) ↔ BurstSettled s pid now := by
  unfold recordRunningBurst BurstSettled
  cases hstart : s.runStart pid with
  | none => simp [Same.refl]
  | some started =>
    dsimp only
    by_cases hle : started ≤ now
    · constructor
      · intro h _ heq _
        obtain rfl := Option.some.inj heq
        have hpid := congrFun h.predictions pid
        simpa [hle] using hpid.symm
      · intro h
        have hpid := h started rfl hle
        refine ⟨rfl, rfl, rfl, rfl, ?_, rfl⟩
        simp only [hle, ↓reduceIte]
        rw [← hpid, Function.update_eq_self]
    · constructor
      · intro _ _ heq hle'
        obtain rfl := Option.some.inj heq
        exact absurd hle' hle
      · intro _
        simp only [hle, ↓reduceIte]
        exact ⟨rfl, rfl, rfl, rfl, rfl, rfl⟩

theorem pcbs_recordRunningBurst : (s.recordRunningBurst pid now).pcbs = s.pcbs := by
  obtain ⟨predictions, heq⟩ := recordRunningBurst_eq s pid now
  rw [heq]

theorem blockOn_untraced :
    Untraced s (s.blockOn lane pid now) ↔
      (s.pcbs pid).state = .running ∨ BurstSettled s pid now := by
  unfold blockOn
  dsimp only
  rw [pcbs_recordRunningBurst]
  rcases (s.pcbs pid).setState_from isValidTransition_blocked now with
    ⟨hstate, pcb, hpcb⟩ | ⟨hstate, hnone⟩
  · rw [hpcb]
    exact iff_of_true (untraced_ok _ _) (Or.inl hstate)
  · rw [hnone]
    dsimp only
    rw [untraced_error, same_recordRunningBurst, or_iff_right hstate]

/-- What the policy wants a lane to do. -/
inductive Choice where
  | refused
  | keeps (running : ProcessId)
  | starts (candidate : ProcessId)
  | replaces (running candidate : ProcessId)
  deriving DecidableEq

def choice (s : Scheduler) (laneIndex : ℕ) (now : Tick) : Choice :=
  match s.policy, s.readyByLane[laneIndex]?, (s.runningByLane[laneIndex]?).join with
  | some _, some [], some running => .keeps running
  | some policy, some (first :: rest), running =>
    let candidate := policy.selectNext (s.asConst (first :: rest)) now
    if candidate = invalidPid ∨ candidate ∉ first :: rest then .refused
    else match running with
      | none => .starts candidate
      | some running =>
        if policy.shouldPreempt (toSnapshot running (s.pcbs running))
            (toSnapshot candidate (s.pcbs candidate)) now then .replaces running candidate
        else .keeps running
  | _, _, _ => .refused

def Choice.Allowed (s : Scheduler) : Choice → Prop
  | .refused => False
  | .keeps _ => True
  | .starts candidate => (s.pcbs candidate).state = .ready
  | .replaces running candidate => isValidTransition (s.pcbs running).state .ready = true ∧
      (candidate = running ∨ (s.pcbs candidate).state = .ready)

/-- A choice that the lane carries out, refuses, or gives up before anything is moved. -/
def Choice.Clean (s : Scheduler) (now : Tick) : Choice → Prop
  | .refused => True
  | .replaces running candidate =>
    if isValidTransition (s.pcbs running).state .ready then
      candidate = running ∨ (s.pcbs candidate).state = .ready
    else BurstSettled s running now
  | choice => choice.Allowed s

theorem selectNextForLane_eq (s : Scheduler) (lane : ℕ) (now : Tick) :
    match s.choice lane now with
    | .refused => ∃ code, s.selectNextForLane lane now = (.error code, s)
    | .keeps running => s.selectNextForLane lane now = (.ok running, s)
    | .starts candidate => s.selectNextForLane lane now = s.startOn lane candidate now ∧
        ∃ ready, s.readyByLane[lane]? = some ready ∧ candidate ∈ ready
    | .replaces running candidate =>
      ((∃ ready, s.readyByLane[lane]? = some ready ∧ candidate ∈ ready) ∧
        s.runningByLane[lane]? = some (some running)) ∧
      (∀ code t, s.preempt lane running now = (.error code, t) →
        s.selectNextForLane lane now = (.error code, t)) ∧
      ∀ t, s.preempt lane running now = (.ok (), t) →
        s.selectNextForLane lane now = t.startOn lane candidate now := by
  unfold choice selectNextForLane
  cases s.policy with
  | none =>
    cases s.readyByLane[lane]? with
    | none => exact ⟨_, rfl⟩
    | some ready => exact ⟨_, rfl⟩
  | some policy =>
    cases hready : s.readyByLane[lane]? with
    | none => exact ⟨_, rfl⟩
    | some ready =>
      cases ready with
      | nil =>
        cases (s.runningByLane[lane]?).join with
        | none => exact ⟨_, rfl⟩
        | some running => rfl
      | cons first rest =>
        dsimp only
        generalize policy.selectNext (s.asConst (first :: rest)) now = candidate
        by_cases hinvalid : candidate = invalidPid
        · simp [hinvalid]
        by_cases hmem : candidate ∈ first :: rest
        · cases hrun : (s.runningByLane[lane]?).join with
          | none =>
            simp only [hinvalid, hmem, not_true_eq_false, or_self, ↓reduceIte, true_and]
            exact ⟨_, rfl, hmem⟩
          | some running =>
            by_cases hpre : policy.shouldPreempt (toSnapshot running (s.pcbs running))
              (toSnapshot candidate (s.pcbs candidate)) now = true
            · simp only [hinvalid, hmem, hpre, not_true_eq_false, or_self, ↓reduceIte]
              exact ⟨⟨⟨_, rfl, hmem⟩, Option.join_eq_some_iff.mp hrun⟩,
                fun code t heq => by rw [heq], fun t heq => by rw [heq]⟩
            · simp [hinvalid, hmem, hpre]
        · simp [hinvalid, hmem]

theorem startOn_cases (s : Scheduler) (lane : ℕ) (candidate : ProcessId) (now : Tick) :
    ((s.pcbs candidate).state = .ready ∧ ∃ t pcb,
        s.startOn lane candidate now = (.ok candidate, t) ∧
        (s.pcbs candidate).setState .running now = some pcb ∧
        t.pcbs = update s.pcbs candidate pcb ∧ t.processes = s.processes) ∨
      ((s.pcbs candidate).state ≠ .ready ∧ s.startOn lane candidate now = (.error .invalidState,
        { s with readyByLane := s.readyByLane.modify lane (removeFrom · candidate) })) := by
  unfold startOn
  dsimp only
  rcases (s.pcbs candidate).setState_from isValidTransition_running now with
    ⟨hstate, pcb, hpcb⟩ | ⟨hstate, hnone⟩
  · rw [hpcb]
    exact Or.inl ⟨hstate, _, pcb, rfl, rfl, rfl, rfl⟩
  · rw [hnone]
    exact Or.inr ⟨hstate, rfl⟩

theorem preempt_cases (s : Scheduler) (lane : ℕ) (running : ProcessId) (now : Tick) :
    (isValidTransition (s.pcbs running).state .ready = true ∧ ∃ t pcb,
        s.preempt lane running now = (.ok (), t) ∧
        (s.pcbs running).setState .ready now = some pcb ∧
        t.pcbs = update s.pcbs running pcb ∧ t.processes = s.processes ∧ pcb.state = .ready) ∨
      (isValidTransition (s.pcbs running).state .ready = false ∧
        s.preempt lane running now = (.error .invalidState, s.recordRunningBurst running now)) := by
  unfold preempt
  dsimp only
  rw [pcbs_recordRunningBurst]
  by_cases hvalid : isValidTransition (s.pcbs running).state .ready = true
  · obtain ⟨pcb, hpcb, hstate⟩ := Pcb.setState_of_valid rfl hvalid now
    obtain ⟨predictions, hrec⟩ := recordRunningBurst_eq s running now
    rw [hpcb, hrec]
    exact Or.inl ⟨hvalid, _, pcb, rfl, rfl, rfl, rfl, hstate⟩
  · have hvalid : isValidTransition (s.pcbs running).state .ready = false := by simpa using hvalid
    rw [Pcb.setState_eq_none.mpr hvalid]
    exact Or.inr ⟨hvalid, rfl⟩

theorem selectNextForLane_ok_iff :
    (∃ pid, (s.selectNextForLane lane now).1 = .ok pid) ↔ (s.choice lane now).Allowed s := by
  have hselect := selectNextForLane_eq s lane now
  cases hchoice : s.choice lane now with
  | refused =>
    rw [hchoice] at hselect
    obtain ⟨code, heq⟩ := hselect
    simp [heq, Choice.Allowed]
  | keeps running =>
    rw [hchoice] at hselect
    have heq : s.selectNextForLane lane now = (.ok running, s) := hselect
    simp [heq, Choice.Allowed]
  | starts candidate =>
    rw [hchoice] at hselect
    rw [hselect.1]
    rcases startOn_cases s lane candidate now with ⟨hstate, t, pcb, heq, -⟩ | ⟨hstate, heq⟩
    · simp [heq, Choice.Allowed, hstate]
    · simp [heq, Choice.Allowed, hstate]
  | replaces running candidate =>
    rw [hchoice] at hselect
    rcases preempt_cases s lane running now with ⟨hvalid, t, pcb, heq, -, hpcbs, -, hstate⟩ |
      ⟨hvalid, heq⟩
    · rw [hselect.2.2 t heq]
      -- the running process itself is ready now, the others are as they were
      have hcandidate : (t.pcbs candidate).state = .ready ↔
          candidate = running ∨ (s.pcbs candidate).state = .ready := by
        rw [hpcbs]
        by_cases hc : candidate = running
        · simp [hc, hstate]
        · simp [hc]
      rcases startOn_cases t lane candidate now with ⟨hready, t', pcb', heq', -⟩ |
        ⟨hready, heq'⟩
      · simp [heq', Choice.Allowed, hvalid, ← hcandidate, hready]
      · simp [heq', Choice.Allowed, hvalid, ← hcandidate, hready]
    · rw [hselect.2.1 _ _ heq]
      simp [Choice.Allowed, hvalid]

theorem not_same_of_lost {ready : List ProcessId} (hready : s.readyByLane[lane]? = some ready)
    (hmem : pid ∈ ready) (hlanes : s'.readyByLane = s.readyByLane.modify lane (removeFrom · pid)) :
    ¬ Same s s' := by
  intro h
  have hlane := congrArg (·[lane]?) (hlanes.symm.trans h.readyByLane)
  simp only [List.getElem?_modify, hready, ↓reduceIte, Option.map_eq_map, Option.map_some,
    Option.some.injEq] at hlane
  rw [← hlane] at hmem
  simp [removeFrom] at hmem

theorem selectNextForLane_untraced :
    Untraced s (s.selectNextForLane lane now) ↔ (s.choice lane now).Clean s now := by
  have hselect := selectNextForLane_eq s lane now
  cases hchoice : s.choice lane now with
  | refused =>
    rw [hchoice] at hselect
    obtain ⟨code, heq⟩ := hselect
    rw [heq]
    exact iff_of_true (untraced_same _) trivial
  | keeps running =>
    rw [hchoice] at hselect
    rw [show s.selectNextForLane lane now = (.ok running, s) from hselect]
    exact iff_of_true (untraced_same _) trivial
  | starts candidate =>
    rw [hchoice] at hselect
    obtain ⟨hstart, ready, hready, hmem⟩ := hselect
    rw [hstart]
    rcases startOn_cases s lane candidate now with ⟨hstate, t, pcb, heq, -⟩ | ⟨hstate, heq⟩
    · rw [heq]
      exact iff_of_true (untraced_ok _ _) hstate
    · rw [heq, untraced_error]
      exact iff_of_false (not_same_of_lost hready hmem rfl) hstate
  | replaces running candidate =>
    rw [hchoice] at hselect
    rcases preempt_cases s lane running now with ⟨hvalid, t, pcb, heq, -, hpcbs, -, hstate⟩ |
      ⟨hvalid, heq⟩
    · rw [hselect.2.2 t heq]
      have hclean : Choice.Clean s now (.replaces running candidate) ↔
          (t.pcbs candidate).state = .ready := by
        simp only [Choice.Clean, hvalid, ↓reduceIte, hpcbs]
        by_cases hc : candidate = running
        · simp [hc, hstate]
        · simp [hc]
      rw [hclean]
      rcases startOn_cases t lane candidate now with ⟨hready, t', pcb', heq', -⟩ |
        ⟨hready, heq'⟩
      · rw [heq']
        exact iff_of_true (untraced_ok _ _) hready
      · rw [heq', untraced_error]
        refine iff_of_false (fun h => ?_) hready
        -- the running process has already become ready
        have hrunning : t.pcbs running = s.pcbs running := congrFun h.pcbs running
        rw [hpcbs, Function.update_self] at hrunning
        rw [← hrunning, hstate] at hvalid
        cases hvalid
    · rw [hselect.2.1 _ _ heq, untraced_error, same_recordRunningBurst]
      simp [Choice.Clean, hvalid]

def stolenTo (s : Scheduler) (thiefLane : ℕ) : Option Scheduler :=
  match (victimLane thiefLane s.readyByLane).1 with
  | none => none
  | some victim =>
    match s.readyByLane.getD victim [] with
    | [] => none
    | stolen :: _ => some { s with
        readyByLane := (s.readyByLane.modify victim List.tail).modify thiefLane (· ++ [stolen])
        processLane := update s.processLane stolen (some thiefLane) }

theorem victimLane_ne {thief victim : ℕ} {lanes : List (List ProcessId)}
    (h : (victimLane thief lanes).1 = some victim) : victim ≠ thief := by
  unfold victimLane at h
  have hfold : ∀ (order : List ℕ) (best : Option ℕ × ℕ), (∀ v, best.1 = some v → v ≠ thief) →
      ∀ v, (order.foldl (chooseVictim thief lanes) best).1 = some v → v ≠ thief := by
    intro order
    induction order with
    | nil => exact fun best hbest => hbest
    | cons lane order ih =>
      intro best hbest
      apply ih
      intro v hv
      simp only [chooseVictim] at hv
      split_ifs at hv with heq hlt
      · exact hbest v hv
      · obtain rfl := Option.some.inj hv
        exact heq
      · exact hbest v hv
  exact hfold _ (none, 0) (by simp) victim h

theorem stolenTo_lost {thief : ℕ} (h : s.stolenTo thief = some s') :
    ∃ victim first rest, victim ≠ thief ∧ s.readyByLane[victim]? = some (first :: rest) ∧
      s'.readyByLane[victim]? = some rest := by
  unfold stolenTo at h
  cases hvictim : (victimLane thief s.readyByLane).1 with
  | none => simp [hvictim] at h
  | some victim =>
    have hne := victimLane_ne hvictim
    cases hqueue : s.readyByLane.getD victim [] with
    | nil => simp only [hvictim, hqueue, reduceCtorEq] at h
    | cons first rest =>
      simp only [hvictim, hqueue, Option.some.injEq] at h
      have hget := getElem?_of_getD_cons hqueue
      refine ⟨victim, first, rest, hne, hget, ?_⟩
      rw [← h]
      simp [hget, Ne.symm hne]

theorem readyByLane_selectNextForLane_ne (s : Scheduler) (now : Tick) {other : ℕ}
    (hne : other ≠ lane) :
    (s.selectNextForLane lane now).2.readyByLane[other]? = s.readyByLane[other]? := by
  have hstart : ∀ (t : Scheduler) candidate,
      (t.startOn lane candidate now).2.readyByLane[other]? = t.readyByLane[other]? := by
    intro t candidate
    unfold startOn
    dsimp only
    split <;> simp [Ne.symm hne]
  have hpreempt : ∀ running,
      (s.preempt lane running now).2.readyByLane[other]? = s.readyByLane[other]? := by
    intro running
    obtain ⟨predictions, heq⟩ := recordRunningBurst_eq s running now
    unfold preempt
    rw [heq]
    dsimp only
    split <;> simp [Ne.symm hne]
  have hselect := selectNextForLane_eq s lane now
  cases hchoice : s.choice lane now with
  | refused =>
    rw [hchoice] at hselect
    obtain ⟨code, heq⟩ := hselect
    rw [heq]
  | keeps running =>
    rw [hchoice] at hselect
    rw [show s.selectNextForLane lane now = (.ok running, s) from hselect]
  | starts candidate =>
    rw [hchoice] at hselect
    rw [hselect.1, hstart]
  | replaces running candidate =>
    rw [hchoice] at hselect
    have hpre := hpreempt running
    cases hrun : s.preempt lane running now with
    | mk r t =>
      rw [hrun] at hpre
      cases r with
      | error code => rw [hselect.2.1 code t hrun, hpre]
      | ok u => rw [hselect.2.2 t hrun, hstart, hpre]

theorem stealNextForLane_untraced {thief : ℕ} :
    Untraced s (s.stealNextForLane thief now) ↔
      s.readyByLane.length ≤ thief ∨
        ∀ t, s.stolenTo thief = some t → (t.choice thief now).Allowed t := by
  by_cases hlane : s.readyByLane.length ≤ thief
  · rw [stealNextForLane, if_pos hlane]
    exact iff_of_true (untraced_same _) (Or.inl hlane)
  have hsteal : s.stealNextForLane thief now = match s.stolenTo thief with
      | none => (.error .notFound, s)
      | some t => t.selectNextForLane thief now := by
    rw [stealNextForLane, if_neg hlane, stolenTo]
    cases (victimLane thief s.readyByLane).1 with
    | none => rfl
    | some victim =>
      dsimp only
      cases s.readyByLane.getD victim [] with
      | nil => rfl
      | cons first rest => rfl
  rw [hsteal, or_iff_right hlane]
  cases hstolen : s.stolenTo thief with
  | none => exact iff_of_true (untraced_same _) (by simp)
  | some t =>
    simp only [Option.some.injEq, forall_eq', ← selectNextForLane_ok_iff]
    obtain ⟨victim, first, rest, hne, hbefore, hafter⟩ := stolenTo_lost hstolen
    have hkept := readyByLane_selectNextForLane_ne t now hne
    cases hrun : t.selectNextForLane thief now with
    | mk r t' =>
      rw [hrun] at hkept
      cases r with
      | ok pid => exact iff_of_true (untraced_ok _ _) ⟨pid, rfl⟩
      | error code =>
        rw [untraced_error]
        refine iff_of_false (fun h => ?_) (by simp)
        rw [h.readyByLane, hbefore, hafter] at hkept
        simp at hkept

/-- The call is refused at once, or the pid is registered already, or the process gets in. -/
def EnqueueClean (s : Scheduler) (pid : ProcessId) (lane : ℕ) : Prop :=
  s.readyByLane.length ≤ lane ∨ pid = invalidPid ∨ pid ∈ s.processes ∨
    (s.findReadyLane pid).isSome ∨ (s.findRunningLane pid).isSome ∨
    ((s.pcbs pid).state ≠ .running ∧ isValidTransition (s.pcbs pid).state .ready = true)

theorem enqueueToLane_untraced :
    Untraced s (s.enqueueToLane pid lane now) ↔ EnqueueClean s pid lane := by
  unfold enqueueToLane EnqueueClean
  by_cases hlane : s.readyByLane.length ≤ lane
  · rw [if_pos hlane]
    exact iff_of_true (untraced_same _) (Or.inl hlane)
  rw [if_neg hlane, or_iff_right hlane]
  by_cases hpid : pid = invalidPid
  · rw [if_pos hpid]
    exact iff_of_true (untraced_same _) (Or.inl hpid)
  rw [if_neg hpid, or_iff_right hpid]
  have hfind : findReadyLane { s with processes := insert pid s.processes } pid =
      s.findReadyLane pid ∧
    findRunningLane { s with processes := insert pid s.processes } pid = s.findRunningLane pid :=
    ⟨rfl, rfl⟩
  simp only [hfind]
  -- a refusal leaves the pid in the registry, so it shows unless the pid was there before
  have hregistered : Same s { s with processes := insert pid s.processes } ↔ pid ∈ s.processes := by
    constructor
    · intro h
      rw [← h.processes]
      exact Finset.mem_insert_self pid s.processes
    · intro hmem
      exact ⟨rfl, rfl, rfl, Finset.insert_eq_of_mem hmem, rfl, rfl⟩
  by_cases hready : (s.findReadyLane pid).isSome = true
  · rw [if_pos hready]
    exact iff_of_true (untraced_ok _ _) (Or.inr (Or.inl hready))
  rw [if_neg hready]
  by_cases hrunning : (s.findRunningLane pid).isSome = true
  · rw [if_pos hrunning]
    exact iff_of_true (untraced_ok _ _) (Or.inr (Or.inr (Or.inl hrunning)))
  rw [if_neg hrunning, or_iff_right hready, or_iff_right hrunning]
  by_cases hstate : (s.pcbs pid).state = .running
  · rw [if_pos hstate, untraced_error, hregistered]
    simp [hstate]
  rw [if_neg hstate]
  by_cases hvalid : isValidTransition (s.pcbs pid).state .ready = true
  · obtain ⟨pcb, hpcb, -⟩ := Pcb.setState_of_valid rfl hvalid now
    rw [hpcb]
    exact iff_of_true (untraced_ok _ _) (Or.inr ⟨hstate, hvalid⟩)
  · rw [Pcb.setState_eq_none.mpr (by simpa using hvalid)]
    dsimp only
    rw [untraced_error, hregistered]
    simp [hvalid]

theorem dequeue_untraced : Untraced s (s.dequeue pid) := by
  unfold dequeue
  split
  · exact untraced_same _
  · exact untraced_ok _ _

theorem blockProcess_untraced :
    Untraced s (s.blockProcess pid now) ↔
      pid ∉ s.processes ∨ s.findRunningLane pid = none ∨ (s.pcbs pid).state = .running ∨
        BurstSettled s pid now := by
  unfold blockProcess
  by_cases hmem : pid ∉ s.processes
  · rw [if_pos hmem]
    exact iff_of_true (untraced_same _) (Or.inl hmem)
  rw [if_neg hmem, or_iff_right hmem]
  cases hrunning : s.findRunningLane pid with
  | some lane =>
    dsimp only
    rw [blockOn_untraced]
    simp
  | none =>
    dsimp only
    refine iff_of_true ?_ (Or.inl rfl)
    split
    · exact untraced_same _
    · split
      · exact untraced_same _
      · exact untraced_ok _ _

theorem blockRunning_untraced :
    Untraced s (s.blockRunning now) ↔
      ∀ lane, s.runningByLane.findIdx? Option.isSome = some lane →
        ∀ pid, s.runningByLane[lane]? = some (some pid) →
          (s.pcbs pid).state = .running ∨ BurstSettled s pid now := by
  unfold blockRunning
  cases s.runningByLane.findIdx? Option.isSome with
  | none => exact iff_of_true (untraced_same _) (by simp)
  | some lane =>
    dsimp only
    cases hslot : s.runningByLane[lane]? with
    | none => exact iff_of_true (untraced_same _) (by simp [hslot])
    | some slot =>
      cases slot with
      | none => exact iff_of_true (untraced_same _) (by simp [hslot])
      | some pid =>
        dsimp only
        rw [blockOn_untraced]
        simp [hslot]

theorem unblock_untraced : Untraced s (s.unblock pid now) := by
  unfold unblock
  split
  · exact untraced_same _
  · split
    · exact untraced_same _
    · exact untraced_ok _ _

theorem configureLanes_untraced {laneCount : ℕ} : Untraced s (s.configureLanes laneCount) := by
  unfold configureLanes
  split_ifs
  · exact untraced_same _
  · exact untraced_same _
  · exact untraced_ok _ _

theorem setPolicy_untraced {policy : Option SchedulingPolicy} :
    Untraced s (s.setPolicy policy) := by
  cases policy with
  | none => exact untraced_same _
  | some policy => exact untraced_ok _ _

theorem mem_ready_of_findReadyLane :
    (s.findReadyLane pid).isSome ↔ ∃ q ∈ s.readyByLane, pid ∈ q := by
  rw [findReadyLane, List.findIdx?_isSome, List.any_eq_true]
  simp

theorem removeFrom_eq_self {queue : List ProcessId} : removeFrom queue pid = queue ↔
    pid ∉ queue := by
  rw [removeFrom, List.filter_eq_self]
  constructor
  · intro h hmem
    simpa using h pid hmem
  · intro h p hp
    simp only [ne_eq, decide_eq_true_eq]
    rintro rfl
    exact h hp

theorem removeFromAllReady_eq_self {lanes : List (List ProcessId)} :
    removeFromAllReady lanes pid = lanes ↔ ∀ q ∈ lanes, pid ∉ q := by
  have hid : removeFromAllReady lanes pid = lanes ↔
      lanes.map (removeFrom · pid) = lanes.map id := by
    rw [List.map_id]
    rfl
  rw [hid, List.map_inj_left]
  exact forall₂_congr fun q _ => removeFrom_eq_self

theorem terminate_untraced :
    Untraced s (s.terminate pid now) ↔
      pid ∉ s.processes ∨ (s.pcbs pid).state = .running ∨
        (s.findRunningLane pid = none ∧ s.findReadyLane pid = none ∧ pid ∉ s.blocked) := by
  unfold terminate
  by_cases hmem : pid ∉ s.processes
  · rw [if_pos hmem]
    exact iff_of_true (untraced_same _) (Or.inl hmem)
  rw [if_neg hmem, or_iff_right hmem]
  cases hrunning : s.findRunningLane pid with
  | some lane =>
    dsimp only
    rw [pcbs_recordRunningBurst]
    rcases (s.pcbs pid).setState_from isValidTransition_terminated now with
      ⟨hstate, pcb, hpcb⟩ | ⟨hstate, hnone⟩
    · rw [hpcb]
      exact iff_of_true (untraced_ok _ _) (Or.inl hstate)
    · rw [hnone]
      dsimp only
      rw [untraced_error]
      -- the slot of the lane has been emptied
      obtain ⟨hlt, hslot, -⟩ := List.findIdx?_eq_some_iff_getElem.mp hrunning
      refine iff_of_false (fun h => ?_) (by simp [hstate])
      obtain ⟨predictions, heq⟩ := recordRunningBurst_eq s pid now
      have hset : s.runningByLane.set lane none = s.runningByLane := by
        simpa only [heq] using h.runningByLane
      have hget := congrArg (·[lane]?) hset
      simp only [List.getElem?_set_self hlt, List.getElem?_eq_getElem hlt, Option.some.injEq]
        at hget
      rw [← hget] at hslot
      simp at hslot
  | none =>
    dsimp only
    rcases (s.pcbs pid).setState_from isValidTransition_terminated now with
      ⟨hstate, pcb, hpcb⟩ | ⟨hstate, hnone⟩
    · rw [hpcb]
      exact iff_of_true (untraced_ok _ _) (Or.inl hstate)
    · rw [hnone]
      dsimp only
      have hready : s.findReadyLane pid = none ↔ ∀ q ∈ s.readyByLane, pid ∉ q := by
        rw [← Option.not_isSome_iff_eq_none, mem_ready_of_findReadyLane]
        simp
      rw [untraced_error, or_iff_right hstate, hready]
      constructor
      · intro h
        exact ⟨rfl, removeFromAllReady_eq_self.mp h.readyByLane, removeFrom_eq_self.mp h.blocked⟩
      · rintro ⟨-, hlanes, hblocked⟩
        exact ⟨removeFromAllReady_eq_self.mpr hlanes, rfl, removeFrom_eq_self.mpr hblocked,
          rfl, rfl, rfl⟩

/-- An error of the call, if it gives one, comes before anything is moved. -/
def Clean (s : Scheduler) : Op → Prop
  | .enqueue pid _ => EnqueueClean s pid 0
  | .enqueueToLane pid lane _ => EnqueueClean s pid lane
  | .selectNext now => (s.choice 0 now).Clean s now
  | .selectNextForLane lane now => (s.choice lane now).Clean s now
  | .stealNextForLane thief now => s.readyByLane.length ≤ thief ∨
      ∀ t, s.stolenTo thief = some t → (t.choice thief now).Allowed t
  | .blockRunning now => ∀ lane, s.runningByLane.findIdx? Option.isSome = some lane →
      ∀ pid, s.runningByLane[lane]? = some (some pid) →
        (s.pcbs pid).state = .running ∨ BurstSettled s pid now
  | .blockProcess pid now => pid ∉ s.processes ∨ s.findRunningLane pid = none ∨
      (s.pcbs pid).state = .running ∨ BurstSettled s pid now
  | .terminate pid _ => pid ∉ s.processes ∨ (s.pcbs pid).state = .running ∨
      (s.findRunningLane pid = none ∧ s.findReadyLane pid = none ∧ pid ∉ s.blocked)
  | .dequeue _ | .unblock _ _ | .configureLanes _ | .setPolicy _ => True

theorem noTrace_iff_clean (s : Scheduler) (op : Op) : NoTrace s op ↔ Clean s op := by
  cases op with
  | enqueue pid now => exact (noTrace_iff Reply.isError_done rfl).trans enqueueToLane_untraced
  | enqueueToLane pid lane now =>
    exact (noTrace_iff Reply.isError_done rfl).trans enqueueToLane_untraced
  | dequeue pid =>
    exact iff_of_true ((noTrace_iff Reply.isError_done rfl).mpr dequeue_untraced) trivial
  | selectNext now =>
    exact (noTrace_iff Reply.isError_selected rfl).trans selectNextForLane_untraced
  | selectNextForLane lane now =>
    exact (noTrace_iff Reply.isError_selected rfl).trans selectNextForLane_untraced
  | stealNextForLane thief now =>
    exact (noTrace_iff Reply.isError_selected rfl).trans stealNextForLane_untraced
  | blockRunning now => exact (noTrace_iff Reply.isError_done rfl).trans blockRunning_untraced
  | blockProcess pid now => exact (noTrace_iff Reply.isError_done rfl).trans blockProcess_untraced
  | unblock pid now =>
    exact iff_of_true ((noTrace_iff Reply.isError_done rfl).mpr unblock_untraced) trivial
  | terminate pid now => exact (noTrace_iff Reply.isError_done rfl).trans terminate_untraced
  | configureLanes laneCount =>
    exact iff_of_true ((noTrace_iff Reply.isError_done rfl).mpr configureLanes_untraced) trivial
  | setPolicy policy =>
    exact iff_of_true ((noTrace_iff Reply.isError_done rfl).mpr setPolicy_untraced) trivial

/-- In a run no failed call has left a trace exactly when every call was clean in the state it was
made in. -/
theorem errors_leave_no_trace_iff (policy : Option SchedulingPolicy) (pcbs : ProcessId → Pcb)
    (laneCount : ℕ) (ops : List Op) :
    let start := create policy pcbs laneCount
    (machine.Guarded NoTrace start ops ↔ machine.Guarded Clean start ops) ∧
      ∀ op, NoTrace (machine.run start ops) op ↔ Clean (machine.run start ops) op := by
  intro start
  have hguards : NoTrace = Clean := by
    funext s op
    exact propext (noTrace_iff_clean s op)
  rw [hguards]
  exact ⟨Iff.rfl, fun _ => Iff.rfl⟩

/-- Terminating a ready process fails, and the process has left its queue. -/
theorem terminate_ready_leaves_trace :
    let s := machine.run (create (some fcfsPolicy) (fun _ => {}) 1) [.enqueue 1 0]
    machine.out s (.terminate 1 5) = .done (.error .invalidState) ∧
      s.readyByLane = [[1]] ∧ (machine.next s (.terminate 1 5)).readyByLane = [[]] ∧
      ¬ NoTrace s (.terminate 1 5) := by
  intro s
  have hready : s.readyByLane = [[1]] := by decide
  have hnext : (machine.next s (.terminate 1 5)).readyByLane = [[]] := by decide
  refine ⟨by decide, hready, hnext, fun h => ?_⟩
  have hsame := (h (by decide)).readyByLane
  rw [hnext, hready] at hsame
  simp at hsame

end Scheduler
end Contur
