import Contur.PoolProgress

/-!
# Sleeping and notified threads of the pool

A worker waits for a job on the condition variable `jobReady`, and the caller for the end
of its job on `jobDone`. A thread that finds its condition false goes to sleep, and then
nothing but a notification wakes it, or the condition variable itself, without a reason.
The caller notifies after it has released the lock, so that between the two steps a worker
may sleep through a job that has been posted. What sleeps has nothing to do otherwise: the
pool in such a run is the pool of a run in which the threads poll their conditions.
-/

namespace Contur
open Function (update)
open Transition DispatcherPool

structure NotifiedPool (ι δ : Type) where
  pool : DispatcherPool ι δ
  jobReadySleepers : ℕ → Bool := fun _ => false
  jobDoneSleeper : Bool := false
  /-- A job has been posted, and `notify_all` is still to come. -/
  notifying : Bool := false

/-- A thread moves, or a condition variable wakes one without being notified. -/
inductive NotifiedMove (ι : Type) where
  | thread (move : Move ι)
  | wakeWorker (w : ℕ)
  | wakeCaller

def NotifiedMove.isCall {ι : Type} : NotifiedMove ι → Bool
  | .thread move => move.isCall
  | _ => false

namespace NotifiedPool
variable {ι δ : Type}

def create (dispatchers : LaneStates ι δ) : NotifiedPool ι δ := { pool := .create dispatchers }

section Steps
variable [DecidableEq ι] (config : HostThreadingConfig) (D : LaneDispatchers ι δ)

/-- One step of `workerLoop`. The last worker to complete the job notifies `jobDone`. -/
def workerStep (n : NotifiedPool ι δ) (w : ℕ) : NotifiedPool ι δ :=
  if n.jobReadySleepers w then n
  else if n.pool.Finished w then
    { n with jobReadySleepers := update n.jobReadySleepers w true }
  else
    let pool := n.pool.workerStep config D w
    let notify := (n.pool.workers w).phase = .completing ∧ pool.completedWorkers = pool.workersSize
    { n with pool := pool, jobDoneSleeper := n.jobDoneSleeper && !decide notify }

/-- One step of the caller: `notify_all`, or what it does with the lock held. -/
def callerStep (n : NotifiedPool ι δ) : Option (Result Unit) × NotifiedPool ι δ :=
  if n.notifying then (none, { n with jobReadySleepers := fun _ => false, notifying := false })
  else if n.jobDoneSleeper then (none, n)
  else match n.pool.caller with
    | .waiting _ =>
      if n.pool.completedWorkers = n.pool.workersSize then
        ((n.pool.callerStep config).1, { n with pool := (n.pool.callerStep config).2 })
      else (none, { n with jobDoneSleeper := true })
    | .starting _ _ _ =>
      ((n.pool.callerStep config).1,
        { n with pool := (n.pool.callerStep config).2, notifying := true })
    | _ => ((n.pool.callerStep config).1, { n with pool := (n.pool.callerStep config).2 })

def step (n : NotifiedPool ι δ) : NotifiedMove ι → Option (Result Unit) × NotifiedPool ι δ
  | .thread .caller => n.callerStep config
  | .thread (.worker w) => (none, if w < n.pool.workersSize then n.workerStep config D w else n)
  | .thread call =>
    let answer := n.pool.step config D call
    (answer.1, { n with pool := answer.2 })
  | .wakeWorker w => (none, { n with jobReadySleepers := update n.jobReadySleepers w false })
  | .wakeCaller => (none, { n with jobDoneSleeper := false })

def machine : Machine (NotifiedPool ι δ) (NotifiedMove ι) (Option (Result Unit)) where
  step := step (normalizePoolConfig config) D

end Steps

/-- A worker sleeps when it has been through the posted job, or `notify_all` is still to come; the
caller sleeps when workers are missing. -/
structure Wakeful (n : NotifiedPool ι δ) : Prop where
  worker : ∀ w, n.jobReadySleepers w = true → (n.pool.workers w).phase = .waiting ∧
    (n.notifying = false → n.pool.jobToken = (n.pool.workers w).seenJobToken)
  caller : n.jobDoneSleeper = true → n.notifying = false ∧
    n.pool.completedWorkers ≠ n.pool.workersSize ∧ ∃ job, n.pool.caller = .waiting job
  notifying : n.notifying = true → ∃ job, n.pool.caller = .waiting job

variable {config : HostThreadingConfig} {D : LaneDispatchers ι δ} {n : NotifiedPool ι δ} {w : ℕ}

theorem wakeful_create (dispatchers : LaneStates ι δ) : (create dispatchers).Wakeful :=
  ⟨by simp [create], by simp [create], by simp [create]⟩

theorem Wakeful.awake (h : n.Wakeful) (hcaller : ∀ job, n.pool.caller ≠ .waiting job) :
    n.notifying = false ∧ n.jobDoneSleeper = false := by
  constructor
  · by_contra hnotifying
    obtain ⟨job, hjob⟩ := h.notifying (by simpa using hnotifying)
    exact hcaller job hjob
  · by_contra hsleeps
    obtain ⟨-, -, job, hjob⟩ := h.caller (by simpa using hsleeps)
    exact hcaller job hjob

def stage (n : NotifiedPool ι δ) : ℕ :=
  if n.notifying then 1
  else match n.pool.caller with
    | .starting _ _ _ => 2
    | _ => 0

theorem stage_le (n : NotifiedPool ι δ) : n.stage ≤ 2 := by
  unfold stage
  split_ifs
  · omega
  · split <;> omega

theorem notifying_of_stage (h : n.stage = 0) : n.notifying = false := by
  unfold stage at h
  by_contra hnotifying
  simp [Bool.eq_true_of_not_eq_false hnotifying] at h

theorem stage_congr {n' : NotifiedPool ι δ} (hnotifying : n'.notifying = n.notifying)
    (hcaller : n'.pool.caller = n.pool.caller) : n'.stage = n.stage := by
  rw [stage, stage, hnotifying, hcaller]

/-- What a step of the caller does, with the state it is made in. -/
inductive CallerStep (config : HostThreadingConfig) (n : NotifiedPool ι δ) :
    NotifiedPool ι δ → Prop
  | notifies (hnotifying : n.notifying = true) :
    CallerStep config n { n with jobReadySleepers := fun _ => false, notifying := false }
  | sleeps (hquiet : n.notifying = false) (hsleeps : n.jobDoneSleeper = true) :
    CallerStep config n n
  | fallsAsleep {job : JobKind} (hquiet : n.notifying = false)
      (hcaller : n.pool.caller = .waiting job)
      (hcount : n.pool.completedWorkers ≠ n.pool.workersSize) :
    CallerStep config n { n with jobDoneSleeper := true }
  | posts {job : JobKind} {lanes : List ι} {tickBudget : ℕ} (hquiet : n.notifying = false)
      (hawake : n.jobDoneSleeper = false)
      (hcaller : n.pool.caller = .starting job lanes tickBudget) :
    CallerStep config n { n with pool := (n.pool.callerStep config).2, notifying := true }
  | goesOn (hquiet : n.notifying = false) (hawake : n.jobDoneSleeper = false)
      (hposted : ∀ job lanes tickBudget, n.pool.caller ≠ .starting job lanes tickBudget)
      (hcount : ∀ job, n.pool.caller = .waiting job →
        n.pool.completedWorkers = n.pool.workersSize) :
    CallerStep config n { n with pool := (n.pool.callerStep config).2 }

theorem callerStep_cases (config : HostThreadingConfig) (n : NotifiedPool ι δ) :
    CallerStep config n (n.callerStep config).2 := by
  unfold callerStep
  by_cases hnotifying : n.notifying = true
  · rw [if_pos hnotifying]
    exact .notifies hnotifying
  rw [if_neg hnotifying]
  have hquiet : n.notifying = false := by simpa using hnotifying
  by_cases hsleeps : n.jobDoneSleeper = true
  · rw [if_pos hsleeps]
    exact .sleeps hquiet hsleeps
  rw [if_neg hsleeps]
  have hawake : n.jobDoneSleeper = false := by simpa using hsleeps
  cases hcaller : n.pool.caller with
  | ready => exact .goesOn hquiet hawake (by simp [hcaller]) (by simp [hcaller])
  | aggregating => exact .goesOn hquiet hawake (by simp [hcaller]) (by simp [hcaller])
  | starting job lanes tickBudget => exact .posts hquiet hawake hcaller
  | waiting job =>
    dsimp only
    split_ifs with hcount
    · exact .goesOn hquiet hawake (by simp [hcaller]) fun _ _ => hcount
    · exact .fallsAsleep hquiet hcaller hcount

/-- The caller leaves the threads of the workers to them, and touches the token only when it posts
a job. -/
theorem callerStep_fields (p : DispatcherPool ι δ) :
    (p.callerStep config).2.workers = p.workers ∧
      ((∀ job lanes tickBudget, p.caller ≠ .starting job lanes tickBudget) →
        (p.callerStep config).2.jobToken = p.jobToken) := by
  cases hcaller : p.caller with
  | ready => simp [DispatcherPool.callerStep, hcaller]
  | aggregating => simp [DispatcherPool.callerStep, hcaller]
  | starting job lanes tickBudget => simp [DispatcherPool.callerStep, hcaller, resetJobState]
  | waiting job =>
    simp only [DispatcherPool.callerStep, hcaller]
    split_ifs <;> exact ⟨rfl, fun _ => rfl⟩

theorem Wakeful.callerStep (h : n.Wakeful) : (n.callerStep config).2.Wakeful := by
  generalize hn : (n.callerStep config).2 = n'
  cases hn ▸ n.callerStep_cases config with
  | notifies hnotifying =>
    refine ⟨by simp, fun hsleeps => ?_, by simp⟩
    obtain ⟨hquiet, -⟩ := h.caller hsleeps
    rw [hnotifying] at hquiet
    cases hquiet
  | sleeps => exact h
  | fallsAsleep hquiet hcaller hcount =>
    exact ⟨h.worker, fun _ => ⟨hquiet, hcount, _, hcaller⟩, h.notifying⟩
  | @posts job lanes tickBudget hquiet hawake hcaller =>
    refine ⟨fun v hv => ⟨?_, by simp⟩, by simp [hawake], fun _ => ⟨job, ?_⟩⟩
    · rw [(callerStep_fields n.pool).1]
      exact (h.worker v hv).1
    · simp only [DispatcherPool.callerStep, hcaller]
  | goesOn hquiet hawake hposted =>
    refine ⟨fun v hv => ?_, by simp [hawake], by simp [hquiet]⟩
    obtain ⟨hworkers, htoken⟩ := @callerStep_fields ι δ config n.pool
    dsimp only
    rw [hworkers, htoken hposted]
    exact h.worker v hv

variable [DecidableEq ι]

theorem workerStep_fields (p : DispatcherPool ι δ) (w : ℕ) :
    (p.workerStep config D w).jobToken = p.jobToken ∧
      (p.workerStep config D w).workersSize = p.workersSize ∧
      (∀ v, v ≠ w → (p.workerStep config D w).workers v = p.workers v) ∧
      ((p.workers w).phase ≠ .completing →
        (p.workerStep config D w).completedWorkers = p.completedWorkers) := by
  cases hphase : (p.workers w).phase with
  | waiting =>
    simp only [DispatcherPool.workerStep, hphase]
    split_ifs
    · exact ⟨rfl, rfl, fun v hv => Function.update_of_ne hv _ _, fun _ => rfl⟩
    · exact ⟨rfl, rfl, fun _ _ => rfl, fun _ => rfl⟩
  | calling i =>
    simp only [DispatcherPool.workerStep, hphase]
    cases (p.workers w).lanes[i]? with
    | none => exact ⟨rfl, rfl, fun _ _ => rfl, fun _ => rfl⟩
    | some lane =>
      dsimp only [callLane]
      split <;> exact ⟨rfl, rfl, fun v hv => Function.update_of_ne hv _ _, fun _ => rfl⟩
  | completing =>
    simp only [DispatcherPool.workerStep, hphase]
    exact ⟨rfl, rfl, fun v hv => Function.update_of_ne hv _ _, fun hne => absurd rfl hne⟩
  | _ =>
    simp only [DispatcherPool.workerStep, hphase]
    exact ⟨rfl, rfl, fun v hv => Function.update_of_ne hv _ _, fun _ => rfl⟩

theorem Wakeful.workerStep (h : n.Wakeful) (w : ℕ) : (n.workerStep config D w).Wakeful := by
  unfold NotifiedPool.workerStep
  split_ifs with hsleeps hfinished
  · exact h
  · refine ⟨fun v hv => ?_, h.caller, h.notifying⟩
    by_cases hvw : v = w
    · subst hvw
      exact ⟨hfinished.1, fun _ => hfinished.2.symm⟩
    · exact h.worker v (by simpa [Function.update_of_ne hvw] using hv)
  · obtain ⟨htoken, hsize, hworkers, hcompleted⟩ :=
      @workerStep_fields ι δ config D _ n.pool w
    refine ⟨fun v hv => ?_, fun hsleeper => ?_, fun hnotifying => ?_⟩
    · have hvw : v ≠ w := by
        rintro rfl
        exact hsleeps hv
      dsimp only
      rw [hworkers v hvw, htoken]
      exact h.worker v hv
    · obtain ⟨hsleeper, hmissing⟩ := Bool.and_eq_true_iff.mp hsleeper
      obtain ⟨hquiet, hcount, hwaits⟩ := h.caller hsleeper
      dsimp only
      rw [caller_workerStep]
      refine ⟨hquiet, ?_, hwaits⟩
      by_cases hphase : (n.pool.workers w).phase = .completing
      · simpa [hphase] using hmissing
      · rw [hcompleted hphase, hsize]
        exact hcount
    · dsimp only
      rw [caller_workerStep]
      exact h.notifying hnotifying

theorem Wakeful.call (h : n.Wakeful) {call : Move ι} (hcall : call.isCall = true) :
    ({ n with pool := (n.pool.step config D call).2 } : NotifiedPool ι δ).Wakeful := by
  by_cases hready : n.pool.caller = .ready
  · obtain ⟨hquiet, hawake⟩ := h.awake (by simp [hready])
    refine ⟨fun v hv => ?_, by simp [hawake], by simp [hquiet]⟩
    have hkept : (n.pool.step config D call).2.workers = n.pool.workers ∧
        (n.pool.step config D call).2.jobToken = n.pool.jobToken := by
      cases call with
      | caller | worker => cases hcall
      | dispatch lanes tickBudget =>
        simp only [DispatcherPool.step, hready, startCall, ensureWorkersStarted]
        split_ifs <;> exact ⟨rfl, rfl⟩
      | tick lanes =>
        simp only [DispatcherPool.step, hready, startCall, ensureWorkersStarted]
        split_ifs <;> exact ⟨rfl, rfl⟩
    dsimp only
    rw [hkept.1, hkept.2]
    exact h.worker v hv
  · have hsame : (n.pool.step config D call).2 = n.pool := by
      cases call with
      | caller | worker => cases hcall
      | dispatch lanes tickBudget =>
        cases hcaller : n.pool.caller with
        | ready => exact absurd hcaller hready
        | _ => simp only [DispatcherPool.step, hcaller]
      | tick lanes =>
        cases hcaller : n.pool.caller with
        | ready => exact absurd hcaller hready
        | _ => simp only [DispatcherPool.step, hcaller]
    rw [hsame]
    exact h

theorem Wakeful.next (h : n.Wakeful) (move : NotifiedMove ι) :
    ((machine config D).next n move).Wakeful := by
  cases move with
  | thread move =>
    cases move with
    | dispatch lanes tickBudget => exact h.call rfl
    | tick lanes => exact h.call rfl
    | caller => exact h.callerStep
    | worker w =>
      change (if w < n.pool.workersSize then _ else n : NotifiedPool ι δ).Wakeful
      split_ifs
      · exact h.workerStep w
      · exact h
  | wakeWorker w =>
    refine ⟨fun v hv => ?_, h.caller, h.notifying⟩
    have hvw : v ≠ w := by
      rintro rfl
      simp [machine, Machine.next, step] at hv
    exact h.worker v (by simpa [machine, Machine.next, step, Function.update_of_ne hvw] using hv)
  | wakeCaller => exact ⟨h.worker, by simp [machine, Machine.next, step], h.notifying⟩

theorem run_wakeful (config : HostThreadingConfig) (D : LaneDispatchers ι δ) (h : n.Wakeful)
    (moves : List (NotifiedMove ι)) :
    ((machine config D).run n moves).Wakeful :=
  (machine config D).run_invariant (fun _ move h => h.next move) h moves

/-- The moves of polling threads that do to the pool what the move does. The caller that notifies
and a worker that sleeps through the posted job do nothing there. -/
def polled (n : NotifiedPool ι δ) : NotifiedMove ι → List (Move ι)
  | .thread .caller => if n.notifying then [] else [.caller]
  | .thread (.worker w) => if n.notifying ∧ n.jobReadySleepers w then [] else [.worker w]
  | .thread call => [call]
  | .wakeWorker _ => []
  | .wakeCaller => []

omit [DecidableEq ι] in
theorem polled_isCall (n : NotifiedPool ι δ) {move : NotifiedMove ι} (hmove : move.isCall = false) :
    ∀ m ∈ n.polled move, m.isCall = false := by
  cases move with
  | thread move =>
    cases move with
    | dispatch | tick => cases hmove
    | caller =>
      unfold polled
      split_ifs <;> simp [Move.isCall]
    | worker w =>
      unfold polled
      split_ifs <;> simp [Move.isCall]
  | wakeWorker w => simp [polled]
  | wakeCaller => simp [polled]

def polledMoves (config : HostThreadingConfig) (D : LaneDispatchers ι δ) (n : NotifiedPool ι δ) :
    List (NotifiedMove ι) → List (Move ι)
  | [] => []
  | move :: moves => n.polled move ++ polledMoves config D ((machine config D).next n move) moves

theorem polled_worker (h : n.Wakeful) (w : ℕ) :
    ((machine config D).next n (.thread (.worker w))).pool =
      (DispatcherPool.machine config D).run n.pool (n.polled (.thread (.worker w))) := by
  by_cases hw : w < n.pool.workersSize
  · have hpolling : (DispatcherPool.machine config D).run n.pool [.worker w] =
        n.pool.workerStep (normalizePoolConfig config) D w := by
      simp [DispatcherPool.machine, Machine.next, DispatcherPool.step, hw]
    simp only [machine, Machine.next, step, if_pos hw, polled, workerStep]
    by_cases hsleeps : n.jobReadySleepers w = true
    · rw [if_pos hsleeps]
      by_cases hnotifying : n.notifying = true
      · simp [hnotifying, hsleeps]
      · obtain ⟨hphase, hseen⟩ := h.worker w hsleeps
        have hfinished : n.pool.Finished w := ⟨hphase, (hseen (by simpa using hnotifying)).symm⟩
        rw [if_neg (by simp [hnotifying]), hpolling, workerStep_finished hfinished]
    · rw [if_neg hsleeps, @if_neg (_ ∧ _) _ fun hboth => hsleeps hboth.2, hpolling]
      split_ifs with hfinished
      · exact (workerStep_finished hfinished).symm
      · rfl
  · have hpolling : (DispatcherPool.machine config D).run n.pool [.worker w] = n.pool := by
      simp [DispatcherPool.machine, Machine.next, DispatcherPool.step, hw]
    simp only [machine, Machine.next, step, if_neg hw, polled]
    split_ifs
    · rfl
    · exact hpolling.symm

theorem polled_caller (h : n.Wakeful) :
    ((machine config D).next n (.thread .caller)).pool =
      (DispatcherPool.machine config D).run n.pool (n.polled (.thread .caller)) := by
  change (n.callerStep (normalizePoolConfig config)).2.pool = _
  have hpolling : (DispatcherPool.machine config D).run n.pool [.caller] =
      (n.pool.callerStep (normalizePoolConfig config)).2 := rfl
  generalize hn : (n.callerStep (normalizePoolConfig config)).2 = n'
  cases hn ▸ n.callerStep_cases (normalizePoolConfig config) with
  | notifies hnotifying => simp [polled, hnotifying]
  | sleeps hquiet hsleeps =>
    obtain ⟨-, hcount, job, hcaller⟩ := h.caller hsleeps
    simp only [polled, hquiet, Bool.false_eq_true, ↓reduceIte, hpolling]
    simp only [DispatcherPool.callerStep, hcaller, if_neg hcount]
  | fallsAsleep hquiet hcaller hcount =>
    simp only [polled, hquiet, Bool.false_eq_true, ↓reduceIte, hpolling]
    simp only [DispatcherPool.callerStep, hcaller, if_neg hcount]
  | posts hquiet => simp [polled, hquiet, hpolling]
  | goesOn hquiet => simp [polled, hquiet, hpolling]

theorem run_pool (config : HostThreadingConfig) (D : LaneDispatchers ι δ) (h : n.Wakeful)
    (moves : List (NotifiedMove ι)) :
    ((machine config D).run n moves).pool =
      (DispatcherPool.machine config D).run n.pool (n.polledMoves config D moves) := by
  induction moves generalizing n with
  | nil => rfl
  | cons move moves ih =>
    have hstep : ((machine config D).next n move).pool =
        (DispatcherPool.machine config D).run n.pool (n.polled move) := by
      cases move with
      | thread move =>
        cases move with
        | dispatch lanes tickBudget => rfl
        | tick lanes => rfl
        | caller => exact polled_caller h
        | worker w => exact polled_worker h w
      | wakeWorker w => rfl
      | wakeCaller => rfl
    rw [Machine.run_cons, ih (h.next move), polledMoves, Machine.run_append, hstep]

theorem Wakeful.stage_caller (h : n.Wakeful) :
    ((machine config D).next n (.thread .caller)).stage ≤ n.stage - 1 := by
  change (n.callerStep (normalizePoolConfig config)).2.stage ≤ n.stage - 1
  generalize hn : (n.callerStep (normalizePoolConfig config)).2 = n'
  cases hn ▸ n.callerStep_cases (normalizePoolConfig config) with
  | notifies hnotifying =>
    obtain ⟨job, hjob⟩ := h.notifying hnotifying
    simp [stage, hnotifying, hjob]
  | sleeps hquiet hsleeps =>
    obtain ⟨-, -, job, hjob⟩ := h.caller hsleeps
    simp [stage, hquiet, hjob]
  | fallsAsleep hquiet hcaller => simp [stage, hquiet, hcaller]
  | posts hquiet hawake hcaller => simp [stage, hquiet, hcaller]
  | goesOn hquiet hawake hposted hcount =>
    cases hcaller : n.pool.caller with
    | starting job lanes tickBudget => exact absurd hcaller (hposted job lanes tickBudget)
    | waiting job =>
      by_cases hdispatch : job = .dispatch
      · simp [stage, hquiet, DispatcherPool.callerStep, hcaller, hcount job hcaller, hdispatch]
      · simp [stage, hquiet, DispatcherPool.callerStep, hcaller, hcount job hcaller, hdispatch]
    | _ => simp [stage, hquiet, DispatcherPool.callerStep, hcaller]

theorem Wakeful.stage_next (h : n.Wakeful) {move : NotifiedMove ι} (hmove : move.isCall = false) :
    ((machine config D).next n move).stage ≤ n.stage := by
  cases move with
  | thread move =>
    cases move with
    | dispatch | tick => cases hmove
    | caller => exact h.stage_caller.trans (Nat.sub_le _ _)
    | worker w =>
      change (if w < n.pool.workersSize then _ else n : NotifiedPool ι δ).stage ≤ _
      split_ifs
      · unfold NotifiedPool.workerStep
        split_ifs
        · exact le_rfl
        · exact le_rfl
        · have hcaller := @caller_workerStep ι δ (normalizePoolConfig config) D _ n.pool w
          refine le_of_eq (stage_congr ?_ ?_)
          · rfl
          · exact hcaller
      · exact le_rfl
  | wakeWorker w => exact le_rfl
  | wakeCaller => exact le_rfl

theorem Wakeful.stage_run (h : n.Wakeful) {moves : List (NotifiedMove ι)}
    (hmoves : ∀ move ∈ moves, move.isCall = false) :
    ((machine config D).run n moves).stage ≤ n.stage := by
  induction moves generalizing n with
  | nil => exact le_rfl
  | cons move moves ih =>
    exact (ih (h.next move) fun m hm => hmoves m (List.mem_cons_of_mem move hm)).trans
      (h.stage_next (hmoves move List.mem_cons_self))

theorem Wakeful.stage_round (config : HostThreadingConfig) (D : LaneDispatchers ι δ) (h : n.Wakeful)
    {round : List (NotifiedMove ι)}
    (hround : ∀ move ∈ round, move.isCall = false) (hcaller : .thread .caller ∈ round) :
    ((machine config D).run n round).stage ≤ n.stage - 1 := by
  obtain ⟨before, after, rfl⟩ := List.append_of_mem hcaller
  rw [Machine.run_append, Machine.run_cons]
  have hbefore : ((machine config D).run n before).stage ≤ n.stage :=
    h.stage_run fun m hm => hround m (List.mem_append_left _ hm)
  have hwakeful := run_wakeful config D h before
  calc ((machine config D).run ((machine config D).next ((machine config D).run n before)
          (.thread .caller)) after).stage
      ≤ ((machine config D).next ((machine config D).run n before) (.thread .caller)).stage :=
        (hwakeful.next _).stage_run fun m hm =>
          hround m (List.mem_append_right _ (List.mem_cons_of_mem _ hm))
    _ ≤ ((machine config D).run n before).stage - 1 := hwakeful.stage_caller
    _ ≤ n.stage - 1 := Nat.sub_le_sub_right hbefore 1

theorem polledMoves_isCall {moves : List (NotifiedMove ι)}
    (hmoves : ∀ move ∈ moves, move.isCall = false) :
    ∀ m ∈ n.polledMoves config D moves, m.isCall = false := by
  induction moves generalizing n with
  | nil => simp [polledMoves]
  | cons move moves ih =>
    intro m hm
    rcases List.mem_append.mp hm with hm | hm
    · exact n.polled_isCall (hmoves move List.mem_cons_self) m hm
    · exact ih (fun m hm => hmoves m (List.mem_cons_of_mem move hm)) m hm

theorem polledMoves_append (n : NotifiedPool ι δ) (moves moves' : List (NotifiedMove ι)) :
    n.polledMoves config D (moves ++ moves') = n.polledMoves config D moves ++
      ((machine config D).run n moves).polledMoves config D moves' := by
  induction moves generalizing n with
  | nil => rfl
  | cons move moves ih =>
    rw [List.cons_append, polledMoves, ih, polledMoves, List.append_assoc, Machine.run_cons]

theorem Wakeful.mem_polledMoves (h : n.Wakeful) (hstage : n.stage = 0)
    {moves : List (NotifiedMove ι)} (hmoves : ∀ move ∈ moves, move.isCall = false) {m : Move ι}
    (hm : .thread m ∈ moves) : m ∈ n.polledMoves config D moves := by
  induction moves generalizing n with
  | nil => cases hm
  | cons move moves ih =>
    rw [polledMoves, List.mem_append]
    rcases List.mem_cons.mp hm with rfl | hm
    · left
      have hquiet := notifying_of_stage hstage
      cases m <;> simp [polled, hquiet]
    · right
      have hmove := hmoves move List.mem_cons_self
      exact ih (h.next move) (Nat.le_zero.mp (hstage ▸ h.stage_next hmove))
        (fun m hm => hmoves m (List.mem_cons_of_mem move hm)) hm

theorem Wakeful.polled_rounds (config : HostThreadingConfig) (D : LaneDispatchers ι δ)
    (h : n.Wakeful) (hstage : n.stage = 0) {threads : Move ι → Prop}
    {rounds : List (List (NotifiedMove ι))}
    (hrounds : ∀ round ∈ rounds, (∀ move ∈ round, move.isCall = false) ∧
      ∀ m, threads m → .thread m ∈ round) :
    ∃ polling : List (List (Move ι)), n.polledMoves config D rounds.flatten = polling.flatten ∧
      polling.length = rounds.length ∧
      ∀ round ∈ polling, (∀ m ∈ round, m.isCall = false) ∧ ∀ m, threads m → m ∈ round := by
  induction rounds generalizing n with
  | nil => exact ⟨[], rfl, rfl, by simp⟩
  | cons round rounds ih =>
    obtain ⟨hmoves, hall⟩ := hrounds round List.mem_cons_self
    have hnext : ((machine config D).run n round).stage = 0 :=
      Nat.le_zero.mp (hstage ▸ h.stage_run hmoves)
    obtain ⟨polling, hpolling, hlength, hpolled⟩ := ih (run_wakeful config D h round) hnext
      fun r hr => hrounds r (List.mem_cons_of_mem round hr)
    refine ⟨n.polledMoves config D round :: polling, ?_, by simp [hlength], fun r hr => ?_⟩
    · rw [List.flatten_cons, polledMoves_append, hpolling, List.flatten_cons]
    · rcases List.mem_cons.mp hr with rfl | hr
      · exact ⟨polledMoves_isCall hmoves,
          fun m hm => h.mem_polledMoves hstage hmoves (hall m hm)⟩
      · exact hpolled r hr

theorem During.returns {job : Job ι} {start : LaneStates ι δ} (h : n.Wakeful)
    (hduring : DispatcherPool.During (normalizePoolConfig config) D job start n.pool)
    {rounds : List (List (NotifiedMove ι))}
    (hrounds : ∀ round ∈ rounds, (∀ move ∈ round, move.isCall = false) ∧
      ∀ m, IsThread (normalizePoolConfig config) m → .thread m ∈ round)
    (hlength : 5 + (normalizePoolConfig config).hostThreadCount * (3 * job.lanes.length + 3) <
      rounds.length) :
    ((machine config D).run n rounds.flatten).pool.caller = .ready := by
  obtain ⟨first, second, rest, rfl⟩ : ∃ first second rest, rounds = first :: second :: rest := by
    match rounds with
    | first :: second :: rest => exact ⟨first, second, rest, rfl⟩
    | [_] | [] => simp at hlength
  obtain ⟨hfirst, hcaller⟩ := hrounds first (by simp)
  obtain ⟨hsecond, hcaller'⟩ := hrounds second (by simp)
  have hmoves : ∀ move ∈ first ++ second, move.isCall = false := fun move hmove =>
    (List.mem_append.mp hmove).elim (hfirst move) (hsecond move)
  have hstage : ((machine config D).run n (first ++ second)).stage = 0 := by
    have hone := h.stage_round config D hfirst (hcaller .caller trivial)
    have htwo := (run_wakeful config D h first).stage_round config D hsecond
      (hcaller' .caller trivial)
    have hbound := n.stage_le
    rw [Machine.run_append]
    omega
  have hwakeful := run_wakeful config D h (first ++ second)
  obtain ⟨polling, hpolling, hcount, hpolled⟩ := hwakeful.polled_rounds config D hstage
    fun round (hround : round ∈ rest) => hrounds round (by simp [hround])
  rw [List.flatten_cons, List.flatten_cons, ← List.append_assoc, Machine.run_append,
    run_pool config D hwakeful, hpolling]
  have hreached : DispatcherPool.During (normalizePoolConfig config) D job start
      ((machine config D).run n (first ++ second)).pool := by
    rw [run_pool config D h]
    exact run_during hduring (polledMoves_isCall hmoves)
  refine (progresses config D job start).run_rounds hreached hpolled ?_
  have hle := remaining_le hreached
  rw [hcount]
  simp only [List.length_cons] at hlength
  omega

/-- No wake-up is lost, and each call of the pool returns, after any calls before it and from any
point that an interleaving has brought it to, as soon as the schedule has gone through all threads a
number of times. The turns of a thread that sleeps are empty. -/
theorem call_returns (config : HostThreadingConfig) (D : LaneDispatchers ι δ)
    (dispatchers : LaneStates ι δ) (before : List (NotifiedMove ι)) (call : Move ι)
    (during : List (NotifiedMove ι)) (rounds : List (List (NotifiedMove ι))) :
    let M := machine config D
    let n := M.run (create dispatchers) before
    let threads := (normalizePoolConfig config).hostThreadCount
    n.Wakeful ∧ (n.pool.caller = .ready → call.isCall = true →
      (∀ move ∈ during, move.isCall = false) →
      (∀ round ∈ rounds, (∀ move ∈ round, move.isCall = false) ∧ .thread .caller ∈ round ∧
        ∀ w < threads, .thread (.worker w) ∈ round) →
      5 + threads * (3 * call.lanes.length + 3) < rounds.length →
      (M.run (M.next n (.thread call)) (during ++ rounds.flatten)).pool.caller = .ready) := by
  intro M n threads
  have hwakeful : n.Wakeful := run_wakeful config D (wakeful_create dispatchers) before
  refine ⟨hwakeful, fun hready hcall hduring hrounds hlength => ?_⟩
  have hquiet : Quiet (normalizePoolConfig config) n.pool := by
    have hpool := run_pool config D (wakeful_create dispatchers) before
    have hserves := run_serves config (D := D) dispatchers
      ((create dispatchers).polledMoves config D before)
    exact (hpool ▸ hserves).quiet hready
  have hnext : (M.next n (.thread call)).pool =
      (DispatcherPool.machine config D).next n.pool call := by
    cases call with
    | caller | worker => cases hcall
    | dispatch lanes tickBudget => rfl
    | tick lanes => rfl
  by_cases hlanes : call.lanes = []
  · -- a call without lanes has returned at once
    have hreturned : (M.next n (.thread call)).pool.caller = .ready := by
      rw [hnext, next_of_no_lanes hready hcall hlanes]
      exact hready
    have hmoves : ∀ move ∈ during ++ rounds.flatten, move.isCall = false := by
      intro move hmove
      rcases List.mem_append.mp hmove with hmove | hmove
      · exact hduring move hmove
      · obtain ⟨round, hround, hmem⟩ := List.mem_flatten.mp hmove
        exact (hrounds round hround).1 move hmem
    rw [run_pool config D (hwakeful.next _)]
    refine (DispatcherPool.machine config D).run_invariant_of_guarded
      (G := fun _ move => move.isCall = false) (P := fun p => p.caller = .ready)
      (fun _ _ hmove hp => caller_next_ready hp hmove) hreturned
      ((DispatcherPool.machine config D).guarded_of_forall _ (polledMoves_isCall hmoves))
  · obtain ⟨job, hjob, hstart⟩ := next_during (D := D) hquiet hready hcall hlanes
    rw [← hnext] at hstart
    have hreached : DispatcherPool.During (normalizePoolConfig config) D job n.pool.dispatchers
        (M.run (M.next n (.thread call)) during).pool := by
      rw [run_pool config D (hwakeful.next _)]
      exact run_during hstart (polledMoves_isCall hduring)
    rw [Machine.run_append]
    refine During.returns (run_wakeful config D (hwakeful.next _) during) hreached
      (fun round hround => ?_) (hjob ▸ hlength)
    obtain ⟨hmoves, hcaller, hworkers⟩ := hrounds round hround
    refine ⟨hmoves, fun m hm => ?_⟩
    cases m with
    | dispatch | tick => exact hm.elim
    | caller => exact hcaller
    | worker w => exact hworkers w hm

theorem call_returns_two :
    let M := machine { hostThreadCount := 2 } addingDispatchers
    let n := M.run (create ⟨fun _ => 0, []⟩) []
    let round : List (NotifiedMove ℕ) := [.thread (.worker 1), .thread .caller, .thread (.worker 0)]
    (M.run (M.next n (.thread (.dispatch [0, 1] 5)))
      (round ++ [.wakeWorker 1] ++ (List.replicate 24 round).flatten)).pool.caller = .ready := by
  intro M n round
  have hround : ∀ move ∈ round, move.isCall = false := by
    simp [round, NotifiedMove.isCall, Move.isCall]
  have hduring : ∀ move ∈ round ++ [NotifiedMove.wakeWorker 1], move.isCall = false := by
    intro move hmove
    rcases List.mem_append.mp hmove with hmove | hmove
    · exact hround move hmove
    · rw [List.mem_singleton.mp hmove]
      rfl
  have hrounds : ∀ r ∈ List.replicate 24 round, (∀ move ∈ r, move.isCall = false) ∧
      .thread .caller ∈ r ∧ ∀ w < 2, .thread (.worker w) ∈ r := by
    intro r hr
    rw [List.eq_of_mem_replicate hr]
    refine ⟨hround, by simp [round], fun w hw => ?_⟩
    have hcases : w = 0 ∨ w = 1 := by omega
    rcases hcases with rfl | rfl <;> simp [round]
  have hlength : 5 + 2 * (3 * [0, 1].length + 3) < (List.replicate 24 round).length := by decide
  have hreturned := (call_returns { hostThreadCount := 2 } addingDispatchers ⟨fun _ => 0, []⟩ []
    (.dispatch [0, 1] 5) (round ++ [.wakeWorker 1]) (List.replicate 24 round)).2 rfl rfl hduring
    hrounds hlength
  dsimp only [M, n]
  exact hreturned

end NotifiedPool
end Contur
