import Mathlib.Order.Nat
import Contur.Mutex
import Contur.WaitingLine

/-!
# The protocol of a mutex

What a call does to the owner, the depth and the queue is said once, without the
priorities. From it follow, for every run of calls, how these three belong together, that
the depth counts the grants of the owner since it became the owner, and that the queue is
a waiting line: the mutex is handed over in the order of the refusals.
-/

namespace Contur
namespace Mutex
open Transition
open WaitingLine (InLine WaitsSince)

structure Lock where
  owner : Option ProcessId
  recursionDepth : ℕ
  waitQueue : List ProcessId

def lock (s : Mutex) : Lock := ⟨s.owner, s.recursionDepth, s.waitQueue⟩

@[simp] theorem lock_recomputePriorities (s : Mutex) : s.recomputePriorities.lock = s.lock := by
  unfold recomputePriorities
  split
  · rfl
  · split_ifs
    · rfl
    · dsimp only
      split <;> rfl

def Rejects (code : ErrorCode) : Prop :=
  code = .permissionDenied ∨ code = .invalidState ∨ code = .invalidPid

inductive Effect (s s' : Mutex) : Op → Result Unit → Prop
  | rejected (op : Op) (code : ErrorCode) (hcode : Rejects code) (hlock : s' = s) :
      Effect s s' op (.error code)
  | registered (pid : ProcessId) (level : PriorityLevel) (hlock : s'.lock = s.lock) :
      Effect s s' (.registerProcessPriority pid level) (.ok ())
  | missed (pid owner : ProcessId) (howner : s.owner = some owner) (hother : owner ≠ pid)
      (hlock : s'.lock = s.lock) : Effect s s' (.tryAcquire pid) (.error .resourceBusy)
  | queued (pid owner : ProcessId) (howner : s.owner = some owner) (hother : owner ≠ pid)
      (hlock : s'.lock = ⟨some owner, s.recursionDepth,
        if pid ∈ s.waitQueue then s.waitQueue else s.waitQueue ++ [pid]⟩) :
      Effect s s' (.acquire pid) (.error .resourceBusy)
  | taken (op : Op) (pid : ProcessId) (hop : op = .acquire pid ∨ op = .tryAcquire pid)
      (howner : s.owner = none) (hlock : s'.lock = ⟨some pid, 1, s.waitQueue⟩) :
      Effect s s' op (.ok ())
  | repeated (op : Op) (pid : ProcessId) (hop : op = .acquire pid ∨ op = .tryAcquire pid)
      (howner : s.owner = some pid)
      (hlock : s'.lock = ⟨some pid, s.recursionDepth + 1, s.waitQueue⟩) : Effect s s' op (.ok ())
  | dropped (pid : ProcessId) (howner : s.owner = some pid) (hdepth : 1 < s.recursionDepth)
      (hlock : s'.lock = ⟨some pid, s.recursionDepth - 1, s.waitQueue⟩) :
      Effect s s' (.release pid) (.ok ())
  | freed (pid : ProcessId) (howner : s.owner = some pid) (hdepth : s.recursionDepth ≤ 1)
      (hqueue : s.waitQueue = []) (hlock : s'.lock = ⟨none, 0, []⟩) :
      Effect s s' (.release pid) (.ok ())
  | handedOver (pid next : ProcessId) (waitQueue : List ProcessId) (howner : s.owner = some pid)
      (hdepth : s.recursionDepth ≤ 1) (hqueue : s.waitQueue = next :: waitQueue)
      (hlock : s'.lock = ⟨some next, 1, waitQueue⟩) : Effect s s' (.release pid) (.ok ())

theorem acquire_effect (s : Mutex) (pid : ProcessId) :
    Effect s (s.acquire pid).2 (.acquire pid) (s.acquire pid).1 := by
  unfold acquire
  by_cases hpid : pid = invalidPid
  · rw [if_pos hpid]
    exact .rejected _ _ (Or.inr (Or.inr rfl)) rfl
  rw [if_neg hpid]
  dsimp only [ensurePriorityRegistered]
  cases howner : s.owner with
  | none => exact .taken _ pid (Or.inl rfl) howner (lock_recomputePriorities _)
  | some owner =>
    dsimp only
    by_cases hother : owner = pid
    · subst hother
      rw [if_pos rfl]
      exact .repeated _ owner (Or.inl rfl) howner rfl
    · rw [if_neg hother]
      refine .queued pid owner howner hother ?_
      rw [lock_recomputePriorities]
      split_ifs <;> rfl

theorem tryAcquire_effect (s : Mutex) (pid : ProcessId) :
    Effect s (s.tryAcquire pid).2 (.tryAcquire pid) (s.tryAcquire pid).1 := by
  unfold tryAcquire
  by_cases hpid : pid = invalidPid
  · rw [if_pos hpid]
    exact .rejected _ _ (Or.inr (Or.inr rfl)) rfl
  rw [if_neg hpid]
  dsimp only [ensurePriorityRegistered]
  cases howner : s.owner with
  | none => exact .taken _ pid (Or.inr rfl) howner (lock_recomputePriorities _)
  | some owner =>
    dsimp only
    by_cases hother : owner = pid
    · subst hother
      rw [if_pos rfl]
      exact .repeated _ owner (Or.inr rfl) howner (lock_recomputePriorities _)
    · rw [if_neg hother]
      exact .missed pid owner howner hother (by simp only [lock, howner])

theorem release_effect (s : Mutex) (pid : ProcessId) :
    Effect s (s.release pid).2 (.release pid) (s.release pid).1 := by
  unfold release
  cases howner : s.owner with
  | none => exact .rejected _ _ (Or.inr (Or.inl rfl)) rfl
  | some owner =>
    dsimp only
    by_cases hother : owner = pid
    · subst hother
      rw [if_neg (by simp)]
      by_cases hdepth : s.recursionDepth > 1
      · rw [if_pos hdepth]
        exact .dropped owner howner hdepth (lock_recomputePriorities _)
      · rw [if_neg hdepth]
        cases hqueue : s.waitQueue with
        | nil =>
          exact .freed owner howner (Nat.le_of_not_lt hdepth) hqueue (lock_recomputePriorities _)
        | cons next waitQueue =>
          exact .handedOver owner next waitQueue howner (Nat.le_of_not_lt hdepth) hqueue
            (lock_recomputePriorities _)
    · rw [if_pos hother]
      exact .rejected _ _ (Or.inl rfl) rfl

theorem exec_effect (s : Mutex) (op : Op) :
    Effect s (machine.next s op) op (machine.out s op) := by
  cases op with
  | acquire pid => exact acquire_effect s pid
  | tryAcquire pid => exact tryAcquire_effect s pid
  | release pid => exact release_effect s pid
  | registerProcessPriority pid level =>
    show Effect s (s.registerProcessPriority pid level).2 _ (s.registerProcessPriority pid level).1
    unfold registerProcessPriority
    by_cases hpid : pid = invalidPid
    · rw [if_pos hpid]
      exact .rejected _ _ (Or.inr (Or.inr rfl)) rfl
    · rw [if_neg hpid]
      exact .registered pid level (lock_recomputePriorities _)

structure Lock.Sound (l : Lock) : Prop where
  owner_iff : l.owner.isSome ↔ 1 ≤ l.recursionDepth
  nodup : l.waitQueue.Nodup
  owner_notMem : ∀ pid, l.owner = some pid → pid ∉ l.waitQueue
  free : l.owner = none → l.waitQueue = []

theorem Lock.Sound.depth_pos {l : Lock} (h : l.Sound) {pid : ProcessId}
    (howner : l.owner = some pid) : 1 ≤ l.recursionDepth := by
  apply h.owner_iff.mp
  rw [howner]
  rfl

theorem Lock.sound_some {pid : ProcessId} {depth : ℕ} {waitQueue : List ProcessId}
    (hdepth : 1 ≤ depth) (hnodup : waitQueue.Nodup) (hnot : pid ∉ waitQueue) :
    Lock.Sound ⟨some pid, depth, waitQueue⟩ := by
  refine ⟨by simpa using hdepth, hnodup, fun pid' heq => ?_, fun hnone => ?_⟩
  · exact Option.some.inj heq ▸ hnot
  · exact absurd hnone (Option.some_ne_none pid)

theorem Effect.sound {s s' : Mutex} {op : Op} {r : Result Unit} (h : Effect s s' op r)
    (hs : s.lock.Sound) : s'.lock.Sound := by
  cases h with
  | rejected _ _ _ hsame => rwa [hsame]
  | registered pid level hlock => rwa [hlock]
  | missed pid owner _ _ hlock => rwa [hlock]
  | queued pid owner howner hother hlock =>
    rw [hlock]
    have hnot := hs.owner_notMem owner howner
    apply Lock.sound_some (hs.depth_pos howner) (WaitingLine.nodup_enqueue hs.nodup pid)
    split_ifs
    · exact hnot
    · simpa using ⟨hnot, hother⟩
  | taken _ pid _ howner hlock =>
    rw [hlock]
    have hempty : s.waitQueue = [] := hs.free howner
    rw [hempty]
    exact Lock.sound_some (Nat.le_refl 1) List.nodup_nil List.not_mem_nil
  | repeated _ pid _ howner hlock =>
    rw [hlock]
    exact Lock.sound_some (Nat.le_add_left 1 _) hs.nodup (hs.owner_notMem pid howner)
  | dropped pid howner hdepth hlock =>
    rw [hlock]
    exact Lock.sound_some (Nat.le_sub_one_of_lt hdepth) hs.nodup (hs.owner_notMem pid howner)
  | freed pid howner hdepth hqueue hlock =>
    rw [hlock]
    exact ⟨by simp, List.nodup_nil, by simp, fun _ => rfl⟩
  | handedOver pid next waitQueue howner hdepth hqueue hlock =>
    rw [hlock]
    have hnodup : (next :: waitQueue).Nodup := hqueue ▸ hs.nodup
    obtain ⟨hnot, hnodup⟩ := List.nodup_cons.mp hnodup
    exact Lock.sound_some (Nat.le_refl 1) hnodup hnot

theorem run_sound (ops : List Op) : (machine.run {} ops).lock.Sound := by
  apply machine.run_invariant (fun s op hs => (exec_effect s op).sound hs)
  exact ⟨by simp [lock], List.nodup_nil, by simp [lock], fun _ => rfl⟩

/-- The call gives the mutex to the process: its own `acquire` or `tryAcquire` succeeds, or
the release of another process makes it the owner. -/
def granted (pid : ProcessId) (step : Mutex × Op) : Bool :=
  match step.2 with
  | .acquire caller => caller = pid && (machine.out step.1 step.2).isOk
  | .tryAcquire caller => caller = pid && (machine.out step.1 step.2).isOk
  | .release caller => caller ≠ pid && (machine.out step.1 step.2).isOk &&
      (machine.next step.1 step.2).owner = some pid
  | .registerProcessPriority _ _ => false

def released (pid : ProcessId) (step : Mutex × Op) : Bool :=
  match step.2 with
  | .release caller => caller = pid && (machine.out step.1 step.2).isOk
  | _ => false

def Lock.held (l : Lock) (pid : ProcessId) : ℕ := if l.owner = some pid then l.recursionDepth else 0

theorem Lock.held_some (pid caller : ProcessId) (depth : ℕ) (waitQueue : List ProcessId) :
    Lock.held ⟨some caller, depth, waitQueue⟩ pid = if caller = pid then depth else 0 := by
  simp [Lock.held]

theorem held_of_owner {s : Mutex} {owner : ProcessId} (howner : s.owner = some owner)
    (pid : ProcessId) : s.lock.held pid = if owner = pid then s.recursionDepth else 0 := by
  simp [Lock.held, lock, howner]

theorem exec_held {s : Mutex} (hs : s.lock.Sound) (op : Op) (pid : ProcessId) :
    (machine.next s op).lock.held pid + (if released pid (s, op) then 1 else 0) =
      s.lock.held pid + (if granted pid (s, op) then 1 else 0) := by
  have heffect := exec_effect s op
  unfold granted released
  dsimp only
  generalize machine.out s op = r at *
  generalize hnext : machine.next s op = s' at *
  cases heffect with
  | rejected _ code _ hsame =>
    rw [hsame]
    cases op <;> simp
  | registered caller level hlock => rw [hlock]
  | missed caller owner _ _ hlock =>
    rw [hlock]
    simp
  | queued caller owner howner _ hlock =>
    rw [hlock, held_of_owner howner, Lock.held_some]
    simp
  | taken _ caller hop howner hlock =>
    rw [hlock, Lock.held_some]
    have hnone : s.lock.held pid = 0 := by simp [Lock.held, lock, howner]
    by_cases hpid : caller = pid
    · obtain rfl | rfl := hop <;> simp [hnone, hpid]
    · obtain rfl | rfl := hop <;> simp [hnone, hpid]
  | repeated _ caller hop howner hlock =>
    rw [hlock, Lock.held_some, held_of_owner howner]
    by_cases hpid : caller = pid
    · obtain rfl | rfl := hop <;> simp [hpid]
    · obtain rfl | rfl := hop <;> simp [hpid]
  | dropped caller howner hdepth hlock =>
    have hback : s.recursionDepth - 1 + 1 = s.recursionDepth := by omega
    have howner' : s'.owner = some caller := congrArg Lock.owner hlock
    rw [hlock, Lock.held_some, held_of_owner howner, howner']
    by_cases hpid : caller = pid
    · simp [hpid, hback]
    · simp [hpid]
  | freed caller howner hdepth hqueue hlock =>
    have hone : s.recursionDepth = 1 := Nat.le_antisymm hdepth (hs.depth_pos howner)
    have howner' : s'.owner = none := congrArg Lock.owner hlock
    rw [hlock, held_of_owner howner, howner', hone]
    by_cases hpid : caller = pid
    · simp [hpid, Lock.held]
    · simp [hpid, Lock.held]
  | handedOver caller next waitQueue howner hdepth hqueue hlock =>
    have hone : s.recursionDepth = 1 := Nat.le_antisymm hdepth (hs.depth_pos howner)
    have howner' : s'.owner = some next := congrArg Lock.owner hlock
    have hne : caller ≠ next := by
      rintro rfl
      have hnot : caller ∉ s.waitQueue := hs.owner_notMem caller howner
      exact hnot (hqueue ▸ List.mem_cons_self)
    rw [hlock, Lock.held_some, held_of_owner howner, howner', hone]
    by_cases hpid : caller = pid
    · subst hpid
      simp [hne.symm]
    · by_cases hnextpid : next = pid
      · simp [hpid, hnextpid]
      · simp [hpid, hnextpid]

theorem run_held {s : Mutex} (hs : s.lock.Sound) (ops : List Op) (pid : ProcessId) :
    (machine.run s ops).lock.held pid + (machine.steps s ops).countP (released pid) =
      s.lock.held pid + (machine.steps s ops).countP (granted pid) := by
  induction ops generalizing s with
  | nil => rfl
  | cons op ops ih =>
    have hstep := exec_held hs op pid
    have hrest := ih ((exec_effect s op).sound hs)
    rw [Machine.run_cons, Machine.steps, List.countP_cons, List.countP_cons]
    omega

/-- The process became the owner with the call `op` and has been the owner ever since. -/
structure Tenure (pid : ProcessId) (before : List Op) (op : Op) (after : List Op) : Prop where
  begins : (machine.run {} before).owner ≠ some pid
  lasts : ∀ mid, mid <+: after → (machine.run {} (before ++ op :: mid)).owner = some pid

theorem exists_tenure (ops : List Op) {pid : ProcessId}
    (howner : (machine.run {} ops).owner = some pid) :
    ∃ before op after, ops = before ++ op :: after ∧ Tenure pid before op after := by
  induction ops using List.reverseRecOn with
  | nil => exact absurd howner (by simp)
  | append_singleton ops op ih =>
    by_cases hbefore : (machine.run {} ops).owner = some pid
    · obtain ⟨before, first, after, rfl, htenure⟩ := ih hbefore
      refine ⟨before, first, after ++ [op], by simp, htenure.begins, fun mid hmid => ?_⟩
      rcases List.prefix_concat_iff.mp hmid with rfl | hmid
      · rw [← List.cons_append, ← List.append_assoc]
        exact howner
      · exact htenure.lasts mid hmid
    · refine ⟨ops, op, [], rfl, hbefore, fun mid hmid => ?_⟩
      rw [List.prefix_nil.mp hmid]
      exact howner

theorem Tenure.depth {pid : ProcessId} {before after : List Op} {op : Op}
    (h : Tenure pid before op after) :
    (machine.run {} (before ++ op :: after)).recursionDepth +
        (machine.steps (machine.run {} before) (op :: after)).countP (released pid) =
      (machine.steps (machine.run {} before) (op :: after)).countP (granted pid) := by
  have howner := h.lasts after (List.prefix_refl after)
  have hheld := run_held (run_sound before) (op :: after) pid
  rw [← Machine.run_append, held_of_owner howner, if_pos rfl] at hheld
  have hnone : (machine.run {} before).lock.held pid = 0 := if_neg h.begins
  rwa [hnone, Nat.zero_add] at hheld

def refused (step : Mutex × Op) (pid : ProcessId) : Prop :=
  step.2 = .acquire pid ∧ machine.out step.1 step.2 = .error .resourceBusy

def owns (step : Mutex × Op) (pid : ProcessId) : Prop :=
  (machine.next step.1 step.2).owner = some pid

theorem not_refused {s : Mutex} {op : Op} {r : Result Unit} (hout : machine.out s op = r)
    (hr : r ≠ .error .resourceBusy) (pid : ProcessId) : ¬ refused (s, op) pid :=
  fun hrefused => hr (hout.symm.trans hrefused.2)

theorem refused_not_owns (step : Mutex × Op) (pid : ProcessId) (h : refused step pid) :
    ¬ owns step pid := by
  obtain ⟨s, op⟩ := step
  obtain ⟨hop, hout⟩ := h
  have heffect := exec_effect s op
  dsimp only at hop hout
  subst hop
  rw [hout] at heffect
  cases heffect with
  | rejected _ _ hcode => simp [Rejects] at hcode
  | queued _ owner _ hother hlock =>
    intro howns
    have howner : (machine.next s (.acquire pid)).owner = some owner := congrArg Lock.owner hlock
    exact hother (Option.some.inj (howner.symm.trans howns))

theorem inLine_keep {s : Mutex} {op : Op} {events : List (Mutex × Op)} (hs : s.lock.Sound)
    (h : InLine refused owns events s.waitQueue) (howner : (machine.next s op).owner = s.owner)
    (hqueue : (machine.next s op).waitQueue = s.waitQueue)
    (hrefused : ∀ pid, refused (s, op) pid → pid ∈ s.waitQueue) :
    InLine refused owns (events ++ [(s, op)]) (machine.next s op).waitQueue := by
  rw [hqueue]
  apply h.pass _ hrefused
  intro pid hmem howns
  exact hs.owner_notMem pid (howner.symm.trans howns) hmem

theorem exec_inLine {s : Mutex} {events : List (Mutex × Op)} (hs : s.lock.Sound)
    (h : InLine refused owns events s.waitQueue) (op : Op) :
    InLine refused owns (events ++ [(s, op)]) (machine.next s op).waitQueue := by
  have heffect := exec_effect s op
  generalize hout : machine.out s op = r at heffect
  cases heffect with
  | rejected _ code hcode hsame =>
    have hnot := not_refused hout (by rintro ⟨⟩; simp [Rejects] at hcode)
    apply inLine_keep hs h (by rw [hsame]) (by rw [hsame])
    exact fun pid hrefused => absurd hrefused (hnot pid)
  | registered caller level hlock =>
    have hnot := not_refused hout (by simp)
    apply inLine_keep hs h (congrArg Lock.owner hlock) (congrArg Lock.waitQueue hlock)
    exact fun pid hrefused => absurd hrefused (hnot pid)
  | missed caller owner _ _ hlock =>
    apply inLine_keep hs h (congrArg Lock.owner hlock) (congrArg Lock.waitQueue hlock)
    exact fun pid hrefused => absurd hrefused.1 (by simp)
  | queued caller owner howner hother hlock =>
    have hrefused : ∀ pid, refused (s, .acquire caller) pid ↔ pid = caller := by
      intro pid
      simp [refused, hout, eq_comm]
    have howner' : (machine.next s (.acquire caller)).owner = s.owner :=
      (congrArg Lock.owner hlock).trans howner.symm
    rw [show (machine.next s (.acquire caller)).waitQueue =
      if caller ∈ s.waitQueue then s.waitQueue else s.waitQueue ++ [caller] from
      congrArg Lock.waitQueue hlock]
    apply h.enqueue refused_not_owns _ hrefused
    intro pid hpid howns
    exact hs.owner_notMem pid (howner'.symm.trans howns) hpid
  | taken _ caller hop howner hlock =>
    have hnot := not_refused hout (by simp)
    have hempty : s.waitQueue = [] := hs.free howner
    rw [show (machine.next s op).waitQueue = s.waitQueue from congrArg Lock.waitQueue hlock]
    apply h.pass (by simp [hempty])
    exact fun pid hrefused => absurd hrefused (hnot pid)
  | repeated _ caller hop howner hlock =>
    have hnot := not_refused hout (by simp)
    apply inLine_keep hs h _ (congrArg Lock.waitQueue hlock)
    · exact fun pid hrefused => absurd hrefused (hnot pid)
    · exact (congrArg Lock.owner hlock).trans howner.symm
  | dropped caller howner hdepth hlock =>
    have hnot := not_refused hout (by simp)
    apply inLine_keep hs h _ (congrArg Lock.waitQueue hlock)
    · exact fun pid hrefused => absurd hrefused (hnot pid)
    · exact (congrArg Lock.owner hlock).trans howner.symm
  | freed caller howner hdepth hqueue hlock =>
    have hnot := not_refused hout (by simp)
    rw [hqueue] at h
    rw [show (machine.next s (.release caller)).waitQueue = [] from congrArg Lock.waitQueue hlock]
    apply h.pass (by simp)
    exact fun pid hrefused => absurd hrefused (hnot pid)
  | handedOver caller next waitQueue howner hdepth hqueue hlock =>
    rw [hqueue] at h
    rw [show (machine.next s (.release caller)).waitQueue = waitQueue from
      congrArg Lock.waitQueue hlock]
    apply h.serve _ (not_refused hout (by simp))
    intro pid
    rw [owns, show (machine.next s (.release caller)).owner = some next from
      congrArg Lock.owner hlock, Option.some_inj, eq_comm]

theorem run_inLine (ops : List Op) :
    InLine refused owns (machine.steps {} ops) (machine.run {} ops).waitQueue := by
  induction ops using List.reverseRecOn with
  | nil => exact WaitingLine.inLine_nil
  | append_singleton ops op ih =>
    rw [Machine.steps_append, Machine.run_append]
    exact exec_inLine (run_sound ops) ih op

theorem Effect.passes {s s' : Mutex} {op : Op} {r : Result Unit} {events : List (Mutex × Op)}
    {pid other : ProcessId} {m : ℕ} (heffect : Effect s s' op r) (hs : s.lock.Sound)
    (h : InLine refused owns events s.waitQueue) (hbefore : s.owner ≠ some pid)
    (hafter : s'.owner = some pid) (hwait : WaitsSince refused owns events other m) :
    ∃ n, WaitsSince refused owns events pid n ∧
      ∀ other m, WaitsSince refused owns events other m → other ≠ pid → n < m := by
  cases heffect with
  | rejected _ _ _ hsame => exact absurd (hsame ▸ hafter) hbefore
  | registered _ _ hlock => exact absurd ((congrArg Lock.owner hlock).symm.trans hafter) hbefore
  | missed _ _ _ _ hlock => exact absurd ((congrArg Lock.owner hlock).symm.trans hafter) hbefore
  | queued _ owner howner _ hlock =>
    exact absurd (howner.trans ((congrArg Lock.owner hlock).symm.trans hafter)) hbefore
  | taken _ _ _ howner _ =>
    have hempty : s.waitQueue = [] := hs.free howner
    have hmem := (h.mem other).mpr ⟨m, hwait⟩
    rw [hempty] at hmem
    exact absurd hmem List.not_mem_nil
  | repeated _ _ _ howner hlock =>
    exact absurd (howner.trans ((congrArg Lock.owner hlock).symm.trans hafter)) hbefore
  | dropped _ howner _ hlock =>
    exact absurd (howner.trans ((congrArg Lock.owner hlock).symm.trans hafter)) hbefore
  | freed _ _ _ _ hlock =>
    have hnone : s'.owner = none := congrArg Lock.owner hlock
    exact absurd (hnone.symm.trans hafter) (Option.some_ne_none pid).symm
  | handedOver _ next waitQueue _ _ hqueue hlock =>
    have hnext : s'.owner = some next := congrArg Lock.owner hlock
    obtain rfl : next = pid := Option.some.inj (hnext.symm.trans hafter)
    rw [hqueue] at h
    exact h.front

theorem release_ok_iff (s : Mutex) (pid : ProcessId) :
    (s.release pid).1 = .ok () ↔ s.owner = some pid := by
  have heffect := release_effect s pid
  constructor
  · intro hok
    rw [hok] at heffect
    cases heffect with
    | taken _ _ hop => simp at hop
    | repeated _ _ hop => simp at hop
    | dropped _ howner => exact howner
    | freed _ howner => exact howner
    | handedOver _ _ _ howner => exact howner
  · intro howner
    unfold release
    rw [howner]
    dsimp only
    rw [if_neg (by simp)]
    split_ifs
    · rfl
    · split <;> rfl

theorem exec_rejected {s : Mutex} {op : Op} {code : ErrorCode}
    (hout : machine.out s op = .error code) (hcode : Rejects code) : machine.next s op = s := by
  have heffect := exec_effect s op
  rw [hout] at heffect
  cases heffect with
  | rejected _ _ _ hsame => exact hsame
  | missed => simp [Rejects] at hcode
  | queued => simp [Rejects] at hcode

/-- After any calls by any processes. The waiting processes are those that were refused by
`acquire` since they last owned the mutex; they wait since the first such refusal. -/
theorem protocol_safe (ops : List Op) :
    let s := machine.run {} ops
    let waitsSince := WaitsSince refused owns (machine.steps {} ops)
    (s.owner.isSome ↔ 1 ≤ s.recursionDepth) ∧
    s.waitQueue.Nodup ∧
    (∀ pid, s.owner = some pid → pid ∉ s.waitQueue) ∧
    (s.owner = none → s.waitQueue = []) ∧
    (∀ pid, s.owner = some pid → ∃ before op after, ops = before ++ op :: after ∧
      Tenure pid before op after ∧
      s.recursionDepth +
          (machine.steps (machine.run {} before) (op :: after)).countP (released pid) =
        (machine.steps (machine.run {} before) (op :: after)).countP (granted pid)) ∧
    (∀ pid, (s.release pid).1 = .ok () ↔ s.owner = some pid) ∧
    (∀ op code, machine.out s op = .error code → Rejects code → machine.next s op = s) ∧
    (∀ pid, pid ∈ s.waitQueue ↔ ∃ n, waitsSince pid n) ∧
    ∀ op pid other m, s.owner ≠ some pid → (machine.next s op).owner = some pid →
      waitsSince other m → ∃ n, waitsSince pid n ∧
        ∀ other m, waitsSince other m → other ≠ pid → n < m := by
  have hs := run_sound ops
  have hline := run_inLine ops
  refine ⟨hs.owner_iff, hs.nodup, hs.owner_notMem, hs.free, fun pid howner => ?_,
    release_ok_iff _, fun op code => exec_rejected, hline.mem, fun op pid other m => ?_⟩
  · obtain ⟨before, op, after, rfl, htenure⟩ := exists_tenure ops howner
    exact ⟨before, op, after, rfl, htenure, htenure.depth⟩
  · exact (exec_effect _ op).passes hs hline

end Mutex
end Contur
