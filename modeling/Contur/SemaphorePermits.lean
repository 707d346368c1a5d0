import Mathlib.Order.Nat
import Contur.Semaphore
import Contur.WaitingLine

/-!
# The permits of a semaphore

A permit that is released either becomes free or goes to the front of the queue, and there
are free permits only while nobody waits. Over every run of calls, the free permits and
the granted ones together are those of the start and the released ones, and the queue is
a waiting line: permits are handed over in the order of the refusals.
-/

namespace Contur
namespace Semaphore
open Transition
open WaitingLine (InLine WaitsSince)

structure Permits where
  count : ℕ
  maxCount : ℕ
  waitQueue : List ProcessId

def permits (s : Semaphore) : Permits := ⟨s.count, s.maxCount, s.waitQueue⟩

@[simp] theorem permits_giveBack (s : Semaphore) (pid : ProcessId) :
    (s.giveBack pid).permits = s.permits := by
  unfold giveBack
  split <;> rfl

@[simp] theorem permits_recomputePriorities (s : Semaphore) :
    s.recomputePriorities.permits = s.permits := by
  unfold recomputePriorities
  dsimp only
  split_ifs
  · rfl
  · split <;> rfl

inductive Effect (s s' : Semaphore) : Op → Result Unit → Prop
  | rejected (op : Op) (code : ErrorCode) (hcode : code = .invalidPid ∨ code = .invalidState)
      (hpermits : s'.permits = s.permits) : Effect s s' op (.error code)
  | registered (pid : ProcessId) (level : PriorityLevel) (hpermits : s'.permits = s.permits) :
      Effect s s' (.registerProcessPriority pid level) (.ok ())
  | missed (pid : ProcessId) (hpermits : s'.permits = s.permits) :
      Effect s s' (.tryAcquire pid) (.error .resourceBusy)
  | queued (pid : ProcessId) (hcount : s.count = 0)
      (hpermits : s'.permits = ⟨0, s.maxCount,
        if pid ∈ s.waitQueue then s.waitQueue else s.waitQueue ++ [pid]⟩) :
      Effect s s' (.acquire pid) (.error .resourceBusy)
  | taken (op : Op) (pid : ProcessId) (hop : op = .acquire pid ∨ op = .tryAcquire pid)
      (hcount : 0 < s.count) (hpermits : s'.permits = ⟨s.count - 1, s.maxCount, s.waitQueue⟩) :
      Effect s s' op (.ok ())
  | freed (pid : ProcessId) (hqueue : s.waitQueue = []) (hcount : s.count < s.maxCount)
      (hpermits : s'.permits = ⟨s.count + 1, s.maxCount, []⟩) : Effect s s' (.release pid) (.ok ())
  | handedOver (pid next : ProcessId) (waitQueue : List ProcessId)
      (hqueue : s.waitQueue = next :: waitQueue)
      (hpermits : s'.permits = ⟨s.count, s.maxCount, waitQueue⟩) :
        Effect s s' (.release pid) (.ok ())

theorem acquire_effect (s : Semaphore) (pid : ProcessId) :
    Effect s (s.acquire pid).2 (.acquire pid) (s.acquire pid).1 := by
  unfold acquire
  by_cases hpid : pid = invalidPid
  · rw [if_pos hpid]
    exact .rejected _ _ (Or.inl rfl) rfl
  rw [if_neg hpid]
  dsimp only [ensurePriorityRegistered]
  by_cases hcount : s.count > 0
  · rw [if_pos hcount]
    exact .taken _ pid (Or.inl rfl) hcount (permits_recomputePriorities _)
  · rw [if_neg hcount]
    have hzero : s.count = 0 := by omega
    refine .queued pid hzero ?_
    rw [permits_recomputePriorities, ← hzero]
    split_ifs <;> rfl

theorem tryAcquire_effect (s : Semaphore) (pid : ProcessId) :
    Effect s (s.tryAcquire pid).2 (.tryAcquire pid) (s.tryAcquire pid).1 := by
  unfold tryAcquire
  by_cases hpid : pid = invalidPid
  · rw [if_pos hpid]
    exact .rejected _ _ (Or.inl rfl) rfl
  rw [if_neg hpid]
  dsimp only [ensurePriorityRegistered]
  by_cases hcount : s.count = 0
  · rw [if_pos hcount]
    exact .missed pid rfl
  · rw [if_neg hcount]
    exact .taken _ pid (Or.inr rfl) (Nat.pos_of_ne_zero hcount) (permits_recomputePriorities _)

theorem release_effect (s : Semaphore) (pid : ProcessId) :
    Effect s (s.release pid).2 (.release pid) (s.release pid).1 := by
  unfold release
  by_cases hpid : pid = invalidPid
  · rw [if_pos hpid]
    exact .rejected _ _ (Or.inl rfl) rfl
  rw [if_neg hpid]
  dsimp only
  -- the state after the caller has given its permit back
  have hback : ((s.ensurePriorityRegistered pid).giveBack pid).permits = s.permits :=
    permits_giveBack _ pid
  generalize (s.ensurePriorityRegistered pid).giveBack pid = t at hback
  obtain ⟨hcount, hmax, hqueue⟩ := Permits.mk.inj hback
  split
  · next next waitQueue heq =>
    refine .handedOver pid next waitQueue (hqueue ▸ heq) ?_
    rw [permits_recomputePriorities, ← hcount, ← hmax]
    rfl
  · next heq =>
    split_ifs with hfull
    · exact .rejected _ _ (Or.inr rfl) (by rw [permits_recomputePriorities, hback])
    · refine .freed pid (hqueue ▸ heq) (by omega) ?_
      rw [permits_recomputePriorities, ← hcount, ← hmax, ← heq]
      rfl

theorem exec_effect (s : Semaphore) (op : Op) :
    Effect s (machine.next s op) op (machine.out s op) := by
  cases op with
  | acquire pid => exact acquire_effect s pid
  | tryAcquire pid => exact tryAcquire_effect s pid
  | release pid => exact release_effect s pid
  | registerProcessPriority pid level =>
    show Effect s (s.registerProcessPriority pid level).2 _ (s.registerProcessPriority pid level).1
    unfold registerProcessPriority
    by_cases hpid : pid = invalidPid
    · rw [if_pos hpid]
      exact .rejected _ _ (Or.inl rfl) rfl
    · rw [if_neg hpid]
      exact .registered pid level (permits_recomputePriorities _)

structure Permits.Sound (p : Permits) : Prop where
  count_le : p.count ≤ p.maxCount
  count_eq_zero : p.waitQueue ≠ [] → p.count = 0
  nodup : p.waitQueue.Nodup

theorem Permits.Sound.queue_eq_nil {p : Permits} (h : p.Sound) (hcount : 0 < p.count) :
    p.waitQueue = [] := by
  by_contra hne
  have hzero := h.count_eq_zero hne
  omega

theorem Effect.sound {s s' : Semaphore} {op : Op} {r : Result Unit} (h : Effect s s' op r)
    (hs : s.permits.Sound) : s'.permits.Sound := by
  have hle : s.count ≤ s.maxCount := hs.count_le
  cases h with
  | rejected _ _ _ hpermits => rwa [hpermits]
  | registered _ _ hpermits => rwa [hpermits]
  | missed _ hpermits => rwa [hpermits]
  | queued pid hcount hpermits =>
    rw [hpermits]
    exact ⟨Nat.zero_le _, fun _ => rfl, WaitingLine.nodup_enqueue hs.nodup pid⟩
  | taken _ pid hop hcount hpermits =>
    rw [hpermits]
    have hempty : s.waitQueue = [] := hs.queue_eq_nil hcount
    exact ⟨(Nat.sub_le _ _).trans hle, fun hne => absurd hempty hne, hs.nodup⟩
  | freed pid hqueue hcount hpermits =>
    rw [hpermits]
    exact ⟨hcount, fun hne => absurd rfl hne, List.nodup_nil⟩
  | handedOver pid next waitQueue hqueue hpermits =>
    rw [hpermits]
    have hzero : s.count = 0 := hs.count_eq_zero (by simp [permits, hqueue])
    have hnodup : (next :: waitQueue).Nodup := hqueue ▸ hs.nodup
    exact ⟨hle, fun _ => hzero, (List.nodup_cons.mp hnodup).2⟩

theorem run_sound (initialCount maxCount : ℕ) (ops : List Op) :
    (machine.run (init initialCount maxCount) ops).permits.Sound := by
  apply machine.run_invariant (fun s op hs => (exec_effect s op).sound hs)
  exact ⟨Nat.min_le_right _ _, fun hne => absurd rfl hne, List.nodup_nil⟩

/-- The processes that the call gives a permit: the caller of an `acquire` or `tryAcquire` that
succeeds, and the processes that a release takes from the queue. -/
def granted (step : Semaphore × Op) : List ProcessId :=
  match step.2 with
  | .acquire pid => if (machine.out step.1 step.2).isOk then [pid] else []
  | .tryAcquire pid => if (machine.out step.1 step.2).isOk then [pid] else []
  | .release _ => step.1.waitQueue.filter (· ∉ (machine.next step.1 step.2).waitQueue)
  | .registerProcessPriority _ _ => []

def released (step : Semaphore × Op) : Bool :=
  match step.2 with
  | .release _ => (machine.out step.1 step.2).isOk
  | _ => false

theorem granted_of_error {s : Semaphore} {op : Op} {code : ErrorCode}
    (hout : machine.out s op = .error code)
    (hqueue : (machine.next s op).waitQueue = s.waitQueue ∨ ∃ pid, op = .acquire pid) :
    granted (s, op) = [] := by
  unfold granted
  cases op with
  | acquire pid => simp [hout]
  | tryAcquire pid => simp [hout]
  | release pid =>
    obtain hqueue | ⟨_, hop⟩ := hqueue
    · simp [hqueue]
    · simp at hop
  | registerProcessPriority pid level => rfl

theorem granted_of_ok {s : Semaphore} {op : Op} {pid : ProcessId}
    (hout : machine.out s op = .ok ()) (hop : op = .acquire pid ∨ op = .tryAcquire pid) :
    granted (s, op) = [pid] := by
  obtain rfl | rfl := hop <;> simp [granted, hout]

theorem granted_of_front {s : Semaphore} {pid next : ProcessId} {waitQueue : List ProcessId}
    (hnodup : s.waitQueue.Nodup) (hqueue : s.waitQueue = next :: waitQueue)
    (hqueue' : (machine.next s (.release pid)).waitQueue = waitQueue) :
    granted (s, .release pid) = [next] := by
  rw [hqueue] at hnodup
  have hnot := (List.nodup_cons.mp hnodup).1
  simp [granted, hqueue, hqueue', hnot]

theorem exec_count {s : Semaphore} (hs : s.permits.Sound) (op : Op) :
    (machine.next s op).count + (granted (s, op)).length =
      s.count + (if released (s, op) then 1 else 0) := by
  have heffect := exec_effect s op
  generalize hout : machine.out s op = r at heffect
  cases heffect with
  | rejected _ code _ hpermits =>
    obtain ⟨hcount, -, hqueue⟩ := Permits.mk.inj hpermits
    rw [hcount, granted_of_error hout (Or.inl hqueue)]
    cases op <;> simp [released, hout]
  | registered pid level hpermits =>
    rw [(Permits.mk.inj hpermits).1]
    rfl
  | missed pid hpermits =>
    obtain ⟨hcount, -, hqueue⟩ := Permits.mk.inj hpermits
    rw [hcount, granted_of_error hout (Or.inl hqueue)]
    rfl
  | queued pid hcount hpermits =>
    rw [(Permits.mk.inj hpermits).1, hcount, granted_of_error hout (Or.inr ⟨pid, rfl⟩)]
    rfl
  | taken _ pid hop hcount hpermits =>
    have hreleased : released (s, op) = false := by obtain rfl | rfl := hop <;> rfl
    rw [(Permits.mk.inj hpermits).1, granted_of_ok hout hop, hreleased, List.length_singleton]
    simp only [Bool.false_eq_true, if_false]
    omega
  | freed pid hqueue hcount hpermits =>
    obtain ⟨hcount', -, hqueue'⟩ := Permits.mk.inj hpermits
    have hgranted : granted (s, .release pid) = [] := by simp [granted, hqueue]
    have hreleased : released (s, .release pid) = true := by simp [released, hout]
    rw [hcount', hgranted, hreleased]
    rfl
  | handedOver pid next waitQueue hqueue hpermits =>
    obtain ⟨hcount, -, hqueue'⟩ := Permits.mk.inj hpermits
    have hreleased : released (s, .release pid) = true := by simp [released, hout]
    rw [hcount, granted_of_front hs.nodup hqueue hqueue', hreleased]
    rfl

theorem run_count (initialCount maxCount : ℕ) (ops : List Op) :
    (machine.run (init initialCount maxCount) ops).count +
        ((machine.steps (init initialCount maxCount) ops).flatMap granted).length =
      (init initialCount maxCount).count +
        (machine.steps (init initialCount maxCount) ops).countP released := by
  induction ops using List.reverseRecOn with
  | nil => rfl
  | append_singleton ops op ih =>
    have hstep := exec_count (run_sound initialCount maxCount ops) op
    rw [Machine.run_append, Machine.steps_append, List.flatMap_append, List.length_append,
      List.countP_append, List.flatMap_singleton, List.countP_singleton, Machine.run_cons,
      Machine.run_nil]
    omega

def refused (step : Semaphore × Op) (pid : ProcessId) : Prop :=
  step.2 = .acquire pid ∧ machine.out step.1 step.2 = .error .resourceBusy

def served (step : Semaphore × Op) (pid : ProcessId) : Prop := pid ∈ granted step

theorem refused_not_served (step : Semaphore × Op) (pid : ProcessId) (h : refused step pid) :
    ¬ served step pid := by
  obtain ⟨s, op⟩ := step
  obtain ⟨hop, hout⟩ := h
  dsimp only at hop hout
  rw [served, granted_of_error hout (Or.inr ⟨pid, hop⟩)]
  exact List.not_mem_nil

theorem not_refused {s : Semaphore} {op : Op} {r : Result Unit} (hout : machine.out s op = r)
    (hr : r ≠ .error .resourceBusy) (pid : ProcessId) : ¬ refused (s, op) pid :=
  fun hrefused => hr (hout.symm.trans hrefused.2)

theorem inLine_keep {s : Semaphore} {op : Op} {events : List (Semaphore × Op)}
    (h : InLine refused served events s.waitQueue) (hgranted : granted (s, op) = [])
    (hqueue : (machine.next s op).waitQueue = s.waitQueue)
    (hrefused : ∀ pid, refused (s, op) pid → pid ∈ s.waitQueue) :
    InLine refused served (events ++ [(s, op)]) (machine.next s op).waitQueue := by
  rw [hqueue]
  apply h.pass _ hrefused
  intro pid _
  rw [served, hgranted]
  exact List.not_mem_nil

theorem exec_inLine {s : Semaphore} {events : List (Semaphore × Op)} (hs : s.permits.Sound)
    (h : InLine refused served events s.waitQueue) (op : Op) :
    InLine refused served (events ++ [(s, op)]) (machine.next s op).waitQueue := by
  have heffect := exec_effect s op
  generalize hout : machine.out s op = r at heffect
  cases heffect with
  | rejected _ code hcode hpermits =>
    have hqueue := congrArg Permits.waitQueue hpermits
    have hnot := not_refused hout (by rintro ⟨⟩; simp at hcode)
    apply inLine_keep h (granted_of_error hout (Or.inl hqueue)) hqueue
    exact fun pid hrefused => absurd hrefused (hnot pid)
  | registered pid level hpermits =>
    apply inLine_keep h rfl (congrArg Permits.waitQueue hpermits)
    exact fun pid hrefused => absurd hrefused.1 (by simp)
  | missed pid hpermits =>
    have hqueue := congrArg Permits.waitQueue hpermits
    apply inLine_keep h (granted_of_error hout (Or.inl hqueue)) hqueue
    exact fun pid hrefused => absurd hrefused.1 (by simp)
  | queued caller hcount hpermits =>
    have hgranted := granted_of_error hout (Or.inr ⟨caller, rfl⟩)
    have hrefused : ∀ pid, refused (s, .acquire caller) pid ↔ pid = caller := by
      intro pid
      simp [refused, hout, eq_comm]
    rw [show (machine.next s (.acquire caller)).waitQueue =
      if caller ∈ s.waitQueue then s.waitQueue else s.waitQueue ++ [caller] from
      congrArg Permits.waitQueue hpermits]
    apply h.enqueue refused_not_served _ hrefused
    intro pid _
    rw [served, hgranted]
    exact List.not_mem_nil
  | taken _ pid hop hcount hpermits =>
    have hnot := not_refused hout (by simp)
    have hempty : s.waitQueue = [] := hs.queue_eq_nil hcount
    rw [show (machine.next s op).waitQueue = s.waitQueue from congrArg Permits.waitQueue hpermits]
    apply h.pass (by simp [hempty])
    exact fun pid hrefused => absurd hrefused (hnot pid)
  | freed pid hqueue hcount hpermits =>
    have hnot := not_refused hout (by simp)
    apply inLine_keep h (by simp [granted, hqueue])
    · exact (congrArg Permits.waitQueue hpermits).trans hqueue.symm
    · exact fun pid hrefused => absurd hrefused (hnot pid)
  | handedOver pid next waitQueue hqueue hpermits =>
    have hqueue' : (machine.next s (.release pid)).waitQueue = waitQueue :=
      congrArg Permits.waitQueue hpermits
    have hgranted := granted_of_front hs.nodup hqueue hqueue'
    rw [hqueue] at h
    rw [hqueue']
    apply h.serve _ (not_refused hout (by simp))
    intro other
    rw [served, hgranted, List.mem_singleton]

theorem run_inLine (initialCount maxCount : ℕ) (ops : List Op) :
    InLine refused served (machine.steps (init initialCount maxCount) ops)
      (machine.run (init initialCount maxCount) ops).waitQueue := by
  induction ops using List.reverseRecOn with
  | nil => exact WaitingLine.inLine_nil
  | append_singleton ops op ih =>
    rw [Machine.steps_append, Machine.run_append]
    exact exec_inLine (run_sound initialCount maxCount ops) ih op

theorem exec_serves {s : Semaphore} {events : List (Semaphore × Op)} {pid other : ProcessId} {m : ℕ}
    (hs : s.permits.Sound) (h : InLine refused served events s.waitQueue) (op : Op)
    (hserved : served (s, op) pid) (hwait : WaitsSince refused served events other m) :
    ∃ n, WaitsSince refused served events pid n ∧
      ∀ other m, WaitsSince refused served events other m → other ≠ pid → n < m := by
  have hmem : other ∈ s.waitQueue := (h.mem other).mpr ⟨m, hwait⟩
  have hnone : granted (s, op) ≠ [] := List.ne_nil_of_mem hserved
  have heffect := exec_effect s op
  generalize hout : machine.out s op = r at heffect
  cases heffect with
  | rejected _ _ _ hpermits =>
    have hqueue := congrArg Permits.waitQueue hpermits
    exact absurd (granted_of_error hout (Or.inl hqueue)) hnone
  | registered => exact absurd rfl hnone
  | missed _ hpermits =>
    have hqueue := congrArg Permits.waitQueue hpermits
    exact absurd (granted_of_error hout (Or.inl hqueue)) hnone
  | queued caller => exact absurd (granted_of_error hout (Or.inr ⟨caller, rfl⟩)) hnone
  | taken _ _ _ hcount =>
    have hempty : s.waitQueue = [] := hs.queue_eq_nil hcount
    rw [hempty] at hmem
    exact absurd hmem List.not_mem_nil
  | freed _ hqueue =>
    rw [hqueue] at hmem
    exact absurd hmem List.not_mem_nil
  | handedOver _ next waitQueue hqueue hpermits =>
    have hgranted := granted_of_front hs.nodup hqueue (congrArg Permits.waitQueue hpermits)
    rw [served, hgranted] at hserved
    obtain rfl := List.mem_singleton.mp hserved
    rw [hqueue] at h
    exact h.front

/-- After any calls by any processes. The waiting processes are those that were refused by
`acquire` since they last got a permit; they wait since the first such refusal. -/
theorem permits_conserved (initialCount maxCount : ℕ) (ops : List Op) :
    let start := init initialCount maxCount
    let s := machine.run start ops
    let steps := machine.steps start ops
    let waitsSince := WaitsSince refused served steps
    s.count ≤ s.maxCount ∧
    (s.waitQueue ≠ [] → s.count = 0) ∧
    s.waitQueue.Nodup ∧
    (∀ pid, pid ∈ s.waitQueue ↔ ∃ n, waitsSince pid n) ∧
    (∀ op pid other m, pid ∈ granted (s, op) → waitsSince other m →
      ∃ n, waitsSince pid n ∧ ∀ other m, waitsSince other m → other ≠ pid → n < m) ∧
    s.count + (steps.flatMap granted).length = start.count + steps.countP released := by
  have hs := run_sound initialCount maxCount ops
  have hline := run_inLine initialCount maxCount ops
  refine ⟨hs.count_le, hs.count_eq_zero, hs.nodup, hline.mem, fun op pid other m => ?_, ?_⟩
  · exact exec_serves hs hline op
  · exact run_count initialCount maxCount ops

end Semaphore
end Contur
