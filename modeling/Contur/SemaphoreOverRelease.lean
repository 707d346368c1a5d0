import Contur.PriorityInheritance
import Contur.SemaphorePermits

/-!
# A release that is refused

A release takes a permit off the account of its caller before it looks at the count. When
nobody waits and the count is at its maximum it is refused, and by then the account has
changed. This needs a caller that holds a permit while all permits are free, which comes
about when a process without a permit has released one.
-/

namespace Contur.Semaphore
open Function (update)
open Transition

variable {s : Semaphore} {pid : ProcessId}

def held (s : Semaphore) (pid : ProcessId) : ℕ := (s.holderCounts pid).getD 0

/-- Nothing that the semaphore says about permits, waiting processes and priorities differs. -/
structure Unchanged (s s' : Semaphore) : Prop where
  count : s'.count = s.count
  waitQueue : s'.waitQueue = s.waitQueue
  held : ∀ pid, s'.held pid = s.held pid
  effectivePriority : ∀ pid, s'.effectivePriority pid = s.effectivePriority pid

def RefusedWithoutEffect (s : Semaphore) (pid : ProcessId) : Prop :=
  (s.release pid).1 = .error .invalidState → Unchanged s (s.release pid).2

theorem held_giveBack (s : Semaphore) (pid q : ProcessId) :
    (s.giveBack pid).held q = if q = pid then s.held pid - 1 else s.held q := by
  unfold giveBack
  by_cases hq : q = pid
  · subst q
    rw [if_pos rfl]
    cases hentry : s.holderCounts pid with
    | none => simp [held, hentry]
    | some permits =>
      have hpermits : (if permits > 0 then permits - 1 else permits) = permits - 1 := by
        split_ifs <;> omega
      simp only [hpermits, held, Function.update_self, hentry, Option.getD_some]
      split_ifs with hzero
      · exact hzero.symm
      · rfl
  · rw [if_neg hq]
    cases s.holderCounts pid with
    | none => rfl
    | some permits =>
      dsimp only [held]
      rw [Function.update_of_ne hq]

theorem holderCounts_recomputePriorities (s : Semaphore) :
    s.recomputePriorities.holderCounts = s.holderCounts := by
  unfold recomputePriorities
  dsimp only
  split_ifs
  · rfl
  · split <;> rfl

theorem Settled.effectivePriority_eq (h : s.Settled) (hqueue : s.waitQueue = []) (pid : ProcessId) :
    s.effectivePriority pid = s.basePriority pid := by
  obtain ⟨hholds, hfree⟩ := h.inherits pid
  by_cases hpid : s.holds pid = true
  · have hmem := (hholds hpid).1
    rw [hqueue] at hmem
    exact List.mem_singleton.mp hmem
  · exact hfree hpid

theorem basePriority_recomputePriorities (hqueue : s.waitQueue = []) :
    s.recomputePriorities.basePriority = s.basePriority := by
  unfold recomputePriorities
  rw [hqueue]
  rfl

theorem permits_returned (s : Semaphore) (pid : ProcessId) :
    ((s.ensurePriorityRegistered pid).giveBack pid).permits = s.permits :=
  permits_giveBack _ pid

theorem basePriority_returned (s : Semaphore) (pid : ProcessId) :
    ((s.ensurePriorityRegistered pid).giveBack pid).basePriority = s.basePriority := by
  have hensure : (s.ensurePriorityRegistered pid).basePriority = s.basePriority :=
    Priorities.basePriority_ensure s.priorities pid
  rw [← hensure]
  unfold giveBack
  split <;> rfl

/-- When nobody waits and all permits are free, the release is refused, and the caller has a permit
less if it had one. -/
theorem release_full (hpid : pid ≠ invalidPid) (hqueue : s.waitQueue = [])
    (hfull : s.maxCount ≤ s.count) :
    s.release pid = (.error .invalidState,
      ((s.ensurePriorityRegistered pid).giveBack pid).recomputePriorities) := by
  obtain ⟨hcount, hmax, hqueue'⟩ := Permits.mk.inj (permits_returned s pid)
  unfold release
  rw [if_neg hpid]
  dsimp only
  rw [hqueue', hqueue]
  dsimp only
  rw [hcount, hmax, if_pos hfull]

theorem full_of_refused (h : (s.release pid).1 = .error .invalidState) :
    pid ≠ invalidPid ∧ s.waitQueue = [] ∧ s.maxCount ≤ s.count := by
  obtain ⟨hcount, hmax, hqueue⟩ := Permits.mk.inj (permits_returned s pid)
  unfold release at h
  by_cases hpid : pid = invalidPid
  · rw [if_pos hpid] at h
    cases h
  rw [if_neg hpid] at h
  dsimp only at h
  rw [hqueue] at h
  cases hwaiting : s.waitQueue with
  | cons next waitQueue =>
    rw [hwaiting] at h
    cases h
  | nil =>
    rw [hwaiting] at h
    dsimp only at h
    rw [hcount, hmax] at h
    by_cases hfull : s.maxCount ≤ s.count
    · exact ⟨hpid, rfl, hfull⟩
    · rw [if_neg hfull] at h
      cases h

theorem held_release_full (hpid : pid ≠ invalidPid) (hqueue : s.waitQueue = [])
    (hfull : s.maxCount ≤ s.count) (q : ProcessId) :
    (s.release pid).2.held q = if q = pid then s.held pid - 1 else s.held q := by
  rw [release_full hpid hqueue hfull, held, holderCounts_recomputePriorities]
  exact held_giveBack _ pid q

theorem permits_release_full (hpid : pid ≠ invalidPid) (hqueue : s.waitQueue = [])
    (hfull : s.maxCount ≤ s.count) : (s.release pid).2.permits = s.permits := by
  rw [release_full hpid hqueue hfull, permits_recomputePriorities, permits_returned]

theorem effectivePriority_release_full (h : s.Settled) (hpid : pid ≠ invalidPid)
    (hqueue : s.waitQueue = []) (hfull : s.maxCount ≤ s.count) (q : ProcessId) :
    (s.release pid).2.effectivePriority q = s.effectivePriority q := by
  have hqueue' : (s.release pid).2.waitQueue = [] :=
    (Permits.mk.inj (permits_release_full hpid hqueue hfull)).2.2.trans hqueue
  have hreturned : ((s.ensurePriorityRegistered pid).giveBack pid).waitQueue = [] :=
    (Permits.mk.inj (permits_returned s pid)).2.2.trans hqueue
  have hbase : (s.release pid).2.basePriority = s.basePriority := by
    rw [release_full hpid hqueue hfull, basePriority_recomputePriorities hreturned,
      basePriority_returned]
  rw [(release_settled h pid).effectivePriority_eq hqueue', h.effectivePriority_eq hqueue, hbase]

/-- In every state that is reached, a refused release has no effect exactly when its caller holds no
permit: some process waits, a permit is taken, or the caller has none. -/
theorem over_release_iff (initialCount maxCount : ℕ) (ops : List Op) (pid : ProcessId) :
    let s := machine.run (init initialCount maxCount) ops
    RefusedWithoutEffect s pid ↔
      s.waitQueue ≠ [] ∨ s.count < s.maxCount ∨ s.held pid = 0 := by
  intro s
  have hsettled : s.Settled := run_settled initialCount maxCount ops
  constructor
  · intro h
    by_contra hnot
    obtain ⟨hqueue, hnot⟩ := not_or.mp hnot
    obtain ⟨hcount, hheld⟩ := not_or.mp hnot
    rw [not_not] at hqueue
    have hfull := Nat.not_lt.mp hcount
    have hpid : pid ≠ invalidPid := by
      rintro rfl
      have hnone := hsettled.holds
      simp only [Semaphore.holds, bne_eq_false_iff_eq] at hnone
      exact hheld hnone
    have hrefused : (s.release pid).1 = .error .invalidState := by
      rw [release_full hpid hqueue hfull]
    have hsame := (h hrefused).held pid
    rw [held_release_full hpid hqueue hfull, if_pos rfl] at hsame
    omega
  · intro h hrefused
    obtain ⟨hpid, hqueue, hfull⟩ := full_of_refused hrefused
    have hheld : s.held pid = 0 :=
      (h.resolve_left (not_not.mpr hqueue)).resolve_left (Nat.not_lt.mpr hfull)
    obtain ⟨hcount, -, hwaiting⟩ := Permits.mk.inj (permits_release_full hpid hqueue hfull)
    refine ⟨hcount, hwaiting, fun q => ?_,
      effectivePriority_release_full hsettled hpid hqueue hfull⟩
    rw [held_release_full hpid hqueue hfull]
    by_cases hq : q = pid
    · rw [if_pos hq, hq, hheld]
    · rw [if_neg hq]

def strayRelease : List Op := [.acquire 1, .release 2]

theorem over_release_loses_permit :
    let s := machine.run (init 1 1) strayRelease
    (s.release 1).1 = .error .invalidState ∧ s.held 1 = 1 ∧ (s.release 1).2.held 1 = 0 ∧
      ¬ RefusedWithoutEffect s 1 := by
  intro s
  have hrefused : (s.release 1).1 = .error .invalidState := by decide +kernel
  have hheld : s.held 1 = 1 := by decide +kernel
  have hlost : (s.release 1).2.held 1 = 0 := by decide +kernel
  refine ⟨hrefused, hheld, hlost, fun h => ?_⟩
  have hsame := (h hrefused).held 1
  rw [hheld, hlost] at hsame
  cases hsame

end Contur.Semaphore
