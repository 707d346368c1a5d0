import Mathlib.Order.Nat
import Contur.MinElement
import Contur.Mutex
import Contur.Semaphore

/-!
# Priority inheritance

Whoever has the resource has the highest of its own priority and those of the waiting
processes, and everybody else has its own. Recomputing the priorities brings this about
whatever the effective priorities were, as long as only registered processes have one and
nobody with the invalid identifier waits or has the resource. Calls that end without it
register their caller at most, and that changes nobody's priority.
-/

namespace Contur
open Function (update)
open Transition

def IsHighest (level : PriorityLevel) (levels : List PriorityLevel) : Prop :=
  level ∈ levels ∧ ∀ other ∈ levels, isHigherPriority other level = false

/-- The effective priorities are the base priorities, raised for those who have the resource to
the highest priority of the waiting processes. -/
def Inherits (base effective : ProcessId → PriorityLevel) (has : ProcessId → Prop)
    (waitQueue : List ProcessId) : Prop :=
  ∀ pid, (has pid → IsHighest (effective pid) (base pid :: waitQueue.map base)) ∧
    (¬ has pid → effective pid = base pid)

theorem isHigherPriority_eq_false {lhs rhs : PriorityLevel} :
    isHigherPriority lhs rhs = false ↔ rhs.value ≤ lhs.value := by
  simp [isHigherPriority]

def raised (level own : PriorityLevel) : PriorityLevel :=
  if isHigherPriority level own then level else own

theorem isHighest_raised {level own : PriorityLevel} {levels : List PriorityLevel}
    (h : IsHighest level levels) : IsHighest (raised level own) (own :: levels) := by
  obtain ⟨hmem, hall⟩ := h
  unfold raised
  split_ifs with hhigher
  · refine ⟨List.mem_cons_of_mem _ hmem, fun other hother => ?_⟩
    rcases List.mem_cons.mp hother with rfl | hother
    · have hlt : level.value < other.value := by simpa [isHigherPriority] using hhigher
      exact isHigherPriority_eq_false.mpr (Nat.le_of_lt hlt)
    · exact hall other hother
  · refine ⟨List.mem_cons_self, fun other hother => ?_⟩
    have hle : own.value ≤ level.value :=
      isHigherPriority_eq_false.mp (Bool.eq_false_iff.mpr hhigher)
    rcases List.mem_cons.mp hother with rfl | hother
    · exact isHigherPriority_eq_false.mpr (Nat.le_refl _)
    · have hlevel := isHigherPriority_eq_false.mp (hall other hother)
      exact isHigherPriority_eq_false.mpr (Nat.le_trans hle hlevel)

theorem isHighest_minElement {level : PriorityLevel} {levels : List PriorityLevel}
    (h : Extremum.minElement isHigherPriority levels = some level) : IsHighest level levels := by
  refine ⟨Extremum.minElement_mem h, fun other hother => ?_⟩
  exact isHigherPriority_eq_false.mpr (Extremum.minElement_le PriorityLevel.value h hother)

namespace Priorities
variable {ps : Priorities} {pid : ProcessId}

def Registered (ps : Priorities) : Prop :=
  ∀ pid, ps.basePriorityByPid pid = none → ps.effectivePriorityByPid pid = none

theorem effectivePriority_eq (ps : Priorities) (pid : ProcessId) :
    ps.effectivePriority pid = (ps.effectivePriorityByPid pid).getD (ps.basePriority pid) := by
  unfold effectivePriority basePriority
  split <;> simp_all

theorem basePriority_ensure (ps : Priorities) (pid : ProcessId) :
    (ps.ensurePriorityRegistered pid).basePriority = ps.basePriority := by
  funext other
  unfold ensurePriorityRegistered
  split_ifs
  · rfl
  · by_cases hpid : other = pid
    · subst hpid
      simp [basePriority]
    · simp [basePriority, hpid]

theorem effectivePriority_ensure (ps : Priorities) (pid : ProcessId) :
    (ps.ensurePriorityRegistered pid).effectivePriority = ps.effectivePriority := by
  funext other
  rw [effectivePriority_eq, effectivePriority_eq, basePriority_ensure]
  unfold ensurePriorityRegistered
  split_ifs
  · rfl
  · by_cases hpid : other = pid
    · subst hpid
      simp [basePriority]
    · simp [hpid]

theorem Registered.ensure (h : ps.Registered) (pid : ProcessId) :
    (ps.ensurePriorityRegistered pid).Registered := by
  intro other hnone
  unfold ensurePriorityRegistered at hnone ⊢
  split_ifs at hnone ⊢
  · exact h other hnone
  · by_cases hpid : other = pid
    · subst hpid
      simp at hnone
    · simp only [Function.update_of_ne hpid] at hnone ⊢
      exact h other hnone

theorem effectiveAt_ensure (ps : Priorities) (hpid : pid ≠ invalidPid) :
    (ps.ensurePriorityRegistered pid).effectiveAt pid = ps.effectivePriority pid := by
  rw [effectivePriority_eq]
  simp [ensurePriorityRegistered, effectiveAt, basePriority, hpid]

theorem basePriority_reset (ps : Priorities) :
    ps.resetEffective.basePriority = ps.basePriority := rfl

theorem Registered.effectivePriority_reset (h : ps.Registered) :
    ps.resetEffective.effectivePriority = ps.basePriority := by
  funext pid
  rw [effectivePriority_eq, basePriority_reset]
  cases hbase : ps.basePriorityByPid pid with
  | none => simp [resetEffective, hbase, h pid hbase]
  | some level => simp [resetEffective, basePriority, hbase]

theorem Registered.reset (h : ps.Registered) : ps.resetEffective.Registered := by
  intro pid hnone
  have hbase : ps.basePriorityByPid pid = none := hnone
  simp [resetEffective, hbase, h pid hbase]

theorem highestWaiterPriority_spec (ps : Priorities) (highest : Option PriorityLevel)
    {waitQueue : List ProcessId} (hvalid : invalidPid ∉ waitQueue) :
    (ps.highestWaiterPriority highest waitQueue).1.basePriority = ps.basePriority ∧
    (ps.highestWaiterPriority highest waitQueue).1.effectivePriority = ps.effectivePriority ∧
    (ps.Registered → (ps.highestWaiterPriority highest waitQueue).1.Registered) ∧
    (ps.highestWaiterPriority highest waitQueue).2 = Extremum.minElement isHigherPriority
      (highest.toList ++ waitQueue.map ps.effectivePriority) := by
  induction waitQueue generalizing ps highest with
  | nil =>
    refine ⟨rfl, rfl, id, ?_⟩
    cases highest <;> rfl
  | cons waiter waitQueue ih =>
    have hwaiter : waiter ≠ invalidPid := fun heq => hvalid (heq ▸ List.mem_cons_self)
    have hrest : invalidPid ∉ waitQueue := fun hmem => hvalid (List.mem_cons_of_mem _ hmem)
    have hbase := basePriority_ensure ps waiter
    have heffective := effectivePriority_ensure ps waiter
    cases highest with
    | none =>
      obtain ⟨hbase', heffective', hregistered, hhighest⟩ :=
        ih (ps.ensurePriorityRegistered waiter) (some (ps.effectivePriority waiter)) hrest
      rw [highestWaiterPriority, effectiveAt_ensure ps hwaiter]
      refine ⟨hbase'.trans hbase, heffective'.trans heffective, ?_, ?_⟩
      · exact fun h => hregistered (h.ensure waiter)
      · rw [hhighest, heffective]
        rfl
    | some level =>
      obtain ⟨hbase', heffective', hregistered, hhighest⟩ :=
        ih (ps.ensurePriorityRegistered waiter)
          (some (raised (ps.effectivePriority waiter) level)) hrest
      rw [highestWaiterPriority, effectiveAt_ensure ps hwaiter]
      refine ⟨hbase'.trans hbase, heffective'.trans heffective, ?_, ?_⟩
      · exact fun h => hregistered (h.ensure waiter)
      · refine hhighest.trans ?_
        rw [heffective]
        rfl

theorem Registered.exists_highest (h : ps.Registered) {waitQueue : List ProcessId}
    (hvalid : invalidPid ∉ waitQueue) (hne : waitQueue ≠ []) :
    ∃ ps' level, ps.resetEffective.highestWaiterPriority none waitQueue = (ps', some level) ∧
      ps'.basePriority = ps.basePriority ∧ ps'.effectivePriority = ps.basePriority ∧
      ps'.Registered ∧ IsHighest level (waitQueue.map ps.basePriority) := by
  obtain ⟨hbase, heffective, hregistered, hhighest⟩ :=
    highestWaiterPriority_spec ps.resetEffective none hvalid
  rw [h.effectivePriority_reset] at heffective hhighest
  have hlevels : waitQueue.map ps.basePriority ≠ [] := by simpa using hne
  obtain ⟨level, hlevel⟩ := Extremum.exists_minElement isHigherPriority hlevels
  refine ⟨_, level, ?_, hbase, heffective, hregistered h.reset, isHighest_minElement hlevel⟩
  rw [← hlevel]
  exact Prod.ext rfl hhighest

theorem basePriority_raise (ps : Priorities) (level : PriorityLevel) (pid : ProcessId) :
    (ps.raise level pid).basePriority = ps.basePriority := by
  rw [← basePriority_ensure ps pid]
  unfold raise
  dsimp only
  split_ifs <;> rfl

theorem Registered.raise (h : ps.Registered) (level : PriorityLevel) (hpid : pid ≠ invalidPid) :
    (ps.raise level pid).Registered := by
  have hensure := h.ensure pid
  unfold Priorities.raise
  dsimp only
  split_ifs
  · intro other hnone
    have hother : other ≠ pid := by
      rintro rfl
      simp [ensurePriorityRegistered, hpid] at hnone
    exact (Function.update_of_ne hother _ _).trans (hensure other hnone)
  · exact hensure

theorem effectivePriority_raise (ps : Priorities) (level : PriorityLevel)
    (hpid : pid ≠ invalidPid) : (ps.raise level pid).effectivePriority =
      update ps.effectivePriority pid (raised level (ps.effectivePriority pid)) := by
  funext other
  unfold raise raised
  dsimp only
  rw [effectiveAt_ensure ps hpid]
  split_ifs
  · by_cases hother : other = pid
    · subst hother
      simp [effectivePriority_eq]
    · rw [Function.update_of_ne hother, ← effectivePriority_ensure ps pid, effectivePriority_eq,
        effectivePriority_eq]
      simp [hother, basePriority]
  · rw [effectivePriority_ensure, Function.update_eq_self]

theorem basePriority_raiseAll (ps : Priorities) (level : PriorityLevel) (holds : ProcessId → Bool) :
    (ps.raiseAll level holds).basePriority = ps.basePriority := by
  funext pid
  unfold basePriority raiseAll
  dsimp only
  split_ifs
  · exact congrFun (basePriority_raise ps level pid) pid
  · rfl

theorem effectivePriority_raiseAll (ps : Priorities) (level : PriorityLevel)
    {holds : ProcessId → Bool} (hvalid : holds invalidPid = false) (pid : ProcessId) :
    (ps.raiseAll level holds).effectivePriority pid =
      if holds pid then raised level (ps.effectivePriority pid) else ps.effectivePriority pid := by
  split_ifs with hholds
  · have hpid : pid ≠ invalidPid := fun heq => by simp [heq, hvalid] at hholds
    have hraise := congrFun (effectivePriority_raise ps level hpid) pid
    rw [Function.update_self] at hraise
    rw [← hraise]
    simp [effectivePriority, raiseAll, hholds]
  · simp [effectivePriority, raiseAll, hholds]

theorem Registered.raiseAll (h : ps.Registered) (level : PriorityLevel) {holds : ProcessId → Bool}
    (hvalid : holds invalidPid = false) : (ps.raiseAll level holds).Registered := by
  intro pid hnone
  unfold Priorities.raiseAll at hnone ⊢
  dsimp only at hnone ⊢
  split_ifs at hnone ⊢ with hholds
  · have hpid : pid ≠ invalidPid := fun heq => by simp [heq, hvalid] at hholds
    exact h.raise level hpid pid hnone
  · exact h pid hnone

theorem Registered.setBase (h : ps.Registered) (pid : ProcessId) (level : PriorityLevel) :
    (ps.setBase pid level).Registered := by
  intro other hnone
  unfold Priorities.setBase at hnone ⊢
  by_cases hother : other = pid
  · subst hother
    simp at hnone
  · simp only [Function.update_of_ne hother] at hnone ⊢
    exact h other hnone

end Priorities

theorem inherits_of_raised {base effective : ProcessId → PriorityLevel} {has : ProcessId → Prop}
    {waitQueue : List ProcessId} {level : PriorityLevel}
    (hlevel : IsHighest level (waitQueue.map base))
    (hhas : ∀ pid, has pid → effective pid = raised level (base pid))
    (hnot : ∀ pid, ¬ has pid → effective pid = base pid) :
    Inherits base effective has waitQueue := by
  intro pid
  refine ⟨fun h => ?_, hnot pid⟩
  rw [hhas pid h]
  exact isHighest_raised hlevel

theorem inherits_of_base {base : ProcessId → PriorityLevel} {has : ProcessId → Prop}
    {waitQueue : List ProcessId} (hnone : ∀ pid, has pid → waitQueue = []) :
    Inherits base base has waitQueue := by
  intro pid
  refine ⟨fun h => ?_, fun _ => rfl⟩
  rw [hnone pid h]
  simp [IsHighest, isHigherPriority_eq_false]

theorem Inherits.ensure {ps : Priorities} {has : ProcessId → Prop} {waitQueue : List ProcessId}
    (h : Inherits ps.basePriority ps.effectivePriority has waitQueue) (pid : ProcessId) :
    Inherits (ps.ensurePriorityRegistered pid).basePriority
      (ps.ensurePriorityRegistered pid).effectivePriority has waitQueue := by
  rw [Priorities.basePriority_ensure, Priorities.effectivePriority_ensure]
  exact h

namespace Mutex

structure Valid (s : Mutex) : Prop where
  registered : s.priorities.Registered
  queue : invalidPid ∉ s.waitQueue
  owner : s.owner ≠ some invalidPid

structure Settled (s : Mutex) : Prop extends Valid s where
  inherits : Inherits s.basePriority s.effectivePriority (s.owner = some ·) s.waitQueue

theorem Valid.ensure {s : Mutex} (h : s.Valid) (pid : ProcessId) :
    (s.ensurePriorityRegistered pid).Valid :=
  ⟨h.registered.ensure pid, h.queue, h.owner⟩

theorem Settled.ensure {s : Mutex} (h : s.Settled) (pid : ProcessId) :
    (s.ensurePriorityRegistered pid).Settled :=
  ⟨h.toValid.ensure pid, h.inherits.ensure pid⟩

theorem Valid.reset {s : Mutex} (h : s.Valid)
    (hnone : ∀ pid, s.owner = some pid → s.waitQueue = []) :
    { s with priorities := s.priorities.resetEffective : Mutex }.Settled := by
  refine ⟨⟨h.registered.reset, h.queue, h.owner⟩, ?_⟩
  have heffective := h.registered.effectivePriority_reset
  show Inherits _ s.priorities.resetEffective.effectivePriority _ _
  rw [heffective]
  exact inherits_of_base hnone

theorem Valid.recompute {s : Mutex} (h : s.Valid) : s.recomputePriorities.Settled := by
  unfold recomputePriorities
  dsimp only
  split
  · next hnone =>
    apply h.reset
    intro pid howner
    simp [hnone] at howner
  · next owner howner =>
    have hvalid : owner ≠ invalidPid := by
      rintro rfl
      exact h.owner howner
    split_ifs with hempty
    · apply h.reset
      intro _ _
      simpa using hempty
    · have hne : s.waitQueue ≠ [] := by simpa using hempty
      obtain ⟨ps', level, hscan, hbase, heffective, hregistered, hlevel⟩ :=
        h.registered.exists_highest h.queue hne
      rw [hscan]
      refine ⟨⟨hregistered.raise level hvalid, h.queue, h.owner⟩, ?_⟩
      show Inherits (ps'.raise level owner).basePriority (ps'.raise level owner).effectivePriority
        (s.owner = some ·) s.waitQueue
      rw [Priorities.basePriority_raise, Priorities.effectivePriority_raise ps' level hvalid, hbase,
        heffective, howner]
      apply inherits_of_raised hlevel
      · intro pid hpid
        rw [← Option.some.inj hpid, Function.update_self]
      · intro pid hpid
        exact Function.update_of_ne (fun heq => hpid (by rw [heq])) _ _

theorem Valid.take {s : Mutex} (h : s.Valid) {pid : ProcessId} (hpid : pid ≠ invalidPid) :
    (recomputePriorities { s with owner := some pid, recursionDepth := 1 }).Settled := by
  have htaken : Valid { s with owner := some pid, recursionDepth := 1 } :=
    ⟨h.registered, h.queue, by simpa using hpid⟩
  exact htaken.recompute

theorem acquire_settled {s : Mutex} (h : s.Settled) (pid : ProcessId) :
    (s.acquire pid).2.Settled := by
  unfold acquire
  by_cases hpid : pid = invalidPid
  · rw [if_pos hpid]
    exact h
  rw [if_neg hpid]
  have hensure := h.ensure pid
  have hvalid := hensure.toValid
  dsimp only
  generalize s.ensurePriorityRegistered pid = t at *
  split
  · exact hvalid.take hpid
  · split_ifs
    -- the owner takes the mutex once more, and the priorities are not recomputed
    · exact ⟨⟨hvalid.registered, hvalid.queue, hvalid.owner⟩, hensure.inherits⟩
    · exact hvalid.recompute
    · have hqueued : Valid { t with waitQueue := t.waitQueue ++ [pid] } :=
        ⟨hvalid.registered, by simpa using ⟨hvalid.queue, Ne.symm hpid⟩, hvalid.owner⟩
      exact hqueued.recompute

theorem tryAcquire_settled {s : Mutex} (h : s.Settled) (pid : ProcessId) :
    (s.tryAcquire pid).2.Settled := by
  unfold tryAcquire
  by_cases hpid : pid = invalidPid
  · rw [if_pos hpid]
    exact h
  rw [if_neg hpid]
  have hensure := h.ensure pid
  have hvalid := hensure.toValid
  dsimp only
  generalize s.ensurePriorityRegistered pid = t at *
  split
  · exact hvalid.take hpid
  · split_ifs
    · exact Valid.recompute ⟨hvalid.registered, hvalid.queue, hvalid.owner⟩
    · exact hensure

theorem release_settled {s : Mutex} (h : s.Settled) (pid : ProcessId) :
    (s.release pid).2.Settled := by
  have hvalid := h.toValid
  unfold release
  split
  · exact h
  · split_ifs
    · exact h
    · exact Valid.recompute ⟨hvalid.registered, hvalid.queue, hvalid.owner⟩
    · split
      · have hfreed : Valid { s with owner := none, recursionDepth := 0 } :=
          ⟨hvalid.registered, hvalid.queue, by simp⟩
        exact hfreed.recompute
      · next next waitQueue hqueue =>
        have hnot : invalidPid ∉ next :: waitQueue := hqueue ▸ hvalid.queue
        have hhanded : Valid
            { s with owner := some next, recursionDepth := 1, waitQueue := waitQueue } := by
          refine ⟨hvalid.registered, fun hmem => hnot (List.mem_cons_of_mem _ hmem), fun heq => ?_⟩
          exact hnot (Option.some.inj heq ▸ List.mem_cons_self)
        exact hhanded.recompute

theorem exec_settled (s : Mutex) (op : Op) (h : s.Settled) : (machine.next s op).Settled := by
  cases op with
  | acquire pid => exact acquire_settled h pid
  | tryAcquire pid => exact tryAcquire_settled h pid
  | release pid => exact release_settled h pid
  | registerProcessPriority pid level =>
    show (s.registerProcessPriority pid level).2.Settled
    unfold registerProcessPriority
    split_ifs
    · exact h
    · exact Valid.recompute ⟨h.registered.setBase pid level, h.queue, h.owner⟩

theorem run_settled (ops : List Op) : (machine.run {} ops).Settled := by
  apply machine.run_invariant exec_settled
  exact ⟨⟨fun _ _ => rfl, List.not_mem_nil, by simp⟩, inherits_of_base (by simp)⟩

end Mutex

namespace Semaphore

structure Valid (s : Semaphore) : Prop where
  registered : s.priorities.Registered
  queue : invalidPid ∉ s.waitQueue
  holds : s.holds invalidPid = false

structure Settled (s : Semaphore) : Prop extends Valid s where
  inherits : Inherits s.basePriority s.effectivePriority (s.holds · = true) s.waitQueue

theorem Valid.ensure {s : Semaphore} (h : s.Valid) (pid : ProcessId) :
    (s.ensurePriorityRegistered pid).Valid :=
  ⟨h.registered.ensure pid, h.queue, h.holds⟩

theorem Settled.ensure {s : Semaphore} (h : s.Settled) (pid : ProcessId) :
    (s.ensurePriorityRegistered pid).Settled :=
  ⟨h.toValid.ensure pid, h.inherits.ensure pid⟩

theorem Valid.grant {s : Semaphore} (h : s.Valid) {pid : ProcessId} (hpid : pid ≠ invalidPid) :
    (s.grant pid).Valid := by
  refine ⟨h.registered, h.queue, ?_⟩
  have hsame : (s.grant pid).holds invalidPid = s.holds invalidPid := by
    simp [Semaphore.grant, Semaphore.holds, Function.update_of_ne hpid.symm]
  rw [hsame, h.holds]

theorem Valid.giveBack {s : Semaphore} (h : s.Valid) {pid : ProcessId} (hpid : pid ≠ invalidPid) :
    (s.giveBack pid).Valid := by
  unfold Semaphore.giveBack
  split
  · exact h
  · refine ⟨h.registered, h.queue, ?_⟩
    have hholds := h.holds
    unfold Semaphore.holds at hholds ⊢
    dsimp only
    rwa [Function.update_of_ne hpid.symm]

theorem Valid.recompute {s : Semaphore} (h : s.Valid) : s.recomputePriorities.Settled := by
  unfold recomputePriorities
  dsimp only
  split_ifs with hempty
  · refine ⟨⟨h.registered.reset, h.queue, h.holds⟩, ?_⟩
    have heffective := h.registered.effectivePriority_reset
    show Inherits _ s.priorities.resetEffective.effectivePriority _ _
    rw [heffective]
    apply inherits_of_base
    intro _ _
    simpa using hempty
  · have hne : s.waitQueue ≠ [] := by simpa using hempty
    obtain ⟨ps', level, hscan, hbase, heffective, hregistered, hlevel⟩ :=
      h.registered.exists_highest h.queue hne
    rw [hscan]
    refine ⟨⟨hregistered.raiseAll level h.holds, h.queue, h.holds⟩, ?_⟩
    show Inherits (ps'.raiseAll level s.holds).basePriority
      (ps'.raiseAll level s.holds).effectivePriority (s.holds · = true) s.waitQueue
    have hraised := Priorities.effectivePriority_raiseAll ps' level h.holds
    rw [Priorities.basePriority_raiseAll, hbase]
    rw [heffective] at hraised
    apply inherits_of_raised hlevel
    · intro pid hpid
      rw [hraised, if_pos hpid]
    · intro pid hpid
      rw [hraised, if_neg hpid]

theorem acquire_settled {s : Semaphore} (h : s.Settled) (pid : ProcessId) :
    (s.acquire pid).2.Settled := by
  unfold acquire
  by_cases hpid : pid = invalidPid
  · rw [if_pos hpid]
    exact h
  rw [if_neg hpid]
  have hvalid := h.toValid.ensure pid
  dsimp only
  generalize s.ensurePriorityRegistered pid = t at *
  split_ifs
  · have htaken : Valid { t with count := t.count - 1 } :=
      ⟨hvalid.registered, hvalid.queue, hvalid.holds⟩
    exact (htaken.grant hpid).recompute
  · exact hvalid.recompute
  · have hqueued : Valid { t with waitQueue := t.waitQueue ++ [pid] } :=
      ⟨hvalid.registered, by simpa using ⟨hvalid.queue, Ne.symm hpid⟩, hvalid.holds⟩
    exact hqueued.recompute

theorem tryAcquire_settled {s : Semaphore} (h : s.Settled) (pid : ProcessId) :
    (s.tryAcquire pid).2.Settled := by
  unfold tryAcquire
  by_cases hpid : pid = invalidPid
  · rw [if_pos hpid]
    exact h
  rw [if_neg hpid]
  have hensure := h.ensure pid
  have hvalid := hensure.toValid
  dsimp only
  generalize s.ensurePriorityRegistered pid = t at *
  split_ifs
  · exact hensure
  · have htaken : Valid { t with count := t.count - 1 } :=
      ⟨hvalid.registered, hvalid.queue, hvalid.holds⟩
    exact (htaken.grant hpid).recompute

theorem release_settled {s : Semaphore} (h : s.Settled) (pid : ProcessId) :
    (s.release pid).2.Settled := by
  unfold release
  by_cases hpid : pid = invalidPid
  · rw [if_pos hpid]
    exact h
  rw [if_neg hpid]
  have hvalid := (h.toValid.ensure pid).giveBack hpid
  dsimp only
  generalize (s.ensurePriorityRegistered pid).giveBack pid = t at *
  split
  · next next waitQueue hqueue =>
    have hnot : invalidPid ∉ next :: waitQueue := hqueue ▸ hvalid.queue
    have hnext : next ≠ invalidPid := fun heq => hnot (heq ▸ List.mem_cons_self)
    have hleft : Valid { t with waitQueue := waitQueue } :=
      ⟨hvalid.registered, fun hmem => hnot (List.mem_cons_of_mem _ hmem), hvalid.holds⟩
    exact ((hleft.ensure next).grant hnext).recompute
  · split_ifs
    · exact hvalid.recompute
    · have hfreed : Valid { t with count := t.count + 1 } :=
        ⟨hvalid.registered, hvalid.queue, hvalid.holds⟩
      exact hfreed.recompute

theorem exec_settled (s : Semaphore) (op : Op) (h : s.Settled) : (machine.next s op).Settled := by
  cases op with
  | acquire pid => exact acquire_settled h pid
  | tryAcquire pid => exact tryAcquire_settled h pid
  | release pid => exact release_settled h pid
  | registerProcessPriority pid level =>
    show (s.registerProcessPriority pid level).2.Settled
    unfold registerProcessPriority
    split_ifs
    · exact h
    · exact Valid.recompute ⟨h.registered.setBase pid level, h.queue, h.holds⟩

theorem run_settled (initialCount maxCount : ℕ) (ops : List Op) :
    (machine.run (init initialCount maxCount) ops).Settled := by
  apply machine.run_invariant exec_settled
  exact ⟨⟨fun _ _ => rfl, List.not_mem_nil, rfl⟩, inherits_of_base fun _ _ => rfl⟩

end Semaphore

/-- In every state that a mutex or a semaphore can reach. -/
theorem inheritance_exact :
    (∀ ops : List Mutex.Op,
      let s := Mutex.machine.run {} ops
      Inherits s.basePriority s.effectivePriority (s.owner = some ·) s.waitQueue) ∧
    ∀ (initialCount maxCount : ℕ) (ops : List Semaphore.Op),
      let s := Semaphore.machine.run (Semaphore.init initialCount maxCount) ops
      Inherits s.basePriority s.effectivePriority (s.holds · = true) s.waitQueue := by
  constructor
  · intro ops
    exact (Mutex.run_settled ops).inherits
  · intro initialCount maxCount ops
    exact (Semaphore.run_settled initialCount maxCount ops).inherits

end Contur
