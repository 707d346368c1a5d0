import Contur.KernelInvariant
import Contur.SchedulerErrors

/-!
# Batches of ticks

`runForTicks` stops at the first tick that fails. A tick of a reachable kernel fails only
when no process is ready or running, and then it leaves the kernel as it is, so every
later tick fails in the same way. What a batch leaves is therefore what its parts leave
one after the other; only their results can differ.
-/

namespace Contur
open Placement

variable {P : ReplacementPolicy} {σ : Type} {E : ExecutionEngine σ}

theorem Scheduler.selectNextForLane_notFound {s s' : Scheduler} {lane : ℕ} {now : Tick}
    (h : s.selectNextForLane lane now = (.error .notFound, s')) : s' = s := by
  have hselect := s.selectNextForLane_eq lane now
  cases hchoice : s.choice lane now with
  | refused =>
    rw [hchoice] at hselect
    obtain ⟨code, heq⟩ := hselect
    rw [heq] at h
    exact (congrArg Prod.snd h).symm
  | keeps running =>
    rw [hchoice] at hselect
    have heq : s.selectNextForLane lane now = (.ok running, s) := hselect
    rw [heq] at h
    exact (congrArg Prod.snd h).symm
  | starts candidate =>
    rw [hchoice] at hselect
    rw [hselect.1] at h
    rcases s.startOn_cases lane candidate now with ⟨-, t, pcb, heq, -⟩ | ⟨-, heq⟩
    all_goals
      rw [heq] at h
      cases h
  | replaces running candidate =>
    rw [hchoice] at hselect
    rcases s.preempt_cases lane running now with ⟨-, t, pcb, hpreempt, -⟩ | ⟨-, hpreempt⟩
    · rw [hselect.2.2 t hpreempt] at h
      rcases t.startOn_cases lane candidate now with ⟨-, t', pcb', heq, -⟩ | ⟨-, heq⟩
      all_goals
        rw [heq] at h
        cases h
    · rw [hselect.2.1 _ _ hpreempt] at h
      cases h

namespace Dispatcher
variable {d : Dispatcher P σ} {place : ProcessId → Option Place} {tickBudget : ℕ} {code : ErrorCode}

theorem dispatch_of_error (h : d.Live place) (herror : (d.dispatch E tickBudget).1 = .error code) :
    d.dispatch E tickBudget = (.error .notFound, d) := by
  unfold dispatch at herror ⊢
  split_ifs with hempty
  · rfl
  rw [if_neg hempty] at herror
  cases hselect : d.scheduler.selectNext d.clock with
  | mk result scheduler =>
    obtain ⟨place₁, hlive, -, hrun, hcode⟩ := selectNext_live h hselect
    rw [hselect] at herror
    cases result with
    | error code =>
      obtain rfl := hcode code rfl
      have hsame : scheduler = d.scheduler := Scheduler.selectNextForLane_notFound hselect
      dsimp only
      rw [hsame]
    | ok pid =>
      -- a process that is selected has an image, and its slice ends without an error
      have hp := hrun pid rfl
      obtain ⟨process, hprocess⟩ : ∃ process, d.processes.lookup pid = some process :=
        Option.isSome_iff_exists.mp
          (AList.lookup_isSome.mpr ((hlive.processes pid).mpr (by simp [hp])))
      simp only [hprocess] at herror
      have hexec := execute_live (E := E) hlive pid process tickBudget
      obtain ⟨hok, -⟩ := stop_spec hexec hp
        (execute E { d with scheduler := scheduler } pid process tickBudget).1.reason
      rw [hok] at herror
      cases herror

end Dispatcher

namespace Kernel
variable {k : Kernel P σ} {tickBudget : ℕ} {code : ErrorCode}

theorem pruneDeadProcessRefs_eq (h : k.Inv) : k.pruneDeadProcessRefs = k := by
  obtain ⟨place, h⟩ := h
  have hrefs : k.processRefs.filter (k.dispatcher.hasProcess ·) = k.processRefs := by
    apply Finset.filter_eq_self.mpr
    intro pid hpid
    have hlive := (h.live.processes pid).mpr ((h.refs pid).mp hpid)
    simpa [Dispatcher.hasProcess] using hlive
  rw [pruneDeadProcessRefs, hrefs]

theorem tick_of_error (h : k.Inv) (herror : (k.tick E tickBudget).1 = .error code) :
    k.tick E tickBudget = (.error .notFound, k) := by
  obtain ⟨place, htracked⟩ := h
  have hdispatch := Dispatcher.dispatch_of_error htracked.live herror
  rw [tick, hdispatch]
  dsimp only
  rw [show ({ k with dispatcher := k.dispatcher } : Kernel P σ) = k from rfl,
    pruneDeadProcessRefs_eq ⟨place, htracked⟩]

theorem runLoop_of_error (h : k.Inv) (herror : (k.tick E tickBudget).1 = .error code)
    (anyWorkDone : Bool) (cycles : ℕ) : (k.runLoop E tickBudget anyWorkDone cycles).2 = k := by
  cases cycles with
  | zero => rfl
  | succ cycles =>
    rw [runLoop, tick_of_error h herror]

theorem runLoop_flag (before after : Bool) (cycles : ℕ) :
    (k.runLoop E tickBudget before cycles).2 = (k.runLoop E tickBudget after cycles).2 := by
  cases cycles with
  | zero => rfl
  | succ cycles =>
    rw [runLoop, runLoop]
    cases k.tick E tickBudget with
    | mk result k' =>
      cases result with
      | error code => cases code <;> rfl
      | ok done => rfl

theorem runLoop_add (h : k.Inv) (anyWorkDone after : Bool) (a b : ℕ) :
    (k.runLoop E tickBudget anyWorkDone (a + b)).2 =
      ((k.runLoop E tickBudget anyWorkDone a).2.runLoop E tickBudget after b).2 := by
  induction a generalizing k anyWorkDone with
  | zero =>
    rw [Nat.zero_add]
    exact runLoop_flag anyWorkDone after b
  | succ a ih =>
    have htick := tick_inv (E := E) h tickBudget
    rw [Nat.add_right_comm]
    cases hresult : k.tick E tickBudget with
    | mk result k' =>
      cases result with
      | error code =>
        have herror : (k.tick E tickBudget).1 = .error code := by rw [hresult]
        rw [runLoop_of_error h herror, runLoop_of_error h herror, runLoop_of_error h herror]
      | ok done =>
        rw [hresult] at htick
        simp only [runLoop, hresult]
        exact ih htick true

/-- In every kernel that is reached, with any engine, a batch of ticks leaves the state that its two
parts leave one after the other. -/
theorem run_for_ticks_batches (E : ExecutionEngine σ) (policy : PolicyKind) (engine : σ)
    (memory : PhysicalMemory) (order : ℕ → ℕ) (maxSlots defaultTickBudget : ℕ) (ops : List Op)
    (a b tickBudget : ℕ) :
    let k := (machine E).run (create policy engine
      (VirtualMemory.init (Mmu.init P memory order) maxSlots) defaultTickBudget) ops
    (k.runForTicks E (a + b) tickBudget).2 =
      ((k.runForTicks E a tickBudget).2.runForTicks E b tickBudget).2 := by
  intro k
  have hinv : k.Inv := (machine E).run_invariant (P := Inv) (fun _ op h => exec_inv h op)
    (inv_create policy engine memory order maxSlots defaultTickBudget) ops
  exact runLoop_add hinv false false a b

end Kernel
end Contur
