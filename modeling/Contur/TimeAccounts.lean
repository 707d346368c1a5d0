import Mathlib.Algebra.BigOperators.Group.Finset.Basic
import Contur.Process

/-!
# Accounts of time

A control block charges the time since its last change to the state it leaves, in
counters that wrap around. A book keeps the same accounts in numbers without a
bound, together with the ticks since the start and the processor time of the
processes that are gone. A state change moves no time between the processor and the
rest, and while ticks pass exactly one process is running, so the ticks since the
start are always the processor time of all processes.
-/

namespace Contur
open Function (update)

theorem tickAdd_mod (a b : ℕ) : tickAdd (a % 2 ^ 64) (b % 2 ^ 64) = (a + b) % 2 ^ 64 :=
  (Nat.add_mod a b _).symm

theorem tickAdd_mod_left (a b : ℕ) : tickAdd (a % 2 ^ 64) b = (a + b) % 2 ^ 64 :=
  Nat.mod_add_mod a _ b

theorem tickSub_mod {a b : ℕ} (h : b ≤ a) :
    tickSub (a % 2 ^ 64) (b % 2 ^ 64) = (a - b) % 2 ^ 64 := by
  have hsub : (2 ^ 64 + a % 2 ^ 64 - b % 2 ^ 64) % 2 ^ 64 = (a - b) % 2 ^ 64 := by omega
  exact hsub

def ProcessState.Charged (state : ProcessState) : Prop :=
  state = .running ∨ state = .ready ∨ state = .blocked

structure Account where
  cpu : ℕ
  wait : ℕ
  blocked : ℕ
  last : ℕ
  admitted : ℕ

namespace Account
variable {a : Account} {state newState : ProcessState} {T : ℕ}

def opened (T : ℕ) : Account := ⟨0, 0, 0, T, T⟩

def Balanced (a : Account) : Prop := a.admitted + (a.cpu + a.wait + a.blocked) = a.last

def charge (a : Account) (state : ProcessState) (T : ℕ) : Account :=
  match state with
  | .running => { a with cpu := a.cpu + (T - a.last), last := T }
  | .ready => { a with wait := a.wait + (T - a.last), last := T }
  | .blocked => { a with blocked := a.blocked + (T - a.last), last := T }
  | _ => { a with last := T }

def spent (a : Account) (state : ProcessState) (T : ℕ) : ℕ :=
  a.cpu + if state = .running then T - a.last else 0

@[simp] theorem last_charge : (a.charge state T).last = T := by
  cases state <;> rfl

@[simp] theorem admitted_charge : (a.charge state T).admitted = a.admitted := by
  cases state <;> rfl

theorem balanced_charge (h : a.Balanced) (hlast : a.last ≤ T) (hstate : state.Charged) :
    (a.charge state T).Balanced := by
  unfold Balanced at h ⊢
  rcases hstate with rfl | rfl | rfl <;> simp only [charge] <;> omega

theorem spent_charge (hvalid : isValidTransition state newState = true) :
    (a.charge state T).spent newState T = a.spent state T := by
  cases state with
  | running =>
    have hne : newState ≠ .running := by
      rintro rfl
      cases hvalid
    simp [charge, spent, hne]
  | _ => simp [charge, spent]

/-- The counters of a control block are those of the account, as far as they go. -/
structure Records (timing : ProcessTiming) (a : Account) : Prop where
  cpu : timing.totalCpuTime = a.cpu % 2 ^ 64
  wait : timing.totalWaitTime = a.wait % 2 ^ 64
  blocked : timing.totalBlockedTime = a.blocked % 2 ^ 64
  last : timing.lastStateChange = a.last % 2 ^ 64

theorem Records.setState {pcb pcb' : Pcb} (h : Records pcb.timing a) (hlast : a.last ≤ T)
    (hset : pcb.setState newState (T % 2 ^ 64) = some pcb') :
    Records pcb'.timing (a.charge pcb.state T) ∧ pcb'.state = newState ∧
      isValidTransition pcb.state newState = true := by
  obtain ⟨hvalid, hstate, hcpu, hwait, hblocked, hchange⟩ := Pcb.setState_eq_some hset
  have helapsed : tickSub (T % 2 ^ 64) pcb.timing.lastStateChange = (T - a.last) % 2 ^ 64 := by
    rw [h.last]
    exact tickSub_mod hlast
  rw [helapsed] at hcpu hwait hblocked
  refine ⟨⟨hcpu.trans ?_, hwait.trans ?_, hblocked.trans ?_, ?_⟩, hstate, hvalid⟩
  · cases pcb.state <;> simp only [Pcb.account, charge, h.cpu, tickAdd_mod]
  · cases pcb.state <;> simp only [Pcb.account, charge, h.wait, tickAdd_mod]
  · cases pcb.state <;> simp only [Pcb.account, charge, h.blocked, tickAdd_mod]
  · rw [hchange, last_charge]

end Account

structure TimeBook where
  total : ℕ
  accounts : ProcessId → Account
  retired : ℕ

namespace TimeBook
variable {b b' b'' : TimeBook} {pcbs pcbs' pcbs'' : ProcessId → Pcb}
  {live live₁ live₂ : Finset ProcessId} {pid : ProcessId}

structure Keeps (b : TimeBook) (pcbs : ProcessId → Pcb) (live : Finset ProcessId) : Prop where
  records : ∀ pid ∈ live, Account.Records (pcbs pid).timing (b.accounts pid)
  balanced : ∀ pid ∈ live, (b.accounts pid).Balanced
  past : ∀ pid ∈ live, (b.accounts pid).last ≤ b.total
  total : b.total = b.retired + ∑ pid ∈ live, (b.accounts pid).spent (pcbs pid).state b.total

theorem Keeps.last_le (h : b.Keeps pcbs live) (hpid : pid ∈ live) :
    (pcbs pid).timing.lastStateChange ≤ b.total := by
  rw [(h.records pid hpid).last]
  exact (Nat.mod_le _ _).trans (h.past pid hpid)

/-- From one book to a later one, while processes change their state or leave. The accounts of the
processes that leave are closed and go to the retired time. -/
structure Passes (b : TimeBook) (pcbs : ProcessId → Pcb) (live : Finset ProcessId)
    (b' : TimeBook) (pcbs' : ProcessId → Pcb) (live₁ : Finset ProcessId) : Prop where
  keeps : b'.Keeps pcbs' live₁
  subset : live₁ ⊆ live
  pcbs_eq : ∀ pid ∉ live, pcbs' pid = pcbs pid
  accounts_eq : ∀ pid ∉ live, b'.accounts pid = b.accounts pid
  admitted_eq : ∀ pid, (b'.accounts pid).admitted = (b.accounts pid).admitted
  closed : ∀ pid ∈ live \ live₁, (pcbs' pid).timing.totalCpuTime = (b'.accounts pid).cpu % 2 ^ 64
  retired_eq : b'.retired = b.retired + ∑ pid ∈ live \ live₁, (b'.accounts pid).cpu

theorem Passes.refl (h : b.Keeps pcbs live) : Passes b pcbs live b pcbs live :=
  ⟨h, subset_rfl, fun _ _ => rfl, fun _ _ => rfl, fun _ => rfl, by simp, by simp⟩

theorem Passes.trans (h : Passes b pcbs live b' pcbs' live₁)
    (h' : Passes b' pcbs' live₁ b'' pcbs'' live₂) : Passes b pcbs live b'' pcbs'' live₂ := by
  have hleft : ∀ pid ∉ live, pid ∉ live₁ := fun pid hpid hin => hpid (h.subset hin)
  refine ⟨h'.keeps, h'.subset.trans h.subset, ?_, ?_, ?_, ?_, ?_⟩
  · intro pid hpid
    rw [h'.pcbs_eq pid (hleft pid hpid), h.pcbs_eq pid hpid]
  · intro pid hpid
    rw [h'.accounts_eq pid (hleft pid hpid), h.accounts_eq pid hpid]
  · intro pid
    rw [h'.admitted_eq, h.admitted_eq]
  · intro pid hpid
    obtain ⟨hin, hout⟩ := Finset.mem_sdiff.mp hpid
    by_cases hmid : pid ∈ live₁
    · exact h'.closed pid (Finset.mem_sdiff.mpr ⟨hmid, hout⟩)
    · rw [h'.pcbs_eq pid hmid, h'.accounts_eq pid hmid]
      exact h.closed pid (Finset.mem_sdiff.mpr ⟨hin, hmid⟩)
  · -- a process leaves in the first part or in the second
    have hsplit : live \ live₂ = (live \ live₁) ∪ (live₁ \ live₂) := by
      ext pid
      have hle := @h.subset pid
      have hle' := @h'.subset pid
      simp only [Finset.mem_sdiff, Finset.mem_union]
      tauto
    have hdisjoint : Disjoint (live \ live₁) (live₁ \ live₂) := by
      apply Finset.disjoint_left.mpr
      intro pid hpid hpid'
      exact (Finset.mem_sdiff.mp hpid).2 (Finset.mem_sdiff.mp hpid').1
    have hfirst : ∑ pid ∈ live \ live₁, (b''.accounts pid).cpu =
        ∑ pid ∈ live \ live₁, (b'.accounts pid).cpu := by
      apply Finset.sum_congr rfl
      intro pid hpid
      rw [h'.accounts_eq pid (Finset.mem_sdiff.mp hpid).2]
    rw [h'.retired_eq, h.retired_eq, hsplit, Finset.sum_union hdisjoint, hfirst, Nat.add_assoc]

def charge (b : TimeBook) (pid : ProcessId) (state : ProcessState) : TimeBook :=
  { b with accounts := update b.accounts pid ((b.accounts pid).charge state b.total) }

def retire (b : TimeBook) (pid : ProcessId) : TimeBook :=
  { b with retired := b.retired + (b.accounts pid).cpu }

def advance (b : TimeBook) (n : ℕ) : TimeBook := { b with total := b.total + n }

def openAccount (b : TimeBook) (pid : ProcessId) : TimeBook :=
  { b with accounts := update b.accounts pid (Account.opened b.total) }

section Fields
variable (b : TimeBook) (pid : ProcessId) (state : ProcessState) (n : ℕ)

@[simp] theorem charge_total : (b.charge pid state).total = b.total := rfl
@[simp] theorem charge_retired : (b.charge pid state).retired = b.retired := rfl
@[simp] theorem charge_accounts : (b.charge pid state).accounts =
    update b.accounts pid ((b.accounts pid).charge state b.total) := rfl
@[simp] theorem retire_total : (b.retire pid).total = b.total := rfl
@[simp] theorem retire_retired : (b.retire pid).retired = b.retired + (b.accounts pid).cpu := rfl
@[simp] theorem retire_accounts : (b.retire pid).accounts = b.accounts := rfl
@[simp] theorem advance_total : (b.advance n).total = b.total + n := rfl
@[simp] theorem advance_retired : (b.advance n).retired = b.retired := rfl
@[simp] theorem advance_accounts : (b.advance n).accounts = b.accounts := rfl
@[simp] theorem openAccount_total : (b.openAccount pid).total = b.total := rfl
@[simp] theorem openAccount_retired : (b.openAccount pid).retired = b.retired := rfl
@[simp] theorem openAccount_accounts : (b.openAccount pid).accounts =
    update b.accounts pid (Account.opened b.total) := rfl

end Fields

theorem Keeps.change (h : b.Keeps pcbs live) (hpid : pid ∈ live)
    (hcharged : (pcbs pid).state.Charged) {newState : ProcessState} {pcb : Pcb}
    (hset : (pcbs pid).setState newState (b.total % 2 ^ 64) = some pcb) :
    Passes b pcbs live (b.charge pid (pcbs pid).state) (update pcbs pid pcb) live := by
  obtain ⟨hrecords, hstate, hvalid⟩ := (h.records pid hpid).setState (h.past pid hpid) hset
  have hne : ∀ q ∉ live, q ≠ pid := fun q hq heq => hq (heq ▸ hpid)
  refine ⟨⟨?_, ?_, ?_, ?_⟩, subset_rfl, ?_, ?_, ?_, by simp, by simp⟩
  · intro q hq
    by_cases hqp : q = pid
    · simpa [hqp] using hrecords
    · simpa [hqp] using h.records q hq
  · intro q hq
    by_cases hqp : q = pid
    · simpa [hqp] using Account.balanced_charge (h.balanced pid hpid) (h.past pid hpid) hcharged
    · simpa [hqp] using h.balanced q hq
  · intro q hq
    by_cases hqp : q = pid
    · simp [hqp]
    · simpa [hqp] using h.past q hq
  · refine h.total.trans (congrArg (b.retired + ·) (Finset.sum_congr rfl fun q hq => ?_))
    by_cases hqp : q = pid
    · simpa [hqp, hstate] using (Account.spent_charge hvalid).symm
    · simp [hqp]
  · intro q hq
    simp [hne q hq]
  · intro q hq
    simp [hne q hq]
  · intro q
    by_cases hqp : q = pid
    · simp [hqp]
    · simp [hqp]

theorem Keeps.erase (h : b.Keeps pcbs live) (hpid : pid ∈ live)
    (hstate : (pcbs pid).state ≠ .running) :
    Passes b pcbs live (b.retire pid) pcbs (live.erase pid) := by
  have hsdiff : live \ live.erase pid = {pid} := Finset.sdiff_erase_self hpid
  refine ⟨⟨?_, ?_, ?_, ?_⟩, Finset.erase_subset pid live, fun _ _ => rfl, fun _ _ => rfl,
    fun _ => rfl, ?_, ?_⟩
  · exact fun q hq => h.records q (Finset.mem_of_mem_erase hq)
  · exact fun q hq => h.balanced q (Finset.mem_of_mem_erase hq)
  · exact fun q hq => h.past q (Finset.mem_of_mem_erase hq)
  · have hspent : (b.accounts pid).spent (pcbs pid).state b.total = (b.accounts pid).cpu := by
      simp [Account.spent, hstate]
    have htotal := h.total
    rw [← Finset.add_sum_erase live _ hpid, hspent, ← Nat.add_assoc] at htotal
    exact htotal
  · intro q hq
    rw [hsdiff, Finset.mem_singleton] at hq
    rw [hq]
    exact (h.records pid hpid).cpu
  · rw [hsdiff, Finset.sum_singleton]
    rfl

theorem Keeps.advance (h : b.Keeps pcbs live) (hpid : pid ∈ live)
    (hrunning : (pcbs pid).state = .running)
    (hunique : ∀ q ∈ live, (pcbs q).state = .running → q = pid) (n : ℕ) :
    Passes b pcbs live (b.advance n) pcbs live := by
  refine ⟨⟨h.records, h.balanced, ?_, ?_⟩, subset_rfl, fun _ _ => rfl, fun _ _ => rfl,
    fun _ => rfl, by simp, by simp⟩
  · intro q hq
    exact (h.past q hq).trans (Nat.le_add_right _ n)
  · have hpast := h.past pid hpid
    have hself : (b.accounts pid).spent (pcbs pid).state (b.total + n) =
        (b.accounts pid).spent (pcbs pid).state b.total + n := by
      simp only [Account.spent, hrunning, ↓reduceIte]
      omega
    have hothers : ∑ q ∈ live.erase pid, (b.accounts q).spent (pcbs q).state (b.total + n) =
        ∑ q ∈ live.erase pid, (b.accounts q).spent (pcbs q).state b.total := by
      apply Finset.sum_congr rfl
      intro q hq
      have hq' : (pcbs q).state ≠ .running := by
        intro hrun
        exact Finset.ne_of_mem_erase hq (hunique q (Finset.mem_of_mem_erase hq) hrun)
      simp [Account.spent, hq']
    have htotal := h.total
    rw [← Finset.add_sum_erase live _ hpid] at htotal ⊢
    simp only [advance_total, advance_retired, advance_accounts, hself, hothers]
    omega

theorem Keeps.openAccount (h : b.Keeps pcbs live) (hpid : pid ∉ live) {pcb : Pcb}
    (hrecords : Account.Records pcb.timing (Account.opened b.total)) :
    (b.openAccount pid).Keeps (update pcbs pid pcb) (insert pid live) := by
  have hne : ∀ q ∈ live, q ≠ pid := fun q hq heq => hpid (heq ▸ hq)
  refine ⟨?_, ?_, ?_, ?_⟩
  · intro q hq
    rcases Finset.mem_insert.mp hq with rfl | hq
    · simpa using hrecords
    · simpa [hne q hq] using h.records q hq
  · intro q hq
    rcases Finset.mem_insert.mp hq with rfl | hq
    · simp [Account.Balanced, Account.opened]
    · simpa [hne q hq] using h.balanced q hq
  · intro q hq
    rcases Finset.mem_insert.mp hq with rfl | hq
    · simp [Account.opened]
    · simpa [hne q hq] using h.past q hq
  · have hself : (Account.opened b.total).spent pcb.state b.total = 0 := by
      simp [Account.spent, Account.opened]
    have hothers : ∑ q ∈ live, (update b.accounts pid (Account.opened b.total) q).spent
        (update pcbs pid pcb q).state b.total =
        ∑ q ∈ live, (b.accounts q).spent (pcbs q).state b.total := by
      apply Finset.sum_congr rfl
      intro q hq
      simp [hne q hq]
    rw [Finset.sum_insert hpid]
    simp only [openAccount_total, openAccount_retired, openAccount_accounts, Function.update_self,
      hself, hothers, Nat.zero_add]
    exact h.total

end TimeBook
end Contur
