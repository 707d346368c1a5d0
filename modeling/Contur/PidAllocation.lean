import Mathlib.Data.Finset.Card
import Contur.Kernel

/-!
# The search for a free pid

The kernel tries as many pids as there may be processes, one after the other from the
counter on. The counter wraps around at its 32 bits and leaves out the invalid pid, so the
pids are tried in a circle of `2 ^ 32 - 1`. No pid is tried twice, and if all of them are
live there are as many live processes as pids have been tried.
-/

namespace Contur.Kernel
variable {P : ReplacementPolicy} {σ : Type} {c i j n : ℕ}

def probe (c i : ℕ) : ℕ := (c - 1 + i) % (2 ^ 32 - 1) + 1

def firstProbe (nextPid : ℕ) : ℕ := if nextPid = invalidPid then 1 else nextPid

theorem firstProbe_valid {nextPid : ℕ} (h : nextPid < 2 ^ 32) :
    0 < firstProbe nextPid ∧ firstProbe nextPid < 2 ^ 32 := by
  unfold firstProbe
  split_ifs with hzero
  · exact ⟨Nat.one_pos, by decide⟩
  · exact ⟨Nat.pos_of_ne_zero hzero, h⟩

theorem probe_valid (c i : ℕ) : 0 < probe c i ∧ probe c i < 2 ^ 32 := by
  have hmod : (c - 1 + i) % (2 ^ 32 - 1) < 2 ^ 32 - 1 := Nat.mod_lt _ (by decide)
  unfold probe
  omega

theorem probe_zero (h : 0 < c ∧ c < 2 ^ 32) : probe c 0 = c := by
  unfold probe
  omega

theorem firstProbe_succ (h : 0 < c ∧ c < 2 ^ 32) : firstProbe ((c + 1) % 2 ^ 32) = probe c 1 := by
  unfold firstProbe probe
  by_cases hlast : c + 1 = 2 ^ 32
  · have hcircle : c - 1 + 1 = 2 ^ 32 - 1 := by omega
    rw [hlast, hcircle, Nat.mod_self, Nat.mod_self]
    rfl
  · have hnext : (c + 1) % 2 ^ 32 = c + 1 := Nat.mod_eq_of_lt (by omega)
    have hmod : (c - 1 + 1) % (2 ^ 32 - 1) = c := by
      rw [Nat.sub_add_cancel h.1]
      exact Nat.mod_eq_of_lt (by omega)
    rw [hnext, hmod]
    exact if_neg (Nat.succ_ne_zero c)

theorem probe_probe (c i j : ℕ) : probe (probe c i) j = probe c (i + j) := by
  unfold probe
  rw [Nat.add_sub_cancel, Nat.mod_add_mod, Nat.add_assoc]

theorem probe_injOn (c : ℕ) (hi : i < 2 ^ 32 - 1) (hj : j < 2 ^ 32 - 1)
    (h : probe c i = probe c j) : i = j := by
  have hmod : (c - 1 + i) % (2 ^ 32 - 1) = (c - 1 + j) % (2 ^ 32 - 1) := Nat.succ.inj h
  omega

theorem findPid_spec (hasProcess : ProcessId → Bool) (n : ℕ) {nextPid : ℕ}
    (h : nextPid < 2 ^ 32) :
    (∃ i < n, hasProcess (probe (firstProbe nextPid) i) = false ∧
        (findPid hasProcess n nextPid).1 = probe (firstProbe nextPid) i) ∨
      ((findPid hasProcess n nextPid).1 = invalidPid ∧
        ∀ i < n, hasProcess (probe (firstProbe nextPid) i) = true) := by
  induction n generalizing nextPid with
  | zero => exact Or.inr ⟨rfl, fun i hi => absurd hi (Nat.not_lt_zero i)⟩
  | succ n ih =>
    have hvalid := firstProbe_valid h
    have hstart := probe_zero hvalid
    have hstep := firstProbe_succ hvalid
    have hunfold : findPid hasProcess (n + 1) nextPid =
        if hasProcess (firstProbe nextPid) then
          findPid hasProcess n ((firstProbe nextPid + 1) % 2 ^ 32)
        else (firstProbe nextPid, (firstProbe nextPid + 1) % 2 ^ 32) := rfl
    rw [hunfold]
    generalize firstProbe nextPid = c at hvalid hstart hstep ⊢
    cases hlive : hasProcess c with
    | false => exact Or.inl ⟨0, Nat.succ_pos n, by rw [hstart, hlive], hstart.symm⟩
    | true =>
      rw [if_pos rfl]
      have hrest := @ih ((c + 1) % 2 ^ 32) (Nat.mod_lt _ (by decide))
      rw [hstep] at hrest
      simp only [probe_probe] at hrest
      rcases hrest with ⟨i, hi, hfree, hfound⟩ | ⟨hnone, hall⟩
      · rw [Nat.add_comm 1 i] at hfree hfound
        exact Or.inl ⟨i + 1, Nat.succ_lt_succ hi, hfree, hfound⟩
      · refine Or.inr ⟨hnone, fun i hi => ?_⟩
        cases i with
        | zero => rw [hstart, hlive]
        | succ i =>
          rw [Nat.add_comm i 1]
          exact hall i (Nat.lt_of_succ_lt_succ hi)

theorem le_card_of_probes {live : Finset ProcessId} (hn : n ≤ 2 ^ 32 - 1)
    (h : ∀ i < n, probe c i ∈ live) : n ≤ live.card := by
  have hinj : Set.InjOn (probe c) (Finset.range n) := by
    intro i hi j hj heq
    rw [Finset.coe_range, Set.mem_Iio] at hi hj
    exact probe_injOn c (by omega) (by omega) heq
  calc n = ((Finset.range n).image (probe c)).card := by
        rw [Finset.card_image_of_injOn hinj, Finset.card_range]
    _ ≤ live.card := by
        apply Finset.card_le_card
        intro pid hpid
        obtain ⟨i, hi, rfl⟩ := Finset.mem_image.mp hpid
        exact h i (Finset.mem_range.mp hi)

/-- While the limit allows one more process, the search finds a pid that is free. -/
theorem allocatePid_finds_free (k : Kernel P σ) (hnext : k.nextPid < 2 ^ 32) :
    let live := k.dispatcher.processes.keys.toFinset
    (live.card < maxProcesses → k.allocatePid.1 ≠ invalidPid ∧ k.allocatePid.1 ∉ live) ∧
      (k.allocatePid.1 = invalidPid → maxProcesses ≤ live.card) := by
  intro live
  have hlive : ∀ pid, k.dispatcher.hasProcess pid = true ↔ pid ∈ live := by
    intro pid
    simp [Dispatcher.hasProcess, live, AList.mem_keys]
  have hsearch : k.allocatePid.1 = (findPid k.dispatcher.hasProcess maxProcesses k.nextPid).1 := rfl
  rw [hsearch]
  rcases findPid_spec k.dispatcher.hasProcess maxProcesses hnext with
    ⟨i, -, hfree, hfound⟩ | ⟨hnone, hall⟩
  · have hvalid := (probe_valid (firstProbe k.nextPid) i).1
    rw [hfound]
    refine ⟨fun _ => ⟨Nat.pos_iff_ne_zero.mp hvalid, ?_⟩, fun hzero => absurd hzero hvalid.ne'⟩
    rw [← hlive, hfree]
    exact Bool.false_ne_true
  · have hfull : maxProcesses ≤ live.card :=
      le_card_of_probes (by decide) fun i hi => (hlive _).mp (hall i hi)
    exact ⟨fun hless => absurd hfull (Nat.not_le.mpr hless), fun _ => hfull⟩

def atWrap : Kernel fifoReplacement Unit :=
  let k := create .fcfs () (VirtualMemory.init (Mmu.init fifoReplacement (.ofSize 0) id) 0) 1
  { k with
    nextPid := 2 ^ 32 - 1
    dispatcher := { k.dispatcher with
      processes := ((∅ : AList fun _ => ProcessImage).insert 1 { code := [] }).insert (2 ^ 32 - 1)
        { code := [] } } }

theorem allocatePid_after_wrap :
    let live := atWrap.dispatcher.processes.keys.toFinset
    atWrap.allocatePid.1 = 2 ∧ atWrap.allocatePid.1 ≠ invalidPid ∧ atWrap.allocatePid.1 ∉ live := by
  intro live
  exact ⟨by decide +kernel, (allocatePid_finds_free atWrap (by decide)).1 (by decide +kernel)⟩

end Contur.Kernel
