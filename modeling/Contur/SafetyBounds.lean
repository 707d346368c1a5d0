import Contur.SafetyCheck

/-!
# When the banker's amounts wrap around

The validation bounds each allocation by its maximum, so no need is negative, but nothing
bounds what the finished processes leave behind together. The same check on natural
numbers stands beside the one of the source. No addition wraps around exactly if no group
of processes that can finish in some order leaves `2 ^ 32` or more of a resource at hand.
-/

namespace Contur
namespace DeadlockDetector
open SafeOrder (Safe)

namespace Unbounded

def canFinish (resourceCount : ℕ) (row : Row) (work : List ℕ) : Bool :=
  (List.range resourceCount).all fun r => !decide (need row r > work.getD r 0)

def reclaim (row : Row) (work : List ℕ) : List ℕ :=
  work.mapIdx fun r amount => amount + held row r

structure Pass where
  work : List ℕ
  finishCount : ℕ
  progressed : Bool

def pass (resourceCount : ℕ) : List (Bool × Row) → Pass → List (Bool × Row) × Pass
  | [], p => ([], p)
  | (finished, row) :: rows, p =>
    if !finished && canFinish resourceCount row p.work then
      let (rows, p) := pass resourceCount rows ⟨reclaim row p.work, p.finishCount + 1, true⟩
      ((true, row) :: rows, p)
    else
      let (rows, p) := pass resourceCount rows p
      ((finished, row) :: rows, p)

def passes (resourceCount : ℕ) : ℕ → List (Bool × Row) → List ℕ → ℕ → Option ℕ
  | 0, _, _, _ => none
  | fuel + 1, rows, work, finishCount =>
    let (rows, p) := pass resourceCount rows ⟨work, finishCount, false⟩
    if !p.progressed then some p.finishCount
    else passes resourceCount fuel rows p.work p.finishCount

def isSafeState (current maximum : List ResourceAllocation) (available : List UInt32) :
    Option Bool :=
  if current.isEmpty then some true
  else if available.length = 0 then some true
  else
    (passes available.length (current.length + 1)
      ((current.zip maximum).map fun row => (false, row)) (available.map UInt32.toNat) 0).map
        fun finishCount => finishCount = current.length

end Unbounded

def NeedExact (resourceCount : ℕ) (row : Row) : Prop :=
  ∀ r < resourceCount, amounts row.1.resources r ≤ amounts row.2.resources r

def ReclaimExact (resourceCount : ℕ) (row : Row) (work : List UInt32) : Prop :=
  ∀ r < resourceCount, amounts work r + amounts row.1.resources r < 2 ^ 32

def PassExact (resourceCount : ℕ) : List (Bool × Row) → Pass → Prop
  | [], _ => True
  | (finished, row) :: rows, p =>
    if finished then PassExact resourceCount rows p
    else NeedExact resourceCount row ∧
      if canFinish resourceCount row p.work then
        ReclaimExact resourceCount row p.work ∧
          PassExact resourceCount rows ⟨reclaim row p.work, p.finishCount + 1, true⟩
      else PassExact resourceCount rows p

def PassesExact (resourceCount : ℕ) : ℕ → List (Bool × Row) → List UInt32 → ℕ → Prop
  | 0, _, _, _ => True
  | fuel + 1, rows, work, finishCount =>
    let result := pass resourceCount rows ⟨work, finishCount, false⟩
    PassExact resourceCount rows ⟨work, finishCount, false⟩ ∧
      (result.2.progressed = true →
        PassesExact resourceCount fuel result.1 result.2.work result.2.finishCount)

structure Validated (current maximum : List ResourceAllocation) (available : List UInt32) :
    Prop where
  rows : current.length = maximum.length
  check : checkRows available.length (current.zip maximum) [] = true
  within : (current.zip maximum).all (withinMaximum available.length) = true

/-- All operations that the check makes for a validated input stay in the range. -/
def RunExact (current maximum : List ResourceAllocation) (available : List UInt32) : Prop :=
  PassesExact available.length (current.length + 1)
    ((current.zip maximum).map fun row => (false, row)) available 0

/-- Every group of processes that can finish in some order leaves less than `2 ^ 32` of each
resource at hand. -/
def GroupsBounded (rows : Multiset Row) (available : List UInt32) : Prop :=
  ∀ group ≤ rows, Safe need held (amounts available) group →
    ∀ r, amounts available r + (group.map held).sum r < 2 ^ 32

theorem lengths_of_checkRows {resourceCount : ℕ} {rows : List Row} {indexByPid : List ProcessId}
    (h : checkRows resourceCount rows indexByPid = true) :
    ∀ row ∈ rows, row.1.resources.length = resourceCount ∧
      row.2.resources.length = resourceCount := by
  induction rows generalizing indexByPid with
  | nil => simp
  | cons row rows ih =>
    unfold checkRows at h
    split_ifs at h with hpid hsame hlength hseen
    rw [not_or, not_not, not_not] at hlength
    exact List.forall_mem_cons.mpr ⟨hlength, ih h⟩

theorem Validated.fits {current maximum : List ResourceAllocation} {available : List UInt32}
    (h : Validated current maximum available) :
    ∀ row ∈ current.zip maximum, RowFits available.length row := by
  intro row hrow
  obtain ⟨hcurrent, hmaximum⟩ := lengths_of_checkRows h.check row hrow
  refine ⟨hcurrent, hmaximum, fun r => ?_⟩
  by_cases hr : r < available.length
  · have hwithin := List.all_eq_true.mp h.within row hrow
    simp only [withinMaximum, List.all_eq_true, List.mem_range, Bool.not_eq_true',
      decide_eq_false_iff_not, gt_iff_lt, UInt32.not_lt, UInt32.le_iff_toNat_le] at hwithin
    exact hwithin r hr
  · rw [amounts_of_length_le (by omega)]
    exact Nat.zero_le _

theorem Validated.entries_fit {current maximum : List ResourceAllocation} {available : List UInt32}
    (h : Validated current maximum available) :
    ∀ entry ∈ (current.zip maximum).map fun row =>
      (false, row), RowFits available.length entry.2 := by
  intro entry hentry
  obtain ⟨row, hrow, rfl⟩ := List.mem_map.mp hentry
  exact h.fits row hrow

theorem Validated.card_lt {current maximum : List ResourceAllocation} {available : List UInt32}
    (h : Validated current maximum available) :
    (pending ((current.zip maximum).map fun row => (false, row))).card < current.length + 1 := by
  simp [pending_map_false, ← h.rows]

theorem RowFits.needExact {resourceCount : ℕ} {row : Row} (h : RowFits resourceCount row) :
    NeedExact resourceCount row := fun r _ => h.within r

structure Reached (available work : List UInt32) (done : Multiset Row) : Prop where
  length : work.length = available.length
  amounts : amounts work = amounts available + (done.map held).sum
  safe : Safe need held (DeadlockDetector.amounts available) done

variable {available : List UInt32}

theorem reached_zero (available : List UInt32) : Reached available available 0 :=
  ⟨rfl, by simp, SafeOrder.safe_zero⟩

theorem Reached.cons_safe {work : List UInt32} {done : Multiset Row} {row : Row}
    (h : Reached available work done) (hrow : RowFits available.length row)
    (hcan : canFinish available.length row work = true) :
    Safe need held (DeadlockDetector.amounts available) (row ::ₘ done) := by
  apply h.safe.cons
  rw [← h.amounts]
  exact (canFinish_iff hrow work).mp hcan

theorem ReclaimExact.forall {work : List UInt32} {row : Row} (hrow : RowFits available.length row)
    (hlength : work.length = available.length) (h : ReclaimExact available.length row work)
      (r : ℕ) :
    DeadlockDetector.amounts work r + held row r < 2 ^ 32 := by
  by_cases hr : r < available.length
  · exact h r hr
  · rw [held, amounts_of_length_le (by omega), amounts_of_length_le (by rw [hrow.current]; omega)]
    decide

theorem Reached.reclaim {work : List UInt32} {done : Multiset Row} {row : Row}
    (h : Reached available work done) (hrow : RowFits available.length row)
    (hcan : canFinish available.length row work = true)
    (hexact : ReclaimExact available.length row work) :
    Reached available (reclaim row work) (row ::ₘ done) := by
  refine ⟨by simpa [DeadlockDetector.reclaim] using h.length, ?_, h.cons_safe hrow hcan⟩
  rw [amounts_reclaim hrow h.length (hexact.forall hrow h.length), h.amounts, Multiset.map_cons,
    Multiset.sum_cons, add_assoc, add_comm (held row)]

theorem GroupsBounded.reclaimExact {rows done : Multiset Row} {work : List UInt32} {row : Row}
    (hbound : GroupsBounded rows available) (h : Reached available work done)
    (hrow : RowFits available.length row) (hcan : canFinish available.length row work = true)
    (hle : row ::ₘ done ≤ rows) : ReclaimExact available.length row work := by
  intro r _
  have hgroup := hbound _ hle (h.cons_safe hrow hcan) r
  rw [Multiset.map_cons, Multiset.sum_cons, Pi.add_apply] at hgroup
  rw [h.amounts, Pi.add_apply]
  change _ + held row r < _
  omega

structure PassReached (available : List UInt32) (done : Multiset Row)
    (rows rows' : List (Bool × Row))
    (p p' : Pass) (finished : Multiset Row) : Prop where
  reached : Reached available p'.work (finished + done)
  fits : ∀ entry ∈ rows', RowFits available.length entry.2
  split : pending rows = finished + pending rows'
  progress : p'.progressed = true ↔ p.progressed = true ∨ finished ≠ 0
  stuck : finished = 0 → p'.work = p.work ∧ ∀ row ∈ pending rows, ¬ need row ≤ amounts p.work

theorem PassReached.card_lt {done finished : Multiset Row} {rows rows' : List (Bool × Row)}
    {p p' : Pass}
    (h : PassReached available done rows rows' p p' finished) (hsome : finished ≠ 0) :
    (pending rows').card < (pending rows).card := by
  rw [h.split, Multiset.card_add]
  exact Nat.lt_add_of_pos_left (Multiset.card_pos.mpr hsome)

theorem pass_reached {rows : List (Bool × Row)} {p : Pass} {done : Multiset Row}
    (hfits : ∀ entry ∈ rows, RowFits available.length entry.2)
      (hreached : Reached available p.work done)
    (hexact : PassExact available.length rows p) :
    ∃ finished, PassReached available done rows (pass available.length rows p).1 p
      (pass available.length rows p).2 finished := by
  induction rows generalizing p done with
  | nil => exact
      ⟨0, by simpa [pass] using hreached, by simp [pass], rfl, by simp [pass], by simp [pass]⟩
  | cons entry rows ih =>
    obtain ⟨finished, row⟩ := entry
    obtain ⟨hrow, hrest⟩ := List.forall_mem_cons.mp hfits
    unfold PassExact at hexact
    unfold pass
    cases finished with
    | true =>
      obtain ⟨finished, hnext⟩ := ih hrest hreached hexact
      simp only [Bool.not_true, Bool.false_and, Bool.false_eq_true, ↓reduceIte]
      exact ⟨finished, hnext.reached, List.forall_mem_cons.mpr ⟨hrow, hnext.fits⟩, hnext.split,
        hnext.progress, hnext.stuck⟩
    | false =>
      simp only [Bool.false_eq_true, ↓reduceIte] at hexact
      simp only [Bool.not_false, Bool.true_and]
      by_cases hcan : canFinish available.length row p.work = true
      · simp only [hcan, ↓reduceIte] at hexact ⊢
        obtain ⟨-, hreclaim, hexact⟩ := hexact
        obtain ⟨finished, hnext⟩ := ih hrest (hreached.reclaim hrow hcan hreclaim) hexact
        refine ⟨row ::ₘ finished, ?_, List.forall_mem_cons.mpr ⟨hrow, hnext.fits⟩, ?_, ?_, ?_⟩
        · have hdone := hnext.reached
          rwa [Multiset.add_cons, ← Multiset.cons_add] at hdone
        · rw [pending_cons_false, pending_cons_true, hnext.split, Multiset.cons_add]
        · exact iff_of_true (hnext.progress.mpr (Or.inl rfl)) (Or.inr (Multiset.cons_ne_zero))
        · exact fun hzero => absurd hzero (Multiset.cons_ne_zero)
      · simp only [hcan, Bool.false_eq_true, ↓reduceIte] at hexact ⊢
        obtain ⟨finished, hnext⟩ := ih hrest hreached hexact.2
        refine ⟨finished, hnext.reached, List.forall_mem_cons.mpr ⟨hrow, hnext.fits⟩, ?_,
          hnext.progress, fun hzero => ?_⟩
        · rw [pending_cons_false, pending_cons_false, hnext.split, Multiset.add_cons]
        · obtain ⟨hwork, hstuck⟩ := hnext.stuck hzero
          refine ⟨hwork, fun other hother => ?_⟩
          rw [pending_cons_false] at hother
          rcases Multiset.mem_cons.mp hother with rfl | hother
          · exact fun hneed => hcan ((canFinish_iff hrow p.work).mpr hneed)
          · exact hstuck other hother

theorem passExact_of_bounded {all : Multiset Row} (hbound : GroupsBounded all available)
    {rows : List (Bool × Row)} {p : Pass} {done : Multiset Row}
    (hfits : ∀ entry ∈ rows, RowFits available.length entry.2)
      (hreached : Reached available p.work done)
    (hle : done + pending rows ≤ all) : PassExact available.length rows p := by
  induction rows generalizing p done with
  | nil => trivial
  | cons entry rows ih =>
    obtain ⟨finished, row⟩ := entry
    obtain ⟨hrow, hrest⟩ := List.forall_mem_cons.mp hfits
    unfold PassExact
    cases finished with
    | true => exact ih hrest hreached hle
    | false =>
      simp only [Bool.false_eq_true, ↓reduceIte]
      refine ⟨hrow.needExact, ?_⟩
      rw [pending_cons_false, Multiset.add_cons, ← Multiset.cons_add] at hle
      split_ifs with hcan
      · have hreclaim : ReclaimExact available.length row p.work := by
          apply hbound.reclaimExact hreached hrow hcan
          exact (Multiset.le_add_right _ _).trans hle
        exact ⟨hreclaim, ih hrest (hreached.reclaim hrow hcan hreclaim) hle⟩
      · apply ih hrest hreached
        apply le_trans _ hle
        exact Multiset.add_le_add_right (Multiset.le_cons_self done row)

theorem passesExact_of_bounded {all : Multiset Row} (hbound : GroupsBounded all available)
    {fuel : ℕ}
    {rows : List (Bool × Row)} {work : List UInt32} {finishCount : ℕ} {done : Multiset Row}
    (hfits : ∀ entry ∈ rows, RowFits available.length entry.2)
      (hreached : Reached available work done)
    (hle : done + pending rows ≤ all) :
    PassesExact available.length fuel rows work finishCount := by
  induction fuel generalizing rows work finishCount done with
  | zero => trivial
  | succ fuel ih =>
    have hexact : PassExact available.length rows ⟨work, finishCount, false⟩ :=
      passExact_of_bounded hbound hfits hreached hle
    obtain ⟨finished, hpass⟩ := pass_reached hfits hreached hexact
    refine ⟨hexact, fun _ => ih hpass.fits hpass.reached ?_⟩
    rw [hpass.split] at hle
    rwa [add_comm finished, add_assoc]

theorem stuck_of_passesExact {fuel : ℕ} {rows : List (Bool × Row)} {work : List UInt32}
    {finishCount : ℕ} {done : Multiset Row} (hfuel : (pending rows).card < fuel)
    (hfits : ∀ entry ∈ rows, RowFits available.length entry.2)
      (hreached : Reached available work done)
    (hexact : PassesExact available.length fuel rows work finishCount) :
    ∃ finalWork finalDone left, Reached available finalWork finalDone ∧
      finalDone + left = done + pending rows ∧ ∀ row ∈ left, ¬ need row ≤ amounts finalWork := by
  induction fuel generalizing rows work finishCount done with
  | zero => exact absurd hfuel (Nat.not_lt_zero _)
  | succ fuel ih =>
    obtain ⟨hexact, hnext⟩ := hexact
    obtain ⟨finished, hpass⟩ := pass_reached hfits hreached hexact
    by_cases hzero : finished = 0
    · exact ⟨work, done, pending rows, hreached, rfl, (hpass.stuck hzero).2⟩
    · have hprogressed := hpass.progress.mpr (Or.inr hzero)
      have hcard := hpass.card_lt hzero
      obtain ⟨finalWork, finalDone, left, hfinal, hsplit, hstuck⟩ :=
        ih (by omega) hpass.fits hpass.reached (hnext hprogressed)
      refine ⟨finalWork, finalDone, left, hfinal, ?_, hstuck⟩
      rw [hsplit, hpass.split, add_comm finished, add_assoc]

theorem sum_held_le {group rows : Multiset Row} (h : group ≤ rows) (r : ℕ) :
    (group.map held).sum r ≤ (rows.map held).sum r := by
  have hsum : (group.map held).sum ≤ (rows.map held).sum :=
    SafeOrder.sum_gain_le (fun _ _ => Nat.zero_le _) h
  exact hsum r

theorem passes_isSome_of_passesExact {fuel : ℕ} {rows : List (Bool × Row)} {work : List UInt32}
    {finishCount : ℕ} {done : Multiset Row} (hfuel : (pending rows).card < fuel)
    (hfits : ∀ entry ∈ rows, RowFits available.length entry.2)
      (hreached : Reached available work done)
    (hexact : PassesExact available.length fuel rows work finishCount) :
    (passes available.length fuel rows work finishCount).isSome := by
  induction fuel generalizing rows work finishCount done with
  | zero => exact absurd hfuel (Nat.not_lt_zero _)
  | succ fuel ih =>
    obtain ⟨hexact, hnext⟩ := hexact
    obtain ⟨finished, hpass⟩ := pass_reached hfits hreached hexact
    unfold passes
    dsimp only
    split_ifs with hprogressed
    · rfl
    · rw [Bool.not_eq_true', Bool.not_eq_false] at hprogressed
      have hsome := hpass.progress.mp hprogressed
      have hcard := hpass.card_lt (by simpa using hsome)
      exact ih (by omega) hpass.fits hpass.reached (hnext hprogressed)

theorem runExact_iff {current maximum : List ResourceAllocation}
    (h : Validated current maximum available) :
    RunExact current maximum available ↔
      GroupsBounded (current.zip maximum : List Row) available := by
  have hpending := pending_map_false (current.zip maximum)
  constructor
  · intro hexact group hle hsafe r
    obtain ⟨work, done, left, hreached, hsplit, hstuck⟩ :=
      stuck_of_passesExact h.card_lt h.entries_fit (reached_zero available) hexact
    rw [zero_add, hpending] at hsplit
    rw [hreached.amounts] at hstuck
    have hdone : group ≤ done := by
      apply hsafe.le_of_stuck (fun _ _ => Nat.zero_le _) _ hstuck
      rwa [hsplit]
    have hsum := sum_held_le hdone r
    have hwork : amounts work r < 2 ^ 32 := UInt32.toNat_lt _
    rw [hreached.amounts, Pi.add_apply] at hwork
    omega
  · intro hbound
    apply passesExact_of_bounded hbound h.entries_fit (reached_zero available)
    rw [zero_add, hpending]

def Pass.toUnbounded (p : Pass) : Unbounded.Pass :=
  ⟨p.work.map UInt32.toNat, p.finishCount, p.progressed⟩

theorem unbounded_canFinish_iff {row : Row} (h : RowFits available.length row)
    (work : List UInt32) :
    Unbounded.canFinish available.length row (work.map UInt32.toNat) = true ↔
      need row ≤ amounts work := by
  have hwork : ∀ r, (work.map UInt32.toNat).getD r 0 = amounts work r := by
    intro r
    rw [amounts, List.getD_eq_getElem?_getD, List.getD_eq_getElem?_getD, List.getElem?_map]
    cases work[r]? <;> rfl
  simp only [Unbounded.canFinish, List.all_eq_true, List.mem_range, Bool.not_eq_true',
    decide_eq_false_iff_not, gt_iff_lt, not_lt, hwork]
  constructor
  · intro hall r
    by_cases hr : r < available.length
    · exact hall r hr
    · rw [need, Pi.sub_apply, amounts_of_length_le (by rw [h.maximum]; omega), Nat.zero_sub]
      exact Nat.zero_le _
  · exact fun hle r _ => hle r

theorem unbounded_canFinish {row : Row} (h : RowFits available.length row) (work : List UInt32) :
    Unbounded.canFinish available.length row (work.map UInt32.toNat) =
      canFinish available.length row work := by
  rw [Bool.eq_iff_iff, unbounded_canFinish_iff h, canFinish_iff h]

theorem unbounded_reclaim {row : Row} {work : List UInt32}
    (hlength : work.length = available.length)
    (hexact : ReclaimExact available.length row work) :
    Unbounded.reclaim row (work.map UInt32.toNat) = (reclaim row work).map UInt32.toNat := by
  apply List.ext_getElem
  · simp [Unbounded.reclaim, reclaim]
  · intro r hr _
    have hwork : r < work.length := by simpa [Unbounded.reclaim] using hr
    have hsum := hexact r (by omega)
    simp only [amounts, List.getD_eq_getElem?_getD, List.getElem?_eq_getElem hwork,
      Option.getD_some] at hsum
    simp only [Unbounded.reclaim, reclaim, List.getElem_mapIdx, List.getElem_map, UInt32.toNat_add,
      held, amounts, List.getD_eq_getElem?_getD]
    exact (Nat.mod_eq_of_lt hsum).symm

theorem unbounded_pass {rows : List (Bool × Row)} {p : Pass}
    (hfits : ∀ entry ∈ rows, RowFits available.length entry.2)
    (hlength : p.work.length = available.length) (hexact : PassExact available.length rows p) :
    Unbounded.pass available.length rows p.toUnbounded =
      ((pass available.length rows p).1, (pass available.length rows p).2.toUnbounded) := by
  induction rows generalizing p with
  | nil => rfl
  | cons entry rows ih =>
    obtain ⟨finished, row⟩ := entry
    obtain ⟨hrow, hrest⟩ := List.forall_mem_cons.mp hfits
    unfold PassExact at hexact
    unfold pass Unbounded.pass
    rw [Pass.toUnbounded, unbounded_canFinish hrow]
    cases finished with
    | true =>
      have hnext := ih hrest hlength hexact
      simp only [Bool.not_true, Bool.false_and, Bool.false_eq_true, ↓reduceIte]
      rw [← Pass.toUnbounded, hnext]
    | false =>
      simp only [Bool.false_eq_true, ↓reduceIte] at hexact
      by_cases hcan : canFinish available.length row p.work = true
      · simp only [hcan, Bool.not_false, Bool.true_and, ↓reduceIte] at hexact ⊢
        obtain ⟨-, hreclaim, hexact⟩ := hexact
        have hnext := ih hrest (by simpa [reclaim] using hlength) hexact
        rw [unbounded_reclaim hlength hreclaim]
        rw [Pass.toUnbounded] at hnext
        rw [hnext]
      · simp only [hcan, Bool.false_eq_true, Bool.not_false, Bool.true_and, ↓reduceIte] at hexact ⊢
        have hnext := ih hrest hlength hexact.2
        rw [← Pass.toUnbounded, hnext]

theorem unbounded_passes {fuel : ℕ} {rows : List (Bool × Row)} {work : List UInt32}
    {finishCount : ℕ}
    {done : Multiset Row} (hfits : ∀ entry ∈ rows, RowFits available.length entry.2)
    (hreached : Reached available work done)
    (hexact : PassesExact available.length fuel rows work finishCount) :
    Unbounded.passes available.length fuel rows (work.map UInt32.toNat) finishCount =
      passes available.length fuel rows work finishCount := by
  induction fuel generalizing rows work finishCount done with
  | zero => rfl
  | succ fuel ih =>
    obtain ⟨hexact, hnext⟩ := hexact
    obtain ⟨finished, hpass⟩ := pass_reached hfits hreached hexact
    have hsame := unbounded_pass hfits hreached.length hexact
    rw [Pass.toUnbounded] at hsame
    unfold Unbounded.passes passes
    rw [hsame]
    dsimp only [Pass.toUnbounded]
    split_ifs with hprogressed
    · rfl
    · exact ih hpass.fits hpass.reached (hnext (by simpa using hprogressed))

theorem unbounded_isSafeState {current maximum : List ResourceAllocation}
    (h : Validated current maximum available) (hexact : RunExact current maximum available) :
    ∃ safe, isSafeState current maximum available = some safe ∧
      Unbounded.isSafeState current maximum available = some safe := by
  have hpasses := unbounded_passes h.entries_fit (reached_zero available) hexact
  have hsome := passes_isSome_of_passesExact h.card_lt h.entries_fit (reached_zero available) hexact
  obtain ⟨count, hcount⟩ := Option.isSome_iff_exists.mp hsome
  unfold isSafeState Unbounded.isSafeState
  rw [if_neg (not_not.mpr h.rows)]
  simp only [hpasses, hcount, h.check, h.within, Bool.not_true, Bool.false_eq_true, ↓reduceIte,
    Option.map_some]
  split_ifs
  all_goals exact ⟨_, rfl, rfl⟩

/-- The run of a validated input leaves the range nowhere, with the answer of the natural numbers,
exactly if no group of processes that can finish in some order leaves `2 ^ 32` of a resource. -/
theorem safe_state_exact_iff {current maximum : List ResourceAllocation} {available : List UInt32}
    (h : Validated current maximum available) :
    (RunExact current maximum available ∧
      ∃ safe, isSafeState current maximum available = some safe ∧
        Unbounded.isSafeState current maximum available = some safe) ↔
    ∀ group : Multiset Row, group ≤ (current.zip maximum : List Row) →
      Safe need held (amounts available) group →
      ∀ r, amounts available r + (group.map held).sum r < 2 ^ 32 := by
  rw [← GroupsBounded, ← runExact_iff h]
  exact and_iff_left_of_imp (unbounded_isSafeState h)

theorem safe_state_exact_small :
    RunExact [⟨1, [1]⟩, ⟨2, [0]⟩] [⟨1, [1]⟩, ⟨2, [1]⟩] [4] ∧
      isSafeState [⟨1, [1]⟩, ⟨2, [0]⟩] [⟨1, [1]⟩, ⟨2, [1]⟩] [4] = some true := by
  have hvalidated : Validated [⟨1, [1]⟩, ⟨2, [0]⟩] [⟨1, [1]⟩, ⟨2, [1]⟩] [4] :=
    ⟨rfl, by decide, by decide⟩
  have hbound : GroupsBounded ([(⟨1, [1]⟩, ⟨1, [1]⟩), (⟨2, [0]⟩, ⟨2, [1]⟩)] : List Row) [4] := by
    intro group hle _ r
    have hsum := sum_held_le hle r
    simp only [Multiset.map_coe, Multiset.sum_coe, Pi.list_sum_apply, List.map_cons, List.map_nil,
      held,
      amounts_singleton] at hsum ⊢
    apply lt_of_le_of_lt (Nat.add_le_add_left hsum _)
    split_ifs <;> decide
  exact ⟨((safe_state_exact_iff hvalidated).mpr hbound).1, by decide⟩

/-- The first process leaves `2 ^ 32` of the resource, which wraps around to nothing, and the second
one is refused. -/
theorem safe_state_wraps :
    Validated [⟨1, [1]⟩, ⟨2, [0]⟩] [⟨1, [1]⟩, ⟨2, [1]⟩] [4294967295] ∧
      ¬ RunExact [⟨1, [1]⟩, ⟨2, [0]⟩] [⟨1, [1]⟩, ⟨2, [1]⟩] [4294967295] ∧
      isSafeState [⟨1, [1]⟩, ⟨2, [0]⟩] [⟨1, [1]⟩, ⟨2, [1]⟩] [4294967295] = some false ∧
      Unbounded.isSafeState [⟨1, [1]⟩, ⟨2, [0]⟩] [⟨1, [1]⟩, ⟨2, [1]⟩] [4294967295] = some true := by
  have hvalidated : Validated [⟨1, [1]⟩, ⟨2, [0]⟩] [⟨1, [1]⟩, ⟨2, [1]⟩] [4294967295] :=
    ⟨rfl, by decide, by decide⟩
  refine ⟨hvalidated, ?_, by decide, by decide⟩
  rw [runExact_iff hvalidated]
  intro hbound
  have hgroup := hbound {(⟨1, [1]⟩, ⟨1, [1]⟩)}
    (Multiset.singleton_le.mpr (by decide))
    ⟨[(⟨1, [1]⟩, ⟨1, [1]⟩)], rfl, fun r => by simp [need], trivial⟩ 0
  simp [held, amounts] at hgroup

end DeadlockDetector
end Contur
