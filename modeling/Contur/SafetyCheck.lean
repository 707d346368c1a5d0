import Mathlib.Algebra.BigOperators.Pi
import Mathlib.Algebra.GroupWithZero.Nat
import Mathlib.Algebra.Order.Group.Nat
import Mathlib.Algebra.Order.Pi
import Contur.DeadlockDetector
import Contur.SafeOrder

/-!
# The safety check of the banker's algorithm

The check goes over the processes again and again, lets every process finish whose
remaining need is covered and takes its allocation back, until a pass changes
nothing. Amounts are 32-bit numbers that wrap around. For a well-formed input, and as
long as no total reaches `2 ^ 32`, the check decides whether the processes can finish
in some order; the order of the rows does not matter.
-/

namespace Contur
open SafeOrder (Safe)

structure ResourceAllocation where
  pid : ProcessId
  resources : List UInt32
  deriving DecidableEq, Repr

namespace DeadlockDetector

/-- A process: its current allocation and its maximum. -/
abbrev Row := ResourceAllocation × ResourceAllocation

def checkRows (resourceCount : ℕ) : List Row → List ProcessId → Bool
  | [], _ => true
  | (current, maximum) :: rows, indexByPid =>
    if current.pid = invalidPid ∨ maximum.pid = invalidPid then false
    else if current.pid ≠ maximum.pid then false
    else if current.resources.length ≠ resourceCount ∨ maximum.resources.length ≠ resourceCount then
      false
    else if current.pid ∈ indexByPid then false
    else checkRows resourceCount rows (current.pid :: indexByPid)

def withinMaximum (resourceCount : ℕ) (row : Row) : Bool :=
  (List.range resourceCount).all fun r =>
    !decide (row.1.resources.getD r 0 > row.2.resources.getD r 0)

def canFinish (resourceCount : ℕ) (row : Row) (work : List UInt32) : Bool :=
  (List.range resourceCount).all fun r =>
    !decide (row.2.resources.getD r 0 - row.1.resources.getD r 0 > work.getD r 0)

def reclaim (row : Row) (work : List UInt32) : List UInt32 :=
  work.mapIdx fun r amount => amount + row.1.resources.getD r 0

structure Pass where
  work : List UInt32
  finishCount : ℕ
  progressed : Bool

def pass (resourceCount : ℕ) : List (Bool × Row) → Pass → List (Bool × Row) × Pass
  | [], p => ([], p)
  | (finished, row) :: rows, p =>
    if !finished && canFinish resourceCount row p.work then
      let (rows, p) := pass resourceCount rows ⟨reclaim row p.work, p.finishCount + 1, true⟩
      ((true, row) :: rows, p)
    else
      let (rows, p) := pass resourceCount rows p
      ((finished, row) :: rows, p)

def passes (resourceCount : ℕ) : ℕ → List (Bool × Row) → List UInt32 → ℕ → Option ℕ
  | 0, _, _, _ => none
  | fuel + 1, rows, work, finishCount =>
    let (rows, p) := pass resourceCount rows ⟨work, finishCount, false⟩
    if !p.progressed then some p.finishCount
    else passes resourceCount fuel rows p.work p.finishCount

def isSafeState (current maximum : List ResourceAllocation) (available : List UInt32) :
    Option Bool :=
  if current.length ≠ maximum.length then some false
  else if current.isEmpty then some true
  else if available.length = 0 then some true
  else
    let rows := current.zip maximum
    if !checkRows available.length rows [] then some false
    else if !rows.all (withinMaximum available.length) then some false
    else
      (passes available.length (current.length + 1)
        (rows.map fun row => (false, row)) available 0).map
        fun finishCount => finishCount = current.length

def amounts (resources : List UInt32) (r : ℕ) : ℕ := (resources.getD r 0).toNat

def need (row : Row) : ℕ → ℕ := amounts row.2.resources - amounts row.1.resources

def held (row : Row) : ℕ → ℕ := amounts row.1.resources

structure RowFits (resourceCount : ℕ) (row : Row) : Prop where
  current : row.1.resources.length = resourceCount
  maximum : row.2.resources.length = resourceCount
  within : ∀ r, amounts row.1.resources r ≤ amounts row.2.resources r

theorem amounts_of_length_le {resources : List UInt32} {r : ℕ} (h : resources.length ≤ r) :
    amounts resources r = 0 := by
  unfold amounts
  rw [List.getD_eq_getElem?_getD, List.getElem?_eq_none h]
  rfl

theorem canFinish_iff {resourceCount : ℕ} {row : Row} (h : RowFits resourceCount row)
    (work : List UInt32) : canFinish resourceCount row work = true ↔ need row ≤ amounts work := by
  unfold canFinish
  simp only [List.all_eq_true, List.mem_range, Bool.not_eq_true', decide_eq_false_iff_not,
    gt_iff_lt,
    UInt32.not_lt, UInt32.le_iff_toNat_le]
  constructor
  · intro hall r
    by_cases hr : r < resourceCount
    · have hneed := hall r hr
      rwa [UInt32.toNat_sub_of_le _ _ (UInt32.le_iff_toNat_le.mpr (h.within r))] at hneed
    · rw [need, Pi.sub_apply, amounts_of_length_le (by rw [h.maximum]; omega), Nat.zero_sub]
      exact Nat.zero_le _
  · intro hle r _
    rw [UInt32.toNat_sub_of_le _ _ (UInt32.le_iff_toNat_le.mpr (h.within r))]
    exact hle r

theorem amounts_reclaim {resourceCount : ℕ} {row : Row} (h : RowFits resourceCount row)
    {work : List UInt32} (hlength : work.length = resourceCount)
    (hbound : ∀ r, amounts work r + held row r < 2 ^ 32) :
    amounts (reclaim row work) = amounts work + held row := by
  funext r
  unfold reclaim
  by_cases hr : r < work.length
  · have hsum := hbound r
    simp only [amounts, held, Pi.add_apply, List.getD_eq_getElem?_getD, List.getElem?_mapIdx,
      List.getElem?_eq_getElem hr, Option.map_some, Option.getD_some, UInt32.toNat_add] at hsum ⊢
    exact Nat.mod_eq_of_lt hsum
  · rw [Pi.add_apply, held, amounts_of_length_le (by simpa using hr),
      amounts_of_length_le (by simpa using hr), amounts_of_length_le (by rw [h.current]; omega)]

def pending (rows : List (Bool × Row)) : Multiset Row :=
  ((rows.filter fun entry => !entry.1).map Prod.snd : List Row)

@[simp] theorem pending_nil : pending [] = 0 := rfl

@[simp] theorem pending_cons_true (row : Row) (rows : List (Bool × Row)) :
    pending ((true, row) :: rows) = pending rows := rfl

@[simp] theorem pending_cons_false (row : Row) (rows : List (Bool × Row)) :
    pending ((false, row) :: rows) = row ::ₘ pending rows := rfl

theorem pending_map_false (rows : List Row) :
    pending (rows.map fun row => (false, row)) = rows := by
  unfold pending
  simp [List.filter_map, Function.comp_def]

def totalOf (work : List UInt32) (rows : Multiset Row) : ℕ → ℕ :=
  amounts work + (rows.map held).sum

/-- What a pass does to the processes that are not finished. The processes `extra` are those the
pass has already gone by. -/
structure PassSpec (resourceCount : ℕ) (extra : Multiset Row) (rows rows' : List (Bool × Row))
    (p p' : Pass) : Prop where
  length : p'.work.length = resourceCount
  fits : ∀ entry ∈ rows', RowFits resourceCount entry.2
  total : totalOf p'.work (extra + pending rows') = totalOf p.work (extra + pending rows)
  safe : Safe need held (amounts p'.work) (extra + pending rows') ↔
    Safe need held (amounts p.work) (extra + pending rows)
  count : p'.finishCount + (pending rows').card = p.finishCount + (pending rows).card
  mono : p.finishCount ≤ p'.finishCount
  progress : p'.progressed = true ↔ p.progressed = true ∨ p.finishCount < p'.finishCount
  stuck : p'.finishCount = p.finishCount → p'.work = p.work ∧ pending rows' = pending rows ∧
    ∀ row ∈ pending rows, ¬ need row ≤ amounts p.work

theorem totalOf_add_cons (work : List UInt32) (extra rest : Multiset Row) (row : Row) :
    totalOf work (extra + row ::ₘ rest) = amounts work + held row +
      ((extra + rest).map held).sum := by
  unfold totalOf
  rw [Multiset.add_cons, Multiset.map_cons, Multiset.sum_cons, add_assoc]

theorem reclaim_spec {resourceCount : ℕ} {row : Row} (hrow : RowFits resourceCount row)
    {work : List UInt32} (hlength : work.length = resourceCount) {extra rest : Multiset Row}
    (hbound : ∀ r, totalOf work (extra + row ::ₘ rest) r < 2 ^ 32) :
    amounts (reclaim row work) = amounts work + held row ∧
      totalOf (reclaim row work) (extra + rest) = totalOf work (extra + row ::ₘ rest) := by
  have hamounts : amounts (reclaim row work) = amounts work + held row := by
    refine amounts_reclaim hrow hlength fun r => ?_
    have htotal := hbound r
    rw [totalOf_add_cons, Pi.add_apply, Pi.add_apply] at htotal
    omega
  refine ⟨hamounts, ?_⟩
  rw [totalOf_add_cons, totalOf, hamounts]

theorem pass_spec {resourceCount : ℕ} (rows : List (Bool × Row)) (extra : Multiset Row) (p : Pass)
    (hfits : ∀ entry ∈ rows, RowFits resourceCount entry.2)
      (hlength : p.work.length = resourceCount)
    (hbound : ∀ r, totalOf p.work (extra + pending rows) r < 2 ^ 32) :
    PassSpec resourceCount extra rows (pass resourceCount rows p).1 p
      (pass resourceCount rows p).2 := by
  induction rows generalizing extra p with
  | nil =>
    refine ⟨hlength, hfits, rfl, Iff.rfl, rfl, le_rfl, ?_, fun _ => ⟨rfl, rfl, by simp⟩⟩
    simp [pass]
  | cons entry rows ih =>
    obtain ⟨finished, row⟩ := entry
    obtain ⟨hrow, hrest⟩ := List.forall_mem_cons.mp hfits
    unfold pass
    cases finished with
    | true =>
      have hnext := ih extra p hrest hlength hbound
      simp only [Bool.not_true, Bool.false_and, Bool.false_eq_true, ↓reduceIte]
      exact ⟨hnext.length, List.forall_mem_cons.mpr ⟨hrow, hnext.fits⟩, hnext.total, hnext.safe,
        hnext.count, hnext.mono, hnext.progress, hnext.stuck⟩
    | false =>
      rw [pending_cons_false] at hbound
      simp only [Bool.not_false, Bool.true_and]
      split_ifs with hcan
      · have hneed := (canFinish_iff hrow p.work).mp hcan
        obtain ⟨hamounts, htotal⟩ := reclaim_spec hrow hlength hbound
        have hnext := ih extra ⟨reclaim row p.work, p.finishCount + 1, true⟩ hrest
          (by simpa [reclaim] using hlength) (by rwa [htotal])
        have hmore : p.finishCount < (pass resourceCount rows
            ⟨reclaim row p.work, p.finishCount + 1, true⟩).2.finishCount := hnext.mono
        refine ⟨hnext.length, List.forall_mem_cons.mpr ⟨hrow, hnext.fits⟩, hnext.total.trans htotal,
          ?_,
          ?_, hmore.le, ?_, fun hsame => absurd hsame hmore.ne'⟩
        · rw [pending_cons_true, hnext.safe, hamounts, pending_cons_false, Multiset.add_cons]
          exact (SafeOrder.safe_cons_iff (fun r => Nat.zero_le _) hneed).symm
        · rw [pending_cons_true, hnext.count, pending_cons_false, Multiset.card_cons]
          dsimp only
          omega
        · exact iff_of_true (hnext.progress.mpr (Or.inl rfl)) (Or.inr hmore)
      · -- the process stays, and the rest of the pass goes by it
        have hmove : ∀ rest : Multiset Row, row ::ₘ extra + rest = extra + row ::ₘ rest :=
            fun rest => by
          rw [Multiset.cons_add, Multiset.add_cons]
        have hnext := ih (row ::ₘ extra) p hrest hlength (by rwa [hmove])
        have htotal := hnext.total
        have hsafe := hnext.safe
        rw [hmove, hmove] at htotal hsafe
        refine ⟨hnext.length, List.forall_mem_cons.mpr ⟨hrow, hnext.fits⟩, htotal, hsafe, ?_,
          hnext.mono,
          hnext.progress, fun hsame => ?_⟩
        · have hcount := hnext.count
          simp only [pending_cons_false, Multiset.card_cons]
          omega
        · obtain ⟨hwork, hpending, hstuck⟩ := hnext.stuck hsame
          refine ⟨hwork, by rw [pending_cons_false, pending_cons_false, hpending], fun q hq => ?_⟩
          rw [pending_cons_false] at hq
          rcases Multiset.mem_cons.mp hq with rfl | hq
          · exact fun hneed => hcan ((canFinish_iff hrow p.work).mpr hneed)
          · exact hstuck q hq

theorem passes_spec {resourceCount fuel : ℕ} {rows : List (Bool × Row)} {work : List UInt32}
    (finishCount : ℕ) (hfuel : (pending rows).card < fuel)
    (hfits : ∀ entry ∈ rows, RowFits resourceCount entry.2) (hlength : work.length = resourceCount)
    (hbound : ∀ r, totalOf work (pending rows) r < 2 ^ 32) :
    ∃ count, passes resourceCount fuel rows work finishCount = some count ∧
      (count = finishCount + (pending rows).card ↔
        Safe need held (amounts work) (pending rows)) := by
  induction fuel generalizing rows work finishCount with
  | zero => exact absurd hfuel (Nat.not_lt_zero _)
  | succ fuel ih =>
    have hspec := pass_spec rows 0 ⟨work, finishCount, false⟩ hfits hlength (by simpa using hbound)
    unfold passes
    generalize pass resourceCount rows ⟨work, finishCount, false⟩ = result at hspec
    obtain ⟨rows', p⟩ := result
    dsimp only at hspec ⊢
    have hcount := hspec.count
    have htotal := hspec.total
    have hsafe := hspec.safe
    simp only [zero_add] at hcount htotal hsafe
    cases hprogressed : p.progressed with
    | false =>
      have hnone : ¬ finishCount < p.finishCount := fun hlt => by
        rw [hspec.progress.mpr (Or.inr hlt)] at hprogressed
        cases hprogressed
      have hsame : p.finishCount = finishCount := le_antisymm (not_lt.mp hnone) hspec.mono
      obtain ⟨-, -, hstuck⟩ := hspec.stuck hsame
      refine ⟨p.finishCount, by simp, ?_⟩
      rw [hsame]
      by_cases hempty : pending rows = 0
      · rw [hempty]
        exact iff_of_true rfl SafeOrder.safe_zero
      · have hpos : 0 < (pending rows).card := Multiset.card_pos.mpr hempty
        exact iff_of_false (by omega) (SafeOrder.not_safe_of_stuck hempty hstuck)
    | true =>
      have hmore : finishCount < p.finishCount := by
        simpa using hspec.progress.mp hprogressed
      obtain ⟨count, heq, hiff⟩ := ih p.finishCount (by omega) hspec.fits hspec.length
        (by rwa [htotal])
      refine ⟨count, by simpa using heq, ?_⟩
      rw [← hsafe, ← hiff, hcount]

structure WellFormed (current maximum : List ResourceAllocation) (available : List UInt32) :
    Prop where
  rows : current.length = maximum.length
  pids : ∀ row ∈ current.zip maximum, row.1.pid = row.2.pid ∧ row.1.pid ≠ invalidPid
  distinct : (current.map ResourceAllocation.pid).Nodup
  fits : ∀ row ∈ current.zip maximum, RowFits available.length row

/-- Some order of all processes in which the remaining need of each is covered by what is available
and what the processes before it held. -/
def HasSafeOrder (current maximum : List ResourceAllocation) (available : List UInt32) : Prop :=
  ∃ order : List Row, order.Perm (current.zip maximum) ∧
    ∀ before row after, order = before ++ row :: after → ∀ r < available.length,
      amounts row.2.resources r - amounts row.1.resources r ≤
        amounts available r + (before.map fun other => amounts other.1.resources r).sum

theorem checkRows_eq_true {resourceCount : ℕ} {rows : List Row} (indexByPid : List ProcessId)
    (hpids : ∀ row ∈ rows, row.1.pid = row.2.pid ∧ row.1.pid ≠ invalidPid)
    (hfits : ∀ row ∈ rows, RowFits resourceCount row)
    (hdistinct : (rows.map fun row => row.1.pid).Nodup)
    (hnew : ∀ row ∈ rows, row.1.pid ∉ indexByPid) :
      checkRows resourceCount rows indexByPid = true := by
  induction rows generalizing indexByPid with
  | nil => rfl
  | cons row rows ih =>
    obtain ⟨current, maximum⟩ := row
    obtain ⟨⟨hsame, hvalid⟩, hpids⟩ := List.forall_mem_cons.mp hpids
    obtain ⟨hfit, hfits⟩ := List.forall_mem_cons.mp hfits
    obtain ⟨hfresh, hnew⟩ := List.forall_mem_cons.mp hnew
    obtain ⟨hother, hdistinct⟩ := List.nodup_cons.mp hdistinct
    have hrest := ih (current.pid :: indexByPid) hpids hfits hdistinct fun row hrow => by
      rw [List.mem_cons, not_or]
      refine ⟨fun heq => hother ?_, hnew row hrow⟩
      exact List.mem_map.mpr ⟨row, hrow, heq⟩
    have hvalid' : maximum.pid ≠ invalidPid := hsame ▸ hvalid
    have hcurrent : current.resources.length = resourceCount := hfit.current
    have hmaximum : maximum.resources.length = resourceCount := hfit.maximum
    unfold checkRows
    rw [if_neg (not_or.mpr ⟨hvalid, hvalid'⟩), if_neg (not_not.mpr hsame),
      if_neg (not_or.mpr ⟨not_not.mpr hcurrent, not_not.mpr hmaximum⟩), if_neg hfresh]
    exact hrest

theorem withinMaximum_eq_true {resourceCount : ℕ} {row : Row} (h : RowFits resourceCount row) :
    withinMaximum resourceCount row = true := by
  simp only [withinMaximum, List.all_eq_true, Bool.not_eq_true', decide_eq_false_iff_not, gt_iff_lt,
    UInt32.not_lt, UInt32.le_iff_toNat_le]
  exact fun r _ => h.within r

theorem hasSafeOrder_iff {current maximum : List ResourceAllocation} {available : List UInt32}
    (hfits : ∀ row ∈ current.zip maximum, RowFits available.length row) :
    HasSafeOrder current maximum available ↔
      Safe need held (amounts available) (current.zip maximum : List Row) := by
  refine exists_congr fun order => ?_
  rw [Multiset.coe_eq_coe, SafeOrder.runs_iff]
  refine and_congr_right fun hperm => ?_
  refine forall_congr' fun before => forall_congr' fun row => forall_congr' fun after => ?_
  refine imp_congr_right fun heq => ?_
  have hrow : RowFits available.length row := by
    apply hfits
    rw [← hperm.mem_iff, heq]
    simp
  have hsum : ∀ r, (before.map held).sum r =
      (before.map fun other => amounts other.1.resources r).sum := fun r => by
    rw [Pi.list_sum_apply, List.map_map]
    rfl
  constructor
  · intro hcovered r
    rw [Pi.add_apply, hsum]
    by_cases hr : r < available.length
    · exact hcovered r hr
    · rw [need, Pi.sub_apply, amounts_of_length_le (by rw [hrow.maximum]; omega), Nat.zero_sub]
      exact Nat.zero_le _
  · intro hcovered r _
    have hneed := hcovered r
    rwa [Pi.add_apply, hsum] at hneed

theorem isSafeState_spec {current maximum : List ResourceAllocation} {available : List UInt32}
    (h : WellFormed current maximum available)
    (hbound : ∀ r, amounts available r +
      (current.map fun allocation => amounts allocation.resources r).sum < 2 ^ 32) :
    ∃ safe, isSafeState current maximum available = some safe ∧
      (safe = true ↔ HasSafeOrder current maximum available) := by
  rw [hasSafeOrder_iff h.fits]
  unfold isSafeState
  rw [if_neg (not_not.mpr h.rows)]
  have hcurrent : (current.zip maximum).map Prod.fst = current := List.map_fst_zip h.rows.le
  have hcheck : checkRows available.length (current.zip maximum) [] = true := by
    refine checkRows_eq_true [] h.pids h.fits ?_ (by simp)
    have hdistinct := h.distinct
    rwa [← hcurrent, List.map_map] at hdistinct
  have hwithin : (current.zip maximum).all (withinMaximum available.length) = true :=
    List.all_eq_true.mpr fun row hrow => withinMaximum_eq_true (h.fits row hrow)
  split_ifs with hempty hnone
  · refine ⟨true, rfl, iff_of_true rfl ?_⟩
    rw [List.isEmpty_iff.mp hempty]
    exact SafeOrder.safe_zero
  · -- without resources no process needs anything
    refine ⟨true, rfl, iff_of_true rfl ?_⟩
    rw [← hasSafeOrder_iff h.fits]
    exact ⟨current.zip maximum, .refl _, fun before row after _ r hr => by omega⟩
  · have hpending := pending_map_false (current.zip maximum)
    have hcard : (pending ((current.zip maximum).map fun row => (false, row))).card =
        current.length := by
      rw [hpending, Multiset.coe_card, List.length_zip, ← h.rows, min_self]
    have hfits : ∀ entry ∈ (current.zip maximum).map fun row => (false, row),
        RowFits available.length entry.2 := by
      intro entry hentry
      obtain ⟨row, hrow, rfl⟩ := List.mem_map.mp hentry
      exact h.fits row hrow
    have htotal : ∀ r, totalOf available
        (pending ((current.zip maximum).map fun row => (false, row))) r < 2 ^ 32 := by
      intro r
      have hsum : (current.map fun allocation => amounts allocation.resources r).sum =
          (((current.zip maximum).map held).sum : ℕ → ℕ) r := by
        rw [Pi.list_sum_apply, List.map_map, ← hcurrent, List.map_map, hcurrent]
        rfl
      rw [hpending, totalOf, Pi.add_apply, Multiset.map_coe, Multiset.sum_coe, ← hsum]
      exact hbound r
    obtain ⟨count, hcount, hiff⟩ := passes_spec 0 (hcard.trans_lt (Nat.lt_succ_self current.length))
      hfits rfl htotal
    refine ⟨decide (count = current.length), ?_, ?_⟩
    · simp only [hcheck, hwithin, hcount, Bool.not_true, Bool.false_eq_true, ↓reduceIte,
        Option.map_some]
    · rw [decide_eq_true_iff, ← hpending, ← hiff, hcard, Nat.zero_add]

/-- For a well-formed input with totals below `2 ^ 32` the check ends, and the state is safe exactly
if all processes can finish in some order; the rows may be given in any order. -/
theorem safe_state_decided {current maximum : List ResourceAllocation} {available : List UInt32}
    (h : WellFormed current maximum available)
    (hbound : ∀ r, amounts available r +
      (current.map fun allocation => amounts allocation.resources r).sum < 2 ^ 32) :
    ∃ safe, isSafeState current maximum available = some safe ∧
      (safe = true ↔ HasSafeOrder current maximum available) ∧
      ∀ current' maximum' : List ResourceAllocation, current'.length = maximum'.length →
        (current'.zip maximum').Perm (current.zip maximum) →
        isSafeState current' maximum' available = some safe := by
  obtain ⟨safe, hsafe, hiff⟩ := isSafeState_spec h hbound
  refine ⟨safe, hsafe, hiff, fun current' maximum' hrows hperm => ?_⟩
  have hcurrent : current'.Perm current := by
    have hfst := hperm.map Prod.fst
    rwa [List.map_fst_zip hrows.le, List.map_fst_zip h.rows.le] at hfst
  have h' : WellFormed current' maximum' available :=
    ⟨hrows, fun row hrow => h.pids row (hperm.mem_iff.mp hrow),
      (hcurrent.map _).nodup_iff.mpr h.distinct, fun row hrow => h.fits row (hperm.mem_iff.mp hrow)⟩
  have hbound' : ∀ r, amounts available r +
      (current'.map fun allocation => amounts allocation.resources r).sum < 2 ^ 32 := fun r => by
    rw [(hcurrent.map _).sum_eq]
    exact hbound r
  obtain ⟨safe', hsafe', hiff'⟩ := isSafeState_spec h' hbound'
  -- both answers are about orders of the same rows
  have hsame : HasSafeOrder current' maximum' available ↔ HasSafeOrder current maximum available :=
    exists_congr fun order => and_congr_left fun _ => hperm.congr_right order
  rw [hsafe', Bool.eq_iff_iff.mpr (hiff'.trans (hsame.trans hiff.symm))]

theorem amounts_singleton (amount : UInt32) (r : ℕ) :
    amounts [amount] r = if r = 0 then amount.toNat else 0 := by
  cases r with
  | zero => rfl
  | succ r => exact amounts_of_length_le (by simp)

theorem safe_state_decided_two :
    isSafeState [⟨1, [1]⟩, ⟨2, [1]⟩] [⟨1, [3]⟩, ⟨2, [2]⟩] [1] = some true ∧
      HasSafeOrder [⟨1, [1]⟩, ⟨2, [1]⟩] [⟨1, [3]⟩, ⟨2, [2]⟩] [1] ∧
      isSafeState [⟨2, [1]⟩, ⟨1, [1]⟩] [⟨2, [2]⟩, ⟨1, [3]⟩] [1] = some true := by
  have hwell : WellFormed [⟨1, [1]⟩, ⟨2, [1]⟩] [⟨1, [3]⟩, ⟨2, [2]⟩] [1] := by
    refine ⟨rfl, by decide, by decide, ?_⟩
    simp only [List.zip_cons_cons, List.zip_nil_left, List.forall_mem_cons]
    refine ⟨⟨rfl, rfl, fun r => ?_⟩, ⟨rfl, rfl, fun r => ?_⟩, by simp⟩
    all_goals
      simp only [amounts_singleton]
      split_ifs <;> decide
  have hbound : ∀ r, amounts [1] r + (([⟨1, [1]⟩, ⟨2, [1]⟩] : List ResourceAllocation).map
      fun allocation => amounts allocation.resources r).sum < 2 ^ 32 := fun r => by
    simp only [List.map_cons, List.map_nil, amounts_singleton]
    split_ifs <;> decide
  obtain ⟨safe, hsafe, hiff, hperm⟩ := safe_state_decided hwell hbound
  have htrue : isSafeState [⟨1, [1]⟩, ⟨2, [1]⟩] [⟨1, [3]⟩, ⟨2, [2]⟩] [1] = some true := by decide
  rw [htrue] at hsafe
  cases hsafe
  exact ⟨htrue, hiff.mp rfl, hperm _ _ rfl (List.Perm.swap _ _ _)⟩

end DeadlockDetector
end Contur
