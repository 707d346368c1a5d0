import Contur.CpuRegisters

/-!
# The signed operations of a step

A step computes with signed numbers of 32 bits: the arithmetic instructions, the program
counter and the stack pointer. Only a division by zero is refused. In a run every operation is
exact or refused exactly if the operands of every fetched block are in range.
-/

namespace Contur
namespace Cpu

inductive Operation where
  | add (a b : RegisterValue)
  | sub (a b : RegisterValue)
  | mul (a b : RegisterValue)
  | div (a b : RegisterValue)
  | shiftLeft (a b : RegisterValue)
  | shiftRight (a b : RegisterValue)
  deriving DecidableEq

/-- The result on integers; a division by zero and a shift by a distance outside `0..31` have
none. -/
def Operation.exactResult : Operation → Option ℤ
  | add a b => some (a.toInt + b.toInt)
  | sub a b => some (a.toInt - b.toInt)
  | mul a b => some (a.toInt * b.toInt)
  | div a b => if b = 0 then none else some (a.toInt.tdiv b.toInt)
  | shiftLeft a b => if 0 ≤ b.toInt ∧ b.toInt ≤ 31 then some (a.toInt * 2 ^ b.toNat) else none
  | shiftRight a b => if 0 ≤ b.toInt ∧ b.toInt ≤ 31 then some (a.toInt / 2 ^ b.toNat) else none

def Representable (x : ℤ) : Prop := -2 ^ 31 ≤ x ∧ x < 2 ^ 31

instance (x : ℤ) : Decidable (Representable x) := inferInstanceAs (Decidable (_ ∧ _))

def Operation.Exact (op : Operation) : Prop := ∃ x, op.exactResult = some x ∧ Representable x

def operands (block : Block) (regs : RegisterFile) : Option (RegisterValue × RegisterValue) :=
  match regs.get block.reg, resolveOperand block regs with
  | .ok a, .ok b => some (a, b)
  | _, _ => none

def aluOperation (code : Instruction) (a b : RegisterValue) : Option Operation :=
  match code with
  | .add => some (.add a b)
  | .sub => some (.sub a b)
  | .mul => some (.mul a b)
  | .div => some (.div a b)
  | .shiftLeft => some (.shiftLeft a b)
  | .shiftRight => some (.shiftRight a b)
  | _ => none

def executed (c : Cpu) (block : Block) (regs : RegisterFile) : List Operation :=
  match block.code with
  | .push | .call => [.sub regs.sp 1]
  | .pop =>
    if (c.memory.read regs.sp.toNat).isOk ∧ block.reg.toNat < registerCount then [.add regs.sp 1]
    else []
  | .return => if (c.memory.read regs.sp.toNat).isOk then [.add regs.sp 1] else []
  | code => ((operands block regs).bind fun (a, b) => aluOperation code a b).toList

def performed (c : Cpu) (regs : RegisterFile) : List Operation :=
  match c.memory.read regs.pc.toNat with
  | .error _ => []
  | .ok block => .add regs.pc 1 :: c.executed block (regs.setPc (regs.pc + 1))

/-- Every operation of the step is exact, or the step returns an error interrupt and changes no
register but the program counter. -/
def ArithmeticDefined (c : Cpu) (regs : RegisterFile) : Prop :=
  (c.step regs ≠ .error .arithmetic ∧ ∀ op ∈ c.performed regs, op.Exact) ∨
    ∃ interrupt next, (interrupt = .error ∨ interrupt = .divByZero) ∧
      c.step regs = .ok (interrupt, c, regs.setPc next)

/-- What an operation demands of its operands. A division by zero is refused, and not demanded
away. -/
def Operation.InRange : Operation → Prop
  | add a b => Representable (a.toInt + b.toInt)
  | sub a b => Representable (a.toInt - b.toInt)
  | mul a b => Representable (a.toInt * b.toInt)
  | div a b => ¬ (a.toInt = -2 ^ 31 ∧ b.toInt = -1)
  | shiftLeft a b => (0 ≤ b.toInt ∧ b.toInt ≤ 31) ∧ Representable (a.toInt * 2 ^ b.toNat)
  | shiftRight _ b => 0 ≤ b.toInt ∧ b.toInt ≤ 31

def OperandsInRange (c : Cpu) (block : Block) (regs : RegisterFile) : Prop :=
  match block.code with
  | .push | .call => regs.sp.toInt ≠ -2 ^ 31
  | .pop => (c.memory.read regs.sp.toNat).isOk ∧ block.reg.toNat < registerCount →
      regs.sp.toInt ≠ 2 ^ 31 - 1
  | .return => (c.memory.read regs.sp.toNat).isOk → regs.sp.toInt ≠ 2 ^ 31 - 1
  | code => ∀ op ∈ (operands block regs).bind fun (a, b) => aluOperation code a b, op.InRange

def FetchesInRange (c : Cpu) (regs : RegisterFile) : Prop :=
  ∀ block, c.memory.read regs.pc.toNat = .ok block → regs.pc.toInt ≠ 2 ^ 31 - 1 ∧
    c.OperandsInRange block (regs.setPc (regs.pc + 1))

theorem shift_in_range_iff (b : RegisterValue) : (0 ≤ b.toInt ∧ b.toInt ≤ 31) ↔ b.toNat < 32 := by
  rw [BitVec.toInt_eq_toNat_cond]
  split_ifs <;> omega

theorem representable_tdiv {a b : RegisterValue} (hb : b ≠ 0)
    (h : ¬ (a.toInt = -2 ^ 31 ∧ b.toInt = -1)) : Representable (a.toInt.tdiv b.toInt) := by
  have ha := neg_two_pow_le_toInt a
  have ha' := toInt_lt_two_pow a
  have hzero : b.toInt ≠ 0 := fun hzero => hb (BitVec.eq_of_toInt_eq hzero)
  by_cases hone : b.toInt = 1
  · rw [hone, Int.tdiv_one]
    exact ⟨ha, ha'⟩
  have habs : (a.toInt.tdiv b.toInt).natAbs < 2 ^ 31 := by
    rw [Int.natAbs_tdiv]
    change a.toInt.natAbs / b.toInt.natAbs < _
    by_cases hneg : b.toInt = -1
    · rw [hneg, Int.natAbs_neg, Int.natAbs_one, Nat.div_one]
      omega
    · have htwo : 2 ≤ b.toInt.natAbs := by omega
      have hhalf := Nat.div_le_div_left htwo (Nat.zero_lt_two) (a := a.toInt.natAbs)
      omega
  unfold Representable
  omega

theorem representable_shiftRight (a : RegisterValue) (k : ℕ) : Representable (a.toInt / 2 ^ k) := by
  have hshift : (a.sshiftRight k).toInt = a.toInt / 2 ^ k := by
    rw [BitVec.toInt_sshiftRight, Int.shiftRight_eq_div_pow]
    rfl
  rw [← hshift]
  exact ⟨neg_two_pow_le_toInt _, toInt_lt_two_pow _⟩

theorem Operation.Exact.inRange {op : Operation} (h : op.Exact) : op.InRange := by
  obtain ⟨x, hx, hrange⟩ := h
  cases op with
  | add a b | sub a b | mul a b =>
    cases hx
    exact hrange
  | div a b =>
    simp only [exactResult] at hx
    split_ifs at hx
    rintro ⟨ha, hb⟩
    cases hx
    rw [ha, hb] at hrange
    revert hrange
    decide
  | shiftLeft a b =>
    simp only [exactResult] at hx
    split_ifs at hx with hshift
    cases hx
    exact ⟨hshift, hrange⟩
  | shiftRight a b =>
    simp only [exactResult] at hx
    split_ifs at hx with hshift
    exact hshift

theorem map_checked (x : ℤ) :
    (Representable x ∧ ∃ value, (Alu.checked x).map Result.ok = .ok (.ok value)) ∨
      ¬ Representable x ∧ (Alu.checked x).map Result.ok = .error .arithmetic := by
  unfold Representable
  by_cases h : -2 ^ 31 ≤ x ∧ x < 2 ^ 31
  · exact Or.inl ⟨h, _, by rw [Alu.checked, if_pos h]; rfl⟩
  · exact Or.inr ⟨h, by rw [Alu.checked, if_neg h]; rfl⟩

theorem shift_eq (op : ℕ → RegisterValue) (b : RegisterValue) :
    ((0 ≤ b.toInt ∧ b.toInt ≤ 31) ∧ ∃ value, Alu.shift op b = .ok (.ok value)) ∨
      ¬ (0 ≤ b.toInt ∧ b.toInt ≤ 31) ∧ Alu.shift op b = .error .arithmetic := by
  rw [shift_in_range_iff]
  by_cases h : b.toNat < 32
  · exact Or.inl ⟨h, _, by rw [Alu.shift, if_pos h]⟩
  · exact Or.inr ⟨h, by rw [Alu.shift, if_neg h]⟩

/-- What the processor makes of an operation: it is undefined, it has a value, or it is a division
by zero. A left shift that loses bits has a value without being in range. -/
theorem apply_cases {code : Instruction} {a b : RegisterValue} {op : Operation}
    (hop : aluOperation code a b = some op) :
    (Alu.apply code a b = .error .arithmetic ∧ ¬ op.InRange) ∨
      (∃ value, Alu.apply code a b = .ok (.ok value)) ∧ (op.InRange → op.Exact) ∨
      Alu.apply code a b = .ok (.error .divisionByZero) ∧ op.InRange := by
  have hchecked : ∀ x, Alu.apply code a b = (Alu.checked x).map Result.ok →
      (op.InRange ↔ Representable x) → op.exactResult = some x →
      (Alu.apply code a b = .error .arithmetic ∧ ¬ op.InRange) ∨
        (∃ value, Alu.apply code a b = .ok (.ok value)) ∧ (op.InRange → op.Exact) := by
    intro x happly hrange hexact
    rw [happly, hrange]
    rcases map_checked x with ⟨hx, hvalue⟩ | ⟨hx, herror⟩
    · exact Or.inr ⟨hvalue, fun _ => ⟨x, hexact, hx⟩⟩
    · exact Or.inl ⟨herror, hx⟩
  cases code <;> simp only [aluOperation, Option.some.injEq, reduceCtorEq] at hop <;> subst hop
  case add => exact (hchecked _ rfl Iff.rfl rfl).imp_right Or.inl
  case sub => exact (hchecked _ rfl Iff.rfl rfl).imp_right Or.inl
  case mul => exact (hchecked _ rfl Iff.rfl rfl).imp_right Or.inl
  case div =>
    by_cases hb : b = 0
    · refine Or.inr (Or.inr ⟨by simp [Alu.apply, Alu.div, hb], ?_⟩)
      rintro ⟨-, hneg⟩
      rw [hb] at hneg
      cases hneg
    · have hexact : (Operation.div a b).exactResult = some (a.toInt.tdiv b.toInt) := by
        rw [Operation.exactResult, if_neg hb]
      have hrange : (Operation.div a b).InRange ↔ Representable (a.toInt.tdiv b.toInt) := by
        constructor
        · exact representable_tdiv hb
        · exact fun h => Operation.Exact.inRange ⟨_, hexact, h⟩
      refine (hchecked _ ?_ hrange hexact).imp_right Or.inl
      rw [Alu.apply, Alu.div, if_neg hb]
  case shiftLeft =>
    rcases shift_eq (a <<< ·) b with ⟨hb, hvalue⟩ | ⟨hb, herror⟩
    · refine Or.inr (Or.inl ⟨hvalue, fun h => ?_⟩)
      exact ⟨_, by rw [Operation.exactResult, if_pos hb], h.2⟩
    · exact Or.inl ⟨herror, fun h => hb h.1⟩
  case shiftRight =>
    rcases shift_eq a.sshiftRight b with ⟨hb, hvalue⟩ | ⟨hb, herror⟩
    · refine Or.inr (Or.inl ⟨hvalue, fun _ => ?_⟩)
      exact ⟨_, by rw [Operation.exactResult, if_pos hb], representable_shiftRight a _⟩
    · exact Or.inl ⟨herror, hb⟩

theorem apply_of_aluOperation_eq_none {code : Instruction} {a b : RegisterValue}
    (h : aluOperation code a b = none) (u : Undefined) : Alu.apply code a b ≠ .error u := by
  cases code <;> simp [aluOperation, Alu.apply] at h ⊢

theorem execute_alu {block : Block} (hcode : IsAlu block.code) (c : Cpu) (regs : RegisterFile) :
    c.execute block regs = (do
      let operand ← resolveOperand block regs
      let (interrupt, regs) ← executeAluOp block.code regs block.reg operand
      return (interrupt, c, regs)) := by
  unfold IsAlu at hcode
  simp only [List.mem_cons, List.not_mem_nil, or_false] at hcode
  rcases hcode with h | h | h | h | h | h | h | h | h <;> simp only [execute, h]

theorem executed_alu {block : Block} (hcode : IsAlu block.code) (c : Cpu) (regs : RegisterFile) :
    c.executed block regs =
      ((operands block regs).bind fun (a, b) => aluOperation block.code a b).toList := by
  unfold IsAlu at hcode
  simp only [List.mem_cons, List.not_mem_nil, or_false] at hcode
  rcases hcode with h | h | h | h | h | h | h | h | h <;> simp only [executed, h]

theorem operandsInRange_alu {block : Block} (hcode : IsAlu block.code) (c : Cpu)
    (regs : RegisterFile) :
    c.OperandsInRange block regs ↔
      ∀ op ∈ (operands block regs).bind fun (a, b) => aluOperation block.code a b, op.InRange := by
  unfold IsAlu at hcode
  simp only [List.mem_cons, List.not_mem_nil, or_false] at hcode
  rcases hcode with h | h | h | h | h | h | h | h | h <;> simp only [OperandsInRange, h]

theorem operands_eq_some {block : Block} {regs : RegisterFile} {a b : RegisterValue}
    (h : operands block regs = some (a, b)) :
    regs.get block.reg = .ok a ∧ resolveOperand block regs = .ok b := by
  unfold operands at h
  split at h
  · next ha hb =>
    cases h
    exact ⟨ha, hb⟩
  · cases h

theorem resolveOperand_ne_arithmetic {block : Block} {regs : RegisterFile} :
    resolveOperand block regs ≠ .error .arithmetic := by
  unfold resolveOperand RegisterFile.get
  split_ifs <;> simp

theorem get_ne_arithmetic {regs : RegisterFile} {index : BitVec 8} :
    regs.get index ≠ .error .arithmetic := by
  unfold RegisterFile.get
  split_ifs <;> simp

theorem set_ne_arithmetic {regs : RegisterFile} {index : BitVec 8} {value : RegisterValue} :
    regs.set index value ≠ .error .arithmetic := by
  unfold RegisterFile.set
  split_ifs <;> simp

theorem execute_alu_some {block : Block} {a b : RegisterValue} {regs : RegisterFile}
    (hcode : IsAlu block.code) (hoperands : operands block regs = some (a, b)) (c : Cpu) :
    match Alu.apply block.code a b with
    | .error u => c.execute block regs = .error u
    | .ok (.error .divisionByZero) => c.execute block regs = .ok (.divByZero, c, regs)
    | .ok (.error _) => c.execute block regs = .ok (.error, c, regs)
    | .ok (.ok _) => ∃ regs', c.execute block regs = .ok (.ok, c, regs') := by
  obtain ⟨ha, hb⟩ := operands_eq_some hoperands
  have hreg := get_eq_ok ha
  rw [execute_alu hcode, hb]
  simp only [executeAluOp, ha, bind, Except.bind]
  cases Alu.apply block.code a b with
  | error u => rfl
  | ok result =>
    cases result with
    | error code => cases code <;> rfl
    | ok value =>
      refine ⟨Function.update regs ⟨block.reg.toNat, hreg⟩ value, ?_⟩
      simp [RegisterFile.set, hreg, pure, Except.pure]

theorem execute_alu_none {block : Block} {regs : RegisterFile} (hcode : IsAlu block.code)
    (hoperands : operands block regs = none) (c : Cpu) :
    ∃ index, c.execute block regs = .error (.registerIndex index) := by
  rw [execute_alu hcode]
  cases hb : resolveOperand block regs with
  | error u =>
    cases u with
    | registerIndex index => exact ⟨index, rfl⟩
    | arithmetic => exact absurd hb resolveOperand_ne_arithmetic
  | ok b =>
    cases ha : regs.get block.reg with
    | error u =>
      cases u with
      | registerIndex index =>
        refine ⟨index, ?_⟩
        simp only [executeAluOp, ha, bind, Except.bind]
      | arithmetic => exact absurd ha get_ne_arithmetic
    | ok a => simp [operands, ha, hb] at hoperands

theorem exact_sub_one_iff (x : RegisterValue) :
    (Operation.sub x 1).Exact ↔ x.toInt ≠ -2 ^ 31 := by
  have hle := neg_two_pow_le_toInt x
  have hlt := toInt_lt_two_pow x
  have hone : (1 : RegisterValue).toInt = 1 := rfl
  constructor
  · rintro ⟨y, hy, hrange⟩
    cases hy
    unfold Representable at hrange
    omega
  · intro h
    refine ⟨_, rfl, ?_⟩
    unfold Representable
    omega

theorem exact_add_one_iff (x : RegisterValue) :
    (Operation.add x 1).Exact ↔ x.toInt ≠ 2 ^ 31 - 1 := by
  have hle := neg_two_pow_le_toInt x
  have hlt := toInt_lt_two_pow x
  have hone : (1 : RegisterValue).toInt = 1 := rfl
  constructor
  · rintro ⟨y, hy, hrange⟩
    cases hy
    unfold Representable at hrange
    omega
  · intro h
    refine ⟨_, rfl, ?_⟩
    unfold Representable
    omega

theorem checked_sub_one_ne_error {x : RegisterValue} (h : x.toInt ≠ -2 ^ 31) {u : Undefined} :
    Alu.checked (x.toInt - 1) ≠ .error u := by
  have hle := neg_two_pow_le_toInt x
  rw [checked_sub_one_iff.mpr ⟨by omega, rfl⟩]
  simp

theorem checked_add_one_ne_error {x : RegisterValue} (h : x.toInt ≠ 2 ^ 31 - 1) {u : Undefined} :
    Alu.checked (x.toInt + 1) ≠ .error u := by
  have hlt := toInt_lt_two_pow x
  rw [checked_add_one_iff.mpr ⟨by omega, rfl⟩]
  simp

theorem operandsInRange_of_exact {c : Cpu} {block : Block} {regs : RegisterFile}
    (h : ∀ op ∈ c.executed block regs, op.Exact) : c.OperandsInRange block regs := by
  cases hcode : block.code <;> simp only [executed, OperandsInRange, hcode] at h ⊢
  case push | call => exact (exact_sub_one_iff _).mp (h _ List.mem_cons_self)
  case pop | «return» =>
    intro hread
    rw [if_pos hread] at h
    exact (exact_add_one_iff _).mp (h _ List.mem_cons_self)
  all_goals
    intro op hop
    exact (h op (Option.mem_toList.mpr hop)).inRange

theorem operandsInRange_of_refused {c c' : Cpu} {block : Block} {regs regs' : RegisterFile}
    {interrupt : Interrupt} (hinterrupt : interrupt ≠ .ok)
    (h : c.execute block regs = .ok (interrupt, c', regs')) : c.OperandsInRange block regs := by
  by_cases halu : IsAlu block.code
  · rw [operandsInRange_alu halu]
    intro op hop
    cases hoperands : operands block regs with
    | none => simp [hoperands] at hop
    | some ab =>
      have hexecute := execute_alu_some halu hoperands c
      rw [hoperands] at hop
      rcases apply_cases hop with ⟨happly, -⟩ | ⟨⟨value, happly⟩, -⟩ | ⟨-, hrange⟩
      · rw [happly] at hexecute
        dsimp only at hexecute
        rw [hexecute] at h
        cases h
      · rw [happly] at hexecute
        obtain ⟨regs₁, hexecute⟩ := hexecute
        rw [hexecute] at h
        cases h
        exact absurd rfl hinterrupt
      · exact hrange
  · cases hcode : block.code <;> simp only [OperandsInRange, hcode]
    case push =>
      simp only [execute, hcode, bind_eq_ok, checked_sub_one_iff] at h
      obtain ⟨sp, ⟨hsp, -⟩, -⟩ := h
      omega
    case call =>
      simp only [execute, hcode, bind_eq_ok, checked_sub_one_iff] at h
      obtain ⟨sp, ⟨hsp, -⟩, -⟩ := h
      omega
    case pop =>
      simp only [execute, hcode] at h
      intro hread
      obtain ⟨top, htop⟩ := Result.isOk_iff.mp hread.1
      rw [htop] at h
      simp only [bind_eq_ok, checked_add_one_iff] at h
      obtain ⟨popped, -, sp, ⟨hsp, -⟩, -⟩ := h
      omega
    case «return» =>
      simp only [execute, hcode] at h
      intro hread
      obtain ⟨top, htop⟩ := Result.isOk_iff.mp hread
      rw [htop] at h
      simp only [bind_eq_ok, checked_add_one_iff] at h
      obtain ⟨sp, ⟨hsp, -⟩, -⟩ := h
      omega
    all_goals simp [IsAlu, hcode, aluOperation] at halu ⊢

theorem execute_ne_arithmetic {c : Cpu} {block : Block} {regs : RegisterFile}
    (halu : ¬ IsAlu block.code) (h : c.OperandsInRange block regs) :
      c.execute block regs ≠ .error .arithmetic := by
  intro herror
  cases execute_fails herror with
  | operand _ hoperand => exact resolveOperand_ne_arithmetic hoperand
  | read _ hget => exact get_ne_arithmetic hget
  | write _ hset => exact set_ne_arithmetic hset
  | alu hcode => exact halu hcode
  | stores hcode hchecked =>
    have hsp : regs.sp.toInt ≠ -2 ^ 31 := by
      rcases hcode with hcode | hcode <;> simpa only [OperandsInRange, hcode] using h
    exact checked_sub_one_ne_error hsp hchecked
  | loads hcode htop hreg hchecked =>
    have hsp : regs.sp.toInt ≠ 2 ^ 31 - 1 := by
      rcases hcode with hcode | hcode
      · simp only [OperandsInRange, hcode] at h
        exact h ⟨by rw [htop]; rfl, hreg hcode⟩
      · simp only [OperandsInRange, hcode] at h
        exact h (by rw [htop]; rfl)
    exact checked_add_one_ne_error hsp hchecked

theorem executed_exact {c : Cpu} {block : Block} {regs : RegisterFile} (halu : ¬ IsAlu block.code)
    (h : c.OperandsInRange block regs) : ∀ op ∈ c.executed block regs, op.Exact := by
  cases hcode : block.code <;> simp only [OperandsInRange, executed, hcode] at h ⊢
  case push | call => simpa using (exact_sub_one_iff _).mpr h
  case pop | «return» =>
    split_ifs with hread
    · simpa using (exact_add_one_iff _).mpr (h hread)
    · simp
  all_goals simp [IsAlu, hcode, aluOperation] at halu ⊢

theorem execute_of_operandsInRange {c : Cpu} {block : Block} {regs : RegisterFile}
    (h : c.OperandsInRange block regs) :
    (c.execute block regs ≠ .error .arithmetic ∧ ∀ op ∈ c.executed block regs, op.Exact) ∨
      c.execute block regs = .ok (.divByZero, c, regs) := by
  by_cases halu : IsAlu block.code
  · rw [operandsInRange_alu halu] at h
    rw [executed_alu halu]
    cases hoperands : operands block regs with
    | none =>
      obtain ⟨index, hexecute⟩ := execute_alu_none halu hoperands c
      exact Or.inl ⟨by simp [hexecute], by simp⟩
    | some ab =>
      have hexecute := execute_alu_some halu hoperands c
      rw [hoperands] at h
      cases hop : aluOperation block.code ab.1 ab.2 with
      | none =>
        refine Or.inl ⟨fun herror => ?_, by simp [hop]⟩
        have happly := apply_of_aluOperation_eq_none hop
        split at hexecute
        · next u hu => exact happly u hu
        · simp [hexecute] at herror
        · simp [hexecute] at herror
        · obtain ⟨regs', hexecute⟩ := hexecute
          simp [hexecute] at herror
      | some op =>
        have hrange : op.InRange := h op (by simpa using hop)
        rcases apply_cases hop with ⟨-, hnot⟩ | ⟨⟨value, happly⟩, hexact⟩ | ⟨happly, -⟩
        · exact absurd hrange hnot
        · rw [happly] at hexecute
          obtain ⟨regs', hexecute⟩ := hexecute
          exact Or.inl ⟨by simp [hexecute], by simpa [hop] using hexact hrange⟩
        · rw [happly] at hexecute
          exact Or.inr hexecute
  · exact Or.inl ⟨execute_ne_arithmetic halu h, executed_exact halu h⟩

theorem arithmeticDefined_iff (c : Cpu) (regs : RegisterFile) :
    c.ArithmeticDefined regs ↔ c.FetchesInRange regs := by
  cases hread : c.memory.read regs.pc.toNat with
  | error code => simp [ArithmeticDefined, FetchesInRange, performed, step, hread]
  | ok block =>
    have hlt : regs.pc.toInt + 1 < 2 ^ 31 ↔ regs.pc.toInt ≠ 2 ^ 31 - 1 := by
      have := toInt_lt_two_pow regs.pc
      omega
    simp only [ArithmeticDefined, FetchesInRange, performed, hread, Result.ok.injEq, forall_eq',
      List.forall_mem_cons, exact_add_one_iff]
    constructor
    · rintro (⟨hdefined, hpc, hexact⟩ | ⟨interrupt, next, hinterrupt, hstep⟩)
      · exact ⟨hpc, operandsInRange_of_exact hexact⟩
      · obtain ⟨hpc, hexecute⟩ := (step_eq_ok_iff hread).mp hstep
        refine ⟨hlt.mp hpc, operandsInRange_of_refused ?_ hexecute⟩
        rcases hinterrupt with rfl | rfl <;> simp
    · rintro ⟨hpc, hrange⟩
      rcases execute_of_operandsInRange hrange with ⟨hdefined, hexact⟩ | hzero
      · refine Or.inl ⟨fun herror => ?_, hpc, hexact⟩
        rcases (step_eq_error_iff hread).mp herror with ⟨-, hnot⟩ | ⟨-, hexecute⟩
        · exact hnot (hlt.mpr hpc)
        · exact hdefined hexecute
      · refine Or.inr ⟨.divByZero, regs.pc + 1, Or.inr rfl, ?_⟩
        exact (step_eq_ok_iff hread).mpr ⟨hlt.mpr hpc, hzero⟩

/-- In a run every signed operation is exact or refused exactly if the operands of every fetched
block are in range. -/
theorem run_arithmeticDefined_iff (c : Cpu) (regs : RegisterFile) :
    c.Always regs ArithmeticDefined ↔ c.Always regs FetchesInRange :=
  always_congr arithmeticDefined_iff

/-- An addition to the largest number. -/
theorem addition_overflows :
    ¬ Always ⟨⟨[⟨.add, 0, 1, 0⟩]⟩, 0⟩ (Function.update (fun _ => 0) 0 0x7FFFFFFF)
      ArithmeticDefined := by
  intro h
  have hstart := h 0 _ _ rfl
  rcases hstart with ⟨hdefined, -⟩ | ⟨interrupt, next, -, hstep⟩
  · exact hdefined rfl
  · cases hstep

end Cpu
end Contur
