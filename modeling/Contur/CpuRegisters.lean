import Contur.Cpu

/-!
# The register indices of a step

A step takes register indices from the fetched block and does not check them. In a run all
accesses stay in range exactly if every block that is fetched names registers that exist, or
fails in a read that comes before its access.
-/

namespace Contur
namespace Cpu

def run (c : Cpu) (regs : RegisterFile) : ℕ → Except Undefined (Cpu × RegisterFile)
  | 0 => .ok (c, regs)
  | n + 1 => do
    let (c, regs) ← c.run regs n
    let (_, c, regs) ← c.step regs
    return (c, regs)

def Always (c : Cpu) (regs : RegisterFile) (P : Cpu → RegisterFile → Prop) : Prop :=
  ∀ n c' regs', c.run regs n = .ok (c', regs') → P c' regs'

theorem always_congr {c : Cpu} {regs : RegisterFile} {P Q : Cpu → RegisterFile → Prop}
    (h : ∀ c regs, P c regs ↔ Q c regs) : c.Always regs P ↔ c.Always regs Q := by
  apply forall_congr'
  intro n
  apply forall₂_congr
  intro c' regs'
  exact imp_congr_right fun _ => h c' regs'

def namedRegisters (block : Block) : List (BitVec 8) :=
  match block.code with
  | .mov | .compare | .readMemory
  | .add | .sub | .mul | .div | .and | .or | .xor | .shiftLeft | .shiftRight =>
    block.reg :: if block.state = 1 then [block.operand.setWidth 8] else []
  | .push | .pop | .writeMemory => [block.reg]
  | _ => []

def NamesExist (block : Block) : Prop := ∀ index ∈ namedRegisters block, index.toNat < registerCount

instance (block : Block) : Decidable (NamesExist block) :=
  inferInstanceAs (Decidable (∀ index ∈ namedRegisters block, index.toNat < registerCount))

def ReadFails (c : Cpu) (block : Block) (regs : RegisterFile) : Prop :=
  match block.code with
  | .pop => ∃ code, c.memory.read regs.sp.toNat = .error code
  | .readMemory => ∃ address code, resolveOperand block regs = .ok address ∧
      c.memory.read address.toNat = .error code
  | _ => False

/-- No register is accessed that does not exist; a block that names one makes the step return an
error interrupt. -/
def RegistersInRange (c : Cpu) (regs : RegisterFile) : Prop :=
  (∀ index, c.step regs ≠ .error (.registerIndex index)) ∧
    ∀ block, c.memory.read regs.pc.toNat = .ok block → ¬ NamesExist block →
      ∃ c' regs', c.step regs = .ok (.error, c', regs')

theorem bind_eq_error {α β : Type} {x : Except Undefined α} {f : α → Except Undefined β}
    {u : Undefined} : (x >>= f) = .error u ↔ x = .error u ∨ ∃ a, x = .ok a ∧ f a = .error u := by
  cases x <;> simp [bind, Except.bind]

theorem get_eq_ok {regs : RegisterFile} {index : BitVec 8} {value : RegisterValue}
    (h : regs.get index = .ok value) : index.toNat < registerCount := by
  unfold RegisterFile.get at h
  split_ifs at h with hindex
  exact hindex

theorem set_eq_ok {regs regs' : RegisterFile} {index : BitVec 8} {value : RegisterValue}
    (h : regs.set index value = .ok regs') : index.toNat < registerCount := by
  unfold RegisterFile.set at h
  split_ifs at h with hindex
  exact hindex

theorem get_ne_error {regs : RegisterFile} {index : BitVec 8} (h : index.toNat < registerCount)
    (u : Undefined) : regs.get index ≠ .error u := by
  simp [RegisterFile.get, h]

theorem set_ne_error {regs : RegisterFile} {index : BitVec 8} (h : index.toNat < registerCount)
    (value : RegisterValue) (u : Undefined) : regs.set index value ≠ .error u := by
  simp [RegisterFile.set, h]

theorem resolveOperand_eq_ok {block : Block} {regs : RegisterFile} {value : RegisterValue}
    (h : resolveOperand block regs = .ok value) (hstate : block.state = 1) :
    (block.operand.setWidth 8).toNat < registerCount := by
  rw [resolveOperand, if_pos hstate] at h
  exact get_eq_ok h

theorem resolveOperand_ne_error {block : Block} {regs : RegisterFile}
    (h : block.state = 1 → (block.operand.setWidth 8).toNat < registerCount) (u : Undefined) :
    resolveOperand block regs ≠ .error u := by
  unfold resolveOperand
  split_ifs with hstate
  · exact get_ne_error (h hstate) u
  · simp

theorem checked_ne_registerIndex (x : ℤ) (index : BitVec 8) :
    Alu.checked x ≠ .error (.registerIndex index) := by
  unfold Alu.checked
  split_ifs <;> simp

theorem apply_ne_registerIndex (code : Instruction) (a b : RegisterValue) (index : BitVec 8) :
    Alu.apply code a b ≠ .error (.registerIndex index) := by
  have hchecked : ∀ x : ℤ, (Alu.checked x).map (Result.ok) ≠ .error (.registerIndex index) := by
    intro x hx
    unfold Alu.checked at hx
    split_ifs at hx <;> simp [Except.map] at hx
  cases code <;> simp only [Alu.apply, Alu.add, Alu.sub, Alu.mul, Alu.div, Alu.shiftLeft,
    Alu.shiftRight, Alu.shift, ne_eq, reduceCtorEq, not_false_eq_true]
  case add | sub | mul => exact hchecked _
  all_goals split_ifs
  case neg => exact hchecked _
  all_goals simp

theorem namesExist_iff_of_two {block : Block}
    (h : namedRegisters block =
      block.reg :: if block.state = 1 then [block.operand.setWidth 8] else []) :
    NamesExist block ↔ block.reg.toNat < registerCount ∧
      (block.state = 1 → (block.operand.setWidth 8).toNat < registerCount) := by
  rw [NamesExist, h]
  split_ifs with hstate <;> simp_all

theorem executeAluOp_ne_registerIndex {code : Instruction} {regs : RegisterFile} {dstReg : BitVec 8}
    {operand : RegisterValue} (h : dstReg.toNat < registerCount) (index : BitVec 8) :
    executeAluOp code regs dstReg operand ≠ .error (.registerIndex index) := by
  intro herror
  unfold executeAluOp at herror
  rw [bind_eq_error] at herror
  rcases herror with herror | ⟨a, -, herror⟩
  · exact get_ne_error h _ herror
  · rw [bind_eq_error] at herror
    rcases herror with herror | ⟨result, -, herror⟩
    · exact apply_ne_registerIndex code a operand index herror
    · split at herror
      · cases herror
      · cases herror
      · rw [bind_eq_error] at herror
        rcases herror with herror | ⟨regs', -, herror⟩
        · exact set_ne_error h _ _ herror
        · cases herror

def IsAlu (code : Instruction) : Prop :=
  code ∈ [.add, .sub, .mul, .div, .and, .or, .xor, .shiftLeft, .shiftRight]

/-- Where the execution of a block is undefined. -/
inductive Fails (c : Cpu) (block : Block) (regs : RegisterFile) (u : Undefined) : Prop where
  | operand (hnamed : block.state = 1 → block.operand.setWidth 8 ∈ namedRegisters block)
      (h : resolveOperand block regs = .error u)
  | read (hnamed : block.reg ∈ namedRegisters block) (h : regs.get block.reg = .error u)
  | write (hnamed : block.reg ∈ namedRegisters block) {value : RegisterValue}
      (h : regs.set block.reg value = .error u)
  | alu (hcode : IsAlu block.code) (hnamed : block.reg ∈ namedRegisters block)
      {operand : RegisterValue} (h : executeAluOp block.code regs block.reg operand = .error u)
  | stores (hcode : block.code = .push ∨ block.code = .call)
      (h : Alu.checked (regs.sp.toInt - 1) = .error u)
  | loads (hcode : block.code = .pop ∨ block.code = .return) {top : Block}
      (htop : c.memory.read regs.sp.toNat = .ok top)
      (hreg : block.code = .pop → block.reg.toNat < registerCount)
      (h : Alu.checked (regs.sp.toInt + 1) = .error u)

theorem execute_fails {c : Cpu} {block : Block} {regs : RegisterFile} {u : Undefined}
    (herror : c.execute block regs = .error u) : c.Fails block regs u := by
  cases hcode : block.code with
  | nop | halt | interrupt | unknown code =>
    simp [execute, hcode] at herror
  | jumpEqual | jumpNotEqual | jumpGreater | jumpLess | jumpGreaterEqual | jumpLessEqual =>
    simp [execute, hcode] at herror
  | mov =>
    simp only [execute, hcode, bind_eq_error] at herror
    rcases herror with herror | ⟨value, -, herror | ⟨regs', -, herror⟩⟩
    · exact .operand (fun hstate => by simp [namedRegisters, hcode, hstate]) herror
    · exact .write (by simp [namedRegisters, hcode]) herror
    · cases herror
  | add | sub | mul | div | and | or | xor | shiftLeft | shiftRight =>
    simp only [execute, hcode, bind_eq_error] at herror
    rcases herror with herror | ⟨value, -, herror | ⟨result, -, herror⟩⟩
    · exact .operand (fun hstate => by simp [namedRegisters, hcode, hstate]) herror
    · exact .alu (by simp [IsAlu, hcode]) (by simp [namedRegisters, hcode]) (by rwa [hcode])
    · cases herror
  | compare =>
    simp only [execute, hcode, bind_eq_error] at herror
    rcases herror with herror | ⟨a, -, herror | ⟨b, -, herror⟩⟩
    · exact .read (by simp [namedRegisters, hcode]) herror
    · exact .operand (fun hstate => by simp [namedRegisters, hcode, hstate]) herror
    · cases herror
  | push =>
    simp only [execute, hcode, bind_eq_error] at herror
    rcases herror with herror | ⟨sp, -, herror | ⟨value, -, herror⟩⟩
    · exact .stores (Or.inl hcode) herror
    · exact .read (by simp [namedRegisters, hcode]) herror
    · split at herror <;> cases herror
  | pop =>
    simp only [execute, hcode] at herror
    split at herror
    · cases herror
    · next top htop =>
      simp only [bind_eq_error] at herror
      rcases herror with herror | ⟨popped, hset, herror | ⟨sp, -, herror⟩⟩
      · exact .write (by simp [namedRegisters, hcode]) herror
      · exact .loads (Or.inl hcode) htop (fun _ => set_eq_ok hset) herror
      · cases herror
  | call =>
    simp only [execute, hcode, bind_eq_error] at herror
    rcases herror with herror | ⟨sp, -, herror⟩
    · exact .stores (Or.inr hcode) herror
    · split at herror <;> cases herror
  | «return» =>
    simp only [execute, hcode] at herror
    split at herror
    · cases herror
    · next top htop =>
      rw [bind_eq_error] at herror
      rcases herror with herror | ⟨sp, -, herror⟩
      · exact .loads (Or.inr hcode) htop (by simp [hcode]) herror
      · cases herror
  | readMemory =>
    simp only [execute, hcode, bind_eq_error] at herror
    rcases herror with herror | ⟨address, -, herror⟩
    · exact .operand (fun hstate => by simp [namedRegisters, hcode, hstate]) herror
    · split at herror
      · cases herror
      · rw [bind_eq_error] at herror
        rcases herror with herror | ⟨regs', -, herror⟩
        · exact .write (by simp [namedRegisters, hcode]) herror
        · cases herror
  | writeMemory =>
    simp only [execute, hcode, bind_eq_error] at herror
    rcases herror with herror | ⟨value, -, herror⟩
    · exact .read (by simp [namedRegisters, hcode]) herror
    · split at herror <;> cases herror

theorem execute_ne_registerIndex {c : Cpu} {block : Block} {regs : RegisterFile}
    (h : NamesExist block) (index : BitVec 8) :
    c.execute block regs ≠ .error (.registerIndex index) := by
  intro herror
  cases execute_fails herror with
  | operand hnamed hoperand =>
    exact resolveOperand_ne_error (fun hstate => h _ (hnamed hstate)) _ hoperand
  | read hnamed hget => exact get_ne_error (h _ hnamed) _ hget
  | write hnamed hset => exact set_ne_error (h _ hnamed) _ _ hset
  | alu _ hnamed halu => exact executeAluOp_ne_registerIndex (h _ hnamed) _ halu
  | stores _ hchecked => exact checked_ne_registerIndex _ _ hchecked
  | loads _ _ _ hchecked => exact checked_ne_registerIndex _ _ hchecked

theorem namesExist_of_execute_ok {c : Cpu} {block : Block} {regs : RegisterFile}
    {result : Interrupt × Cpu × RegisterFile} (h : c.execute block regs = .ok result) :
    NamesExist block ∨ c.ReadFails block regs := by
  cases hcode : block.code with
  | nop | halt | interrupt | call | «return» | unknown code =>
    exact Or.inl (by simp [NamesExist, namedRegisters, hcode])
  | jumpEqual | jumpNotEqual | jumpGreater | jumpLess | jumpGreaterEqual | jumpLessEqual =>
    exact Or.inl (by simp [NamesExist, namedRegisters, hcode])
  | mov =>
    rw [namesExist_iff_of_two (by simp [namedRegisters, hcode])]
    simp only [execute, hcode, bind_eq_ok] at h
    obtain ⟨value, hvalue, regs', hset, -⟩ := h
    exact Or.inl ⟨set_eq_ok hset, resolveOperand_eq_ok hvalue⟩
  | add | sub | mul | div | and | or | xor | shiftLeft | shiftRight =>
    rw [namesExist_iff_of_two (by simp [namedRegisters, hcode])]
    simp only [execute, hcode, bind_eq_ok] at h
    obtain ⟨value, hvalue, result, halu, -⟩ := h
    unfold executeAluOp at halu
    obtain ⟨a, ha, -⟩ := bind_eq_ok.mp halu
    exact Or.inl ⟨get_eq_ok ha, resolveOperand_eq_ok hvalue⟩
  | compare =>
    rw [namesExist_iff_of_two (by simp [namedRegisters, hcode])]
    simp only [execute, hcode, bind_eq_ok] at h
    obtain ⟨a, ha, b, hb, -⟩ := h
    exact Or.inl ⟨get_eq_ok ha, resolveOperand_eq_ok hb⟩
  | push =>
    simp only [execute, hcode, bind_eq_ok] at h
    obtain ⟨sp, -, value, hvalue, -⟩ := h
    exact Or.inl (by simpa [NamesExist, namedRegisters, hcode] using get_eq_ok hvalue)
  | writeMemory =>
    simp only [execute, hcode, bind_eq_ok] at h
    obtain ⟨value, hvalue, -⟩ := h
    exact Or.inl (by simpa [NamesExist, namedRegisters, hcode] using get_eq_ok hvalue)
  | pop =>
    simp only [execute, hcode] at h
    split at h
    · next code hread =>
      exact Or.inr (by simpa [ReadFails, hcode] using ⟨code, hread⟩)
    · simp only [bind_eq_ok] at h
      obtain ⟨popped, hset, -⟩ := h
      exact Or.inl (by simpa [NamesExist, namedRegisters, hcode] using set_eq_ok hset)
  | readMemory =>
    rw [namesExist_iff_of_two (by simp [namedRegisters, hcode])]
    simp only [execute, hcode, bind_eq_ok] at h
    obtain ⟨address, haddress, h⟩ := h
    split at h
    · next code hread =>
      exact Or.inr (by simpa [ReadFails, hcode] using ⟨address, haddress, code, hread⟩)
    · rw [bind_eq_ok] at h
      obtain ⟨regs', hset, -⟩ := h
      exact Or.inl ⟨set_eq_ok hset, resolveOperand_eq_ok haddress⟩

theorem execute_of_readFails {c : Cpu} {block : Block} {regs : RegisterFile}
    (h : c.ReadFails block regs) : c.execute block regs = .ok (.error, c, regs) := by
  cases hcode : block.code <;> simp only [ReadFails, hcode] at h
  case pop =>
    obtain ⟨code, hread⟩ := h
    simp only [execute, hcode, hread]
  case readMemory =>
    obtain ⟨address, code, haddress, hread⟩ := h
    simp only [execute, hcode, haddress, hread, bind, Except.bind]
    rfl

def FetchesNames (c : Cpu) (regs : RegisterFile) : Prop :=
  ∀ block, c.memory.read regs.pc.toNat = .ok block → NamesExist block ∨
    regs.pc.toInt + 1 < 2 ^ 31 ∧ c.ReadFails block (regs.setPc (regs.pc + 1))

theorem checked_eq_ok_iff {x : ℤ} {y : RegisterValue} :
    Alu.checked x = .ok y ↔ (-2 ^ 31 ≤ x ∧ x < 2 ^ 31) ∧ y = BitVec.ofInt 32 x := by
  unfold Alu.checked
  split_ifs with h
  · rw [Except.ok.injEq, and_iff_right h, eq_comm]
  · exact iff_of_false (by simp) fun hrange => h hrange.1

theorem neg_two_pow_le_toInt (x : RegisterValue) : -2 ^ 31 ≤ x.toInt := BitVec.le_toInt x

theorem toInt_lt_two_pow (x : RegisterValue) : x.toInt < 2 ^ 31 := BitVec.toInt_lt

theorem checked_add_one_iff {x y : RegisterValue} :
    Alu.checked (x.toInt + 1) = .ok y ↔ x.toInt + 1 < 2 ^ 31 ∧ y = x + 1 := by
  have hle := neg_two_pow_le_toInt x
  rw [checked_eq_ok_iff, BitVec.ofInt_add]
  constructor
  · rintro ⟨⟨-, hlt⟩, rfl⟩
    exact ⟨hlt, by simp⟩
  · rintro ⟨hlt, rfl⟩
    exact ⟨⟨by omega, hlt⟩, by simp⟩

theorem checked_sub_one_iff {x y : RegisterValue} :
    Alu.checked (x.toInt - 1) = .ok y ↔ -2 ^ 31 ≤ x.toInt - 1 ∧ y = x - 1 := by
  constructor
  · intro h
    exact ⟨(checked_eq_ok_iff.mp h).1.1, checked_sub_one h⟩
  · rintro ⟨hle, rfl⟩
    have hlt := toInt_lt_two_pow x
    rw [checked_eq_ok_iff]
    refine ⟨⟨hle, by omega⟩, ?_⟩
    simp [BitVec.sub_eq_add_neg, Int.sub_eq_add_neg, BitVec.ofInt_add]

theorem step_eq_ok_iff {c : Cpu} {block : Block} {regs : RegisterFile}
    (hread : c.memory.read regs.pc.toNat = .ok block) {result : Interrupt × Cpu × RegisterFile} :
    c.step regs = .ok result ↔
      regs.pc.toInt + 1 < 2 ^ 31 ∧ c.execute block (regs.setPc (regs.pc + 1)) = .ok result := by
  rw [step, hread]
  simp only [bind_eq_ok, checked_add_one_iff]
  constructor
  · rintro ⟨next, ⟨hlt, rfl⟩, h⟩
    exact ⟨hlt, h⟩
  · exact fun ⟨hlt, h⟩ => ⟨_, ⟨hlt, rfl⟩, h⟩

theorem step_eq_error_iff {c : Cpu} {block : Block} {regs : RegisterFile}
    (hread : c.memory.read regs.pc.toNat = .ok block) {u : Undefined} :
    c.step regs = .error u ↔ (u = .arithmetic ∧ ¬ regs.pc.toInt + 1 < 2 ^ 31) ∨
      (regs.pc.toInt + 1 < 2 ^ 31 ∧ c.execute block (regs.setPc (regs.pc + 1)) = .error u) := by
  rw [step, hread]
  dsimp only
  by_cases hlt : regs.pc.toInt + 1 < 2 ^ 31
  · rw [checked_add_one_iff.mpr ⟨hlt, rfl⟩, or_iff_right fun h => h.2 hlt, and_iff_right hlt]
    rfl
  · have hchecked : Alu.checked (regs.pc.toInt + 1) = .error .arithmetic := by
      rw [Alu.checked, if_neg (fun h => hlt h.2)]
    rw [hchecked, or_iff_left fun h => hlt h.1, and_iff_left hlt]
    simp [bind, Except.bind, eq_comm]

theorem registersInRange_iff (c : Cpu) (regs : RegisterFile) :
    c.RegistersInRange regs ↔ c.FetchesNames regs := by
  cases hread : c.memory.read regs.pc.toNat with
  | error code =>
    simp [RegistersInRange, FetchesNames, step, hread]
  | ok block =>
    simp only [RegistersInRange, FetchesNames, hread, Result.ok.injEq, forall_eq']
    constructor
    · rintro ⟨-, hmissing⟩
      by_cases hnames : NamesExist block
      · exact Or.inl hnames
      · obtain ⟨c', regs', hstep⟩ := hmissing hnames
        obtain ⟨hlt, hexecute⟩ := (step_eq_ok_iff hread).mp hstep
        exact Or.inr ⟨hlt, (namesExist_of_execute_ok hexecute).resolve_left hnames⟩
    · rintro (hnames | ⟨hlt, hfails⟩)
      · refine ⟨fun index herror => ?_, fun hnot => absurd hnames hnot⟩
        rcases (step_eq_error_iff hread).mp herror with ⟨hu, -⟩ | ⟨-, hexecute⟩
        · cases hu
        · exact execute_ne_registerIndex hnames index hexecute
      · have hstep := (step_eq_ok_iff hread).mpr ⟨hlt, execute_of_readFails hfails⟩
        exact ⟨fun index herror => by simp [hstep] at herror, fun _ => ⟨_, _, hstep⟩⟩

/-- In a run the registers are in range throughout exactly if every fetched block names registers
that exist, or fails to read before it uses them. -/
theorem run_registersInRange_iff (c : Cpu) (regs : RegisterFile) :
    c.Always regs RegistersInRange ↔ c.Always regs FetchesNames :=
  always_congr registersInRange_iff

/-- A block that names register 16. -/
theorem register_out_of_range :
    ¬ Always ⟨⟨[⟨.mov, 16, 7, 0⟩]⟩, 0⟩ (fun _ => 0) RegistersInRange := by
  intro h
  have hstart := h 0 _ _ rfl
  exact hstart.1 16 rfl

end Cpu
end Contur
