import Contur.CpuRegisters

/-!
# The stack discipline of the processor

Balanced code leaves the stack pointer where it was: pushes are closed by pops and calls by
returns, and whatever stands between them is balanced again. The memory is used below the
stack pointer only, one cell for each open push or call, so what was stored on the way in is
found again on the way out. The one limit is the range of the registers: there is no way over
the address `0x7FFFFFFF`, neither for the program counter nor for the stack pointer.
-/

namespace Contur
namespace Cpu

abbrev State := Cpu × RegisterFile

def State.memory (s : State) : PhysicalMemory := s.1.memory
def State.pc (s : State) : RegisterValue := s.2.pc
def State.sp (s : State) : RegisterValue := s.2.sp

def Steps (s s' : State) : Prop := s.1.step s.2 = .ok (.ok, s')

def Fetches (s : State) (block : Block) : Prop := s.memory.read s.pc.toNat = .ok block

/-- `Nop`, `Mov`, `Compare`, `ReadMemory` or an arithmetic instruction, with a target that is
neither the program counter nor the stack pointer. -/
def IsPlain (block : Block) : Prop :=
  match block.code with
  | .nop | .compare => True
  | .mov | .readMemory
  | .add | .sub | .mul | .div | .and | .or | .xor | .shiftLeft | .shiftRight =>
    block.reg ≠ 14 ∧ block.reg ≠ 15
  | _ => False

structure IsPush (block : Block) : Prop where
  code : block.code = .push
  reg : block.reg.toNat < registerCount

structure IsPop (block : Block) : Prop where
  code : block.code = .pop
  reg : block.reg.toNat < registerCount
  pc : block.reg ≠ 14
  sp : block.reg ≠ 15

inductive BalancedCode where
  | empty
  | plain (block : Block) (h : IsPlain block)
  | seq (first second : BalancedCode)
  | pushPop (push : Block) (hpush : IsPush push) (body : BalancedCode) (pop : Block)
    (hpop : IsPop pop)
  | call (enter : Block) (hcall : enter.code = .call) (body : BalancedCode) (ret : Block)
      (hret : ret.code = .return)

namespace BalancedCode

def steps : BalancedCode → ℕ
  | empty => 0
  | plain _ _ => 1
  | seq first second => first.steps + second.steps
  | pushPop _ _ body _ _ => 1 + body.steps + 1
  | call _ _ body _ _ => 1 + body.steps + 1

def depth : BalancedCode → ℕ
  | empty => 0
  | plain _ _ => 0
  | seq first second => max first.depth second.depth
  | pushPop _ _ body _ _ => body.depth + 1
  | call _ _ body _ _ => body.depth + 1

def after : BalancedCode → RegisterValue → RegisterValue
  | empty, a => a
  | plain _ _, a => a + 1
  | seq first second, a => second.after (first.after a)
  | pushPop _ _ body _ _, a => body.after (a + 1) + 1
  | call _ _ _ _ _, a => a + 1

/-- The instructions with their addresses. The body of a call lies where the call leads to. -/
def instructions : BalancedCode → RegisterValue → List (RegisterValue × Block)
  | empty, _ => []
  | plain block _, a => [(a, block)]
  | seq first second, a => first.instructions a ++ second.instructions (first.after a)
  | pushPop push _ body pop _, a =>
    (a, push) :: (body.instructions (a + 1) ++ [(body.after (a + 1), pop)])
  | call enter _ body ret _, a =>
    (a, enter) :: (body.instructions enter.operand ++ [(body.after enter.operand, ret)])

end BalancedCode

def stackCell (sp : RegisterValue) (i : ℕ) : RegisterValue := sp - BitVec.ofNat 32 i

/-- The code lies in the memory from an address on, and the cells below the stack pointer that it
needs exist and hold none of its instructions. -/
structure Holds (memory : PhysicalMemory) (code : BalancedCode) (a sp : RegisterValue) : Prop where
  held : ∀ entry ∈ code.instructions a, memory.cells[entry.1.toNat]? = some entry.2
  room : ∀ i, 1 ≤ i → i ≤ code.depth → (stackCell sp i).toNat < memory.size
  disjoint : ∀ entry ∈ code.instructions a, ∀ i, 1 ≤ i → i ≤ code.depth → entry.1 ≠ stackCell sp i

def NonFaulting (code : BalancedCode) (s : State) : Prop :=
  ∀ k < code.steps, ∀ s', s.1.run s.2 k = .ok s' → ∀ block, Fetches s' block → IsPlain block →
    ∃ s'', Steps s' s''

/-- An execution of the code. Every pop delivers what its push has stored, and every return leads
to the address after its call. -/
inductive Executes : BalancedCode → State → State → Prop where
  | empty (s : State) : Executes .empty s s
  | plain {block : Block} {h : IsPlain block} {s s' : State} (hfetch : Fetches s block)
      (hstep : Steps s s') : Executes (.plain block h) s s'
  | seq {first second : BalancedCode} {s s₁ s₂ : State} (hfirst : Executes first s s₁)
      (hsecond : Executes second s₁ s₂) : Executes (.seq first second) s s₂
  | pushPop {push pop : Block} {hpush : IsPush push} {hpop : IsPop pop} {body : BalancedCode}
      {s s₁ s₂ s₃ : State} {value : RegisterValue} (hfetch : Fetches s push) (hstep : Steps s s₁)
      (hstored : s₁.memory.cells[s₁.sp.toNat]? = some { operand := value })
      (hbody : Executes body s₁ s₂) (hfetch' : Fetches s₂ pop) (hstep' : Steps s₂ s₃)
      (hdelivered : s₃.2.get pop.reg = .ok value) :
      Executes (.pushPop push hpush body pop hpop) s s₃
  | call {enter ret : Block} {hcall : enter.code = .call} {hret : ret.code = .return}
      {body : BalancedCode} {s s₁ s₂ s₃ : State} (hfetch : Fetches s enter) (hstep : Steps s s₁)
      (hentered : s₁.pc = enter.operand) (hbody : Executes body s₁ s₂) (hfetch' : Fetches s₂ ret)
      (hstep' : Steps s₂ s₃) (hresumed : s₃.pc = s.pc + 1) :
      Executes (.call enter hcall body ret hret) s s₃

structure Keeps (depth : ℕ) (sp : RegisterValue) (memory memory' : PhysicalMemory) : Prop where
  size : memory'.size = memory.size
  cells : ∀ x : MemoryAddress, (∀ i, 1 ≤ i → i ≤ depth → x ≠ (stackCell sp i).toNat) →
    memory'.cells[x]? = memory.cells[x]?

structure Reaches (depth : ℕ) (a : RegisterValue) (s s' : State) : Prop where
  pc : s'.pc = a
  sp : s'.sp = s.sp
  memory : Keeps depth s.sp s.memory s'.memory

/-- The code runs to its end by steps without an interrupt, and keeps the discipline. -/
def Disciplined (code : BalancedCode) (s : State) : Prop :=
  ∃ s', Executes code s s' ∧ s.1.run s.2 code.steps = .ok s' ∧
    Reaches code.depth (code.after s.pc) s s'

/-- Neither an instruction nor a stack cell lies at the last positive address. -/
structure Avoids (code : BalancedCode) (a sp : RegisterValue) : Prop where
  instructions : ∀ entry ∈ code.instructions a, entry.1 ≠ 0x7FFFFFFF
  stack : ∀ i, 1 ≤ i → i ≤ code.depth → stackCell sp i ≠ 0x7FFFFFFF

theorem run_succ_left (c : Cpu) (regs : RegisterFile) (n : ℕ) :
    c.run regs (n + 1) = c.step regs >>= fun r => r.2.1.run r.2.2 n := by
  induction n with
  | zero =>
    simp only [run, bind, Except.bind]
    cases c.step regs <;> rfl
  | succ n ih =>
    rw [run, ih]
    simp only [bind, Except.bind]
    cases c.step regs <;> rfl

theorem run_add (c : Cpu) (regs : RegisterFile) (n m : ℕ) :
    c.run regs (n + m) = c.run regs n >>= fun s => s.1.run s.2 m := by
  induction n generalizing c regs with
  | zero =>
    rw [Nat.zero_add]
    rfl
  | succ n ih =>
    rw [Nat.add_right_comm, run_succ_left, run_succ_left]
    simp only [ih, bind, Except.bind]
    cases c.step regs <;> rfl

theorem run_of_steps {s s' : State} (h : Steps s s') (n : ℕ) :
    s.1.run s.2 (1 + n) = s'.1.run s'.2 n := by
  rw [Nat.add_comm, run_succ_left, h]
  rfl

theorem run_of_run {s s' : State} {n : ℕ} (h : s.1.run s.2 n = .ok s') (m : ℕ) :
    s.1.run s.2 (n + m) = s'.1.run s'.2 m := by
  rw [run_add, h]
  rfl

theorem Executes.run {code : BalancedCode} {s s' : State} (h : Executes code s s') :
    s.1.run s.2 code.steps = .ok s' := by
  induction h with
  | empty s => rfl
  | plain hfetch hstep => exact run_of_steps hstep 0
  | seq hfirst hsecond ih ih' =>
    rw [BalancedCode.steps, run_of_run ih]
    exact ih'
  | pushPop hfetch hstep hstored hbody hfetch' hstep' hdelivered ih =>
    rw [BalancedCode.steps, Nat.add_assoc, run_of_steps hstep, run_of_run ih]
    exact run_of_steps hstep' 0
  | call hfetch hstep hentered hbody hfetch' hstep' hresumed ih =>
    rw [BalancedCode.steps, Nat.add_assoc, run_of_steps hstep, run_of_run ih]
    exact run_of_steps hstep' 0

theorem Executes.unique {code : BalancedCode} {s s₁ s₂ : State} (h₁ : Executes code s s₁)
    (h₂ : Executes code s s₂) : s₁ = s₂ :=
  Except.ok.inj (h₁.run.symm.trans h₂.run)

theorem stackCell_sub_one (sp : RegisterValue) (i : ℕ) :
    stackCell (sp - 1) i = stackCell sp (i + 1) := by
  unfold stackCell
  rw [BitVec.ofNat_add]
  bv_omega

theorem ofNat_ne_zero_of_avoids {sp last : RegisterValue} {depth : ℕ}
    (h : ∀ i, 1 ≤ i → i ≤ depth → stackCell sp i ≠ last) {i : ℕ} (hi : 1 ≤ i) (hle : i ≤ depth) :
    BitVec.ofNat 32 i ≠ 0 := by
  intro hzero
  have hmod : i % 2 ^ 32 = 0 := congrArg BitVec.toNat hzero
  have hlarge : 2 ^ 32 ≤ i := by omega
  by_cases hlast : sp = last
  · apply h (2 ^ 32) (by decide) (by omega)
    rw [stackCell, hlast]
    simp
  · have hpos : (sp - last).toNat ≠ 0 := by
      intro heq
      apply hlast
      bv_omega
    apply h (sp - last).toNat (by omega) (by omega)
    rw [stackCell, BitVec.ofNat_toNat, BitVec.setWidth_eq]
    bv_omega

namespace Keeps

variable {depth depth' : ℕ} {sp : RegisterValue} {m m₁ m₂ : PhysicalMemory}

theorem refl (depth : ℕ) (sp : RegisterValue) (m : PhysicalMemory) : Keeps depth sp m m :=
  ⟨rfl, fun _ _ => rfl⟩

theorem mono (h : Keeps depth sp m m₁) (hle : depth ≤ depth') : Keeps depth' sp m m₁ :=
  ⟨h.size, fun x hx => h.cells x fun i hi hid => hx i hi (hid.trans hle)⟩

theorem trans (h : Keeps depth sp m m₁) (h' : Keeps depth sp m₁ m₂) : Keeps depth sp m m₂ :=
  ⟨h'.size.trans h.size, fun x hx => (h'.cells x hx).trans (h.cells x hx)⟩

theorem write (sp : RegisterValue) (m : PhysicalMemory) (block : Block) :
    Keeps 1 sp m (m.write (sp - 1).toNat block).2 := by
  refine ⟨PhysicalMemory.size_write m _ block, fun x hx => PhysicalMemory.cell_write_ne m block ?_⟩
  exact hx 1 le_rfl le_rfl

theorem nested (h : Keeps depth (sp - 1) m m₁) : Keeps (depth + 1) sp m m₁ := by
  refine ⟨h.size, fun x hx => h.cells x fun i hi hid => ?_⟩
  rw [stackCell_sub_one]
  exact hx (i + 1) (by omega) (by omega)

end Keeps

theorem Holds.keeps {m m' : PhysicalMemory} {code : BalancedCode} {a sp : RegisterValue}
    (h : Holds m code a sp) (hkeeps : Keeps code.depth sp m m') : Holds m' code a sp := by
  refine ⟨fun entry hentry => ?_, fun i hi hid => ?_, h.disjoint⟩
  · rw [hkeeps.cells, h.held entry hentry]
    intro i hi hid heq
    exact h.disjoint entry hentry i hi hid (BitVec.eq_of_toNat_eq heq)
  · rw [hkeeps.size]
    exact h.room i hi hid

theorem Holds.part {m : PhysicalMemory} {code part : BalancedCode} {a b sp sp' : RegisterValue}
    {k : ℕ}
    (h : Holds m code a sp) (hcode : ∀ entry ∈ part.instructions b, entry ∈ code.instructions a)
    (hdepth : part.depth + k ≤ code.depth) (hsp : ∀ i, stackCell sp' i = stackCell sp (i + k)) :
    Holds m part b sp' := by
  refine ⟨fun entry hentry => h.held entry (hcode entry hentry), fun i hi hid => ?_,
    fun entry hentry i hi hid => ?_⟩
  · rw [hsp]
    exact h.room _ (by omega) (by omega)
  · rw [hsp]
    exact h.disjoint entry (hcode entry hentry) _ (by omega) (by omega)

theorem Avoids.part {code part : BalancedCode} {a b sp sp' : RegisterValue} {k : ℕ}
    (h : Avoids code a sp) (hcode : ∀ entry ∈ part.instructions b, entry ∈ code.instructions a)
    (hdepth : part.depth + k ≤ code.depth) (hsp : ∀ i, stackCell sp' i = stackCell sp (i + k)) :
    Avoids part b sp' := by
  refine ⟨fun entry hentry => h.instructions entry (hcode entry hentry), fun i hi hid => ?_⟩
  rw [hsp]
  exact h.stack _ (by omega) (by omega)

theorem NonFaulting.part {code part : BalancedCode} {s s' : State} (h : NonFaulting code s) {n : ℕ}
    (hrun : s.1.run s.2 n = .ok s') (hsteps : n + part.steps ≤ code.steps) :
      NonFaulting part s' := by
  intro k hk s'' hrun'
  apply h (n + k) (by omega)
  rw [run_of_run hrun]
  exact hrun'

theorem add_one_lt_iff (x : RegisterValue) : x.toInt + 1 < 2 ^ 31 ↔ x ≠ 0x7FFFFFFF := by
  have hlt := toInt_lt_two_pow x
  have hlast : (0x7FFFFFFF : RegisterValue).toInt = 2 ^ 31 - 1 := rfl
  rw [ne_eq, ← BitVec.toInt_inj, hlast]
  omega

theorem le_sub_one_iff (x : RegisterValue) : -2 ^ 31 ≤ x.toInt - 1 ↔ x - 1 ≠ 0x7FFFFFFF := by
  have hle := neg_two_pow_le_toInt x
  have hfirst : (0x80000000 : RegisterValue).toInt = -2 ^ 31 := rfl
  have hiff : x - 1 = 0x7FFFFFFF ↔ x = 0x80000000 := by
    constructor <;> intro h <;> bv_omega
  rw [ne_eq, hiff, ← BitVec.toInt_inj, hfirst]
  omega

@[simp] theorem pc_setPc (regs : RegisterFile) (value : RegisterValue) :
    (regs.setPc value).pc = value := by
  simp [RegisterFile.pc, RegisterFile.setPc]

@[simp] theorem sp_setSp (regs : RegisterFile) (value : RegisterValue) :
    (regs.setSp value).sp = value := by
  simp [RegisterFile.sp, RegisterFile.setSp]

@[simp] theorem pc_setSp (regs : RegisterFile) (value : RegisterValue) :
    (regs.setSp value).pc = regs.pc := by
  simp [RegisterFile.pc, RegisterFile.setSp, Function.update]

theorem set_other {regs regs' : RegisterFile} {index : BitVec 8} {value : RegisterValue}
    (h : regs.set index value = .ok regs') (hpc : index ≠ 14) (hsp : index ≠ 15) :
    regs'.pc = regs.pc ∧ regs'.sp = regs.sp := by
  unfold RegisterFile.set at h
  split_ifs at h with hindex
  cases h
  have hne : ∀ k : ℕ, (hk : k < registerCount) → index ≠ BitVec.ofNat 8 k →
      (⟨k, hk⟩ : Fin registerCount) ≠ ⟨index.toNat, hindex⟩ := by
    intro k hk hindex heq
    apply hindex
    rw [Fin.mk.injEq] at heq
    rw [heq, BitVec.ofNat_toNat, BitVec.setWidth_eq]
  exact ⟨Function.update_of_ne (hne 14 (by decide) hpc) _ _,
    Function.update_of_ne (hne 15 (by decide) hsp) _ _⟩

theorem get_set {regs regs' : RegisterFile} {index : BitVec 8} {value : RegisterValue}
    (h : regs.set index value = .ok regs') : regs'.get index = .ok value := by
  unfold RegisterFile.set at h
  split_ifs at h with hindex
  cases h
  simp [RegisterFile.get, hindex]

theorem get_setSp (regs : RegisterFile) (value : RegisterValue) {index : BitVec 8}
    (h : index ≠ 15) :
    (regs.setSp value).get index = regs.get index := by
  unfold RegisterFile.get
  split_ifs with hindex
  · have hne : (⟨index.toNat, hindex⟩ : Fin registerCount) ≠ 15 := by
      intro heq
      have hval : index.toNat = 15 := congrArg Fin.val heq
      exact h (BitVec.eq_of_toNat_eq hval)
    exact congrArg Except.ok (Function.update_of_ne hne _ _)
  · rfl

theorem steps_iff {s s' : State} {block : Block} (hfetch : Fetches s block) :
    Steps s s' ↔ s.pc ≠ 0x7FFFFFFF ∧ s.1.execute block (s.2.setPc (s.pc + 1)) = .ok (.ok, s') := by
  rw [← add_one_lt_iff]
  exact step_eq_ok_iff hfetch

structure Stores (s s' : State) (a value : RegisterValue) : Prop where
  pc : s'.pc = a
  sp : s'.sp = s.sp - 1
  memory : s'.memory = (s.memory.write (s.sp - 1).toNat { operand := value }).2

def State.stored (s : State) (value : RegisterValue) : Cpu :=
  { s.1 with memory := (s.memory.write (s.sp - 1).toNat { operand := value }).2 }

theorem State.store_eq {s : State} (hroom : (s.sp - 1).toNat < s.memory.size)
    (value : RegisterValue) :
    s.1.store (s.sp - 1) value = (.ok (), s.stored value) := by
  have hwrite := PhysicalMemory.write_ok { operand := value } hroom
  rw [State.memory] at hwrite
  rw [store, stored, State.memory, hwrite]

theorem State.checked_sp {s : State} (hsp : s.sp - 1 ≠ 0x7FFFFFFF) :
    Alu.checked ((s.2.setPc (s.pc + 1)).sp.toInt - 1) = .ok (s.sp - 1) := by
  rw [sp_setPc]
  exact checked_sub_one_iff.mpr ⟨(le_sub_one_iff _).mpr hsp, rfl⟩

theorem steps_push {s : State} {block : Block} (hfetch : Fetches s block) (hblock : IsPush block)
    (hpc : s.pc ≠ 0x7FFFFFFF) (hsp : s.sp - 1 ≠ 0x7FFFFFFF)
    (hroom : (s.sp - 1).toNat < s.memory.size) :
    ∃ s' value, Steps s s' ∧ Stores s s' (s.pc + 1) value := by
  let value : RegisterValue := s.2.setPc (s.pc + 1) ⟨block.reg.toNat, hblock.reg⟩
  have hget : (s.2.setPc (s.pc + 1)).get block.reg = .ok value := dif_pos hblock.reg
  refine ⟨(s.stored value, (s.2.setPc (s.pc + 1)).setSp (s.sp - 1)), value,
    (steps_iff hfetch).mpr ⟨hpc, ?_⟩, by simp [State.pc], by simp [State.sp], rfl⟩
  simp only [execute, hblock.code, s.checked_sp hsp, hget, s.store_eq hroom, bind, Except.bind,
    pure,
    Except.pure]

theorem steps_call {s : State} {block : Block} (hfetch : Fetches s block)
    (hblock : block.code = .call)
    (hpc : s.pc ≠ 0x7FFFFFFF) (hsp : s.sp - 1 ≠ 0x7FFFFFFF)
    (hroom : (s.sp - 1).toNat < s.memory.size) :
    ∃ s', Steps s s' ∧ Stores s s' block.operand (s.pc + 1) := by
  refine ⟨(s.stored (s.pc + 1), ((s.2.setPc (s.pc + 1)).setSp (s.sp - 1)).setPc block.operand),
    (steps_iff hfetch).mpr ⟨hpc, ?_⟩, by simp [State.pc], by simp [State.sp, sp_setPc], rfl⟩
  simp only [execute, hblock, s.checked_sp hsp, pc_setPc, s.store_eq hroom, bind, Except.bind, pure,
    Except.pure]

structure Takes (s s' : State) (a : RegisterValue) : Prop where
  pc : s'.pc = a
  sp : s'.sp = s.sp + 1
  memory : s'.memory = s.memory

theorem steps_pop {s : State} {block cell : Block} (hfetch : Fetches s block) (hblock : IsPop block)
    (hpc : s.pc ≠ 0x7FFFFFFF) (hsp : s.sp ≠ 0x7FFFFFFF)
    (hcell : s.memory.cells[s.sp.toNat]? = some cell) :
    ∃ s', Steps s s' ∧ Takes s s' (s.pc + 1) ∧ s'.2.get block.reg = .ok cell.operand := by
  obtain ⟨regs, hset⟩ : ∃ regs, (s.2.setPc (s.pc + 1)).set block.reg cell.operand = .ok regs :=
    ⟨_, dif_pos hblock.reg⟩
  obtain ⟨hsame, -⟩ := set_other hset hblock.pc hblock.sp
  have hread : s.1.memory.read (s.2.setPc (s.pc + 1)).sp.toNat = .ok cell := by
    rw [sp_setPc]
    exact PhysicalMemory.read_ok_iff.mpr hcell
  have hchecked : Alu.checked ((s.2.setPc (s.pc + 1)).sp.toInt + 1) = .ok (s.sp + 1) := by
    rw [sp_setPc]
    exact checked_add_one_iff.mpr ⟨(add_one_lt_iff _).mpr hsp, rfl⟩
  refine ⟨(s.1, regs.setSp (s.sp + 1)), (steps_iff hfetch).mpr ⟨hpc, ?_⟩,
    ⟨by simp [State.pc, hsame], by simp [State.sp], rfl⟩, ?_⟩
  · simp only [execute, hblock.code, hread, hset, hchecked, bind, Except.bind, pure, Except.pure]
  · exact (get_setSp regs (s.sp + 1) hblock.sp).trans (get_set hset)

theorem steps_return {s : State} {block cell : Block} (hfetch : Fetches s block)
    (hblock : block.code = .return) (hpc : s.pc ≠ 0x7FFFFFFF) (hsp : s.sp ≠ 0x7FFFFFFF)
    (hcell : s.memory.cells[s.sp.toNat]? = some cell) :
    ∃ s', Steps s s' ∧ Takes s s' cell.operand := by
  have hread : s.1.memory.read (s.2.setPc (s.pc + 1)).sp.toNat = .ok cell := by
    rw [sp_setPc]
    exact PhysicalMemory.read_ok_iff.mpr hcell
  have hchecked : Alu.checked ((s.2.setPc (s.pc + 1)).sp.toInt + 1) = .ok (s.sp + 1) := by
    rw [sp_setPc]
    exact checked_add_one_iff.mpr ⟨(add_one_lt_iff _).mpr hsp, rfl⟩
  refine ⟨(s.1, ((s.2.setPc (s.pc + 1)).setPc cell.operand).setSp (s.sp + 1)),
    (steps_iff hfetch).mpr ⟨hpc, ?_⟩, by simp [State.pc], by simp [State.sp], rfl⟩
  simp only [execute, hblock, hread, hchecked, bind, Except.bind, pure, Except.pure]

theorem executeAluOp_other {code : Instruction} {regs regs' : RegisterFile} {dstReg : BitVec 8}
    {operand : RegisterValue} {interrupt : Interrupt} (hpc : dstReg ≠ 14) (hsp : dstReg ≠ 15)
    (h : executeAluOp code regs dstReg operand = .ok (interrupt, regs')) :
    regs'.pc = regs.pc ∧ regs'.sp = regs.sp := by
  unfold executeAluOp at h
  simp only [bind_eq_ok] at h
  obtain ⟨a, -, result, -, h⟩ := h
  split at h
  · cases h
    exact ⟨rfl, rfl⟩
  · cases h
    exact ⟨rfl, rfl⟩
  · rw [bind_eq_ok] at h
    obtain ⟨regs₁, hset, h⟩ := h
    cases h
    exact set_other hset hpc hsp

theorem execute_plain {c c' : Cpu} {block : Block} {regs regs' : RegisterFile}
    {interrupt : Interrupt}
    (hblock : IsPlain block) (h : c.execute block regs = .ok (interrupt, c', regs')) :
    c'.memory = c.memory ∧ regs'.pc = regs.pc ∧ regs'.sp = regs.sp := by
  cases hcode : block.code <;> simp only [IsPlain, hcode] at hblock
  case nop =>
    simp only [execute, hcode] at h
    cases h
    exact ⟨rfl, rfl, rfl⟩
  case mov =>
    simp only [execute, hcode, bind_eq_ok] at h
    obtain ⟨value, -, regs₁, hset, h⟩ := h
    cases h
    exact ⟨rfl, set_other hset hblock.1 hblock.2⟩
  case compare =>
    simp only [execute, hcode, bind_eq_ok] at h
    obtain ⟨a, -, b, -, h⟩ := h
    cases h
    exact ⟨rfl, rfl, rfl⟩
  case readMemory =>
    simp only [execute, hcode, bind_eq_ok] at h
    obtain ⟨address, -, h⟩ := h
    split at h
    · cases h
      exact ⟨rfl, rfl, rfl⟩
    · rw [bind_eq_ok] at h
      obtain ⟨regs₁, hset, h⟩ := h
      cases h
      exact ⟨rfl, set_other hset hblock.1 hblock.2⟩
  all_goals
    simp only [execute, hcode, bind_eq_ok] at h
    obtain ⟨operand, -, result, halu, h⟩ := h
    cases h
    exact ⟨rfl, executeAluOp_other hblock.1 hblock.2 halu⟩

theorem steps_plain {s s' : State} {block : Block} (hfetch : Fetches s block)
    (hblock : IsPlain block)
    (h : Steps s s') : Reaches 0 (s.pc + 1) s s' := by
  obtain ⟨-, h⟩ := (steps_iff hfetch).mp h
  obtain ⟨hmemory, hpc, hsp⟩ := execute_plain hblock h
  rw [pc_setPc] at hpc
  rw [sp_setPc] at hsp
  have hsame : s'.memory = s.memory := hmemory
  exact ⟨hpc, hsp, by rw [hsame]; exact .refl 0 _ _⟩

theorem Holds.fetches {s : State} {code : BalancedCode} {a sp : RegisterValue} {block : Block}
    (h : Holds s.memory code a sp) (hmem : (s.pc, block) ∈ code.instructions a) : Fetches s block :=
  PhysicalMemory.read_ok_iff.mpr (h.held _ hmem)

theorem Stores.keeps {s s₁ : State} {a value : RegisterValue} (h : Stores s s₁ a value) :
    Keeps 1 s.sp s.memory s₁.memory := by
  rw [h.memory]
  exact .write s.sp s.memory _

theorem Stores.cell {s s₁ : State} {a value : RegisterValue} (h : Stores s s₁ a value)
    (hroom : (s.sp - 1).toNat < s.memory.size) :
    s₁.memory.cells[s₁.sp.toNat]? = some { operand := value } := by
  rw [h.sp, h.memory]
  exact PhysicalMemory.cell_write_self _ hroom

theorem Reaches.cell {s s' : State} {depth : ℕ} {a : RegisterValue} (h : Reaches depth a s s')
    (hne : ∀ i, 1 ≤ i → i ≤ depth → BitVec.ofNat 32 i ≠ 0) :
    s'.memory.cells[s'.sp.toNat]? = s.memory.cells[s.sp.toNat]? := by
  rw [h.sp]
  apply h.memory.cells
  intro i hi hid heq
  apply hne i hi hid
  have hsame : s.sp = stackCell s.sp i := BitVec.eq_of_toNat_eq heq
  unfold stackCell at hsame
  bv_omega

theorem Reaches.close {s s₁ s₂ s₃ : State} {a b value e : RegisterValue} {depth : ℕ}
    (hstores : Stores s s₁ a value) (hbody : Reaches depth b s₁ s₂) (htakes : Takes s₂ s₃ e) :
    Reaches (depth + 1) e s s₃ := by
  have hmemory := hbody.memory
  rw [hstores.sp] at hmemory
  refine ⟨htakes.pc, ?_, ?_⟩
  · rw [htakes.sp, hbody.sp, hstores.sp]
    bv_omega
  · rw [htakes.memory]
    exact (hstores.keeps.mono (by omega)).trans hmemory.nested

theorem Reaches.seq {s s₁ s₂ : State} {a b : RegisterValue} {depth depth' : ℕ}
    (h : Reaches depth a s s₁) (h' : Reaches depth' b s₁ s₂) :
      Reaches (max depth depth') b s s₂ := by
  have hmemory := h'.memory
  rw [h.sp] at hmemory
  refine ⟨h'.pc, h'.sp.trans h.sp, ?_⟩
  exact (h.memory.mono (Nat.le_max_left _ _)).trans (hmemory.mono (Nat.le_max_right _ _))

theorem enter_body {code body : BalancedCode} {s s₁ : State} {a value : RegisterValue}
    (hholds : Holds s.memory code s.pc s.sp) (hplain : NonFaulting code s) (hstep : Steps s s₁)
    (hstores : Stores s s₁ a value)
    (hmem : ∀ entry ∈ body.instructions a, entry ∈ code.instructions s.pc)
    (hdepth : body.depth + 1 = code.depth) (hsteps : 1 + body.steps + 1 = code.steps) :
    Holds s₁.memory body s₁.pc s₁.sp ∧ NonFaulting body s₁ := by
  refine ⟨?_, hplain.part (run_of_steps hstep 0) (by omega)⟩
  rw [hstores.pc, hstores.sp]
  have hkept := hholds.keeps (hstores.keeps.mono (by omega))
  exact hkept.part hmem hdepth.le (stackCell_sub_one s.sp)

theorem Avoids.body {code body : BalancedCode} {s s₁ : State} {a value : RegisterValue}
    (havoids : Avoids code s.pc s.sp) (hstores : Stores s s₁ a value)
    (hmem : ∀ entry ∈ body.instructions a, entry ∈ code.instructions s.pc)
    (hdepth : body.depth + 1 = code.depth) : Avoids body s₁.pc s₁.sp := by
  rw [hstores.pc, hstores.sp]
  exact havoids.part hmem hdepth.le (stackCell_sub_one s.sp)

theorem leave_body {code body : BalancedCode} {s s₁ s₂ : State} {a b value : RegisterValue}
    {block : Block} (hholds : Holds s.memory code s.pc s.sp) (hstores : Stores s s₁ a value)
    (hreaches : Reaches body.depth b s₁ s₂) (hmem : (b, block) ∈ code.instructions s.pc)
    (hdepth : body.depth + 1 = code.depth) : Fetches s₂ block ∧ s₂.sp = stackCell s.sp 1 := by
  have hsp := hreaches.sp
  have hmemory := hreaches.memory
  rw [hstores.sp] at hsp hmemory
  have hkeeps := (hstores.keeps.mono (by omega)).trans hmemory.nested
  rw [hdepth] at hkeeps
  refine ⟨(hholds.keeps hkeeps).fetches (a := s.pc) ?_, hsp⟩
  rw [hreaches.pc]
  exact hmem

theorem stored_found {code body : BalancedCode} {s s₁ s₂ : State} {a b value : RegisterValue}
    (hholds : Holds s.memory code s.pc s.sp) (havoids : Avoids code s.pc s.sp)
    (hstores : Stores s s₁ a value) (hreaches : Reaches body.depth b s₁ s₂)
    (hdepth : body.depth + 1 = code.depth) :
    s₂.memory.cells[s₂.sp.toNat]? = some { operand := value } := by
  have hroom := hholds.room 1 le_rfl (by omega)
  rw [hreaches.cell]
  · exact hstores.cell hroom
  · intro i hi hid
    exact ofNat_ne_zero_of_avoids havoids.stack hi (by omega)

theorem mem_pushPop {push pop : Block} {hpush : IsPush push} {hpop : IsPop pop}
    {body : BalancedCode}
    {a : RegisterValue} : ∀ entry ∈ body.instructions (a + 1),
      entry ∈ (BalancedCode.pushPop push hpush body pop hpop).instructions a :=
  fun _ hentry => List.mem_cons_of_mem _ (List.mem_append_left _ hentry)

theorem mem_call {enter ret : Block} {hcall : enter.code = .call} {hret : ret.code = .return}
    {body : BalancedCode} {a : RegisterValue} : ∀ entry ∈ body.instructions enter.operand,
      entry ∈ (BalancedCode.call enter hcall body ret hret).instructions a :=
  fun _ hentry => List.mem_cons_of_mem _ (List.mem_append_left _ hentry)

theorem mem_last {first last : RegisterValue × Block} {between : List (RegisterValue × Block)} :
    last ∈ first :: (between ++ [last]) := by
  simp

theorem Holds.second {first second : BalancedCode} {s s₁ : State}
    (h : Holds s.memory (.seq first second) s.pc s.sp)
    (hreaches : Reaches first.depth (first.after s.pc) s s₁) :
      Holds s₁.memory second s₁.pc s₁.sp := by
  rw [hreaches.pc, hreaches.sp]
  have hkept := h.keeps (hreaches.memory.mono (Nat.le_max_left _ _))
  exact hkept.part (k := 0) (fun _ => List.mem_append_right _) (Nat.le_max_right _ _) fun _ => rfl

theorem Holds.first {first second : BalancedCode} {m : PhysicalMemory} {a sp : RegisterValue}
    (h : Holds m (.seq first second) a sp) : Holds m first a sp :=
  h.part (k := 0) (fun _ => List.mem_append_left _) (Nat.le_max_left _ _) fun _ => rfl

theorem NonFaulting.first {first second : BalancedCode} {s : State}
    (h : NonFaulting (.seq first second) s) : NonFaulting first s :=
  h.part (n := 0) rfl (by simp [BalancedCode.steps])

theorem executes_of_avoids {code : BalancedCode} {s : State}
    (hholds : Holds s.memory code s.pc s.sp)
    (hplain : NonFaulting code s) (havoids : Avoids code s.pc s.sp) :
    ∃ s', Executes code s s' ∧ Reaches code.depth (code.after s.pc) s s' := by
  induction code generalizing s with
  | empty => exact ⟨s, .empty s, rfl, rfl, .refl 0 _ _⟩
  | plain block h =>
    have hfetch : Fetches s block := hholds.fetches List.mem_cons_self
    obtain ⟨s', hstep⟩ := hplain 0 Nat.zero_lt_one s rfl block hfetch h
    exact ⟨s', .plain hfetch hstep, steps_plain hfetch h hstep⟩
  | seq first second ih ih' =>
    obtain ⟨s₁, hfirst, hreaches⟩ := ih hholds.first hplain.first
      (havoids.part (k := 0) (fun _ => List.mem_append_left _) (Nat.le_max_left _ _) fun _ => rfl)
    have havoids' : Avoids second s₁.pc s₁.sp := by
      rw [hreaches.pc, hreaches.sp]
      exact havoids.part (k := 0) (fun _ => List.mem_append_right _) (Nat.le_max_right _ _)
        fun _ => rfl
    obtain ⟨s₂, hsecond, hreaches'⟩ := ih' (hholds.second hreaches)
      (hplain.part hfirst.run le_rfl) havoids'
    rw [hreaches.pc] at hreaches'
    exact ⟨s₂, .seq hfirst hsecond, hreaches.seq hreaches'⟩
  | pushPop push hpush body pop hpop ih =>
    have hfetch : Fetches s push := hholds.fetches List.mem_cons_self
    have hroom := hholds.room 1 le_rfl (Nat.le_add_left 1 _)
    have hlimit := havoids.stack 1 le_rfl (Nat.le_add_left 1 _)
    obtain ⟨s₁, value, hstep, hstores⟩ := steps_push hfetch hpush
      (havoids.instructions _ List.mem_cons_self) hlimit hroom
    obtain ⟨hheld, hplain'⟩ := enter_body hholds hplain hstep hstores mem_pushPop rfl rfl
    obtain ⟨s₂, hbody, hreaches⟩ := ih hheld hplain' (havoids.body hstores mem_pushPop rfl)
    rw [hstores.pc] at hreaches
    obtain ⟨hfetch', hsp⟩ := leave_body hholds hstores hreaches mem_last rfl
    have hpc : s₂.pc ≠ 0x7FFFFFFF := by
      rw [hreaches.pc]
      exact havoids.instructions _ mem_last
    obtain ⟨s₃, hstep', htakes, hdelivered⟩ := steps_pop hfetch' hpop hpc (hsp ▸ hlimit)
      (stored_found hholds havoids hstores hreaches rfl)
    rw [hreaches.pc] at htakes
    exact ⟨s₃, .pushPop hfetch hstep (hstores.cell hroom) hbody hfetch' hstep' hdelivered,
      .close hstores hreaches htakes⟩
  | call enter hcall body ret hret ih =>
    have hfetch : Fetches s enter := hholds.fetches List.mem_cons_self
    have hroom := hholds.room 1 le_rfl (Nat.le_add_left 1 _)
    have hlimit := havoids.stack 1 le_rfl (Nat.le_add_left 1 _)
    obtain ⟨s₁, hstep, hstores⟩ := steps_call hfetch hcall
      (havoids.instructions _ List.mem_cons_self) hlimit hroom
    obtain ⟨hheld, hplain'⟩ := enter_body hholds hplain hstep hstores mem_call rfl rfl
    obtain ⟨s₂, hbody, hreaches⟩ := ih hheld hplain' (havoids.body hstores mem_call rfl)
    rw [hstores.pc] at hreaches
    obtain ⟨hfetch', hsp⟩ := leave_body hholds hstores hreaches mem_last rfl
    have hpc : s₂.pc ≠ 0x7FFFFFFF := by
      rw [hreaches.pc]
      exact havoids.instructions _ mem_last
    obtain ⟨s₃, hstep', htakes⟩ := steps_return hfetch' hret hpc (hsp ▸ hlimit)
      (stored_found hholds havoids hstores hreaches rfl)
    exact ⟨s₃, .call hfetch hstep hstores.pc hbody hfetch' hstep' htakes.pc,
      .close hstores hreaches htakes⟩

theorem Steps.unique {s s₁ s₂ : State} (h₁ : Steps s s₁) (h₂ : Steps s s₂) : s₁ = s₂ := by
  unfold Steps at h₁ h₂
  rw [h₁] at h₂
  exact (Prod.mk.inj (Except.ok.inj h₂)).2

theorem pc_ne_of_steps {s s' : State} {block : Block} (hfetch : Fetches s block) (h : Steps s s') :
    s.pc ≠ 0x7FFFFFFF :=
  ((steps_iff hfetch).mp h).1

theorem sp_ne_of_steps {s s' : State} {block : Block} (hfetch : Fetches s block)
    (hblock : block.code = .push ∨ block.code = .call) (h : Steps s s') :
      s.sp - 1 ≠ 0x7FFFFFFF := by
  obtain ⟨-, h⟩ := (steps_iff hfetch).mp h
  rw [← le_sub_one_iff]
  rcases hblock with hcode | hcode
  · simp only [execute, hcode, bind_eq_ok, checked_sub_one_iff, sp_setPc] at h
    obtain ⟨sp, ⟨hsp, -⟩, -⟩ := h
    exact hsp
  · simp only [execute, hcode, bind_eq_ok, checked_sub_one_iff, sp_setPc] at h
    obtain ⟨sp, ⟨hsp, -⟩, -⟩ := h
    exact hsp

theorem Avoids.close {code body : BalancedCode} {a b e sp : RegisterValue} {first last : Block}
    (hcode : code.instructions a = (a, first) :: (body.instructions b ++ [(e, last)]))
    (hdepth : code.depth = body.depth + 1) (hfirst : a ≠ 0x7FFFFFFF) (hlast : e ≠ 0x7FFFFFFF)
    (hsp : sp - 1 ≠ 0x7FFFFFFF) (hbody : Avoids body b (sp - 1)) : Avoids code a sp := by
  refine ⟨?_, fun i hi hid => ?_⟩
  · rw [hcode, List.forall_mem_cons, List.forall_mem_append]
    exact ⟨hfirst, hbody.instructions, by simpa using hlast⟩
  · by_cases hone : i = 1
    · rw [hone]
      exact hsp
    · have hcell := hbody.stack (i - 1) (by omega) (by omega)
      rwa [stackCell_sub_one, Nat.sub_add_cancel hi] at hcell

theorem end_ne_of_steps {body : BalancedCode} {s s' s'' : State} {last : Block}
    (hholds : Holds s.memory body s.pc s.sp) (hplain : NonFaulting body s)
    (havoids : Avoids body s.pc s.sp) (hbody : Executes body s s') (hfetch : Fetches s' last)
    (hstep : Steps s' s'') : body.after s.pc ≠ 0x7FFFFFFF := by
  obtain ⟨t, hbody', hreaches⟩ := executes_of_avoids hholds hplain havoids
  obtain rfl := hbody'.unique hbody
  have hend := pc_ne_of_steps hfetch hstep
  rwa [hreaches.pc] at hend

theorem avoids_of_executes {code : BalancedCode} {s s' : State}
    (hholds : Holds s.memory code s.pc s.sp) (hplain : NonFaulting code s)
      (h : Executes code s s') :
    Avoids code s.pc s.sp := by
  induction code generalizing s s' with
  | empty => exact ⟨by simp [BalancedCode.instructions], by simp [BalancedCode.depth]; omega⟩
  | plain block hblock =>
    cases h with
    | plain hfetch hstep =>
      have hpc := pc_ne_of_steps hfetch hstep
      exact ⟨by simpa [BalancedCode.instructions] using hpc, by simp [BalancedCode.depth]; omega⟩
  | seq first second ih ih' =>
    cases h with
    | seq hfirst hsecond =>
      have havoids := ih hholds.first hplain.first hfirst
      obtain ⟨s₁, hfirst', hreaches⟩ := executes_of_avoids hholds.first hplain.first havoids
      obtain rfl := hfirst'.unique hfirst
      have havoids' := ih' (hholds.second hreaches) (hplain.part hfirst.run le_rfl) hsecond
      rw [hreaches.pc, hreaches.sp] at havoids'
      refine ⟨List.forall_mem_append.mpr ⟨havoids.instructions, havoids'.instructions⟩, ?_⟩
      intro i hi hid
      rcases le_max_iff.mp hid with hid | hid
      · exact havoids.stack i hi hid
      · exact havoids'.stack i hi hid
  | pushPop push hpush body pop hpop ih =>
    cases h with
    | pushPop hfetch hstep hstored hbody hfetch' hstep' hdelivered =>
      have hpc := pc_ne_of_steps hfetch hstep
      have hsp := sp_ne_of_steps hfetch (Or.inl hpush.code) hstep
      have hroom := hholds.room 1 le_rfl (Nat.le_add_left 1 _)
      obtain ⟨s₁, value, hpushed, hstores⟩ := steps_push hfetch hpush hpc hsp hroom
      obtain rfl := hpushed.unique hstep
      obtain ⟨hheld, hplain'⟩ := enter_body hholds hplain hstep hstores mem_pushPop rfl rfl
      have havoids := ih hheld hplain' hbody
      have hlast := end_ne_of_steps hheld hplain' havoids hbody hfetch' hstep'
      rw [hstores.pc, hstores.sp] at havoids
      rw [hstores.pc] at hlast
      exact .close rfl rfl hpc hlast hsp havoids
  | call enter hcall body ret hret ih =>
    cases h with
    | call hfetch hstep hentered hbody hfetch' hstep' hresumed =>
      have hpc := pc_ne_of_steps hfetch hstep
      have hsp := sp_ne_of_steps hfetch (Or.inr hcall) hstep
      have hroom := hholds.room 1 le_rfl (Nat.le_add_left 1 _)
      obtain ⟨s₁, hcalled, hstores⟩ := steps_call hfetch hcall hpc hsp hroom
      obtain rfl := hcalled.unique hstep
      obtain ⟨hheld, hplain'⟩ := enter_body hholds hplain hstep hstores mem_call rfl rfl
      have havoids := ih hheld hplain' hbody
      have hlast := end_ne_of_steps hheld hplain' havoids hbody hfetch' hstep'
      rw [hstores.pc, hstores.sp] at havoids
      rw [hstores.pc] at hlast
      exact .close rfl rfl hpc hlast hsp havoids

/-- Balanced code keeps the stack discipline exactly if neither an instruction nor a stack cell of
it lies at the limit of the registers. -/
theorem balanced_disciplined_iff {code : BalancedCode} {s : State}
    (hholds : Holds s.memory code s.pc s.sp) (hplain : NonFaulting code s) :
    Disciplined code s ↔ Avoids code s.pc s.sp := by
  constructor
  · rintro ⟨s', hexecutes, -, -⟩
    exact avoids_of_executes hholds hplain hexecutes
  · intro havoids
    obtain ⟨s', hexecutes, hreaches⟩ := executes_of_avoids hholds hplain havoids
    exact ⟨s', hexecutes, hexecutes.run, hreaches⟩

theorem disciplined_push_nop_pop :
    let code : BalancedCode := .pushPop ⟨.push, 0, 0, 0⟩ ⟨rfl, by decide⟩ (.plain {} trivial)
      ⟨.pop, 1, 0, 0⟩ ⟨rfl, by decide, by decide, by decide⟩
    let s : State := (⟨⟨[⟨.push, 0, 0, 0⟩, {}, ⟨.pop, 1, 0, 0⟩, {}]⟩, 0⟩,
      Function.update (Function.update (fun _ => 7) 14 0) 15 4)
    Holds s.memory code s.pc s.sp ∧ NonFaulting code s ∧ Disciplined code s := by
  intro code s
  have hdepth : code.depth = 1 := rfl
  have hholds : Holds s.memory code s.pc s.sp := by
    refine ⟨by decide, fun i hi hid => ?_, fun entry hentry i hi hid => ?_⟩
    · obtain rfl : i = 1 := by omega
      decide
    · obtain rfl : i = 1 := by omega
      revert entry
      decide
  have hplain : NonFaulting code s := by
    intro k hk s' hrun block hfetch hblock
    have hsteps : code.steps = 3 := rfl
    have hone : s.1.run s.2 1 =
      .ok (⟨⟨[⟨.push, 0, 0, 0⟩, {}, ⟨.pop, 1, 0, 0⟩, ⟨.nop, 0, 7, 0⟩]⟩, 0⟩,
        (s.2.setPc 1).setSp 3) := by
      subst s
      rfl
    have htwo : s.1.run s.2 2 =
      .ok (⟨⟨[⟨.push, 0, 0, 0⟩, {}, ⟨.pop, 1, 0, 0⟩, ⟨.nop, 0, 7, 0⟩]⟩, 0⟩,
        ((s.2.setPc 1).setSp 3).setPc 2) := by
      subst s
      rfl
    obtain rfl | rfl | rfl : k = 0 ∨ k = 1 ∨ k = 2 := by omega
    · cases hrun
      cases hfetch
      exact hblock.elim
    · cases hone.symm.trans hrun
      have hnop : block = {} := (Result.ok.inj hfetch).symm
      rw [hnop] at hfetch
      exact ⟨_, (steps_iff hfetch).mpr ⟨by decide, rfl⟩⟩
    · cases htwo.symm.trans hrun
      cases hfetch
      exact hblock.elim
  refine ⟨hholds, hplain,
    (balanced_disciplined_iff hholds hplain).mpr ⟨by decide, fun i hi hid => ?_⟩⟩
  obtain rfl : i = 1 := by omega
  decide

theorem cells_after_replicate (n : ℕ) (block first second : Block) :
    (List.replicate n block ++ [first, second])[n]? = some first ∧
      (List.replicate n block ++ [first, second])[n + 1]? = some second := by
  constructor
  · rw [List.getElem?_append_right (by simp)]
    simp
  · rw [List.getElem?_append_right (by simp)]
    simp

/-- A push at the last positive address does not get to its pop. -/
theorem undisciplined_at_limit :
    let code : BalancedCode := .pushPop ⟨.push, 0, 0, 0⟩ ⟨rfl, by decide⟩ .empty
      ⟨.pop, 1, 0, 0⟩ ⟨rfl, by decide, by decide, by decide⟩
    let s : State :=
      (⟨⟨List.replicate 0x7FFFFFFF default ++ [⟨.push, 0, 0, 0⟩, ⟨.pop, 1, 0, 0⟩]⟩, 0⟩,
        Function.update (Function.update (fun _ => 7) 14 0x7FFFFFFF) 15 1)
    Holds s.memory code s.pc s.sp ∧ NonFaulting code s ∧ ¬ Disciplined code s := by
  intro code s
  have hdepth : code.depth = 1 := rfl
  have hcells := cells_after_replicate 0x7FFFFFFF default ⟨.push, 0, 0, 0⟩ ⟨.pop, 1, 0, 0⟩
  have hpc : s.pc = 0x7FFFFFFF := rfl
  have hfetch : Fetches s ⟨.push, 0, 0, 0⟩ := PhysicalMemory.read_ok_iff.mpr hcells.1
  have hholds : Holds s.memory code s.pc s.sp := by
    refine ⟨?_, fun i hi hid => ?_, fun entry hentry i hi hid => ?_⟩
    · exact List.forall_mem_cons.mpr ⟨hcells.1, List.forall_mem_cons.mpr ⟨hcells.2, by simp⟩⟩
    · obtain rfl : i = 1 := by omega
      have hsize : 0x7FFFFFFF < s.memory.size := (List.getElem?_eq_some_iff.mp hcells.1).1
      have hcell : (stackCell s.sp 1).toNat = 0 := by decide
      omega
    · obtain rfl : i = 1 := by omega
      revert entry
      decide
  have hplain : NonFaulting code s := by
    intro k hk s' hrun block hfetch' hblock
    have hsteps : code.steps = 2 := rfl
    obtain rfl | rfl : k = 0 ∨ k = 1 := by omega
    · cases hrun
      cases hfetch'.symm.trans hfetch
      exact hblock.elim
    · rw [run_succ_left, bind_eq_ok] at hrun
      obtain ⟨result, hstep, -⟩ := hrun
      have hlt := ((step_eq_ok_iff hfetch).mp hstep).1
      exact absurd hpc ((add_one_lt_iff _).mp hlt)
  refine ⟨hholds, hplain, ?_⟩
  rintro ⟨s', hexecutes, -, -⟩
  exact (avoids_of_executes hholds hplain hexecutes).instructions _ List.mem_cons_self hpc

end Cpu
end Contur
