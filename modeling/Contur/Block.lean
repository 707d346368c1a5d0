import Contur.Types

/-!
# Instructions, memory blocks and interrupts

A block is the cell type of the simulated memory: an opcode, a register index
and two 32-bit words. The opcode and the interrupt enumerations of the source
have a fixed underlying type, so a cast can give them a value that no enumerator
names; the last constructor of each stands for these values.
-/

namespace Contur

abbrev RegisterValue := BitVec 32

inductive Instruction where
  | nop | mov | add | sub | mul | div | and | or | xor | shiftLeft | shiftRight
  | compare
  | jumpEqual | jumpNotEqual | jumpGreater | jumpLess | jumpGreaterEqual | jumpLessEqual
  | push | pop | call | return
  | readMemory | writeMemory
  | interrupt | halt
  | unknown (code : BitVec 8)
  deriving DecidableEq, Repr

structure Block where
  code : Instruction := .nop
  reg : BitVec 8 := 0
  operand : RegisterValue := 0
  state : RegisterValue := 0
  deriving DecidableEq, Repr, Inhabited

inductive Interrupt where
  | ok | error | divByZero | systemCall | pageFault | exit | networkIo | timer | deviceIo
  | other (code : RegisterValue)
  deriving DecidableEq, Repr

/-- `static_cast<Interrupt>` of an operand. -/
def Interrupt.ofOperand (x : RegisterValue) : Interrupt :=
  if x = 0 then .ok
  else if x = -1 then .error
  else if x = 3 then .divByZero
  else if x = 11 then .systemCall
  else if x = 14 then .pageFault
  else if x = 16 then .exit
  else if x = 32 then .networkIo
  else if x = 64 then .timer
  else if x = 254 then .deviceIo
  else .other x

end Contur
