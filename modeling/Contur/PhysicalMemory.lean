import Contur.Block

/-!
# Physical memory

The memory is a vector of blocks with checked accesses. Its size never changes.
-/

namespace Contur

structure PhysicalMemory where
  cells : List Block
  deriving DecidableEq, Repr

namespace PhysicalMemory

def ofSize (cellCount : ℕ) : PhysicalMemory := ⟨List.replicate cellCount default⟩

def size (m : PhysicalMemory) : ℕ := m.cells.length

def read (m : PhysicalMemory) (address : MemoryAddress) : Result Block :=
  match m.cells[address]? with
  | some block => .ok block
  | none => .error .invalidAddress

def write (m : PhysicalMemory) (address : MemoryAddress) (block : Block) :
    Result Unit × PhysicalMemory :=
  if address < m.size then (.ok (), ⟨m.cells.set address block⟩)
  else (.error .invalidAddress, m)

@[simp] theorem size_ofSize (n : ℕ) : (ofSize n).size = n := by simp [ofSize, size]

@[simp] theorem size_write (m : PhysicalMemory) (a : MemoryAddress) (b : Block) :
    (m.write a b).2.size = m.size := by
  unfold write
  split_ifs <;> simp [size]

theorem write_ok {m : PhysicalMemory} {a : MemoryAddress} (b : Block) (ha : a < m.size) :
    m.write a b = (.ok (), ⟨m.cells.set a b⟩) := by
  simp [write, ha]

theorem read_ok_iff {m : PhysicalMemory} {a : MemoryAddress} {b : Block} :
    m.read a = .ok b ↔ m.cells[a]? = some b := by
  unfold read
  cases m.cells[a]? <;> simp

theorem read_ok {m : PhysicalMemory} {a : MemoryAddress} (ha : a < m.size) :
    ∃ b, m.cells[a]? = some b ∧ m.read a = .ok b := by
  obtain ⟨b, hb⟩ := Option.isSome_iff_exists.mp (by simpa [size] using ha : m.cells[a]?.isSome)
  exact ⟨b, hb, read_ok_iff.mpr hb⟩

theorem cell_write_self {m : PhysicalMemory} {a : MemoryAddress} (b : Block) (ha : a < m.size) :
    (m.write a b).2.cells[a]? = some b := by
  simp only [write_ok b ha]
  exact List.getElem?_set_self ha

theorem cell_write_ne (m : PhysicalMemory) {a c : MemoryAddress} (b : Block) (hc : c ≠ a) :
    (m.write a b).2.cells[c]? = m.cells[c]? := by
  unfold write
  split_ifs
  · exact List.getElem?_set_ne hc.symm
  · rfl

end PhysicalMemory
end Contur
