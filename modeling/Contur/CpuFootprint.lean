import Contur.Interpreter

/-!
# What a slice reads and sets

The places where one slice can leave something for another are the compare flags and the
cells of the memory. A step reads the cell under the program counter and what its block
asks for, and sets at most one place. What a slice reads before it sets it decides, with
the registers, about everything the slice does: two processors that hold the same at
these places execute the same steps, set the same places to the same values and leave
all others as they are.
-/

namespace Contur

inductive Location where
  | flags
  | cell (address : MemoryAddress)
  deriving DecidableEq, Repr

namespace Cpu

def SameAt (c t : Cpu) : Location → Prop
  | .flags => c.flags = t.flags
  | .cell a => c.memory.cells[a]? = t.memory.cells[a]?

instance (c t : Cpu) : ∀ place, Decidable (SameAt c t place)
  | .flags => inferInstanceAs (Decidable (c.flags = t.flags))
  | .cell a => inferInstanceAs (Decidable (c.memory.cells[a]? = t.memory.cells[a]?))

variable {c c' t u : Cpu} {block : Block} {regs regs' : RegisterFile} {interrupt : Interrupt}
  {place : Location}

theorem SameAt.refl (c : Cpu) (place : Location) : c.SameAt c place := by
  cases place <;> rfl

theorem SameAt.symm (h : c.SameAt t place) : t.SameAt c place := by
  cases place <;> exact Eq.symm h

theorem SameAt.trans (h : c.SameAt t place) (h' : t.SameAt u place) : c.SameAt u place := by
  cases place <;> exact Eq.trans h h'

theorem SameAt.read (h : c.SameAt t (.cell a)) : t.memory.read a = c.memory.read a := by
  have h : c.memory.cells[a]? = t.memory.cells[a]? := h
  simp only [PhysicalMemory.read, h]

/-- What a block does to the processor, apart from the registers. -/
inductive Effect where
  | keep
  | compare (flags : RegisterValue)
  | store (address : MemoryAddress) (cell : Block)

namespace Effect

def apply (c : Cpu) : Effect → Cpu
  | keep => c
  | compare flags => { c with flags := flags }
  | store a cell => { c with memory := (c.memory.write a cell).2 }

def sets : Effect → List Location
  | keep => []
  | compare _ => [.flags]
  | store a _ => [.cell a]

theorem size_apply (c : Cpu) (x : Effect) : (x.apply c).memory.size = c.memory.size := by
  cases x with
  | store a cell => exact PhysicalMemory.size_write ..
  | _ => rfl

theorem apply_set {x : Effect} (hsize : t.memory.size = c.memory.size) (h : place ∈ x.sets) :
    (x.apply c).SameAt (x.apply t) place := by
  cases x with
  | keep => cases h
  | compare flags =>
    obtain rfl := List.mem_singleton.mp h
    rfl
  | store a cell =>
    obtain rfl := List.mem_singleton.mp h
    change (c.memory.write a cell).2.cells[a]? = (t.memory.write a cell).2.cells[a]?
    by_cases ha : a < c.memory.size
    · rw [PhysicalMemory.cell_write_self cell ha, PhysicalMemory.cell_write_self cell (hsize ▸ ha)]
    · have hlen : ∀ m : PhysicalMemory, m.size = c.memory.size →
          (m.write a cell).2.cells[a]? = none := by
        intro m hm
        rw [List.getElem?_eq_none_iff]
        exact ((PhysicalMemory.size_write m a cell).trans hm).le.trans (Nat.not_lt.mp ha)
      rw [hlen c.memory rfl, hlen t.memory hsize]

theorem apply_frame {x : Effect} (h : place ∉ x.sets) : (x.apply c).SameAt c place := by
  cases x with
  | keep => exact .refl c place
  | compare flags =>
    cases place with
    | flags => exact absurd (List.mem_singleton_self _) h
    | cell a => rfl
  | store a cell =>
    cases place with
    | flags => rfl
    | cell b =>
      refine PhysicalMemory.cell_write_ne c.memory cell ?_
      rintro rfl
      exact h (List.mem_singleton_self _)

end Effect

def readTargets (block : Block) (regs : RegisterFile) : List Location :=
  match block.code with
  | .jumpEqual | .jumpNotEqual | .jumpGreater | .jumpLess | .jumpGreaterEqual | .jumpLessEqual =>
    [.flags]
  | .pop | .return => [.cell regs.sp.toNat]
  | .readMemory =>
    match resolveOperand block regs with
    | .ok address => [.cell address.toNat]
    | .error _ => []
  | _ => []

def setTargets (block : Block) (regs : RegisterFile) : List Location :=
  match block.code with
  | .compare => [.flags]
  | _ => (storeTarget block regs).toList.map .cell

theorem store_eq (c : Cpu) (address value : RegisterValue) :
    c.store address value =
      (if address.toNat < c.memory.size then .ok () else .error .invalidAddress,
      (Effect.store address.toNat { operand := value }).apply c) := by
  unfold store PhysicalMemory.write
  split_ifs with h
  · simp [Effect.apply, PhysicalMemory.write, h]
  · simp [Effect.apply, PhysicalMemory.write, h]

/-- A store is refused on both processors or on none. -/
theorem store_agree {address value : RegisterValue} {stored : RegisterFile}
    (hsize : t.memory.size = c.memory.size)
    (h : (match c.store address value with
      | (.error _, c) => @Except.ok Undefined _ (Interrupt.error, c, regs)
      | (.ok _, c) => .ok (.ok, c, stored)) = .ok (interrupt, c', regs')) :
    c' = (Effect.store address.toNat { operand := value }).apply c ∧
      (match t.store address value with
        | (.error _, c) => @Except.ok Undefined _ (Interrupt.error, c, regs)
        | (.ok _, c) => .ok (.ok, c, stored)) =
          .ok (interrupt, (Effect.store address.toNat { operand := value }).apply t, regs') := by
  rw [store_eq] at h ⊢
  rw [hsize]
  split_ifs at h ⊢
  · cases h
    exact ⟨rfl, rfl⟩
  · cases h
    exact ⟨rfl, rfl⟩

theorem execute_agree (hsize : t.memory.size = c.memory.size)
    (hreads : ∀ place ∈ readTargets block regs, c.SameAt t place)
    (h : c.execute block regs = .ok (interrupt, c', regs')) :
    ∃ x : Effect, c' = x.apply c ∧ x.sets = setTargets block regs ∧
      t.execute block regs = .ok (interrupt, x.apply t, regs') := by
  cases hcode : block.code with
  | nop | halt | interrupt | unknown code =>
    simp only [execute, hcode] at h ⊢
    cases h
    exact ⟨.keep, rfl, by simp [setTargets, storeTarget, hcode, Effect.sets], rfl⟩
  | jumpEqual | jumpNotEqual | jumpGreater | jumpLess | jumpGreaterEqual | jumpLessEqual =>
    have hflags : c.flags = t.flags := hreads .flags (by simp [readTargets, hcode])
    simp only [execute, hcode, shouldJump, hflags] at h ⊢
    cases h
    exact ⟨.keep, rfl, by simp [setTargets, storeTarget, hcode, Effect.sets], rfl⟩
  | mov =>
    simp only [execute, hcode, bind_eq_ok] at h ⊢
    obtain ⟨value, hvalue, regs₁, hset, h⟩ := h
    cases h
    exact ⟨.keep, rfl, by simp [setTargets, storeTarget, hcode, Effect.sets],
      value, hvalue, regs', hset, rfl⟩
  | compare =>
    simp only [execute, hcode, bind_eq_ok] at h ⊢
    obtain ⟨a, ha, b, hb, h⟩ := h
    cases h
    exact ⟨.compare (Alu.compare a b), rfl, by simp [setTargets, hcode, Effect.sets],
      a, ha, b, hb, rfl⟩
  | add | sub | mul | div | and | or | xor | shiftLeft | shiftRight =>
    simp only [execute, hcode, bind_eq_ok] at h ⊢
    obtain ⟨operand, hoperand, result, hresult, h⟩ := h
    cases h
    exact ⟨.keep, rfl, by simp [setTargets, storeTarget, hcode, Effect.sets],
      operand, hoperand, result, hresult, rfl⟩
  | push =>
    simp only [execute, hcode, bind_eq_ok] at h ⊢
    obtain ⟨sp, hsp, value, hvalue, h⟩ := h
    obtain ⟨rfl, ht⟩ := store_agree hsize h
    exact ⟨_, rfl, by simp [setTargets, storeTarget, hcode, Effect.sets, checked_sub_one hsp],
      sp, hsp, value, hvalue, ht⟩
  | call =>
    simp only [execute, hcode, bind_eq_ok] at h ⊢
    obtain ⟨sp, hsp, h⟩ := h
    obtain ⟨rfl, ht⟩ := store_agree hsize h
    exact ⟨_, rfl, by simp [setTargets, storeTarget, hcode, Effect.sets, checked_sub_one hsp],
      sp, hsp, ht⟩
  | writeMemory =>
    simp only [execute, hcode, bind_eq_ok] at h ⊢
    obtain ⟨value, hvalue, h⟩ := h
    obtain ⟨rfl, ht⟩ := store_agree hsize h
    exact ⟨_, rfl, by simp [setTargets, storeTarget, hcode, Effect.sets], value, hvalue, ht⟩
  | pop =>
    have hread := (hreads (.cell regs.sp.toNat) (by simp [readTargets, hcode])).read
    simp only [execute, hcode, hread] at h ⊢
    cases hcell : c.memory.read regs.sp.toNat with
    | error e =>
      rw [hcell] at h
      cases h
      exact ⟨.keep, rfl, by simp [setTargets, storeTarget, hcode, Effect.sets], rfl⟩
    | ok top =>
      simp only [hcell, bind_eq_ok] at h ⊢
      obtain ⟨popped, hset, sp, hsp, h⟩ := h
      cases h
      exact ⟨.keep, rfl, by simp [setTargets, storeTarget, hcode, Effect.sets],
        popped, hset, sp, hsp, rfl⟩
  | «return» =>
    have hread := (hreads (.cell regs.sp.toNat) (by simp [readTargets, hcode])).read
    simp only [execute, hcode, hread] at h ⊢
    cases hcell : c.memory.read regs.sp.toNat with
    | error e =>
      rw [hcell] at h
      cases h
      exact ⟨.keep, rfl, by simp [setTargets, storeTarget, hcode, Effect.sets], rfl⟩
    | ok top =>
      simp only [hcell, bind_eq_ok] at h ⊢
      obtain ⟨sp, hsp, h⟩ := h
      cases h
      exact ⟨.keep, rfl, by simp [setTargets, storeTarget, hcode, Effect.sets], sp, hsp, rfl⟩
  | readMemory =>
    simp only [execute, hcode, bind_eq_ok] at h ⊢
    obtain ⟨address, haddress, h⟩ := h
    have hread := (hreads (.cell address.toNat) (by simp [readTargets, hcode, haddress])).read
    cases hcell : c.memory.read address.toNat with
    | error e =>
      rw [hcell] at h hread
      cases h
      exact ⟨.keep, rfl, by simp [setTargets, storeTarget, hcode, Effect.sets],
        address, haddress, by rw [hread]; rfl⟩
    | ok cell =>
      rw [hcell] at hread
      simp only [hcell, bind_eq_ok] at h
      obtain ⟨regs₁, hset, h⟩ := h
      cases h
      refine ⟨.keep, rfl, by simp [setTargets, storeTarget, hcode, Effect.sets],
        address, haddress, ?_⟩
      simp only [hread, bind_eq_ok]
      exact ⟨regs', hset, rfl⟩

def nextReads (c : Cpu) (regs : RegisterFile) : List Location :=
  .cell regs.pc.toNat ::
    match c.memory.read regs.pc.toNat with
    | .error _ => []
    | .ok block =>
      match Alu.checked (regs.pc.toInt + 1) with
      | .error _ => []
      | .ok next => readTargets block (regs.setPc next)

def nextSets (c : Cpu) (regs : RegisterFile) : List Location :=
  match c.memory.read regs.pc.toNat with
  | .error _ => []
  | .ok block => setTargets block regs

theorem setTargets_setPc (block : Block) (regs : RegisterFile) (value : RegisterValue) :
    setTargets block (regs.setPc value) = setTargets block regs := by
  simp only [setTargets, storeTarget_setPc]

theorem step_agree (hsize : t.memory.size = c.memory.size)
    (hreads : ∀ place ∈ c.nextReads regs, c.SameAt t place)
    (h : c.step regs = .ok (interrupt, c', regs')) :
    ∃ x : Effect, c' = x.apply c ∧ x.sets = c.nextSets regs ∧
      t.step regs = .ok (interrupt, x.apply t, regs') := by
  have hread := (hreads (.cell regs.pc.toNat) List.mem_cons_self).read
  unfold step at h ⊢
  unfold nextSets
  rw [hread]
  cases hcell : c.memory.read regs.pc.toNat with
  | error e =>
    rw [hcell] at h
    cases h
    exact ⟨.keep, rfl, rfl, rfl⟩
  | ok block =>
    simp only [hcell, bind_eq_ok] at h ⊢
    obtain ⟨next, hnext, h⟩ := h
    obtain ⟨x, hc, hsets, ht⟩ := execute_agree hsize (fun place hplace =>
      hreads place (List.mem_cons_of_mem _ (by simpa only [hcell, hnext] using hplace))) h
    exact ⟨x, hc, hsets.trans (setTargets_setPc ..), next, hnext, ht⟩

end Cpu

namespace InterpreterEngine
open Cpu
variable {e' : InterpreterEngine} {c t : Cpu} {pid : ProcessId} {result : ExecutionResult}
  {regs regs' : RegisterFile} {ticks n : ℕ}

/-- The places that the steps of the loop read before they set them. -/
def loopReads (c : Cpu) (regs : RegisterFile) : ℕ → List Location
  | 0 => []
  | n + 1 =>
    c.nextReads regs ++
      match c.step regs with
      | .ok (.ok, c', regs') => (loopReads c' regs' n).filter (· ∉ c.nextSets regs)
      | _ => []

/-- The places that the steps of the loop set. -/
def loopSets (c : Cpu) (regs : RegisterFile) : ℕ → List Location
  | 0 => []
  | n + 1 =>
    c.nextSets regs ++
      match c.step regs with
      | .ok (.ok, c', regs') => loopSets c' regs' n
      | _ => []

/-- The loop goes the same way on two processors that hold the same at the places it reads before it
sets them. Where it sets something they hold the same afterwards, and elsewhere what they held. -/
theorem runLoop_agree (hsize : t.memory.size = c.memory.size)
    (hreads : ∀ place ∈ loopReads c regs n, c.SameAt t place)
    (h : runLoop ⟨c, ∅⟩ pid regs ticks n = .ok (result, e', regs')) :
    ∃ t', runLoop ⟨t, ∅⟩ pid regs ticks n = .ok (result, ⟨t', ∅⟩, regs') ∧
      t'.memory.size = e'.cpu.memory.size ∧
      (∀ place ∈ loopSets c regs n, e'.cpu.SameAt t' place) ∧
      ∀ place ∉ loopSets c regs n, e'.cpu.SameAt c place ∧ t'.SameAt t place := by
  induction n generalizing c t regs ticks with
  | zero =>
    cases h
    exact ⟨t, rfl, hsize, fun _ hplace => absurd hplace List.not_mem_nil,
      fun place _ => ⟨.refl c place, .refl t place⟩⟩
  | succ n ih =>
    simp only [runLoop, Finset.notMem_empty, ↓reduceIte] at h ⊢
    cases hstep : c.step regs with
    | error undefined =>
      rw [hstep] at h
      cases h
    | ok next =>
      obtain ⟨interrupt, c₁, regs₁⟩ := next
      obtain ⟨x, rfl, hsets, ht⟩ := step_agree hsize
        (fun place hplace => hreads place (List.mem_append_left _ hplace)) hstep
      have hsize₁ : (x.apply t).memory.size = (x.apply c).memory.size := by
        rw [Effect.size_apply, Effect.size_apply, hsize]
      rw [hstep] at h
      rw [ht]
      dsimp only at h ⊢
      cases hstop : stopResult pid (ticks + 1) interrupt with
      | some stopped =>
        rw [hstop] at h
        cases h
        have hnone : interrupt ≠ .ok := by
          rintro rfl
          cases hstop
        have hloop : loopSets c regs (n + 1) = x.sets := by
          cases interrupt <;> simp_all [loopSets]
        refine ⟨_, rfl, hsize₁, ?_, ?_⟩
        · rw [hloop]
          exact fun place hplace => Effect.apply_set hsize hplace
        · rw [hloop]
          exact fun place hplace => ⟨Effect.apply_frame hplace, Effect.apply_frame hplace⟩
      | none =>
        obtain rfl := stopResult_eq_none hstop
        rw [hstop] at h
        have hloop : loopSets c regs (n + 1) = x.sets ++ loopSets (x.apply c) regs₁ n := by
          simp [loopSets, hstep, hsets]
        have hreads₁ : ∀ place ∈ loopReads (x.apply c) regs₁ n,
            (x.apply c).SameAt (x.apply t) place := by
          intro place hplace
          by_cases hset : place ∈ x.sets
          · exact Effect.apply_set hsize hset
          · have hsame : c.SameAt t place := by
              refine hreads place (List.mem_append_right _ ?_)
              simpa [hstep, ← hsets, hset] using hplace
            exact (Effect.apply_frame hset).trans (hsame.trans (Effect.apply_frame hset).symm)
        obtain ⟨t', hrun, hsize', hset', hframe'⟩ := ih hsize₁ hreads₁ h
        refine ⟨t', hrun, hsize', ?_, ?_⟩
        · rw [hloop]
          intro place hplace
          by_cases hlater : place ∈ loopSets (x.apply c) regs₁ n
          · exact hset' place hlater
          · have hnow := (List.mem_append.mp hplace).resolve_right hlater
            obtain ⟨hc, ht⟩ := hframe' place hlater
            exact hc.trans ((Effect.apply_set hsize hnow).trans ht.symm)
        · rw [hloop]
          intro place hplace
          rw [List.mem_append, not_or] at hplace
          obtain ⟨hc, ht⟩ := hframe' place hplace.2
          exact ⟨hc.trans (Effect.apply_frame hplace.1), ht.trans (Effect.apply_frame hplace.1)⟩

end InterpreterEngine
end Contur
