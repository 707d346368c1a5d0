import Contur.CpuFootprint

/-!
# Interleaved slices of several processes

Several processes share one engine, and slices of them follow each other in any
order. A process is compared with its own slices run alone from the same state. Two
things that one process leaves behind reach another one: the compare flags and the
memory above the code that is loaded next. A process that reads there only what its own
slices have left behaves as if it were alone, whatever the others set elsewhere; one that
reads what another has left may behave otherwise.
-/

namespace Contur
open Function (update)

structure Slice where
  pid : ProcessId
  tickBudget : ℕ
  deriving DecidableEq, Repr

structure SliceRecord where
  pid : ProcessId
  result : ExecutionResult
  registers : RegisterFile

structure SharedEngine where
  engine : InterpreterEngine
  images : ProcessId → ProcessImage

namespace SharedEngine

def slice (s : SharedEngine) (x : Slice) : Except Undefined (SliceRecord × SharedEngine) :=
  match s.engine.execute x.pid (s.images x.pid) x.tickBudget with
  | .error undefined => .error undefined
  | .ok (result, engine, registers) =>
    .ok (⟨x.pid, result, registers⟩,
      ⟨engine, update s.images x.pid { s.images x.pid with registers := registers }⟩)

def run (s : SharedEngine) : List Slice → Except Undefined (List SliceRecord × SharedEngine)
  | [] => .ok ([], s)
  | x :: xs =>
    match s.slice x with
    | .error undefined => .error undefined
    | .ok (record, s) =>
      match run s xs with
      | .error undefined => .error undefined
      | .ok (records, s) => .ok (record :: records, s)

def observe (p : ProcessId) (records : List SliceRecord) : List SliceRecord :=
  records.filter (·.pid = p)

def alone (p : ProcessId) (xs : List Slice) : List Slice := xs.filter (·.pid = p)

/-- The place lies in the code, which is loaded anew for each slice. -/
def inCode (code : List Block) : Location → Bool
  | .flags => false
  | .cell a => decide (a < code.length)

def starts (s : SharedEngine) (x : Slice) : Bool :=
  decide (x.pid ∉ s.engine.haltedPids ∧ (s.images x.pid).code.length ≤ s.engine.cpu.memory.size)

/-- The places above its code that a slice reads before it sets them. -/
def reads (s : SharedEngine) (x : Slice) : List Location :=
  let process := s.images x.pid
  if s.starts x then
    (InterpreterEngine.loopReads (InterpreterEngine.loaded s.engine.cpu process.code)
      process.registers x.tickBudget).filter (!inCode process.code ·)
  else []

def sets (s : SharedEngine) (x : Slice) : List Location :=
  let process := s.images x.pid
  if s.starts x then
    InterpreterEngine.loopSets (InterpreterEngine.loaded s.engine.cpu process.code)
      process.registers x.tickBudget
  else []

/-- Where a slice of the process reads above its code what it has not set itself, it finds what
the process has left there: `left` is the processor at the end of the slice that last set the
place, and the one at the start for a place that none has set. -/
def Undisturbed (p : ProcessId) (left : Location → Cpu) (s : SharedEngine) : List Slice → Prop
  | [] => True
  | x :: xs =>
    (x.pid = p → ∀ place ∈ s.reads x, s.engine.cpu.SameAt (left place) place) ∧
      match s.slice x with
      | .error _ => True
      | .ok (_, s') => Undisturbed p
          (fun place => if x.pid = p ∧ place ∈ s.sets x then s'.engine.cpu else left place) s' xs

instance decidableUndisturbed (p : ProcessId) :
    ∀ (xs : List Slice) (left : Location → Cpu) (s : SharedEngine),
      Decidable (Undisturbed p left s xs)
  | [], _, _ => isTrue trivial
  | x :: xs, left, s =>
    haveI : Decidable (match s.slice x with
        | .error _ => True
        | .ok (_, s') => Undisturbed p
          (fun place => if x.pid = p ∧ place ∈ s.sets x then s'.engine.cpu else left place)
          s' xs) :=
      match s.slice x with
      | .error _ => isTrue trivial
      | .ok (_, s') => decidableUndisturbed p xs _ s'
    inferInstanceAs (Decidable (_ ∧ _))

end SharedEngine

namespace SharedEngine
variable {p : ProcessId} {s s' t : SharedEngine} {x : Slice} {record : SliceRecord}

theorem slice_eq_ok : s.slice x = .ok (record, s') ↔
    ∃ result engine registers,
      s.engine.execute x.pid (s.images x.pid) x.tickBudget = .ok (result, engine, registers) ∧
      record = ⟨x.pid, result, registers⟩ ∧
      s' = ⟨engine, update s.images x.pid { s.images x.pid with registers := registers }⟩ := by
  unfold slice
  cases hexec : s.engine.execute x.pid (s.images x.pid) x.tickBudget with
  | error undefined => simp
  | ok r =>
    obtain ⟨result, engine, registers⟩ := r
    simp [eq_comm]

theorem slice_image (hp : x.pid ≠ p) (h : s.slice x = .ok (record, s')) :
    s'.images p = s.images p := by
  obtain ⟨result, engine, registers, -, -, rfl⟩ := slice_eq_ok.mp h
  exact Function.update_of_ne hp.symm _ _

theorem loaded_sameAt {c t : Cpu} {code : List Block} {place : Location}
    (h : inCode code place = false → c.SameAt t place) :
    (InterpreterEngine.loaded c code).SameAt (InterpreterEngine.loaded t code) place := by
  cases place with
  | flags => exact h rfl
  | cell a =>
    change (code ++ c.memory.cells.drop code.length)[a]? =
      (code ++ t.memory.cells.drop code.length)[a]?
    by_cases ha : a < code.length
    · rw [List.getElem?_append_left ha, List.getElem?_append_left ha]
    · have hle := Nat.not_lt.mp ha
      have hsame : c.memory.cells[a]? = t.memory.cells[a]? := h (by simpa [inCode] using hle)
      rw [List.getElem?_append_right hle, List.getElem?_append_right hle, List.getElem?_drop,
        List.getElem?_drop, Nat.add_sub_cancel' hle, hsame]

theorem loaded_above {c : Cpu} {code : List Block} {place : Location}
    (h : inCode code place = false) : (InterpreterEngine.loaded c code).SameAt c place := by
  cases place with
  | flags => rfl
  | cell a =>
    have hle : code.length ≤ a := by simpa [inCode] using h
    change (code ++ c.memory.cells.drop code.length)[a]? = c.memory.cells[a]?
    rw [List.getElem?_append_right hle, List.getElem?_drop, Nat.add_sub_cancel' hle]

theorem loaded_size {c t : Cpu} {code : List Block} (h : t.memory.size = c.memory.size) :
    (InterpreterEngine.loaded t code).memory.size =
      (InterpreterEngine.loaded c code).memory.size := by
  simp only [InterpreterEngine.loaded, PhysicalMemory.size, List.length_append,
    List.length_drop] at h ⊢
  rw [h]

/-- The second state is that of a process alone: above the code its processor holds what the
slices of the process have left. -/
structure Mirrors (p : ProcessId) (left : Location → Cpu) (s t : SharedEngine) : Prop where
  image : t.images p = s.images p
  above : ∀ place, inCode (s.images p).code place = false →
    t.engine.cpu.SameAt (left place) place
  size : t.engine.cpu.memory.size = s.engine.cpu.memory.size
  halted : p ∈ t.engine.haltedPids ↔ p ∈ s.engine.haltedPids

theorem Mirrors.other {left : Location → Cpu} (h : Mirrors p left s t) (hp : x.pid ≠ p)
    (hs : s.slice x = .ok (record, s')) : Mirrors p left s' t := by
  have himage := slice_image hp hs
  obtain ⟨result, engine, registers, hexec, -, rfl⟩ := slice_eq_ok.mp hs
  refine ⟨h.image.trans himage.symm, ?_, ?_, ?_⟩
  · rw [himage]
    exact h.above
  · exact h.size.trans (InterpreterEngine.execute_memory hexec).1.symm
  · exact h.halted.trans (InterpreterEngine.execute_halted hp.symm hexec).symm

theorem execute_mirrored {left : Location → Cpu} {engine : InterpreterEngine}
    {result : ExecutionResult} {registers : RegisterFile} (h : Mirrors x.pid left s t)
    (hreads : ∀ place ∈ s.reads x, s.engine.cpu.SameAt (left place) place)
    (hexec : s.engine.execute x.pid (s.images x.pid) x.tickBudget =
      .ok (result, engine, registers)) :
    ∃ engine', t.engine.execute x.pid (s.images x.pid) x.tickBudget =
        .ok (result, engine', registers) ∧
      engine'.cpu.memory.size = engine.cpu.memory.size ∧
      (x.pid ∈ engine'.haltedPids ↔ x.pid ∈ engine.haltedPids) ∧
      ∀ place, inCode (s.images x.pid).code place = false →
        engine'.cpu.SameAt (if place ∈ s.sets x then engine.cpu else left place) place := by
  by_cases hhalted : x.pid ∈ s.engine.haltedPids
  · have hsets : s.sets x = [] := by simp [sets, starts, hhalted]
    rw [InterpreterEngine.execute_of_halted hhalted] at hexec
    cases hexec
    refine ⟨_, InterpreterEngine.execute_of_halted (h.halted.mpr hhalted), h.size, by simp, ?_⟩
    simpa [hsets] using h.above
  have hhalted' : x.pid ∉ t.engine.haltedPids := mt h.halted.mp hhalted
  by_cases hfits : s.engine.cpu.memory.size < (s.images x.pid).code.length
  · have hsets : s.sets x = [] := by simp [sets, starts, hfits]
    rw [InterpreterEngine.execute_of_not_fits hhalted hfits] at hexec
    cases hexec
    refine ⟨_, InterpreterEngine.execute_of_not_fits hhalted' (h.size ▸ hfits), h.size, h.halted,
      ?_⟩
    simpa [hsets] using h.above
  have hstarts : s.starts x = true := by simpa [starts, hhalted] using hfits
  rw [InterpreterEngine.execute_of_fits hhalted hfits] at hexec
  rw [InterpreterEngine.execute_of_fits hhalted' (h.size ▸ hfits)]
  cases hrun : InterpreterEngine.runLoop
      ⟨InterpreterEngine.loaded s.engine.cpu (s.images x.pid).code, ∅⟩ x.pid
      (s.images x.pid).registers 0 x.tickBudget with
  | error undefined =>
    rw [hrun] at hexec
    cases hexec
  | ok r =>
    rw [hrun] at hexec
    cases hexec
    obtain ⟨t', hrun', hsize', hset, hframe⟩ := InterpreterEngine.runLoop_agree
      (loaded_size h.size) (fun place hplace => loaded_sameAt fun hout =>
        (hreads place (by simpa [reads, hstarts, hout] using hplace)).trans
          (h.above place hout).symm) hrun
    refine ⟨⟨t', t.engine.haltedPids⟩, by rw [hrun']; rfl, hsize', h.halted, fun place hout => ?_⟩
    split_ifs with hmem
    · exact (hset place (by simpa [sets, hstarts] using hmem)).symm
    · have hkept := (hframe place (by simpa [sets, hstarts] using hmem)).2
      exact hkept.trans ((loaded_above hout).trans (h.above place hout))

theorem Mirrors.self {left : Location → Cpu} (h : Mirrors p left s t) (hp : x.pid = p)
    (hreads : ∀ place ∈ s.reads x, s.engine.cpu.SameAt (left place) place)
    (hs : s.slice x = .ok (record, s')) :
    ∃ t', t.slice x = .ok (record, t') ∧ Mirrors p
      (fun place => if x.pid = p ∧ place ∈ s.sets x then s'.engine.cpu else left place) s' t' := by
  subst hp
  obtain ⟨result, engine, registers, hexec, rfl, rfl⟩ := slice_eq_ok.mp hs
  obtain ⟨engine', hexec', hsize, hhalted, habove⟩ := execute_mirrored h hreads hexec
  refine ⟨⟨engine', update t.images x.pid { t.images x.pid with registers := registers }⟩,
    slice_eq_ok.mpr ⟨result, engine', registers, ?_, rfl, rfl⟩, ?_⟩
  · rw [h.image]
    exact hexec'
  · exact ⟨by simp [h.image], by simpa using habove, hsize, hhalted⟩

theorem run_cons_eq_ok {xs : List Slice} {records : List SliceRecord} :
    s.run (x :: xs) = .ok (records, s') ↔ ∃ record s₁ rest,
      s.slice x = .ok (record, s₁) ∧ s₁.run xs = .ok (rest, s') ∧ records = record :: rest := by
  simp only [run]
  cases s.slice x with
  | error undefined => simp
  | ok r =>
    obtain ⟨record, s₁⟩ := r
    cases hrest : s₁.run xs with
    | error undefined => simp [hrest]
    | ok r =>
      obtain ⟨rest, s₂⟩ := r
      simp only [hrest, Except.ok.injEq, Prod.mk.injEq]
      constructor
      · rintro ⟨rfl, rfl⟩
        exact ⟨record, s₁, rest, ⟨rfl, rfl⟩, hrest, rfl⟩
      · rintro ⟨record', s₁', rest', ⟨rfl, rfl⟩, hrest', rfl⟩
        rw [hrest] at hrest'
        cases hrest'
        exact ⟨rfl, rfl⟩

theorem run_mirrored {left : Location → Cpu} {xs : List Slice} {records : List SliceRecord}
    (hrun : s.run xs = .ok (records, s')) (hleft : Undisturbed p left s xs)
    (h : Mirrors p left s t) :
    ∃ t', t.run (alone p xs) = .ok (observe p records, t') := by
  induction xs generalizing s t left records with
  | nil =>
    cases hrun
    exact ⟨t, rfl⟩
  | cons x xs ih =>
    obtain ⟨record, s₁, rest, hslice, hrest, rfl⟩ := run_cons_eq_ok.mp hrun
    have hrecord : record.pid = x.pid := by
      obtain ⟨result, engine, registers, -, rfl, -⟩ := slice_eq_ok.mp hslice
      rfl
    have hleft₁ := hleft.2
    rw [hslice] at hleft₁
    dsimp only at hleft₁
    by_cases hp : x.pid = p
    · obtain ⟨t₁, ht, hmirrors⟩ := h.self hp (hleft.1 hp) hslice
      obtain ⟨t', ht'⟩ := ih hrest hleft₁ hmirrors
      refine ⟨t', ?_⟩
      rw [alone, List.filter_cons_of_pos (by simpa using hp), observe,
        List.filter_cons_of_pos (by simpa [hrecord] using hp)]
      exact run_cons_eq_ok.mpr ⟨record, t₁, _, ht, ht', rfl⟩
    · simp only [hp, false_and, ↓reduceIte] at hleft₁
      obtain ⟨t', ht'⟩ := ih hrest hleft₁ (h.other hp hslice)
      refine ⟨t', ?_⟩
      rw [alone, List.filter_cons_of_neg (by simpa using hp), observe,
        List.filter_cons_of_neg (by simpa [hrecord] using hp)]
      exact ht'

/-- No slice of another process changes the registers or the code of a process. In a run in which
its slices find the flags and the cells above its code that they read as its own slices have left
them, each of them has the result and leaves the registers that it has when the slices of the
process run alone. -/
theorem run_isolated (p : ProcessId) (s : SharedEngine) (xs : List Slice) :
    (∀ s₁ s₂ x record, x.pid ≠ p → slice s₁ x = .ok (record, s₂) → s₂.images p = s₁.images p) ∧
      ∀ records s', s.run xs = .ok (records, s') → Undisturbed p (fun _ => s.engine.cpu) s xs →
        ∃ t', s.run (alone p xs) = .ok (observe p records, t') :=
  ⟨fun _ _ _ _ hp h => slice_image hp h,
    fun _ _ hrun hleft => run_mirrored hrun hleft ⟨rfl, fun place _ => .refl _ place, rfl, Iff.rfl⟩⟩

def twoPrograms (code code' : List Block) : SharedEngine where
  engine := ⟨⟨.ofSize 8, 0⟩, ∅⟩
  images pid := { code := if pid = 1 then code else code' }

theorem run_isolated_longer :
    let s := twoPrograms
      [{ code := .writeMemory, operand := 7 }, { code := .compare },
        { code := .jumpEqual, operand := 3 }, { code := .readMemory, reg := 2, operand := 7 }]
      [{ code := .mov, operand := 1 }, { code := .compare }, { code := .writeMemory, operand := 6 },
        { code := .jumpLess }, { code := .halt }]
    let xs : List Slice := [⟨1, 1⟩, ⟨2, 4⟩, ⟨1, 3⟩, ⟨2, 1⟩]
    ∃ records s', s.run xs = .ok (records, s') ∧
      ∃ t', s.run [⟨1, 1⟩, ⟨1, 3⟩] = .ok (observe 1 records, t') :=
  ⟨_, _, rfl, (run_isolated 1 _ [⟨1, 1⟩, ⟨2, 4⟩, ⟨1, 3⟩, ⟨2, 1⟩]).2 _ _ rfl (by decide +kernel)⟩

/-- The first process compares its register with `0` and jumps to a system call if they are
equal; the second one compares with `1`. -/
def comparingPrograms : SharedEngine :=
  twoPrograms [{ code := .compare }, { code := .jumpEqual, operand := 3 }, { code := .halt },
    { code := .interrupt, operand := 11 }] [{ code := .compare, operand := 1 }]

def comparingSlices : List Slice := [⟨1, 1⟩, ⟨2, 1⟩, ⟨1, 1⟩, ⟨1, 1⟩]

def stopReasons (p : ProcessId) (outcome : Except Undefined (List SliceRecord × SharedEngine)) :
    Option (List StopReason) :=
  outcome.toOption.map fun r => (observe p r.1).map (·.result.reason)

/-- The flags of a comparison of the other process decide the jump of this one: it exits where it
would make a system call. -/
theorem run_not_isolated :
    ¬ ∀ (p : ProcessId) (s : SharedEngine) (xs : List Slice) (records : List SliceRecord)
      (s' : SharedEngine), s.run xs = .ok (records, s') →
        ∃ t', s.run (alone p xs) = .ok (observe p records, t') := by
  intro h
  cases hrun : comparingPrograms.run comparingSlices with
  | error undefined =>
    have hdefined : (comparingPrograms.run comparingSlices).isOk = true := by decide +kernel
    rw [hrun] at hdefined
    cases hdefined
  | ok r =>
    obtain ⟨t', ht⟩ := h 1 comparingPrograms comparingSlices r.1 r.2 hrun
    have hsame : stopReasons 1 (comparingPrograms.run (alone 1 comparingSlices)) =
        stopReasons 1 (comparingPrograms.run comparingSlices) := by
      rw [ht, hrun]
      simp [stopReasons, observe, Except.toOption]
    exact absurd hsame (by decide +kernel)

end SharedEngine
end Contur
