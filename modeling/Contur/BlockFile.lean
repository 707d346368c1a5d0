import Mathlib.Data.List.Nodup
import Mathlib.Data.Nat.Notation
import Mathlib.Tactic.Common
import Mathlib.Tactic.SplitIfs

/-!
# Files on a disk of equal blocks

A disk is a list of blocks of one size `B`; a file is a list of block indices.
`byteAt` reads byte `i` of a file through its block list. A copy into one block
changes a contiguous range of the bytes of the file that owns the block and no
byte of a file that does not. `splice` is the same change on plain lists, with
the gap between the end of the list and the offset filled with zeros.
-/

namespace BlockFile
variable {β : Type*} [Zero β]
variable {disk disk' : List (List β)} {B b o i : ℕ} {blocks : List ℕ} {chunk : List β}

def Uniform (B : ℕ) (disk : List (List β)) : Prop := ∀ block ∈ disk, block.length = B

def byteAt (disk : List (List β)) (B : ℕ) (blocks : List ℕ) (i : ℕ) : β :=
  (((blocks[i / B]?).bind (disk[·]?)).bind (·[i % B]?)).getD 0

def contents (disk : List (List β)) (B : ℕ) (blocks : List ℕ) (size : ℕ) : List β :=
  (List.range size).map (byteAt disk B blocks)

/-- Copies into block `b` from position `o` on; a copy that leaves the block is undefined. -/
def copyInto (disk : List (List β)) (b o : ℕ) (chunk : List β) : Option (List (List β)) :=
  match disk[b]? with
  | none => none
  | some block =>
    if o + chunk.length ≤ block.length then
      some (disk.set b (block.take o ++ chunk ++ block.drop (o + chunk.length)))
    else none

/-- Copies out of block `b` from position `o` on; a copy that leaves the block is undefined. -/
def copyFrom (disk : List (List β)) (b o n : ℕ) : Option (List β) :=
  match disk[b]? with
  | none => none
  | some block => if o + n ≤ block.length then some ((block.drop o).take n) else none

def splice (l : List β) (offset : ℕ) (data : List β) : List β :=
  (l ++ List.replicate (offset - l.length) 0).take offset ++ data ++ l.drop (offset + data.length)

@[simp] theorem length_contents (disk : List (List β)) (B : ℕ) (blocks : List ℕ) (size : ℕ) :
    (contents disk B blocks size).length = size := by
  simp [contents]

theorem getElem?_contents (disk : List (List β)) (B : ℕ) (blocks : List ℕ) (size i : ℕ) :
    (contents disk B blocks size)[i]? =
      if i < size then some (byteAt disk B blocks i) else none := by
  by_cases hi : i < size
  · simp [contents, hi]
  · simp [contents, hi]

theorem contents_congr {blocks' : List ℕ} {size : ℕ}
    (h : ∀ i < size, byteAt disk' B blocks' i = byteAt disk B blocks i) :
    contents disk' B blocks' size = contents disk B blocks size :=
  List.map_congr_left fun i hi => h i (List.mem_range.mp hi)

theorem byteAt_congr (h : ∀ b ∈ blocks, disk'[b]? = disk[b]?) (i : ℕ) :
    byteAt disk' B blocks i = byteAt disk B blocks i := by
  unfold byteAt
  cases hb : blocks[i / B]? with
  | none => rfl
  | some b => simp only [Option.bind_some, h b (List.mem_of_getElem? hb)]

theorem byteAt_of_slot {block : List β} (hb : blocks[i / B]? = some b)
    (hd : disk[b]? = some block) :
    byteAt disk B blocks i = (block[i % B]?).getD 0 := by
  simp [byteAt, hb, hd]

theorem byteAt_eq_zero (hi : blocks.length ≤ i / B) : byteAt disk B blocks i = 0 := by
  simp [byteAt, List.getElem?_eq_none hi]

theorem byteAt_append_left {more : List ℕ} (hi : i / B < blocks.length) :
    byteAt disk B (blocks ++ more) i = byteAt disk B blocks i := by
  simp [byteAt, List.getElem?_append_left hi]

theorem byteAt_append_blank (blocks : List ℕ) (hd : disk[b]? = some (List.replicate B 0)) (i : ℕ) :
    byteAt disk B (blocks ++ [b]) i = byteAt disk B blocks i := by
  by_cases hi : i / B < blocks.length
  · exact byteAt_append_left hi
  · rw [byteAt_eq_zero (Nat.not_lt.mp hi)]
    by_cases heq : i / B = blocks.length
    · have hslot : (blocks ++ [b])[i / B]? = some b := by simp [heq]
      rw [byteAt_of_slot hslot hd, List.getElem?_replicate]
      split_ifs <;> rfl
    · exact byteAt_eq_zero (by simp; omega)

theorem div_mod_add {a j : ℕ} (h : a % B + j < B) :
    (a + j) / B = a / B ∧ (a + j) % B = a % B + j := by
  have hdiv := Nat.div_add_mod a B
  exact (Nat.div_mod_unique (by omega)).mpr ⟨by omega, h⟩

theorem copyFrom_eq (hU : Uniform B disk) {a n : ℕ} (hb : blocks[a / B]? = some b)
    (hlt : b < disk.length) (hn : a % B + n ≤ B) :
    copyFrom disk b (a % B) n =
      some ((List.range n).map fun j => byteAt disk B blocks (a + j)) := by
  obtain ⟨block, hblock⟩ : ∃ block, disk[b]? = some block := ⟨_, List.getElem?_eq_getElem hlt⟩
  have hlen : block.length = B := hU block (List.mem_of_getElem? hblock)
  simp only [copyFrom, hblock, hlen, hn, ↓reduceIte, Option.some.injEq]
  apply List.ext_getElem?
  intro j
  by_cases hj : j < n
  · obtain ⟨hdiv, hmod⟩ := div_mod_add (a := a) (j := j) (B := B) (by omega)
    have hbyte := byteAt_of_slot (i := a + j) (B := B) (by rw [hdiv]; exact hb) hblock
    have hin : a % B + j < block.length := by omega
    rw [List.getElem?_take_of_lt hj, List.getElem?_drop, List.getElem?_map,
      List.getElem?_range hj, Option.map_some, hbyte, hmod, List.getElem?_eq_getElem hin]
    rfl
  · rw [List.getElem?_eq_none (by simp; omega), List.getElem?_eq_none (by simp; omega)]

omit [Zero β] in
theorem copyInto_spec (hU : Uniform B disk) (hb : b < disk.length) (ho : o + chunk.length ≤ B) :
    ∃ block, disk[b]? = some block ∧ block.length = B ∧ copyInto disk b o chunk =
      some (disk.set b (block.take o ++ chunk ++ block.drop (o + chunk.length))) := by
  obtain ⟨block, hblock⟩ : ∃ block, disk[b]? = some block := ⟨_, List.getElem?_eq_getElem hb⟩
  have hlen : block.length = B := hU block (List.mem_of_getElem? hblock)
  exact ⟨block, hblock, hlen, by simp [copyInto, hblock, hlen, ho]⟩

omit [Zero β] in
theorem uniform_set (hU : Uniform B disk) {block : List β} (hlen : block.length = B) :
    Uniform B (disk.set b block) := by
  intro x hx
  rcases List.mem_or_eq_of_mem_set hx with h | h
  · exact hU x h
  · rw [h]
    exact hlen

omit [Zero β] in
theorem getElem?_patch {block : List β} (ho : o + chunk.length ≤ block.length) (j : ℕ) :
    (block.take o ++ chunk ++ block.drop (o + chunk.length))[j]? =
      if o ≤ j ∧ j < o + chunk.length then chunk[j - o]? else block[j]? := by
  have htake : (block.take o).length = o := by simp; omega
  rw [List.append_assoc]
  by_cases h1 : j < o
  · rw [List.getElem?_append_left (by omega), List.getElem?_take_of_lt h1, if_neg (by omega)]
  · rw [List.getElem?_append_right (by omega), htake]
    by_cases h2 : j < o + chunk.length
    · rw [List.getElem?_append_left (by omega), if_pos ⟨by omega, h2⟩]
    · rw [List.getElem?_append_right (by omega), List.getElem?_drop, if_neg (by omega)]
      congr 1
      omega

/-- The loop of a chunked write changes one range of bytes. The range is given by its absolute
offset in the file; the blocks of a file are distinct, so no other range moves. -/
theorem byteAt_copyInto (chunk : List β) (hU : Uniform B disk) (hnodup : blocks.Nodup) {a : ℕ}
    (hb : blocks[a / B]? = some b) (hlt : b < disk.length) (hn : a % B + chunk.length ≤ B)
    (hchunk : 0 < chunk.length) :
    ∃ disk', copyInto disk b (a % B) chunk = some disk' ∧ Uniform B disk' ∧
      disk'.length = disk.length ∧ (∀ c, c ≠ b → disk'[c]? = disk[c]?) ∧
      ∀ i, byteAt disk' B blocks i =
        if a ≤ i ∧ i < a + chunk.length then (chunk[i - a]?).getD 0
          else byteAt disk B blocks i := by
  obtain ⟨block, hblock, hlen, hcopy⟩ := copyInto_spec hU hlt hn
  refine ⟨_, hcopy, uniform_set hU (by simp; omega), by simp,
    fun c hc => List.getElem?_set_ne (Ne.symm hc), fun i => ?_⟩
  have hpos : 0 < B := by omega
  by_cases hslot : i / B = a / B
  · -- the byte lies in the block that is written
    have hi : blocks[i / B]? = some b := hslot ▸ hb
    rw [byteAt_of_slot hi (List.getElem?_set_self hlt), byteAt_of_slot hi hblock,
      getElem?_patch (by omega)]
    have hdi := Nat.div_add_mod i B
    have hda := Nat.div_add_mod a B
    rw [hslot] at hdi
    generalize B * (a / B) = base at hdi hda
    by_cases hin : a ≤ i ∧ i < a + chunk.length
    · rw [if_pos (by omega), if_pos hin, show i % B - a % B = i - a by omega]
    · rw [if_neg (by omega), if_neg hin]
  · -- the byte lies in another block, which is a different one because the list has no duplicates
    have hout : ¬ (a ≤ i ∧ i < a + chunk.length) := by
      rintro ⟨hai, hia⟩
      have hdiv := (div_mod_add (a := a) (j := i - a) (B := B) (by omega)).1
      exact hslot (by rwa [Nat.add_sub_cancel' hai] at hdiv)
    rw [if_neg hout]
    unfold byteAt
    cases hi : blocks[i / B]? with
    | none => rfl
    | some c =>
      have hcb : b ≠ c := by
        rintro rfl
        obtain ⟨hi', hib⟩ := List.getElem?_eq_some_iff.mp hi
        obtain ⟨ha', hab⟩ := List.getElem?_eq_some_iff.mp hb
        exact hslot ((hnodup.getElem_inj_iff).mp (hib.trans hab.symm))
      simp only [Option.bind_some, List.getElem?_set_ne hcb]

theorem getElem?_splice (l : List β) (offset : ℕ) (data : List β) (i : ℕ) :
    (splice l offset data)[i]? =
      if offset ≤ i ∧ i < offset + data.length then data[i - offset]?
      else if i < l.length then l[i]? else if i < offset then some 0 else none := by
  have htake : ((l ++ List.replicate (offset - l.length) (0 : β)).take offset).length = offset := by
    simp
    omega
  rw [splice, List.append_assoc]
  by_cases h1 : i < offset
  · rw [List.getElem?_append_left (by omega), List.getElem?_take_of_lt h1, if_neg (by omega)]
    by_cases h2 : i < l.length
    · rw [List.getElem?_append_left h2, if_pos h2]
    · rw [List.getElem?_append_right (by omega), if_neg h2, if_pos h1, List.getElem?_replicate,
        if_pos (by omega)]
  · rw [List.getElem?_append_right (by omega), htake]
    by_cases h2 : i < offset + data.length
    · rw [List.getElem?_append_left (by omega), if_pos ⟨by omega, h2⟩]
    · rw [List.getElem?_append_right (by omega), List.getElem?_drop, if_neg (by omega),
        show offset + data.length + (i - offset - data.length) = i by omega]
      by_cases h3 : i < l.length
      · rw [if_pos h3]
      · rw [if_neg h3, if_neg h1, List.getElem?_eq_none (by omega)]

theorem contents_splice {blocks' : List ℕ} {size offset : ℕ} {data : List β}
    (hzero : ∀ i, size ≤ i → byteAt disk B blocks i = 0)
    (hbytes : ∀ i, byteAt disk' B blocks' i =
      if offset ≤ i ∧ i < offset + data.length then (data[i - offset]?).getD 0
      else byteAt disk B blocks i) :
    contents disk' B blocks' (max size (offset + data.length)) =
      splice (contents disk B blocks size) offset data := by
  apply List.ext_getElem?
  intro i
  rw [getElem?_contents, getElem?_splice, length_contents, getElem?_contents, hbytes]
  by_cases h1 : offset ≤ i ∧ i < offset + data.length
  · rw [if_pos (by omega), if_pos h1, if_pos h1, List.getElem?_eq_getElem (by omega)]
    rfl
  · rw [if_neg h1, if_neg h1]
    by_cases h2 : i < size
    · rw [if_pos (by omega), if_pos h2]
      rw [if_pos h2]
    · rw [if_neg h2]
      by_cases h3 : i < offset
      · rw [if_pos h3, if_pos (by omega), hzero i (by omega)]
      · rw [if_neg h3, if_neg (by omega)]

theorem contents_slice (disk : List (List β)) (B : ℕ) (blocks : List ℕ) (size offset n : ℕ) :
    (List.range (min n (size - offset))).map (fun j => byteAt disk B blocks (offset + j)) =
      ((contents disk B blocks size).drop offset).take n := by
  apply List.ext_getElem?
  intro j
  by_cases hj : j < n
  · rw [List.getElem?_take_of_lt hj, List.getElem?_drop, getElem?_contents]
    by_cases hs : offset + j < size
    · rw [if_pos hs, List.getElem?_map, List.getElem?_range (by omega), Option.map_some]
    · rw [if_neg hs, List.getElem?_eq_none (by simp; omega)]
  · rw [List.getElem?_eq_none (by simp; omega), List.getElem?_eq_none (by simp; omega)]

end BlockFile
