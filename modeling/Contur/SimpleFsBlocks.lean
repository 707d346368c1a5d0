import Mathlib.Data.Set.Insert
import Contur.SimpleFs

/-!
# The blocks of one file

Local reasoning about the block loops. `Held` describes the bitmap as one node sees
it, its own blocks and those of the others; `Owned` describes the disk and the bitmap
as one file sees them: its own blocks, and a set `others` of blocks that belong to
the rest of the file system. Growing, shrinking, freeing and copying keep it, and
never touch a block of the rest.
-/

namespace Contur
open Function (update)
open BlockFile

namespace SimpleFs
variable {s s' : SimpleFs} {others : Set ℕ} {blocks blocks' : List ℕ} {size b : ℕ}

structure Held (a : BlockAllocator) (others : Set ℕ) (blocks : List ℕ) : Prop where
  count : a.freeCount = a.freeBitmap.count true
  nodup : blocks.Nodup
  apart : ∀ b ∈ blocks, b ∉ others
  used : ∀ b : ℕ, b ∈ blocks ∨ b ∈ others → a.freeBitmap[b]? = some false

namespace Held
variable {a : BlockAllocator} {b : ℕ}

theorem nil (h : Held a others blocks) : Held a others [] :=
  ⟨h.count, List.nodup_nil, by simp, fun b hb => h.used b (Or.inr (by simpa using hb))⟩

theorem freeCount_eq_zero (h : Held a others blocks) :
    a.freeCount = 0 ↔ ∀ b : ℕ, a.freeBitmap[b]? ≠ some true := by
  rw [h.count, List.count_eq_zero, List.mem_iff_getElem?]
  exact not_exists

theorem allocate (h : Held a others blocks) :
    (a.allocate = (.error .outOfMemory, a) ∧ a.freeCount = 0) ∨
      ∃ b a', a.allocate = (.ok b, a') ∧ a.freeBitmap[b]? = some true ∧
        a'.freeBitmap = a.freeBitmap.set b false ∧ Held a' others (blocks ++ [b]) := by
  unfold BlockAllocator.allocate
  by_cases hzero : a.freeCount = 0
  · exact Or.inl ⟨if_pos hzero, hzero⟩
  rw [if_neg hzero]
  cases hfind : a.freeBitmap.findIdx? id with
  | none =>
    -- the counter and the bitmap agree, so the search does not fail
    refine absurd (h.freeCount_eq_zero.mpr fun b hb => ?_) hzero
    have hfalse := List.findIdx?_eq_none_iff.mp hfind true (List.mem_of_getElem? hb)
    simp at hfalse
  | some b =>
    obtain ⟨hlt, hbit, -⟩ := List.findIdx?_eq_some_iff_getElem.mp hfind
    have hfree : a.freeBitmap[b]? = some true := by
      rw [List.getElem?_eq_getElem hlt]
      exact congrArg some hbit
    have hnew : ¬ (b ∈ blocks ∨ b ∈ others) := by
      intro hb
      rw [h.used b hb] at hfree
      cases hfree
    refine Or.inr ⟨b, _, rfl, hfree, rfl, ?_, ?_, ?_, ?_⟩
    · have hcount : a.freeBitmap[b] = true := hbit
      simp [List.count_set hlt, hcount, h.count]
    · exact h.nodup.append (List.nodup_singleton b) (by simpa using fun hb => hnew (Or.inl hb))
    · intro c hc
      rcases List.mem_append.mp hc with hc | hc
      · exact h.apart c hc
      · rw [List.mem_singleton.mp hc]
        exact fun hb => hnew (Or.inr hb)
    · intro c hc
      by_cases hcb : c = b
      · rw [hcb]
        exact List.getElem?_set_self hlt
      · rw [List.getElem?_set_ne (Ne.symm hcb)]
        apply h.used c
        simpa [hcb] using hc

theorem free (h : Held a others blocks) (hb : b ∈ blocks) {blocks' : List ℕ}
    (hnodup : blocks'.Nodup) (hmem : ∀ c ∈ blocks', c ∈ blocks ∧ c ≠ b) :
    ∃ a', a.free b = (.ok (), a') ∧ a'.freeBitmap = a.freeBitmap.set b true ∧
      Held a' others blocks' := by
  have hused : a.freeBitmap[b]? = some false := h.used b (Or.inl hb)
  have hlt : b < a.freeBitmap.length := (List.getElem?_eq_some_iff.mp hused).1
  have hbit : a.freeBitmap[b] = false := (List.getElem?_eq_some_iff.mp hused).2
  refine ⟨⟨a.freeBitmap.set b true, a.freeCount + 1⟩, ?_, rfl, ?_, hnodup, ?_, ?_⟩
  · rw [BlockAllocator.free, hused]
  · simp [List.count_set hlt, hbit, h.count]
  · intro c hc
    exact h.apart c (hmem c hc).1
  · intro c hc
    have hcb : c ≠ b := by
      rcases hc with hc | hc
      · exact (hmem c hc).2
      · intro heq
        rw [heq] at hc
        exact h.apart b hb hc
    rw [List.getElem?_set_ne (Ne.symm hcb)]
    exact h.used c (hc.imp_left fun hc => (hmem c hc).1)

end Held

structure Owned (s : SimpleFs) (others : Set ℕ) (blocks : List ℕ) (size : ℕ) : Prop where
  blockSize_pos : 0 < s.blockSize
  uniform : Uniform s.blockSize s.disk
  length : s.allocator.freeBitmap.length = s.disk.length
  count : s.allocator.freeCount = s.allocator.freeBitmap.count true
  nodup : blocks.Nodup
  apart : ∀ b ∈ blocks, b ∉ others
  used : ∀ b : ℕ, s.allocator.freeBitmap[b]? = some false ↔ b ∈ blocks ∨ b ∈ others
  blank : ∀ b : ℕ, s.allocator.freeBitmap[b]? = some true →
    s.disk[b]? = some (List.replicate s.blockSize 0)
  tail : ∀ i, size ≤ i → byteAt s.disk s.blockSize blocks i = 0

structure Reblocked (s : SimpleFs) (others : Set ℕ) (s' : SimpleFs) : Prop where
  shape : s' = { s with disk := s'.disk, allocator := s'.allocator }
  frame : ∀ b ∈ others, s'.disk[b]? = s.disk[b]?

theorem Reblocked.refl (s : SimpleFs) (others : Set ℕ) : Reblocked s others s :=
    ⟨rfl, fun _ _ => rfl⟩

theorem Reblocked.trans {s'' : SimpleFs} (h : Reblocked s others s')
    (h' : Reblocked s' others s'') :
    Reblocked s others s'' := by
  refine ⟨?_, fun b hb => (h'.frame b hb).trans (h.frame b hb)⟩
  rw [h'.shape, h.shape]

theorem Reblocked.blockSize (h : Reblocked s others s') : s'.blockSize = s.blockSize := by
  rw [h.shape]

namespace Owned

theorem mem_lt (h : Owned s others blocks size) (hb : b ∈ blocks) : b < s.disk.length := by
  rw [← h.length]
  exact (List.getElem?_eq_some_iff.mp ((h.used b).mpr (Or.inl hb))).1

theorem tail_of_length {i : ℕ} (hi : s.blockSize * blocks.length ≤ i) (hpos : 0 < s.blockSize) :
    byteAt s.disk s.blockSize blocks i = 0 := by
  apply byteAt_eq_zero
  rw [Nat.le_div_iff_mul_le hpos, Nat.mul_comm]
  exact hi

theorem held (h : Owned s others blocks size) : Held s.allocator others blocks :=
  ⟨h.count, h.nodup, h.apart, fun b hb => (h.used b).mpr hb⟩

theorem allocate (h : Owned s others blocks size) :
    s.allocator.allocate = (.error .outOfMemory, s.allocator) ∨
      ∃ b a, s.allocator.allocate = (.ok b, a) ∧
        Owned { s with allocator := a } others (blocks ++ [b]) size ∧
        ∀ i, byteAt s.disk s.blockSize (blocks ++ [b]) i = byteAt s.disk s.blockSize blocks i := by
  rcases h.held.allocate with ⟨heq, -⟩ | ⟨b, a, heq, hfree, hbits, hheld⟩
  · exact Or.inl heq
  have hlt : b < s.allocator.freeBitmap.length := (List.getElem?_eq_some_iff.mp hfree).1
  have hbyte := byteAt_append_blank blocks (h.blank b hfree)
  refine Or.inr ⟨b, a, heq, ?_, hbyte⟩
  refine ⟨h.blockSize_pos, h.uniform, ?_, hheld.count, hheld.nodup, hheld.apart, ?_, ?_, ?_⟩
  · rw [hbits, List.length_set]
    exact h.length
  · intro c
    rw [hbits]
    by_cases hcb : c = b
    · subst c
      simp [List.getElem?_set_self hlt]
    · simp only [List.getElem?_set_ne (Ne.symm hcb), h.used c, List.mem_append,
        List.mem_singleton, hcb, or_false]
  · intro c hc
    rw [hbits] at hc
    by_cases hcb : c = b
    · subst c
      simp [List.getElem?_set_self hlt] at hc
    · apply h.blank c
      rwa [List.getElem?_set_ne (Ne.symm hcb)] at hc
  · intro i hi
    exact (hbyte i).trans (h.tail i hi)

theorem release (h : Owned s others blocks size) (hb : b ∈ blocks) {size' : ℕ}
    (hnodup : blocks'.Nodup) (hmem : ∀ c, c ∈ blocks' ↔ c ∈ blocks ∧ c ≠ b)
    (htail : ∀ i, size' ≤ i → byteAt s.disk s.blockSize blocks' i = 0) :
    ∃ a, s.allocator.free b = (.ok (), a) ∧
      Owned ({ s with allocator := a }.wipe b) others blocks' size' ∧
      Reblocked s others ({ s with allocator := a }.wipe b) ∧
      ∀ i, byteAt ({ s with allocator := a }.wipe b).disk s.blockSize blocks' i =
        byteAt s.disk s.blockSize blocks' i := by
  have hused : s.allocator.freeBitmap[b]? = some false := (h.used b).mpr (Or.inl hb)
  have hlt : b < s.allocator.freeBitmap.length := (List.getElem?_eq_some_iff.mp hused).1
  have hdisk : b < s.disk.length := h.mem_lt hb
  have hbyte : ∀ i, byteAt (s.disk.set b (List.replicate s.blockSize 0)) s.blockSize blocks' i =
      byteAt s.disk s.blockSize blocks' i :=
    byteAt_congr fun c hc => List.getElem?_set_ne (Ne.symm ((hmem c).mp hc).2)
  obtain ⟨a, hfree, hbits, hheld⟩ := h.held.free hb hnodup fun c hc => (hmem c).mp hc
  refine ⟨a, hfree, ?_, ⟨rfl, fun c hc => ?_⟩, hbyte⟩
  · refine ⟨h.blockSize_pos, ?_, ?_, hheld.count, hheld.nodup, hheld.apart, ?_, ?_, ?_⟩
    · exact uniform_set h.uniform (by simp)
    · simp [wipe, hbits, h.length]
    · intro c
      by_cases hcb : c = b
      · subst c
        simp [wipe, hbits, List.getElem?_set_self hlt, hmem, h.apart b hb]
      · simp [wipe, hbits, List.getElem?_set_ne (Ne.symm hcb), h.used c, hmem, hcb]
    · intro c hc
      by_cases hcb : c = b
      · subst c
        exact List.getElem?_set_self hdisk
      · simp only [wipe, hbits, List.getElem?_set_ne (Ne.symm hcb)] at hc ⊢
        exact h.blank c hc
    · intro i hi
      exact (hbyte i).trans (htail i hi)
  · refine List.getElem?_set_ne ?_
    rintro rfl
    exact h.apart b hb hc

end Owned

theorem growBlocks_spec (h : Owned s others blocks size) (n : ℕ) :
    ∃ r s' blocks', s.growBlocks blocks n = (r, s', blocks') ∧ Owned s' others blocks' size ∧
      Reblocked s others s' ∧ blocks.length ≤ blocks'.length ∧
      (r = .ok () → blocks'.length = blocks.length + n) ∧
      ∀ i, byteAt s'.disk s'.blockSize blocks' i = byteAt s.disk s.blockSize blocks i := by
  induction n generalizing s blocks with
  | zero => exact ⟨_, _, _, rfl, h, .refl s others, le_rfl, fun _ => rfl, fun _ => rfl⟩
  | succ n ih =>
    rcases h.allocate with heq | ⟨b, a, heq, hnew, hbyte⟩
    · have hrun : s.growBlocks blocks (n + 1) = (.error .outOfMemory, s, blocks) := by
        simp only [growBlocks, heq]
      exact ⟨_, _, _, hrun, h, .refl s others, le_rfl, nofun, fun _ => rfl⟩
    · obtain ⟨r, s', blocks', hrun, hown, hre, hle, hlen, hbytes⟩ := ih hnew
      refine ⟨r, s', blocks', by simp only [growBlocks, heq, hrun], hown, ?_, ?_, ?_, ?_⟩
      · have htook : Reblocked s others { s with allocator := a } := ⟨rfl, fun _ _ => rfl⟩
        exact htook.trans hre
      · simp at hle
        omega
      · intro hr
        rw [hlen hr]
        simp
        omega
      · intro i
        rw [hbytes, hbyte]

theorem shrinkBlocks_spec (h : Owned s others blocks size) {n : ℕ} (hn : n ≤ blocks.length) :
    ∃ s', s.shrinkBlocks blocks n = (.ok (), s', blocks.take (blocks.length - n)) ∧
      Owned s' others (blocks.take (blocks.length - n)) size ∧ Reblocked s others s' ∧
      ∀ i, i / s.blockSize < blocks.length - n →
        byteAt s'.disk s'.blockSize (blocks.take (blocks.length - n)) i =
          byteAt s.disk s.blockSize blocks i := by
  induction n generalizing s blocks with
  | zero =>
    have htake : blocks.take (blocks.length - 0) = blocks := by simp
    rw [htake]
    exact ⟨s, rfl, h, .refl s others, fun _ _ => rfl⟩
  | succ n ih =>
    rcases List.eq_nil_or_concat blocks with rfl | ⟨front, b, rfl⟩
    · simp at hn
    rw [List.concat_eq_append] at h hn ⊢
    obtain ⟨hfront, -, hb⟩ := List.nodup_append.mp h.nodup
    have hbyte : ∀ i, i / s.blockSize < front.length →
        byteAt s.disk s.blockSize (front ++ [b]) i = byteAt s.disk s.blockSize front i :=
      fun i hi => byteAt_append_left hi
    have htail : ∀ i, size ≤ i → byteAt s.disk s.blockSize front i = 0 := by
      intro i hi
      by_cases hlt : i / s.blockSize < front.length
      · rw [← hbyte i hlt]
        exact h.tail i hi
      · exact byteAt_eq_zero (Nat.not_lt.mp hlt)
    have hmem : ∀ c, c ∈ front ↔ c ∈ front ++ [b] ∧ c ≠ b := by
      intro c
      constructor
      · intro hc
        exact ⟨List.mem_append_left _ hc, hb c hc b (List.mem_singleton_self b)⟩
      · rintro ⟨hc, hne⟩
        exact (List.mem_append.mp hc).resolve_right (by simpa using hne)
    obtain ⟨a, hfree, hown, hre, hsame⟩ := h.release (by simp) hfront hmem htail
    have hlen : n ≤ front.length := by simpa using hn
    obtain ⟨s', hrun, hown', hre', hbytes⟩ := ih hown hlen
    have htake : (front ++ [b]).take ((front ++ [b]).length - (n + 1)) =
        front.take (front.length - n) := by
      rw [List.length_append, List.length_singleton, Nat.add_sub_add_right,
        List.take_append_of_le_length (Nat.sub_le _ _)]
    rw [htake]
    refine ⟨s', ?_, hown', hre.trans hre', ?_⟩
    · simp only [shrinkBlocks, List.getLast?_append, List.getLast?_singleton, Option.some_or,
        hfree, List.dropLast_concat, hrun]
    · intro i hi
      have hi' : i / s.blockSize < front.length - n := by simpa using hi
      rw [hbytes i hi', hbyte i (by omega)]
      exact hsame i

theorem freeBlocks_spec (h : Owned s others blocks size) :
    ∃ s', s.freeBlocks blocks = (.ok (), s') ∧ Owned s' others [] 0 ∧ Reblocked s others s' := by
  induction blocks generalizing s size with
  | nil =>
    refine ⟨s, rfl, { h with tail := fun i _ => ?_ }, .refl s others⟩
    exact byteAt_eq_zero (Nat.zero_le _)
  | cons b bs ih =>
    obtain ⟨hb, hbs⟩ := List.nodup_cons.mp h.nodup
    have hmem : ∀ c, c ∈ bs ↔ c ∈ b :: bs ∧ c ≠ b := by
      intro c
      constructor
      · intro hc
        exact ⟨List.mem_cons_of_mem b hc, fun hcb => hb (hcb ▸ hc)⟩
      · rintro ⟨hc, hne⟩
        exact (List.mem_cons.mp hc).resolve_left hne
    obtain ⟨a, hfree, hown, hre, -⟩ := h.release List.mem_cons_self hbs hmem
      (fun i hi => Owned.tail_of_length hi h.blockSize_pos)
    obtain ⟨s', hrun, hown', hre'⟩ := ih hown
    exact ⟨s', by simp only [freeBlocks, hfree, hrun], hown', hre.trans hre'⟩

theorem requiredBlocks_spec (hpos : 0 < s.blockSize) (n : ℕ) :
    n ≤ s.blockSize * s.requiredBlocks n ∧ ∀ i < n, i / s.blockSize < s.requiredBlocks n := by
  have hle : n ≤ s.blockSize * s.requiredBlocks n := by
    unfold requiredBlocks
    split_ifs with hzero
    · omega
    · have hdiv := Nat.div_add_mod (n + s.blockSize - 1) s.blockSize
      have hmod := Nat.mod_lt (n + s.blockSize - 1) hpos
      omega
  refine ⟨hle, fun i hi => ?_⟩
  rw [Nat.div_lt_iff_lt_mul hpos, Nat.mul_comm]
  exact hi.trans_le hle

theorem ensureFileBlocks_spec (h : Owned s others blocks size) (n : ℕ) :
    ∃ r s' blocks', s.ensureFileBlocks blocks n = (r, s', blocks') ∧
      Owned s' others blocks' size ∧ Reblocked s others s' ∧
      ((r = .ok () ∧ blocks'.length = s.requiredBlocks n ∧
          ∀ i < n, byteAt s'.disk s'.blockSize blocks' i = byteAt s.disk s.blockSize blocks i) ∨
        (0 < n ∧ (∃ e, r = .error e) ∧ blocks.length ≤ blocks'.length ∧
          ∀ i, byteAt s'.disk s'.blockSize blocks' i = byteAt s.disk s.blockSize blocks i)) := by
  obtain ⟨r, s₁, blocks₁, hgrow, hown, hre, hle, hlen, hbytes⟩ :=
    growBlocks_spec h (s.requiredBlocks n - blocks.length)
  cases r with
  | error e =>
    refine ⟨.error e, s₁, blocks₁, by simp only [ensureFileBlocks, hgrow], hown, hre, Or.inr ?_⟩
    refine ⟨?_, ⟨e, rfl⟩, hle, hbytes⟩
    rcases Nat.eq_zero_or_pos n with rfl | hn
    · simp [requiredBlocks, growBlocks] at hgrow
    · exact hn
  | ok u =>
    have hlen := hlen rfl
    obtain ⟨s', hshrink, hown', hre', hkeep⟩ :=
      shrinkBlocks_spec hown (n := blocks₁.length - s.requiredBlocks n) (Nat.sub_le _ _)
    have hrest : blocks₁.length - (blocks₁.length - s.requiredBlocks n) = s.requiredBlocks n := by
      omega
    rw [hrest] at hshrink hown' hkeep
    refine ⟨.ok (), s', _, by simp only [ensureFileBlocks, hgrow, hshrink], hown',
      hre.trans hre', Or.inl ⟨rfl, ?_, ?_⟩⟩
    · rw [List.length_take]
      omega
    · intro i hi
      have hslot := (requiredBlocks_spec h.blockSize_pos n).2 i hi
      rw [hkeep i (by rwa [hre.blockSize]), hbytes i]

theorem writeChunks_spec {B : ℕ} {disk : List (List Byte)} {rounds : ℕ} (offset : ℕ)
    (data : List Byte) (hpos : 0 < B) (hU : Uniform B disk) (hnodup : blocks.Nodup)
    (hblocks : ∀ b ∈ blocks, b < disk.length) (hfit : offset + data.length ≤ B * blocks.length)
    (hrounds : data.length ≤ rounds) :
    ∃ disk', writeChunks B blocks rounds disk offset data = some disk' ∧ Uniform B disk' ∧
      disk'.length = disk.length ∧ (∀ c, c ∉ blocks → disk'[c]? = disk[c]?) ∧
      ∀ i, byteAt disk' B blocks i =
        if offset ≤ i ∧ i < offset + data.length then (data[i - offset]?).getD 0
        else byteAt disk B blocks i := by
  induction rounds generalizing disk offset data with
  | zero =>
    obtain rfl : data = [] := List.length_eq_zero_iff.mp (by omega)
    refine ⟨disk, rfl, hU, rfl, fun _ _ => rfl, fun i => ?_⟩
    rw [if_neg (by simp)]
  | succ rounds ih =>
    cases data with
    | nil =>
      refine ⟨disk, rfl, hU, rfl, fun _ _ => rfl, fun i => ?_⟩
      rw [if_neg (by simp)]
    | cons byte bytes =>
      -- one round copies the part of the data that fits into the block of the offset
      simp only [writeChunks]
      generalize hdata : byte :: bytes = data at hfit hrounds ⊢
      have hdata0 : 0 < data.length := by rw [← hdata]; simp
      generalize hn : min (B - offset % B) data.length = n
      have hmod := Nat.mod_lt offset hpos
      have hslot : offset / B < blocks.length := by
        rw [Nat.div_lt_iff_lt_mul hpos, Nat.mul_comm]
        omega
      have hb : blocks[offset / B]? = some blocks[offset / B] := List.getElem?_eq_getElem hslot
      have htake : (data.take n).length = n := by simp; omega
      obtain ⟨disk₁, hcopy, hU₁, hlen₁, hframe₁, hbyte₁⟩ :=
        byteAt_copyInto (data.take n) hU hnodup hb (hblocks _ (List.getElem_mem hslot))
          (by omega) (by omega)
      obtain ⟨disk', hrun, hU', hlen', hframe', hbyte'⟩ :=
        ih (offset + n) (data.drop n) hU₁
          (fun b hb => by rw [hlen₁]; exact hblocks b hb) (by simp; omega) (by simp; omega)
      refine ⟨disk', by simp only [hb, hcopy, hrun], hU', hlen'.trans hlen₁, ?_, ?_⟩
      · intro c hc
        rw [hframe' c hc, hframe₁ c]
        rintro rfl
        exact hc (List.getElem_mem hslot)
      · intro i
        rw [hbyte' i, hbyte₁ i, htake, List.length_drop]
        by_cases h1 : offset + n ≤ i ∧ i < offset + data.length
        · rw [if_pos (by omega), if_pos (by omega), List.getElem?_drop,
            show n + (i - (offset + n)) = i - offset by omega]
        · rw [if_neg (by omega)]
          by_cases h2 : offset ≤ i ∧ i < offset + n
          · rw [if_pos h2, if_pos (by omega), List.getElem?_take_of_lt (by omega)]
          · rw [if_neg h2, if_neg (by omega)]

theorem readChunks_spec {B : ℕ} {disk : List (List Byte)} {offset rounds n : ℕ} (hpos : 0 < B)
    (hU : Uniform B disk) (hblocks : ∀ b ∈ blocks, b < disk.length)
    (hfit : offset + n ≤ B * blocks.length) (hrounds : n ≤ rounds) :
    readChunks B blocks disk rounds offset n =
      some ((List.range n).map fun j => byteAt disk B blocks (offset + j)) := by
  induction rounds generalizing offset n with
  | zero =>
    obtain rfl : n = 0 := by omega
    rfl
  | succ rounds ih =>
    cases n with
    | zero => rfl
    | succ n =>
      simp only [readChunks]
      generalize hk : min (B - offset % B) (n + 1) = k
      have hmod := Nat.mod_lt offset hpos
      have hslot : offset / B < blocks.length := by
        rw [Nat.div_lt_iff_lt_mul hpos, Nat.mul_comm]
        omega
      have hb : blocks[offset / B]? = some blocks[offset / B] := List.getElem?_eq_getElem hslot
      have hcopy := copyFrom_eq (n := k) hU hb (hblocks _ (List.getElem_mem hslot)) (by omega)
      have hrest := @ih (offset + k) (n + 1 - k) (by omega) (by omega)
      simp only [hb, hcopy, hrest, Option.some.injEq]
      have hsplit : n + 1 = k + (n + 1 - k) := by omega
      conv_rhs => rw [hsplit, List.range_add, List.map_append, List.map_map]
      congr 1
      exact List.map_congr_left fun j _ => by simp [Nat.add_assoc]

theorem growBlocks_shape (s : SimpleFs) (blocks : List ℕ) (n : ℕ) :
    ∃ disk allocator, (s.growBlocks blocks n).2.1 =
      { s with disk := disk, allocator := allocator } := by
  induction n generalizing s blocks with
  | zero => exact ⟨s.disk, s.allocator, rfl⟩
  | succ n ih =>
    simp only [growBlocks]
    split
    · exact ⟨_, _, rfl⟩
    · obtain ⟨disk, allocator, heq⟩ := ih ..
      exact ⟨disk, allocator, heq⟩

theorem shrinkBlocks_shape (s : SimpleFs) (blocks : List ℕ) (n : ℕ) :
    ∃ disk allocator,
      (s.shrinkBlocks blocks n).2.1 = { s with disk := disk, allocator := allocator } := by
  induction n generalizing s blocks with
  | zero => exact ⟨s.disk, s.allocator, rfl⟩
  | succ n ih =>
    simp only [shrinkBlocks]
    split
    · exact ⟨s.disk, s.allocator, rfl⟩
    · split
      · exact ⟨_, _, rfl⟩
      · obtain ⟨disk, allocator, heq⟩ := ih ..
        exact ⟨disk, allocator, heq⟩

theorem ensureFileBlocks_shape (s : SimpleFs) (blocks : List ℕ) (n : ℕ) :
    ∃ disk allocator,
      (s.ensureFileBlocks blocks n).2.1 = { s with disk := disk, allocator := allocator } := by
  obtain ⟨disk, allocator, hgrow⟩ := growBlocks_shape s blocks (s.requiredBlocks n - blocks.length)
  simp only [ensureFileBlocks]
  split
  · next heq =>
    rw [heq] at hgrow
    exact ⟨disk, allocator, hgrow⟩
  · next s₁ blocks₁ heq =>
    rw [heq] at hgrow
    obtain rfl : s₁ = { s with disk := disk, allocator := allocator } := hgrow
    obtain ⟨disk', allocator', hshrink⟩ := shrinkBlocks_shape ..
    exact ⟨disk', allocator', hshrink⟩

theorem mkdir_state (s : SimpleFs) (path : List Char) :
    (s.mkdir path).2 = (s.createEntry path .directory).2 := by
  unfold mkdir
  split <;> next heq => rw [heq]

theorem freeBlocks_shape (s : SimpleFs) (blocks : List ℕ) :
    ∃ disk allocator, (s.freeBlocks blocks).2 =
      { s with disk := disk, allocator := allocator } := by
  induction blocks generalizing s with
  | nil => exact ⟨s.disk, s.allocator, rfl⟩
  | cons block blocks ih =>
    simp only [freeBlocks]
    split
    · exact ⟨_, _, rfl⟩
    · obtain ⟨disk, allocator, heq⟩ := ih ..
      exact ⟨disk, allocator, heq⟩

end SimpleFs
end Contur
