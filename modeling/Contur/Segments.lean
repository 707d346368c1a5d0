import Mathlib.Data.List.Sort
import Mathlib.Data.List.Flatten

/-!
# The segments between separators

A segment is a maximal nonempty part of a list without the separator. It is given by
the place where it starts and the place behind its end. A list has one list of its
segments from left to right. A reader that goes from left to right knows the segments
that start before its place: it may step over a separator, and it may take the segment
that starts where it is.
-/

namespace Segments
variable {α : Type*} {sep : α} {l : List α} {n m : ℕ} {ts : List (List α)}

structure IsSegment (sep : α) (l : List α) (i j : ℕ) : Prop where
  lt : i < j
  le : j ≤ l.length
  free : ∀ k, i ≤ k → k < j → l[k]? ≠ some sep
  starts : i = 0 ∨ l[i - 1]? = some sep
  stops : j = l.length ∨ l[j]? = some sep

def part (l : List α) (p : ℕ × ℕ) : List α := (l.drop p.1).take (p.2 - p.1)

def SegmentsBelow (sep : α) (l : List α) (n : ℕ) (ts : List (List α)) : Prop :=
  ∃ ps : List (ℕ × ℕ), ts = ps.map (part l) ∧ ps.Pairwise (fun p q => p.1 < q.1) ∧
    ∀ i j, (i, j) ∈ ps ↔ IsSegment sep l i j ∧ i < n

/-- All segments, from left to right. -/
def AllSegments (sep : α) (l : List α) (ts : List (List α)) : Prop :=
  SegmentsBelow sep l l.length ts

theorem IsSegment.end_le {i j k : ℕ} (h : IsSegment sep l i j) (h' : IsSegment sep l i k) :
    j ≤ k := by
  by_contra hlt
  have hkj : k < j := not_le.mp hlt
  rcases h'.stops with hend | hsep
  · have hle := h.le
    omega
  · exact h.free k h'.lt.le hkj hsep

theorem IsSegment.end_unique {i j k : ℕ} (h : IsSegment sep l i j) (h' : IsSegment sep l i k) :
    j = k :=
  le_antisymm (h.end_le h') (h'.end_le h)

theorem IsSegment.le_start {i j : ℕ} (h : IsSegment sep l n m) (h' : IsSegment sep l i j)
    (hni : n < i) : m ≤ i := by
  by_contra hlt
  rcases h'.starts with hzero | hsep
  · omega
  · exact h.free (i - 1) (by omega) (by omega) hsep

theorem segmentsBelow_zero (sep : α) (l : List α) : SegmentsBelow sep l 0 [] :=
  ⟨[], rfl, .nil, fun i j => by simp⟩

theorem not_isSegment_of_sep (hsep : l[n]? = some sep) (j : ℕ) : ¬ IsSegment sep l n j :=
  fun h => h.free n le_rfl h.lt hsep

theorem SegmentsBelow.skip (h : SegmentsBelow sep l n ts) (hnone : ∀ j, ¬ IsSegment sep l n j) :
    SegmentsBelow sep l (n + 1) ts := by
  obtain ⟨ps, hts, hsorted, hmem⟩ := h
  refine ⟨ps, hts, hsorted, fun i j => ?_⟩
  rw [hmem]
  constructor
  · rintro ⟨hseg, hlt⟩
    exact ⟨hseg, Nat.lt_succ_of_lt hlt⟩
  · rintro ⟨hseg, hlt⟩
    refine ⟨hseg, lt_of_le_of_ne (Nat.le_of_lt_succ hlt) ?_⟩
    rintro rfl
    exact hnone j hseg

theorem SegmentsBelow.skip_to (h : SegmentsBelow sep l n ts) (hnm : n ≤ m)
    (hnone : ∀ k, n ≤ k → k < m → ∀ j, ¬ IsSegment sep l k j) : SegmentsBelow sep l m ts := by
  induction hnm with
  | refl => exact h
  | @step m hnm ih =>
    have hbelow := ih fun k hk hkm => hnone k hk (Nat.lt_succ_of_lt hkm)
    exact hbelow.skip (hnone m hnm (Nat.lt_succ_self m))

theorem SegmentsBelow.take (h : SegmentsBelow sep l n ts) (hseg : IsSegment sep l n m) :
    SegmentsBelow sep l (n + 1) (ts ++ [part l (n, m)]) := by
  obtain ⟨ps, rfl, hsorted, hmem⟩ := h
  refine ⟨ps ++ [(n, m)], by simp, ?_, fun i j => ?_⟩
  · apply List.pairwise_append.mpr
    refine ⟨hsorted, List.pairwise_singleton _ _, fun p hp q hq => ?_⟩
    rw [List.mem_singleton.mp hq]
    exact ((hmem p.1 p.2).mp hp).2
  · rw [List.mem_append, hmem, List.mem_singleton, Prod.mk.injEq]
    constructor
    · rintro (⟨hother, hlt⟩ | ⟨rfl, rfl⟩)
      · exact ⟨hother, Nat.lt_succ_of_lt hlt⟩
      · exact ⟨hseg, Nat.lt_succ_self i⟩
    · rintro ⟨hother, hlt⟩
      rcases (Nat.le_of_lt_succ hlt).lt_or_eq with hbefore | rfl
      · exact Or.inl ⟨hother, hbefore⟩
      · exact Or.inr ⟨rfl, hother.end_unique hseg⟩

theorem SegmentsBelow.take_to (h : SegmentsBelow sep l n ts) (hseg : IsSegment sep l n m) :
    SegmentsBelow sep l m (ts ++ [part l (n, m)]) := by
  apply (h.take hseg).skip_to hseg.lt
  intro k hk hkm j hother
  exact absurd hkm (not_lt.mpr (hseg.le_start hother hk))

theorem SegmentsBelow.all (h : SegmentsBelow sep l n ts) (hn : l.length ≤ n) :
    AllSegments sep l ts := by
  obtain ⟨ps, hts, hsorted, hmem⟩ := h
  refine ⟨ps, hts, hsorted, fun i j => (hmem i j).trans (and_congr_right fun hseg => ?_)⟩
  have hlt := hseg.lt.trans_le hseg.le
  exact ⟨fun _ => hlt, fun _ => hlt.trans_le hn⟩

theorem exists_segmentsBelow (sep : α) (l : List α) (n : ℕ) : ∃ ts, SegmentsBelow sep l n ts := by
  induction n with
  | zero => exact ⟨[], segmentsBelow_zero sep l⟩
  | succ n ih =>
    obtain ⟨ts, hts⟩ := ih
    by_cases hseg : ∃ m, IsSegment sep l n m
    · obtain ⟨m, hseg⟩ := hseg
      exact ⟨_, hts.take hseg⟩
    · exact ⟨ts, hts.skip (not_exists.mp hseg)⟩

theorem AllSegments.unique {us : List (List α)} (h : AllSegments sep l ts)
    (h' : AllSegments sep l us) : ts = us := by
  obtain ⟨ps, rfl, hsorted, hmem⟩ := h
  obtain ⟨qs, rfl, hsorted', hmem'⟩ := h'
  have hsame (p : ℕ × ℕ) : p ∈ ps ↔ p ∈ qs := (hmem p.1 p.2).trans (hmem' p.1 p.2).symm
  have hnodup {rs : List (ℕ × ℕ)} (hrs : rs.Pairwise fun p q => p.1 < q.1) : rs.Nodup := by
    apply hrs.imp
    intro p q hlt heq
    rw [heq] at hlt
    exact Nat.lt_irrefl _ hlt
  have hperm : ps.Perm qs :=
    (List.perm_ext_iff_of_nodup (hnodup hsorted) (hnodup hsorted')).mpr hsame
  rw [hperm.eq_of_pairwise (fun p q _ _ hlt hgt => absurd hlt (Nat.lt_asymm hgt)) hsorted hsorted']

theorem existsUnique_allSegments (sep : α) (l : List α) : ∃! ts, AllSegments sep l ts := by
  obtain ⟨ts, hts⟩ := exists_segmentsBelow sep l l.length
  exact ⟨ts, hts, fun us hus => AllSegments.unique hus hts⟩

theorem AllSegments.ne_nil (h : AllSegments sep l ts) : [] ∉ ts := by
  obtain ⟨ps, rfl, -, hmem⟩ := h
  intro hnil
  obtain ⟨p, hp, hpart⟩ := List.mem_map.mp hnil
  have hseg := ((hmem p.1 p.2).mp hp).1
  have hlength := congrArg List.length hpart
  have hlt := hseg.lt
  have hle := hseg.le
  rw [part, List.length_take, List.length_drop, List.length_nil] at hlength
  omega

theorem getElem?_pieces_head (sep : α) (ps : List (List α)) :
    ps.flatMap (sep :: ·) = [] ∨ (ps.flatMap (sep :: ·))[0]? = some sep := by
  cases ps with
  | nil => exact Or.inl rfl
  | cons p ps => exact Or.inr rfl

theorem isSegment_append {pre p post : List α} (hp : p ≠ []) (hfree : sep ∉ p)
    (hpre : pre = [] ∨ pre.getLast? = some sep) (hpost : post = [] ∨ post[0]? = some sep) :
    IsSegment sep (pre ++ p ++ post) pre.length (pre.length + p.length) := by
  have hpos := List.length_pos_of_ne_nil hp
  refine ⟨by omega, by simp, fun k hk hkp hsep => ?_, ?_, ?_⟩
  · rw [List.append_assoc, List.getElem?_append_right hk,
      List.getElem?_append_left (by omega)] at hsep
    exact hfree (List.mem_of_getElem? hsep)
  · rcases hpre with rfl | hlast
    · exact Or.inl rfl
    · have hne : pre ≠ [] := by
        rintro rfl
        cases hlast
      have hlen := List.length_pos_of_ne_nil hne
      rw [List.append_assoc, List.getElem?_append_left (by omega), ← List.getLast?_eq_getElem?]
      exact Or.inr hlast
  · rcases hpost with rfl | hhead
    · simp
    · rw [List.getElem?_append_right (by simp)]
      simpa using Or.inr hhead

theorem part_append (pre p post : List α) :
    part (pre ++ p ++ post) (pre.length, pre.length + p.length) = p := by
  simp [part, List.append_assoc]

theorem segmentsBelow_pieces {ps : List (List α)} (hfree : ∀ p ∈ ps, sep ∉ p) (pre : List α)
    (hl : l = pre ++ ps.flatMap (sep :: ·)) (h : SegmentsBelow sep l pre.length ts) :
    AllSegments sep l (ts ++ ps.filter (· ≠ [])) := by
  induction ps generalizing pre ts with
  | nil =>
    rw [List.filter_nil, List.append_nil]
    apply h.all
    simp [hl]
  | cons p ps ih =>
    have hrest : ∀ q ∈ ps, sep ∉ q := fun q hq => hfree q (List.mem_cons_of_mem _ hq)
    have hparts : l = (pre ++ [sep]) ++ p ++ ps.flatMap (sep :: ·) := by
      rw [hl]
      simp
    have hseparator : l[pre.length]? = some sep := by
      rw [hl, List.getElem?_append_right le_rfl]
      simp
    have hbelow := h.skip (not_isSegment_of_sep hseparator)
    have hlength : (pre ++ [sep]).length = pre.length + 1 := List.length_append
    rw [← hlength] at hbelow
    by_cases hp : p = []
    · rw [List.filter_cons_of_neg (by simp [hp])]
      apply ih hrest (pre ++ [sep]) _ hbelow
      rw [hparts, hp, List.append_nil]
    · have hseg := isSegment_append hp (hfree p List.mem_cons_self)
        (Or.inr (List.getLast?_concat (l := pre) (a := sep)))
        (getElem?_pieces_head sep ps)
      have hpart := part_append (pre ++ [sep]) p (ps.flatMap (sep :: ·))
      rw [← hparts] at hseg hpart
      have htaken := hbelow.take_to hseg
      rw [hpart, ← List.length_append] at htaken
      rw [List.filter_cons_of_pos (by simp [hp])]
      have hall := ih hrest (pre ++ [sep] ++ p) hparts htaken
      rwa [List.append_assoc, List.singleton_append] at hall

theorem allSegments_pieces (sep : α) (ps : List (List α)) (hfree : ∀ p ∈ ps, sep ∉ p) :
    AllSegments sep (ps.flatMap (sep :: ·)) (ps.filter (· ≠ [])) :=
  segmentsBelow_pieces hfree [] rfl (segmentsBelow_zero sep _)

variable [BEq α] [LawfulBEq α]

theorem splitOn_pieces (sep : α) (l : List α) :
    (l.splitOn sep).flatMap (sep :: ·) = sep :: l := by
  induction l with
  | nil => simp
  | cons a l ih =>
    rw [List.splitOn_cons_eq_if_modifyHead]
    split_ifs with ha
    · rw [List.flatMap_cons, ih, eq_of_beq ha]
      rfl
    · cases hpieces : l.splitOn sep with
      | nil => exact absurd hpieces (List.splitOn_ne_nil sep l)
      | cons p ps =>
        rw [hpieces, List.flatMap_cons] at ih
        rw [List.modifyHead_cons, List.flatMap_cons]
        exact congrArg (sep :: a :: ·) (List.cons_inj_right sep |>.mp ih)

theorem not_mem_of_mem_splitOn {p : List α} (hp : p ∈ l.splitOn sep) : sep ∉ p := by
  induction l generalizing p with
  | nil =>
    rw [List.splitOn_nil, List.mem_singleton] at hp
    simp [hp]
  | cons a l ih =>
    rw [List.splitOn_cons_eq_if_modifyHead] at hp
    split_ifs at hp with ha
    · rcases List.mem_cons.mp hp with rfl | hp
      · exact List.not_mem_nil
      · exact ih hp
    · cases hpieces : l.splitOn sep with
      | nil => exact absurd hpieces (List.splitOn_ne_nil sep l)
      | cons q qs =>
        rw [hpieces, List.modifyHead_cons] at hp
        have hq : sep ∉ q := ih (hpieces ▸ List.mem_cons_self)
        rcases List.mem_cons.mp hp with rfl | hp
        · intro hmem
          rcases List.mem_cons.mp hmem with rfl | hmem
          · exact ha (beq_self_eq_true sep)
          · exact hq hmem
        · exact ih (hpieces ▸ List.mem_cons_of_mem _ hp)

end Segments
