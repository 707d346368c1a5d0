import Contur.Segments
import Contur.SimpleFs

/-!
# The loop that splits a path

The files are found through `splitPath`. Here is its index loop as the source has it:
it steps over slashes, looks for the next one and takes what is between. The names it
collects are the segments that start before its place. It is the `splitPath` of the
file system, which is stated there by splitting at every slash.
-/

namespace Contur
namespace PathLoop
open Segments
variable {path : List Char} {start : ℕ} {tokens : List Name}

def skipSlashes (path : List Char) (start : ℕ) : ℕ :=
  if start < path.length ∧ path[start]? = some '/' then skipSlashes path (start + 1) else start
termination_by path.length - start

/-- `path.find('/', start)`. -/
def findSlash (path : List Char) (start : ℕ) : Option ℕ :=
  ((path.drop start).idxOf? '/').map (start + ·)

theorem le_skipSlashes (path : List Char) (start : ℕ) : start ≤ skipSlashes path start := by
  induction start using skipSlashes.induct path with
  | case1 start hslash ih =>
    rw [skipSlashes, if_pos hslash]
    omega
  | case2 start hstop => rw [skipSlashes, if_neg hstop]

theorem findSlash_eq_none (h : findSlash path start = none) {k : ℕ} (hk : start ≤ k) :
    path[k]? ≠ some '/' := by
  intro hslash
  rw [findSlash, Option.map_eq_none_iff, List.idxOf?_eq_none_iff] at h
  apply h
  apply List.mem_of_getElem? (i := k - start)
  rw [List.getElem?_drop, Nat.add_sub_cancel' hk]
  exact hslash

theorem findSlash_eq_some {slashPos : ℕ} (h : findSlash path start = some slashPos) :
    start ≤ slashPos ∧ path[slashPos]? = some '/' ∧
      ∀ k, start ≤ k → k < slashPos → path[k]? ≠ some '/' := by
  obtain ⟨i, hi, rfl⟩ := Option.map_eq_some_iff.mp h
  obtain ⟨hlt, hslash, hbefore⟩ := List.idxOf?_eq_some_iff.mp hi
  refine ⟨Nat.le_add_right _ _, ?_, fun k hk hki hat => ?_⟩
  · rw [← List.getElem?_drop, List.getElem?_eq_getElem hlt, hslash]
  · have hdrop : (path.drop start)[k - start]? = some '/' := by
      rw [List.getElem?_drop, Nat.add_sub_cancel' hk]
      exact hat
    obtain ⟨hlt', heq⟩ := List.getElem?_eq_some_iff.mp hdrop
    exact hbefore (k - start) (by omega) heq

def splitLoop (path : List Char) (start : ℕ) (tokens : List Name) : List Name :=
  if _ : start < path.length then
    let first := skipSlashes path start
    if path.length ≤ first then tokens
    else
      match _ : findSlash path first with
      | none => tokens ++ [path.drop first]
      | some slashPos =>
        splitLoop path (slashPos + 1) (tokens ++ [(path.drop first).take (slashPos - first)])
  else tokens
termination_by path.length - start
decreasing_by
  have hfirst := le_skipSlashes path start
  have hle := (findSlash_eq_some ‹_›).1
  omega

def splitPath (path : List Char) : Result (List Name) :=
  if path.isEmpty ∨ path[0]? ≠ some '/' then .error .invalidArgument
  else
    let tokens := splitLoop path 1 []
    if tokens.any (fun token => token = [] || token = ['.'] || token = ['.', '.']) then
      .error .invalidArgument
    else .ok tokens

theorem skipSlashes_spec (path : List Char) (start : ℕ) :
    (∀ k, start ≤ k → k < skipSlashes path start → path[k]? = some '/') ∧
      path[skipSlashes path start]? ≠ some '/' := by
  induction start using skipSlashes.induct path with
  | case1 start hslash ih =>
    rw [skipSlashes, if_pos hslash]
    refine ⟨fun k hk hlt => ?_, ih.2⟩
    rcases hk.eq_or_lt with rfl | hk
    · exact hslash.2
    · exact ih.1 k hk hlt
  | case2 start hstop =>
    rw [skipSlashes, if_neg hstop]
    refine ⟨fun k hk hlt => absurd hk (not_le.mpr hlt), fun hslash => hstop ⟨?_, hslash⟩⟩
    exact (List.getElem?_eq_some_iff.mp hslash).1

theorem skipSlashes_after (hpos : 0 < start) (hbefore : path[start - 1]? = some '/') :
    path[skipSlashes path start - 1]? = some '/' := by
  have hle := le_skipSlashes path start
  rcases hle.eq_or_lt with heq | hlt
  · rwa [← heq]
  · exact (skipSlashes_spec path start).1 _ (by omega) (by omega)

theorem skipSlashes_below (h : SegmentsBelow '/' path start tokens) :
    SegmentsBelow '/' path (skipSlashes path start) tokens :=
  h.skip_to (le_skipSlashes path start) fun k hk hlt =>
    not_isSegment_of_sep ((skipSlashes_spec path start).1 k hk hlt)

theorem splitLoop_of_end (hinside : start < path.length)
    (hend : path.length ≤ skipSlashes path start) : splitLoop path start tokens = tokens := by
  rw [splitLoop, dif_pos hinside]
  exact if_pos hend

theorem splitLoop_of_last (hinside : start < path.length)
    (hmore : ¬ path.length ≤ skipSlashes path start)
    (hnone : findSlash path (skipSlashes path start) = none) :
    splitLoop path start tokens = tokens ++ [path.drop (skipSlashes path start)] := by
  rw [splitLoop, dif_pos hinside]
  dsimp only
  rw [if_neg hmore]
  split
  · rfl
  · simp_all

theorem splitLoop_of_slash {slashPos : ℕ} (hinside : start < path.length)
    (hmore : ¬ path.length ≤ skipSlashes path start)
    (hsome : findSlash path (skipSlashes path start) = some slashPos) :
    splitLoop path start tokens = splitLoop path (slashPos + 1)
      (tokens ++ [part path (skipSlashes path start, slashPos)]) := by
  rw [splitLoop, dif_pos hinside]
  dsimp only
  rw [if_neg hmore]
  split
  · simp_all
  · simp_all [part]

theorem splitLoop_spec (path : List Char) (start : ℕ) (tokens : List Name) (hpos : 0 < start)
    (hbefore : path[start - 1]? = some '/') (h : SegmentsBelow '/' path start tokens) :
    AllSegments '/' path (splitLoop path start tokens) := by
  induction start, tokens using splitLoop.induct path with
  | case1 start tokens hinside first hend =>
    rw [splitLoop_of_end hinside hend]
    exact (skipSlashes_below h).all hend
  | case2 start tokens hinside first hmore hnone =>
    rw [splitLoop_of_last hinside hmore hnone]
    have hseg : IsSegment '/' path first path.length :=
      ⟨not_le.mp hmore, le_rfl, fun k hk _ => findSlash_eq_none hnone hk,
        Or.inr (skipSlashes_after hpos hbefore), Or.inl rfl⟩
    have hall := ((skipSlashes_below h).take_to hseg).all le_rfl
    rwa [part, List.take_of_length_le (by simp)] at hall
  | case3 start tokens hinside first hmore slashPos hsome ih =>
    rw [splitLoop_of_slash hinside hmore hsome]
    obtain ⟨hle, hslash, hfree⟩ := findSlash_eq_some hsome
    have hlt : first < slashPos := by
      apply lt_of_le_of_ne hle
      rintro heq
      rw [← heq] at hslash
      exact (skipSlashes_spec path start).2 hslash
    have hseg : IsSegment '/' path first slashPos :=
      ⟨hlt, (List.getElem?_eq_some_iff.mp hslash).1.le, hfree,
        Or.inr (skipSlashes_after hpos hbefore), Or.inr hslash⟩
    exact ih (Nat.succ_pos slashPos) hslash
      (((skipSlashes_below h).take_to hseg).skip (not_isSegment_of_sep hslash))
  | case4 start tokens houtside =>
    rw [splitLoop, dif_neg houtside]
    exact h.all (not_lt.mp houtside)

theorem check_tokens (tokens : List Name) (hne : [] ∉ tokens) :
    (if tokens.any (fun token => token = [] || token = ['.'] || token = ['.', '.']) then
      .error .invalidArgument else .ok tokens : Result (List Name)) =
    if ['.'] ∉ tokens ∧ ['.', '.'] ∉ tokens then .ok tokens else .error .invalidArgument := by
  have hbad : tokens.any (fun token => token = [] || token = ['.'] || token = ['.', '.']) = true ↔
      ¬ (['.'] ∉ tokens ∧ ['.', '.'] ∉ tokens) := by
    rw [List.any_eq_true, not_and_or, not_not, not_not]
    constructor
    · rintro ⟨token, hmem, hbad⟩
      simp only [Bool.or_eq_true, decide_eq_true_eq] at hbad
      rcases hbad with (rfl | rfl) | rfl
      · exact absurd hmem hne
      · exact Or.inl hmem
      · exact Or.inr hmem
    · rintro (hmem | hmem)
      · exact ⟨_, hmem, by decide⟩
      · exact ⟨_, hmem, by decide⟩
  by_cases hgood : ['.'] ∉ tokens ∧ ['.', '.'] ∉ tokens
  · rw [if_pos hgood, if_neg fun h => hbad.mp h hgood]
  · rw [if_neg hgood, if_pos (hbad.mpr hgood)]

theorem splitPath_eq {segments : List Name} (hsegments : AllSegments '/' path segments) :
    splitPath path =
      if path.head? = some '/' ∧ ['.'] ∉ segments ∧ ['.', '.'] ∉ segments then .ok segments
      else .error .invalidArgument := by
  unfold splitPath
  rw [List.head?_eq_getElem?]
  by_cases hslash : path[0]? = some '/'
  · have hnonempty : ¬ (path.isEmpty = true ∨ path[0]? ≠ some '/') := by
      rintro (hempty | hne)
      · rw [List.isEmpty_iff.mp hempty] at hslash
        cases hslash
      · exact hne hslash
    have hstart : SegmentsBelow '/' path 1 [] :=
      (segmentsBelow_zero '/' path).skip (not_isSegment_of_sep hslash)
    have htokens : splitLoop path 1 [] = segments :=
      (splitLoop_spec path 1 [] Nat.one_pos hslash hstart).unique hsegments
    rw [if_neg hnonempty]
    dsimp only
    rw [htokens, check_tokens segments hsegments.ne_nil]
    simp only [hslash, true_and]
  · rw [if_pos (Or.inr hslash), if_neg fun h => hslash h.1]

theorem splitPath_eq_splitOn (path : List Char) : splitPath path = Contur.splitPath path := by
  obtain ⟨segments, hsegments, -⟩ := existsUnique_allSegments '/' path
  rw [splitPath_eq hsegments]
  cases path with
  | nil => rfl
  | cons c rest =>
    by_cases hc : c = '/'
    · subst hc
      have hpieces := allSegments_pieces '/' (rest.splitOn '/') fun p hp =>
        not_mem_of_mem_splitOn hp
      rw [splitOn_pieces] at hpieces
      have htokens := hpieces.unique hsegments
      simp only [Contur.splitPath]
      rw [htokens, check_tokens segments hsegments.ne_nil]
      simp only [List.head?_cons, true_and]
    · rw [if_neg fun h => hc (by simpa using h.1)]
      unfold Contur.splitPath
      split
      · simp_all
      · rfl

/-- The names, each behind its number of slashes, and the slashes at the end. -/
def joined (parts : List (ℕ × Name)) (trailing : ℕ) : List Char :=
  parts.flatMap (fun part => List.replicate part.1 '/' ++ part.2) ++ List.replicate trailing '/'

/-- Between two slashes there is a piece; the name is behind the last one. -/
def pieces (part : ℕ × Name) : List Name := List.replicate (part.1 - 1) [] ++ [part.2]

theorem flatMap_nils (k : ℕ) :
    (List.replicate k ([] : Name)).flatMap ('/' :: ·) = List.replicate k '/' := by
  rw [List.flatMap_replicate, List.flatten_replicate_singleton]

theorem flatMap_pieces (part : ℕ × Name) (hpos : 0 < part.1) :
    (pieces part).flatMap ('/' :: ·) = List.replicate part.1 '/' ++ part.2 := by
  obtain ⟨k, hk⟩ := Nat.exists_eq_add_one.mpr hpos
  rw [pieces, List.flatMap_append, flatMap_nils, hk, List.replicate_succ']
  simp

theorem joined_eq (parts : List (ℕ × Name)) (trailing : ℕ) (hpos : ∀ part ∈ parts, 0 < part.1) :
    joined parts trailing =
      (parts.flatMap pieces ++ List.replicate trailing []).flatMap ('/' :: ·) := by
  rw [List.flatMap_append, flatMap_nils, joined, List.flatMap_assoc]
  congr 1
  induction parts with
  | nil => rfl
  | cons part parts ih =>
    rw [List.flatMap_cons, List.flatMap_cons, flatMap_pieces part (hpos part List.mem_cons_self),
      ih fun p hp => hpos p (List.mem_cons_of_mem _ hp)]

theorem filter_pieces (parts : List (ℕ × Name)) (trailing : ℕ)
    (hne : ∀ part ∈ parts, part.2 ≠ []) :
    (parts.flatMap pieces ++ List.replicate trailing []).filter (· ≠ []) =
      parts.map Prod.snd := by
  have hnils (k : ℕ) : (List.replicate k ([] : Name)).filter (· ≠ []) = [] := by
    rw [List.filter_replicate_of_neg (by simp)]
  rw [List.filter_append, hnils, List.append_nil]
  induction parts with
  | nil => rfl
  | cons part parts ih =>
    have hpart := hne part List.mem_cons_self
    rw [List.flatMap_cons, List.filter_append, pieces, List.filter_append, hnils,
      ih fun p hp => hne p (List.mem_cons_of_mem _ hp)]
    simp [hpart]

theorem joined_segments (parts : List (ℕ × Name)) (trailing : ℕ)
    (hparts : ∀ part ∈ parts, 0 < part.1 ∧ part.2 ≠ [] ∧ '/' ∉ part.2) :
    AllSegments '/' (joined parts trailing) (parts.map Prod.snd) := by
  have hfree : ∀ p ∈ parts.flatMap pieces ++ List.replicate trailing [], '/' ∉ p := by
    intro p hp
    rcases List.mem_append.mp hp with hp | hp
    · obtain ⟨part, hpart, hp⟩ := List.mem_flatMap.mp hp
      rcases List.mem_append.mp hp with hp | hp
      · rw [List.eq_of_mem_replicate hp]
        exact List.not_mem_nil
      · rw [List.mem_singleton.mp hp]
        exact (hparts part hpart).2.2
    · rw [List.eq_of_mem_replicate hp]
      exact List.not_mem_nil
  have hall := allSegments_pieces '/' _ hfree
  rwa [filter_pieces parts trailing fun part hpart => (hparts part hpart).2.1,
    ← joined_eq parts trailing fun part hpart => (hparts part hpart).1] at hall

theorem joined_head (parts : List (ℕ × Name)) (trailing : ℕ) (hpos : ∀ part ∈ parts, 0 < part.1)
    (hslash : parts = [] → 0 < trailing) : (joined parts trailing).head? = some '/' := by
  cases parts with
  | nil =>
    obtain ⟨k, hk⟩ := Nat.exists_eq_add_one.mpr (hslash rfl)
    rw [hk]
    rfl
  | cons part parts =>
    obtain ⟨k, hk⟩ := Nat.exists_eq_add_one.mpr (hpos part List.mem_cons_self)
    rw [joined, List.flatMap_cons, hk]
    rfl

def ValidParts (parts : List (ℕ × Name)) : Prop :=
  ∀ part ∈ parts, 0 < part.1 ∧ part.2 ≠ [] ∧ '/' ∉ part.2 ∧ part.2 ≠ ['.'] ∧ part.2 ≠ ['.', '.']

theorem splitPath_joined {parts : List (ℕ × Name)} {trailing : ℕ} (hparts : ValidParts parts)
    (hslash : parts = [] → 0 < trailing) :
    splitPath (joined parts trailing) = .ok (parts.map Prod.snd) := by
  have hsegments := joined_segments parts trailing fun part hpart =>
    ⟨(hparts part hpart).1, (hparts part hpart).2.1, (hparts part hpart).2.2.1⟩
  have hhead := joined_head parts trailing (fun part hpart => (hparts part hpart).1) hslash
  have hreserved {name : Name} (hne : ∀ part ∈ parts, part.2 ≠ name) :
      name ∉ parts.map Prod.snd := by
    intro hmem
    obtain ⟨part, hpart, hname⟩ := List.mem_map.mp hmem
    exact hne part hpart hname
  rw [splitPath_eq hsegments, if_pos]
  exact ⟨hhead, hreserved fun part hpart => (hparts part hpart).2.2.2.1,
    hreserved fun part hpart => (hparts part hpart).2.2.2.2⟩

/-- Every path has one list of segments. The loop accepts the path exactly when it is absolute and
no segment is a reserved name, and returns the segments; names joined by slashes come back, and the
file system splits the same way. -/
theorem splitPath_lossless :
    (∀ path : List Char, (∃! segments, AllSegments '/' path segments) ∧
      (∀ segments, AllSegments '/' path segments → splitPath path =
        if path.head? = some '/' ∧ ['.'] ∉ segments ∧ ['.', '.'] ∉ segments then .ok segments
        else .error .invalidArgument) ∧
      splitPath path = Contur.splitPath path) ∧
    ∀ (parts : List (ℕ × Name)) (trailing : ℕ), ValidParts parts → (parts = [] → 0 < trailing) →
      splitPath (joined parts trailing) = .ok (parts.map Prod.snd) :=
  ⟨fun path => ⟨existsUnique_allSegments '/' path, fun _ h => splitPath_eq h,
    splitPath_eq_splitOn path⟩, fun _ _ => splitPath_joined⟩

theorem resolvePath_joined (s : SimpleFs) {parts : List (ℕ × Name)} {trailing : ℕ}
    (hparts : ValidParts parts) (hslash : parts = [] → 0 < trailing) :
    s.resolvePath (joined parts trailing) = s.descend rootInodeId (parts.map Prod.snd) := by
  rw [SimpleFs.resolvePath, ← splitPath_eq_splitOn, splitPath_joined hparts hslash]

end PathLoop
end Contur
