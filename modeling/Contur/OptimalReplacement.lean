import Mathlib.Data.Finset.Max
import Mathlib.Data.Finset.Sort
import Mathlib.Order.WithBot
import Contur.PageTable
import Contur.Transition

/-!
# Optimal replacement and Belady's rule

The policy knows the frames that will be accessed and counts the accesses. A victim
is searched among the loaded frames, a hash set that can be iterated in any order,
from the place in the list that the count names. `std::find` from a place past the
end of the list has no meaning, so such a search has no result here. The next use of
a frame is its first place in the rest of the list; a frame without one is never used
again and counts as farther than every other.
-/

namespace Contur
open Transition

/-- An order in which the hash set of loaded frames is iterated. -/
structure FrameIteration where
  frames : Finset FrameId → List FrameId
  nodup : ∀ S, (frames S).Nodup
  mem_frames : ∀ S f, f ∈ frames S ↔ f ∈ S

structure OptimalReplacement where
  futureAccesses : List FrameId
  currentIndex : ℕ := 0
  loadedFrames : Finset FrameId := ∅

namespace OptimalReplacement
variable {s : OptimalReplacement} {order : FrameIteration} {accesses frames : List FrameId}

/-- The loop over the loaded frames; the distances are counted from the current index. -/
def victimLoop (rest : List FrameId) : List FrameId → FrameId → ℕ → FrameId
  | [], victim, _ => victim
  | frame :: frames, victim, farthestUse =>
    match rest.idxOf? frame with
    | none => frame -- the ideal victim ends the loop
    | some distance =>
      if distance > farthestUse ∨ victim = invalidFrame then victimLoop rest frames frame distance
      else victimLoop rest frames victim farthestUse

def rest (s : OptimalReplacement) : List FrameId := s.futureAccesses.drop s.currentIndex

def selectVictim (s : OptimalReplacement) (order : FrameIteration) (_pageTable : PageTable) :
    Option (FrameId × OptimalReplacement) :=
  if s.loadedFrames = ∅ then some (invalidFrame, s)
  else if s.futureAccesses.length < s.currentIndex then none
  else
    let victim := victimLoop s.rest (order.frames s.loadedFrames) invalidFrame 0
    some (victim, { s with loadedFrames := s.loadedFrames.erase victim })

def onAccess (s : OptimalReplacement) (_frame : FrameId) : OptimalReplacement :=
  { s with currentIndex := (s.currentIndex + 1) % 2 ^ 64 }

def onLoad (s : OptimalReplacement) (frame : FrameId) : OptimalReplacement :=
  { s with loadedFrames := insert frame s.loadedFrames }

def reset (s : OptimalReplacement) : OptimalReplacement :=
  { s with currentIndex := 0, loadedFrames := ∅ }

inductive Call where
  | onLoad (frame : FrameId)
  | onAccess (frame : FrameId)
  | selectVictim (order : FrameIteration) (table : PageTable)
  | reset

/-- A victim that has no meaning is no answer. -/
def exec (s : OptimalReplacement) : Call → Option FrameId × OptimalReplacement
  | .onLoad f => (none, s.onLoad f)
  | .onAccess f => (none, s.onAccess f)
  | .selectVictim order t =>
    match s.selectVictim order t with
    | some (victim, s') => (some victim, s')
    | none => (none, s)
  | .reset => (none, s.reset)

def machine : Machine OptimalReplacement Call (Option FrameId) := ⟨exec⟩

def nextUse (accesses : List FrameId) (f : FrameId) : WithTop ℕ :=
  if f ∈ accesses then WithTop.some (accesses.idxOf f) else ⊤

/-- A search starts in the list and takes a frame that is used again last of all, in every order of
iteration. Without loaded frames there is no search and no victim. -/
structure FollowsBelady (s : OptimalReplacement) : Prop where
  empty : s.loadedFrames = ∅ → ∀ order t, s.selectVictim order t = some (invalidFrame, s)
  start : s.loadedFrames.Nonempty → s.currentIndex ≤ s.futureAccesses.length
  farthest : s.loadedFrames.Nonempty → ∀ order t, ∃ victim s',
    s.selectVictim order t = some (victim, s') ∧ victim ∈ s.loadedFrames ∧
      ∀ f ∈ s.loadedFrames, nextUse s.rest f ≤ nextUse s.rest victim

/-- The list covers the accesses so far, and the reserved frame is not the only farthest one among
several loaded frames. -/
def Foretold (s : OptimalReplacement) : Prop :=
  s.loadedFrames.Nonempty → s.currentIndex ≤ s.futureAccesses.length ∧
    ∀ f ∈ s.loadedFrames, f ≠ invalidFrame → invalidFrame ∈ s.loadedFrames →
      ∃ g ∈ s.loadedFrames, nextUse s.rest g = ⊤ ∨ nextUse s.rest invalidFrame < nextUse s.rest g

theorem nextUse_eq_top {f : FrameId} : nextUse accesses f = ⊤ ↔ f ∉ accesses := by
  unfold nextUse
  split_ifs with hf
  · simp [hf]
  · simp [hf]

theorem nextUse_of_mem {f : FrameId} (hf : f ∈ accesses) :
    nextUse accesses f = WithTop.some (accesses.idxOf f) :=
  if_pos hf

theorem nextUse_le {f g : FrameId} (hf : f ∈ accesses) (hg : g ∈ accesses) :
    nextUse accesses f ≤ nextUse accesses g ↔ accesses.idxOf f ≤ accesses.idxOf g := by
  rw [nextUse_of_mem hf, nextUse_of_mem hg]
  exact WithTop.coe_le_coe

theorem nextUse_injOn {f g : FrameId} (hf : f ∈ accesses) (hg : g ∈ accesses)
    (heq : nextUse accesses f = nextUse accesses g) : f = g := by
  have hle := (nextUse_le hf hg).mp heq.le
  have hge := (nextUse_le hg hf).mp heq.ge
  exact (List.idxOf_inj hf).mp (le_antisymm hle hge)

theorem idxOf?_of_mem {f : FrameId} (hf : f ∈ accesses) :
    accesses.idxOf? f = some (accesses.idxOf f) := by
  have hlt := List.idxOf_lt_length_of_mem hf
  rw [List.idxOf_eq_getD_idxOf?] at hlt ⊢
  cases hfound : accesses.idxOf? f with
  | none => simp [hfound] at hlt
  | some i => rfl

theorem victimLoop_never {frame victim : FrameId} {farthestUse : ℕ} (hframe : frame ∉ accesses) :
    victimLoop accesses (frame :: frames) victim farthestUse = frame := by
  have hnone := List.idxOf?_eq_none_iff.mpr hframe
  simp only [victimLoop, hnone]

theorem victimLoop_take {frame victim : FrameId} {farthestUse : ℕ} (hframe : frame ∈ accesses)
    (htake : farthestUse < accesses.idxOf frame ∨ victim = invalidFrame) :
    victimLoop accesses (frame :: frames) victim farthestUse =
      victimLoop accesses frames frame (accesses.idxOf frame) := by
  simp only [victimLoop, idxOf?_of_mem hframe]
  exact if_pos htake

theorem victimLoop_pass {frame victim : FrameId} {farthestUse : ℕ} (hframe : frame ∈ accesses)
    (hle : accesses.idxOf frame ≤ farthestUse) (hvictim : victim ≠ invalidFrame) :
    victimLoop accesses (frame :: frames) victim farthestUse =
      victimLoop accesses frames victim farthestUse := by
  simp only [victimLoop, idxOf?_of_mem hframe]
  exact if_neg fun htake => htake.elim (fun hlt => absurd hlt (not_lt.mpr hle)) hvictim

theorem victimLoop_cases (accesses frames : List FrameId) (frame victim : FrameId)
    (farthestUse : ℕ) :
    (frame ∉ accesses ∧ victimLoop accesses (frame :: frames) victim farthestUse = frame) ∨
    (frame ∈ accesses ∧ victimLoop accesses (frame :: frames) victim farthestUse =
      victimLoop accesses frames frame (accesses.idxOf frame)) ∨
    (frame ∈ accesses ∧ accesses.idxOf frame ≤ farthestUse ∧ victim ≠ invalidFrame ∧
      victimLoop accesses (frame :: frames) victim farthestUse =
        victimLoop accesses frames victim farthestUse) := by
  by_cases hframe : frame ∈ accesses
  · by_cases htake : farthestUse < accesses.idxOf frame ∨ victim = invalidFrame
    · exact Or.inr (Or.inl ⟨hframe, victimLoop_take hframe htake⟩)
    · have hle : accesses.idxOf frame ≤ farthestUse := not_lt.mp fun h => htake (Or.inl h)
      have hvictim : victim ≠ invalidFrame := fun h => htake (Or.inr h)
      exact Or.inr (Or.inr ⟨hframe, hle, hvictim, victimLoop_pass hframe hle hvictim⟩)
  · exact Or.inl ⟨hframe, victimLoop_never hframe⟩

theorem victimLoop_mem (victim : FrameId) (farthestUse : ℕ) :
    victimLoop accesses frames victim farthestUse ∈ victim :: frames := by
  induction frames generalizing victim farthestUse with
  | nil => exact List.mem_cons_self
  | cons frame frames ih =>
    rcases victimLoop_cases accesses frames frame victim farthestUse with
      ⟨-, heq⟩ | ⟨-, heq⟩ | ⟨-, -, -, heq⟩
    · rw [heq]
      simp
    · rw [heq]
      exact List.mem_cons_of_mem _ (ih frame _)
    · rw [heq]
      have hmem := ih victim farthestUse
      simp only [List.mem_cons] at hmem ⊢
      tauto

theorem victimLoop_mem_of_unset (accesses frames : List FrameId) (frame : FrameId)
    (farthestUse : ℕ) :
    victimLoop accesses (frame :: frames) invalidFrame farthestUse ∈ frame :: frames := by
  rcases victimLoop_cases accesses frames frame invalidFrame farthestUse
    with ⟨-, heq⟩ | ⟨-, heq⟩ | ⟨-, -, hne, -⟩
  · rw [heq]
    exact List.mem_cons_self
  · rw [heq]
    exact victimLoop_mem frame _
  · exact absurd rfl hne

theorem victimLoop_not_mem (hnever : ∃ f ∈ frames, f ∉ accesses) (victim : FrameId)
    (farthestUse : ℕ) : victimLoop accesses frames victim farthestUse ∉ accesses := by
  induction frames generalizing victim farthestUse with
  | nil =>
    obtain ⟨f, hf, -⟩ := hnever
    cases hf
  | cons frame frames ih =>
    have hlater (hframe : frame ∈ accesses) : ∃ f ∈ frames, f ∉ accesses := by
      obtain ⟨f, hf, hfn⟩ := hnever
      rcases List.mem_cons.mp hf with rfl | hf
      · exact absurd hframe hfn
      · exact ⟨f, hf, hfn⟩
    rcases victimLoop_cases accesses frames frame victim farthestUse with
      ⟨hframe, heq⟩ | ⟨hframe, heq⟩ | ⟨hframe, -, -, heq⟩
    · rwa [heq]
    · rw [heq]
      exact ih (hlater hframe) _ _
    · rw [heq]
      exact ih (hlater hframe) _ _

theorem victimLoop_keeps {m : FrameId} (hm : m ≠ invalidFrame)
    (hmem : ∀ f ∈ frames, f ∈ accesses)
    (hle : ∀ f ∈ frames, accesses.idxOf f ≤ accesses.idxOf m) :
    victimLoop accesses frames m (accesses.idxOf m) = m := by
  induction frames with
  | nil => rfl
  | cons frame frames ih =>
    rw [victimLoop_pass (hmem frame List.mem_cons_self) (hle frame List.mem_cons_self) hm]
    exact ih (fun f hf => hmem f (List.mem_cons_of_mem _ hf))
      fun f hf => hle f (List.mem_cons_of_mem _ hf)

theorem victimLoop_eq {m victim : FrameId} {farthestUse : ℕ} (hm : m ≠ invalidFrame)
    (hmframes : m ∈ frames) (hmem : ∀ f ∈ frames, f ∈ accesses)
    (hle : ∀ f ∈ frames, accesses.idxOf f ≤ accesses.idxOf m)
    (hunset : victim = invalidFrame ∨ farthestUse < accesses.idxOf m) :
    victimLoop accesses frames victim farthestUse = m := by
  induction frames generalizing victim farthestUse with
  | nil => cases hmframes
  | cons frame frames ih =>
    have hmemTail : ∀ f ∈ frames, f ∈ accesses := fun f hf => hmem f (List.mem_cons_of_mem _ hf)
    have hleTail : ∀ f ∈ frames, accesses.idxOf f ≤ accesses.idxOf m :=
      fun f hf => hle f (List.mem_cons_of_mem _ hf)
    by_cases hhead : frame = m
    · subst hhead
      rw [victimLoop_take (hmem frame List.mem_cons_self) hunset.symm]
      exact victimLoop_keeps hm hmemTail hleTail
    · have hmtail : m ∈ frames :=
        (List.mem_cons.mp hmframes).resolve_left fun h => hhead h.symm
      have hne : accesses.idxOf frame ≠ accesses.idxOf m :=
        fun h => hhead ((List.idxOf_inj (hmem frame List.mem_cons_self)).mp h)
      have hlt := lt_of_le_of_ne (hle frame List.mem_cons_self) hne
      rcases victimLoop_cases accesses frames frame victim farthestUse
        with ⟨hframe, -⟩ | ⟨-, heq⟩ | ⟨-, -, -, heq⟩
      · exact absurd (hmem frame List.mem_cons_self) hframe
      · rw [heq]
        exact ih hmtail hmemTail hleTail (Or.inr hlt)
      · rw [heq]
        exact ih hmtail hmemTail hleTail hunset

theorem selectVictim_of_le (hloaded : s.loadedFrames.Nonempty)
    (hindex : s.currentIndex ≤ s.futureAccesses.length) (order : FrameIteration) (t : PageTable) :
    ∃ s', s.selectVictim order t =
      some (victimLoop s.rest (order.frames s.loadedFrames) invalidFrame 0, s') := by
  rw [selectVictim, if_neg hloaded.ne_empty, if_neg (not_lt.mpr hindex)]
  exact ⟨_, rfl⟩

theorem victim_mem (hloaded : s.loadedFrames.Nonempty) (order : FrameIteration) :
    victimLoop s.rest (order.frames s.loadedFrames) invalidFrame 0 ∈ s.loadedFrames := by
  obtain ⟨f, hf⟩ := hloaded
  rw [← order.mem_frames] at hf ⊢
  cases hframes : order.frames s.loadedFrames with
  | nil => simp [hframes] at hf
  | cons frame frames => exact victimLoop_mem_of_unset s.rest frames frame 0

theorem victim_farthest (hloaded : s.loadedFrames.Nonempty) (hforetold : s.Foretold)
    (order : FrameIteration) : ∀ f ∈ s.loadedFrames, nextUse s.rest f ≤
      nextUse s.rest (victimLoop s.rest (order.frames s.loadedFrames) invalidFrame 0) := by
  intro f hf
  by_cases hnever : ∃ g ∈ s.loadedFrames, g ∉ s.rest
  · have hvictim : victimLoop s.rest (order.frames s.loadedFrames) invalidFrame 0 ∉ s.rest := by
      apply victimLoop_not_mem
      obtain ⟨g, hg, hgn⟩ := hnever
      exact ⟨g, (order.mem_frames _ g).mpr hg, hgn⟩
    rw [nextUse_eq_top.mpr hvictim]
    exact le_top
  · have hmem : ∀ g ∈ s.loadedFrames, g ∈ s.rest := by
      simpa using hnever
    obtain ⟨m, hm, hmax⟩ := s.loadedFrames.exists_max_image (s.rest.idxOf ·) hloaded
    suffices hvictim : victimLoop s.rest (order.frames s.loadedFrames) invalidFrame 0 = m by
      rw [hvictim, nextUse_le (hmem f hf) (hmem m hm)]
      exact hmax f hf
    by_cases hinvalid : m = invalidFrame
    · -- the reserved frame is farthest, so no other frame is loaded
      have honly : ∀ g ∈ s.loadedFrames, g = m := by
        intro g hg
        by_contra hne
        obtain ⟨g', hg', htop | hlt⟩ := (hforetold hloaded).2 g hg (hinvalid ▸ hne) (hinvalid ▸ hm)
        · exact nextUse_eq_top.mp htop (hmem g' hg')
        · rw [← hinvalid] at hlt
          exact absurd hlt (not_lt.mpr ((nextUse_le (hmem g' hg') (hmem m hm)).mpr (hmax g' hg')))
      exact honly _ (victim_mem hloaded order)
    · apply victimLoop_eq hinvalid ((order.mem_frames _ m).mpr hm)
      · exact fun g hg => hmem g ((order.mem_frames _ g).mp hg)
      · exact fun g hg => hmax g ((order.mem_frames _ g).mp hg)
      · exact Or.inl rfl

def reservedFirst : FrameIteration where
  frames S := (if invalidFrame ∈ S then [invalidFrame] else []) ++ (S.erase invalidFrame).sort
  nodup S := by
    split_ifs with h
    · simp
    · simp
  mem_frames S f := by
    split_ifs with h
    · by_cases hf : f = invalidFrame
      · simp [hf, h]
      · simp [hf]
    · have hne : f ∈ S → f ≠ invalidFrame := fun hf heq => h (heq ▸ hf)
      simpa using hne

theorem victim_ne_reserved {f : FrameId} (hf : f ∈ s.loadedFrames) (hne : f ≠ invalidFrame)
    (hreserved : invalidFrame ∈ s.loadedFrames) (hused : invalidFrame ∈ s.rest) :
    victimLoop s.rest (reservedFirst.frames s.loadedFrames) invalidFrame 0 ≠ invalidFrame := by
  have hmem : f ∈ (s.loadedFrames.erase invalidFrame).sort := by
    simpa using ⟨hne, hf⟩
  have hframes : reservedFirst.frames s.loadedFrames =
      invalidFrame :: (s.loadedFrames.erase invalidFrame).sort := by
    simp [reservedFirst, hreserved]
  rw [hframes, victimLoop_take hused (Or.inr rfl)]
  cases hothers : (s.loadedFrames.erase invalidFrame).sort with
  | nil => simp [hothers] at hmem
  | cons frame frames =>
    intro heq
    have hvictim := victimLoop_mem_of_unset s.rest frames frame (s.rest.idxOf invalidFrame)
    rw [heq, ← hothers] at hvictim
    simp at hvictim

theorem followsBelady_iff : s.FollowsBelady ↔ s.Foretold := by
  constructor
  · intro h hloaded
    have hindex := h.start hloaded
    refine ⟨hindex, fun f hf hne hreserved => ?_⟩
    by_contra hnone
    have hle : ∀ g ∈ s.loadedFrames, nextUse s.rest g ≠ ⊤ ∧
        nextUse s.rest g ≤ nextUse s.rest invalidFrame := by
      intro g hg
      refine ⟨fun htop => hnone ⟨g, hg, Or.inl htop⟩, not_lt.mp fun hlt =>
        hnone ⟨g, hg, Or.inr hlt⟩⟩
    have hmem : ∀ g ∈ s.loadedFrames, g ∈ s.rest :=
      fun g hg => not_not.mp fun hg' => (hle g hg).1 (nextUse_eq_top.mpr hg')
    obtain ⟨victim, s', hselect, hloadedVictim, hfarthest⟩ :=
      h.farthest hloaded reservedFirst ⟨[]⟩
    obtain ⟨s'', heq⟩ := selectVictim_of_le hloaded hindex reservedFirst ⟨[]⟩
    rw [heq, Option.some_inj, Prod.mk.injEq] at hselect
    have hsame := nextUse_injOn (hmem _ hreserved) (hmem _ hloadedVictim)
      (le_antisymm (hfarthest _ hreserved) (hle _ hloadedVictim).2)
    exact victim_ne_reserved hf hne hreserved (hmem _ hreserved) (hselect.1.trans hsame.symm)
  · intro h
    refine ⟨fun hempty order t => if_pos hempty, fun hloaded => (h hloaded).1,
      fun hloaded order t => ?_⟩
    obtain ⟨s', heq⟩ := selectVictim_of_le hloaded (h hloaded).1 order t
    exact ⟨_, s', heq, victim_mem hloaded order, victim_farthest hloaded h order⟩

def AtSearch (P : OptimalReplacement → Prop) (s : OptimalReplacement) : Call → Prop
  | .selectVictim _ _ => P s
  | _ => True

/-- In every run of calls, all searches follow Belady's rule exactly when all of them are foretold.
-/
theorem run_followsBelady_iff (futureAccesses : List FrameId) (calls : List Call) :
    machine.Guarded (AtSearch FollowsBelady) { futureAccesses } calls ↔
      machine.Guarded (AtSearch Foretold) { futureAccesses } calls := by
  have hguards : AtSearch FollowsBelady = AtSearch Foretold := by
    funext s call
    cases call with
    | selectVictim order t => exact propext followsBelady_iff
    | onLoad f => rfl
    | onAccess f => rfl
    | reset => rfl
  rw [hguards]

/-- One access more than the list foretold, and the search starts past its end. -/
theorem search_past_the_end :
    ¬ machine.Guarded (AtSearch FollowsBelady) { futureAccesses := [] }
      [.onLoad 1, .onAccess 1, .selectVictim reservedFirst ⟨[]⟩] := by
  intro hrun
  have hsearch : FollowsBelady { futureAccesses := [], currentIndex := 1, loadedFrames := {1} } :=
    hrun.2.2.1
  exact absurd (hsearch.start (Finset.singleton_nonempty 1)) (by decide)

end OptimalReplacement
end Contur
