import Mathlib.Data.List.AList
import Mathlib.Data.Set.Insert
import Contur.MinElement
import Contur.PageTable

/-!
# Page replacement policies

A policy is a state with the three calls that the memory management unit makes.
A history lists the calls made so far, the newest first; it is legal when only
frames that were loaded before are reported as accessed. A policy is sound when
after every legal history it proposes no frame or a frame that was loaded.
`Tracks` is the share of the policy in the invariant of the memory management
unit: the state comes from a legal history over frames below `N` in which every
mapped frame was loaded.
-/

namespace Contur
open Extremum

structure ReplacementPolicy where
  State : Type
  init : State
  selectVictim : State → PageTable → FrameId × State
  onAccess : State → FrameId → State
  onLoad : State → FrameId → State

inductive PolicyCall where
  | selectVictim (table : PageTable)
  | onAccess (frame : FrameId)
  | onLoad (frame : FrameId)

def PolicyCall.loaded : List PolicyCall → List FrameId
  | [] => []
  | .onLoad f :: cs => f :: loaded cs
  | .onAccess _ :: cs => loaded cs
  | .selectVictim _ :: cs => loaded cs

def PolicyCall.Legal : List PolicyCall → Prop
  | [] => True
  | .onLoad _ :: cs => Legal cs
  | .onAccess f :: cs => f ∈ loaded cs ∧ Legal cs
  | .selectVictim _ :: cs => Legal cs

namespace ReplacementPolicy
open PolicyCall (loaded Legal)
variable {P : ReplacementPolicy} {N : ℕ} {mapped mapped' : Set FrameId} {σ : P.State}

def apply (P : ReplacementPolicy) (σ : P.State) : PolicyCall → P.State
  | .selectVictim t => (P.selectVictim σ t).2
  | .onAccess f => P.onAccess σ f
  | .onLoad f => P.onLoad σ f

def after (P : ReplacementPolicy) : List PolicyCall → P.State
  | [] => P.init
  | c :: cs => P.apply (P.after cs) c

def Sound (P : ReplacementPolicy) : Prop :=
  ∀ calls, Legal calls → ∀ table,
    (P.selectVictim (P.after calls) table).1 = invalidFrame ∨
      (P.selectVictim (P.after calls) table).1 ∈ loaded calls

/-- A policy is sound when it keeps a set of known frames that grows only by the reported
frame and from which every victim is taken. -/
theorem sound_of_known (known : P.State → Set FrameId) (hinit : known P.init = ∅)
    (hload : ∀ σ f, known (P.onLoad σ f) ⊆ insert f (known σ))
    (haccess : ∀ σ f, known (P.onAccess σ f) ⊆ insert f (known σ))
    (hselect : ∀ σ t, known (P.selectVictim σ t).2 ⊆ known σ)
    (hvictim : ∀ σ t, (P.selectVictim σ t).1 = invalidFrame ∨ (P.selectVictim σ t).1 ∈ known σ) :
    P.Sound := by
  have hknown : ∀ calls, Legal calls → ∀ f ∈ known (P.after calls), f ∈ loaded calls := by
    intro calls
    induction calls with
    | nil =>
      intro _ f hf
      simp [after, hinit] at hf
    | cons c cs ih =>
      intro hl f hf
      cases c with
      | selectVictim t => exact ih hl f (hselect _ t hf)
      | onAccess g =>
        rcases haccess _ g hf with h | h
        · rw [h]
          exact hl.1
        · exact ih hl.2 f h
      | onLoad g =>
        rcases hload _ g hf with h | h
        · rw [h]
          exact List.mem_cons_self
        · exact List.mem_cons_of_mem _ (ih hl f h)
  intro calls hl t
  exact (hvictim _ t).imp_right (hknown calls hl _)

def Tracks (P : ReplacementPolicy) (N : ℕ) (mapped : Set FrameId) (σ : P.State) : Prop :=
  ∃ calls, P.after calls = σ ∧ Legal calls ∧ (∀ f ∈ loaded calls, f < N) ∧
    ∀ f ∈ mapped, f ∈ loaded calls

theorem tracks_init (P : ReplacementPolicy) (N : ℕ) : P.Tracks N ∅ P.init :=
  ⟨[], rfl, trivial, by simp [loaded], by simp⟩

theorem Tracks.mono (h : P.Tracks N mapped σ) (hm : mapped' ⊆ mapped) : P.Tracks N mapped' σ := by
  obtain ⟨calls, ha, hl, hN, hmap⟩ := h
  exact ⟨calls, ha, hl, hN, fun f hf => hmap f (hm hf)⟩

theorem Tracks.selectVictim (h : P.Tracks N mapped σ) (t : PageTable) :
    P.Tracks N mapped (P.selectVictim σ t).2 := by
  obtain ⟨calls, rfl, hl, hN, hmap⟩ := h
  exact ⟨.selectVictim t :: calls, rfl, hl, hN, hmap⟩

theorem Tracks.onAccess (h : P.Tracks N mapped σ) {f : FrameId} (hf : f ∈ mapped) :
    P.Tracks N mapped (P.onAccess σ f) := by
  obtain ⟨calls, rfl, hl, hN, hmap⟩ := h
  exact ⟨.onAccess f :: calls, rfl, ⟨hmap f hf, hl⟩, hN, hmap⟩

theorem Tracks.onLoad (h : P.Tracks N mapped σ) {f : FrameId} (hf : f < N) :
    P.Tracks N (insert f mapped) (P.onLoad σ f) := by
  obtain ⟨calls, rfl, hl, hN, hmap⟩ := h
  refine ⟨.onLoad f :: calls, rfl, hl, ?_, ?_⟩
  · intro g hg
    rcases List.mem_cons.mp hg with rfl | hg
    · exact hf
    · exact hN g hg
  · intro g hg
    rcases hg with rfl | hg
    · exact List.mem_cons_self
    · exact List.mem_cons_of_mem _ (hmap g hg)

theorem Tracks.victim_lt (hP : P.Sound) (h : P.Tracks N mapped σ) (t : PageTable)
    (hv : (P.selectVictim σ t).1 ≠ invalidFrame) : (P.selectVictim σ t).1 < N := by
  obtain ⟨calls, rfl, hl, hN, _⟩ := h
  exact hN _ ((hP calls hl t).resolve_left hv)

end ReplacementPolicy

def fifoReplacement : ReplacementPolicy where
  State := List FrameId
  init := []
  selectVictim
    | [], _ => (invalidFrame, [])
    | victim :: loadOrder, _ => (victim, loadOrder)
  onAccess loadOrder _ := loadOrder
  onLoad loadOrder frame := loadOrder ++ [frame]

theorem fifoReplacement_sound : fifoReplacement.Sound := by
  apply ReplacementPolicy.sound_of_known (fun loadOrder : List FrameId => {f | f ∈ loadOrder})
  · simp [fifoReplacement]
  · intro loadOrder f g hg
    rcases List.mem_append.mp hg with h | h
    · exact Or.inr h
    · exact Or.inl (List.mem_singleton.mp h)
  · intro loadOrder f
    exact Set.subset_insert _ _
  · rintro (_ | ⟨v, loadOrder⟩) t g hg
    · exact hg
    · exact List.mem_cons_of_mem _ hg
  · rintro (_ | ⟨v, loadOrder⟩) t
    · exact Or.inl rfl
    · exact Or.inr List.mem_cons_self

structure LruState where
  accessTime : AList (fun _ : FrameId => ℕ)
  clock : ℕ

namespace LruState

def touch (s : LruState) (frame : FrameId) : LruState :=
  ⟨s.accessTime.insert frame (s.clock + 1), s.clock + 1⟩

def selectVictim (s : LruState) : FrameId × LruState :=
  match minElement (fun a b => decide (a.2 < b.2)) s.accessTime.entries with
  | none => (invalidFrame, s)
  | some it => (it.1, { s with accessTime := s.accessTime.erase it.1 })

end LruState

def lruReplacement : ReplacementPolicy where
  State := LruState
  init := ⟨∅, 0⟩
  selectVictim s _ := s.selectVictim
  onAccess := LruState.touch
  onLoad := LruState.touch

theorem lruReplacement_sound : lruReplacement.Sound := by
  have htouch : ∀ (s : LruState) (f g : FrameId),
      g ∈ (s.touch f).accessTime → g ∈ insert f {f | f ∈ s.accessTime} := by
    intro s f g hg
    exact (AList.mem_insert _).mp hg
  apply ReplacementPolicy.sound_of_known (fun s : LruState => {f | f ∈ s.accessTime})
  · simp [lruReplacement]
  · exact fun s f g hg => htouch s f g hg
  · exact fun s f g hg => htouch s f g hg
  · intro s t g hg
    simp only [lruReplacement, LruState.selectVictim] at hg
    split at hg
    · exact hg
    · exact (AList.mem_erase.mp hg).2
  · intro s t
    simp only [lruReplacement, LruState.selectVictim]
    split
    · exact Or.inl rfl
    · next it hit =>
      exact Or.inr (List.mem_map_of_mem (f := Sigma.fst) (minElement_mem hit))

structure ClockState where
  frames : List FrameId
  refBits : List FrameId
  hand : ℕ

namespace ClockState

/-- The circular scan. Each frame that is passed over loses its reference bit, so one more
round than there are bits is enough fuel. -/
def scan : ℕ → ClockState → FrameId × ClockState
  | 0, s => (invalidFrame, s)
  | fuel + 1, s =>
    match s.frames[s.hand]? with
    | none => (invalidFrame, s)
    | some current =>
      if current ∈ s.refBits then
        scan fuel { s with
          refBits := s.refBits.erase current
          hand := (s.hand + 1) % s.frames.length }
      else
        let frames := s.frames.eraseIdx s.hand
        (current, { s with
          frames := frames
          hand := if frames.isEmpty then 0 else s.hand % frames.length })

def selectVictim (s : ClockState) : FrameId × ClockState :=
  if s.frames.isEmpty then (invalidFrame, s) else scan (s.refBits.length + 1) s

theorem scan_known (fuel : ℕ) (s : ClockState) :
    (∀ f ∈ (scan fuel s).2.frames, f ∈ s.frames) ∧
      ((scan fuel s).1 = invalidFrame ∨ (scan fuel s).1 ∈ s.frames) := by
  induction fuel generalizing s with
  | zero => exact ⟨fun f hf => hf, Or.inl rfl⟩
  | succ fuel ih =>
    simp only [scan]
    split
    · exact ⟨fun f hf => hf, Or.inl rfl⟩
    · next current hcurrent =>
      by_cases hbit : current ∈ s.refBits
      · rw [if_pos hbit]
        exact ih _
      · rw [if_neg hbit]
        exact ⟨fun f hf => List.mem_of_mem_eraseIdx hf, Or.inr (List.mem_of_getElem? hcurrent)⟩

end ClockState

def clockReplacement : ReplacementPolicy where
  State := ClockState
  init := ⟨[], [], 0⟩
  selectVictim s _ := s.selectVictim
  onAccess s frame := { s with refBits := s.refBits.insert frame }
  onLoad s frame := { s with frames := s.frames ++ [frame], refBits := s.refBits.insert frame }

theorem clockReplacement_sound : clockReplacement.Sound := by
  apply ReplacementPolicy.sound_of_known (fun s : ClockState => {f | f ∈ s.frames})
  · simp [clockReplacement]
  · intro s f g hg
    rcases List.mem_append.mp hg with h | h
    · exact Or.inr h
    · exact Or.inl (List.mem_singleton.mp h)
  · intro s f
    exact Set.subset_insert _ _
  · intro s t g hg
    simp only [clockReplacement, ClockState.selectVictim] at hg
    split_ifs at hg
    · exact hg
    · exact (ClockState.scan_known _ s).1 g hg
  · intro s t
    simp only [clockReplacement, ClockState.selectVictim]
    split_ifs
    · exact Or.inl rfl
    · exact (ClockState.scan_known _ s).2

inductive ReplacementKind where
  | fifo
  | lru
  | clock

def ReplacementKind.policy : ReplacementKind → ReplacementPolicy
  | .fifo => fifoReplacement
  | .lru => lruReplacement
  | .clock => clockReplacement

theorem ReplacementKind.sound (k : ReplacementKind) : k.policy.Sound := by
  cases k with
  | fifo => exact fifoReplacement_sound
  | lru => exact lruReplacement_sound
  | clock => exact clockReplacement_sound

end Contur
