import Mathlib.Data.List.DropRight
import Contur.Types

/-!
# The history buffer

A queue of at most `capacity` entries with a cursor. An append at capacity drops
the oldest entry, and the cursor goes to the newest. The buffer is compared with
all entries that were ever appended: it holds the last `capacity` of them.
-/

namespace Contur

structure HistoryBuffer (α : Type*) where
  capacity : ℕ
  entries : List α := []
  cursor : ℕ := 0

namespace HistoryBuffer
variable {α : Type*} {h : HistoryBuffer α} {appended : List α} {step : ℕ}

def create (requestedCapacity : ℕ) : HistoryBuffer α :=
  { capacity := if requestedCapacity = 0 then 1 else requestedCapacity }

def append (h : HistoryBuffer α) (entry : α) : HistoryBuffer α :=
  let h' := if h.entries.length = h.capacity then
      { h with entries := h.entries.tail, cursor :=
        if h.cursor > 0 then h.cursor - 1 else h.cursor }
    else h
  let entries := h'.entries ++ [entry]
  { h' with entries, cursor := if entries.isEmpty then 0 else entries.length - 1 }

def seekBackward (h : HistoryBuffer α) (step : ℕ) : Result Unit × HistoryBuffer α :=
  if h.entries.isEmpty then (.error .notFound, h)
  else if step > h.cursor then (.error .notFound, h)
  else (.ok (), { h with cursor := h.cursor - step })

def seekForward (h : HistoryBuffer α) (step : ℕ) : Result Unit × HistoryBuffer α :=
  if h.entries.isEmpty then (.error .notFound, h)
  else
    let maxForward := (h.entries.length - 1) - h.cursor
    if step > maxForward then (.error .notFound, h)
    else (.ok (), { h with cursor := h.cursor + step })

def current (h : HistoryBuffer α) : Option α :=
  if h.entries.isEmpty then none
  else h.entries[h.cursor]? -- a cursor behind the entries would have no meaning

theorem current_eq (h : HistoryBuffer α) : h.current = h.entries[h.cursor]? := by
  unfold current
  split_ifs with hempty
  · rw [List.isEmpty_iff.mp hempty, List.getElem?_nil]
  · rfl

/-- The buffer holds the newest of the appended entries, and its cursor is on one of them. -/
structure Retains (h : HistoryBuffer α) (appended : List α) : Prop where
  capacity_pos : 0 < h.capacity
  entries : h.entries = appended.rtake h.capacity
  cursor_lt : appended ≠ [] → h.cursor < h.entries.length

theorem length_rtake (l : List α) (n : ℕ) : (l.rtake n).length = min l.length n := by
  rw [List.rtake, List.length_drop]
  omega

theorem rtake_of_rtake_succ (l : List α) (n : ℕ) :
    l.rtake n = if (l.rtake (n + 1)).length = n + 1 then (l.rtake (n + 1)).tail
      else l.rtake (n + 1) := by
  rw [length_rtake]
  simp only [List.rtake, List.tail_drop]
  split_ifs with hfull
  · congr 1
    omega
  · congr 1
    omega

theorem append_capacity (h : HistoryBuffer α) (entry : α) :
    (h.append entry).capacity = h.capacity := by
  unfold append
  dsimp only
  split_ifs <;> rfl

theorem append_entries (h : HistoryBuffer α) (entry : α) : (h.append entry).entries =
    (if h.entries.length = h.capacity then h.entries.tail else h.entries) ++ [entry] := by
  unfold append
  dsimp only
  split_ifs <;> rfl

theorem append_cursor (h : HistoryBuffer α) (entry : α) :
    (h.append entry).cursor + 1 = (h.append entry).entries.length := by
  rw [append_entries]
  unfold append
  dsimp only
  split_ifs <;> simp_all

theorem append_current (h : HistoryBuffer α) (entry : α) :
    (h.append entry).current = some entry := by
  have hcursor := append_cursor h entry
  have hlast : (h.append entry).cursor = (h.append entry).entries.length - 1 := by omega
  rw [current_eq, hlast, ← List.getLast?_eq_getElem?, append_entries, List.getLast?_concat]

theorem retains_create (requestedCapacity : ℕ) :
    (create requestedCapacity : HistoryBuffer α).Retains [] := by
  refine ⟨?_, ?_, fun hne => absurd rfl hne⟩
  · dsimp only [create]
    split_ifs with hzero
    · exact Nat.one_pos
    · exact Nat.pos_of_ne_zero hzero
  · exact (List.rtake_nil _).symm

theorem Retains.append (hr : h.Retains appended) (entry : α) :
    (h.append entry).Retains (appended ++ [entry]) := by
  obtain ⟨n, hn⟩ : ∃ n, h.capacity = n + 1 := Nat.exists_eq_add_one.mpr hr.capacity_pos
  refine ⟨?_, ?_, fun _ => ?_⟩
  · rw [append_capacity]
    exact hr.capacity_pos
  · rw [append_entries, append_capacity, hr.entries, hn, List.rtake_concat_succ,
      rtake_of_rtake_succ appended n]
  · have hcursor := append_cursor h entry
    omega

theorem seekBackward_cases (h : HistoryBuffer α) (step : ℕ) :
    h.seekBackward step = (.error .notFound, h) ∨
      (h.entries ≠ [] ∧ step ≤ h.cursor ∧
        h.seekBackward step = (.ok (), { h with cursor := h.cursor - step })) := by
  unfold seekBackward
  split_ifs with hempty hstep
  · exact Or.inl rfl
  · exact Or.inl rfl
  · exact Or.inr ⟨by simpa using hempty, by omega, rfl⟩

theorem seekForward_cases (h : HistoryBuffer α) (step : ℕ) :
    h.seekForward step = (.error .notFound, h) ∨
      (h.entries ≠ [] ∧ step ≤ (h.entries.length - 1) - h.cursor ∧
        h.seekForward step = (.ok (), { h with cursor := h.cursor + step })) := by
  unfold seekForward
  dsimp only
  split_ifs with hempty hstep
  · exact Or.inl rfl
  · exact Or.inl rfl
  · exact Or.inr ⟨by simpa using hempty, by omega, rfl⟩

theorem Retains.moveCursor (hr : h.Retains appended) {cursor : ℕ}
    (hcursor : h.cursor < h.entries.length → cursor < h.entries.length) :
    Retains { h with cursor } appended :=
  ⟨hr.capacity_pos, hr.entries, fun hne => hcursor (hr.cursor_lt hne)⟩

theorem Retains.seekBackward (hr : h.Retains appended) (step : ℕ) :
    (h.seekBackward step).2.Retains appended := by
  rcases seekBackward_cases h step with heq | ⟨-, hstep, heq⟩
  · rwa [heq]
  · rw [heq]
    apply hr.moveCursor
    omega

theorem Retains.seekForward (hr : h.Retains appended) (step : ℕ) :
    (h.seekForward step).2.Retains appended := by
  rcases seekForward_cases h step with heq | ⟨-, hstep, heq⟩
  · rwa [heq]
  · rw [heq]
    apply hr.moveCursor
    omega

theorem Retains.current (hr : h.Retains appended) (hne : appended ≠ []) :
    ∃ entry, h.current = some entry := by
  rw [current_eq]
  exact ⟨_, List.getElem?_eq_getElem (hr.cursor_lt hne)⟩

theorem Retains.seek_back_forth (hr : h.Retains appended) (hne : appended ≠ [])
    (hback : (h.seekBackward step).1 = .ok ()) :
    (h.seekBackward step).2.seekForward step = (.ok (), h) := by
  have hlt := hr.cursor_lt hne
  rcases seekBackward_cases h step with heq | ⟨hentries, hstep, heq⟩
  · rw [heq] at hback
    cases hback
  · rw [heq]
    have hroom : ¬ step > h.entries.length - 1 - (h.cursor - step) := by omega
    have hreturn : h.cursor - step + step = h.cursor := by omega
    simp [HistoryBuffer.seekForward, hentries, hroom, hreturn]

end HistoryBuffer
end Contur
