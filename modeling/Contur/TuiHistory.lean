import Contur.TuiController

/-!
# The history and the shown snapshot agree

The controller numbers the captured snapshots in the order of their capture. The
history is compared with all of them, as the journal has them: it holds the last ones,
its cursor is on one of them, and the controller shows that one. Every move of a call
keeps this, so it holds in every state of a run.
-/

namespace Contur
namespace TuiController
variable {ω ν : Type*} {E : TuiEnvironment ω ν} {c : TuiController ν}
  {w : ω × TuiJournal ν} {captured : List (TuiSnapshot ν)}

/-- All captured snapshots as the controller numbers them, and the number counted up to. -/
def numberAll (captured : List (TuiSnapshot ν)) : List (TuiSnapshot ν) × UInt64 :=
  captured.foldl (fun done snapshot =>
    (done.1 ++ [(numbered done.2 snapshot).1], (numbered done.2 snapshot).2)) ([], 0)

def entryOf (snapshot : TuiSnapshot ν) : TuiHistoryEntry ν :=
  { sequence := snapshot.sequence, snapshot }

structure Tracks (c : TuiController ν) (captured : List (TuiSnapshot ν)) : Prop where
  retains : c.history.Retains ((numberAll captured).1.map entryOf)
  next : c.nextSequence = (numberAll captured).2

structure Consistent (c : TuiController ν) (captured : List (TuiSnapshot ν)) : Prop
    extends c.Tracks captured where
  nonempty : captured ≠ []
  shown : c.history.current = some (entryOf c.current)

theorem numberAll_concat (captured : List (TuiSnapshot ν)) (snapshot : TuiSnapshot ν) :
    numberAll (captured ++ [snapshot]) =
      ((numberAll captured).1 ++ [(numbered (numberAll captured).2 snapshot).1],
        (numbered (numberAll captured).2 snapshot).2) := by
  rw [numberAll, List.foldl_concat]
  rfl

theorem numbered_contents (next : UInt64) (snapshot : TuiSnapshot ν) :
    (numbered next snapshot).1.contents = snapshot.contents ∧
      (snapshot.sequence ≠ 0 → (numbered next snapshot).1 = snapshot) := by
  unfold numbered
  split_ifs with hzero
  · exact ⟨rfl, fun hne => absurd hzero hne⟩
  · exact ⟨rfl, fun _ => rfl⟩
  · exact ⟨rfl, fun _ => rfl⟩

theorem numberAll_forall₂ (captured : List (TuiSnapshot ν)) :
    List.Forall₂ (fun snapshot kept => kept.contents = snapshot.contents ∧
      (snapshot.sequence ≠ 0 → kept = snapshot)) captured (numberAll captured).1 := by
  induction captured using List.reverseRecOn with
  | nil => exact .nil
  | append_singleton captured snapshot ih =>
    rw [numberAll_concat]
    exact List.rel_append ih (.cons (numbered_contents _ snapshot) .nil)

theorem length_numberAll (captured : List (TuiSnapshot ν)) :
    (numberAll captured).1.length = captured.length :=
  (numberAll_forall₂ captured).length_eq.symm

theorem Consistent.entries_ne_nil (h : c.Consistent captured) :
    (numberAll captured).1.map entryOf ≠ [] := by
  have hlength := length_numberAll captured
  have hpos := List.length_pos_of_ne_nil h.nonempty
  apply List.ne_nil_of_length_pos
  rw [List.length_map]
  omega

theorem Tracks.record (h : c.Tracks captured) (snapshot : TuiSnapshot ν) :
    (c.record snapshot).2.Consistent (captured ++ [snapshot]) := by
  rw [record_eq]
  refine ⟨⟨?_, ?_⟩, by simp, HistoryBuffer.append_current _ _⟩
  · rw [numberAll_concat, List.map_append, ← h.next]
    exact h.retains.append _
  · rw [numberAll_concat, ← h.next]

theorem Consistent.sync {history : HistoryBuffer (TuiHistoryEntry ν)} (h : c.Consistent captured)
    (hretains : history.Retains ((numberAll captured).1.map entryOf)) :
    ∃ current, history.current = some (entryOf current) ∧
      { c with history }.syncCurrentFromCursor = (.ok (), { c with history, current }) := by
  obtain ⟨entry, hentry⟩ := hretains.current h.entries_ne_nil
  have hmem : entry ∈ history.entries := by
    rw [HistoryBuffer.current_eq] at hentry
    exact List.mem_of_getElem? hentry
  rw [hretains.entries] at hmem
  obtain ⟨snapshot, -, rfl⟩ := List.mem_map.mp (List.mem_of_mem_drop hmem)
  refine ⟨snapshot, hentry, ?_⟩
  simp only [syncCurrentFromCursor, hentry]
  rfl

theorem Consistent.sync_ok {history : HistoryBuffer (TuiHistoryEntry ν)}
    (h : c.Consistent captured)
    (hretains : history.Retains ((numberAll captured).1.map entryOf)) :
    { c with history }.syncCurrentFromCursor.1 = .ok () := by
  obtain ⟨current, -, heq⟩ := h.sync hretains
  rw [heq]

theorem Consistent.synced {history : HistoryBuffer (TuiHistoryEntry ν)}
    (h : c.Consistent captured)
    (hretains : history.Retains ((numberAll captured).1.map entryOf)) :
    ({ c with history }.syncCurrentFromCursor).2.Consistent captured := by
  obtain ⟨current, hcurrent, heq⟩ := h.sync hretains
  rw [heq]
  exact ⟨⟨hretains, h.next⟩, h.nonempty, hcurrent⟩

theorem Consistent.move (s s' : TuiController ν × ω × TuiJournal ν) (hmove : Move E.observed s s')
    (h : s.1.Consistent s.2.2.captured) : s'.1.Consistent s'.2.2.captured := by
  cases hmove with
  | settings hhistory hcurrent hnext =>
    refine ⟨⟨?_, hnext.trans h.next⟩, h.nonempty, ?_⟩
    · rw [hhistory]
      exact h.retains
    · rw [hhistory, hcurrent]
      exact h.shown
  | tick c w step =>
    have hjournal : (E.observed.tick w step).2.2.captured = w.2.captured := by
      dsimp only [TuiEnvironment.observed]
      cases (E.tick w.1 step).1 <;> rfl
    rw [hjournal]
    exact h
  | capture c w =>
    cases hcapture : (E.captureSnapshot w.1).1 with
    | ok snapshot =>
      rw [captureSnapshot_observed_of_ok hcapture]
      exact h.toTracks.record snapshot
    | error code =>
      rw [captureSnapshot_observed_of_error hcapture]
      exact h
  | seekBackward c w step => exact h.synced (h.retains.seekBackward step)
  | seekForward c w step => exact h.synced (h.retains.seekForward step)

theorem consistent_create [Inhabited ν] {first : TuiSnapshot ν} {v : ω} (capacity : ℕ)
    (hfirst : (E.captureSnapshot v).1 = .ok first) :
    let s := create E.observed (v, {}) capacity
    s.1.Consistent s.2.2.captured := by
  have hstart : Tracks { history := .create capacity, current := (default : TuiSnapshot ν) } [] :=
    ⟨HistoryBuffer.retains_create capacity, rfl⟩
  rw [create, captureSnapshot_observed_of_ok hfirst]
  exact hstart.record first

section
variable {E : TuiEnvironment ω ν} {v : ω} {code : ErrorCode}

theorem captureSnapshot_ok_or_unchanged (c : TuiController ν) (v : ω) :
    (c.captureSnapshot E v).1 = .ok () ∨ (c.captureSnapshot E v).2.1 = c := by
  cases hcapture : (E.captureSnapshot v).1 with
  | ok snapshot =>
    rw [captureSnapshot_of_ok hcapture]
    exact Or.inl rfl
  | error code =>
    rw [captureSnapshot_of_error hcapture]
    exact Or.inr rfl

theorem Consistent.dispatch_ok_or_unchanged (h : c.Consistent captured) (v : ω)
    (command : TuiCommand) :
    (c.dispatch E v command).1 = .ok () ∨ (c.dispatch E v command).2.1 = c := by
  unfold dispatch
  cases validateCommand command with
  | error code => exact Or.inr rfl
  | ok _ =>
    dsimp only
    cases command.kind with
    | tick =>
      dsimp only
      rcases E.tick v command.step with ⟨_ | code, v'⟩
      · exact captureSnapshot_ok_or_unchanged c v'
      · dsimp only
        split_ifs
        · exact Or.inr rfl
        · exact captureSnapshot_ok_or_unchanged c v'
    | autoPlayStart =>
      dsimp only
      cases validatePlaybackConfig (playbackConfigFromCommand command) with
      | error code => exact Or.inr rfl
      | ok _ => exact Or.inl rfl
    | autoPlayStop => exact Or.inl rfl
    | pause => exact Or.inl rfl
    | seekBackward =>
      dsimp only
      have hretains := h.retains.seekBackward command.step
      rcases c.history.seekBackward_cases command.step with heq | ⟨-, -, heq⟩
      · rw [heq]
        exact Or.inr rfl
      · rw [heq] at hretains ⊢
        exact Or.inl (h.sync_ok hretains)
    | seekForward =>
      dsimp only
      have hretains := h.retains.seekForward command.step
      rcases c.history.seekForward_cases command.step with heq | ⟨-, -, heq⟩
      · rw [heq]
        exact Or.inr rfl
      · rw [heq] at hretains ⊢
        exact Or.inl (h.sync_ok hretains)

theorem Consistent.dispatch_error_unchanged (h : c.Consistent captured) {command : TuiCommand}
    (herror : (c.dispatch E v command).1 = .error code) : (c.dispatch E v command).2.1 = c := by
  rcases h.dispatch_ok_or_unchanged v command with hok | hsame
  · rw [hok] at herror
    cases herror
  · exact hsame

theorem dispatch_seekBackward_ok {command : TuiCommand} (hkind : command.kind = .seekBackward)
    (hok : (c.dispatch E v command).1 = .ok ()) :
    command.step ≠ 0 ∧ ∃ history, c.history.seekBackward command.step = (.ok (), history) ∧
      (c.dispatch E v command).2 = ({ c with history }.syncCurrentFromCursor.2, v) := by
  by_cases hstep : command.step = 0
  · have hvalid : validateCommand command = .error .invalidArgument := by
      simp [validateCommand, hkind, commandRequiresStep, hstep]
    simp [dispatch, hvalid] at hok
  · have hvalid : validateCommand command = .ok () := by
      simp [validateCommand, hkind, commandRequiresInterval, hstep]
    rcases c.history.seekBackward_cases command.step with heq | ⟨-, -, heq⟩
    · simp [dispatch, hvalid, hkind, heq] at hok
    · exact ⟨hstep, _, heq, by simp only [dispatch, hvalid, hkind, heq]⟩

theorem dispatch_seekForward {command : TuiCommand} (hkind : command.kind = .seekForward)
    (hstep : command.step ≠ 0) {history : HistoryBuffer (TuiHistoryEntry ν)}
    (hseek : c.history.seekForward command.step = (.ok (), history)) :
    c.dispatch E v command = ({ c with history }.syncCurrentFromCursor.1,
      { c with history }.syncCurrentFromCursor.2, v) := by
  have hvalid : validateCommand command = .ok () := by
    simp [validateCommand, hkind, commandRequiresInterval, hstep]
  simp only [dispatch, hvalid, hkind, hseek]

theorem Consistent.seek_back_forth (h : c.Consistent captured) {back forth : TuiCommand}
    (hback : back.kind = .seekBackward) (hforth : forth.kind = .seekForward)
    (hstep : forth.step = back.step) (hok : (c.dispatch E v back).1 = .ok ()) :
    (c.dispatch E v back).2.1.dispatch E (c.dispatch E v back).2.2 forth = (.ok (), c, v) := by
  obtain ⟨hpos, history, hseek, hdispatch⟩ := dispatch_seekBackward_ok hback hok
  have hretains := h.retains.seekBackward back.step
  have hreturn := h.retains.seek_back_forth h.entries_ne_nil (congrArg Prod.fst hseek)
  rw [hseek] at hretains hreturn
  rw [← hstep] at hpos hreturn
  obtain ⟨current, -, hsync⟩ := h.sync hretains
  rw [hdispatch, hsync]
  apply (dispatch_seekForward hforth hpos hreturn).trans
  simp only [syncCurrentFromCursor, h.shown, entryOf]

end

theorem history_sync (c : TuiController ν) : c.syncCurrentFromCursor.2.history = c.history := by
  unfold syncCurrentFromCursor
  split <;> rfl

theorem capacity_move (E : TuiEnvironment ω ν) (s s' : TuiController ν × ω) (hmove : Move E s s') :
    s'.1.history.capacity = s.1.history.capacity := by
  cases hmove with
  | settings hhistory _ _ => rw [hhistory]
  | tick c v step => rfl
  | capture c v =>
    cases hcapture : (E.captureSnapshot v).1 with
    | ok snapshot =>
      rw [captureSnapshot_of_ok hcapture, record_eq]
      exact HistoryBuffer.append_capacity _ _
    | error code => rw [captureSnapshot_of_error hcapture]
  | seekBackward c v step =>
    rw [history_sync]
    rcases c.history.seekBackward_cases step with heq | ⟨-, -, heq⟩ <;> rw [heq]
  | seekForward c v step =>
    rw [history_sync]
    rcases c.history.seekForward_cases step with heq | ⟨-, -, heq⟩ <;> rw [heq]

theorem capacity_create [Inhabited ν] (E : TuiEnvironment ω ν) (v : ω) (capacity : ℕ) :
    (create E v capacity).1.history.capacity = if capacity = 0 then 1 else capacity :=
  capacity_move E _ _ (.capture _ v)

theorem Tracks.entries (h : c.Tracks captured) : c.history.entries.map (·.snapshot) =
    (numberAll captured).1.rtake c.history.capacity := by
  rw [h.retains.entries, List.rtake, List.rtake, ← List.map_drop, List.map_map, List.length_map]
  exact List.map_id _

/-- In every state of every run the history holds the last captured snapshots, in the order of their
capture, the cursor is on one of them, and that is the one shown; a refused command changes nothing
of this, and a seek back and forth returns to it. -/
theorem history_consistent [Inhabited ν] (E : TuiEnvironment ω ν) (v : ω) (capacity : ℕ)
    (first : TuiSnapshot ν) (hfirst : (E.captureSnapshot v).1 = .ok first)
    (inputs : List TuiInput) :
    let s := (machine E.observed).run (create E.observed (v, {}) capacity) inputs
    let c := s.1
    let captured := s.2.2.captured
    c.history.capacity = (if capacity = 0 then 1 else capacity) ∧
    (c.history.entries.map (·.snapshot) = (numberAll captured).1.rtake c.history.capacity ∧
      c.history.entries.length = min captured.length c.history.capacity ∧
      List.Forall₂ (fun snapshot kept => kept.contents = snapshot.contents ∧
        (snapshot.sequence ≠ 0 → kept = snapshot)) captured (numberAll captured).1) ∧
    c.history.cursor < c.history.entries.length ∧
    c.history.entries[c.history.cursor]?.map (·.snapshot) = some c.current ∧
    (∀ command code, (c.dispatch E.observed s.2 command).1 = .error code →
      (c.dispatch E.observed s.2 command).2.1 = c) ∧
    ∀ back forth : TuiCommand, back.kind = .seekBackward → forth.kind = .seekForward →
      forth.step = back.step → (c.dispatch E.observed s.2 back).1 = .ok () →
      let s' := (c.dispatch E.observed s.2 back).2
      s'.1.dispatch E.observed s'.2 forth = (.ok (), c, s.2) := by
  intro s c captured
  have hc : c.Consistent captured :=
    run_of_move (P := fun s : TuiController ν × ω × TuiJournal ν => s.1.Consistent s.2.2.captured)
      Consistent.move (consistent_create capacity hfirst) inputs
  have hcapacity : c.history.capacity = if capacity = 0 then 1 else capacity :=
    run_of_move (fun s s' hmove hs => (capacity_move E.observed s s' hmove).trans hs)
      (capacity_create E.observed (v, {}) capacity) inputs
  have hlength : c.history.entries.length = min captured.length c.history.capacity := by
    rw [hc.retains.entries, HistoryBuffer.length_rtake, List.length_map, length_numberAll]
  have hshown : c.history.entries[c.history.cursor]? = some (entryOf c.current) := by
    rw [← HistoryBuffer.current_eq]
    exact hc.shown
  refine ⟨hcapacity, ⟨hc.entries, hlength, numberAll_forall₂ captured⟩,
    hc.retains.cursor_lt hc.entries_ne_nil, ?_, ?_, ?_⟩
  · rw [hshown]
    rfl
  · intro command code herror
    exact hc.dispatch_error_unchanged herror
  · intro back forth hback hforth hstep hok
    exact hc.seek_back_forth hback hforth hstep hok

theorem history_consistent_two :
    let s := (machine tickCounter.observed).run (create tickCounter.observed (0, {}) 2)
      [.dispatch {}, .dispatch {}, .dispatch { kind := .seekBackward }]
    s.1.current = { sequence := 2, contents := 1 } ∧
      s.1.history.entries.map (·.snapshot) =
        (numberAll s.2.2.captured).1.rtake s.1.history.capacity :=
  ⟨rfl, (history_consistent tickCounter 0 2 { sequence := 0, contents := 0 } rfl _).2.1.1⟩

end TuiController
end Contur
