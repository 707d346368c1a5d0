import Mathlib.Data.List.Basic
import Mathlib.Data.List.Nodup
import Mathlib.Data.List.ReduceOption
import Mathlib.Data.Nat.Notation
import Mathlib.Logic.Function.Basic

/-!
# Items on a board of queues

A board has a ready queue and a running slot for each lane and one list of
blocked items. `Represents` ties it to the abstract view, a map that gives each
item at most one place. A move changes one list of the board and one entry of the
map, so an item can be neither lost nor doubled; a board that represents a map
lists every placed item exactly once.
-/

namespace Placement
open Function (update)

inductive Place where
  | ready (lane : ℕ)
  | running (lane : ℕ)
  | blocked
  deriving DecidableEq, Repr

structure Board (α : Type*) where
  ready : List (List α)
  running : List (Option α)
  blocked : List α

variable {α : Type*} {b : Board α} {place : α → Option Place} {a c : α} {lane : ℕ}

def Board.all (b : Board α) : List α := b.ready.flatten ++ b.running.reduceOption ++ b.blocked

structure Represents (b : Board α) (place : α → Option Place) : Prop where
  ready_nodup : ∀ (lane : ℕ) (q : List α), b.ready[lane]? = some q → q.Nodup
  ready_iff : ∀ a (lane : ℕ), place a = some (.ready lane) ↔
    ∃ q, b.ready[lane]? = some q ∧ a ∈ q
  running_iff : ∀ a (lane : ℕ), place a = some (.running lane) ↔
    b.running[lane]? = some (some a)
  blocked_nodup : b.blocked.Nodup
  blocked_iff : ∀ a, place a = some .blocked ↔ a ∈ b.blocked

namespace Represents

theorem ready_of_mem (h : Represents b place) {q : List α} (hq : b.ready[lane]? = some q)
    (ha : a ∈ q) : place a = some (.ready lane) :=
  (h.ready_iff a lane).mpr ⟨q, hq, ha⟩

theorem ready_of_mem_queue (h : Represents b place) {q : List α} (hq : q ∈ b.ready) (ha : a ∈ q) :
    ∃ lane, place a = some (.ready lane) := by
  obtain ⟨lane, hlane⟩ := List.mem_iff_getElem?.mp hq
  exact ⟨lane, h.ready_of_mem hlane ha⟩

theorem not_mem_of_ne (h : Represents b place) {q : List α} (hq : b.ready[lane]? = some q)
    (ha : place a ≠ some (.ready lane)) : a ∉ q :=
  fun hmem => ha (h.ready_of_mem hq hmem)

theorem nodup_all (h : Represents b place) : b.all.Nodup := by
  have hready : b.ready.flatten.Nodup := by
    rw [List.nodup_flatten]
    constructor
    · intro q hq
      obtain ⟨lane, hlane⟩ := List.mem_iff_getElem?.mp hq
      exact h.ready_nodup lane q hlane
    · rw [List.pairwise_iff_getElem]
      intro i j hi hj hij a hai haj
      have h1 := h.ready_of_mem (List.getElem?_eq_getElem hi) hai
      have h2 := h.ready_of_mem (List.getElem?_eq_getElem hj) haj
      rw [h1] at h2
      simp only [Option.some.injEq, Place.ready.injEq] at h2
      omega
  have hrunning : b.running.reduceOption.Nodup := by
    refine List.Pairwise.filterMap id (R := fun x y => ∀ a, x = some a → y ≠ some a) ?_ ?_
    · intro x y hxy a ha a' ha' haa
      exact hxy a ha (haa ▸ ha')
    · rw [List.pairwise_iff_getElem]
      intro i j hi hj hij a hai haj
      have h1 := (h.running_iff a i).mpr (by rw [List.getElem?_eq_getElem hi, hai])
      have h2 := (h.running_iff a j).mpr (by rw [List.getElem?_eq_getElem hj, haj])
      rw [h1] at h2
      simp only [Option.some.injEq, Place.running.injEq] at h2
      omega
  have hmemR : ∀ a ∈ b.ready.flatten, ∃ lane, place a = some (.ready lane) := by
    intro a ha
    obtain ⟨q, hq, haq⟩ := List.mem_flatten.mp ha
    exact h.ready_of_mem_queue hq haq
  have hmemN : ∀ a ∈ b.running.reduceOption, ∃ lane, place a = some (.running lane) := by
    intro a ha
    obtain ⟨lane, hlane⟩ := List.mem_iff_getElem?.mp (List.reduceOption_mem_iff.mp ha)
    exact ⟨lane, (h.running_iff a lane).mpr hlane⟩
  refine (hready.append hrunning ?_).append h.blocked_nodup ?_
  · intro a ha ha'
    obtain ⟨i, hi⟩ := hmemR a ha
    obtain ⟨j, hj⟩ := hmemN a ha'
    rw [hi] at hj
    cases hj
  · intro a ha ha'
    have hblocked := (h.blocked_iff a).mpr ha'
    rcases List.mem_append.mp ha with ha | ha
    · obtain ⟨i, hi⟩ := hmemR a ha
      rw [hi] at hblocked
      cases hblocked
    · obtain ⟨i, hi⟩ := hmemN a ha
      rw [hi] at hblocked
      cases hblocked

theorem mem_all (h : Represents b place) : a ∈ b.all ↔ (place a).isSome := by
  simp only [Board.all, List.mem_append, List.mem_flatten, List.reduceOption_mem_iff]
  constructor
  · rintro ((⟨q, hq, ha⟩ | ha) | ha)
    · obtain ⟨lane, hlane⟩ := h.ready_of_mem_queue hq ha
      simp [hlane]
    · obtain ⟨lane, hlane⟩ := List.mem_iff_getElem?.mp ha
      simp [(h.running_iff a lane).mpr hlane]
    · simp [(h.blocked_iff a).mpr ha]
  · intro hsome
    obtain ⟨x, hx⟩ := Option.isSome_iff_exists.mp hsome
    cases x with
    | ready lane =>
      obtain ⟨q, hq, ha⟩ := (h.ready_iff a lane).mp hx
      exact Or.inl (Or.inl ⟨q, List.mem_of_getElem? hq, ha⟩)
    | running lane => exact Or.inl (Or.inr (List.mem_of_getElem? ((h.running_iff a lane).mp hx)))
    | blocked => exact Or.inr ((h.blocked_iff a).mp hx)

theorem count_all [DecidableEq α] (h : Represents b place) :
    b.all.count a = if (place a).isSome then 1 else 0 := by
  split_ifs with ha
  · exact List.count_eq_one_of_mem h.nodup_all (h.mem_all.mpr ha)
  · exact List.count_eq_zero_of_not_mem (mt h.mem_all.mp ha)

theorem empty (n m : ℕ) :
    Represents (⟨List.replicate n [], List.replicate m none, []⟩ : Board α) fun _ => none := by
  refine ⟨?_, ?_, ?_, List.nodup_nil, ?_⟩
  · intro lane q hq
    rw [(List.mem_replicate.mp (List.mem_of_getElem? hq)).2]
    exact List.nodup_nil
  · intro a lane
    simp only [reduceCtorEq, false_iff, not_exists, not_and]
    intro q hq
    rw [(List.mem_replicate.mp (List.mem_of_getElem? hq)).2]
    exact List.not_mem_nil
  · intro a lane
    simp only [reduceCtorEq, false_iff]
    intro hrun
    cases (List.mem_replicate.mp (List.mem_of_getElem? hrun)).2
  · simp

theorem blocked_eq_nil (h : Represents b fun _ => none) : b.blocked = [] := by
  apply List.eq_nil_iff_forall_not_mem.mpr
  intro a ha
  cases (h.blocked_iff a).mpr ha

theorem modify_tail [DecidableEq α] (h : Represents b place) {q : List α}
    (hq : b.ready[lane]? = some (a :: q)) :
    b.ready.modify lane List.tail = b.ready.modify lane (·.filter (· ≠ a)) := by
  have hnodup := List.nodup_cons.mp (h.ready_nodup lane _ hq)
  apply List.ext_getElem?
  intro i
  rw [List.getElem?_modify, List.getElem?_modify]
  by_cases hi : lane = i
  · subst i
    have hfilter : q = q.filter (· ≠ a) := by
      refine (List.filter_eq_self.mpr ?_).symm
      intro c hc
      have hne : c ≠ a := by
        rintro rfl
        exact hnodup.1 hc
      simpa using hne
    simpa [hq] using hfilter
  · simp [hi]

end Represents

section Moves
variable [DecidableEq α]

namespace Board

def pushReady (b : Board α) (lane : ℕ) (a : α) : Board α :=
  { b with ready := b.ready.modify lane (· ++ [a]) }

def dropReady (b : Board α) (lane : ℕ) (a : α) : Board α :=
  { b with ready := b.ready.modify lane (·.filter (· ≠ a)) }

def setRunning (b : Board α) (lane : ℕ) (x : Option α) : Board α :=
  { b with running := b.running.set lane x }

def pushBlocked (b : Board α) (a : α) : Board α := { b with blocked := b.blocked ++ [a] }

def dropBlocked (b : Board α) (a : α) : Board α := { b with blocked := b.blocked.filter (· ≠ a) }

def remove (b : Board α) (a : α) : Board α where
  ready := b.ready.map (·.filter (· ≠ a))
  running := b.running.map fun x => if x = some a then none else x
  blocked := b.blocked.filter (· ≠ a)

end Board

namespace Represents

theorem update_other {x : Place} {y : Option Place} (ha : place a ≠ some x) (hy : y ≠ some x) :
    update place a y c = some x ↔ place c = some x := by
  by_cases hc : c = a
  · subst c
    simp [ha, hy]
  · rw [Function.update_of_ne hc]

omit [DecidableEq α] in
theorem getElem?_modify_queue {f : List α → List α} {l : List (List α)} {i : ℕ} {q : List α} :
    (l.modify lane f)[i]? = some q ↔
      ∃ q', l[i]? = some q' ∧ q = if lane = i then f q' else q' := by
  rw [List.getElem?_modify]
  cases l[i]? with
  | none => simp
  | some q' =>
    simp only [Option.map_eq_map, Option.map_some, Option.some.injEq, exists_eq_left']
    exact eq_comm

theorem pushReady (h : Represents b place) (ha : place a = none) (hl : lane < b.ready.length) :
    Represents (b.pushReady lane a) (update place a (some (.ready lane))) := by
  refine ⟨?_, ?_, ?_, h.blocked_nodup, ?_⟩
  · intro i q hq
    obtain ⟨q', hq', rfl⟩ := getElem?_modify_queue.mp hq
    have hnot : a ∉ q' := h.not_mem_of_ne hq' (by simp [ha])
    split_ifs
    · exact (h.ready_nodup i q' hq').append (List.nodup_singleton a) (by simpa using hnot)
    · exact h.ready_nodup i q' hq'
  · intro c i
    have hqueue : (∃ q, (b.pushReady lane a).ready[i]? = some q ∧ c ∈ q) ↔
        (c = a ∧ lane = i) ∨ place c = some (.ready i) := by
      simp only [Board.pushReady, getElem?_modify_queue, h.ready_iff c i]
      constructor
      · rintro ⟨q, ⟨q', hq', rfl⟩, hc⟩
        split_ifs at hc with hi
        · rcases List.mem_append.mp hc with hc | hc
          · exact Or.inr ⟨q', hq', hc⟩
          · exact Or.inl ⟨List.mem_singleton.mp hc, hi⟩
        · exact Or.inr ⟨q', hq', hc⟩
      · rintro (⟨rfl, rfl⟩ | ⟨q', hq', hc⟩)
        · exact ⟨_, ⟨b.ready[lane], List.getElem?_eq_getElem hl, rfl⟩, by simp⟩
        · refine ⟨_, ⟨q', hq', rfl⟩, ?_⟩
          split_ifs
          · exact List.mem_append_left _ hc
          · exact hc
    rw [hqueue]
    by_cases hc : c = a
    · subst c
      simp [ha]
    · simp [hc]
  · exact fun c i => (update_other (by simp [ha]) (by simp)).trans (h.running_iff c i)
  · exact fun c => (update_other (by simp [ha]) (by simp)).trans (h.blocked_iff c)

theorem dropReady (h : Represents b place) (ha : place a = some (.ready lane)) :
    Represents (b.dropReady lane a) (update place a none) := by
  refine ⟨?_, ?_, ?_, h.blocked_nodup, ?_⟩
  · intro i q hq
    obtain ⟨q', hq', rfl⟩ := getElem?_modify_queue.mp hq
    split_ifs
    · exact (h.ready_nodup i q' hq').filter _
    · exact h.ready_nodup i q' hq'
  · intro c i
    by_cases hc : c = a
    · subst c
      simp only [Function.update_self, reduceCtorEq, false_iff, not_exists, not_and]
      intro q hq hmem
      obtain ⟨q', hq', rfl⟩ := getElem?_modify_queue.mp hq
      split_ifs at hmem with hi
      · simp at hmem
      · exact h.not_mem_of_ne hq' (by simpa [ha] using hi) hmem
    · rw [Function.update_of_ne hc, h.ready_iff]
      simp only [Board.dropReady, getElem?_modify_queue]
      constructor
      · rintro ⟨q, hq, hmem⟩
        refine ⟨_, ⟨q, hq, rfl⟩, ?_⟩
        split_ifs
        · simpa [hc] using hmem
        · exact hmem
      · rintro ⟨q, ⟨q', hq', rfl⟩, hmem⟩
        refine ⟨q', hq', ?_⟩
        split_ifs at hmem
        · exact List.mem_of_mem_filter hmem
        · exact hmem
  · exact fun c i => (update_other (by simp [ha]) (by simp)).trans (h.running_iff c i)
  · exact fun c => (update_other (by simp [ha]) (by simp)).trans (h.blocked_iff c)

theorem setRunning (h : Represents b place) (ha : place a = none)
    (hl : b.running[lane]? = some none) :
    Represents (b.setRunning lane (some a)) (update place a (some (.running lane))) := by
  have hlt : lane < b.running.length := (List.getElem?_eq_some_iff.mp hl).1
  refine ⟨h.ready_nodup, ?_, ?_, h.blocked_nodup, ?_⟩
  · exact fun c i => (update_other (by simp [ha]) (by simp)).trans (h.ready_iff c i)
  · intro c i
    by_cases hi : i = lane
    · subst i
      simp only [Board.setRunning, List.getElem?_set_self hlt, Option.some.injEq]
      by_cases hc : c = a
      · simp [hc]
      · simp only [Function.update_of_ne hc, h.running_iff, hl, Option.some.injEq, reduceCtorEq,
          false_iff]
        exact fun heq => hc heq.symm
    · simp only [Board.setRunning, List.getElem?_set_ne (Ne.symm hi), ← h.running_iff]
      exact update_other (by simp [ha]) (by simpa using Ne.symm hi)
  · exact fun c => (update_other (by simp [ha]) (by simp)).trans (h.blocked_iff c)

theorem clearRunning (h : Represents b place) (ha : place a = some (.running lane)) :
    Represents (b.setRunning lane none) (update place a none) := by
  have hlane := (h.running_iff a lane).mp ha
  have hlt : lane < b.running.length := (List.getElem?_eq_some_iff.mp hlane).1
  refine ⟨h.ready_nodup, ?_, ?_, h.blocked_nodup, ?_⟩
  · exact fun c i => (update_other (by simp [ha]) (by simp)).trans (h.ready_iff c i)
  · intro c i
    by_cases hi : i = lane
    · subst i
      simp only [Board.setRunning, List.getElem?_set_self hlt, Option.some.injEq, reduceCtorEq,
        iff_false]
      by_cases hc : c = a
      · simp [hc]
      · rw [Function.update_of_ne hc, h.running_iff, hlane]
        simpa using Ne.symm hc
    · simp only [Board.setRunning, List.getElem?_set_ne (Ne.symm hi), ← h.running_iff]
      exact update_other (by simpa [ha] using Ne.symm hi) (by simp)
  · exact fun c => (update_other (by simp [ha]) (by simp)).trans (h.blocked_iff c)

theorem pushBlocked (h : Represents b place) (ha : place a = none) :
    Represents (b.pushBlocked a) (update place a (some .blocked)) := by
  have hnot : a ∉ b.blocked := fun hmem => by
    rw [(h.blocked_iff a).mpr hmem] at ha
    cases ha
  refine ⟨h.ready_nodup, ?_, ?_, ?_, ?_⟩
  · exact fun c i => (update_other (by simp [ha]) (by simp)).trans (h.ready_iff c i)
  · exact fun c i => (update_other (by simp [ha]) (by simp)).trans (h.running_iff c i)
  · exact h.blocked_nodup.append (List.nodup_singleton a) (by simpa using hnot)
  · intro c
    by_cases hc : c = a
    · simp [Board.pushBlocked, hc]
    · simp [Board.pushBlocked, hc, h.blocked_iff]

theorem dropBlocked (h : Represents b place) (ha : place a = some .blocked) :
    Represents (b.dropBlocked a) (update place a none) := by
  refine ⟨h.ready_nodup, ?_, ?_, h.blocked_nodup.filter _, ?_⟩
  · exact fun c i => (update_other (by simp [ha]) (by simp)).trans (h.ready_iff c i)
  · exact fun c i => (update_other (by simp [ha]) (by simp)).trans (h.running_iff c i)
  · intro c
    by_cases hc : c = a
    · simp [Board.dropBlocked, hc]
    · simp [Board.dropBlocked, hc, h.blocked_iff]

theorem remove (h : Represents b place) (a : α) :
    Represents (b.remove a) (update place a none) := by
  have hqueue : ∀ (i : ℕ) q, (b.remove a).ready[i]? = some q ↔
      ∃ q', b.ready[i]? = some q' ∧ q = q'.filter (· ≠ a) := by
    intro i q
    simp only [Board.remove, List.getElem?_map, Option.map_eq_some_iff]
    exact exists_congr fun q' => and_congr_right fun _ => eq_comm
  refine ⟨?_, ?_, ?_, h.blocked_nodup.filter _, ?_⟩
  · intro i q hq
    obtain ⟨q', hq', rfl⟩ := (hqueue i q).mp hq
    exact (h.ready_nodup i q' hq').filter _
  · intro c i
    simp only [hqueue]
    by_cases hc : c = a
    · subst c
      simp only [Function.update_self, reduceCtorEq, false_iff, not_exists, not_and]
      rintro q ⟨q', -, rfl⟩ hmem
      simp at hmem
    · rw [Function.update_of_ne hc, h.ready_iff]
      constructor
      · rintro ⟨q, hq, hmem⟩
        exact ⟨_, ⟨q, hq, rfl⟩, by simpa [hc] using hmem⟩
      · rintro ⟨q, ⟨q', hq', rfl⟩, hmem⟩
        exact ⟨q', hq', List.mem_of_mem_filter hmem⟩
  · intro c i
    simp only [Board.remove, List.getElem?_map, Option.map_eq_some_iff]
    by_cases hc : c = a
    · subst c
      simp only [Function.update_self, reduceCtorEq, false_iff, not_exists, not_and]
      intro x _ hx
      split_ifs at hx with hxa
      exact hxa hx
    · rw [Function.update_of_ne hc, h.running_iff]
      constructor
      · intro hi
        exact ⟨some c, hi, by simp [hc]⟩
      · rintro ⟨x, hx, heq⟩
        split_ifs at heq
        rw [hx, heq]
  · intro c
    by_cases hc : c = a
    · simp [Board.remove, hc]
    · simp [Board.remove, hc, h.blocked_iff]

theorem readyToReady (h : Represents b place) (ha : place a = some (.ready lane)) {target : ℕ}
    (hl : target < b.ready.length) :
    Represents ((b.dropReady lane a).pushReady target a)
      (update place a (some (.ready target))) := by
  have hpush := (h.dropReady ha).pushReady (a := a) (by simp) (by simpa [Board.dropReady] using hl)
  rwa [Function.update_idem] at hpush

theorem readyToRunning (h : Represents b place) (ha : place a = some (.ready lane))
    (hl : b.running[lane]? = some none) :
    Represents ((b.dropReady lane a).setRunning lane (some a))
      (update place a (some (.running lane))) := by
  have hset := (h.dropReady ha).setRunning (a := a) (by simp) hl
  rwa [Function.update_idem] at hset

theorem runningToReady (h : Represents b place) (ha : place a = some (.running lane))
    (hl : lane < b.ready.length) :
    Represents ((b.setRunning lane none).pushReady lane a)
      (update place a (some (.ready lane))) := by
  have hpush := (h.clearRunning ha).pushReady (a := a) (by simp) hl
  rwa [Function.update_idem] at hpush

theorem runningToBlocked (h : Represents b place) (ha : place a = some (.running lane)) :
    Represents ((b.setRunning lane none).pushBlocked a) (update place a (some .blocked)) := by
  have hpush := (h.clearRunning ha).pushBlocked (a := a) (by simp)
  rwa [Function.update_idem] at hpush

theorem blockedToReady (h : Represents b place) (ha : place a = some .blocked)
    (hl : lane < b.ready.length) :
    Represents ((b.dropBlocked a).pushReady lane a) (update place a (some (.ready lane))) := by
  have hpush := (h.dropBlocked ha).pushReady (a := a) (by simp) hl
  rwa [Function.update_idem] at hpush

end Represents
end Moves
end Placement
