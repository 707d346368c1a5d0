import Contur.MmuAllocation

/-!
# The age of the evicted frame

First in, first out evicts the frame at the front of its queue. The queue is never
told that a frame was given back, so a frame that is mapped again is in it twice and
reaches the front too early. The last entries of the owned frames are in the order of
their mappings all the same, and this decides when the front is the oldest frame.
Least recently used keeps one stamp a frame, which a new mapping overwrites: the
stamps of the owned frames are always in the order of their last uses.
-/

namespace Contur
open Function (update)
open Transition
open Recency

namespace Mmu
open Event (loads touches)
variable {N : ℕ}

theorem Inv.owned_of_full {P : ReplacementPolicy} {s : Mmu P} {pend : Set SwapKey}
    (h : Inv N pend none s) (hnil : s.freeFrames = []) : s.owned = {f | f < N} := by
  ext f
  constructor
  · intro hf
    obtain ⟨p, hp⟩ := Option.isSome_iff_exists.mp hf
    exact h.paging.owner_mem f p hp
  · intro hf
    have hmapped := h.mapped_of_full hnil hf
    rwa [h.mapped_eq] at hmapped

structure FifoAged (N : ℕ) (log : List (Event fifoReplacement)) (M : Set FrameId)
    (queue : List FrameId) : Prop where
  lt : ∀ f ∈ queue, f < N
  agree : Agree queue (loads log) M

theorem FifoAged.load {log log' : List (Event fifoReplacement)} {M : Set FrameId}
    {queue : List FrameId} (h : FifoAged N log M queue) {f : FrameId} (hf : f < N)
    {M' : Set FrameId} (hagree : Agree (queue ++ [f]) (loads log') M') :
    FifoAged N log' M' (queue ++ [f]) := by
  refine ⟨fun g hg => ?_, hagree⟩
  rcases List.mem_append.mp hg with hg | hg
  · exact h.lt g hg
  · rwa [List.mem_singleton.mp hg]

theorem fifoAged_follows : Follows N (P := fifoReplacement) (FifoAged N) where
  init := ⟨fun f hf => (List.not_mem_nil hf).elim, Agree.empty [] []⟩
  mono h hM := ⟨h.lt, h.agree.mono hM⟩
  accessed h hf := by
    refine ⟨h.lt, ?_⟩
    rw [Event.loads_append, Event.loads_accessed, List.append_nil]
    exact h.agree
  loaded {log M queue f} h hf := by
    refine h.load hf ?_
    rw [Event.loads_append]
    exact h.agree.append f
  requeued h hf hM := h.load hf (h.agree.append_left hM)
  asked {log pend s} t hinv hnil h := by
    obtain ⟨hlt, hagree⟩ := h
    have hloads : loads (log ++ [.asked s t]) = loads log := by simp
    rw [victim]
    generalize hqueue : s.replacementPolicy = queue at hlt hagree ⊢
    cases queue with
    | nil => exact ⟨hlt, hloads ▸ hagree.mono Set.sdiff_subset⟩
    | cons v queue =>
      exact ⟨fun f hf => hlt f (List.mem_cons_of_mem _ hf), hloads ▸ hagree.tail⟩

def FrontOldest (N : ℕ) (queue : List FrameId) : Prop :=
  ∀ front rest, queue = front :: rest →
    ∃ older newer, queue = older ++ front :: newer ∧ front ∉ newer ∧
      ∀ f < N, f ≠ front → f ∈ newer

theorem earliest_front_iff {front : FrameId} {rest : List FrameId} (hfront : front < N) :
    Earliest (front :: rest) {f | f < N} front ↔ FrontOldest N (front :: rest) := by
  obtain ⟨older, newer, heq, hnew⟩ := exists_last (List.mem_cons_self (a := front) (l := rest))
  constructor
  · intro h front' rest' hcons
    obtain ⟨rfl, rfl⟩ := List.cons.inj hcons
    refine ⟨older, newer, heq, hnew, fun f hf hne => ?_⟩
    have hlast := h.2 f hf hne
    rwa [heq, lastBefore_iff_mem hnew] at hlast
  · intro h
    obtain ⟨x, y, hxy, hy, hall⟩ := h front rest rfl
    refine ⟨hfront, fun f hf hne => ?_⟩
    exact ⟨x, y, hxy, hy, hall f hf hne⟩

/-- The victim is the frame with the oldest mapping exactly when the last entry of the frame at
the front is older than those of all others. -/
theorem fifo_evicts_oldest_iff (memory : PhysicalMemory) (hN : memory.size ≤ invalidFrame)
    (order : ℕ → ℕ) (ops : List Op) (before : List (Event fifoReplacement))
    (s : Mmu fifoReplacement) (t : PageTable) (after : List (Event fifoReplacement))
    (hlog : (init fifoReplacement memory order).log ops = before ++ .asked s t :: after) :
    (s.owned.Nonempty → Earliest (loads before) s.owned (s.victim t)) ↔
      FrontOldest memory.size s.loadOrder := by
  obtain ⟨⟨pend, h⟩, hnil, hlt, hagree⟩ :=
    asked_follows fifoReplacement_sound fifoAged_follows rfl hN order ops hlog
  have howned := h.owned_of_full hnil
  have hmapped : s.mapped = s.owned := h.mapped_eq
  rw [hmapped, howned] at hagree
  rw [howned, ← hagree.earliest_iff, victim, loadOrder]
  generalize s.replacementPolicy = queue at hlt hagree ⊢
  cases queue with
  | nil =>
    -- an empty queue: no frame is mapped, and none is owned
    refine iff_of_true ?_ ?_
    · rintro ⟨f, hf⟩
      cases hagree.left f hf
    · intro front rest hcons
      cases hcons
  | cons front rest =>
    have hfront : front < memory.size := hlt front List.mem_cons_self
    rw [← earliest_front_iff hfront]
    exact ⟨fun himp => himp ⟨front, hfront⟩, fun hearliest _ => hearliest⟩

theorem fifo_evicts_oldest_first :
    let s := ((machine fifoReplacement).run (init fifoReplacement (.ofSize 2) fun _ => 0)
      [.allocate 1 1, .allocate 2 1]).setTable 3 (PageTable.ofCount 1)
    s.victim (PageTable.ofCount 1) = 0 ∧
      (s.owned.Nonempty →
        Earliest (loads [(.loaded 0 : Event fifoReplacement), .loaded 1]) s.owned 0) := by
  refine ⟨rfl, (fifo_evicts_oldest_iff (.ofSize 2) (by decide) (fun _ => 0)
    [.allocate 1 1, .allocate 2 1, .allocate 3 1] [.loaded 0, .loaded 1] _ (PageTable.ofCount 1)
    [.loaded 0] rfl).mpr ?_⟩
  intro front rest heq
  obtain ⟨rfl, rfl⟩ : 0 = front ∧ [1] = rest := List.cons.inj heq
  refine ⟨[], [1], rfl, by decide, fun f hf hne => ?_⟩
  have hf : f < 2 := hf
  have hone : f = 1 := by omega
  exact hone ▸ List.mem_cons_self

/-- The first process gives its frame back and a third one receives it: the frame keeps its old
place in the queue and is evicted although the page on the other frame is older. -/
theorem fifo_evicts_newer_page :
    let start := init fifoReplacement (.ofSize 2) fun _ => 0
    let ops : List Op := [.allocate 1 1, .allocate 2 1, .deallocate 1, .allocate 3 1]
    let s := ((machine fifoReplacement).run start ops).setTable 4 (PageTable.ofCount 1)
    start.log (ops ++ [.allocate 4 1]) = [.loaded 0, .loaded 1, .loaded 0] ++
        .asked s (PageTable.ofCount 1) :: [.loaded 0] ∧
      s.victim (PageTable.ofCount 1) = 0 ∧ s.owned.Nonempty ∧
      ¬ Earliest (loads [(.loaded 0 : Event fifoReplacement), .loaded 1, .loaded 0]) s.owned 0 := by
  refine ⟨rfl, rfl, ⟨0, rfl⟩, fun h => ?_⟩
  have hlast : LastBefore [0, 1, 0] 0 1 := h.2 1 rfl (by decide)
  exact not_lastBefore_append_last (l := [0, 1]) hlast

structure LruAged (N : ℕ) (log : List (Event lruReplacement)) (M : Set FrameId)
    (σ : LruState) : Prop where
  lt : ∀ f ∈ σ.accessTime, f < N
  clock : ∀ f a, σ.accessTime.lookup f = some a → a ≤ σ.clock
  stamped : Stamped σ.accessTime.lookup (touches log) M

theorem LruState.lookup_touch_self (σ : LruState) (f : FrameId) :
    (σ.touch f).accessTime.lookup f = some (σ.clock + 1) := AList.lookup_insert _

theorem LruState.lookup_touch_of_ne (σ : LruState) {f g : FrameId} (hne : g ≠ f) :
    (σ.touch f).accessTime.lookup g = σ.accessTime.lookup g := AList.lookup_insert_ne hne

theorem LruAged.touch {log log' : List (Event lruReplacement)} {M M' : Set FrameId}
    {σ : LruState} (h : LruAged N log M σ) {f : FrameId} (hf : f < N)
    (hstamped : Stamped (σ.touch f).accessTime.lookup (touches log') M') :
    LruAged N log' M' (σ.touch f) := by
  refine ⟨fun g hg => ?_, fun g a hg => ?_, hstamped⟩
  · rcases (AList.mem_insert _).mp hg with rfl | hg
    · exact hf
    · exact h.lt g hg
  · change a ≤ σ.clock + 1
    by_cases hgf : g = f
    · subst g
      rw [LruState.lookup_touch_self] at hg
      exact (Option.some.inj hg).ge
    · rw [LruState.lookup_touch_of_ne σ hgf] at hg
      exact (h.clock g a hg).trans (Nat.le_succ _)

theorem LruAged.stamped_touch {log : List (Event lruReplacement)} {M : Set FrameId}
    {σ : LruState} (h : LruAged N log M σ) (f : FrameId) :
    Stamped (σ.touch f).accessTime.lookup (touches log ++ [f]) (insert f M) := by
  refine h.stamped.append (LruState.lookup_touch_self σ f) (fun g a hg => ?_) fun g hg => ?_
  · exact Nat.lt_succ_of_le (h.clock g a hg)
  · exact LruState.lookup_touch_of_ne σ hg

theorem lruAged_follows : Follows N (P := lruReplacement) (LruAged N) where
  init := by
    refine ⟨fun f hf => (AList.notMem_empty f hf).elim, fun f a hf => ?_, Stamped.empty _ _⟩
    simp [lruReplacement] at hf
  mono h hM := ⟨h.lt, h.clock, h.stamped.mono hM⟩
  accessed {log M σ f} h hf := by
    obtain ⟨a, ha⟩ := h.stamped.has_stamp f hf
    have hlt : f < N := h.lt f (AList.lookup_isSome.mp (Option.isSome_iff_exists.mpr ⟨a, ha⟩))
    refine h.touch hlt ?_
    rw [Event.touches_append]
    exact (h.stamped_touch f).mono (Set.subset_insert f M)
  loaded {log M σ f} h hf := by
    refine h.touch hf ?_
    rw [Event.touches_append]
    exact h.stamped_touch f
  requeued {log M σ f} h hf hM := by
    refine h.touch hf (h.stamped.congr fun g hg => ?_)
    exact LruState.lookup_touch_of_ne σ fun hgf => hM (hgf ▸ hg)
  asked {log pend s} t hinv hnil h := by
    obtain ⟨hlt, hclock, hstamped⟩ := h
    change LruAged N _ (s.mapped \ {(LruState.selectVictim s.replacementPolicy).1})
      (LruState.selectVictim s.replacementPolicy).2
    have htouches : touches (log ++ [.asked s t]) = touches log := by simp
    rcases LruState.selectVictim_cases s.replacementPolicy with ⟨-, heq⟩ | ⟨v, a, -, -, heq⟩
    · rw [heq]
      exact ⟨hlt, hclock, htouches ▸ hstamped.mono Set.sdiff_subset⟩
    · rw [heq]
      have herase : ∀ f ≠ v, (s.replacementPolicy.accessTime.erase v).lookup f =
          s.replacementPolicy.accessTime.lookup f := fun f hf => AList.lookup_erase_ne hf
      refine ⟨fun f hf => hlt f (AList.mem_erase.mp hf).2, fun f b hf => ?_, ?_⟩
      · have hfv : f ≠ v := by
          rintro rfl
          simp at hf
        rw [herase f hfv] at hf
        exact hclock f b hf
      · rw [htouches]
        exact (hstamped.mono Set.sdiff_subset).congr fun f hf => herase f hf.2

/-- The victim is the one frame whose last load, read or write is the oldest. -/
theorem lru_evicts_least_recent (memory : PhysicalMemory) (hN : memory.size ≤ invalidFrame)
    (order : ℕ → ℕ) (ops : List Op) (before : List (Event lruReplacement))
    (s : Mmu lruReplacement) (t : PageTable) (after : List (Event lruReplacement))
    (hlog : (init lruReplacement memory order).log ops = before ++ .asked s t :: after)
    (hsome : s.owned.Nonempty) :
    ∀ f, Earliest (touches before) s.owned f ↔ f = s.victim t := by
  obtain ⟨⟨pend, h⟩, hnil, hlt, -, hstamped⟩ :=
    asked_follows lruReplacement_sound lruAged_follows rfl hN order ops hlog
  have hmapped : s.mapped = s.owned := h.mapped_eq
  rw [hmapped] at hstamped
  have hvictim : Earliest (touches before) s.owned (s.victim t) := by
    change Earliest _ _ (LruState.selectVictim s.replacementPolicy).1
    rcases LruState.selectVictim_cases s.replacementPolicy with ⟨hempty, -⟩ | ⟨v, a, hv, hmin, heq⟩
    · obtain ⟨f, hf⟩ := hsome
      obtain ⟨b, hb⟩ := hstamped.has_stamp f hf
      have hentry := AList.mem_lookup_iff.mp hb
      rw [hempty] at hentry
      cases hentry
    · have hvlt : v < memory.size :=
        hlt v (AList.lookup_isSome.mp (Option.isSome_iff_exists.mpr ⟨a, hv⟩))
      have hvowned : v ∈ s.owned := (h.owned_of_full hnil).symm ▸ hvlt
      rw [heq]
      exact hstamped.earliest hvowned hv hmin
  intro f
  constructor
  · exact fun hf => hf.unique hvictim
  · rintro rfl
    exact hvictim

theorem lru_evicts_least_recent_read :
    let s := ((machine lruReplacement).run (init lruReplacement (.ofSize 2) fun _ => 0)
      [.allocate 1 1, .allocate 2 1, .read 1 0]).setTable 3 (PageTable.ofCount 1)
    ∀ f, Earliest (touches [(.loaded 0 : Event lruReplacement), .loaded 1, .accessed 0]) s.owned f ↔
      f = 1 :=
  lru_evicts_least_recent (.ofSize 2) (by decide) (fun _ => 0)
    [.allocate 1 1, .allocate 2 1, .read 1 0, .allocate 3 1] [.loaded 0, .loaded 1, .accessed 0]
    _ (PageTable.ofCount 1) [.loaded 1] rfl ⟨0, rfl⟩

section Reserved
variable {P : ReplacementPolicy} {s : Mmu P} {p : ProcessId}

theorem allocate_first {f : FrameId} {rest : List FrameId} (hfree : s.freeFrames = f :: rest)
    (horder : s.order 0 = 0) (hf : f ≠ invalidFrame) (ht : s.pageTables p = none) :
    s.allocateEvents p 1 = [.loaded f] ∧ (s.allocate p 1).2 =
      { s with
        pageTables := update s.pageTables p (some ⟨[⟨f, true, false, true⟩]⟩)
        freeFrames := rest
        frameOwners := update s.frameOwners f (some p)
        order := fun n => s.order (n + 1)
        replacementPolicy := P.onLoad s.replacementPolicy f } := by
  have hobtain : (s.setTable p (PageTable.ofCount 1)).obtainFrame p (PageTable.ofCount 1) =
      (f, { s.setTable p (PageTable.ofCount 1) with
        freeFrames := rest
        frameOwners := update s.frameOwners f (some p)
        order := fun n => s.order (n + 1) }) := by
    simp [obtainFrame, allocateFrame, setTable, hfree, horder, hf]
  have hask : (s.setTable p (PageTable.ofCount 1)).askEvents p (PageTable.ofCount 1) = [] := by
    simp [askEvents, allocateFrame, setTable, hfree, horder, hf]
  have htable : (s.setTable p (PageTable.ofCount 1)).pageTables p = some (PageTable.ofCount 1) :=
    Function.update_self ..
  constructor
  · simp [allocateEvents, ht, pageEvents, htable, hobtain, hask, hf]
  · simp only [allocate, ht, one_ne_zero, allocatePages, htable, hobtain, hf, ↓reduceIte]
    simp [mapPage, onLoad, setTable, PageTable.map, PageTable.ofCount, PageTable.pageCount]

theorem deallocate_first {entry : PageTableEntry} (ht : s.pageTables p = some ⟨[entry]⟩)
    (hpres : entry.present = true) (hfree : entry.frameId ∉ s.freeFrames) :
    (s.deallocate p).2.freeFrames = entry.frameId :: s.freeFrames ∧
      (s.deallocate p).2.frameOwners = update s.frameOwners entry.frameId none ∧
      (s.deallocate p).2.pageTables = update s.pageTables p none ∧
      (s.deallocate p).2.order = s.order ∧
      (s.deallocate p).2.replacementPolicy = s.replacementPolicy := by
  simp [deallocate, ht, freeEntries, hpres, freeFrame, setTable, hfree]

theorem allocateEvents_reserved (hfree : s.freeFrames = List.range (invalidFrame + 1))
    (horder : s.order 0 = invalidFrame) (ht : s.pageTables p = none) :
    ∃ asking after, s.allocateEvents p 1 = .asked asking (PageTable.ofCount 1) :: after ∧
      asking.frameOwners = update s.frameOwners invalidFrame (some p) ∧
      asking.replacementPolicy = s.replacementPolicy := by
  have hframe := allocateFrame_reserved (s := s.setTable p (PageTable.ofCount 1)) hfree horder p
  have hask : (s.setTable p (PageTable.ofCount 1)).askEvents p (PageTable.ofCount 1) =
      [.asked ((s.setTable p (PageTable.ofCount 1)).allocateFrame p).2 (PageTable.ofCount 1)] := by
    rw [askEvents, hframe, if_pos rfl]
  have htable : (s.setTable p (PageTable.ofCount 1)).pageTables p = some (PageTable.ofCount 1) :=
    Function.update_self ..
  simp only [allocateEvents, ht, one_ne_zero, pageEvents, htable, hask, ↓reduceIte,
    List.singleton_append]
  refine ⟨_, _, rfl, ?_, ?_⟩
  · rw [hframe]
    rfl
  · rw [hframe]
    rfl

end Reserved

theorem log_unowned {s : Mmu lruReplacement} (hfree : s.freeFrames = List.range (invalidFrame + 1))
    (hfirst : s.order 0 = 0) (hsecond : s.order 1 = invalidFrame)
    (htables : ∀ p, s.pageTables p = none) (hpolicy : s.replacementPolicy = ⟨∅, 0⟩) :
    ∃ asking t after,
      s.log [.allocate 1 1, .deallocate 1, .allocate 2 1] =
        [.loaded 0] ++ .asked asking t :: after ∧
        asking.frameOwners invalidFrame = some 2 ∧ asking.victim t = 0 ∧
        asking.frameOwners 0 = none := by
  have hrange : List.range (invalidFrame + 1) = 0 :: List.range' 1 invalidFrame := by
    rw [List.range_eq_range', List.range'_succ]
  have hzero : 0 ∉ List.range' 1 invalidFrame := by
    rw [List.mem_range'_1]
    omega
  obtain ⟨hevents, hnext⟩ := allocate_first (hfree.trans hrange) hfirst
    (by decide : 0 ≠ invalidFrame) (htables 1)
  have htable : (s.allocate 1 1).2.pageTables 1 = some ⟨[⟨0, true, false, true⟩]⟩ := by
    rw [hnext]
    exact Function.update_self 1 _ s.pageTables
  obtain ⟨hfree₂, howners₂, htables₂, horder₂, hpolicy₂⟩ :=
    deallocate_first htable rfl (by rw [hnext]; exact hzero)
  rw [hnext] at hfree₂ howners₂ htables₂ horder₂ hpolicy₂
  obtain ⟨asking, after, hasked, howners₃, hpolicy₃⟩ := allocateEvents_reserved (p := 2)
    (hfree₂.trans hrange.symm) (by rw [horder₂]; exact hsecond)
    (by rw [htables₂]; simp [htables])
  refine ⟨asking, PageTable.ofCount 1, after, ?_, ?_, ?_, ?_⟩
  · have hlog : s.log [.allocate 1 1, .deallocate 1, .allocate 2 1] =
        s.allocateEvents 1 1 ++ (((s.allocate 1 1).2.deallocate 1).2).allocateEvents 2 1 := by
      simp [Mmu.log, Machine.steps, events, machine, Machine.next, exec]
    rw [hlog, hevents, hnext, hasked]
  · rw [howners₃, Function.update_self]
  · rw [victim, hpolicy₃, hpolicy₂, hpolicy]
    rfl
  · -- the stamp is older than the deallocation
    rw [howners₃, Function.update_of_ne (by decide), howners₂, Function.update_self]

/-- One cell too many: a frame was given back, the next process is handed the reserved number, and
the policy is asked although frames are free. It answers with the frame that nobody owns. -/
theorem lru_evicts_unowned :
    let start := init lruReplacement (.ofSize (invalidFrame + 1))
      fun n => if n = 0 then 0 else invalidFrame
    ∃ before s t after,
      start.log [.allocate 1 1, .deallocate 1, .allocate 2 1] = before ++ .asked s t :: after ∧
        s.owned.Nonempty ∧ ¬ Earliest (touches before) s.owned (s.victim t) := by
  intro start
  have hsize := PhysicalMemory.size_ofSize (invalidFrame + 1)
  have hfree := freeFrames_init lruReplacement (hsize.trans_le (by simp [invalidFrame]))
    fun n => if n = 0 then 0 else invalidFrame
  rw [hsize] at hfree
  obtain ⟨s, t, after, hlog, howner, hvictim, hnone⟩ := log_unowned (s := start) hfree rfl rfl
    (fun p => rfl) rfl
  refine ⟨_, s, t, after, hlog, ⟨invalidFrame, by simp [owned, howner]⟩, fun h => ?_⟩
  have howned : (s.frameOwners (s.victim t)).isSome := h.1
  rw [hvictim, hnone] at howned
  cases howned

end Mmu
end Contur
