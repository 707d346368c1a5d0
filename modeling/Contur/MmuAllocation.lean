import Mathlib.Data.Finset.Card
import Contur.MmuPolicies

/-!
# When an allocation succeeds

`allocate` gives up as soon as the policy proposes a frame of the allocating
process. Under least recently used the frames that the process has just received
carry the newest stamps, so this happens only when it owns every frame. Under first
in, first out the frames that come next in the queue decide: an entry that is left
over from an earlier owner can name a frame that the process has just received.
-/

namespace Contur
open Function (update)
open Transition
open Extremum

namespace Mmu
variable {P : ReplacementPolicy} {N : ℕ} {s s' : Mmu P}

theorem Placing.frameOf_isSome {p : ProcessId} {page n : ℕ} (h : Placing N p page n s) {v : ℕ}
    (hv : v < page) : (s.frameOf p v).isSome := by
  by_contra hnone
  have hnone : s.view.frameOf ⟨p, v⟩ = none := Option.not_isSome_iff_eq_none.mp hnone
  have hlive : (⟨p, v⟩ : SwapKey) ∈ s.view.live := by
    change v < s.pageCount p
    rw [h.count]
    omega
  have hpend : (⟨p, v⟩ : SwapKey) ∉ pendingFrom p page n := fun hpend => by
    have hge : page ≤ v := hpend.2.1
    omega
  have hsome := (h.inv.paging.swap_iff ⟨p, v⟩).mpr ⟨hlive, hnone, hpend⟩
  rw [show s.view.swap ⟨p, v⟩ = none from h.swap v] at hsome
  cases hsome

theorem Placing.lt_of_frameOf {p : ProcessId} {page n : ℕ} (h : Placing N p page n s) {v : ℕ}
    {f : FrameId} (hf : s.frameOf p v = some f) : v < page := by
  by_contra hv
  have hlive : v < s.pageCount p := h.inv.paging.frame_live ⟨p, v⟩ f hf
  rw [h.count] at hlive
  have hnone := (h.inv.paging.pend_live ⟨p, v⟩ ⟨rfl, Nat.not_lt.mp hv, hlive⟩).2
  rw [show s.view.frameOf ⟨p, v⟩ = some f from hf] at hnone
  cases hnone

theorem Placing.card_owned {p : ProcessId} {page n : ℕ} (h : Placing N p page n s) :
    ((Finset.range N).filter fun f => s.frameOwners f = some p).card = page := by
  have himage : ((Finset.range N).filter fun f => s.frameOwners f = some p) =
      (Finset.range page).image fun v => (s.frameOf p v).getD 0 := by
    ext f
    simp only [Finset.mem_filter, Finset.mem_range, Finset.mem_image]
    constructor
    · rintro ⟨-, hf⟩
      obtain ⟨⟨q, v⟩, rfl, hv⟩ := ((h.inv.paging.owner_iff f p).mp hf).resolve_right (by simp)
      have hv : s.frameOf q v = some f := hv
      exact ⟨v, h.lt_of_frameOf hv, by simp [hv]⟩
    · rintro ⟨v, hv, rfl⟩
      obtain ⟨f, hf⟩ := Option.isSome_iff_exists.mp (h.frameOf_isSome hv)
      simp only [hf, Option.getD_some]
      exact ⟨h.inv.frame_lt hf, h.inv.paging.owner_of_frame (k := ⟨p, v⟩) hf⟩
  rw [himage, Finset.card_image_of_injOn, Finset.card_range]
  intro v hv w hw hvw
  obtain ⟨f, hf⟩ := Option.isSome_iff_exists.mp (h.frameOf_isSome (Finset.mem_range.mp hv))
  obtain ⟨g, hg⟩ := Option.isSome_iff_exists.mp (h.frameOf_isSome (Finset.mem_range.mp hw))
  simp only [hf, hg, Option.getD_some] at hvw
  subst hvw
  have hkey := h.inv.paging.frame_inj ⟨p, v⟩ ⟨p, w⟩ f hf hg
  exact congrArg SwapKey.virtualPage hkey

theorem Placing.page_le {p : ProcessId} {page n : ℕ} (h : Placing N p page n s) : page ≤ N := by
  have hle := Finset.card_filter_le (Finset.range N) fun f => s.frameOwners f = some p
  rwa [h.card_owned, Finset.card_range] at hle

theorem Placing.exists_other {p : ProcessId} {page n : ℕ} (h : Placing N p page n s)
    (hlt : page < N) : ∃ f < N, s.frameOwners f ≠ some p := by
  by_contra hall
  have hall : ∀ f ∈ Finset.range N, s.frameOwners f = some p := by
    intro f hf
    by_contra hne
    exact hall ⟨f, Finset.mem_range.mp hf, hne⟩
  have hcard := h.card_owned
  rw [Finset.filter_true_of_mem hall, Finset.card_range] at hcard
  omega

theorem Inv.mapped_of_full {pend : Set SwapKey} (h : Inv N pend none s) (hnil : s.freeFrames = [])
    {f : FrameId} (hf : f < N) : f ∈ s.mapped := by
  obtain ⟨l, hl⟩ := (h.free_or_mapped hf).resolve_left (by simp [view, hnil])
  exact mem_mapped_iff.mpr ⟨l, hl⟩

def LruStamped (M : Set FrameId) (σ : LruState) : Prop :=
  (∀ f ∈ M, f ∈ σ.accessTime) ∧ invalidFrame ∉ σ.accessTime ∧
    ∀ f a, σ.accessTime.lookup f = some a → a ≤ σ.clock

theorem LruStamped.touch {M : Set FrameId} {σ : LruState} (h : LruStamped M σ) {f : FrameId}
    (hf : f ≠ invalidFrame) : LruStamped (insert f M) (σ.touch f) := by
  obtain ⟨hmem, hinv, hclock⟩ := h
  refine ⟨?_, ?_, ?_⟩
  · rintro g (rfl | hg)
    · exact (AList.mem_insert _).mpr (Or.inl rfl)
    · exact (AList.mem_insert _).mpr (Or.inr (hmem g hg))
  · intro hmem'
    rcases (AList.mem_insert _).mp hmem' with rfl | hmem'
    · exact hf rfl
    · exact hinv hmem'
  · intro g a hg
    change a ≤ σ.clock + 1
    by_cases hgf : g = f
    · subst g
      rw [LruState.touch, AList.lookup_insert] at hg
      exact (Option.some.inj hg).ge
    · rw [LruState.touch, AList.lookup_insert_ne hgf] at hg
      exact (hclock g a hg).trans (Nat.le_succ _)

theorem LruState.selectVictim_cases (σ : LruState) :
    (σ.accessTime.entries = [] ∧ σ.selectVictim = (invalidFrame, σ)) ∨
      ∃ v a, σ.accessTime.lookup v = some a ∧
        (∀ g b, σ.accessTime.lookup g = some b → a ≤ b) ∧
        σ.selectVictim = (v, { σ with accessTime := σ.accessTime.erase v }) := by
  by_cases hnil : σ.accessTime.entries = []
  · exact Or.inl ⟨hnil, by simp [LruState.selectVictim, hnil, minElement]⟩
  · right
    obtain ⟨it, hit⟩ := exists_minElement (fun a b : (_ : FrameId) × ℕ => decide (a.2 < b.2)) hnil
    refine ⟨it.1, it.2, ?_, ?_, by simp [LruState.selectVictim, hit]⟩
    · exact AList.mem_lookup_iff.mpr (minElement_mem hit)
    · intro g b hg
      exact minElement_le (fun x : (_ : FrameId) × ℕ => x.2) hit (AList.mem_lookup_iff.mp hg)

theorem lruStamped_keeps : lruReplacement.Keeps LruStamped where
  init := ⟨by simp, AList.notMem_empty _, fun f a hf => by simp [lruReplacement] at hf⟩
  mono h hsub := ⟨fun f hf => h.1 f (hsub hf), h.2⟩
  onAccess {M σ f} h hf := by
    have hvalid : f ≠ invalidFrame := fun he => h.2.1 (he ▸ h.1 f hf)
    have htouch := h.touch hvalid
    rwa [Set.insert_eq_of_mem hf] at htouch
  onLoad h hf := h.touch hf
  selectVictim {M σ} t h := by
    change LruStamped (M \ {(LruState.selectVictim σ).1}) (LruState.selectVictim σ).2
    rcases LruState.selectVictim_cases σ with ⟨-, heq⟩ | ⟨v, a, -, -, heq⟩
    · rw [heq]
      exact ⟨fun f hf => h.1 f hf.1, h.2⟩
    · rw [heq]
      refine ⟨fun f hf => ?_, fun hmem => ?_, fun f b hf => ?_⟩
      · exact AList.mem_erase.mpr ⟨hf.2, h.1 f hf.1⟩
      · exact h.2.1 (AList.mem_erase.mp hmem).2
      · have hfv : f ≠ v := by
          rintro rfl
          simp at hf
        rw [AList.lookup_erase_ne hfv] at hf
        exact h.2.2 f b hf

def Newest (s : Mmu lruReplacement) (p : ProcessId) : Prop :=
  ∀ f g a b, s.frameOwners f = some p → s.frameOwners g ≠ some p →
    s.replacementPolicy.accessTime.lookup f = some a →
    s.replacementPolicy.accessTime.lookup g = some b → b < a

section Lru
variable {s s' : Mmu lruReplacement}

theorem Loaded.lookup {p : ProcessId} {f : FrameId} {σ : LruState} (hl : Loaded s p f σ s') :
    s'.replacementPolicy.accessTime.lookup f = some (s.replacementPolicy.clock + 1) ∧
      ∀ g ≠ f, s'.replacementPolicy.accessTime.lookup g =
        s.replacementPolicy.accessTime.lookup g := by
  have hpolicy : s'.replacementPolicy = LruState.touch σ f := hl.policy
  have hσ : σ.clock = s.replacementPolicy.clock ∧
      ∀ g ≠ f, σ.accessTime.lookup g = s.replacementPolicy.accessTime.lookup g := by
    rcases hl.source with ⟨-, rfl⟩ | ⟨-, t, ht⟩
    · exact ⟨rfl, fun _ _ => rfl⟩
    · have hvictim : LruState.selectVictim s.replacementPolicy = (f, σ) := ht
      rcases LruState.selectVictim_cases s.replacementPolicy with ⟨-, heq⟩ | ⟨v, a, -, -, heq⟩
      · obtain ⟨-, rfl⟩ := Prod.mk.inj (heq.symm.trans hvictim)
        exact ⟨rfl, fun _ _ => rfl⟩
      · obtain ⟨rfl, rfl⟩ := Prod.mk.inj (heq.symm.trans hvictim)
        exact ⟨rfl, fun g hg => AList.lookup_erase_ne hg⟩
  rw [hpolicy]
  refine ⟨?_, fun g hg => ?_⟩
  · rw [LruState.touch, AList.lookup_insert, hσ.1]
  · rw [LruState.touch, AList.lookup_insert_ne hg, hσ.2 g hg]

theorem Loaded.newest {p : ProcessId} {f : FrameId} {σ : LruState} (hl : Loaded s p f σ s')
    (hs : LruStamped s.mapped s.replacementPolicy) (hnew : Newest s p) : Newest s' p := by
  obtain ⟨hself, hrest⟩ := hl.lookup
  intro g k a b hg hk ha hb
  rw [hl.owners] at hg hk
  have hkf : k ≠ f := by
    rintro rfl
    simp at hk
  rw [Function.update_of_ne hkf] at hk
  rw [hrest k hkf] at hb
  by_cases hgf : g = f
  · subst g
    rw [hself] at ha
    have hle := hs.2.2 k b hb
    have ha := Option.some.inj ha
    omega
  · rw [Function.update_of_ne hgf] at hg
    rw [hrest g hgf] at ha
    exact hnew g k a b hg hk ha hb

/-- As long as some frame belongs to another process, the oldest stamp is not one of the
process's own. -/
theorem not_refused_of_newest {p : ProcessId} {page n : ℕ}
    (h : Placing N p page n s) (hnil : s.freeFrames = [])
    (hs : LruStamped s.mapped s.replacementPolicy) (hnew : Newest s p) (hlt : page < N)
    (t : PageTable) (σ : LruState) :
    ¬ Refused s p (lruReplacement.selectVictim s.replacementPolicy t) σ := by
  obtain ⟨g, hg, hother⟩ := h.exists_other hlt
  have hmem := hs.1 g (h.inv.mapped_of_full hnil hg)
  obtain ⟨b, hb⟩ := Option.isSome_iff_exists.mp (AList.lookup_isSome.mpr hmem)
  have hvictim : lruReplacement.selectVictim s.replacementPolicy t =
    LruState.selectVictim s.replacementPolicy := rfl
  rw [hvictim]
  rcases LruState.selectVictim_cases s.replacementPolicy with ⟨hempty, -⟩ | ⟨v, a, hv, hmin, heq⟩
  · have hentry := AList.mem_lookup_iff.mp hb
    rw [hempty] at hentry
    cases hentry
  · rw [heq]
    rintro (⟨hinv, -⟩ | ⟨-, hself, -⟩)
    · have hinv : v = invalidFrame := hinv
      exact hs.2.1 (hinv ▸ AList.lookup_isSome.mp (Option.isSome_iff_exists.mpr ⟨a, hv⟩))
    · have hab := hnew v g a b hself hother hv hb
      have hba := hmin g b hb
      omega

theorem allocatePages_lru (hN : N ≤ invalidFrame) {p : ProcessId} {page n : ℕ}
    (h : Placing N p page n s) (hs : LruStamped s.mapped s.replacementPolicy)
    (hnew : Newest s p) : (s.allocatePages p page n).1 = .ok 0 ↔ page + n ≤ N := by
  induction n generalizing s page with
  | zero => exact ⟨fun _ => h.page_le, fun _ => rfl⟩
  | succ n ih =>
    have hnext : ∀ {f σ s₂}, s.allocatePages p page (n + 1) = s₂.allocatePages p (page + 1) n →
        Placing N p (page + 1) n s₂ → Loaded s p f σ s₂ →
          ((s.allocatePages p page (n + 1)).1 = .ok 0 ↔ page + (n + 1) ≤ N) := by
      intro f σ s₂ heq hplacing hloaded
      have hs₂ := hloaded.keeps hN lruStamped_keeps h.inv hplacing.inv hs
      rw [heq, ih hplacing hs₂ (hloaded.newest hs hnew)]
      omega
    by_cases hnil : s.freeFrames = []
    · obtain ⟨t, ⟨σ, hσ, hfail, -⟩ | ⟨f, σ, s₂, -, -, -, heq, -, hplacing, hloaded⟩⟩ :=
        h.round_of_full lruReplacement_sound hN hnil
      · rw [hfail]
        constructor
        · intro he
          cases he
        · intro hle
          exact (not_refused_of_newest h hnil hs hnew (by omega) t σ hσ).elim
      · exact hnext heq hplacing hloaded
    · obtain ⟨f, s₂, heq, -, hplacing, hloaded⟩ := h.round_of_free lruReplacement_sound hN hnil
      exact hnext heq hplacing hloaded

end Lru

theorem newest_of_fresh {s : Mmu lruReplacement} {p : ProcessId}
    (h : ∀ f, s.frameOwners f ≠ some p) : Newest s p :=
  fun f _ _ _ hf => absurd hf (h f)

theorem Inv.not_owner (h : Inv N ∅ none s) {p : ProcessId} (ht : s.pageTables p = none)
    (f : FrameId) : s.frameOwners f ≠ some p := by
  intro hf
  obtain ⟨⟨q, v⟩, rfl, hv⟩ := ((h.paging.owner_iff f p).mp hf).resolve_right (by simp)
  obtain ⟨t, ht', -⟩ := exists_table_of_frameOf hv
  rw [ht] at ht'
  cases ht'

theorem allocate_result (hP : P.Sound) (hN : N ≤ invalidFrame) (h : Inv N ∅ none s) {p : ProcessId}
    {k : ℕ} (hk : k ≠ 0) (ht : s.pageTables p = none) :
    (s.allocate p k).1 = .ok 0 ∨ (s.allocate p k).1 = .error .outOfMemory := by
  obtain ⟨hplacing, -⟩ := h.opened ht k
  have hall := allocatePages_spec hP hN hplacing
  rw [← allocate_eq hk ht] at hall
  exact hall.outcome.imp And.left And.left

/-- Under least recently used an allocation fails only when it asks for more pages than there
are frames. -/
theorem allocate_lru_iff (memory : PhysicalMemory) (hN : memory.size ≤ invalidFrame)
    (order : ℕ → ℕ) (ops : List Op) (p : ProcessId) (k : ℕ) (hk : 1 ≤ k) :
    let s := (machine lruReplacement).run (init lruReplacement memory order) ops
    s.pageTables p = none →
      ((s.allocate p k).1 = .error .outOfMemory ↔ memory.size < k) ∧
      (k ≤ memory.size → (s.allocate p k).1 = .ok 0) := by
  intro s ht
  have h : Inv memory.size ∅ none s := reachable_inv lruReplacement_sound memory hN order ops
  have hs := reachable_keeps lruReplacement_sound lruStamped_keeps memory hN order ops
  obtain ⟨hplacing, hview⟩ := h.opened ht k
  have hmapped : (s.setTable p (PageTable.ofCount k)).mapped ⊆ s.mapped :=
    mapped_subset_of_view fun l f hl => by rwa [hview] at hl
  have hfresh : Newest (s.setTable p (PageTable.ofCount k)) p :=
    newest_of_fresh fun f => h.not_owner ht f
  have hloop := allocatePages_lru hN hplacing (lruStamped_keeps.mono hs hmapped) hfresh
  rw [← allocate_eq (Nat.one_le_iff_ne_zero.mp hk) ht, Nat.zero_add] at hloop
  refine ⟨?_, hloop.mpr⟩
  rcases allocate_result lruReplacement_sound hN h (Nat.one_le_iff_ne_zero.mp hk) ht with hok | herr
  · rw [hok] at hloop ⊢
    simpa using hloop
  · rw [herr] at hloop ⊢
    simpa using hloop

theorem allocate_lru_iff_evicting :
    (((machine lruReplacement).run (init lruReplacement (.ofSize 2) fun _ => 0)
      [.allocate 1 1, .allocate 2 1]).allocate 3 2).1 = .ok 0 :=
  (allocate_lru_iff (.ofSize 2) (by decide) (fun _ => 0) [.allocate 1 1, .allocate 2 1] 3 2
    (by decide) rfl).2 (by decide)

/-- One cell too many: the one page of the first allocation is given the reserved frame number
and takes it for a failure. -/
theorem allocate_lru_reserved :
    let s := init lruReplacement (.ofSize (invalidFrame + 1)) fun _ => invalidFrame
    s.pageTables 1 = none ∧ 1 ≤ s.memory.size ∧ (s.allocate 1 1).1 = .error .outOfMemory := by
  have hsize := PhysicalMemory.size_ofSize (invalidFrame + 1)
  have hfree := freeFrames_init lruReplacement (hsize.trans_le (by simp [invalidFrame]))
    fun _ => invalidFrame
  rw [hsize] at hfree
  refine ⟨rfl, ?_, allocate_reserved hfree rfl rfl rfl⟩
  exact hsize.symm ▸ Nat.le_add_left 1 invalidFrame

def FifoQueued (M : Set FrameId) (loadOrder : List FrameId) : Prop :=
  (∀ f ∈ M, f ∈ loadOrder) ∧ invalidFrame ∉ loadOrder

theorem fifoQueued_keeps : fifoReplacement.Keeps FifoQueued where
  init := ⟨by simp, List.not_mem_nil⟩
  mono h hsub := ⟨fun f hf => h.1 f (hsub hf), h.2⟩
  onAccess h _ := h
  onLoad {M loadOrder f} h hf := by
    refine ⟨?_, ?_⟩
    · rintro g (rfl | hg)
      · exact List.mem_append_right _ List.mem_cons_self
      · exact List.mem_append_left _ (h.1 g hg)
    · intro hmem
      rcases List.mem_append.mp hmem with hmem | hmem
      · exact h.2 hmem
      · exact hf (List.mem_singleton.mp hmem).symm
  selectVictim {M loadOrder} t h := by
    cases loadOrder with
    | nil => exact ⟨fun f hf => h.1 f hf.1, h.2⟩
    | cons v loadOrder =>
      refine ⟨fun f hf => ?_, fun hmem => h.2 (List.mem_cons_of_mem _ hmem)⟩
      exact (List.mem_cons.mp (h.1 f hf.1)).resolve_left hf.2

def loadOrder (s : Mmu fifoReplacement) : List FrameId := s.replacementPolicy

/-- The victims that an allocation of `n` more pages takes from the queue. -/
def nextVictims (s : Mmu fifoReplacement) (n : ℕ) : List FrameId :=
  s.loadOrder.take (n - s.freeFrames.length)

/-- The next victims are distinct frames, and none of them is free or belongs to the process. -/
def Fresh (s : Mmu fifoReplacement) (p : ProcessId) (n : ℕ) : Prop :=
  (s.nextVictims n).Nodup ∧ ∀ f ∈ s.nextVictims n, f ∉ s.freeFrames ∧ s.frameOwners f ≠ some p

section Fifo
variable {s s' : Mmu fifoReplacement}

theorem Loaded.fresh_of_free {p : ProcessId} {f : FrameId} {n : ℕ}
    (hl : Loaded s p f s.replacementPolicy s') (hf : f ∈ s.freeFrames) (hn : s.freeFrames.Nodup)
    (hlen : n + 1 - s.freeFrames.length ≤ s.loadOrder.length) :
    n - s'.freeFrames.length ≤ s'.loadOrder.length ∧ (Fresh s' p n ↔ Fresh s p (n + 1)) := by
  have horder : s'.loadOrder = s.loadOrder ++ [f] := hl.policy
  have hpos : 0 < s.freeFrames.length := List.length_pos_of_mem hf
  have hsub : n - s'.freeFrames.length = n + 1 - s.freeFrames.length := by
    rw [hl.free, List.length_erase_of_mem hf]
    omega
  have hvictims : s'.nextVictims n = s.nextVictims (n + 1) := by
    rw [nextVictims, nextVictims, hsub, horder, List.take_append_of_le_length hlen]
  refine ⟨?_, ?_⟩
  · rw [hsub, horder, List.length_append]
    omega
  · rw [Fresh, Fresh, hvictims, hl.owners, hl.free]
    refine and_congr_right fun _ => forall_congr' fun g => imp_congr_right fun _ => ?_
    rw [hn.mem_erase_iff]
    by_cases hg : g = f
    · simp [hg, hf]
    · simp [hg]

theorem Loaded.fresh_of_victim {p : ProcessId} {f : FrameId} {order : List FrameId} {n : ℕ}
    (hl : Loaded s p f order s') (hnil : s.freeFrames = []) (hf : s.frameOwners f ≠ some p)
    (horder : s.loadOrder = f :: order) (hlen : n + 1 ≤ s.loadOrder.length) :
    n ≤ s'.loadOrder.length ∧ (Fresh s' p n ↔ Fresh s p (n + 1)) := by
  have horder' : s'.loadOrder = order ++ [f] := hl.policy
  have hfree : s'.freeFrames = [] := by rw [hl.free, hnil]; rfl
  rw [horder, List.length_cons] at hlen
  have hvictims : s.nextVictims (n + 1) = f :: s'.nextVictims n := by
    rw [nextVictims, nextVictims, hnil, hfree, horder, horder',
      List.take_append_of_le_length (by simpa using hlen)]
    rfl
  refine ⟨?_, ?_⟩
  · rw [horder', List.length_append]
    omega
  · rw [Fresh, Fresh, hvictims, hl.owners, hfree, hnil, List.nodup_cons]
    simp only [List.mem_cons, List.not_mem_nil, not_false_eq_true, true_and, forall_eq_or_imp,
      hf, ne_eq, Function.update_apply]
    constructor
    · rintro ⟨hnodup, hother⟩
      refine ⟨⟨fun hmem => ?_, hnodup⟩, fun g hg => ?_⟩
      · simpa using hother f hmem
      · have hgother := hother g hg
        split_ifs at hgother with hgf
        · simp at hgother
        · exact hgother
    · rintro ⟨⟨hnotMem, hnodup⟩, hother⟩
      refine ⟨hnodup, fun g hg => ?_⟩
      have hgf : g ≠ f := fun hgf => hnotMem (hgf ▸ hg)
      rw [if_neg hgf]
      exact hother g hg

theorem allocatePages_fifo (hN : N ≤ invalidFrame) {p : ProcessId} {page n : ℕ}
    (h : Placing N p page n s) (hs : FifoQueued s.mapped s.replacementPolicy)
    (hlen : n - s.freeFrames.length ≤ s.loadOrder.length) :
    (s.allocatePages p page n).1 = .ok 0 ↔ Fresh s p n := by
  induction n generalizing s page with
  | zero => simp [allocatePages, Fresh, nextVictims]
  | succ n ih =>
    by_cases hnil : s.freeFrames = []
    · rw [hnil, List.length_nil, Nat.sub_zero] at hlen
      obtain ⟨v, order, horder⟩ := List.exists_cons_of_length_pos (Nat.zero_lt_of_lt hlen)
      have hvictim : ∀ t, fifoReplacement.selectVictim s.replacementPolicy t = (v, order) := by
        intro t
        rw [show s.replacementPolicy = v :: order from horder]
        rfl
      have hmem : v ∈ s.nextVictims (n + 1) := by simp [nextVictims, horder, hnil]
      obtain ⟨t, ⟨σ, hσ, hfail, -⟩ | ⟨f, σ, s₂, heq, -, hother, hnext, -, hplacing, hloaded⟩⟩ :=
        h.round_of_full fifoReplacement_sound hN hnil
      · rw [hfail]
        rw [hvictim] at hσ
        constructor
        · intro he
          cases he
        · intro hfresh
          rcases hσ with ⟨hinv, -⟩ | ⟨-, hself, -⟩
          · have hinv : v = invalidFrame := hinv
            have hqueued : v ∈ s.loadOrder := horder ▸ List.mem_cons_self
            exact (hs.2 (hinv ▸ hqueued)).elim
          · exact ((hfresh.2 v hmem).2 hself).elim
      · rw [hvictim] at heq
        obtain ⟨rfl, rfl⟩ := Prod.mk.inj heq
        obtain ⟨hlen₂, hfresh⟩ := hloaded.fresh_of_victim hnil hother horder hlen
        have hs₂ := hloaded.keeps hN fifoQueued_keeps h.inv hplacing.inv hs
        rw [hnext, ih hplacing hs₂ (by omega), hfresh]
    · obtain ⟨f, s₂, heq, -, hplacing, hloaded⟩ := h.round_of_free fifoReplacement_sound hN hnil
      have hf : f ∈ s.freeFrames := (hloaded.source.resolve_right fun hfull => hnil hfull.1).1
      obtain ⟨hlen₂, hfresh⟩ := hloaded.fresh_of_free hf h.inv.nodup hlen
      have hs₂ := hloaded.keeps hN fifoQueued_keeps h.inv hplacing.inv hs
      rw [heq, ih hplacing hs₂ hlen₂, hfresh]

theorem length_loadOrder (h : Inv N ∅ none s) (hs : FifoQueued s.mapped s.replacementPolicy) :
    N ≤ s.freeFrames.length + s.loadOrder.length := by
  have hsub : Finset.range N ⊆ s.freeFrames.toFinset ∪ s.loadOrder.toFinset := by
    intro f hf
    rw [Finset.mem_union, List.mem_toFinset, List.mem_toFinset]
    rcases h.free_or_mapped (Finset.mem_range.mp hf) with hfree | hmapped
    · exact Or.inl hfree
    · exact Or.inr (hs.1 f (mem_mapped_iff.mpr hmapped))
  calc N = (Finset.range N).card := (Finset.card_range N).symm
    _ ≤ (s.freeFrames.toFinset ∪ s.loadOrder.toFinset).card := Finset.card_le_card hsub
    _ ≤ s.freeFrames.toFinset.card + s.loadOrder.toFinset.card := Finset.card_union_le ..
    _ ≤ s.freeFrames.length + s.loadOrder.length :=
      Nat.add_le_add (List.toFinset_card_le _) (List.toFinset_card_le _)

end Fifo

/-- Under first in, first out an allocation that fits into the memory succeeds exactly when the
frames it would take from the head of the queue are distinct and none of them is free. -/
theorem allocate_fifo_iff (memory : PhysicalMemory) (hN : memory.size ≤ invalidFrame)
    (order : ℕ → ℕ) (ops : List Op) (p : ProcessId) (k : ℕ) (hk : 1 ≤ k) (hkN : k ≤ memory.size) :
    let s := (machine fifoReplacement).run (init fifoReplacement memory order) ops
    s.pageTables p = none →
      ((s.allocate p k).1 = .ok 0 ↔
        (s.nextVictims k).Nodup ∧ ∀ f ∈ s.nextVictims k, f ∉ s.freeFrames) := by
  intro s ht
  have h : Inv memory.size ∅ none s := reachable_inv fifoReplacement_sound memory hN order ops
  have hs := reachable_keeps fifoReplacement_sound fifoQueued_keeps memory hN order ops
  obtain ⟨hplacing, hview⟩ := h.opened ht k
  have hmapped : (s.setTable p (PageTable.ofCount k)).mapped ⊆ s.mapped :=
    mapped_subset_of_view fun l f hl => by rwa [hview] at hl
  have hlen := length_loadOrder h hs
  have hloop := allocatePages_fifo hN hplacing (fifoQueued_keeps.mono hs hmapped)
    (show k - s.freeFrames.length ≤ s.loadOrder.length by omega)
  rw [← allocate_eq (Nat.one_le_iff_ne_zero.mp hk) ht] at hloop
  refine hloop.trans (and_congr_right fun _ => forall_congr' fun f => imp_congr_right fun _ => ?_)
  exact and_iff_left (h.not_owner ht f)

theorem allocate_fifo_iff_fresh :
    (((machine fifoReplacement).run (init fifoReplacement (.ofSize 2) fun _ => 0)
      [.allocate 1 1, .allocate 2 1]).allocate 3 2).1 = .ok 0 :=
  (allocate_fifo_iff (.ofSize 2) (by decide) (fun _ => 0) [.allocate 1 1, .allocate 2 1] 3 2
    (by decide) (by decide) rfl).mpr (by decide)

/-- Two frames: the queue still holds the entry of the process that was deallocated, so the same
frame comes up twice and the second of two pages is refused. -/
theorem allocate_fifo_stale :
    let s := (machine fifoReplacement).run (init fifoReplacement (.ofSize 2) fun _ => 0)
      [.allocate 1 1, .deallocate 1, .allocate 2 1, .allocate 3 1]
    s.pageTables 4 = none ∧ 2 ≤ s.memory.size ∧ (s.allocate 4 2).1 = .error .outOfMemory := by
  decide

end Mmu
end Contur
