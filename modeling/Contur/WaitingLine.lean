import Mathlib.Data.List.Induction
import Mathlib.Tactic.Common

/-!
# Waiting in line

A history of events, some of which refuse somebody and some of which serve somebody. One
waits since the first refusal after one was last served. A queue is a waiting line if it
has exactly those who wait, in the order of these refusals; its front then waits longest.
-/

namespace WaitingLine

variable {ε α : Type*} {refused served : ε → α → Prop} {events : List ε} {e : ε} {a b : α}
variable {queue : List α} {m n : ℕ}

def Settled (refused served : ε → α → Prop) (events : List ε) (a : α) : Prop :=
  ∀ before e after, events = before ++ e :: after → refused e a → ∃ e' ∈ after, served e' a

/-- Event number `n` is the first refusal of `a` since it was last served. -/
def WaitsSince (refused served : ε → α → Prop) (events : List ε) (a : α) (n : ℕ) : Prop :=
  ∃ before e after, events = before ++ e :: after ∧ before.length = n ∧ refused e a ∧
    (∀ e' ∈ after, ¬ served e' a) ∧ Settled refused served before a

theorem append_singleton_eq {before after : List ε} {e' : ε}
    (h : events ++ [e] = before ++ e' :: after) :
    (events = before ∧ e = e' ∧ after = []) ∨
      ∃ rest, after = rest ++ [e] ∧ events = before ++ e' :: rest := by
  rcases List.eq_nil_or_concat after with rfl | ⟨rest, last, rfl⟩
  · obtain ⟨hevents, hlast⟩ := List.append_inj' h rfl
    exact Or.inl ⟨hevents, (List.cons.inj hlast).1, rfl⟩
  · rw [List.concat_eq_append, ← List.cons_append, ← List.append_assoc] at h
    obtain ⟨hevents, hlast⟩ := List.append_inj' h rfl
    rw [List.concat_eq_append, (List.cons.inj hlast).1]
    exact Or.inr ⟨rest, rfl, hevents⟩

theorem settled_append : Settled refused served (events ++ [e]) a ↔
    ¬ refused e a ∧ (served e a ∨ Settled refused served events a) := by
  constructor
  · intro h
    refine ⟨fun hrefused => ?_, or_iff_not_imp_left.mpr fun hserved => ?_⟩
    · obtain ⟨_, hmem, -⟩ := h events e [] rfl hrefused
      exact absurd hmem List.not_mem_nil
    · intro before e' after heq hrefused
      obtain ⟨e'', hmem, hserved'⟩ := h before e' (after ++ [e]) (by rw [heq]; simp) hrefused
      rcases List.mem_append.mp hmem with hmem | hmem
      · exact ⟨e'', hmem, hserved'⟩
      · rw [List.mem_singleton.mp hmem] at hserved'
        exact absurd hserved' hserved
  · rintro ⟨hrefused, hold⟩ before e' after heq hrefused'
    rcases append_singleton_eq heq with ⟨-, rfl, -⟩ | ⟨rest, rfl, hevents⟩
    · exact absurd hrefused' hrefused
    · rcases hold with hserved | hsettled
      · exact ⟨e, by simp, hserved⟩
      · obtain ⟨e'', hmem, hserved⟩ := hsettled before e' rest hevents hrefused'
        exact ⟨e'', List.mem_append_left _ hmem, hserved⟩

theorem waitsSince_append : WaitsSince refused served (events ++ [e]) a n ↔
    (WaitsSince refused served events a n ∧ ¬ served e a) ∨
      (n = events.length ∧ refused e a ∧ Settled refused served events a) := by
  constructor
  · rintro ⟨before, e', after, heq, hlength, hrefused, hnone, hsettled⟩
    rcases append_singleton_eq heq with ⟨rfl, rfl, -⟩ | ⟨rest, rfl, hevents⟩
    · exact Or.inr ⟨hlength.symm, hrefused, hsettled⟩
    · refine Or.inl
        ⟨⟨before, e', rest, hevents, hlength, hrefused, ?_, hsettled⟩, hnone e (by simp)⟩
      exact fun e'' hmem => hnone e'' (List.mem_append_left _ hmem)
  · rintro (⟨⟨before, e', after, heq, hlength, hrefused, hnone, hsettled⟩, hserved⟩ |
      ⟨hn, hrefused, hsettled⟩)
    · refine ⟨before, e', after ++
        [e], by rw [heq]; simp, hlength, hrefused, fun e'' hmem => ?_, hsettled⟩
      rcases List.mem_append.mp hmem with hmem | hmem
      · exact hnone e'' hmem
      · rwa [List.mem_singleton.mp hmem]
    · exact ⟨events, e, [], rfl, hn.symm, hrefused, by simp, hsettled⟩

theorem Settled.not_waitsSince (h : Settled refused served events a) :
    ¬ WaitsSince refused served events a n := by
  rintro ⟨before, e, after, heq, -, hrefused, hnone, -⟩
  obtain ⟨e', hmem, hserved⟩ := h before e after heq hrefused
  exact hnone e' hmem hserved

theorem WaitsSince.lt (h : WaitsSince refused served events a n) : n < events.length := by
  obtain ⟨before, e, after, rfl, rfl, -⟩ := h
  simp

theorem WaitsSince.unique (hm : WaitsSince refused served events a m)
    (hn : WaitsSince refused served events a n) : m = n := by
  induction events using List.reverseRecOn with
  | nil => exact absurd hm.lt (Nat.not_lt_zero _)
  | append_singleton events e ih =>
    rcases waitsSince_append.mp hm with ⟨hm, -⟩ | ⟨hm, -, hsettled⟩
    · rcases waitsSince_append.mp hn with ⟨hn, -⟩ | ⟨-, -, hsettled⟩
      · exact ih hm hn
      · exact absurd hm hsettled.not_waitsSince
    · rcases waitsSince_append.mp hn with ⟨hn, -⟩ | ⟨hn, -, -⟩
      · exact absurd hn hsettled.not_waitsSince
      · exact hm.trans hn.symm

theorem settled_or_waitsSince (hexclusive : ∀ e a, refused e a → ¬ served e a) (events : List ε)
    (a : α) : Settled refused served events a ∨ ∃ n, WaitsSince refused served events a n := by
  induction events using List.reverseRecOn with
  | nil =>
    refine Or.inl fun before e after heq => ?_
    simp at heq
  | append_singleton events e ih =>
    by_cases hrefused : refused e a
    · refine Or.inr ?_
      rcases ih with hsettled | ⟨n, hn⟩
      · exact ⟨events.length, waitsSince_append.mpr (Or.inr ⟨rfl, hrefused, hsettled⟩)⟩
      · exact ⟨n, waitsSince_append.mpr (Or.inl ⟨hn, hexclusive e a hrefused⟩)⟩
    · by_cases hserved : served e a
      · exact Or.inl (settled_append.mpr ⟨hrefused, Or.inl hserved⟩)
      · rcases ih with hsettled | ⟨n, hn⟩
        · exact Or.inl (settled_append.mpr ⟨hrefused, Or.inr hsettled⟩)
        · exact Or.inr ⟨n, waitsSince_append.mpr (Or.inl ⟨hn, hserved⟩)⟩

theorem nodup_enqueue [DecidableEq α] (h : queue.Nodup) (a : α) :
    (if a ∈ queue then queue else queue ++ [a]).Nodup := by
  split_ifs with hmem
  · exact h
  · refine List.nodup_append.mpr ⟨h, by simp, fun b hb c hc => ?_⟩
    rintro rfl
    exact hmem (List.mem_singleton.mp hc ▸ hb)

structure InLine (refused served : ε → α → Prop) (events : List ε) (queue : List α) : Prop where
  mem : ∀ a, a ∈ queue ↔ ∃ n, WaitsSince refused served events a n
  ordered : queue.Pairwise fun a b => ∀ m n, WaitsSince refused served events a m →
    WaitsSince refused served events b n → m < n

theorem inLine_nil : InLine refused served [] [] := by
  refine ⟨fun a => ?_, .nil⟩
  simp only [List.not_mem_nil, false_iff, not_exists]
  exact fun n hn => Nat.not_lt_zero _ hn.lt

theorem InLine.nodup (h : InLine refused served events queue) : queue.Nodup := by
  refine h.ordered.imp_of_mem fun {a b} ha _ hlt heq => ?_
  subst heq
  obtain ⟨n, hn⟩ := (h.mem a).mp ha
  exact Nat.lt_irrefl _ (hlt n n hn hn)

theorem InLine.front (h : InLine refused served events (a :: queue)) :
    ∃ n, WaitsSince refused served events a n ∧
      ∀ b m, WaitsSince refused served events b m → b ≠ a → n < m := by
  obtain ⟨n, hn⟩ := (h.mem a).mp List.mem_cons_self
  refine ⟨n, hn, fun b m hm hne => ?_⟩
  have hb := (List.mem_cons.mp ((h.mem b).mpr ⟨m, hm⟩)).resolve_left hne
  exact (List.pairwise_cons.mp h.ordered).1 b hb n m hn hm

theorem InLine.pass (h : InLine refused served events queue) (hserved : ∀ a ∈ queue, ¬ served e a)
    (hrefused : ∀ a, refused e a → a ∈ queue) : InLine refused served (events ++ [e]) queue := by
  have hsame : ∀ a n, WaitsSince refused served (events ++ [e]) a n ↔
      WaitsSince refused served events a n := by
    intro a n
    rw [waitsSince_append]
    constructor
    · rintro (⟨hn, -⟩ | ⟨-, hrefuse, hsettled⟩)
      · exact hn
      · obtain ⟨m, hm⟩ := (h.mem a).mp (hrefused a hrefuse)
        exact absurd hm hsettled.not_waitsSince
    · exact fun hn => Or.inl ⟨hn, hserved a ((h.mem a).mpr ⟨n, hn⟩)⟩
  refine ⟨fun a => (h.mem a).trans (exists_congr fun n => (hsame a n).symm), ?_⟩
  exact h.ordered.imp fun hlt m n hm hn => hlt m n ((hsame _ m).mp hm) ((hsame _ n).mp hn)

theorem InLine.join (hexclusive : ∀ e a, refused e a → ¬ served e a)
    (h : InLine refused served events queue) (hserved : ∀ b ∈ queue, ¬ served e b)
    (hrefused : ∀ b, refused e b ↔ b = a) (hnew : a ∉ queue) :
    InLine refused served (events ++ [e]) (queue ++ [a]) := by
  have hold : ∀ b n, b ∈ queue → (WaitsSince refused served (events ++ [e]) b n ↔
      WaitsSince refused served events b n) := by
    intro b n hb
    rw [waitsSince_append]
    refine ⟨fun hn => hn.elim And.left fun hlast => ?_, fun hn => Or.inl ⟨hn, hserved b hb⟩⟩
    exact absurd ((hrefused b).mp hlast.2.1 ▸ hb) hnew
  have hwaits : WaitsSince refused served (events ++ [e]) a events.length := by
    refine waitsSince_append.mpr (Or.inr ⟨rfl, (hrefused a).mpr rfl, ?_⟩)
    refine (settled_or_waitsSince hexclusive events a).resolve_right fun hn => ?_
    exact hnew ((h.mem a).mpr hn)
  refine ⟨fun b => ?_, List.pairwise_append.mpr ⟨?_, List.pairwise_singleton _ _, ?_⟩⟩
  · rw [List.mem_append, List.mem_singleton]
    constructor
    · rintro (hb | rfl)
      · obtain ⟨n, hn⟩ := (h.mem b).mp hb
        exact ⟨n, (hold b n hb).mpr hn⟩
      · exact ⟨_, hwaits⟩
    · rintro ⟨n, hn⟩
      rcases waitsSince_append.mp hn with ⟨hn, -⟩ | ⟨-, hrefuse, -⟩
      · exact Or.inl ((h.mem b).mpr ⟨n, hn⟩)
      · exact Or.inr ((hrefused b).mp hrefuse)
  · refine h.ordered.imp_of_mem fun hb hc hlt m n hm hn => ?_
    exact hlt m n ((hold _ m hb).mp hm) ((hold _ n hc).mp hn)
  · intro b hb c hc m n hm hn
    rw [List.mem_singleton.mp hc] at hn
    rw [hn.unique hwaits]
    exact ((hold b m hb).mp hm).lt

theorem InLine.enqueue [DecidableEq α] (hexclusive : ∀ e a, refused e a → ¬ served e a)
    (h : InLine refused served events queue) (hserved : ∀ b ∈ queue, ¬ served e b)
    (hrefused : ∀ b, refused e b ↔ b = a) :
    InLine refused served (events ++ [e]) (if a ∈ queue then queue else queue ++ [a]) := by
  split_ifs with hmem
  · apply h.pass hserved
    intro b hb
    rwa [(hrefused b).mp hb]
  · exact h.join hexclusive hserved hrefused hmem

theorem InLine.serve (h : InLine refused served events (a :: queue))
    (hserved : ∀ b, served e b ↔ b = a)
    (hrefused : ∀ b, ¬ refused e b) : InLine refused served (events ++ [e]) queue := by
  have hsame : ∀ b n, WaitsSince refused served (events ++ [e]) b n ↔
      WaitsSince refused served events b n ∧ b ≠ a := by
    intro b n
    rw [waitsSince_append, hserved]
    exact or_iff_left fun hlast => hrefused b hlast.2.1
  obtain ⟨hnot, -⟩ := List.nodup_cons.mp h.nodup
  refine ⟨fun b => ?_, ?_⟩
  · rw [exists_congr (hsame b), exists_and_right, ← h.mem b, List.mem_cons]
    constructor
    · exact fun hb => ⟨Or.inr hb, fun heq => hnot (heq ▸ hb)⟩
    · exact fun hb => hb.1.resolve_left hb.2
  · refine (List.pairwise_cons.mp h.ordered).2.imp fun hlt m n hm hn => ?_
    exact hlt m n ((hsame _ m).mp hm).1 ((hsame _ n).mp hn).1

end WaitingLine
