import Mathlib.Data.List.Nodup
import Mathlib.Data.Nat.Notation
import Mathlib.Logic.Function.Basic

/-!
# Exclusive ownership

Tokens are minted one after another, held in places, passed through a queue, and released in the
end. A ledger says where each token is: `holds` for the places, of which each holds at most one
token, then the tokens in the queue and those that are gone, in order.

`Exclusive` says that every token that has been minted is in exactly one of these, and once. Every
move of a token keeps this, and so no token is gone twice. Once no place and no queue has a token
left, each one is gone exactly once (`Exclusive.count_gone`).
-/

namespace Ownership

/-- Where the tokens are. -/
structure Ledger (π : Type*) where
  holds : π → Option ℕ
  queue : List ℕ
  gone : List ℕ
  minted : ℕ

/-- Every token that has been minted is in one place, in the queue or gone, and only once. -/
structure Exclusive {π : Type*} (l : Ledger π) : Prop where
  injective : ∀ p q c, l.holds p = some c → l.holds q = some c → p = q
  held : ∀ p c, l.holds p = some c → c < l.minted ∧ c ∉ l.queue ∧ c ∉ l.gone
  queued : ∀ c ∈ l.queue, c < l.minted ∧ c ∉ l.gone
  nodup_queue : l.queue.Nodup
  nodup_gone : l.gone.Nodup
  lt_of_gone : ∀ c ∈ l.gone, c < l.minted
  total : ∀ c < l.minted, (∃ p, l.holds p = some c) ∨ c ∈ l.queue ∨ c ∈ l.gone

namespace Ledger

variable {π : Type*}

/-- Before any token is minted. -/
def new : Ledger π := ⟨fun _ => none, [], [], 0⟩

/-- All tokens in the queue are released. -/
def drop (l : Ledger π) : Ledger π := { l with queue := [], gone := l.gone ++ l.queue }

variable [DecidableEq π]

/-- A token is minted in a place. -/
def mint (l : Ledger π) (p : π) : Ledger π :=
  { l with holds := Function.update l.holds p (some l.minted), minted := l.minted + 1 }

/-- What the place `q` holds moves to the place `p`. -/
def move (l : Ledger π) (p q : π) : Ledger π :=
  { l with holds := Function.update (Function.update l.holds p (l.holds q)) q none }

/-- What a place holds is released. -/
def release (l : Ledger π) (p : π) : Ledger π :=
  { l with holds := Function.update l.holds p none, gone := l.gone ++ (l.holds p).toList }

/-- What a place holds moves to the end of the queue. -/
def enqueue (l : Ledger π) (p : π) : Ledger π :=
  { l with holds := Function.update l.holds p none, queue := l.queue ++ (l.holds p).toList }

/-- What is at the front of the queue, if it is a token, moves to a place. -/
def dequeue (l : Ledger π) (p : π) (front : Option ℕ) (rest : List ℕ) : Ledger π :=
  { l with holds := Function.update l.holds p front, queue := rest }

end Ledger

namespace Exclusive

variable {π : Type*} {l : Ledger π} {p q : π}

/-- Before any token is minted. -/
theorem new : Exclusive (Ledger.new : Ledger π) where
  injective p q c hp := by simp [Ledger.new] at hp
  held p c hp := by simp [Ledger.new] at hp
  queued c hc := (List.not_mem_nil hc).elim
  nodup_queue := List.nodup_nil
  nodup_gone := List.nodup_nil
  lt_of_gone c hc := (List.not_mem_nil hc).elim
  total c hc := (Nat.not_lt_zero c hc).elim

/-- Once nothing is held and nothing is queued, every token is gone exactly once. -/
theorem count_gone (h : Exclusive l) (hheld : ∀ p, l.holds p = none) (hqueue : l.queue = [])
    {c : ℕ} (hc : c < l.minted) : l.gone.count c = 1 := by
  apply List.count_eq_one_of_mem h.nodup_gone
  rcases h.total c hc with ⟨p, hp⟩ | hq | hg
  · rw [hheld] at hp
    simp at hp
  · rw [hqueue] at hq
    exact (List.not_mem_nil hq).elim
  · exact hg

/-- The queue is released. -/
theorem drop (h : Exclusive l) : Exclusive l.drop where
  injective := h.injective
  held p c hp := by
    obtain ⟨hlt, hq, hg⟩ := h.held p c hp
    refine ⟨hlt, List.not_mem_nil, fun hmem => ?_⟩
    exact (List.mem_append.mp hmem).elim hg hq
  queued c hc := (List.not_mem_nil hc).elim
  nodup_queue := List.nodup_nil
  nodup_gone := List.nodup_append.mpr ⟨h.nodup_gone, h.nodup_queue, by
    rintro c hc _ hq rfl
    exact (h.queued c hq).2 hc⟩
  lt_of_gone c hc := (List.mem_append.mp hc).elim (h.lt_of_gone c) fun hq => (h.queued c hq).1
  total c hc := by
    rcases h.total c hc with hp | hq | hg
    · exact .inl hp
    · exact .inr (.inr (List.mem_append_right _ hq))
    · exact .inr (.inr (List.mem_append_left _ hg))

variable [DecidableEq π]

/-- A token is minted in a place that holds none. -/
theorem mint (h : Exclusive l) (hp : l.holds p = none) : Exclusive (l.mint p) where
  injective r s c hr hs := by
    simp only [Ledger.mint, Function.update_apply] at hr hs
    have hinjective := h.injective r s c
    have hr' := h.held r c
    have hs' := h.held s c
    grind
  held r c hr := by
    simp only [Ledger.mint, Function.update_apply] at hr ⊢
    have hqueue := fun hc => (h.queued l.minted hc).1
    have hgone := h.lt_of_gone l.minted
    have hheld := h.held r c
    grind
  queued c hc := ⟨Nat.lt_succ_of_lt (h.queued c hc).1, (h.queued c hc).2⟩
  nodup_queue := h.nodup_queue
  nodup_gone := h.nodup_gone
  lt_of_gone c hc := Nat.lt_succ_of_lt (h.lt_of_gone c hc)
  total c hc := by
    rcases Nat.lt_succ_iff_lt_or_eq.mp hc with hlt | rfl
    · rcases h.total c hlt with ⟨r, hr⟩ | hrest
      · refine .inl ⟨r, ?_⟩
        have hne : r ≠ p := by
          rintro rfl
          rw [hp] at hr
          simp at hr
        simpa [Ledger.mint, hne] using hr
      · exact .inr hrest
    · exact .inl ⟨p, Function.update_self _ _ _⟩

/-- What a place holds moves to another one that holds nothing. -/
theorem move (h : Exclusive l) (hp : l.holds p = none) (hpq : p ≠ q) : Exclusive (l.move p q) where
  injective r s c hr hs := by
    simp only [Ledger.move, Function.update_apply] at hr hs
    have hinjective := h.injective
    grind
  held r c hr := by
    simp only [Ledger.move, Function.update_apply] at hr ⊢
    have hheld := h.held
    grind
  queued := h.queued
  nodup_queue := h.nodup_queue
  nodup_gone := h.nodup_gone
  lt_of_gone := h.lt_of_gone
  total c hc := by
    rcases h.total c hc with ⟨r, hr⟩ | hrest
    · simp only [Ledger.move, Function.update_apply]
      by_cases hrq : r = q
      · exact .inl ⟨p, by rw [if_neg hpq, if_pos rfl, ← hrq, hr]⟩
      · have hrp : r ≠ p := by
          rintro rfl
          rw [hp] at hr
          simp at hr
        exact .inl ⟨r, by rw [if_neg hrq, if_neg hrp, hr]⟩
    · exact .inr hrest

omit [DecidableEq π] in
/-- A place that holds a token holds no other one. -/
theorem eq_of_mem_toList (h : Exclusive l) {r : π} {c : ℕ} (hr : l.holds r = some c)
    (hc : c ∈ (l.holds p).toList) : r = p :=
  h.injective r p c hr (Option.mem_toList.mp hc)

/-- What a place holds is released. -/
theorem release (h : Exclusive l) (p : π) : Exclusive (l.release p) where
  injective r s c hr hs := by
    simp only [Ledger.release, Function.update_apply] at hr hs
    have hinjective := h.injective r s c
    grind
  held r c hr := by
    simp only [Ledger.release, Function.update_apply] at hr ⊢
    have hheld := h.held r c
    have hsame := h.eq_of_mem_toList (p := p) (r := r) (c := c)
    grind
  queued c hc := by
    -- What the place held was not queued.
    obtain ⟨hlt, hg⟩ := h.queued c hc
    refine ⟨hlt, fun hmem => ?_⟩
    rcases List.mem_append.mp hmem with hmem | hmem
    · exact hg hmem
    · exact (h.held p c (Option.mem_toList.mp hmem)).2.1 hc
  nodup_queue := h.nodup_queue
  nodup_gone := by
    refine List.nodup_append.mpr ⟨h.nodup_gone, by cases l.holds p <;> simp, ?_⟩
    rintro c hc _ hp rfl
    exact (h.held p c (Option.mem_toList.mp hp)).2.2 hc
  lt_of_gone c hc := by
    rcases List.mem_append.mp hc with hc | hc
    · exact h.lt_of_gone c hc
    · exact (h.held p c (Option.mem_toList.mp hc)).1
  total c hc := by
    -- What the place held is gone now, and everything else is where it was.
    rcases h.total c hc with ⟨r, hr⟩ | hq | hg
    · rcases eq_or_ne r p with rfl | hrp
      · exact .inr (.inr (List.mem_append_right _ (Option.mem_toList.mpr hr)))
      · exact .inl ⟨r, (Function.update_of_ne hrp _ _).trans hr⟩
    · exact .inr (.inl hq)
    · exact .inr (.inr (List.mem_append_left _ hg))

/-- What a place holds moves to the end of the queue. -/
theorem enqueue (h : Exclusive l) (p : π) : Exclusive (l.enqueue p) where
  injective r s c hr hs := by
    simp only [Ledger.enqueue, Function.update_apply] at hr hs
    have hinjective := h.injective r s c
    grind
  held r c hr := by
    simp only [Ledger.enqueue, Function.update_apply] at hr ⊢
    have hheld := h.held r c
    have hsame := h.eq_of_mem_toList (p := p) (r := r) (c := c)
    grind
  queued c hc := by
    rcases List.mem_append.mp hc with hc | hc
    · exact h.queued c hc
    · obtain ⟨hlt, -, hg⟩ := h.held p c (Option.mem_toList.mp hc)
      exact ⟨hlt, hg⟩
  nodup_queue := by
    refine List.nodup_append.mpr ⟨h.nodup_queue, by cases l.holds p <;> simp, ?_⟩
    rintro c hc _ hp rfl
    exact (h.held p c (Option.mem_toList.mp hp)).2.1 hc
  nodup_gone := h.nodup_gone
  lt_of_gone := h.lt_of_gone
  total c hc := by
    rcases h.total c hc with ⟨r, hr⟩ | hq | hg
    · rcases eq_or_ne r p with rfl | hrp
      · exact .inr (.inl (List.mem_append_right _ (Option.mem_toList.mpr hr)))
      · exact .inl ⟨r, (Function.update_of_ne hrp _ _).trans hr⟩
    · exact .inr (.inl (List.mem_append_left _ hq))
    · exact .inr (.inr hg)

/-- What is at the front of the queue moves to a place that holds nothing. -/
theorem dequeue (h : Exclusive l) (hp : l.holds p = none) {front : Option ℕ} {rest : List ℕ}
    (hqueue : l.queue = front.toList ++ rest) : Exclusive (l.dequeue p front rest) where
  injective r s c hr hs := by
    simp only [Ledger.dequeue, Function.update_apply] at hr hs
    have hinjective := h.injective r s c
    have hr' := h.held r c
    have hs' := h.held s c
    grind
  held r c hr := by
    have hnodup := h.nodup_queue
    rw [hqueue] at hnodup
    have hmem : ∀ d, d ∈ l.queue ↔ d ∈ front.toList ∨ d ∈ rest := by simp [hqueue]
    have hr' : Function.update l.holds p front r = some c := hr
    -- The place holds what was in front, which is nowhere else.
    rcases eq_or_ne r p with rfl | hrp
    · rw [Function.update_self] at hr'
      obtain rfl := hr'
      obtain ⟨hlt, hg⟩ := h.queued c ((hmem c).mpr (.inl (by simp)))
      exact ⟨hlt, (List.nodup_cons.mp hnodup).1, hg⟩
    · rw [Function.update_of_ne hrp] at hr'
      obtain ⟨hlt, hq, hg⟩ := h.held r c hr'
      exact ⟨hlt, fun hrest => hq ((hmem c).mpr (.inr hrest)), hg⟩
  queued c hc := h.queued c (by rw [hqueue]; exact List.mem_append_right _ hc)
  nodup_queue := by
    have hnodup := h.nodup_queue
    rw [hqueue] at hnodup
    exact (List.nodup_append.mp hnodup).2.1
  nodup_gone := h.nodup_gone
  lt_of_gone := h.lt_of_gone
  total c hc := by
    rcases h.total c hc with ⟨r, hr⟩ | hq | hg
    · have hrp : r ≠ p := by
        rintro rfl
        rw [hp] at hr
        simp at hr
      exact .inl ⟨r, (Function.update_of_ne hrp _ _).trans hr⟩
    · rw [hqueue, List.mem_append] at hq
      rcases hq with hf | hr
      · refine .inl ⟨p, ?_⟩
        show Function.update l.holds p front p = some c
        rw [Function.update_self, Option.mem_toList.mp hf]
      · exact .inr (.inl hr)
    · exact .inr (.inr hg)

end Exclusive

end Ownership
