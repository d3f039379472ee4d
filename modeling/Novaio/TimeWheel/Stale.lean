import Novaio.TimeWheel.Wound

/-!
# Cancelling a timer that is not pending

`tick` clears the `head_ptr` of a node that it fires and leaves its links as they are. They still
name the nodes that were its neighbours in the slot, which may have been armed again since, in other
slots. `remove_timer` tests the `head_ptr` for the count only, and writes to both of them.

`Clean` says that these writes change no link of a linked node. Then the cancel is harmless, and
only then (`Rep.harmless_iff`).
-/

namespace Novaio

open Linked

namespace TimeWheel

variable {ν η : Type*} [DecidableEq ν] {w : TimeWheel ν η} {lists : Slot → List ν}
  {pending : List ν} {n : ν}

/-- What the links of the node lead to is not linked, or is already linked as if the node were not
there. -/
structure Clean (w : TimeWheel ν η) (n : ν) : Prop where
  prev : ∀ p, (w.nodes n).prev = some p → w.IsLinked p → (w.nodes p).next = (w.nodes n).next
  next : ∀ q, (w.nodes n).next = some q → w.IsLinked q → (w.nodes q).prev = (w.nodes n).prev

/-- Every slot's list, walked from its head, holds the same nodes after a call as before, is linked
both ways and knows its slot, and the count is the same. -/
structure Harmless (w w' : TimeWheel ν η) : Prop where
  lists : ∀ s l, Chain (fun n => (w.nodes n).next) (w.heads s) l →
    ∃ l', Chain (fun n => (w'.nodes n).next) (w'.heads s) l' ∧ (∀ n, n ∈ l' ↔ n ∈ l) ∧
      Back (fun n => (w'.nodes n).prev) none l' ∧ ∀ n ∈ l', (w'.nodes n).headPtr = some s
  activeTimers : w'.activeTimers = w.activeTimers

/-- The links of another node after a cancel. -/
theorem removeTimer_links {m : ν} (hm : m ≠ n) :
    ((w.removeTimer n).nodes m).next =
        (if (w.nodes n).prev = some m then (w.nodes n).next else (w.nodes m).next) ∧
      ((w.removeTimer n).nodes m).prev =
        (if (w.nodes n).next = some m then (w.nodes n).prev else (w.nodes m).prev) ∧
      ((w.removeTimer n).nodes m).headPtr = (w.nodes m).headPtr := by
  rw [removeTimer_nodes, if_neg hm]
  exact ⟨rfl, rfl, rfl⟩

/-- A clean cancel of a node that is not linked leaves the lists as they are. -/
theorem Rep.removeTimer_clean (h : Rep w lists []) (hn : ¬ InLists lists n) (hclean : w.Clean n) :
    Rep (w.removeTimer n) lists [] := by
  have hne : ∀ {s m}, m ∈ lists s → m ≠ n := by
    rintro s m hm rfl
    exact hn ⟨s, hm⟩
  obtain ⟨hheads, -⟩ := removeTimer_free w (h.free n List.not_mem_nil hn)
  refine ⟨fun s => ?_, fun s => ?_, fun s m hm => ?_, h.detached, fun m hm hml => ?_⟩
  · rw [hheads]
    apply (h.chain s).congr
    intro m hm
    obtain ⟨hnext, -⟩ := removeTimer_links (w := w) (hne hm)
    rw [hnext]
    split_ifs with hp
    · exact hclean.prev m hp (h.isLinked_iff.mpr ⟨s, hm⟩)
    · rfl
  · apply (h.back s).congr
    intro m hm
    obtain ⟨-, hprev, -⟩ := removeTimer_links (w := w) (hne hm)
    rw [hprev]
    split_ifs with hq
    · exact hclean.next m hq (h.isLinked_iff.mpr ⟨s, hm⟩)
    · rfl
  · rw [(removeTimer_links (hne hm)).2.2]
    exact h.headPtr s m hm
  · rcases eq_or_ne m n with rfl | hmn
    · rw [removeTimer_nodes, if_pos rfl]
    · rw [(removeTimer_links hmn).2.2]
      exact h.free m hm hml

/-- A clean cancel of a node that is not linked leaves the wheel in use, with the same timers. -/
theorem Wound.removeTimer_clean (h : Wound w lists pending) (hn : n ∉ pending)
    (hclean : w.Clean n) : Wound (w.removeTimer n) lists pending := by
  have hframe := removeTimer_frame w n
  refine ⟨h.rep.removeTimer_clean (fun hl => hn ((h.mem_iff n).mpr hl)) hclean, ?_, h.nodup,
    h.mem_iff⟩
  intro s m hm
  rw [dueAt, hframe.currentTick, hframe.expiresAt]
  exact h.placed s m hm

/-- A cancel that leaves the nodes of every list leaves the link of a linked node. -/
theorem Rep.next_eq_of_harmless (h : Rep w lists []) (hn : ¬ InLists lists n)
    (hharmless : Harmless w (w.removeTimer n)) {s : Slot} {p : ν} (hp : p ∈ lists s)
    (hprev : (w.nodes n).prev = some p) : (w.nodes p).next = (w.nodes n).next := by
  have hne : ∀ m ∈ lists s, m ≠ n := by
    rintro m hm rfl
    exact hn ⟨s, hm⟩
  obtain ⟨hheads, -⟩ := removeTimer_free w (h.free n List.not_mem_nil hn)
  obtain ⟨l, hchain, hsame, hback, -⟩ := hharmless.lists s _ (h.chain s)
  rw [hheads] at hchain
  have hnext : ((w.removeTimer n).nodes p).next = (w.nodes n).next := by
    rw [(removeTimer_links (hne p hp)).1, if_pos hprev]
  have hother : ∀ m ∈ lists s, m ≠ p →
      ((w.removeTimer n).nodes m).next = (w.nodes m).next := by
    intro m hm hmp
    rw [(removeTimer_links (hne m hm)).1, if_neg]
    rw [hprev]
    exact fun heq => hmp (Option.some.inj heq).symm
  -- A node that one of the walks links `p` to is linked by the other, too, and only by `p`.
  cases hx : (w.nodes p).next with
  | some x =>
    have hxs := (h.chain s).mem_of_next hp hx
    have hback_x := ((h.chain s).next_eq_iff (h.back s) hp hxs).mp hx
    rcases hchain.exists_prev ((hsame x).mpr hxs) with hhead | ⟨y, hy, hyx⟩
    · rw [(h.back s).prev_head ((h.chain s).head.symm.trans hhead)] at hback_x
      simp at hback_x
    · rw [hsame] at hy
      rcases eq_or_ne y p with rfl | hyp
      · rw [← hnext, hyx]
      · rw [hother y hy hyp] at hyx
        have hback_y := ((h.chain s).next_eq_iff (h.back s) hy hxs).mp hyx
        rw [hback_x] at hback_y
        exact (hyp (Option.some.inj hback_y).symm).elim
  | none =>
    cases hq : (w.nodes n).next with
    | none => rfl
    | some q =>
      rw [hq] at hnext
      have hps := (hsame p).mpr hp
      have hqs := hchain.mem_of_next hps hnext
      have hback_q := (hchain.next_eq_iff hback hps hqs).mp hnext
      rcases (h.chain s).exists_prev ((hsame q).mp hqs) with hhead | ⟨y, hy, hyq⟩
      · rw [hback.prev_head (hchain.head.symm.trans hhead)] at hback_q
        simp at hback_q
      · have hyp : y ≠ p := by
          rintro rfl
          rw [hx] at hyq
          simp at hyq
        have hyq' := hyq
        rw [← hother y hy hyp, hchain.next_eq_iff hback ((hsame y).mpr hy) hqs, hback_q] at hyq'
        exact (hyp (Option.some.inj hyq').symm).elim

/-- The cancel of a node that is not linked is harmless if and only if it is clean. -/
theorem Rep.harmless_iff (h : Rep w lists []) (hn : ¬ w.IsLinked n) :
    Harmless w (w.removeTimer n) ↔ w.Clean n := by
  rw [h.isLinked_iff] at hn
  obtain ⟨hheads, hcount⟩ := removeTimer_free w (h.free n List.not_mem_nil hn)
  constructor
  · intro hharmless
    have hprev : ∀ p, (w.nodes n).prev = some p → w.IsLinked p →
        (w.nodes p).next = (w.nodes n).next := by
      intro p hp hlinked
      obtain ⟨s, hs⟩ := h.isLinked_iff.mp hlinked
      exact h.next_eq_of_harmless hn hharmless hs hp
    refine ⟨hprev, fun q hq hlinked => ?_⟩
    obtain ⟨s, hs⟩ := h.isLinked_iff.mp hlinked
    have hne : ∀ m ∈ lists s, m ≠ n := by
      rintro m hm rfl
      exact hn ⟨s, hm⟩
    obtain ⟨l, hchain, -, hback, -⟩ := hharmless.lists s _ (h.chain s)
    rw [hheads] at hchain
    -- The links forth are the old ones, so the list is the old one, and so are the links back.
    have hold : Chain (fun m => ((w.removeTimer n).nodes m).next) (w.heads s) (lists s) := by
      apply (h.chain s).congr
      intro m hm
      rw [(removeTimer_links (hne m hm)).1]
      split_ifs with hp
      · exact hprev m hp (h.isLinked_iff.mpr ⟨s, hm⟩)
      · rfl
    rw [hchain.unique hold] at hback
    have hsame := (h.back s).prev_unique hback hs
    rw [hsame, (removeTimer_links (hne q hs)).2.1, if_pos hq]
  · intro hclean
    have h' := h.removeTimer_clean hn hclean
    refine ⟨fun s l hl => ?_, hcount⟩
    obtain rfl := hl.unique (h.chain s)
    exact ⟨_, h'.chain s, fun _ => .rfl, h'.back s, h'.headPtr s⟩

end TimeWheel

end Novaio
