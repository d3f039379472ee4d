import Mathlib.Data.List.Sort
import Mathlib.Tactic.Common
import Novaio.TimeWheel.Lists

/-!
# A wheel in use

`Wound` says that the wheel's memory represents lists in which every timer is where it can be at the
current tick, whether or not its expiry is behind that tick. An iteration of `tick` fires exactly
the timers whose expiry is the current tick (`Wound.tickBody`), so that a timer fires at the tick at
which it is due. The ticks end at `2^64`, and a timer that is due later does not fire.
-/

namespace Novaio

open Linked

namespace TimeWheel

variable {ν η : Type*} [DecidableEq ν] {w : TimeWheel ν η} {lists : Slot → List ν}
  {pending : List ν} {n : ν}

/-! ## Where the timers are between ticks -/

/-- The tick at which the timer of a node is due. -/
abbrev dueAt (w : TimeWheel ν η) (n : ν) : ℕ := dueTick (w.nodes n).expiresAt w.currentTick

/-- The memory represents lists in which the pending nodes are where they can be between ticks. -/
structure Wound (w : TimeWheel ν η) (lists : Slot → List ν) (pending : List ν) : Prop where
  rep : Rep w lists []
  placed : ∀ s, ∀ n ∈ lists s, Placed (fun _ => True) w.currentTick.toNat (w.dueAt n) s
  nodup : pending.Nodup
  mem_iff : ∀ n, n ∈ pending ↔ InLists lists n

/-! ## The cascades of a tick -/

/-- The calls of `cascade` for these arrays in turn, as long as the index is 0. -/
def cascadeAll (fuel : ℕ) : List Tv → TimeWheel ν η → Option (TimeWheel ν η)
  | [], w => some w
  | tv :: tvs, w =>
    let i := tvnIndex (w.currentTick >>> tv.shift)
    (w.cascade fuel tv i).bind fun w => if i.val = 0 then cascadeAll fuel tvs w else some w

/-- The arrays that `tick` cascades. -/
theorem cascades_eq (fuel : ℕ) (w : TimeWheel ν η) :
    w.cascades fuel = if tvrIndex w.currentTick = 0 ∧ 0 < w.currentTick then
      w.cascadeAll fuel [.tv2, .tv3, .tv4, .tv5] else some w := by
  -- Nothing depends on the index in the last array.
  have hlast (o : Option (TimeWheel ν η)) (i : Fin 64) :
      (o.bind fun w => if i = 0 then some w else some w) = o := by
    simp
  simp only [cascades, cascadeAll, Fin.val_eq_zero_iff, hlast]
  rfl

/-- What holds between the cascades of a tick: the memory represents lists of the same nodes, and
only the arrays with `due` still have timers on their boundary. -/
structure Cascading (w : TimeWheel ν η) (lists : Slot → List ν) (due : Tv → Prop)
    (w' : TimeWheel ν η) (lists' : Slot → List ν) : Prop where
  rep : Rep w' lists' []
  frame : Frame w w'
  fired : w'.fired = w.fired
  inLists : ∀ n, InLists lists' n ↔ InLists lists n
  placed : ∀ s, ∀ n ∈ lists' s, Placed due w.currentTick.toNat (w.dueAt n) s

omit [DecidableEq ν] in
/-- A bound on the pending nodes is a bound on every list. -/
theorem Cascading.length_le {due : Tv → Prop} {w' : TimeWheel ν η} {lists' : Slot → List ν}
    (h : Wound w lists pending) (hc : Cascading w lists due w' lists') (s : Slot) :
    (lists' s).length ≤ pending.length := by
  apply List.Nodup.length_le_of_subset (hc.rep.nodup s)
  intro n hn
  exact (h.mem_iff n).mpr ((hc.inLists n).mp ⟨s, hn⟩)

/-- The step of the cascades: after an array is cascaded at its digit of the current tick, no timer
of it is on its boundary. -/
theorem Cascading.step {due : Tv → Prop} {w' : TimeWheel ν η} {lists' : Slot → List ν}
    (h : Wound w lists pending) (hc : Cascading w lists due w' lists') (tv : Tv) :
    ∃ w'' lists'', (∀ fuel, pending.length ≤ fuel →
        w'.cascade fuel tv (tvnIndex (w'.currentTick >>> tv.shift)) = some w'') ∧
      Cascading w lists (fun t => due t ∧ t ≠ tv) w'' lists'' := by
  obtain ⟨w'', hw'', hrep, hframe, hfired⟩ :=
    rep_cascade hc.rep tv (tvnIndex (w'.currentTick >>> tv.shift))
  refine ⟨w'', _, fun fuel hf => hw'' fuel ((hc.length_le h _).trans hf), hrep,
    hc.frame.trans hframe, hfired.trans hc.fired, ?_, ?_⟩
  · intro n
    rw [inLists_cascadeLists, hc.inLists]
  · rw [hc.frame.expiries, hc.frame.currentTick]
    exact cascade_placed hc.placed (tvnIndex_shift tv w.currentTick)

omit [DecidableEq ν] in
/-- The digit of the current tick in an array is 0 at a tick that is a boundary of the next. -/
theorem tvnIndex_eq_zero (tv : Tv) (x : UInt64) :
    tvnIndex (x >>> tv.shift) = 0 ↔ x.toNat / 2 ^ tv.bits % 64 = 0 := by
  rw [Fin.ext_iff, tvnIndex_shift]
  rfl

omit [DecidableEq ν] in
/-- At a boundary of an array, the digit in an array below it is 0. -/
theorem digit_eq_zero {x b b' : ℕ} (hle : b + 6 ≤ b') (hx : x % 2 ^ b' = 0) :
    x / 2 ^ b % 64 = 0 := by
  obtain ⟨k, rfl⟩ : 2 ^ (b + 6) ∣ x :=
    Nat.dvd_trans (Nat.pow_dvd_pow 2 hle) (Nat.dvd_of_mod_eq_zero hx)
  rw [pow_add, mul_assoc, Nat.mul_div_cancel_left _ (Nat.two_pow_pos b)]
  exact Nat.mul_mod_right (2 ^ 6) k

/-- The calls of `cascade` in turn leave no timer on a boundary. The induction is on the arrays that
are left: the calls stop at the first in which the digit of the tick is not 0, and the tick is then
no boundary of the arrays above it. -/
theorem Cascading.all (h : Wound w lists pending) (tvs : List Tv) {due : Tv → Prop}
    {w' : TimeWheel ν η} {lists' : Slot → List ν} (hc : Cascading w lists due w' lists')
    (hdue : ∀ tv, due tv → tv ∈ tvs ∧ w.currentTick.toNat % 2 ^ tv.bits = 0)
    (horder : tvs.Pairwise fun tv tv' => tv.bits + 6 ≤ tv'.bits) :
    ∃ w'' lists'', (∀ fuel, pending.length ≤ fuel → w'.cascadeAll fuel tvs = some w'') ∧
      Cascading w lists (fun _ => False) w'' lists'' := by
  induction tvs generalizing w' lists' due with
  | nil =>
    refine ⟨w', lists', fun _ _ => rfl, { hc with placed := fun s n hn => ?_ }⟩
    exact (hc.placed s n hn).mono fun tv htv => List.not_mem_nil (hdue tv htv).1
  | cons tv tvs ih =>
    obtain ⟨horder₁, horder⟩ := List.pairwise_cons.mp horder
    obtain ⟨w₁, lists₁, hw₁, h₁⟩ := hc.step h tv
    have hleft : ∀ t, due t ∧ t ≠ tv → t ∈ tvs ∧ w.currentTick.toNat % 2 ^ t.bits = 0 := by
      rintro t ⟨ht, hne⟩
      obtain ⟨hmem, hb⟩ := hdue t ht
      exact ⟨(List.mem_cons.mp hmem).resolve_left hne, hb⟩
    by_cases hz : (tvnIndex (w'.currentTick >>> tv.shift)).val = 0
    · obtain ⟨w'', lists'', hw'', h''⟩ := ih h₁ hleft horder
      refine ⟨w'', lists'', fun fuel hf => ?_, h''⟩
      rw [cascadeAll, hw₁ fuel hf, Option.bind_some, if_pos hz, hw'' fuel hf]
    · refine ⟨w₁, lists₁, fun fuel hf => ?_, { h₁ with placed := fun s n hn => ?_ }⟩
      · rw [cascadeAll, hw₁ fuel hf, Option.bind_some, if_neg hz]
      · refine (h₁.placed s n hn).mono fun t ht => hz ?_
        obtain ⟨hmem, hb⟩ := hleft t ht
        rw [Fin.val_eq_zero_iff, tvnIndex_eq_zero, hc.frame.currentTick]
        exact digit_eq_zero (horder₁ t hmem) hb

/-- The cascades of a tick leave no timer on a boundary. -/
theorem cascades_spec (h : Wound w lists pending) :
    ∃ w' lists', (∀ fuel, pending.length ≤ fuel → w.cascades fuel = some w') ∧
      Cascading w lists (fun _ => False) w' lists' := by
  -- Only the arrays of which the current tick is a boundary have timers on it.
  have h0 : Cascading w lists
      (fun tv => w.currentTick.toNat % 2 ^ tv.bits = 0 ∧ 0 < w.currentTick.toNat) w lists :=
    ⟨h.rep, .refl w, rfl, fun _ => .rfl, fun s n hn =>
      (placed_of_not_boundary (h.placed s n hn)).mono fun _ => And.right⟩
  by_cases hb : tvrIndex w.currentTick = 0 ∧ 0 < w.currentTick
  · obtain ⟨w', lists', hw', h'⟩ := Cascading.all h [.tv2, .tv3, .tv4, .tv5] h0
      (fun tv htv => ⟨by cases tv <;> simp, htv.1⟩) (by decide)
    exact ⟨w', lists', fun fuel hf => by rw [cascades_eq, if_pos hb, hw' fuel hf], h'⟩
  · -- A boundary of any array is a multiple of 256.
    refine ⟨w, lists, fun fuel hf => by rw [cascades_eq, if_neg hb],
      { h0 with placed := fun s n hn => (h0.placed s n hn).mono ?_ }⟩
    have hb' : ¬ (w.currentTick.toNat % 256 = 0 ∧ 0 < w.currentTick.toNat) := by
      rintro ⟨hmod, hpos⟩
      refine hb ⟨Fin.ext ?_, UInt64.lt_iff_toNat_lt.mpr hpos⟩
      rw [tvrIndex_val, hmod]
      rfl
    rintro (_ | _ | _ | _) <;> simp [Tv.bits] <;> omega

/-! ## An iteration of `tick` -/

/-- The call of `schedule` that a pending node is due for. -/
def firing (w : TimeWheel ν η) (n : ν) : Firing ν η :=
  ⟨n, (w.nodes n).handle, (w.nodes n).expiresAt⟩

/-- An iteration of `tick` fires the pending nodes that expire at the current tick, each once, and
the others stay pending. -/
theorem Wound.tickBody (h : Wound w lists pending) (hc : w.currentTick.toNat + 1 < 2 ^ 64) :
    ∃ w' lists' due pending', (∀ fuel, pending.length ≤ fuel → w.tickBody true fuel = some w') ∧
      Wound w' lists' pending' ∧ pending.Perm (due ++ pending') ∧
      (∀ n ∈ due, (w.nodes n).expiresAt = w.currentTick) ∧
      (∀ n ∈ pending', (w.nodes n).expiresAt ≠ w.currentTick) ∧
      w'.fired = w.fired ++ due.map w.firing ∧
      (∀ n, (w'.nodes n).expiresAt = (w.nodes n).expiresAt) ∧
      (∀ n, (w'.nodes n).handle = (w.nodes n).handle) ∧
      w'.currentTick.toNat = w.currentTick.toNat + 1 := by
  -- After the cascades, the slot that is fired has exactly what is due.
  obtain ⟨w₁, lists₁, hw₁, h₁⟩ := cascades_spec h
  set index := tvrIndex w.currentTick with hindex
  have hdue : ∀ n, n ∈ lists₁ (.tv1 index) ↔ InLists lists n ∧
      (w.nodes n).expiresAt = w.currentTick := by
    intro n
    rw [mem_due_iff h₁.placed, h₁.inLists]
  -- All of the slot fires.
  obtain ⟨w₂, hw₂, hrep, hframe, hfired⟩ := rep_fireLoop (rep_setHead h₁.rep (.tv1 index))
    (h₁.rep.chain (.tv1 index))
  have hexp : ∀ n, (w₂.nodes n).expiresAt = (w.nodes n).expiresAt :=
    fun n => (hframe.expiresAt n).trans (h₁.frame.expiresAt n)
  have htick : w₂.currentTick = w.currentTick :=
    hframe.currentTick.trans h₁.frame.currentTick
  have hsucc : (w₂.currentTick + 1).toNat = w.currentTick.toNat + 1 := by
    rw [htick, UInt64.toNat_add]
    exact Nat.mod_eq_of_lt hc
  -- What is left is the rest, in the slots where it was.
  have hrest : ∀ n, InLists (Function.update lists₁ (.tv1 index) []) n ↔
      InLists lists n ∧ (w.nodes n).expiresAt ≠ w.currentTick := by
    intro n
    constructor
    · rintro ⟨s, hs⟩
      rcases eq_or_ne s (.tv1 index) with rfl | hne
      · simp at hs
      · rw [Function.update_of_ne hne] at hs
        refine ⟨(h₁.inLists n).mp ⟨s, hs⟩, fun he => hne ?_⟩
        exact h₁.rep.unique hs ((hdue n).mpr ⟨(h₁.inLists n).mp ⟨s, hs⟩, he⟩)
    · rintro ⟨hn, he⟩
      obtain ⟨s, hs⟩ := (h₁.inLists n).mpr hn
      have hne : s ≠ .tv1 index := by
        rintro rfl
        exact he ((hdue n).mp hs).2
      exact ⟨s, by rwa [Function.update_of_ne hne]⟩
  refine ⟨{ w₂ with currentTick := w₂.currentTick + 1 }, Function.update lists₁ (.tv1 index) [],
    lists₁ (.tv1 index), pending.filter fun n => (w.nodes n).expiresAt ≠ w.currentTick,
    ?_, ⟨{ hrep with }, ?_, h.nodup.filter _, ?_⟩, ?_, fun n hn => ((hdue n).mp hn).2,
    fun n hn => of_decide_eq_true (List.mem_filter.mp hn).2, ?_, hexp,
    fun n => (hframe.handle n).trans (h₁.frame.handle n), hsucc⟩
  · intro fuel hf
    have hf₂ := hw₂ fuel ((h₁.length_le h _).trans hf)
    simp only [TimeWheel.tickBody, hw₁ fuel hf, ← hindex, hf₂, Option.bind_eq_bind,
      Option.bind_some]
  · intro s n hn
    have hne := ((hrest n).mp ⟨s, hn⟩).2
    -- The next tick changes neither when a timer is due nor where it belongs.
    have hdueAt : dueTick (w₂.nodes n).expiresAt (w₂.currentTick + 1) = w.dueAt n := by
      rw [hexp]
      exact dueTick_succ hsucc hne
    rcases eq_or_ne s (.tv1 index) with rfl | hs
    · simp at hn
    · rw [Function.update_of_ne hs] at hn
      show Placed _ (w₂.currentTick + 1).toNat (dueTick _ (w₂.currentTick + 1)) s
      rw [hdueAt, hsucc]
      exact placed_succ (h₁.placed s n hn) fun he => hne (dueTick_eq_iff.mp he)
  · intro n
    rw [hrest, List.mem_filter, h.mem_iff, decide_eq_true_iff]
  · refine (List.perm_ext_iff_of_nodup h.nodup ?_).mpr ?_
    · refine List.nodup_append.mpr ⟨h₁.rep.nodup _, h.nodup.filter _, ?_⟩
      rintro n hn m hm rfl
      exact of_decide_eq_true (List.mem_filter.mp hm).2 ((hdue n).mp hn).2
    · intro n
      rw [List.mem_append, hdue, List.mem_filter, h.mem_iff, decide_eq_true_iff]
      tauto
  · rw [hfired, setHead_fired, h₁.fired]
    congr 1
    apply List.map_congr_left
    intro n hn
    rw [firing, ((hdue n).mp hn).2, ← h₁.frame.handle, ← h₁.frame.currentTick]
    rfl

/-! ## Arming and removing -/

/-- The node is in the list of a slot. -/
def IsLinked (w : TimeWheel ν η) (n : ν) : Prop :=
  ∃ s l, Chain (fun m => (w.nodes m).next) (w.heads s) l ∧ n ∈ l

/-- Arming a node: its timer is written and `add_timer` is called. -/
def arm (w : TimeWheel ν η) (n : ν) (expiresAt : UInt64) (handle : η) : TimeWheel ν η :=
  (w.setNode n ({ · with expiresAt := expiresAt, handle := handle })).addTimer n

omit [DecidableEq ν] in
/-- The linked nodes are those of the lists. -/
theorem Rep.isLinked_iff {rest : List ν} (h : Rep w lists rest) :
    w.IsLinked n ↔ InLists lists n := by
  constructor
  · rintro ⟨s, l, hl, hn⟩
    exact ⟨s, (hl.unique (h.chain s)) ▸ hn⟩
  · rintro ⟨s, hs⟩
    exact ⟨s, _, h.chain s, hs⟩

omit [DecidableEq ν] in
/-- The linked nodes are the pending ones. -/
theorem Wound.isLinked_iff (h : Wound w lists pending) : w.IsLinked n ↔ n ∈ pending := by
  rw [h.mem_iff, h.rep.isLinked_iff]

/-- The wheel just after a node's timer is written. -/
theorem arm_frame (w : TimeWheel ν η) (n : ν) (e : UInt64) (h : η) :
    Frame (w.setNode n ({ · with expiresAt := e, handle := h })) (w.arm n e h) :=
  addTimer_frame _ n

/-- Arming a node sets its timer. -/
theorem arm_self (w : TimeWheel ν η) (n : ν) (e : UInt64) (h : η) :
    ((w.arm n e h).nodes n).expiresAt = e ∧ ((w.arm n e h).nodes n).handle = h := by
  rw [(arm_frame w n e h).expiresAt, (arm_frame w n e h).handle, setNode_nodes, if_pos rfl]
  exact ⟨rfl, rfl⟩

/-- Arming a node leaves the other timers alone. -/
theorem arm_of_ne (w : TimeWheel ν η) {n m : ν} (e : UInt64) (h : η) (hm : m ≠ n) :
    ((w.arm n e h).nodes m).expiresAt = (w.nodes m).expiresAt ∧
      ((w.arm n e h).nodes m).handle = (w.nodes m).handle := by
  rw [(arm_frame w n e h).expiresAt, (arm_frame w n e h).handle, setNode_nodes, if_neg hm]
  exact ⟨rfl, rfl⟩

/-- Arming a node neither moves the tick nor fires anything. -/
theorem arm_currentTick (w : TimeWheel ν η) (n : ν) (e : UInt64) (h : η) :
    (w.arm n e h).currentTick = w.currentTick ∧ (w.arm n e h).fired = w.fired :=
  ⟨(arm_frame w n e h).currentTick, (addTimer_heads _ n).2.2.2⟩

/-- Arming a node counts one timer more. -/
theorem arm_activeTimers (hroom : w.activeTimers ≠ -1) (n : ν) (e : UInt64) (h : η) :
    (w.arm n e h).activeTimers.toNat = w.activeTimers.toNat + 1 := by
  have hne : w.activeTimers.toNat ≠ 2 ^ 64 - 1 := fun heq => hroom (UInt64.toNat_inj.mp heq)
  have hlt := w.activeTimers.toNat_lt
  rw [arm, (addTimer_heads _ n).2.2.1, setNode_activeTimers, UInt64.toNat_add, UInt64.toNat_one,
    Nat.mod_eq_of_lt (by omega)]

/-- Arming a node that is in no list puts it in front of the list of its slot. -/
theorem Rep.arm (hr : Rep w lists []) (hn : ¬ InLists lists n) (e : UInt64) (h : η) :
    Rep (w.arm n e h) (place (Function.update w.expiries n e) w.currentTick lists n) [] := by
  have hexp : (w.setNode n ({ · with expiresAt := e, handle := h })).expiries =
      Function.update w.expiries n e := by
    funext m
    rw [expiries, setNode_nodes, Function.update_apply]
    split_ifs <;> rfl
  have hrep : Rep (w.setNode n ({ · with expiresAt := e, handle := h })) lists [n] := by
    refine (hr.expose hn).of_links (setNode_heads w n _) ?_
    intro m
    rw [setNode_nodes]
    split_ifs with hm
    · simp [hm]
    · simp
  rw [← hexp]
  exact rep_addTimer hrep List.not_mem_nil

/-- Arming a node that is not linked makes it pending. -/
theorem Wound.arm (ht : Wound w lists pending) (hn : n ∉ pending) (e : UInt64) (h : η) :
    ∃ lists', Wound (w.arm n e h) lists' (n :: pending) := by
  have hout : ¬ InLists lists n := fun hl => hn ((ht.mem_iff n).mpr hl)
  refine ⟨_, ht.rep.arm hout e h, ?_, List.nodup_cons.mpr ⟨hn, ht.nodup⟩, ?_⟩
  · intro s m hm
    rw [dueAt, (arm_currentTick w n e h).1]
    rcases mem_place.mp hm with hs | ⟨rfl, rfl⟩
    · have hne : m ≠ n := by
        rintro rfl
        exact hout ⟨s, hs⟩
      rw [(arm_of_ne w e h hne).1]
      exact ht.placed s m hs
    · rw [Function.update_self, (arm_self w m e h).1]
      exact (slotFor_placed e w.currentTick).mono fun _ hfalse => hfalse.elim
  · intro m
    rw [List.mem_cons, ht.mem_iff]
    constructor
    · rintro (rfl | ⟨s, hs⟩)
      · exact ⟨_, mem_place.mpr (.inr ⟨rfl, rfl⟩)⟩
      · exact ⟨s, mem_place.mpr (.inl hs)⟩
    · rintro ⟨s, hs⟩
      rcases mem_place.mp hs with hs | ⟨rfl, -⟩
      · exact .inr ⟨s, hs⟩
      · exact .inl rfl

/-- Removing a linked node leaves the others pending. -/
theorem Wound.removeTimer (ht : Wound w lists pending) (hn : n ∈ pending) :
    ∃ lists', Wound (w.removeTimer n) lists' (pending.erase n) := by
  obtain ⟨s, hs⟩ := (ht.mem_iff n).mp hn
  have hframe := removeTimer_frame w n
  refine ⟨_, rep_removeTimer ht.rep hs, ?_, ht.nodup.erase n, ?_⟩
  · intro t m hm
    rw [dueAt, hframe.currentTick, hframe.expiresAt]
    apply ht.placed t m
    rcases eq_or_ne t s with rfl | hts
    · rw [Function.update_self] at hm
      exact List.mem_of_mem_erase hm
    · rwa [Function.update_of_ne hts] at hm
  · intro m
    rw [ht.nodup.mem_erase_iff, ht.mem_iff]
    constructor
    · rintro ⟨hne, t, hm⟩
      refine ⟨t, ?_⟩
      rcases eq_or_ne t s with rfl | hts
      · rw [Function.update_self]
        exact (List.mem_erase_of_ne hne).mpr hm
      · rwa [Function.update_of_ne hts]
    · rintro ⟨t, hm⟩
      rcases eq_or_ne t s with rfl | hts
      · rw [Function.update_self, (ht.rep.nodup t).mem_erase_iff] at hm
        exact ⟨hm.1, t, hm.2⟩
      · rw [Function.update_of_ne hts] at hm
        refine ⟨?_, t, hm⟩
        rintro rfl
        exact hts (ht.rep.unique hm hs)

omit [DecidableEq ν] in
/-- An empty wheel has no lists. -/
theorem empty_wound (expiresAt : ν → UInt64) (handle : ν → η) :
    Wound (empty expiresAt handle) (fun _ => []) [] := by
  refine ⟨⟨?_, ?_, ?_, ?_, ?_⟩, ?_, List.nodup_nil, ?_⟩ <;> simp [empty, Back, InLists]

end TimeWheel

end Novaio
