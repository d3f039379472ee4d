import Novaio.TimeWheel.Firing

/-!
# How long the scheduler sleeps

`next_timeout` answers with the timer of the first slot of `tv1_` in use, which is the earliest one
in `tv1_` (`nextTimeout_of_tv1`), and with 50 where `tv1_` is empty. It does not look at the other
arrays. A timer there may expire before those of `tv1_`, which were armed later at a shorter
distance, and it may expire in less than 50 ticks, since it stays in its array until a boundary.
`nextTimeout_le_iff` says exactly when the answer oversleeps no pending timer.
-/

namespace Novaio

open Linked Transition

namespace TimeWheel

variable {ν η : Type*} [DecidableEq ν] {w : TimeWheel ν η} {lists : Slot → List ν}
  {pending : List ν} {m n : ν}

/-- The node is in the list of a slot of `tv1_`. -/
def InTv1 (w : TimeWheel ν η) (n : ν) : Prop :=
  ∃ i l, Chain (fun m => (w.nodes m).next) (w.heads (.tv1 i)) l ∧ n ∈ l

/-- The slot that `next_timeout` looks at in its iteration `i`. -/
def scan (w : TimeWheel ν η) (i : ℕ) : Option ν :=
  w.heads (.tv1 (tvrIndex (w.currentTick + UInt64.ofNat i)))

omit [DecidableEq ν] in
/-- The nodes of `tv1_` are those of its lists. -/
theorem Timed.inTv1_iff (h : Timed w lists pending) :
    w.InTv1 n ↔ ∃ i, n ∈ lists (.tv1 i) := by
  constructor
  · rintro ⟨i, l, hl, hn⟩
    exact ⟨i, hl.unique (h.rep.chain (.tv1 i)) ▸ hn⟩
  · rintro ⟨i, hn⟩
    exact ⟨i, _, h.rep.chain (.tv1 i), hn⟩

omit [DecidableEq ν] in
/-- The iteration that looks at the slot of a timer in `tv1_` is its distance to the current
tick. -/
theorem Timed.scan_index (h : Timed w lists pending) {i : Fin 256} (hn : n ∈ lists (.tv1 i)) :
    ∃ d < 256, (w.nodes n).expiresAt.toNat = w.currentTick.toNat + d ∧
      ∀ k < 256, tvrIndex (w.currentTick + UInt64.ofNat k) = i ↔ k = d := by
  obtain ⟨hi, hle, hlt⟩ := h.placed (.tv1 i) n hn
  refine ⟨(w.nodes n).expiresAt.toNat - w.currentTick.toNat, by omega, by omega, ?_⟩
  intro k hk
  have hk' : (UInt64.ofNat k).toNat = k := by
    rw [UInt64.toNat_ofNat']
    omega
  rw [Fin.ext_iff, tvrIndex_val, UInt64.toNat_add, hk', hi]
  omega

omit [DecidableEq ν] in
/-- Where a slot of `tv1_` is in use, the first one that `next_timeout` finds holds an earliest
timer of `tv1_`. -/
theorem Timed.scan_some (h : Timed w lists pending)
    (hm : (List.range 256).findSome? w.scan = some m) :
    w.InTv1 m ∧ ∀ n, w.InTv1 n → (w.nodes m).expiresAt ≤ (w.nodes n).expiresAt := by
  obtain ⟨before, k, after, hrange, hk, hbefore⟩ := List.findSome?_eq_some_iff.mp hm
  have hk256 : k < 256 := by
    rw [← List.mem_range, hrange]
    simp
  have hhead := (h.rep.chain (.tv1 (tvrIndex (w.currentTick + UInt64.ofNat k)))).head
  rw [← scan, hk] at hhead
  have hmem := List.mem_of_mem_head? hhead.symm
  obtain ⟨d, -, hd, hindex⟩ := h.scan_index hmem
  obtain rfl : k = d := (hindex k hk256).mp rfl
  refine ⟨h.inTv1_iff.mpr ⟨_, hmem⟩, fun n hn => ?_⟩
  obtain ⟨i, hn⟩ := h.inTv1_iff.mp hn
  obtain ⟨d, hd256, hd', hindex'⟩ := h.scan_index hn
  rw [UInt64.le_iff_toNat_le, hd, hd']
  by_contra hlt
  -- An earlier timer would have been found in an earlier iteration.
  have hmem' : d ∈ before := by
    have hsplit : d ∈ before ++ k :: after := hrange ▸ List.mem_range.mpr hd256
    have hsorted : (before ++ k :: after).Pairwise (· < ·) := hrange ▸ List.pairwise_lt_range
    rw [List.pairwise_append, List.pairwise_cons] at hsorted
    simp only [List.mem_append, List.mem_cons] at hsplit
    rcases hsplit with hb | rfl | ha
    · exact hb
    · omega
    · have := hsorted.2.1.1 d ha
      omega
  have hnone := hbefore d hmem'
  rw [scan, (hindex' d hd256).mpr rfl] at hnone
  have hnil := h.rep.chain (.tv1 i)
  rw [hnone, chain_none] at hnil
  rw [hnil] at hn
  exact List.not_mem_nil hn

omit [DecidableEq ν] in
/-- Where `next_timeout` finds no slot of `tv1_` in use, there is none. -/
theorem Timed.scan_none (h : Timed w lists pending)
    (hnone : (List.range 256).findSome? w.scan = none) : ¬ w.InTv1 n := by
  intro hn
  obtain ⟨i, hn⟩ := h.inTv1_iff.mp hn
  obtain ⟨d, hd, -, hindex⟩ := h.scan_index hn
  have hslot := List.findSome?_eq_none_iff.mp hnone d (List.mem_range.mpr hd)
  rw [scan, (hindex d hd).mpr rfl] at hslot
  have hnil := h.rep.chain (.tv1 i)
  rw [hslot, chain_none] at hnil
  rw [hnil] at hn
  exact List.not_mem_nil hn

/-- The condition under which `next_timeout` oversleeps no pending timer. Where `tv1_` is in use, a
timer of `tv1_` expires no later than any timer of the other arrays, or is due already. Where it is
not, no timer expires in less than 50 ticks. Where the count of active timers has wrapped to 0, no
timer expires before the end of time. -/
structure Foreseen (w : TimeWheel ν η) (now : UInt64) : Prop where
  tv1Used : w.activeTimers ≠ 0 → (∃ m, w.InTv1 m) → ∀ n, w.IsLinked n → ¬ w.InTv1 n →
    ∃ m, w.InTv1 m ∧
      ((w.nodes m).expiresAt ≤ (w.nodes n).expiresAt ∨ (w.nodes m).expiresAt ≤ now)
  tv1Unused : w.activeTimers ≠ 0 → (¬ ∃ m, w.InTv1 m) → ∀ n, w.IsLinked n →
    now.toNat + 50 ≤ (w.nodes n).expiresAt.toNat
  wrapped : w.activeTimers = 0 → ∀ n, w.IsLinked n →
    now.toNat + (2 ^ 64 - 1) ≤ (w.nodes n).expiresAt.toNat

/-- The sleep that `next_timeout` plans is no longer than the wait of any pending timer, so no
longer than that of the earliest. -/
def NoOversleep (w : TimeWheel ν η) (now : UInt64) : Prop :=
  ∀ n, w.IsLinked n →
    (w.nextTimeout now).toNat ≤ (w.nodes n).expiresAt.toNat - now.toNat

omit [DecidableEq ν] in
/-- What `next_timeout` answers where it finds a slot of `tv1_` in use. -/
theorem nextTimeout_of_some (ha : w.activeTimers ≠ 0) (now : UInt64)
    (hm : (List.range 256).findSome? w.scan = some m) :
    (w.nextTimeout now).toNat = (w.nodes m).expiresAt.toNat - now.toNat := by
  have hscan : w.nextTimeout now =
      if (w.nodes m).expiresAt > now then (w.nodes m).expiresAt - now else 0 := by
    unfold scan at hm
    rw [nextTimeout, if_neg ha, hm]
  rw [hscan]
  split_ifs with hlt
  · exact UInt64.toNat_sub_of_le _ _ (UInt64.le_of_lt hlt)
  · rw [gt_iff_lt, UInt64.lt_iff_toNat_lt] at hlt
    rw [UInt64.toNat_zero]
    omega

omit [DecidableEq ν] in
/-- What `next_timeout` answers where it finds none. -/
theorem nextTimeout_of_none (ha : w.activeTimers ≠ 0) (now : UInt64)
    (hnone : (List.range 256).findSome? w.scan = none) : (w.nextTimeout now).toNat = 50 := by
  unfold scan at hnone
  rw [nextTimeout, if_neg ha, hnone]
  rfl

omit [DecidableEq ν] in
/-- The step lemma: on a wheel in use, `next_timeout` oversleeps no pending timer if and only if it
foresees them all. -/
theorem Timed.noOversleep_iff (h : Timed w lists pending) (now : UInt64) :
    NoOversleep w now ↔ Foreseen w now := by
  by_cases ha : w.activeTimers = 0
  · -- Without active timers, the timeout is that of a wait without end.
    have hanswer : (w.nextTimeout now).toNat = 2 ^ 64 - 1 := by
      rw [nextTimeout, if_pos ha]
      rfl
    unfold NoOversleep
    rw [hanswer]
    constructor
    · intro hall
      refine ⟨fun hne => (hne ha).elim, fun hne => (hne ha).elim, fun _ n hn => ?_⟩
      have := hall n hn
      omega
    · intro hf n hn
      have := hf.wrapped ha n hn
      omega
  · unfold NoOversleep
    cases hscan : (List.range 256).findSome? w.scan with
    | some m =>
      -- The timer that is found is the first one of `tv1` to expire.
      obtain ⟨hm, hmin⟩ := h.scan_some hscan
      rw [nextTimeout_of_some ha now hscan]
      constructor
      · intro hall
        refine ⟨fun _ _ n hn _ => ⟨m, hm, ?_⟩, fun _ hno => (hno ⟨m, hm⟩).elim,
          fun hz => (ha hz).elim⟩
        have := hall n hn
        rw [UInt64.le_iff_toNat_le, UInt64.le_iff_toNat_le]
        omega
      · intro hf n hn
        by_cases hn1 : w.InTv1 n
        · have := UInt64.le_iff_toNat_le.mp (hmin n hn1)
          omega
        · obtain ⟨m', hm', hle⟩ := hf.tv1Used ha ⟨m, hm⟩ n hn hn1
          have := UInt64.le_iff_toNat_le.mp (hmin m' hm')
          rw [UInt64.le_iff_toNat_le, UInt64.le_iff_toNat_le] at hle
          omega
    | none =>
      -- There is nothing in `tv1`, and the timeout is 50 ms.
      have hno : ¬ ∃ m, w.InTv1 m := fun ⟨m, hm⟩ => h.scan_none hscan hm
      rw [nextTimeout_of_none ha now hscan]
      constructor
      · intro hall
        refine ⟨fun _ hm => (hno hm).elim, fun _ _ n hn => ?_, fun hz => (ha hz).elim⟩
        have := hall n hn
        omega
      · intro hf n hn
        have := hf.tv1Unused ha hno n hn
        omega

end TimeWheel

open TimeWheel

/-- In every state that a run from an empty wheel reaches, and at every time, `next_timeout`
oversleeps no pending timer if and only if it foresees them all. -/
theorem next_timeout_le_iff {ν η : Type*} [DecidableEq ν] (expiresAt : ν → UInt64)
    (handle : ν → η) (l : List (WheelOp ν η × TimeWheel ν η))
    (hl : Path wheelStep (empty expiresAt handle) l) (now : UInt64) :
    NoOversleep (last (empty expiresAt handle) l) now ↔
      Foreseen (last (empty expiresAt handle) l) now := by
  obtain ⟨lists, pending, ht, -⟩ := run_inUse expiresAt handle hl
  exact ht.noOversleep_iff now

/-- The wheel with one timer, armed at the tick 0. -/
def oneTimer (expiresAt : UInt64) : TimeWheel ℕ ℕ :=
  (empty (fun _ => 0) fun _ => 0).arm 0 expiresAt 7

/-- Arming the one timer is a run, after which it is the pending one. -/
theorem oneTimer_run (expiresAt : UInt64) :
    wheelStep (empty (fun _ => 0) fun _ => 0) (.addTimer 0 expiresAt 7) (oneTimer expiresAt) ∧
      ∃ lists, Timed (oneTimer expiresAt) lists [0] ∧
        Kept [⟨0, expiresAt, 7, false⟩] (oneTimer expiresAt) [0] := by
  have ht : Timed (empty (ν := ℕ) (fun _ => 0) fun _ => 0) _ [] := empty_timed _ _
  have h0 : (empty (ν := ℕ) (η := ℕ) (fun _ => 0) fun _ => 0).currentTick ≤ expiresAt := by
    rw [UInt64.le_iff_toNat_le]
    exact Nat.zero_le _
  obtain ⟨lists, ht'⟩ := arm_timed (h := 7) ht (List.not_mem_nil (a := 0)) h0
  refine ⟨⟨?_, h0, rfl⟩, lists, ht', arm_kept (empty_kept _ _) List.not_mem_nil⟩
  rw [ht.isLinked_iff]
  exact List.not_mem_nil

/-- A timer within `tv1_` is foreseen. -/
theorem next_timeout_le_near : NoOversleep (oneTimer 40) 0 := by
  obtain ⟨hstep, lists, ht, -⟩ := oneTimer_run 40
  have h1 : (oneTimer 40).InTv1 0 :=
    ⟨40, [0], ⟨by decide, chain_nil.mpr (by decide)⟩, List.mem_singleton_self 0⟩
  refine (next_timeout_le_iff _ _ [(_, oneTimer 40)] ⟨hstep, trivial⟩ 0).mpr ⟨?_, ?_, ?_⟩
  · intro _ _ n hn hno
    rw [last, last, ht.isLinked_iff, List.mem_singleton] at hn
    rw [hn] at hno
    exact (hno h1).elim
  · intro _ hno
    exact (hno ⟨0, h1⟩).elim
  · intro hwrap
    exact absurd hwrap (by decide)

/-- What `tick` does to the wheel with one timer up to the tick 60, and what `next_timeout` answers
once a second timer is armed there. -/
theorem oneTimer_tick :
    ((oneTimer 256).tick true 61 60).map (fun w =>
      (w.fired.length, w.currentTick, (w.arm 1 315 8).nextTimeout 60)) = some (0, 60, 255) := by
  decide +kernel

/-- A timer that expires at 256 is armed at the tick 0, in `tv2_`, and one that expires at 315 at
the tick 60, in `tv1_`. The answer is then 255, where the first timer expires in 196. -/
theorem next_timeout_oversleeps :
    ∃ l : List (WheelOp ℕ ℕ × TimeWheel ℕ ℕ),
      Path wheelStep (empty (fun _ => 0) fun _ => 0) l ∧
      l.map Prod.fst = [.addTimer 0 256 7, .tick 60, .addTimer 1 315 8] ∧
      ¬ NoOversleep (last (empty (fun _ => 0) fun _ => 0) l) 60 := by
  obtain ⟨hstep₁, lists, ht₁, hk₁⟩ := oneTimer_run 256
  obtain ⟨w, lists', pending, hw, ht, hk, -⟩ := tickLoop_kept 60 ht₁ hk₁
  have hw' : ∀ fuel, 61 ≤ fuel → (oneTimer 256).tick true fuel 60 = some w :=
    fun fuel hf => hw fuel fuel (Nat.le_trans (by decide) hf) (Nat.le_trans (by decide) hf)
  have htick := oneTimer_tick
  rw [hw' 61 (le_refl _), Option.map_some, Option.some.injEq, Prod.mk.injEq, Prod.mk.injEq] at htick
  obtain ⟨hfired, hnow, hanswer⟩ := htick
  -- The first timer is still pending, and the only one.
  have hp := hk.perm
  rw [List.length_eq_zero_iff.mp hfired, List.nil_append] at hp
  obtain ⟨n, rfl, hn⟩ := List.map_eq_singleton_iff.mp (List.perm_singleton.mp hp.symm)
  obtain rfl : n = 0 := congrArg Firing.node hn
  have hexp : (w.nodes 0).expiresAt = 256 := congrArg Firing.tick hn
  have h1 : 1 ∉ [0] := by decide
  have hle : w.currentTick ≤ 315 := by
    rw [hnow]
    decide
  obtain ⟨_, ht₂⟩ := arm_timed (h := 8) ht h1 hle
  refine ⟨[(_, oneTimer 256), (.tick 60, w), (.addTimer 1 315 8, w.arm 1 315 8)],
    ⟨hstep₁, ⟨61, hw'⟩, ⟨?_, hle, rfl⟩, trivial⟩, rfl, fun hall => ?_⟩
  · rwa [ht.isLinked_iff]
  · have hsleep := hall 0 (ht₂.isLinked_iff.mpr (by decide))
    simp only [last, hanswer] at hsleep
    rw [(arm_of_ne w 315 8 (by decide)).1, hexp] at hsleep
    exact absurd hsleep (by decide)

end Novaio
