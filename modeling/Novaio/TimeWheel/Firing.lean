import Novaio.Lib.Path
import Novaio.TimeWheel.Wound

/-!
# When the timers fire

A run of the wheel is any interleaving of arming a node that is not linked, removing one that is,
and `tick`. `Timed` says that the wheel's memory represents lists in which every timer is where it
can be at the current tick. An iteration of `tick` fires exactly the timers that expire at the
current tick (`tickBody_spec`), whatever the distance at which they were armed.

`armings` reads off a run which timers were armed and which of them were removed. `Kept` relates
them to the wheel: each arming that is not removed has fired at its tick or is pending.
-/

namespace Novaio

open Linked Transition

namespace TimeWheel

variable {ν η : Type*} [DecidableEq ν] {w : TimeWheel ν η} {lists : Slot → List ν}
  {pending : List ν} {n : ν}

/-- The memory represents lists in which the pending nodes are where they can be between ticks. -/
structure Timed (w : TimeWheel ν η) (lists : Slot → List ν) (pending : List ν) : Prop where
  rep : Rep w lists []
  placed : ∀ s, ∀ n ∈ lists s,
    Placed (fun _ => True) w.currentTick.toNat (w.nodes n).expiresAt.toNat s
  nodup : pending.Nodup
  mem_iff : ∀ n, n ∈ pending ↔ InLists lists n

omit [DecidableEq ν] in
/-- A pending timer has not expired. -/
theorem Timed.le (h : Timed w lists pending) (hn : n ∈ pending) :
    w.currentTick ≤ (w.nodes n).expiresAt := by
  obtain ⟨s, hs⟩ := (h.mem_iff n).mp hn
  exact UInt64.le_iff_toNat_le.mpr (h.placed s n hs).le

omit [DecidableEq ν] in
/-- Timers that have not expired are due at their expiries. -/
theorem Timed.wound (h : Timed w lists pending) : Wound w lists pending :=
  { h with
    placed := fun s n hn => by
      have hplaced := h.placed s n hn
      rwa [dueAt, dueTick_of_le (UInt64.le_iff_toNat_le.mpr hplaced.le)] }

omit [DecidableEq ν] in
/-- A wheel in use, of which no pending timer has expired. -/
theorem Wound.timed (h : Wound w lists pending)
    (hle : ∀ n ∈ pending, w.currentTick ≤ (w.nodes n).expiresAt) : Timed w lists pending :=
  { h with
    placed := fun s n hn => by
      have hplaced := h.placed s n hn
      rwa [dueAt, dueTick_of_le (hle n ((h.mem_iff n).mpr ⟨s, hn⟩))] at hplaced }

/-- An iteration of `tick` fires the pending nodes that expire at the current tick, each once, and
the others stay pending. -/
theorem tickBody_spec (h : Timed w lists pending) (hc : w.currentTick.toNat + 1 < 2 ^ 64) :
    ∃ w' lists' due pending', (∀ fuel, pending.length ≤ fuel → w.tickBody true fuel = some w') ∧
      Timed w' lists' pending' ∧ pending.Perm (due ++ pending') ∧
      (∀ n ∈ due, (w.nodes n).expiresAt = w.currentTick) ∧
      w'.fired = w.fired ++ due.map w.firing ∧
      (∀ n, (w'.nodes n).expiresAt = (w.nodes n).expiresAt) ∧
      (∀ n, (w'.nodes n).handle = (w.nodes n).handle) ∧
      w'.currentTick.toNat = w.currentTick.toNat + 1 := by
  obtain ⟨w', lists', due, pending', hw', hwound, hperm, hdue, hlater, hfired, hexp, hhandle,
    htick⟩ := h.wound.tickBody hc
  refine ⟨w', lists', due, pending', hw', hwound.timed fun n hn => ?_, hperm, hdue, hfired, hexp,
    hhandle, htick⟩
  -- What is still pending has not expired, and does not expire at this tick.
  have hle := UInt64.le_iff_toNat_le.mp (h.le (hperm.mem_iff.mpr (List.mem_append_right due hn)))
  have hne : (w.nodes n).expiresAt.toNat ≠ w.currentTick.toNat := fun heq =>
    hlater n hn (UInt64.toNat_inj.mp heq)
  rw [UInt64.le_iff_toNat_le, hexp, htick]
  omega

/-! ## Runs -/

end TimeWheel

/-- A call of `add_timer` with the node's timer, of `remove_timer`, or of `tick`. -/
inductive WheelOp (ν η : Type*) where
  | addTimer (node : ν) (expiresAt : UInt64) (handle : η)
  | removeTimer (node : ν)
  | tick (time : UInt64)

/-- The effect of a call. A timer is armed no earlier than the current tick, on a node that is not
linked, and only a linked node is removed. `tick` returns, and a scheduler is current. -/
def wheelStep {ν η : Type*} [DecidableEq ν] (w : TimeWheel ν η) (op : WheelOp ν η)
    (w' : TimeWheel ν η) : Prop :=
  match op with
  | .addTimer n e h => ¬ w.IsLinked n ∧ w.currentTick ≤ e ∧ w' = w.arm n e h
  | .removeTimer n => w.IsLinked n ∧ w' = w.removeTimer n
  | .tick t => ∃ enough, ∀ fuel, enough ≤ fuel → w.tick true fuel t = some w'

/-- A timer that was armed, and whether it was removed. -/
structure Arming (ν η : Type*) where
  node : ν
  expiresAt : UInt64
  handle : η
  removed : Bool

section Armings

variable {ν η : Type*} [DecidableEq ν]

/-- The newest arming of the node is removed. -/
def markRemoved (n : ν) : List (Arming ν η) → List (Arming ν η)
  | [] => []
  | a :: as => if a.node = n then { a with removed := true } :: as else a :: markRemoved n as

/-- The armings after a call, newest first. -/
def record (as : List (Arming ν η)) : WheelOp ν η → List (Arming ν η)
  | .addTimer n e h => ⟨n, e, h, false⟩ :: as
  | .removeTimer n => markRemoved n as
  | .tick _ => as

/-- The armings of the calls `ops`, newest first. -/
def armings (ops : List (WheelOp ν η)) : List (Arming ν η) := ops.foldl record []

/-- The call of `schedule` that an arming asks for: at the tick at which it expires. -/
def Arming.firing (a : Arming ν η) : Firing ν η := ⟨a.node, a.handle, a.expiresAt⟩

/-- The armings that are not removed. -/
def kept (as : List (Arming ν η)) : List (Arming ν η) := as.filter fun a => !a.removed

/-- Removing the newest arming of a node takes it from those kept. -/
theorem kept_markRemoved {as : List (Arming ν η)} {a : Arming ν η} {n : ν}
    (h : as.find? (·.node = n) = some a) (ha : a.removed = false) :
    (kept as).Perm (a :: kept (markRemoved n as)) := by
  induction as with
  | nil => simp at h
  | cons b as ih =>
    rw [List.find?_cons] at h
    by_cases hb : b.node = n
    · simp only [hb, decide_true, Option.some.injEq] at h
      subst h
      simp [kept, markRemoved, hb, ha]
    · simp only [hb, decide_false] at h
      have hp := ih h
      simp only [kept, markRemoved, hb, if_false, List.filter_cons] at hp ⊢
      split_ifs
      · exact (hp.cons b).trans (List.Perm.swap _ _ _)
      · exact hp

/-- Removing the newest arming of a node leaves the other nodes' armings. -/
theorem find?_markRemoved {as : List (Arming ν η)} {m n : ν} (h : m ≠ n) :
    (markRemoved n as).find? (·.node = m) = as.find? (·.node = m) := by
  induction as with
  | nil => rfl
  | cons b as ih =>
    rw [markRemoved]
    split_ifs with hb
    · simp [hb, h.symm]
    · rw [List.find?_cons, List.find?_cons, ih]

end Armings

namespace TimeWheel

variable {ν η : Type*} [DecidableEq ν] {w : TimeWheel ν η} {lists : Slot → List ν}
  {pending : List ν} {n : ν} {as : List (Arming ν η)}

omit [DecidableEq ν] in
/-- The linked nodes are the pending ones. -/
theorem Timed.isLinked_iff (h : Timed w lists pending) : w.IsLinked n ↔ n ∈ pending :=
  h.wound.isLinked_iff

/-- What relates the armings of a run to the wheel that it leads to: those kept have fired or are
pending, the newest arming of a pending node is the one that is pending, and those that fired are
in the past, in order. -/
structure Kept (as : List (Arming ν η)) (w : TimeWheel ν η) (pending : List ν) : Prop where
  perm : ((kept as).map Arming.firing).Perm (w.fired ++ pending.map w.firing)
  newest : ∀ n ∈ pending, as.find? (·.node = n) =
    some ⟨n, (w.nodes n).expiresAt, (w.nodes n).handle, false⟩
  past : ∀ f ∈ w.fired, f.tick < w.currentTick
  sorted : (w.fired.map Firing.tick).Pairwise (· ≤ ·)

/-- Arming a node that is not linked makes it pending. -/
theorem arm_timed {e : UInt64} {h : η} (ht : Timed w lists pending) (hn : n ∉ pending)
    (he : w.currentTick ≤ e) : ∃ lists', Timed (w.arm n e h) lists' (n :: pending) := by
  obtain ⟨lists', hwound⟩ := ht.wound.arm hn e h
  refine ⟨lists', hwound.timed fun m hm => ?_⟩
  rw [(arm_currentTick w n e h).1]
  rcases List.mem_cons.mp hm with rfl | hm
  · rwa [(arm_self w m e h).1]
  · rw [(arm_of_ne w e h (ne_of_mem_of_not_mem hm hn)).1]
    exact ht.le hm

/-- Arming a node that is not linked: the new arming is the one that is pending. -/
theorem arm_kept {e : UInt64} {h : η} (hk : Kept as w pending) (hn : n ∉ pending) :
    Kept (⟨n, e, h, false⟩ :: as) (w.arm n e h) (n :: pending) := by
  obtain ⟨htick, hfired⟩ := arm_currentTick w n e h
  obtain ⟨hexp, hhandle⟩ := arm_self w n e h
  have hne : ∀ m ∈ pending, m ≠ n := fun m hm => ne_of_mem_of_not_mem hm hn
  have hfiring : pending.map (w.arm n e h).firing = pending.map w.firing := by
    apply List.map_congr_left
    intro m hm
    obtain ⟨hexp', hhandle'⟩ := arm_of_ne w e h (hne m hm)
    rw [firing, firing, hexp', hhandle']
  refine ⟨?_, ?_, ?_, ?_⟩
  · rw [hfired, List.map_cons, hfiring, firing, hexp, hhandle]
    exact (hk.perm.cons _).trans List.perm_middle.symm
  · intro m hm
    rcases List.mem_cons.mp hm with rfl | hm
    · rw [List.find?_cons, hexp, hhandle]
      simp
    · obtain ⟨hexp', hhandle'⟩ := arm_of_ne w e h (hne m hm)
      rw [List.find?_cons, hexp', hhandle', ← hk.newest m hm]
      simp [(hne m hm).symm]
  · rw [hfired, htick]
    exact hk.past
  · rw [hfired]
    exact hk.sorted

/-- Removing a linked node leaves the others pending. -/
theorem removeTimer_timed (ht : Timed w lists pending) (hn : n ∈ pending) :
    ∃ lists', Timed (w.removeTimer n) lists' (pending.erase n) := by
  obtain ⟨lists', hwound⟩ := ht.wound.removeTimer hn
  have hframe := removeTimer_frame w n
  refine ⟨lists', hwound.timed fun m hm => ?_⟩
  rw [hframe.currentTick, hframe.expiresAt]
  exact ht.le (List.mem_of_mem_erase hm)

/-- Removing a linked node: its newest arming is the one that was pending. -/
theorem removeTimer_kept (ht : Timed w lists pending) (hk : Kept as w pending)
    (hn : n ∈ pending) : Kept (markRemoved n as) (w.removeTimer n) (pending.erase n) := by
  have hframe := removeTimer_frame w n
  obtain ⟨htick, hfired⟩ := removeTimer_currentTick w n
  have hfiring : ∀ m, (w.removeTimer n).firing m = w.firing m := by
    intro m
    rw [firing, firing, hframe.expiresAt, hframe.handle]
  refine ⟨?_, ?_, ?_, ?_⟩
  · rw [hfired, List.map_congr_left fun m _ => hfiring m]
    -- The node's firing leaves both sides, with the arming that is marked and with the node.
    have hleft := (kept_markRemoved (hk.newest n hn) rfl).map Arming.firing
    have hright := ((List.perm_cons_erase hn).map w.firing).append_left w.fired
    have hcons : List.Perm (w.firing n :: (kept (markRemoved n as)).map Arming.firing)
        (w.firing n :: (w.fired ++ (pending.erase n).map w.firing)) :=
      calc List.Perm _ ((kept as).map Arming.firing) := hleft.symm
        List.Perm _ (w.fired ++ pending.map w.firing) := hk.perm
        List.Perm _ (w.fired ++ w.firing n :: (pending.erase n).map w.firing) := hright
        List.Perm _ _ := List.perm_middle
    exact hcons.cons_inv
  · intro m hm
    obtain ⟨hne, hm⟩ := ht.nodup.mem_erase_iff.mp hm
    rw [find?_markRemoved hne, hframe.expiresAt, hframe.handle]
    exact hk.newest m hm
  · rw [hfired, htick]
    exact hk.past
  · rw [hfired]
    exact hk.sorted

/-- The step lemma of `tick`: an iteration keeps what relates the armings to the wheel. -/
theorem tickBody_kept (ht : Timed w lists pending) (hk : Kept as w pending)
    (hc : w.currentTick.toNat + 1 < 2 ^ 64) :
    ∃ w' lists' pending', (∀ fuel, pending.length ≤ fuel → w.tickBody true fuel = some w') ∧
      Timed w' lists' pending' ∧ Kept as w' pending' ∧ pending'.length ≤ pending.length ∧
      w'.currentTick.toNat = w.currentTick.toNat + 1 := by
  obtain ⟨w', lists', due, pending', hw', ht', hp, hdue, hfired, hexp, hhandle, htick⟩ :=
    tickBody_spec ht hc
  have hfiring : ∀ m, w'.firing m = w.firing m := by
    intro m
    rw [firing, firing, hexp, hhandle]
  have hlt : w.currentTick < w'.currentTick := by
    rw [UInt64.lt_iff_toNat_lt]
    omega
  -- All that fires now fires at the current tick, which is after all that has fired.
  have hnow : ∀ f ∈ due.map w.firing, f.tick = w.currentTick := by
    intro f hf
    obtain ⟨m, hm, rfl⟩ := List.mem_map.mp hf
    exact hdue m hm
  refine ⟨w', lists', pending', hw', ht', ⟨?_, ?_, ?_, ?_⟩, ?_, htick⟩
  · rw [hfired, List.map_congr_left fun m _ => hfiring m, List.append_assoc, ← List.map_append]
    exact hk.perm.trans ((hp.map _).append_left _)
  · intro m hm
    rw [hexp, hhandle]
    exact hk.newest m (hp.mem_iff.mpr (List.mem_append_right _ hm))
  · intro f hf
    rw [hfired] at hf
    rcases List.mem_append.mp hf with hf | hf
    · exact UInt64.lt_trans (hk.past f hf) hlt
    · rw [hnow f hf]
      exact hlt
  · rw [hfired, List.map_append, List.pairwise_append]
    refine ⟨hk.sorted, ?_, ?_⟩
    · apply List.pairwise_of_forall_mem_list
      intro x hx y hy
      obtain ⟨f, hf, rfl⟩ := List.mem_map.mp hx
      obtain ⟨g, hg, rfl⟩ := List.mem_map.mp hy
      rw [hnow f hf, hnow g hg]
      exact UInt64.le_refl _
    · intro x hx y hy
      obtain ⟨f, hf, rfl⟩ := List.mem_map.mp hx
      obtain ⟨g, hg, rfl⟩ := List.mem_map.mp hy
      rw [hnow g hg]
      exact UInt64.le_of_lt (hk.past f hf)
  · rw [hp.length_eq, List.length_append]
    omega

/-- The loop of `tick` returns, and keeps what relates the armings to the wheel. -/
theorem tickLoop_kept (t : UInt64) (ht : Timed w lists pending) (hk : Kept as w pending) :
    ∃ w' lists' pending', (∀ walk fuel, pending.length ≤ walk →
        t.toNat - w.currentTick.toNat ≤ fuel → tickLoop true walk t fuel w = some w') ∧
      Timed w' lists' pending' ∧ Kept as w' pending' ∧ t ≤ w'.currentTick := by
  generalize hk' : t.toNat - w.currentTick.toNat = k
  induction k generalizing w lists pending with
  | zero =>
    have hge : ¬ w.currentTick < t := by
      rw [UInt64.lt_iff_toNat_lt]
      omega
    refine ⟨w, lists, pending, ?_, ht, hk, UInt64.not_lt.mp hge⟩
    rintro walk (_ | fuel) _ _ <;> rw [tickLoop, if_neg hge]
  | succ k ih =>
    have hlt : w.currentTick < t := by
      rw [UInt64.lt_iff_toNat_lt]
      omega
    have htop := t.toNat_lt
    obtain ⟨w₁, lists₁, pending₁, hw₁, ht₁, hk₁, hlen, htick⟩ :=
      tickBody_kept ht hk (by omega)
    obtain ⟨w', lists', pending', hw', hend⟩ := ih ht₁ hk₁ (by omega)
    refine ⟨w', lists', pending', ?_, hend⟩
    rintro walk (_ | fuel) hwalk hfuel
    · omega
    · rw [tickLoop, if_pos hlt, hw₁ walk hwalk, Option.bind_eq_bind, Option.bind_some]
      exact hw' walk fuel (by omega) (by omega)

/-- `tick` returns from every wheel in use, with the tick at the time it was given or later. -/
theorem tick_total (t : UInt64) (ht : Timed w lists pending) (hk : Kept as w pending) :
    ∃ w' lists' pending', wheelStep w (.tick t) w' ∧ Timed w' lists' pending' ∧
      Kept as w' pending' ∧ t ≤ w'.currentTick := by
  obtain ⟨w', lists', pending', hw', hend⟩ := tickLoop_kept t ht hk
  refine ⟨w', lists', pending', ⟨pending.length + t.toNat, fun fuel hfuel => ?_⟩, hend⟩
  exact hw' fuel fuel (by omega) (by omega)

/-- What every call keeps: the armings of the calls so far are those that the wheel keeps. -/
def InUse (ops : List (WheelOp ν η)) (w : TimeWheel ν η) : Prop :=
  ∃ lists pending, Timed w lists pending ∧ Kept (armings ops) w pending

/-- The step lemma of the runs. -/
theorem InUse.step {ops : List (WheelOp ν η)} {w w' : TimeWheel ν η} {op : WheelOp ν η}
    (h : InUse ops w) (hstep : wheelStep w op w') : InUse (ops ++ [op]) w' := by
  obtain ⟨lists, pending, ht, hk⟩ := h
  have harm : armings (ops ++ [op]) = record (armings ops) op := by
    rw [armings, List.foldl_append]
    rfl
  unfold InUse
  rw [harm]
  cases op with
  | addTimer n e h =>
    obtain ⟨hn, he, rfl⟩ := hstep
    rw [ht.isLinked_iff] at hn
    obtain ⟨lists', ht'⟩ := arm_timed (h := h) ht hn he
    exact ⟨lists', n :: pending, ht', arm_kept hk hn⟩
  | removeTimer n =>
    obtain ⟨hn, rfl⟩ := hstep
    rw [ht.isLinked_iff] at hn
    obtain ⟨lists', ht'⟩ := removeTimer_timed ht hn
    exact ⟨lists', pending.erase n, ht', removeTimer_kept ht hk hn⟩
  | tick t =>
    obtain ⟨w'', lists', pending', ⟨N, hN⟩, ht', hk', -⟩ := tick_total t ht hk
    obtain ⟨M, hM⟩ := hstep
    obtain rfl : w' = w'' := Option.some.inj
      ((hM (N + M) (by omega)).symm.trans (hN (N + M) (by omega)))
    exact ⟨lists', pending', ht', hk'⟩

omit [DecidableEq ν] in
/-- An empty wheel has no lists. -/
theorem empty_timed (expiresAt : ν → UInt64) (handle : ν → η) :
    Timed (empty expiresAt handle) (fun _ => []) [] := by
  refine ⟨⟨?_, ?_, ?_, ?_, ?_⟩, ?_, List.nodup_nil, ?_⟩ <;> simp [empty, Back, InLists]

/-- An empty wheel has nothing armed. -/
theorem empty_kept (expiresAt : ν → UInt64) (handle : ν → η) :
    Kept [] (empty expiresAt handle) [] := by
  refine ⟨?_, ?_, ?_, ?_⟩ <;> simp [empty, kept]

/-- The run lemma: a wheel that calls lead to from an empty one is in use. -/
theorem run_inUse (expiresAt : ν → UInt64) (handle : ν → η)
    {l : List (WheelOp ν η × TimeWheel ν η)}
    (hl : Path wheelStep (empty expiresAt handle) l) :
    InUse (l.map Prod.fst) (last (empty expiresAt handle) l) :=
  Path.history (fun _ _ _ _ h hs => h.step hs) []
    ⟨_, _, empty_timed expiresAt handle, empty_kept expiresAt handle⟩ hl

end TimeWheel

open TimeWheel

/-- Exact firing. In every run from an empty wheel, the calls of `schedule` made so far are those
of the armings not removed that expire before the current tick, each one once and in the iteration
whose current tick is its expiry. They are in the order of the expiries, and `tick` always returns,
at a tick that is not before its argument. -/
theorem timers_fire_exactly {ν η : Type*} [DecidableEq ν] (expiresAt : ν → UInt64)
    (handle : ν → η) (l : List (WheelOp ν η × TimeWheel ν η))
    (hl : Path wheelStep (empty expiresAt handle) l) :
    let w := last (empty expiresAt handle) l
    let due := (kept (armings (l.map Prod.fst))).filter fun a => a.expiresAt < w.currentTick
    w.fired.Perm (due.map Arming.firing) ∧ (w.fired.map Firing.tick).Pairwise (· ≤ ·) ∧
      ∀ t, ∃ w', wheelStep w (.tick t) w' ∧ t ≤ w'.currentTick := by
  obtain ⟨lists, pending, ht, hk⟩ := run_inUse expiresAt handle hl
  refine ⟨?_, hk.sorted, fun t => ?_⟩
  · set w := last (empty expiresAt handle) l
    -- Filtering by the tick keeps what fired and drops what is pending.
    have hp := hk.perm.filter fun f => f.tick < w.currentTick
    have hpast : w.fired.filter (fun f => f.tick < w.currentTick) = w.fired :=
      List.filter_eq_self.mpr fun f hf => decide_eq_true (hk.past f hf)
    have hfuture : (pending.map w.firing).filter (fun f => f.tick < w.currentTick) = [] := by
      rw [List.filter_eq_nil_iff]
      intro f hf
      obtain ⟨n, hn, rfl⟩ := List.mem_map.mp hf
      rw [decide_eq_true_iff, UInt64.not_lt]
      exact ht.le hn
    rw [List.filter_append, hpast, hfuture, List.append_nil, List.filter_map] at hp
    exact hp.symm
  · obtain ⟨w', -, -, hw', -, -, htime⟩ := tick_total t ht hk
    exact ⟨w', hw', htime⟩

/-- A timer is armed at a distance of more than a level, removed, and armed again: it fires once. -/
theorem timers_fire_exactly_rearmed :
    ∃ l : List (WheelOp ℕ ℕ × TimeWheel ℕ ℕ),
      Path wheelStep (empty (fun _ => 0) (fun _ => 0)) l ∧
      l.map Prod.fst = [.addTimer 0 300 7, .removeTimer 0, .addTimer 0 300 8, .tick 301] ∧
      (last (empty (fun _ => 0) (fun _ => 0)) l).fired.Perm [⟨0, 8, 300⟩] := by
  set w₀ : TimeWheel ℕ ℕ := empty (fun _ => 0) (fun _ => 0) with hw₀
  have ht₀ : Timed w₀ _ [] := empty_timed _ _
  have hk₀ : Kept [] w₀ [] := empty_kept _ _
  have hc₀ : w₀.currentTick ≤ 300 := by
    rw [hw₀, empty]
    decide
  obtain ⟨_, ht₁⟩ := arm_timed (e := 300) (h := 7) ht₀ (List.not_mem_nil (a := 0)) hc₀
  have hk₁ := arm_kept (e := 300) (h := 7) hk₀ (List.not_mem_nil (a := 0))
  -- The timer is armed, removed, and armed again for the same tick.
  set w₁ := w₀.arm 0 300 7 with hw₁
  obtain ⟨_, ht₂⟩ := removeTimer_timed ht₁ (List.mem_singleton_self 0)
  have hk₂ := removeTimer_kept ht₁ hk₁ (List.mem_singleton_self 0)
  set w₂ := w₁.removeTimer 0 with hw₂
  have hc₂ : w₂.currentTick ≤ 300 := by
    rw [hw₂, (removeTimer_currentTick w₁ 0).1, hw₁, (arm_currentTick w₀ 0 300 7).1]
    exact hc₀
  obtain ⟨_, ht₃⟩ := arm_timed (e := 300) (h := 8) ht₂ (List.not_mem_nil (a := 0)) hc₂
  have hk₃ := arm_kept (e := 300) (h := 8) hk₂ (List.not_mem_nil (a := 0))
  set w₃ := w₂.arm 0 300 8 with hw₃
  obtain ⟨w₄, _, _, hw₄, _, _, htime⟩ := tick_total 301 ht₃ hk₃
  have hl : Path wheelStep w₀ [(.addTimer 0 300 7, w₁), (.removeTimer 0, w₂),
      (.addTimer 0 300 8, w₃), (.tick 301, w₄)] := by
    refine ⟨⟨?_, hc₀, rfl⟩, ⟨?_, rfl⟩, ⟨?_, hc₂, rfl⟩, hw₄, trivial⟩
    · rw [ht₀.isLinked_iff]
      exact List.not_mem_nil
    · rw [ht₁.isLinked_iff]
      exact List.mem_singleton_self 0
    · rw [ht₂.isLinked_iff]
      exact List.not_mem_nil
  refine ⟨_, hl, rfl, ?_⟩
  have hfire := (timers_fire_exactly _ _ _ hl).1
  have hpast : 300 < w₄.currentTick := UInt64.lt_of_lt_of_le (by decide) htime
  simpa [armings, record, markRemoved, kept, last, Arming.firing, hpast] using hfire

end Novaio
