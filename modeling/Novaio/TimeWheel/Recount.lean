import Novaio.TimeWheel.Calls
import Novaio.TimeWheel.Idle

/-!
# Timers that are counted again

A cascade moves the timers of its slot by calls of `add_timer`, which counts each of them again.
Where the count has room for them whenever `tick` calls `cascade` (`Fits`), it does not go down
(`Wound.le_activeTimers`), and so it stays above the number of the pending timers.
-/

namespace Novaio

open Linked

namespace TimeWheel

variable {ν η : Type*} [DecidableEq ν] {w w' : TimeWheel ν η} {lists : Slot → List ν}
  {pending : List ν} {fuel fuel' walk walk' : ℕ} {curr : Option ν} {current : Bool} {t : UInt64}

/-! ## Bounds on the loops -/

/-- A greater bound leads to the same result of the loop of `cascade`. -/
theorem cascadeLoop_mono (hle : fuel ≤ fuel') (h : cascadeLoop fuel w curr = some w') :
    cascadeLoop fuel' w curr = some w' := by
  induction fuel generalizing w curr fuel' with
  | zero =>
    cases curr with
    | none => rwa [cascadeLoop_none] at h ⊢
    | some n => simp [cascadeLoop] at h
  | succ fuel ih =>
    obtain ⟨fuel', rfl⟩ := Nat.exists_eq_succ_of_ne_zero (show fuel' ≠ 0 by omega)
    cases curr with
    | none => rwa [cascadeLoop_none] at h ⊢
    | some n => exact ih (w := w.addTimer n) (by omega) h

/-- A greater bound leads to the same result of the loop over the slot that is due. -/
theorem fireLoop_mono (hle : fuel ≤ fuel') (h : fireLoop current fuel w curr = some w') :
    fireLoop current fuel' w curr = some w' := by
  induction fuel generalizing w curr fuel' with
  | zero =>
    cases curr with
    | none => rwa [fireLoop_none] at h ⊢
    | some n => simp [fireLoop] at h
  | succ fuel ih =>
    obtain ⟨fuel', rfl⟩ := Nat.exists_eq_succ_of_ne_zero (show fuel' ≠ 0 by omega)
    cases curr with
    | none => rwa [fireLoop_none] at h ⊢
    | some n =>
      rw [fireLoop] at h ⊢
      exact ih (by omega) h

/-- A greater bound leads to the same result of calls of `cascade` in turn. -/
theorem cascadeAll_mono {tvs : List Tv} (hle : fuel ≤ fuel')
    (h : w.cascadeAll fuel tvs = some w') : w.cascadeAll fuel' tvs = some w' := by
  induction tvs generalizing w with
  | nil => exact h
  | cons tv tvs ih =>
    obtain ⟨w₁, hw₁, h⟩ := Option.bind_eq_some_iff.mp h
    have hcascade : w.cascade fuel' tv (tvnIndex (w.currentTick >>> tv.shift)) = some w₁ :=
      cascadeLoop_mono hle hw₁
    rw [cascadeAll, hcascade, Option.bind_some]
    split_ifs at h ⊢
    · exact ih h
    · exact h

/-- A greater bound leads to the same result of the cascades. -/
theorem cascades_mono (hle : fuel ≤ fuel') (h : w.cascades fuel = some w') :
    w.cascades fuel' = some w' := by
  rw [cascades_eq] at h ⊢
  split_ifs at h ⊢
  · exact cascadeAll_mono hle h
  · exact h

/-- A greater bound leads to the same result of an iteration of `tick`. -/
theorem tickBody_mono (hle : fuel ≤ fuel') (h : w.tickBody current fuel = some w') :
    w.tickBody current fuel' = some w' := by
  obtain ⟨w₁, hw₁, h⟩ := Option.bind_eq_some_iff.mp h
  obtain ⟨w₂, hw₂, h⟩ := Option.bind_eq_some_iff.mp h
  rw [tickBody]
  dsimp only
  rw [cascades_mono hle hw₁, Option.bind_eq_bind, Option.bind_some, fireLoop_mono hle hw₂,
    Option.bind_some]
  exact h

/-- Greater bounds lead to the same result of the loop of `tick`. -/
theorem tickLoop_mono (hwalk : walk ≤ walk') (hle : fuel ≤ fuel')
    (h : tickLoop current walk t fuel w = some w') :
    tickLoop current walk' t fuel' w = some w' := by
  induction fuel generalizing w fuel' with
  | zero =>
    obtain ⟨hge, h⟩ := Option.ite_none_left_eq_some.mp h
    cases fuel' <;> rw [tickLoop, if_neg hge, h]
  | succ fuel ih =>
    obtain ⟨fuel', rfl⟩ := Nat.exists_eq_succ_of_ne_zero (show fuel' ≠ 0 by omega)
    rw [tickLoop] at h ⊢
    split_ifs at h ⊢ with hlt
    · obtain ⟨w₁, hw₁, h⟩ := Option.bind_eq_some_iff.mp h
      rw [tickBody_mono hwalk hw₁, Option.bind_eq_bind, Option.bind_some]
      exact ih (by omega) h
    · exact h

/-- A call of `tick` that returns is one with all greater bounds. -/
theorem wheelCall_of_tick (h : w.tick true fuel t = some w') : wheelCall w (.tick t) w' :=
  ⟨fuel, fun _ hle => tickLoop_mono hle hle h⟩

/-- A call of `tick` with the current tick does nothing. -/
theorem wheelCall_tick_self (w : TimeWheel ν η) : wheelCall w (.tick w.currentTick) w := by
  refine ⟨0, fun fuel _ => ?_⟩
  cases fuel <;> rw [tick, tickLoop, if_neg (by simp)]

/-- A call of `tick` is an iteration, followed by a call from there. -/
theorem wheelCall_of_tickBody {w₁ v : TimeWheel ν η} (hw₁ : w.tickBody true walk = some w₁)
    (hlt : w.currentTick < t) (hv : wheelCall w₁ (.tick t) v) : wheelCall w (.tick t) v := by
  obtain ⟨enough, hv⟩ := hv
  refine ⟨walk + enough + 1, fun fuel hfuel => ?_⟩
  obtain ⟨fuel, rfl⟩ := Nat.exists_eq_succ_of_ne_zero (show fuel ≠ 0 by omega)
  rw [tick, tickLoop, if_pos hlt, tickBody_mono (by omega) hw₁, Option.bind_eq_bind,
    Option.bind_some]
  exact tickLoop_mono (Nat.le_succ fuel) (le_refl fuel) (hv fuel (by omega))

/-! ## The count -/

/-- There is room in the count for the timers of a slot. -/
def HasRoom (w : TimeWheel ν η) (s : Slot) : Prop :=
  ∀ l, Chain (fun n => (w.nodes n).next) (w.heads s) l → w.activeTimers.toNat + l.length < 2 ^ 64

/-- There is room in the count whenever `cascade` is called for these arrays, one after the other as
long as the index is 0. -/
def CascadesFit : List Tv → TimeWheel ν η → Prop
  | [], _ => True
  | tv :: tvs, w =>
    let i := tvnIndex (w.currentTick >>> tv.shift)
    w.HasRoom (.tvn tv i) ∧
      (i = 0 → ∀ fuel w', w.cascade fuel tv i = some w' → CascadesFit tvs w')

/-- There is room in the count whenever `tick` with the time `t` calls `cascade`. -/
def Fits (w : TimeWheel ν η) (t : UInt64) : Prop :=
  ∀ c v, w.currentTick ≤ c → c < t → wheelCall w (.tick c) v → (tvrIndex c).val = 0 → 0 < c →
    CascadesFit [.tv2, .tv3, .tv4, .tv5] v

/-- The loop of `cascade` counts every node that it walks. -/
theorem cascadeLoop_activeTimers {l : List ν}
    (hc : Chain (fun n => (w.nodes n).next) curr l)
    (hroom : w.activeTimers.toNat + l.length < 2 ^ 64)
    (h : cascadeLoop fuel w curr = some w') :
    w'.activeTimers.toNat = w.activeTimers.toNat + l.length := by
  induction l generalizing w curr fuel with
  | nil =>
    obtain rfl := chain_nil.mp hc
    rw [cascadeLoop_none] at h
    rw [Option.some.inj h, List.length_nil, Nat.add_zero]
  | cons n l ih =>
    obtain ⟨hn, -⟩ := List.nodup_cons.mp hc.nodup
    obtain ⟨rfl, hc⟩ := hc
    cases fuel with
    | zero => simp [cascadeLoop] at h
    | succ fuel =>
      have hwalk := addTimer_chain hc hn
      rw [List.length_cons] at hroom ⊢
      have hone : (w.addTimer n).activeTimers.toNat = w.activeTimers.toNat + 1 := by
        rw [(addTimer_heads w n).2.2.1, UInt64.toNat_add, UInt64.toNat_one,
          Nat.mod_eq_of_lt (by omega)]
      rw [ih hwalk (by omega) h]
      omega

/-- A call of `cascade` for which there is room moves the nodes of its slot and counts them. -/
theorem Rep.cascade (hrep : Rep w lists []) {tv : Tv} {i : Fin 64} (hroom : w.HasRoom (.tvn tv i))
    (h : w.cascade fuel tv i = some w') :
    Rep w' (cascadeLists w.expiries w.currentTick lists (.tvn tv i)) [] ∧
      w.activeTimers.toNat ≤ w'.activeTimers.toNat := by
  obtain ⟨w'', hw'', hrep', -⟩ := rep_cascade hrep tv i
  have hmore := hw'' (fuel + (lists (.tvn tv i)).length) (by omega)
  rw [TimeWheel.cascade, cascadeLoop_mono (by omega) h] at hmore
  obtain rfl := Option.some.inj hmore
  have hchain := hrep.chain (.tvn tv i)
  have hcount := cascadeLoop_activeTimers (w := w.setHead (.tvn tv i) none) hchain
    (hroom _ hchain) h
  rw [setHead_activeTimers] at hcount
  exact ⟨hrep', by omega⟩

/-- Calls of `cascade` for which there is room do not bring the count down. -/
theorem Rep.le_cascadeAll (hrep : Rep w lists []) {tvs : List Tv} (hfit : CascadesFit tvs w)
    (h : w.cascadeAll fuel tvs = some w') : w.activeTimers.toNat ≤ w'.activeTimers.toNat := by
  induction tvs generalizing w lists with
  | nil => exact Option.some.inj h ▸ le_refl _
  | cons tv tvs ih =>
    obtain ⟨hroom, hfit⟩ := hfit
    obtain ⟨w₁, hw₁, h⟩ := Option.bind_eq_some_iff.mp h
    obtain ⟨hrep₁, hle₁⟩ := hrep.cascade hroom hw₁
    split_ifs at h with hz
    · exact hle₁.trans (ih hrep₁ (hfit (Fin.val_eq_zero_iff.mp hz) _ _ hw₁) h)
    · exact Option.some.inj h ▸ hle₁

/-- The cascades for which there is room do not bring the count down. -/
theorem Rep.le_cascades (hrep : Rep w lists [])
    (hfit : tvrIndex w.currentTick = 0 ∧ 0 < w.currentTick →
      CascadesFit [.tv2, .tv3, .tv4, .tv5] w)
    (h : w.cascades fuel = some w') : w.activeTimers.toNat ≤ w'.activeTimers.toNat := by
  rw [cascades_eq] at h
  split_ifs at h with hb
  · exact hrep.le_cascadeAll (hfit hb) h
  · exact Option.some.inj h ▸ le_refl _

/-- The loop of `tick` does not bring the count down, where it has room. The induction is on the
number of ticks up to the time. -/
theorem Wound.le_tickLoop (h : Wound w lists pending) (hfit : w.Fits t)
    (hw : TimeWheel.tickLoop true walk t fuel w = some w') :
    w.activeTimers.toNat ≤ w'.activeTimers.toNat := by
  induction fuel generalizing w lists pending with
  | zero =>
    obtain ⟨-, hw⟩ := Option.ite_none_left_eq_some.mp hw
    exact Option.some.inj hw ▸ le_refl _
  | succ fuel ih =>
    rw [TimeWheel.tickLoop] at hw
    split_ifs at hw with hlt
    · obtain ⟨w₁, hw₁, hw⟩ := Option.bind_eq_some_iff.mp hw
      have htop := t.toNat_lt
      have hlt' := UInt64.lt_iff_toNat_lt.mp hlt
      obtain ⟨w₁', lists₁, -, pending₁, hall, h₁, -, -, -, -, -, -, htick⟩ := h.tickBody (by omega)
      have hmore := hall (walk + pending.length) (by omega)
      rw [tickBody_mono (by omega) hw₁] at hmore
      obtain rfl := Option.some.inj hmore
      -- The cascades of the iteration have room, and the slot that is due does not count.
      have hbody : w.activeTimers.toNat ≤ w₁.activeTimers.toNat := by
        obtain ⟨w₂, hw₂, hrest⟩ := Option.bind_eq_some_iff.mp hw₁
        obtain ⟨w₃, hw₃, hrest⟩ := Option.bind_eq_some_iff.mp hrest
        obtain rfl := Option.some.inj hrest
        have hle := h.rep.le_cascades (fun hb => hfit _ w (UInt64.le_refl _) hlt
          (wheelCall_tick_self w) (congrArg Fin.val hb.1) hb.2) hw₂
        have hfire := (fireLoop_frame hw₃).2.2
        rw [setHead_activeTimers] at hfire
        show _ ≤ w₃.activeTimers.toNat
        rwa [hfire]
      -- What the later iterations come to, they come to from here too.
      have hrest : w₁.Fits t := fun c v hc hct hv => by
        rw [UInt64.le_iff_toNat_le] at hc
        have hlt₁ : w.currentTick < c := UInt64.lt_iff_toNat_lt.mpr (by omega)
        exact hfit c v (UInt64.le_of_lt hlt₁) hct (wheelCall_of_tickBody hw₁ hlt₁ hv)
      exact hbody.trans (ih h₁ hrest hw)
    · exact Option.some.inj hw ▸ le_refl _

/-! ## A wheel whose count is high enough -/

/-- A wheel in use whose count is not below the number of the pending timers. -/
def Covered (w : TimeWheel ν η) : Prop :=
  ∃ lists pending, Wound w lists pending ∧ pending.length ≤ w.activeTimers.toNat

omit [DecidableEq ν] in
/-- Where the count is zero, no timer is pending. -/
theorem Covered.not_isLinked (h : w.Covered) (hcount : w.activeTimers = 0) (n : ν) :
    ¬ w.IsLinked n := by
  obtain ⟨lists, pending, hwound, hle⟩ := h
  rw [hcount, UInt64.toNat_zero, Nat.le_zero, List.length_eq_zero_iff] at hle
  rw [hwound.isLinked_iff, hle]
  exact List.not_mem_nil

omit [DecidableEq ν] in
/-- An empty wheel. -/
theorem empty_covered (expiresAt : ν → UInt64) (handle : ν → η) :
    (empty expiresAt handle).Covered :=
  ⟨_, [], empty_wound expiresAt handle, Nat.zero_le _⟩

/-- Arming a node that is not linked, where the count has room for it. -/
theorem Covered.arm (h : w.Covered) {n : ν} (hn : (w.nodes n).headPtr = none)
    (hroom : w.activeTimers ≠ -1) (expiresAt : UInt64) (handle : η) :
    (w.arm n expiresAt handle).Covered := by
  obtain ⟨lists, pending, hwound, hle⟩ := h
  have hnot : n ∉ pending := fun hmem => by
    obtain ⟨s, hs⟩ := (hwound.mem_iff n).mp hmem
    have hlinked := hwound.rep.headPtr s n hs
    simp [hn] at hlinked
  obtain ⟨lists', hwound'⟩ := hwound.arm hnot expiresAt handle
  refine ⟨lists', _, hwound', ?_⟩
  rw [arm_activeTimers hroom, List.length_cons]
  omega

/-- A call of `tick` that finds room in the count. -/
theorem Covered.tick (h : w.Covered) (hfit : w.Fits t) (hw : w.tick true fuel t = some w') :
    w'.Covered := by
  obtain ⟨lists, pending, hwound, hle⟩ := h
  obtain ⟨lists', due, pending', hwound', hticked⟩ := hwound.of_tick (wheelCall_of_tick hw)
  have hcount := hwound.le_tickLoop hfit hw
  have hlength := hticked.perm.length_eq
  rw [List.length_append] at hlength
  exact ⟨lists', pending', hwound', by omega⟩

end TimeWheel

end Novaio
