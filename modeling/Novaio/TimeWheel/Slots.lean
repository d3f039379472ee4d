import Mathlib.Algebra.Group.Nat.Defs
import Mathlib.Data.Nat.Basic
import Mathlib.Tactic.Tauto
import Novaio.TimeWheel.Basic

/-!
# Where the timers are

A timer that is due at `e` is, at the tick `c`, either in the slot `e % 256` of `tv1_`, less than
256 ticks away, or in one of the other arrays, which hold the timers by a digit of `e`. Let the
boundary of `e` in such an array be the last tick up to `e` at which the array's slot of `e` is
cascaded. A timer stays in the array until its boundary, so the boundary is never behind the
current tick (`Placed`).

A timer is due at `dueTick`, which is its expiry unless that is behind the current tick.
`slotFor_placed` says that `add_timer` selects a slot where the timer can be, at every distance.
`cascade_placed` is the step of the argument: cascading the current slot of an array leaves no timer
of that array on its boundary. After all cascades of a tick, the timers due are those of one slot of
`tv1_` (`mem_due_iff`).
-/

namespace Novaio

/-- The number of low bits of an expiry that an array's index leaves out. -/
def Tv.bits : Tv → ℕ
  | tv2 => 8
  | tv3 => 14
  | tv4 => 20
  | tv5 => 26

/-- The last tick up to `e` at which the array cascades the slot of `e`. -/
def Tv.boundary (tv : Tv) (e : ℕ) : ℕ := e / 2 ^ tv.bits * 2 ^ tv.bits

/-- A timer that is due at `e` can be in the slot at the tick `c`. The arrays with `due` may still
hold timers whose boundary is `c` itself, as they do between ticks. -/
def Placed (due : Tv → Prop) (c e : ℕ) : Slot → Prop
  | .tv1 i => i.val = e % 256 ∧ c ≤ e ∧ e < c + 256
  | .tvn tv i => i.val = e / 2 ^ tv.bits % 64 ∧ c ≤ tv.boundary e ∧ 0 < tv.boundary e ∧
      (c = tv.boundary e → due tv)

/-- The boundary is not past the expiry, and less than an index step before it. -/
theorem Tv.boundary_le (tv : Tv) (e : ℕ) :
    tv.boundary e ≤ e ∧ e < tv.boundary e + 2 ^ tv.bits := by
  unfold boundary
  have h := Nat.div_add_mod e (2 ^ tv.bits)
  have hlt := Nat.mod_lt e (Nat.two_pow_pos tv.bits)
  rw [Nat.mul_comm] at h
  omega

/-- A placed timer has not expired before the tick. -/
theorem Placed.le {due : Tv → Prop} {c e : ℕ} {s : Slot} (h : Placed due c e s) : c ≤ e := by
  cases s with
  | tv1 i => exact h.2.1
  | tvn tv i => exact Nat.le_trans h.2.1 (tv.boundary_le e).1

/-- Fewer arrays with timers on their boundary is a stronger property. -/
theorem Placed.mono {due due' : Tv → Prop} {c e : ℕ} {s : Slot} (hd : ∀ tv, due tv → due' tv)
    (h : Placed due c e s) : Placed due' c e s := by
  cases s with
  | tv1 i => exact h
  | tvn tv i => exact ⟨h.1, h.2.1, h.2.2.1, fun hc => hd tv (h.2.2.2 hc)⟩

/-! ## The machine words -/

/-- `x & TVR_MASK` is the remainder by 256. -/
@[simp]
theorem tvrIndex_val (x : UInt64) : (tvrIndex x).val = x.toNat % 256 := by
  have h : tvrMask.toNat = 2 ^ 8 - 1 := by decide
  simp only [tvrIndex, UInt64.toNat_and]
  rw [h, Nat.and_two_pow_sub_one_eq_mod]

/-- `x & TVN_MASK` is the remainder by 64. -/
@[simp]
theorem tvnIndex_val (x : UInt64) : (tvnIndex x).val = x.toNat % 64 := by
  have h : tvnMask.toNat = 2 ^ 6 - 1 := by decide
  simp only [tvnIndex, UInt64.toNat_and]
  rw [h, Nat.and_two_pow_sub_one_eq_mod]

/-- The shift that goes with an array's index. -/
def Tv.shift : Tv → UInt64
  | tv2 => tvrBits
  | tv3 => tvrBits + tvnBits
  | tv4 => tvrBits + 2 * tvnBits
  | tv5 => tvrBits + 3 * tvnBits

/-- The index of a tick in an array is a digit of the tick. -/
theorem tvnIndex_shift (tv : Tv) (x : UInt64) :
    (tvnIndex (x >>> tv.shift)).val = x.toNat / 2 ^ tv.bits % 64 := by
  have h : tv.shift.toNat % 64 = tv.bits := by cases tv <;> rfl
  rw [tvnIndex_val, UInt64.toNat_shiftRight, h, Nat.shiftRight_eq_div_pow]

/-! ## When a timer is due -/

/-- The tick at which a timer that is in use at the tick `c` is due: the first one from `c` on whose
low 64 bits are the timer's expiry. -/
def dueTick (expires c : UInt64) : ℕ := c.toNat + (expires - c).toNat

/-- A timer is due at its expiry, or at the same place of the next round of the 64-bit ticks where
its expiry is behind. -/
theorem dueTick_cases (expires c : UInt64) :
    c ≤ expires ∧ dueTick expires c = expires.toNat ∨
      expires < c ∧ dueTick expires c = expires.toNat + 2 ^ 64 := by
  have he := expires.toNat_lt
  have hc := c.toNat_lt
  unfold dueTick
  rw [UInt64.toNat_sub, UInt64.le_iff_toNat_le, UInt64.lt_iff_toNat_lt]
  omega

/-- A timer whose expiry is not behind is due at its expiry. -/
theorem dueTick_of_le {expires c : UInt64} (h : c ≤ expires) :
    dueTick expires c = expires.toNat := by
  rcases dueTick_cases expires c with ⟨-, hdue⟩ | ⟨hlt, -⟩
  · exact hdue
  · exact (UInt64.not_lt.mpr h hlt).elim

/-- A timer is not due before the current tick. -/
theorem le_dueTick (expires c : UInt64) : c.toNat ≤ dueTick expires c := Nat.le_add_right _ _

/-- A timer is due at the current tick if that is its expiry. -/
theorem dueTick_eq_iff {expires c : UInt64} : dueTick expires c = c.toNat ↔ expires = c := by
  rw [← UInt64.toNat_inj]
  have hc := c.toNat_lt
  rcases dueTick_cases expires c with ⟨-, hdue⟩ | ⟨hlt, hdue⟩
  · omega
  · rw [UInt64.lt_iff_toNat_lt] at hlt
    omega

/-- A timer that is not due stays due at the same tick. -/
theorem dueTick_succ {expires c c' : UInt64} (hc : c'.toNat = c.toNat + 1) (hne : expires ≠ c) :
    dueTick expires c' = dueTick expires c := by
  rw [Ne, ← UInt64.toNat_inj] at hne
  rcases dueTick_cases expires c with ⟨hle, hdue⟩ | ⟨hlt, hdue⟩ <;>
  rcases dueTick_cases expires c' with ⟨hle', hdue'⟩ | ⟨hlt', hdue'⟩ <;>
  simp only [UInt64.le_iff_toNat_le, UInt64.lt_iff_toNat_lt] at * <;>
  omega

/-- `add_timer` selects a slot in which the timer can be, past every boundary, for every expiry. -/
theorem slotFor_placed (expires currentTick : UInt64) :
    Placed (fun _ => False) currentTick.toNat (dueTick expires currentTick)
      (TimeWheel.slotFor expires currentTick) := by
  have hidx : (expires - currentTick).toNat = dueTick expires currentTick - currentTick.toNat :=
    (Nat.add_sub_cancel_left ..).symm
  have hle := le_dueTick expires currentTick
  -- The digits of the expiry are those of the tick at which the timer is due.
  have hlow : expires.toNat % 256 = dueTick expires currentTick % 256 := by
    rcases dueTick_cases expires currentTick with ⟨-, hdue⟩ | ⟨-, hdue⟩ <;> omega
  have hdigit : ∀ tv : Tv, expires.toNat / 2 ^ tv.bits % 64 =
      dueTick expires currentTick / 2 ^ tv.bits % 64 := by
    intro tv
    rcases dueTick_cases expires currentTick with ⟨-, hdue⟩ | ⟨-, hdue⟩
    · rw [hdue]
    · cases tv <;> simp only [Tv.bits] <;> omega
  -- A timer at least an index step away has its boundary ahead.
  have htvn : ∀ tv : Tv, 2 ^ tv.bits ≤ dueTick expires currentTick - currentTick.toNat →
      Placed (fun _ => False) currentTick.toNat (dueTick expires currentTick)
        (.tvn tv (tvnIndex (expires >>> tv.shift))) := by
    intro tv hfar
    have hb := tv.boundary_le (dueTick expires currentTick)
    exact ⟨(tvnIndex_shift tv expires).trans (hdigit tv), by omega, by omega, fun hc => by omega⟩
  unfold TimeWheel.slotFor
  simp only [UInt64.lt_iff_toNat_lt, hidx]
  have h2 : ((1 : UInt64) <<< (tvrBits + tvnBits)).toNat = 2 ^ 14 := by decide
  have h3 : ((1 : UInt64) <<< (tvrBits + 2 * tvnBits)).toNat = 2 ^ 20 := by decide
  have h4 : ((1 : UInt64) <<< (tvrBits + 3 * tvnBits)).toNat = 2 ^ 26 := by decide
  rw [h2, h3, h4]
  have h1 : tvrSize.toNat = 2 ^ 8 := by decide
  rw [h1]
  split_ifs with hc1 hc2 hc3 hc4
  · exact ⟨(tvrIndex_val expires).trans hlow, hle, by omega⟩
  · exact htvn .tv2 (by simp only [Tv.bits]; omega)
  · exact htvn .tv3 (by simp only [Tv.bits]; omega)
  · exact htvn .tv4 (by simp only [Tv.bits]; omega)
  · exact htvn .tv5 (by simp only [Tv.bits]; omega)

/-! ## The lists of the slots -/

section Lists

variable {ν : Type*} {expires : ν → UInt64} {c : UInt64} {lists : Slot → List ν} {m n : ν}

/-- The node is in one of the lists. -/
def InLists (lists : Slot → List ν) (n : ν) : Prop := ∃ s, n ∈ lists s

/-- The lists after the node is pushed in front of the list of its slot. -/
def place (expires : ν → UInt64) (c : UInt64) (lists : Slot → List ν) (n : ν) : Slot → List ν :=
  let s := TimeWheel.slotFor (expires n) c
  Function.update lists s (n :: lists s)

/-- The lists after nodes are pushed in turn. -/
def placeAll (expires : ν → UInt64) (c : UInt64) (lists : Slot → List ν) (l : List ν) :
    Slot → List ν :=
  l.foldl (place expires c) lists

/-- The lists after a slot is cascaded. -/
def cascadeLists (expires : ν → UInt64) (c : UInt64) (lists : Slot → List ν) (s : Slot) :
    Slot → List ν :=
  placeAll expires c (Function.update lists s []) (lists s)

/-- What is in a list after a push. -/
theorem mem_place {s : Slot} :
    m ∈ place expires c lists n s ↔
      m ∈ lists s ∨ m = n ∧ s = TimeWheel.slotFor (expires n) c := by
  unfold place
  rcases eq_or_ne s (TimeWheel.slotFor (expires n) c) with rfl | h
  · rw [Function.update_self, List.mem_cons]
    tauto
  · rw [Function.update_of_ne h]
    tauto

/-- What is in a list after nodes are pushed in turn. -/
theorem mem_placeAll {s : Slot} {l : List ν} :
    m ∈ placeAll expires c lists l s ↔
      m ∈ lists s ∨ m ∈ l ∧ s = TimeWheel.slotFor (expires m) c := by
  unfold placeAll
  induction l generalizing lists with
  | nil => simp
  | cons x l ih =>
    rw [List.foldl_cons, ih, mem_place, List.mem_cons]
    constructor
    · rintro ((h | ⟨rfl, h⟩) | h)
      · exact .inl h
      · exact .inr ⟨.inl rfl, h⟩
      · exact .inr ⟨.inr h.1, h.2⟩
    · rintro (h | ⟨rfl | h, hs⟩)
      · exact .inl (.inl h)
      · exact .inl (.inr ⟨rfl, hs⟩)
      · exact .inr ⟨h, hs⟩

/-- What is in a list after a slot is cascaded. -/
theorem mem_cascadeLists {s t : Slot} :
    m ∈ cascadeLists expires c lists t s ↔
      m ∈ lists s ∧ s ≠ t ∨ m ∈ lists t ∧ s = TimeWheel.slotFor (expires m) c := by
  unfold cascadeLists
  rw [mem_placeAll]
  rcases eq_or_ne s t with rfl | h
  · simp
  · simp [h]

/-- A cascade neither adds nor drops a node. -/
theorem inLists_cascadeLists {t : Slot} :
    InLists (cascadeLists expires c lists t) m ↔ InLists lists m := by
  simp only [InLists, mem_cascadeLists]
  constructor
  · rintro ⟨s, h | h⟩
    · exact ⟨s, h.1⟩
    · exact ⟨t, h.1⟩
  · rintro ⟨s, h⟩
    rcases eq_or_ne s t with rfl | hne
    · exact ⟨_, .inr ⟨h, rfl⟩⟩
    · exact ⟨s, .inl ⟨h, hne⟩⟩

/-- The step of a cascade: where the current tick is a boundary of the array, cascading its slot
leaves no timer of the array on its boundary, and moves the timers of the slot to slots where they
can be. -/
theorem cascade_placed {due : Tv → Prop} {tv : Tv} {i : Fin 64}
    (hp : ∀ s, ∀ n ∈ lists s, Placed due c.toNat (dueTick (expires n) c) s)
    (hi : i.val = c.toNat / 2 ^ tv.bits % 64) :
    ∀ s, ∀ n ∈ cascadeLists expires c lists (.tvn tv i) s,
      Placed (fun t => due t ∧ t ≠ tv) c.toNat (dueTick (expires n) c) s := by
  intro s n hn
  rcases mem_cascadeLists.mp hn with ⟨hs, hne⟩ | ⟨hs, rfl⟩
  · have h := hp s n hs
    cases s with
    | tv1 j => exact h
    | tvn t j =>
      refine ⟨h.1, h.2.1, h.2.2.1, fun hc => ⟨h.2.2.2 hc, ?_⟩⟩
      -- A timer of the array on its boundary is in the slot cascaded.
      rintro rfl
      apply hne
      congr 1
      apply Fin.ext
      rw [h.1, hi, hc, Tv.boundary, Nat.mul_div_cancel _ (Nat.two_pow_pos _)]
  · exact (slotFor_placed (expires n) c).mono fun _ h => h.elim

/-- After the cascades of a tick, the timers that are due are those of the tick's slot of
`tv1_`. -/
theorem mem_due_iff
    (hp : ∀ s, ∀ n ∈ lists s, Placed (fun _ => False) c.toNat (dueTick (expires n) c) s) :
    m ∈ lists (.tv1 (tvrIndex c)) ↔ InLists lists m ∧ expires m = c := by
  rw [← dueTick_eq_iff]
  constructor
  · intro hm
    refine ⟨⟨_, hm⟩, ?_⟩
    obtain ⟨hi, hle, hlt⟩ := hp _ m hm
    rw [tvrIndex_val] at hi
    omega
  · rintro ⟨⟨s, hs⟩, hdue⟩
    have h := hp s m hs
    rw [hdue] at h
    cases s with
    | tv1 j =>
      have hj : j = tvrIndex c := Fin.ext (by rw [h.1, tvrIndex_val])
      rwa [← hj]
    | tvn tv j =>
      have hb := tv.boundary_le c.toNat
      exact (h.2.2.2 (by have := h.2.1; omega)).elim

/-- The timers that are not due at a tick are where they can be at the next one. -/
theorem placed_succ {s : Slot} {e : ℕ} (h : Placed (fun _ => False) c.toNat e s)
    (hne : e ≠ c.toNat) : Placed (fun _ => True) (c.toNat + 1) e s := by
  cases s with
  | tv1 i =>
    obtain ⟨hi, hle, hlt⟩ := h
    exact ⟨hi, by omega, by omega⟩
  | tvn tv i =>
    obtain ⟨hi, hle, hpos, hc⟩ := h
    have hne' : c.toNat ≠ tv.boundary e := fun e => hc e
    exact ⟨hi, by omega, hpos, fun _ => trivial⟩

/-- Where the current tick is no boundary of an array, or is 0, no timer of the array is on its
boundary. -/
theorem placed_of_not_boundary {due : Tv → Prop} {e : ℕ} {s : Slot}
    (h : Placed due c.toNat e s) :
    Placed (fun tv => due tv ∧ c.toNat % 2 ^ tv.bits = 0 ∧ 0 < c.toNat) c.toNat e s := by
  cases s with
  | tv1 i => exact h
  | tvn tv i =>
    refine ⟨h.1, h.2.1, h.2.2.1, fun hc => ⟨h.2.2.2 hc, ?_, ?_⟩⟩
    · rw [hc, Tv.boundary, Nat.mul_mod_left]
    · rw [hc]
      exact h.2.2.1

end Lists

end Novaio
