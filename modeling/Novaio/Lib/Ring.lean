import Mathlib.Data.List.Basic
import Mathlib.Data.Nat.ModEq
import Mathlib.Logic.Function.Basic

/-!
# Ring buffers

A ring buffer of `cap` slots addresses its slots by counters that only grow, each reduced modulo
`cap`. `window cap buf head n` reads the `n` positions from `head` on. Writing the slot of the
position that follows a window that is not full leaves the window as it is
(`window_update_fresh`), so that publishing the position appends the value (`window_push`).

The counters of a program wrap at some `W`. `count W head tail` is the number of positions between
two wrapped counters. Since a program's `W` is a multiple of its `cap`, a window does not change
when its start is reduced modulo `W` (`window_mod`).
-/

namespace Ring

variable {α : Type*}

/-- A capacity that is a power of two. -/
theorem exists_eq_two_pow_16 : ∃ k, 65536 = 2 ^ k := ⟨16, rfl⟩

/-- The values at the `n` positions from `head` on, in order. -/
def window (cap : ℕ) (buf : ℕ → α) (head n : ℕ) : List α :=
  (List.range n).map fun i => buf ((head + i) % cap)

/-- No slots are read. -/
@[simp]
theorem window_zero (cap : ℕ) (buf : ℕ → α) (head : ℕ) : window cap buf head 0 = [] := rfl

/-- As many slots are read as are asked for. -/
@[simp]
theorem length_window (cap : ℕ) (buf : ℕ → α) (head n : ℕ) :
    (window cap buf head n).length = n := by
  simp [window]

/-- A window one position longer ends with the value at that position. -/
theorem window_succ (cap : ℕ) (buf : ℕ → α) (head n : ℕ) :
    window cap buf head (n + 1) = window cap buf head n ++ [buf ((head + n) % cap)] := by
  simp [window, List.range_succ]

/-- A window that is not empty starts with the value at its first position. -/
theorem window_succ_left (cap : ℕ) (buf : ℕ → α) (head n : ℕ) :
    window cap buf head (n + 1) = buf (head % cap) :: window cap buf (head + 1) n := by
  simp only [window, List.range_succ_eq_map, List.map_cons, List.map_map, Nat.add_zero]
  congr 1
  apply List.map_congr_left
  intro i _
  simp only [Function.comp_apply]
  congr 2
  omega

/-- A window depends on the values of its own slots only. -/
theorem window_congr {cap : ℕ} {buf buf' : ℕ → α} {head n : ℕ}
    (h : ∀ i < n, buf ((head + i) % cap) = buf' ((head + i) % cap)) :
    window cap buf head n = window cap buf' head n :=
  List.map_congr_left fun i hi => h i (List.mem_range.mp hi)

/-- Two positions of a window of at most `cap` positions that share a slot are equal. -/
theorem slot_injective {cap head i j : ℕ} (hi : i < cap) (hj : j < cap)
    (h : (head + i) % cap = (head + j) % cap) : i = j := by
  have h' : i ≡ j [MOD cap] := Nat.ModEq.add_left_cancel' head h
  exact Nat.ModEq.eq_of_lt_of_lt h' hi hj

/-- Writing a slot outside a window leaves the window as it is. -/
theorem window_update_of_ne {cap : ℕ} {buf : ℕ → α} {head n w : ℕ} {x : α}
    (h : ∀ i < n, (head + i) % cap ≠ w) :
    window cap (Function.update buf w x) head n = window cap buf head n :=
  window_congr fun i hi => Function.update_of_ne (h i hi) _ _

/-- Writing the slot of a position of a window that does not overlap itself replaces the value at
that position. -/
theorem window_update_mem {cap : ℕ} {buf : ℕ → α} {head n i : ℕ} {x : α} (hi : i < n)
    (hn : n ≤ cap) :
    window cap (Function.update buf ((head + i) % cap) x) head n =
      (window cap buf head n).set i x := by
  apply List.ext_getElem (by simp)
  intro j h1 h2
  have hj : j < n := by simpa using h1
  simp only [window, List.getElem_map, List.getElem_range, List.getElem_set]
  split_ifs with h
  · rw [h, Function.update_self]
  · apply Function.update_of_ne
    intro h'
    exact h (slot_injective (by omega) (by omega) h').symm

/-- Writing the slot that follows a window that is not full leaves the window as it is. -/
theorem window_update_fresh {cap : ℕ} {buf : ℕ → α} {head n : ℕ} {x : α} (hn : n < cap) :
    window cap (Function.update buf ((head + n) % cap) x) head n = window cap buf head n := by
  apply window_update_of_ne
  intro i hi h
  have := slot_injective (by omega) hn h
  omega

/-- Publishing the position that follows a window that is not full appends the value written
there. -/
theorem window_push {cap : ℕ} {buf : ℕ → α} {head n : ℕ} {x : α} (hn : n < cap) :
    window cap (Function.update buf ((head + n) % cap) x) head (n + 1) =
      window cap buf head n ++ [x] := by
  rw [window_succ, window_update_fresh hn, Function.update_self]

/-- Writing over a value with another one leaves fewer copies of the value in a window that reads
the slot, and no more copies in one that does not. -/
theorem count_window_update [BEq α] [LawfulBEq α] {cap : ℕ} {buf : ℕ → α} {head n w : ℕ} {x y : α}
    (hw : buf w = y) (hxy : x ≠ y) :
    (window cap (Function.update buf w x) head n).count y ≤ (window cap buf head n).count y ∧
      ((∃ i < n, (head + i) % cap = w) →
        (window cap (Function.update buf w x) head n).count y <
          (window cap buf head n).count y) := by
  induction n with
  | zero => simp
  | succ n ih =>
    obtain ⟨hle, hlt⟩ := ih
    simp only [window_succ, List.count_append, List.count_singleton]
    rcases eq_or_ne ((head + n) % cap) w with h | h
    · -- The last position reads the slot.
      rw [h, Function.update_self, hw]
      simp only [beq_self_eq_true, if_true, beq_iff_eq, hxy, if_false]
      exact ⟨by omega, fun _ => by omega⟩
    · rw [Function.update_of_ne h]
      refine ⟨by omega, ?_⟩
      rintro ⟨i, hi, hslot⟩
      have hne : i ≠ n := by
        rintro rfl
        exact h hslot
      have := hlt ⟨i, by omega, hslot⟩
      omega

/-- A window does not change when its start is reduced modulo a multiple of its capacity. -/
theorem window_mod {cap W : ℕ} (hW : cap ∣ W) (buf : ℕ → α) (head n : ℕ) :
    window cap buf (head % W) n = window cap buf head n := by
  unfold window
  apply List.map_congr_left
  intro i _
  have h : (head % W + i) % cap = (head + i) % cap := by
    rw [Nat.add_mod, Nat.mod_mod_of_dvd _ hW, ← Nat.add_mod]
  rw [h]

/-- Masking by a power of two less one is reduction modulo the power. -/
theorem and_sub_one {cap : ℕ} (hcap : ∃ k, cap = 2 ^ k) (x : ℕ) : x &&& (cap - 1) = x % cap := by
  obtain ⟨k, rfl⟩ := hcap
  exact Nat.and_two_pow_sub_one_eq_mod x k

/-- A power of two that is no larger than another one divides it. -/
theorem dvd_two_pow {cap n : ℕ} (hcap : ∃ k, cap = 2 ^ k) (hle : cap ≤ 2 ^ n) : cap ∣ 2 ^ n := by
  obtain ⟨k, rfl⟩ := hcap
  exact Nat.pow_dvd_pow 2 ((Nat.pow_le_pow_iff_right (by omega)).mp hle)

/-- The number of positions between two counters that wrap at `W`. -/
def count (W head tail : ℕ) : ℕ := (W - head + tail) % W

/-- A counter that starts at the other and has moved `n` positions, fewer than `W`, is `n`
positions ahead. -/
theorem count_add {W head n : ℕ} (hh : head < W) (hn : n < W) :
    count W head ((head + n) % W) = n := by
  unfold count
  rcases Nat.lt_or_ge (head + n) W with h | h
  · rw [Nat.mod_eq_of_lt h, show W - head + (head + n) = n + W by omega, Nat.add_mod_right,
      Nat.mod_eq_of_lt hn]
  · rw [Nat.mod_eq_sub_mod h, Nat.mod_eq_of_lt (by omega : head + n - W < W),
      show W - head + (head + n - W) = n by omega, Nat.mod_eq_of_lt hn]

/-- A counter is `count` positions ahead of the other. -/
theorem add_count {W head tail : ℕ} (hh : head < W) (ht : tail < W) :
    (head + count W head tail) % W = tail := by
  unfold count
  rcases Nat.lt_or_ge tail head with h | h
  · rw [Nat.mod_eq_of_lt (by omega : W - head + tail < W),
      show head + (W - head + tail) = tail + W by omega, Nat.add_mod_right, Nat.mod_eq_of_lt ht]
  · rw [show W - head + tail = tail - head + W by omega, Nat.add_mod_right,
      Nat.mod_eq_of_lt (by omega : tail - head < W), show head + (tail - head) = tail by omega,
      Nat.mod_eq_of_lt ht]

/-- The slot that follows the positions between two counters is that of the counter ahead. -/
theorem slot_add_count {cap W head tail : ℕ} (hW : cap ∣ W) (hh : head < W) (ht : tail < W) :
    (head + count W head tail) % cap = tail % cap := by
  conv_rhs => rw [← add_count hh ht]
  rw [Nat.mod_mod_of_dvd _ hW]

/-- Fewer than `W` positions lie between two counters. -/
theorem count_lt {W head tail : ℕ} (hW : 0 < W) : count W head tail < W := Nat.mod_lt _ hW

/-- Equal counters have no position between them. -/
theorem count_eq_zero_iff {W head tail : ℕ} (hh : head < W) (ht : tail < W) :
    count W head tail = 0 ↔ head = tail := by
  constructor
  · intro h
    have := add_count hh ht
    rw [h, Nat.add_zero, Nat.mod_eq_of_lt hh] at this
    exact this
  · rintro rfl
    have := count_add hh (by omega : 0 < W)
    rwa [Nat.add_zero, Nat.mod_eq_of_lt hh] at this

/-- Advancing the counter ahead by one adds a position, unless the counters then meet again. -/
theorem count_succ_right {W head tail : ℕ} (hh : head < W) (ht : tail < W)
    (hn : count W head tail + 1 < W) :
    count W head ((tail + 1) % W) = count W head tail + 1 := by
  rw [← add_count hh ht, Nat.mod_add_mod, Nat.add_assoc, count_add hh hn, add_count hh ht]

/-- Advancing the counter ahead past the last position makes the counters meet again. -/
theorem count_succ_right_wrap {W head tail : ℕ} (hh : head < W) (ht : tail < W)
    (hn : count W head tail + 1 = W) : count W head ((tail + 1) % W) = 0 := by
  rw [count_eq_zero_iff hh (Nat.mod_lt _ (by omega))]
  conv_rhs => rw [← add_count hh ht]
  rw [Nat.mod_add_mod, Nat.add_assoc, hn, Nat.add_mod_right, Nat.mod_eq_of_lt hh]

/-- Advancing the counter behind by one removes a position. -/
theorem count_succ_left {W head tail : ℕ} (hh : head < W) (ht : tail < W)
    (hn : 0 < count W head tail) :
    count W ((head + 1) % W) tail + 1 = count W head tail := by
  have hW : 0 < W := by omega
  have hlt := @count_lt W head tail hW
  have h : tail = ((head + 1) % W + (count W head tail - 1)) % W := by
    rw [Nat.mod_add_mod, show head + 1 + (count W head tail - 1) = head + count W head tail by
      omega, add_count hh ht]
  rw [h, count_add (Nat.mod_lt _ hW) (by omega), ← h]
  omega

end Ring
