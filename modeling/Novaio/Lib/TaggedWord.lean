import Mathlib.Algebra.Group.Nat.Defs

/-!
# Tagged words

A word of which the bits of a mask are known to be clear has room for a tag in them. The tag and the
rest of the word can be read back (`or_and_mask`, `or_and_not_mask`), so that a tagged word has only
one tag and one rest (`or_inj`).
-/

namespace TaggedWord

variable {w : ℕ} {mask word word' tag tag' : BitVec w}

/-- The tag of a tagged word. -/
theorem or_and_mask (hword : word &&& mask = 0#w) (htag : tag &&& mask = tag) :
    (word ||| tag) &&& mask = tag := by
  rw [BitVec.and_or_distrib_right, hword, htag, BitVec.zero_or]

/-- A tag has no bit outside the mask. -/
theorem and_not_mask_of_fits (htag : tag &&& mask = tag) : tag &&& ~~~mask = 0#w := by
  rw [← htag, BitVec.and_assoc, BitVec.and_not_self]
  exact BitVec.and_zero

/-- A word that is clear in the mask has all its bits outside of it. -/
theorem and_not_mask_of_clear (hword : word &&& mask = 0#w) : word &&& ~~~mask = word := by
  have hsplit : word &&& (mask ||| ~~~mask) = word := by
    rw [BitVec.or_not_self, BitVec.and_allOnes]
  rwa [BitVec.and_or_distrib_left, hword, BitVec.zero_or] at hsplit

/-- The rest of a tagged word. -/
theorem or_and_not_mask (hword : word &&& mask = 0#w) (htag : tag &&& mask = tag) :
    (word ||| tag) &&& ~~~mask = word := by
  rw [BitVec.and_or_distrib_right, and_not_mask_of_fits htag, and_not_mask_of_clear hword,
    BitVec.or_zero]

/-- Tagged words are equal if and only if their tags and the rests are. -/
theorem or_inj (hword : word &&& mask = 0#w) (htag : tag &&& mask = tag)
    (hword' : word' &&& mask = 0#w) (htag' : tag' &&& mask = tag') :
    word ||| tag = word' ||| tag' ↔ word = word' ∧ tag = tag' := by
  constructor
  · intro h
    constructor
    · rw [← or_and_not_mask hword htag, h, or_and_not_mask hword' htag']
    · rw [← or_and_mask hword htag, h, or_and_mask hword' htag']
  · rintro ⟨rfl, rfl⟩
    rfl

/-- The low `k` bits of a multiple of `2 ^ k` are clear. -/
theorem and_eq_zero_of_dvd {k : ℕ} (hmask : mask.toNat = 2 ^ k - 1) (hdvd : 2 ^ k ∣ word.toNat) :
    word &&& mask = 0#w := by
  apply BitVec.eq_of_toNat_eq
  rw [BitVec.toNat_and, hmask, Nat.and_two_pow_sub_one_eq_mod, Nat.mod_eq_zero_of_dvd hdvd]
  rfl

end TaggedWord
