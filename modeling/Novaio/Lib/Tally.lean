import Mathlib.Algebra.BigOperators.Group.Finset.Piecewise
import Mathlib.Data.Fintype.Card
import Mathlib.Data.List.Count
import Mathlib.Data.List.Perm.Basic

/-!
# Tallies

How many indices of a finite family have a property, and how that changes when one member of the
family does.
-/

namespace Tally

variable {ι α : Type*} [Fintype ι]

/-- The number of indices whose member has the property. -/
def tally (p : α → Prop) [DecidablePred p] (f : ι → α) : ℕ :=
  (Finset.univ.filter fun i => p (f i)).card

variable {p : α → Prop} [DecidablePred p] {f : ι → α}

/-- No member has the property. -/
theorem tally_eq_zero_iff : tally p f = 0 ↔ ∀ i, ¬ p (f i) := by
  simp [tally, Finset.filter_eq_empty_iff]

/-- All members have the property. -/
theorem tally_eq_card (h : ∀ i, p (f i)) : tally p f = Fintype.card ι := by
  simp [tally, h, Finset.card_univ]

/-- The tally after one member has changed. -/
theorem tally_update [DecidableEq ι] (i : ι) (a : α) :
    tally p (Function.update f i a) + (if p (f i) then 1 else 0) =
      tally p f + if p a then 1 else 0 := by
  have hrest : ∑ j ∈ Finset.univ.erase i, (if p (Function.update f i a j) then 1 else 0) =
      ∑ j ∈ Finset.univ.erase i, if p (f j) then 1 else 0 := by
    refine Finset.sum_congr rfl fun j hj => ?_
    rw [Function.update_of_ne (Finset.ne_of_mem_erase hj)]
  unfold tally
  rw [Finset.card_filter, Finset.card_filter, ← Finset.add_sum_erase _ _ (Finset.mem_univ i),
    ← Finset.add_sum_erase Finset.univ (fun j => if p (f j) then 1 else 0) (Finset.mem_univ i),
    hrest, Function.update_self]
  omega

/-- The tally does not change when a member keeps the property, or lacks it as before. -/
theorem tally_update_of_iff [DecidableEq ι] {i : ι} {a : α} (h : p a ↔ p (f i)) :
    tally p (Function.update f i a) = tally p f := by
  have hupdate := tally_update (p := p) (f := f) i a
  simp only [h] at hupdate
  omega

/-- A member that loses the property. -/
theorem tally_update_of_leave [DecidableEq ι] {i : ι} {a : α} (h : p (f i)) (ha : ¬ p a) :
    tally p (Function.update f i a) + 1 = tally p f := by
  have hupdate := tally_update (p := p) (f := f) i a
  rwa [if_pos h, if_neg ha] at hupdate

/-- A member that gains the property. -/
theorem tally_update_of_join [DecidableEq ι] {i : ι} {a : α} (h : ¬ p (f i)) (ha : p a) :
    tally p (Function.update f i a) = tally p f + 1 := by
  have hupdate := tally_update (p := p) (f := f) i a
  rwa [if_neg h, if_pos ha] at hupdate

/-- The sum of a family after one member has changed. -/
theorem sum_of_eq_off [DecidableEq ι] {f g : ι → ℕ} {i : ι} (h : ∀ j, j ≠ i → f j = g j) :
    ∑ j, f j + g i = ∑ j, g j + f i := by
  have hrest : ∑ j ∈ Finset.univ.erase i, f j = ∑ j ∈ Finset.univ.erase i, g j :=
    Finset.sum_congr rfl fun j hj => h j (Finset.ne_of_mem_erase hj)
  rw [← Finset.add_sum_erase _ f (Finset.mem_univ i),
    ← Finset.add_sum_erase _ g (Finset.mem_univ i), hrest]
  omega

/-! ## Tallies over lists -/

omit [Fintype ι] in
/-- The members of a list without repetition that have one property or another, where the two agree
on all but one. -/
theorem countP_of_iff_off [DecidableEq ι] {q r : ι → Prop} [DecidablePred q] [DecidablePred r]
    {l : List ι} {i : ι} (hl : l.Nodup) (h : ∀ j, j ≠ i → (r j ↔ q j)) :
    l.countP r + (if i ∈ l ∧ q i then 1 else 0) = l.countP q + if i ∈ l ∧ r i then 1 else 0 := by
  have hoff : ∀ m : List ι, i ∉ m → m.countP r = m.countP q := fun m hm =>
    List.countP_congr fun j hj => by simpa using h j (ne_of_mem_of_not_mem hj hm)
  by_cases hi : i ∈ l
  · have hperm := List.perm_cons_erase hi
    have hrest := hoff (l.erase i) hl.not_mem_erase
    rw [hperm.countP_eq, hperm.countP_eq, List.countP_cons, List.countP_cons, hrest]
    simp only [hi, true_and, decide_eq_true_eq]
    omega
  · simp [hi, hoff l hi]

end Tally
