import Mathlib.Data.List.Basic

/-!
# Computations that ask for inputs

A computation ends with a result, or asks for an input and goes on with it. Every computation that
is made of finitely many parts is such a tree, of finite depth on every path. `bind` continues a
computation with what its result leads to, `feed` gives it inputs one by one, and `run` lets it take
its inputs from a list, in order, and returns the rest.
-/

namespace Interaction

variable {ι α β : Type*}

/-- A computation with inputs of type `ι` and a result of type `α`. -/
inductive Comp (ι α : Type*) where
  | done (result : α)
  | ask (next : ι → Comp ι α)

/-- A computation, continued with its result. -/
def Comp.bind : Comp ι α → (α → Comp ι β) → Comp ι β
  | .done a, k => k a
  | .ask next, k => .ask fun x => (next x).bind k

/-- A computation that has got some inputs, unless these are more than it asks for. -/
def Comp.feed : Comp ι α → List ι → Option (Comp ι α)
  | c, [] => some c
  | .done _, _ :: _ => none
  | .ask next, x :: xs => (next x).feed xs

/-- The result of a computation that takes its inputs from a list, and the rest of the list. -/
def Comp.run : Comp ι α → List ι → Option (α × List ι)
  | .done a, xs => some (a, xs)
  | .ask _, [] => none
  | .ask next, x :: xs => (next x).run xs

/-- A computation that asks for an input, and gets it. -/
theorem Comp.feed_concat {c : Comp ι α} {xs : List ι} {next : ι → Comp ι α} (x : ι)
    (h : c.feed xs = some (.ask next)) : c.feed (xs ++ [x]) = some (next x) := by
  induction xs generalizing c with
  | nil =>
    obtain rfl : c = .ask next := by simpa [feed] using h
    simp [feed]
  | cons y xs ih =>
    cases c with
    | done a => simp [feed] at h
    | ask f => exact ih h

/-- A computation that is done with its inputs takes these from a list. -/
theorem Comp.run_of_feed {c : Comp ι α} {xs : List ι} {a : α} (h : c.feed xs = some (.done a)) :
    c.run xs = some (a, []) := by
  induction xs generalizing c with
  | nil =>
    obtain rfl : c = .done a := by simpa [feed] using h
    rfl
  | cons x xs ih =>
    cases c with
    | done b => simp [feed] at h
    | ask f => exact ih h

/-- A computation that has got some of its inputs takes the others from the rest of a list. -/
theorem Comp.run_append_of_feed {c d : Comp ι α} {xs : List ι} (h : c.feed xs = some d)
    (ys : List ι) : c.run (xs ++ ys) = d.run ys := by
  induction xs generalizing c with
  | nil =>
    obtain rfl : c = d := by simpa [feed] using h
    rfl
  | cons x xs ih =>
    cases c with
    | done a => simp [feed] at h
    | ask f => exact ih h

/-- A continued computation takes its inputs one part after the other. -/
theorem Comp.run_bind (c : Comp ι α) (k : α → Comp ι β) (xs : List ι) :
    (c.bind k).run xs = (c.run xs).bind fun r => (k r.1).run r.2 := by
  induction c generalizing xs with
  | done a => rfl
  | ask f ih =>
    cases xs with
    | nil => rfl
    | cons x xs => exact ih x xs

end Interaction
