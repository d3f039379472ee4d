import Mathlib.Data.Nat.Notation

/-!
# Awaiters

`CoMutex` and `Event` both link the coroutines that wait for them through awaiters, which are in the
frames of the coroutines. The two classes of awaiters have the same fields. An address is a number,
and a null pointer is `none`.
-/

namespace Novaio

/-- `CoMutex::Awaiter` and `Event::Awaiter`: the coroutine and its scheduler, and the next
awaiter. -/
structure Awaiter (κ σ : Type*) where
  awaitingCoroutine : Option κ := none
  scheduler : Option σ := none
  next : Option ℕ := none

end Novaio
