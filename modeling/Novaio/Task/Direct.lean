import Novaio.Task.Basic

/-!
# Bodies as computations

What is left of a coroutine is a computation that asks for the outcomes of operations. For a body it
is `Code.direct`, and `Code.evaluate` runs it (`Code.evaluate_eq_run`). Around the part that a
coroutine executes are its contexts (`plug`).
-/

namespace Novaio

open Interaction

variable {ν ε : Type*}

/-- A body, as a computation. -/
def Code.direct : Code ν ε → Comp (Outcome ν ε) (Outcome ν ε)
  | .pure v => .done (.value v)
  | .throw e => .done (.exception e)
  | .suspend => .ask .done
  | .await task => task.direct
  | .bind code rest => code.direct.bind fun
    | .value v => (rest v).direct
    | .exception e => .done (.exception e)
  | .tryCatch code handler => code.direct.bind fun
    | .value v => .done (.value v)
    | .exception e => (handler e).direct

/-- The code of an outcome has this outcome. -/
@[simp]
theorem Outcome.direct_code (o : Outcome ν ε) : o.code.direct = .done o := by cases o <;> rfl

/-- A part of a body, and the rest. -/
theorem Code.direct_bind (code : Code ν ε) (rest : ν → Code ν ε) :
    (Code.bind code rest).direct =
      code.direct.bind fun o => ((Context.rest rest).resume o).direct := by
  rw [direct]
  congr 1
  funext o
  cases o <;> rfl

/-- A part of a body, and a handler. -/
theorem Code.direct_tryCatch (code : Code ν ε) (handler : ε → Code ν ε) :
    (Code.tryCatch code handler).direct =
      code.direct.bind fun o => ((Context.handler handler).resume o).direct := by
  rw [direct]
  congr 1
  funext o
  cases o <;> rfl

/-- To evaluate a body is to run it as a computation. -/
theorem Code.evaluate_eq_run (code : Code ν ε) (inputs : List (Outcome ν ε)) :
    code.evaluate inputs = code.direct.run inputs := by
  induction code generalizing inputs with
  | pure v => rfl
  | throw e => rfl
  | suspend => cases inputs <;> rfl
  | await task ih => exact ih inputs
  | bind code rest ih ihrest =>
    rw [direct, Comp.run_bind, ← ih, evaluate]
    cases code.evaluate inputs with
    | none => rfl
    | some r =>
      obtain ⟨o, inputs⟩ := r
      cases o with
      | value v => exact ihrest v inputs
      | exception e => rfl
  | tryCatch code handler ih ihhandler =>
    rw [direct, Comp.run_bind, ← ih, evaluate]
    cases code.evaluate inputs with
    | none => rfl
    | some r =>
      obtain ⟨o, inputs⟩ := r
      cases o with
      | value v => rfl
      | exception e => exact ihhandler e inputs

/-- A computation inside of contexts. -/
def plug : List (Context ν ε) → Comp (Outcome ν ε) (Outcome ν ε) →
    Comp (Outcome ν ε) (Outcome ν ε)
  | [], c => c
  | context :: contexts, c => plug contexts (c.bind fun o => (context.resume o).direct)

/-- A computation that asks for an input does so inside of contexts. -/
theorem plug_ask (contexts : List (Context ν ε))
    (next : Outcome ν ε → Comp (Outcome ν ε) (Outcome ν ε)) :
    plug contexts (.ask next) = .ask fun x => plug contexts (next x) := by
  induction contexts generalizing next with
  | nil => rfl
  | cons context contexts ih => exact ih _

end Novaio
