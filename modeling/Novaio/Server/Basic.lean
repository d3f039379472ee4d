import Novaio.DirectIo.CoAwait

/-!
# Servers

The servers of `examples/` start a coroutine for each connection that they accept. It serves the
connection by direct operations that it awaits in place, one after the other, on the descriptor of
the connection. `ClientHandler` is the code of such a coroutine from one suspension to the next.

`Server` has the coroutines with the engine that they use, and what the kernel does for them: the
table of direct descriptors, where a descriptor that was closed is soon given to another connection,
and the buffers that it selects. Connections are numbered in the order in which they are accepted.

The coroutines of a server run one at a time, as their scheduler does. The kernel accepts and
completes in between, in any order, and `poll` handles the completions in any order.
-/

namespace Novaio

open DirectIo

/-- The code of a coroutine that serves a connection: its first place, the operation that it awaits
at a place, if it awaits one, and what it does when it goes on from there, with an input from
elsewhere and the result of the operation: the buffers it returns, and its next place, if it does
not return. -/
structure ClientHandler (ε π : Type*) where
  start : π
  awaits : π → Option DirectOp
  advance : ε → π → Option IoResult → List UInt16 × Option π

/-- A connection as its coroutine has it: the descriptor, the number of the connection, where the
coroutine is, and the operation it awaits. -/
structure Connection (π : Type*) where
  directFd : ℕ
  id : ℕ
  pc : π
  ctx : Option ℕ

/-- An operation as it was issued, with the descriptor and the connection it is for. -/
structure Request where
  op : DirectOp
  directFd : ℕ
  id : ℕ

/-- An operation as the kernel executed it: the connection it was issued for, and the one that its
descriptor was for then. -/
structure Execution where
  op : DirectOp
  id : ℕ
  target : Option ℕ

/-- The buffers that the completion of an operation carries, by its flags. -/
def selectedBuffers (op : DirectOp) (result : IoResult) : List UInt16 :=
  if op = .recv ∧ result.flags &&& cqeFBuffer ≠ 0 then [(result.flags >>> 16).toUInt16] else []

/-- A server: the engine, the coroutines, the operations issued and their results in the completion
queue or handled, the table of descriptors, the connections that are accepted and have no coroutine
yet, how many there have been, what was executed, and, for each connection, the buffers that were
selected and those that were returned. -/
structure Server (κ π : Type*) where
  io : DirectIo κ
  handlers : κ → Option (Connection π)
  requests : List Request
  results : ℕ → Option IoResult
  descriptors : ℕ → Option ℕ
  accepted : List (ℕ × ℕ)
  connections : ℕ
  executed : List Execution
  selected : ℕ → List UInt16
  returned : ℕ → List UInt16

/-- A step: the kernel accepts a connection or completes an operation, the server starts the
coroutine of a connection, `poll` handles a completion, or a coroutine goes on, with its next
awaiter at a place in memory. -/
inductive ServerOp (ε κ : Type*) where
  | accept (directFd : ℕ)
  | handleClient (k : κ) (directFd id : ℕ)
  | complete (ctx : ℕ) (result : IoResult)
  | poll (ctx : ℕ)
  | resume (k : κ) (input : ε) (awaiter : ℕ)

namespace Server

variable {ε κ π : Type*}

/-- Nothing is accepted yet. -/
def new : Server κ π where
  io := .new
  handlers _ := none
  requests := []
  results _ := none
  descriptors _ := none
  accepted := []
  connections := 0
  executed := []
  selected _ := []
  returned _ := []

variable [DecidableEq κ]

/-- The coroutine of a connection changes, or returns. -/
def setHandler (s : Server κ π) (k : κ) (conn : Option (Connection π)) : Server κ π :=
  { s with handlers := Function.update s.handlers k conn }

/-- The handler has its new connection. -/
@[simp]
theorem setHandler_self (s : Server κ π) (k : κ) (conn : Option (Connection π)) :
    (s.setHandler k conn).handlers k = conn := Function.update_self ..

/-- The other handlers keep theirs. -/
theorem setHandler_of_ne (s : Server κ π) {k k' : κ} (conn : Option (Connection π)) (h : k' ≠ k) :
    (s.setHandler k conn).handlers k' = s.handlers k' := Function.update_of_ne h ..

/-- A coroutine goes on to its next suspension, or returns. -/
def goOn (code : ClientHandler ε π) (s : Server κ π) (k : κ) (conn : Connection π) (awaiter : ℕ)
    (next : List UInt16 × Option π) : Option (Server κ π) :=
  let returned := s.returned conn.id ++ next.1
  let s := { s with returned := Function.update s.returned conn.id returned }
  match next.2 with
  | none => some (s.setHandler k none)
  | some pc =>
    match code.awaits pc with
    | none => some (s.setHandler k (some { conn with pc := pc, ctx := none }))
    | some op =>
      (s.io.coAwait op awaiter k).map fun io =>
        { s.setHandler k (some { conn with pc := pc, ctx := some s.requests.length }) with
          io := io
          requests := s.requests ++ [⟨op, conn.directFd, conn.id⟩] }

/-- The kernel completes an operation. A descriptor that is closed can be given away. -/
def complete (s : Server κ π) (ctx : ℕ) (request : Request) (result : IoResult) : Server κ π :=
  { s with
    results := Function.update s.results ctx (some result)
    executed := s.executed ++ [⟨request.op, request.id, s.descriptors request.directFd⟩]
    descriptors :=
      if request.op = .close then Function.update s.descriptors request.directFd none
      else s.descriptors
    selected := Function.update s.selected request.id
      (s.selected request.id ++ selectedBuffers request.op result) }

/-- What a step does, where it is possible. -/
def step (code : ClientHandler ε π) (s : Server κ π) : ServerOp ε κ → Option (Server κ π)
  | .accept directFd =>
    if s.descriptors directFd = none then
      some { s with
        descriptors := Function.update s.descriptors directFd (some s.connections)
        accepted := s.accepted ++ [(directFd, s.connections)]
        connections := s.connections + 1 }
    else none
  | .handleClient k directFd id =>
    if (directFd, id) ∈ s.accepted ∧ s.handlers k = none then
      some { s.setHandler k (some ⟨directFd, id, code.start, none⟩) with
        accepted := s.accepted.erase (directFd, id) }
    else none
  | .complete ctx result =>
    match s.requests[ctx]?, s.results ctx with
    | some request, none => some (s.complete ctx request result)
    | _, _ => none
  | .poll ctx =>
    match s.results ctx with
    | some result => (s.io.step (.poll ctx result)).map fun io => { s with io := io }
    | none => none
  | .resume k input awaiter =>
    match s.handlers k with
    | some conn =>
      match code.awaits conn.pc with
      | none => s.goOn code k conn awaiter (code.advance input conn.pc none)
      | some _ =>
        (s.io.awaitResult k).bind fun x =>
          { s with io := x.2 }.goOn code k conn awaiter (code.advance input conn.pc (some x.1))
    | none => none

end Server

/-- A step of a server, with a kernel that keeps a promise about its completions. -/
def serverStep {ε κ π : Type*} [DecidableEq κ] (code : ClientHandler ε π)
    (promise : DirectOp → IoResult → Prop) (s : Server κ π) (op : ServerOp ε κ)
    (t : Server κ π) : Prop :=
  s.step code op = some t ∧
    match op with
    | .complete ctx result => ∀ request, s.requests[ctx]? = some request →
        promise request.op result
    | _ => True

end Novaio
