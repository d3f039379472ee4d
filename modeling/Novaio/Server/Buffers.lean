import Novaio.Server.Descriptors

/-!
# The buffers of a server

The kernel selects a buffer for what a coroutine receives, and the coroutine gives it back when it
is done with it. Where each stretch of a coroutine gives back what it has, but for what it holds at
its next place (`Returns`), in every run of a server each buffer that was selected for a connection
is given back once, in the order of the selections, by the coroutine of the connection
(`Balanced`).
-/

namespace Novaio

open DirectIo Transition

namespace ClientHandler

variable {ε π : Type*}

/-- The buffers that the operation of a place has selected, by its result. -/
def selects (code : ClientHandler ε π) (pc : π) (ret : Option IoResult) : List UInt16 :=
  match code.awaits pc, ret with
  | some op, some r => selectedBuffers op r
  | _, _ => []

/-- No result yet. -/
@[simp]
theorem selects_none (code : ClientHandler ε π) (pc : π) : code.selects pc none = [] := by
  unfold selects
  split
  · simp_all
  · rfl

/-- The result of the operation of a place. -/
theorem selects_some {code : ClientHandler ε π} {pc : π} {op : DirectOp}
    (hop : code.awaits pc = some op) (r : IoResult) :
    code.selects pc (some r) = selectedBuffers op r := by
  simp [selects, hop]

/-- A coroutine holds buffers at its places. What it holds and gets it gives back, or holds at its
next place. -/
structure Returns (code : ClientHandler ε π) (promise : DirectOp → IoResult → Prop)
    (held : π → List UInt16) : Prop where
  start : held code.start = []
  advance : ∀ input pc ret, ret.isSome = (code.awaits pc).isSome →
    (∀ op r, code.awaits pc = some op → ret = some r → promise op r) →
    (code.advance input pc ret).1 ++ (code.advance input pc ret).2.elim [] held =
      held pc ++ code.selects pc ret

end ClientHandler

namespace Server

variable {ε κ π : Type*} {code : ClientHandler ε π} {promise : DirectOp → IoResult → Prop}
  {held : π → List UInt16} {s t : Server κ π} {k : κ} {conn : Connection π}

/-- The buffers that a coroutine has: those that it holds at its place, and that of the operation
that it awaits, when it has completed. -/
def buffersOf (code : ClientHandler ε π) (held : π → List UInt16) (s : Server κ π)
    (conn : Connection π) : List UInt16 :=
  held conn.pc ++ code.selects conn.pc (conn.ctx.bind s.results)

/-- The buffers that were selected for a connection are those that were given back, and then those
that its coroutine has. -/
structure Balanced (code : ClientHandler ε π) (held : π → List UInt16) (s : Server κ π) : Prop where
  served : ∀ k conn, s.handlers k = some conn →
    s.selected conn.id = s.returned conn.id ++ s.buffersOf code held conn
  unserved : ∀ n, (∀ k conn, s.handlers k = some conn → conn.id ≠ n) → s.selected n = s.returned n

/-- Nothing is selected at the start. -/
theorem new_balanced : (new : Server κ π).Balanced code held := by
  constructor <;> simp [new]

/-- A step that concerns neither the coroutines nor the buffers. -/
theorem Balanced.congr (h : s.Balanced code held) (hhandlers : t.handlers = s.handlers)
    (hresults : t.results = s.results) (hselected : t.selected = s.selected)
    (hreturned : t.returned = s.returned) : t.Balanced code held := by
  constructor
  · rw [hhandlers, hselected, hreturned]
    intro k conn hk
    rw [buffersOf, hresults]
    exact h.served k conn hk
  · rw [hhandlers, hselected, hreturned]
    exact h.unserved

variable [DecidableEq κ]

/-- A coroutine starts for a connection, for which nothing has been selected. -/
theorem Balanced.handleClient (h : s.Balanced code held) (hstart : held code.start = [])
    (hk : s.handlers k = none) {d n : ℕ} (hn : ∀ k conn, s.handlers k = some conn → conn.id ≠ n) :
    (s.setHandler k (some ⟨d, n, code.start, none⟩)).Balanced code held := by
  constructor
  · intro k' conn hk'
    rcases eq_or_ne k' k with rfl | hne
    · rw [setHandler_self] at hk'
      obtain rfl := Option.some.inj hk'
      rw [buffersOf, hstart]
      simpa [setHandler] using h.unserved n hn
    · rw [s.setHandler_of_ne _ hne] at hk'
      exact h.served k' conn hk'
  · intro m hm
    exact h.unserved m (unserved_of_update (by simp [hk]) hm)

/-- The kernel completes an operation, and selects a buffer for it. -/
theorem Balanced.complete (h : s.Balanced code held) (hnum : s.Numbered)
    (hserves : s.Serves code promise none) {c : ℕ} {op : DirectOp}
    (hk : s.handlers k = some conn) (hplace : code.awaits conn.pc = some op)
    (hctx : conn.ctx = some c) (hrequest : s.requests[c]? = some ⟨op, conn.directFd, conn.id⟩)
    (hnone : s.results c = none) {r : IoResult} (hhandlers : t.handlers = s.handlers)
    (hresults : t.results = Function.update s.results c (some r))
    (hselected : t.selected =
      Function.update s.selected conn.id (s.selected conn.id ++ selectedBuffers op r))
    (hreturned : t.returned = s.returned) : t.Balanced code held := by
  constructor
  · intro k' conn' hk'
    rw [hhandlers] at hk'
    have hold := h.served k' conn' hk'
    rw [hselected, hreturned, buffersOf, hresults]
    rcases eq_or_ne conn'.id conn.id with heq | hne
    · obtain rfl := hnum.id_inj k' k conn' conn hk' hk heq
      obtain rfl := Option.some.inj (hk'.symm.trans hk)
      rw [buffersOf, hctx, Option.bind_some, hnone, ClientHandler.selects_none,
        List.append_nil] at hold
      rw [hctx, Option.bind_some, Function.update_self, Function.update_self,
        ClientHandler.selects_some hplace, hold, List.append_assoc]
    · rw [bind_results_of_ne hnum hserves hk hrequest hk' hne, Function.update_of_ne hne]
      exact hold
  · intro n hn
    rw [hhandlers] at hn
    rw [hselected, hreturned, Function.update_of_ne (hn k conn hk).symm]
    exact h.unserved n hn

/-- A coroutine goes on, and gives back what it has but for what it holds. -/
theorem Balanced.goOn (h : s.Balanced code held) (hnum : s.Numbered)
    (hlt : ∀ c, s.results c ≠ none → c < s.requests.length) (hk : s.handlers k = some conn)
    {awaiter : ℕ} {next : List UInt16 × Option π}
    (hnext : next.1 ++ next.2.elim [] held = s.buffersOf code held conn)
    (ht : s.goOn code k conn awaiter next = some t) : t.Balanced code held := by
  obtain ⟨conn', hhandlers, hconn', hkept, -, hresults, -, -, -, hselected, hreturned⟩ :=
    goOn_cases hlt ht
  have hold := h.served k conn hk
  rw [← hnext, ← List.append_assoc] at hold
  constructor
  · intro k' conn'' hk'
    rw [hhandlers] at hk'
    rcases eq_or_ne k' k with rfl | hne
    · rw [Function.update_self] at hk'
      obtain ⟨-, hn, hpc, hnone⟩ := hkept conn'' hk'
      rw [hselected, hreturned, buffersOf, hresults, hnone, ClientHandler.selects_none,
        List.append_nil, hn, Function.update_self, hold, hpc, Option.elim_some]
    · rw [Function.update_of_ne hne] at hk'
      have hid : conn''.id ≠ conn.id := fun heq => hne (hnum.id_inj k' k conn'' conn hk' hk heq)
      rw [hselected, hreturned, buffersOf, hresults, Function.update_of_ne hid]
      exact h.served k' conn'' hk'
  · intro n hn
    rw [hselected, hreturned]
    rcases eq_or_ne n conn.id with rfl | hne
    · -- The coroutine has returned, and holds nothing.
      have hnone : next.2 = none := by
        rw [← hconn']
        by_contra hsome
        obtain ⟨conn'', heq⟩ := Option.ne_none_iff_exists'.mp hsome
        exact hn k conn'' (by rw [hhandlers, Function.update_self, heq]) (hkept conn'' heq).2.1
      rw [Function.update_self, hold, hnone, Option.elim_none, List.append_nil]
    · rw [Function.update_of_ne hne]
      rw [hhandlers] at hn
      exact h.unserved n (unserved_of_update (by simp [hk, hne.symm]) hn)

/-- The step lemma for the buffers. -/
theorem Balanced.step (h : s.Balanced code held) (hcode : code.Returns promise held)
    (hkeeps : s.Keeps code promise) {op : ServerOp ε κ} (hstep : serverStep code promise s op t) :
    t.Balanced code held := by
  obtain ⟨hstep, -⟩ := hstep
  cases op with
  | accept d =>
    obtain ⟨-, ht⟩ := Option.ite_none_right_eq_some.mp hstep
    obtain rfl := Option.some.inj ht
    exact h.congr rfl rfl rfl rfl
  | handleClient k d n =>
    obtain ⟨⟨hmem, hk⟩, ht⟩ := Option.ite_none_right_eq_some.mp hstep
    obtain rfl := Option.some.inj ht
    exact (h.handleClient hcode.start hk (d := d) fun k' conn hk' heq =>
      hkeeps.numbered.not_accepted k' conn hk' _ hmem heq.symm).congr rfl rfl rfl rfl
  | complete c r =>
    simp only [Server.step] at hstep
    split at hstep
    · next request hrequest hnone =>
      obtain rfl := Option.some.inj hstep
      obtain ⟨k, conn, op, hk, hplace, hctx, rfl⟩ := hkeeps.serves.waiting hrequest hnone
      exact h.complete hkeeps.numbered hkeeps.serves hk hplace hctx hrequest hnone rfl rfl rfl rfl
    · simp at hstep
  | poll c =>
    simp only [Server.step] at hstep
    split at hstep
    · obtain ⟨io, -, rfl⟩ := Option.map_eq_some_iff.mp hstep
      exact h.congr rfl rfl rfl rfl
    · simp at hstep
  | resume k input awaiter =>
    simp only [Server.step] at hstep
    split at hstep
    · next conn hk =>
      split at hstep
      · next hplace =>
        refine h.goOn hkeeps.numbered hkeeps.serves.results_lt hk ?_ hstep
        rw [hcode.advance input conn.pc none (by simp [hplace]) (by simp [hplace]), buffersOf]
        simp [ClientHandler.selects, hplace]
      · next op hplace =>
        obtain ⟨x, hio, ht⟩ := Option.bind_eq_some_iff.mp hstep
        obtain ⟨-, c, hctx, hresult, hrequest, -⟩ := hkeeps.serves.awaitResult hk hplace hio
        have hnum : ({ s with io := x.2 }).Numbered :=
          hkeeps.numbered.congr rfl rfl fun k conn hk => ⟨conn, hk, rfl⟩
        have h' : ({ s with io := x.2 }).Balanced code held := h.congr rfl rfl rfl rfl
        refine h'.goOn hnum hkeeps.serves.results_lt hk ?_ ht
        rw [hcode.advance input conn.pc (some x.1) (by simp [hplace]) fun op' r hop heq => ?_,
          buffersOf, hctx, Option.bind_some, hresult]
        obtain rfl := Option.some.inj heq
        obtain rfl := Option.some.inj (hplace.symm.trans hop)
        exact hkeeps.serves.promised c _ x.1 hrequest hresult
    · simp at hstep

/-- The buffers of a server are balanced in every run. -/
theorem reachable_balanced (hcode : code.ClosesLast) (hreturns : code.Returns promise held)
    (hs : Reachable (serverStep code promise) new s) : s.Balanced code held := by
  suffices h : s.Keeps code promise ∧ s.Balanced code held from h.2
  refine Reachable.invariant (I := fun s => s.Keeps code promise ∧ s.Balanced code held)
    (fun s op t h hstep => ?_) ⟨new_keeps, new_balanced⟩ hs
  exact ⟨h.1.step hcode hstep, h.2.step hreturns h.1 hstep⟩

end Server

end Novaio
