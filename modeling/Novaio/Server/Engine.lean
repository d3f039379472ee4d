import Novaio.Server.Basic

/-!
# A server and the engine

Each coroutine of a server waits for the operation of its place, or for none, and each operation
that the kernel has not completed is waited for (`Serves`). So the coroutines use the engine as they
should, whatever they do with the results: a result that a coroutine gets is that of its own
operation, and no context is leaked or used after its end.
-/

namespace Novaio

open DirectIo Transition

/-- A coroutine starts without an operation, and returns after it has closed its descriptor, and
only then. -/
structure ClientHandler.ClosesLast {ε π : Type*} (code : ClientHandler ε π) : Prop where
  start : code.awaits code.start = none
  returns_iff : ∀ input pc ret, ret.isSome = (code.awaits pc).isSome →
    ((code.advance input pc ret).2 = none ↔ code.awaits pc = some .close)

namespace Server

variable {ε κ π : Type*} {code : ClientHandler ε π} {promise : DirectOp → IoResult → Prop}
  {s t : Server κ π} {k : κ} {conn : Connection π}

/-! ## The coroutines and the engine -/

/-- A coroutine waits for the operation of its place, or for none. -/
def Placed (code : ClientHandler ε π) (s : Server κ π) (k : κ) (conn : Connection π) : Prop :=
  (∃ op c, code.awaits conn.pc = some op ∧ conn.ctx = some c ∧
    s.requests[c]? = some ⟨op, conn.directFd, conn.id⟩ ∧ s.io.Waits k c) ∨
  code.awaits conn.pc = none ∧ conn.ctx = none ∧ s.io.suspension k = .running

/-- What holds of the coroutines and the engine, but for the place of a coroutine that runs. -/
structure Serves [DecidableEq κ] (code : ClientHandler ε π)
    (promise : DirectOp → IoResult → Prop) (busy : Option κ) (s : Server κ π) : Prop where
  sound : s.io.Sound
  issued : s.io.issued = s.requests.map Request.op
  placed : ∀ k conn, s.handlers k = some conn → busy ≠ some k → s.Placed code k conn
  running : ∀ k, busy = some k → s.io.suspension k = .running
  idle : ∀ k, s.handlers k = none → s.io.suspension k = .running
  completions : ∀ c r, s.io.completions c = some r → s.results c = some r
  results_lt : ∀ c, s.results c ≠ none → c < s.requests.length
  outstanding : ∀ c, c < s.requests.length → s.io.completions c = none →
    ∃ k conn, s.handlers k = some conn ∧ busy ≠ some k ∧ conn.ctx = some c
  promised : ∀ c request r, s.requests[c]? = some request → s.results c = some r →
    promise request.op r

variable [DecidableEq κ] {busy : Option κ}

/-- A coroutine waits for each operation that the kernel has not completed. -/
theorem Serves.waiting (h : s.Serves code promise none) {c : ℕ} {request : Request}
    (hrequest : s.requests[c]? = some request) (hnone : s.results c = none) :
    ∃ k conn op, s.handlers k = some conn ∧ code.awaits conn.pc = some op ∧ conn.ctx = some c ∧
      request = ⟨op, conn.directFd, conn.id⟩ := by
  have hcompletions : s.io.completions c = none := by
    by_contra hsome
    obtain ⟨r, hr⟩ := Option.ne_none_iff_exists'.mp hsome
    cases hnone.symm.trans (h.completions c r hr)
  obtain ⟨k, conn, hk, -, hctx⟩ :=
    h.outstanding c (List.getElem?_eq_some_iff.mp hrequest).1 hcompletions
  rcases h.placed k conn hk (by simp) with ⟨op, c', hplace, hctx', hrequest', -⟩ | ⟨-, hctx', -⟩
  · obtain rfl := Option.some.inj (hctx'.symm.trans hctx)
    exact ⟨k, conn, op, hk, hplace, hctx, Option.some.inj (hrequest.symm.trans hrequest')⟩
  · simp [hctx] at hctx'

/-- The kernel keeps its promise about the result that a coroutine gets. -/
theorem Serves.promised_of (h : s.Serves code promise none) (hk : s.handlers k = some conn)
    {op : DirectOp} (hop : code.awaits conn.pc = some op) {r : IoResult}
    (hret : conn.ctx.bind s.results = some r) : promise op r := by
  rcases h.placed k conn hk (by simp) with ⟨op', c, hop', hctx, hrequest, -⟩ | ⟨hnone, -⟩
  · obtain rfl := Option.some.inj (hop.symm.trans hop')
    rw [hctx, Option.bind_some] at hret
    exact h.promised c _ r hrequest hret
  · simp [hop] at hnone

/-- Nothing is accepted at the start. -/
theorem new_serves : (new : Server κ π).Serves code promise none := by
  refine ⟨new_sound, rfl, ?_, ?_, ?_, ?_, ?_, ?_, ?_⟩ <;> simp [new, DirectIo.new]

/-- A step that concerns neither the coroutines nor the engine. -/
theorem Serves.congr (h : s.Serves code promise busy) (hio : t.io = s.io)
    (hhandlers : t.handlers = s.handlers) (hrequests : t.requests = s.requests)
    (hresults : t.results = s.results) : t.Serves code promise busy := by
  obtain ⟨io, handlers, requests, results⟩ := t
  obtain rfl := hio
  obtain rfl := hhandlers
  obtain rfl := hrequests
  obtain rfl := hresults
  exact ⟨h.sound, h.issued, h.placed, h.running, h.idle, h.completions, h.results_lt,
    h.outstanding, h.promised⟩

/-- A coroutine of a connection starts, in a place where it awaits nothing. -/
theorem Serves.handleClient (h : s.Serves code promise none) (hcode : code.ClosesLast)
    (hk : s.handlers k = none) (directFd id : ℕ) :
    (s.setHandler k (some ⟨directFd, id, code.start, none⟩)).Serves code promise none := by
  have hothers {k' : κ} {conn : Connection π} (hk' : s.handlers k' = some conn) : k' ≠ k := by
    rintro rfl
    simp [hk] at hk'
  refine ⟨h.sound, h.issued, fun k' conn hk' hbusy => ?_, h.running, fun k' hk' => ?_,
    h.completions, h.results_lt, fun c hc hnone => ?_, h.promised⟩
  · by_cases heq : k' = k
    · subst heq
      rw [setHandler_self] at hk'
      obtain rfl := Option.some.inj hk'
      exact .inr ⟨hcode.start, rfl, h.idle k' hk⟩
    · rw [s.setHandler_of_ne _ heq] at hk'
      exact h.placed k' conn hk' hbusy
  · by_cases heq : k' = k
    · subst heq
      simp at hk'
    · rw [s.setHandler_of_ne _ heq] at hk'
      exact h.idle k' hk'
  · obtain ⟨k', conn, hk', hbusy, hctx⟩ := h.outstanding c hc hnone
    exact ⟨k', conn, (s.setHandler_of_ne _ (hothers hk')).trans hk', hbusy, hctx⟩

/-- The kernel completes an operation. -/
theorem Serves.complete (h : s.Serves code promise busy) {c : ℕ} {request : Request}
    {r : IoResult} (hrequest : s.requests[c]? = some request) (hnone : s.results c = none)
    (hpromise : promise request.op r) : (s.complete c request r).Serves code promise busy := by
  have hother {c' : ℕ} (hne : c' ≠ c) : (s.complete c request r).results c' = s.results c' :=
    Function.update_of_ne hne _ _
  have hself : (s.complete c request r).results c = some r := Function.update_self ..
  refine ⟨h.sound, h.issued, h.placed, h.running, h.idle, fun c' r' hc' => ?_, fun c' hc' => ?_,
    h.outstanding, fun c' request' r' hrequest' hc' => ?_⟩
  · have hold := h.completions c' r' hc'
    by_cases heq : c' = c
    · subst heq
      simp [hnone] at hold
    · rw [hother heq, hold]
  · by_cases heq : c' = c
    · exact heq ▸ (List.getElem?_eq_some_iff.mp hrequest).1
    · rw [hother heq] at hc'
      exact h.results_lt c' hc'
  · by_cases heq : c' = c
    · subst heq
      rw [hself] at hc'
      obtain rfl := Option.some.inj hc'
      obtain rfl := Option.some.inj (hrequest.symm.trans hrequest')
      exact hpromise
    · rw [hother heq] at hc'
      exact h.promised c' request' r' hrequest' hc'

/-- `poll` handles a completion. -/
theorem Serves.poll (h : s.Serves code promise busy) {c : ℕ} {r : IoResult} {io : DirectIo κ}
    (hc : s.results c = some r) (hio : s.io.step (.poll c r) = some io) :
    ({ s with io := io }).Serves code promise busy := by
  obtain ⟨hsound, hnone, hissued, hcompletions, hsuspension, hwaits⟩ := h.sound.poll hio
  refine ⟨hsound, hissued.trans h.issued, fun k conn hk hbusy => ?_, fun k hk => ?_,
    fun k hk => ?_, fun c' r' hc' => ?_, h.results_lt, fun c' hlt hnone' => ?_, h.promised⟩
  · rcases h.placed k conn hk hbusy with ⟨op, c', hop, hctx, hrequest, hwait⟩ | ⟨hop, hctx, hrun⟩
    · exact .inl ⟨op, c', hop, hctx, hrequest, hwaits k c' hwait⟩
    · exact .inr ⟨hop, hctx, by rw [hsuspension, hrun]⟩
  · rw [hsuspension]
    exact h.running k hk
  · rw [hsuspension]
    exact h.idle k hk
  · rw [hcompletions, Function.update_apply] at hc'
    split_ifs at hc' with heq
    · rw [heq, hc, hc']
    · exact h.completions c' r' hc'
  · rw [hcompletions, Function.update_apply] at hnone'
    split_ifs at hnone'
    exact h.outstanding c' hlt hnone'

/-- A coroutine that awaits nothing goes on. -/
theorem Serves.wake (h : s.Serves code promise none) (hk : s.handlers k = some conn)
    (hop : code.awaits conn.pc = none) : s.Serves code promise (some k) := by
  have hctx : conn.ctx = none ∧ s.io.suspension k = .running := by
    rcases h.placed k conn hk (by simp) with ⟨op, c, hsome, -⟩ | ⟨-, hrest⟩
    · simp [hop] at hsome
    · exact hrest
  refine ⟨h.sound, h.issued, fun k' conn' hk' _ => h.placed k' conn' hk' (by simp),
    fun k' hk' => Option.some.inj hk' ▸ hctx.2, h.idle, h.completions, h.results_lt,
    fun c hc hnone => ?_, h.promised⟩
  obtain ⟨k', conn', hk', -, hctx'⟩ := h.outstanding c hc hnone
  refine ⟨k', conn', hk', ?_, hctx'⟩
  rintro ⟨⟩
  obtain rfl := Option.some.inj (hk.symm.trans hk')
  simp [hctx.1] at hctx'

/-- A coroutine gets the result of its operation, and goes on. -/
theorem Serves.awaitResult (h : s.Serves code promise none) (hk : s.handlers k = some conn)
    {op : DirectOp} (hop : code.awaits conn.pc = some op) {ret : IoResult} {io : DirectIo κ}
    (hio : s.io.awaitResult k = some (ret, io)) :
    ({ s with io := io }).Serves code promise (some k) ∧
      ∃ c, conn.ctx = some c ∧ s.results c = some ret ∧
        s.requests[c]? = some ⟨op, conn.directFd, conn.id⟩ ∧ s.io.completions c = some ret ∧
        io.results = s.io.results ++ [(c, ret)] := by
  obtain ⟨op', c, hop', hctx, hrequest, hwait⟩ | ⟨hnone, -⟩ := h.placed k conn hk (by simp)
  · obtain rfl := Option.some.inj (hop.symm.trans hop')
    obtain ⟨hsound, hcompleted, hresults, hissued, hcompletions, hrun, hothers⟩ :=
      h.sound.awaitResult hwait hio
    have hresult := h.completions c ret hcompleted
    refine ⟨⟨hsound, hissued.trans h.issued, fun k' conn' hk' hbusy => ?_,
      fun k' hk' => Option.some.inj hk' ▸ hrun, fun k' hk' => ?_, fun c' r' hc' => ?_, h.results_lt,
      fun c' hc' hnone => ?_, h.promised⟩, c, hctx, hresult, hrequest, hcompleted, hresults⟩
    · have hne : k' ≠ k := fun heq => hbusy (by rw [heq])
      rcases h.placed k' conn' hk' (by simp) with
        ⟨op, c', hop, hctx, hreq, hwait⟩ | ⟨hop, hctx, hrun⟩
      · exact .inl ⟨op, c', hop, hctx, hreq, (hothers k' hne).2 c' hwait⟩
      · exact .inr ⟨hop, hctx, (hothers k' hne).1 hrun⟩
    · have hne : k' ≠ k := by
        rintro rfl
        simp [hk] at hk'
      exact (hothers k' hne).1 (h.idle k' hk')
    · rw [hcompletions] at hc'
      exact h.completions c' r' hc'
    · rw [hcompletions] at hnone
      obtain ⟨k', conn', hk', -, hctx'⟩ := h.outstanding c' hc' hnone
      refine ⟨k', conn', hk', ?_, hctx'⟩
      rintro ⟨⟩
      obtain rfl := Option.some.inj (hk.symm.trans hk')
      obtain rfl := Option.some.inj (hctx.symm.trans hctx')
      cases hcompleted.symm.trans hnone
  · simp [hop] at hnone

/-- A coroutine that is running returns, or goes to a place where it awaits nothing. -/
theorem Serves.setHandler (h : s.Serves code promise (some k)) {conn : Option (Connection π)}
    (hconn : ∀ conn', conn = some conn' → code.awaits conn'.pc = none ∧ conn'.ctx = none) :
    (s.setHandler k conn).Serves code promise none := by
  have hrun := h.running k rfl
  refine ⟨h.sound, h.issued, fun k' conn' hk' _ => ?_, nofun, fun k' hk' => ?_, h.completions,
    h.results_lt, fun c hc hnone => ?_, h.promised⟩
  · by_cases heq : k' = k
    · subst heq
      rw [setHandler_self] at hk'
      obtain ⟨hop, hctx⟩ := hconn conn' hk'
      exact .inr ⟨hop, hctx, hrun⟩
    · rw [s.setHandler_of_ne _ heq] at hk'
      exact h.placed k' conn' hk' (by simpa using Ne.symm heq)
  · by_cases heq : k' = k
    · exact heq ▸ hrun
    · rw [s.setHandler_of_ne _ heq] at hk'
      exact h.idle k' hk'
  · obtain ⟨k', conn', hk', hbusy, hctx⟩ := h.outstanding c hc hnone
    have hne : k' ≠ k := fun heq => hbusy (by rw [heq])
    exact ⟨k', conn', (s.setHandler_of_ne _ hne).trans hk', nofun, hctx⟩

/-- A coroutine that is running awaits an operation. -/
theorem Serves.coAwait (h : s.Serves code promise (some k)) (conn : Connection π)
    {op : DirectOp} {awaiter : ℕ} {io : DirectIo κ} (hio : s.io.coAwait op awaiter k = some io)
    (hop : code.awaits conn.pc = some op) (hctx : conn.ctx = some s.requests.length) :
    ({ s.setHandler k (some conn) with
      io := io
      requests := s.requests ++ [⟨op, conn.directFd, conn.id⟩] } : Server κ π).Serves code promise
        none := by
  obtain ⟨hsound, -, hissued, hcompletions, hwait, hothers⟩ := h.sound.coAwait hio
  have hlength : s.io.issued.length = s.requests.length := by rw [h.issued, List.length_map]
  have hkept {c : ℕ} {request : Request} (hc : s.requests[c]? = some request) :
      (s.requests ++ [(⟨op, conn.directFd, conn.id⟩ : Request)])[c]? = some request := by
    rw [List.getElem?_append_left (List.getElem?_eq_some_iff.mp hc).1, hc]
  refine ⟨hsound, ?_, fun k' conn' hk' _ => ?_, nofun, fun k' hk' => ?_, fun c r hc => ?_,
    fun c hc => ?_, fun c hc hnone => ?_, fun c request r hrequest hc => ?_⟩
  · show io.issued = (s.requests ++ [_]).map Request.op
    rw [hissued, h.issued, List.map_append]
    rfl
  · have hk' : (s.setHandler k (some conn)).handlers k' = some conn' := hk'
    by_cases heq : k' = k
    · subst heq
      rw [setHandler_self] at hk'
      obtain rfl := Option.some.inj hk'
      refine .inl ⟨op, s.requests.length, hop, hctx, ?_, hlength ▸ hwait⟩
      rw [List.getElem?_append_right (Nat.le_refl _), Nat.sub_self]
      rfl
    · rw [s.setHandler_of_ne _ heq] at hk'
      rcases h.placed k' conn' hk' (by simpa using Ne.symm heq) with
        ⟨op', c, hop', hctx', hrequest, hwait'⟩ | ⟨hop', hctx', hrun⟩
      · exact .inl ⟨op', c, hop', hctx', hkept hrequest, (hothers k' heq).2 c hwait'⟩
      · exact .inr ⟨hop', hctx', by rw [(hothers k' heq).1, hrun]⟩
  · have hk' : (s.setHandler k (some conn)).handlers k' = none := hk'
    have heq : k' ≠ k := by
      rintro rfl
      simp at hk'
    rw [s.setHandler_of_ne _ heq] at hk'
    rw [(hothers k' heq).1, h.idle k' hk']
  · rw [hcompletions] at hc
    exact h.completions c r hc
  · show c < (s.requests ++ [_]).length
    have hlt := h.results_lt c hc
    simp only [List.length_append, List.length_singleton]
    omega
  · by_cases heq : c = s.requests.length
    · exact ⟨k, conn, setHandler_self s k _, nofun, by rw [hctx, heq]⟩
    · have hlt : c < s.requests.length := by
        have hc : c < (s.requests ++ [_]).length := hc
        simp only [List.length_append, List.length_singleton] at hc
        omega
      rw [hcompletions] at hnone
      obtain ⟨k', conn', hk', hbusy, hctx'⟩ := h.outstanding c hlt hnone
      have hne : k' ≠ k := fun heq => hbusy (by rw [heq])
      exact ⟨k', conn', (s.setHandler_of_ne _ hne).trans hk', nofun, hctx'⟩
  · have hc : s.results c = some r := hc
    have hlt := h.results_lt c (by rw [hc]; simp)
    have hrequest : (s.requests ++ [_])[c]? = some request := hrequest
    rw [List.getElem?_append_left hlt] at hrequest
    exact h.promised c request r hrequest hc

/-- A coroutine goes on to its next suspension, or returns. -/
theorem Serves.goOn (h : s.Serves code promise (some k)) {awaiter : ℕ}
    {next : List UInt16 × Option π} (ht : s.goOn code k conn awaiter next = some t) :
    t.Serves code promise none := by
  set returned := Function.update s.returned conn.id (s.returned conn.id ++ next.1)
  have h' : ({ s with returned := returned }).Serves code promise (some k) :=
    h.congr rfl rfl rfl rfl
  simp only [Server.goOn] at ht
  split at ht
  · obtain rfl := Option.some.inj ht
    exact h'.setHandler nofun
  · next pc hpc =>
    split at ht
    · next hop =>
      obtain rfl := Option.some.inj ht
      refine h'.setHandler fun conn' hconn' => ?_
      obtain rfl := Option.some.inj hconn'
      exact ⟨hop, rfl⟩
    · next op hop =>
      obtain ⟨io, hio, rfl⟩ := Option.map_eq_some_iff.mp ht
      exact h'.coAwait { conn with pc := pc, ctx := some s.requests.length } hio hop rfl

/-- The step lemma for the coroutines and the engine. -/
theorem Serves.step (h : s.Serves code promise none) (hcode : code.ClosesLast) {op : ServerOp ε κ}
    (hstep : serverStep code promise s op t) : t.Serves code promise none := by
  obtain ⟨hstep, hpromise⟩ := hstep
  cases op with
  | accept directFd =>
    obtain ⟨-, ht⟩ := Option.ite_none_right_eq_some.mp hstep
    exact h.congr (Option.some.inj ht ▸ rfl) (Option.some.inj ht ▸ rfl) (Option.some.inj ht ▸ rfl)
      (Option.some.inj ht ▸ rfl)
  | handleClient k directFd id =>
    obtain ⟨⟨-, hk⟩, ht⟩ := Option.ite_none_right_eq_some.mp hstep
    obtain rfl := Option.some.inj ht
    exact (h.handleClient hcode hk directFd id).congr rfl rfl rfl rfl
  | complete c r =>
    simp only [Server.step] at hstep
    split at hstep
    · next request hrequest hnone =>
      obtain rfl := Option.some.inj hstep
      exact h.complete hrequest hnone (hpromise request hrequest)
    · simp at hstep
  | poll c =>
    simp only [Server.step] at hstep
    split at hstep
    · obtain ⟨io, hio, rfl⟩ := Option.map_eq_some_iff.mp hstep
      exact h.poll ‹_› hio
    · simp at hstep
  | resume k input awaiter =>
    simp only [Server.step] at hstep
    split at hstep
    · next conn hk =>
      split at hstep
      · exact (h.wake hk ‹_›).goOn hstep
      · obtain ⟨x, hio, ht⟩ := Option.bind_eq_some_iff.mp hstep
        exact (h.awaitResult hk ‹_› hio).1.goOn ht
    · simp at hstep

/-- What the kernel completes is handled, and goes to the coroutine that awaits it. -/
structure Delivers (code : ClientHandler ε π) (s : Server κ π) : Prop where
  /-- What `poll` has handled is what the kernel has completed. -/
  handled (c : ℕ) (r : IoResult) : s.io.completions c = some r → s.results c = some r
  /-- `poll` handles what has completed, once. -/
  polls (c : ℕ) (t : Server κ π) : s.step code (.poll c) = some t → ∃ r,
    s.results c = some r ∧ s.io.completions c = none ∧ t.io.completions c = some r
  /-- It can handle whatever has completed, and schedules the coroutine that awaits it. -/
  scheduled (c : ℕ) (r : IoResult) : s.results c = some r → s.io.completions c = none →
    ∃ k conn t, s.handlers k = some conn ∧ conn.ctx = some c ∧ s.step code (.poll c) = some t ∧
      t.io.ready = s.io.ready ++ [k] ∧ t.io.scheduled = s.io.scheduled ++ [(c, k)]
  /-- A coroutine that awaits an operation goes on with its result. -/
  resumed (k : κ) (conn : Connection π) (op : DirectOp) (input : ε) (awaiter : ℕ)
    (t : Server κ π) : s.handlers k = some conn → code.awaits conn.pc = some op →
    s.step code (.resume k input awaiter) = some t → ∃ c r io, conn.ctx = some c ∧
      s.io.completions c = some r ∧ io.results = s.io.results ++ [(c, r)] ∧
      ({ s with io := io }).goOn code k conn awaiter (code.advance input conn.pc (some r)) = some t

end Server

end Novaio
