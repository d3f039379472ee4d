import Mathlib.Algebra.BigOperators.Group.Finset.Basic
import Mathlib.Algebra.Order.BigOperators.Group.Finset
import Mathlib.Algebra.Order.Group.Multiset
import Novaio.BufRing
import Novaio.Server.Buffers

/-!
# The buffer ring of a server

The coroutines of a server share the ring of provided buffers. The kernel selects the buffer at its
head for what a connection receives, and `return_buffer` of a coroutine gives it back to the ring.

Whatever the coroutines do in between, they give back only what the kernel selected and what has not
been given back since (`Tallied`): the ring is used as `bufStep` says. So in a run whose returns are
in place each buffer is in exactly one place, and what is not published is with the connections that
it was selected for.
-/

namespace Novaio

open DirectIo Transition

namespace BufState

/-- `return_buffer` for each buffer of a list. -/
def giveBack (bufferBase : ℕ) (ring : BufState) (bids : List UInt16) : BufState :=
  bids.foldl (fun ring bid =>
    ⟨returnBuffer bufferBase ring.ring bid, ring.head, ring.held.erase bid⟩) ring

/-- Each return of a list is in place. -/
def AllInPlace (bufferBase : ℕ) : BufState → List UInt16 → Prop
  | _, [] => True
  | ring, bid :: bids =>
    InPlace ring (.returnBuffer bid) ∧ AllInPlace bufferBase (ring.giveBack bufferBase [bid]) bids

/-- Whether a slot is among those from a position on, without a search. -/
theorem exists_slot_iff (head n pos : ℕ) :
    (∃ i < n, slot (head + i) = slot pos) ↔
      (slot pos + bufRingSize - slot head) % bufRingSize < n := by
  unfold slot bufRingSize
  constructor
  · rintro ⟨i, hi, hslot⟩
    omega
  · intro h
    exact ⟨_, h, by omega⟩

/-- Whether a return is in place can be computed. -/
instance decidableInPlace (ring : BufState) : ∀ op, Decidable (InPlace ring op)
  | .select => inferInstanceAs (Decidable True)
  | .returnBuffer bid =>
    decidable_of_iff (slot ring.ring.tail.toNat = 0 ∨
      if (slot (2 * ring.ring.tail.toNat) + bufRingSize - slot ring.head.toNat) % bufRingSize <
        ring.pending
      then (ring.ring.bufs (slot ring.ring.tail.toNat)).bid =
        (ring.ring.bufs (slot (2 * ring.ring.tail.toNat))).bid
      else (ring.ring.bufs (slot ring.ring.tail.toNat)).bid = bid)
      (by simp only [InPlace, exists_slot_iff])

/-- Whether each return of a list is in place can be computed. -/
instance decidableAllInPlace (bufferBase : ℕ) :
    ∀ (ring : BufState) (bids : List UInt16), Decidable (ring.AllInPlace bufferBase bids)
  | _, [] => inferInstanceAs (Decidable True)
  | ring, bid :: bids =>
    have := decidableAllInPlace bufferBase (ring.giveBack bufferBase [bid]) bids
    inferInstanceAs (Decidable (InPlace ring (.returnBuffer bid) ∧
      AllInPlace bufferBase (ring.giveBack bufferBase [bid]) bids))

variable {bufferBase : ℕ}

/-- A buffer that is held is given back. -/
theorem giveBack_cons (bufferBase : ℕ) {ring : BufState} {bid : UInt16} {bids : List UInt16}
    {rest : Multiset UInt16}
    (hheld : (ring.held : Multiset UInt16) = (bid :: bids : List UInt16) + rest) :
    bufStep bufferBase ring (.returnBuffer bid) (ring.giveBack bufferBase [bid]) ∧
      ((ring.giveBack bufferBase [bid]).held : Multiset UInt16) = bids + rest := by
  rw [← Multiset.cons_coe, Multiset.cons_add] at hheld
  have hmem : bid ∈ ring.held := by
    rw [← Multiset.mem_coe, hheld]
    exact Multiset.mem_cons_self ..
  refine ⟨⟨hmem, rfl⟩, ?_⟩
  show ((ring.held.erase bid : List UInt16) : Multiset UInt16) = bids + rest
  rw [← Multiset.coe_erase, hheld, Multiset.erase_cons_head]

/-- The ring after returns of buffers that are held. -/
theorem giveBack_held {ring : BufState} (hw : WellFormed bufferBase ring) {bids : List UInt16}
    {rest : Multiset UInt16} (hheld : (ring.held : Multiset UInt16) = bids + rest) :
    WellFormed bufferBase (ring.giveBack bufferBase bids) ∧
      ((ring.giveBack bufferBase bids).held : Multiset UInt16) = rest := by
  induction bids generalizing ring with
  | nil => exact ⟨hw, by simpa [giveBack] using hheld⟩
  | cons bid bids ih =>
    obtain ⟨hstep, hrest⟩ := giveBack_cons bufferBase hheld
    exact ih (bufStep_wellFormed _ _ _ hw hstep) hrest

/-- The ring after returns that are in place, of buffers that are held. -/
theorem giveBack_conserved {ring : BufState} (hw : WellFormed bufferBase ring)
    (hc : Conserved ring) {bids : List UInt16} {rest : Multiset UInt16}
    (hheld : (ring.held : Multiset UInt16) = bids + rest)
    (hplace : ring.AllInPlace bufferBase bids) : Conserved (ring.giveBack bufferBase bids) := by
  induction bids generalizing ring with
  | nil => exact hc
  | cons bid bids ih =>
    obtain ⟨hstep, hrest⟩ := giveBack_cons bufferBase hheld
    exact ih (bufStep_wellFormed _ _ _ hw hstep)
      ((bufStep_conserved_iff _ _ _ hw hc hstep).mpr hplace.1) hrest hplace.2

/-- The buffer that is selected is not held, when each buffer is in one place. -/
theorem select_not_held {ring ring' : BufState} (hw : WellFormed bufferBase ring)
    (hc : Conserved ring) (hstep : bufStep bufferBase ring .select ring') :
    (ring.ring.bufs (slot ring.head.toNat)).bid ∉ ring.held := by
  intro hmem
  have hone := hc _ (hw.held _ hmem)
  rw [(select_published hstep.1).2, List.count_cons_self] at hone
  have hpos := List.count_pos_iff.mpr hmem
  omega

end BufState

/-- The entries that the setup writes. -/
def entries (bufferBase : ℕ) (i : ℕ) : BufEntry :=
  ⟨bufferBase + i * bufBlockSize, bufBlockSize, UInt16.ofNat i⟩

/-- The setup of a ring whose memory already has the entries. -/
theorem bufStart_entries (bufferBase : ℕ) :
    bufStart bufferBase (entries bufferBase) = ⟨⟨entries bufferBase, 2048⟩, 0, []⟩ := by
  have hadd (n : ℕ) (hn : n ≤ bufRingSize) :
      addBuffers bufferBase ⟨entries bufferBase, 0⟩ n = ⟨entries bufferBase, 0⟩ := by
    induction n with
    | zero => rfl
    | succ n ih =>
      have hslot : slot n = n := Nat.mod_eq_of_lt hn
      simp only [addBuffers_succ, ih (by omega), ioUringBufRingAdd, and_mask, UInt16.toNat_zero,
        Nat.zero_add, hslot]
      exact congrArg (BufRing.mk · 0) (Function.update_eq_self n (entries bufferBase))
  rw [bufStart, setupProvidedBufferRing, hadd _ (le_refl _)]
  rfl

/-- A server with the ring of its engine. -/
structure RingServer (κ π : Type*) where
  server : Server κ π
  ring : BufState

namespace Server

variable {ε κ π : Type*}

/-- The buffers that a coroutine gives back when it goes on. -/
def givesBack (code : ClientHandler ε π) (s : Server κ π) (k : κ) (input : ε) : List UInt16 :=
  match s.handlers k with
  | some conn => (code.advance input conn.pc (conn.ctx.bind s.results)).1
  | none => []

/-- The buffers that have been selected for a connection and not been given back. -/
def outstanding (s : Server κ π) (n : ℕ) : List UInt16 :=
  (s.selected n).drop (s.returned n).length

end Server

/-- A step of a server and its ring: the kernel selects the buffer at its head for a completion that
carries one, and the buffers of a coroutine that goes on are given back. -/
def ringServerStep {ε κ π : Type*} [DecidableEq κ] (code : ClientHandler ε π)
    (promise : DirectOp → IoResult → Prop) (bufferBase : ℕ) (s : RingServer κ π)
    (op : ServerOp ε κ) (t : RingServer κ π) : Prop :=
  serverStep code promise s.server op t.server ∧
    match op with
    | .complete c r => ∀ request, s.server.requests[c]? = some request →
        match selectedBuffers request.op r with
        | [] => t.ring = s.ring
        | bid :: _ => bufStep bufferBase s.ring .select t.ring ∧
            (s.ring.ring.bufs (slot s.ring.head.toNat)).bid = bid
    | .resume k input _ =>
      t.ring = s.ring.giveBack bufferBase (s.server.givesBack code k input)
    | _ => t.ring = s.ring

namespace RingServer

variable {ε κ π : Type*} {code : ClientHandler ε π} {promise : DirectOp → IoResult → Prop}
  {held : π → List UInt16} {bufferBase : ℕ} {s t : RingServer κ π}

/-- A step, computed. -/
def next [DecidableEq κ] (code : ClientHandler ε π) (promise : DirectOp → IoResult → Prop)
    [∀ op r, Decidable (promise op r)] (bufferBase : ℕ) (s : RingServer κ π) (op : ServerOp ε κ) :
    Option (RingServer κ π) :=
  (s.server.step code op).bind fun server =>
    match op with
    | .complete c r =>
      (s.server.requests[c]?).bind fun request =>
        if promise request.op r then
          match selectedBuffers request.op r with
          | [] => some ⟨server, s.ring⟩
          | bid :: _ =>
            if s.ring.head ≠ s.ring.ring.tail ∧
                (s.ring.ring.bufs (slot s.ring.head.toNat)).bid = bid then
              some ⟨server, s.ring.ring, s.ring.head + 1, s.ring.held ++ [bid]⟩
            else none
        else none
    | .resume k input _ =>
      some ⟨server, s.ring.giveBack bufferBase (s.server.givesBack code k input)⟩
    | _ => some ⟨server, s.ring⟩

/-- What is computed is a step. -/
theorem ringServerStep_of_next [DecidableEq κ] [∀ op r, Decidable (promise op r)]
    {op : ServerOp ε κ} (h : s.next code promise bufferBase op = some t) :
    ringServerStep code promise bufferBase s op t := by
  obtain ⟨server, hserver, h⟩ := Option.bind_eq_some_iff.mp h
  cases op with
  | complete c r =>
    obtain ⟨request, hrequest, h⟩ := Option.bind_eq_some_iff.mp h
    obtain ⟨hpromise, h⟩ := Option.ite_none_right_eq_some.mp h
    have hone {request' : Request} (h : s.server.requests[c]? = some request') :
        request' = request := Option.some.inj (h.symm.trans hrequest)
    split at h
    · next hnil =>
      obtain rfl := Option.some.inj h
      refine ⟨⟨hserver, fun request' h' => hone h' ▸ hpromise⟩, fun request' h' => ?_⟩
      rw [hone h', hnil]
    · next bid rest hcons =>
      obtain ⟨⟨hne, hbid⟩, h⟩ := Option.ite_none_right_eq_some.mp h
      obtain rfl := Option.some.inj h
      refine ⟨⟨hserver, fun request' h' => hone h' ▸ hpromise⟩, fun request' h' => ?_⟩
      rw [hone h', hcons]
      exact ⟨⟨hne, by rw [hbid]⟩, hbid⟩
  | resume k input awaiter =>
    obtain rfl := Option.some.inj h
    exact ⟨⟨hserver, trivial⟩, rfl⟩
  | accept d =>
    obtain rfl := Option.some.inj h
    exact ⟨⟨hserver, trivial⟩, rfl⟩
  | handleClient k d n =>
    obtain rfl := Option.some.inj h
    exact ⟨⟨hserver, trivial⟩, rfl⟩
  | poll c =>
    obtain rfl := Option.some.inj h
    exact ⟨⟨hserver, trivial⟩, rfl⟩

/-- Nothing is accepted, and the ring is set up. -/
def new (bufferBase : ℕ) (mem : ℕ → BufEntry) : RingServer κ π := ⟨.new, bufStart bufferBase mem⟩

/-- The returns of a step are in place. -/
def ReturnsInPlace (code : ClientHandler ε π) (bufferBase : ℕ) (s : RingServer κ π) :
    ServerOp ε κ → Prop
  | .resume k input _ => s.ring.AllInPlace bufferBase (s.server.givesBack code k input)
  | _ => True

/-- Whether the returns of a step are in place can be computed. -/
instance decidableReturnsInPlace (code : ClientHandler ε π) (bufferBase : ℕ)
    (s : RingServer κ π) : ∀ op : ServerOp ε κ, Decidable (s.ReturnsInPlace code bufferBase op)
  | .resume k input _ =>
    inferInstanceAs (Decidable (s.ring.AllInPlace bufferBase (s.server.givesBack code k input)))
  | .accept _ | .handleClient _ _ _ | .complete _ _ | .poll _ => inferInstanceAs (Decidable True)

/-- The buffers that are held are those of the connections. -/
structure Tallied (bufferBase : ℕ) (s : RingServer κ π) : Prop where
  wellFormed : WellFormed bufferBase s.ring
  held : (s.ring.held : Multiset UInt16) =
    ∑ n ∈ Finset.range s.server.connections, (s.server.outstanding n : Multiset UInt16)

end RingServer

namespace Server

variable {ε κ π : Type*} {code : ClientHandler ε π} {promise : DirectOp → IoResult → Prop}
  {held : π → List UInt16} {s t : Server κ π} {k : κ} {conn : Connection π}

/-- What was selected for a connection was given back, or is outstanding. -/
theorem Balanced.selected_eq (h : s.Balanced code held) (n : ℕ) :
    s.selected n = s.returned n ++ s.outstanding n := by
  suffices hprefix : s.returned n <+: s.selected n from
    (List.prefix_iff_eq_append.mp hprefix).symm
  by_cases hn : ∃ k conn, s.handlers k = some conn ∧ conn.id = n
  · obtain ⟨k, conn, hk, rfl⟩ := hn
    exact ⟨_, (h.served k conn hk).symm⟩
  · push Not at hn
    rw [h.unserved n hn]

/-- The buffers that are outstanding for a connection are those that its coroutine has. -/
theorem Balanced.outstanding_eq (h : s.Balanced code held) (hk : s.handlers k = some conn) :
    s.outstanding conn.id = s.buffersOf code held conn :=
  List.append_cancel_left ((h.selected_eq conn.id).symm.trans (h.served k conn hk))

/-- No buffers are outstanding for a connection that has no coroutine. -/
theorem Balanced.outstanding_nil (h : s.Balanced code held) {n : ℕ}
    (hn : ∀ k conn, s.handlers k = some conn → conn.id ≠ n) : s.outstanding n = [] := by
  rw [outstanding, h.unserved n hn, List.drop_length]

/-- What a coroutine gives back. -/
theorem givesBack_eq (hk : s.handlers k = some conn) (input : ε) :
    s.givesBack code k input =
      (code.advance input conn.pc (conn.ctx.bind s.results)).1 := by
  simp [givesBack, hk]

variable [DecidableEq κ]

/-- A coroutine goes on with the result of its operation, if it awaits one. -/
theorem resume_cases (h : s.Keeps code promise) {input : ε} {awaiter : ℕ}
    (hstep : s.step code (.resume k input awaiter) = some t) :
    ∃ conn, s.handlers k = some conn ∧
      (conn.ctx.bind s.results).isSome = (code.awaits conn.pc).isSome ∧
      ∃ io, ({ s with io := io }).goOn code k conn awaiter
        (code.advance input conn.pc (conn.ctx.bind s.results)) = some t := by
  simp only [Server.step] at hstep
  split at hstep
  · next conn hk =>
    split at hstep
    · next hplace =>
      have hctx : conn.ctx = none := by
        rcases h.serves.placed k conn hk (by simp) with ⟨op, c, hop, -⟩ | ⟨-, hctx, -⟩
        · simp [hplace] at hop
        · exact hctx
      refine ⟨conn, hk, by simp [hctx, hplace], s.io, ?_⟩
      rw [hctx, Option.bind_none]
      exact hstep
    · next op hplace =>
      obtain ⟨x, hio, ht⟩ := Option.bind_eq_some_iff.mp hstep
      obtain ⟨-, c, hctx, hresult, -⟩ := h.serves.awaitResult hk hplace hio
      refine ⟨conn, hk, by simp [hctx, hresult, hplace], x.2, ?_⟩
      rw [hctx, Option.bind_some, hresult]
      exact ht
  · simp at hstep

/-- A coroutine that goes on gives its buffers back, and leaves those of the others as they are. -/
theorem resume_returned (h : s.Keeps code promise) {input : ε} {awaiter : ℕ}
    (hstep : s.step code (.resume k input awaiter) = some t) :
    ∃ conn, s.handlers k = some conn ∧ t.selected = s.selected ∧ t.connections = s.connections ∧
      t.returned =
        Function.update s.returned conn.id (s.returned conn.id ++ s.givesBack code k input) := by
  obtain ⟨conn, hk, -, io, ht⟩ := resume_cases h hstep
  obtain ⟨-, -, -, -, -, -, hconnections, -, -, hselected, hreturned⟩ :=
    goOn_cases (s := { s with io := io }) h.serves.results_lt ht
  refine ⟨conn, hk, hselected, hconnections, ?_⟩
  rw [hreturned, givesBack_eq hk]

end Server

namespace RingServer

open Server

variable {ε κ π : Type*} {code : ClientHandler ε π} {promise : DirectOp → IoResult → Prop}
  {held : π → List UInt16} {bufferBase : ℕ} {s t : RingServer κ π}

/-- After the setup nothing is held. -/
theorem new_tallied (mem : ℕ → BufEntry) :
    (new bufferBase mem : RingServer κ π).Tallied bufferBase :=
  ⟨bufStart_wellFormed bufferBase mem, rfl⟩

/-- The buffers of a connection, and those of the others. -/
theorem sum_outstanding {n m : ℕ} (hn : n < m) (f : ℕ → List UInt16) :
    ∑ i ∈ Finset.range m, (f i : Multiset UInt16) =
      f n + ∑ i ∈ (Finset.range m).erase n, (f i : Multiset UInt16) :=
  (Finset.add_sum_erase _ _ (Finset.mem_range.mpr hn)).symm

/-- A step that concerns no buffers. -/
theorem Tallied.congr (h : s.Tallied bufferBase) (hring : t.ring = s.ring)
    (hselected : t.server.selected = s.server.selected)
    (hreturned : t.server.returned = s.server.returned)
    (hconnections : t.server.connections = s.server.connections) : t.Tallied bufferBase := by
  have hout : t.server.outstanding = s.server.outstanding := by
    funext n
    rw [outstanding, hselected, hreturned, outstanding]
  constructor
  · rw [hring]
    exact h.wellFormed
  · rw [hring, hconnections, hout]
    exact h.held

/-- The kernel selects a buffer for a connection. -/
theorem Tallied.select (h : s.Tallied bufferBase) (hbalanced : s.server.Balanced code held)
    (hring : bufStep bufferBase s.ring .select t.ring) {n : ℕ} (hn : n < s.server.connections)
    (hselected : t.server.selected = Function.update s.server.selected n
      (s.server.selected n ++ [(s.ring.ring.bufs (slot s.ring.head.toNat)).bid]))
    (hreturned : t.server.returned = s.server.returned)
    (hconnections : t.server.connections = s.server.connections) : t.Tallied bufferBase := by
  refine ⟨(select_conserved h.wellFormed hring).1, ?_⟩
  set bid := (s.ring.ring.bufs (slot s.ring.head.toNat)).bid with hbid
  have hself : t.server.outstanding n = s.server.outstanding n ++ [bid] := by
    rw [outstanding, hselected, hreturned, Function.update_self, hbalanced.selected_eq n,
      List.append_assoc, List.drop_left]
  have hother (i : ℕ) (hi : i ∈ (Finset.range s.server.connections).erase n) :
      (t.server.outstanding i : Multiset UInt16) = s.server.outstanding i := by
    rw [outstanding, hselected, hreturned, Function.update_of_ne (Finset.ne_of_mem_erase hi),
      outstanding]
  have hheld : t.ring.held = s.ring.held ++ [bid] := by rw [hring.2]
  rw [hconnections, sum_outstanding hn, hself, Finset.sum_congr rfl hother, hheld,
    ← Multiset.coe_add, h.held, sum_outstanding hn, ← Multiset.coe_add]
  exact add_right_comm _ _ _

/-- What a coroutine gives back is held. -/
theorem Tallied.held_eq (h : s.Tallied bufferBase) (hbalanced : s.server.Balanced code held)
    (hbalanced' : t.server.Balanced code held) {bids : List UInt16} {n : ℕ}
    (hn : n < s.server.connections) (hselected : t.server.selected = s.server.selected)
    (hreturned : t.server.returned =
      Function.update s.server.returned n (s.server.returned n ++ bids))
    (hconnections : t.server.connections = s.server.connections) :
    (s.ring.held : Multiset UInt16) = bids +
      ∑ i ∈ Finset.range t.server.connections, (t.server.outstanding i : Multiset UInt16) := by
  have hself : s.server.outstanding n = bids ++ t.server.outstanding n := by
    have hold := hbalanced.selected_eq n
    have hnew := hbalanced'.selected_eq n
    rw [hselected, hreturned, Function.update_self, List.append_assoc, hold] at hnew
    exact List.append_cancel_left hnew
  have hother (i : ℕ) (hi : i ∈ (Finset.range s.server.connections).erase n) :
      (t.server.outstanding i : Multiset UInt16) = s.server.outstanding i := by
    rw [outstanding, hselected, hreturned, Function.update_of_ne (Finset.ne_of_mem_erase hi),
      outstanding]
  rw [h.held, hconnections, sum_outstanding hn, sum_outstanding hn, hself,
    Finset.sum_congr rfl hother, ← Multiset.coe_add, add_assoc]

variable [DecidableEq κ]

/-- A coroutine that goes on gives back what is held. -/
theorem Tallied.resume (h : s.Tallied bufferBase) (hkeeps : s.server.Keeps code promise)
    (hbalanced : s.server.Balanced code held) (hbalanced' : t.server.Balanced code held) {k : κ}
    {input : ε} {awaiter : ℕ}
    (hstep : s.server.step code (.resume k input awaiter) = some t.server) :
    (s.ring.held : Multiset UInt16) = (s.server.givesBack code k input : Multiset UInt16) +
      ∑ n ∈ Finset.range t.server.connections, (t.server.outstanding n : Multiset UInt16) := by
  obtain ⟨conn, hk, hselected, hconnections, hreturned⟩ := resume_returned hkeeps hstep
  exact h.held_eq hbalanced hbalanced' (hkeeps.numbered.id_lt k conn hk) hselected hreturned
    hconnections

/-- The step lemma for the ring: the buffers that are held are those of the connections. -/
theorem Tallied.step (h : s.Tallied bufferBase) (hkeeps : s.server.Keeps code promise)
    (hbalanced : s.server.Balanced code held) (hbalanced' : t.server.Balanced code held)
    {op : ServerOp ε κ} (hstep : ringServerStep code promise bufferBase s op t) :
    t.Tallied bufferBase := by
  obtain ⟨⟨hserver, -⟩, hring⟩ := hstep
  cases op with
  | accept d =>
    obtain ⟨-, ht⟩ := Option.ite_none_right_eq_some.mp hserver
    have ht := Option.some.inj ht
    have hnone : s.server.outstanding s.server.connections = [] :=
      hbalanced.outstanding_nil fun k conn hk => Nat.ne_of_lt (hkeeps.numbered.id_lt k conn hk)
    have hout : t.server.outstanding = s.server.outstanding := by rw [← ht]; rfl
    have hconnections : t.server.connections = s.server.connections + 1 := by rw [← ht]
    have hring : t.ring = s.ring := hring
    refine ⟨hring ▸ h.wellFormed, ?_⟩
    rw [hring, hconnections, hout, Finset.sum_range_succ, hnone, h.held]
    exact (add_zero _).symm
  | handleClient k d n =>
    obtain ⟨-, ht⟩ := Option.ite_none_right_eq_some.mp hserver
    have ht := Option.some.inj ht
    exact h.congr hring (by rw [← ht]; rfl) (by rw [← ht]; rfl) (by rw [← ht]; rfl)
  | complete c r =>
    simp only [Server.step] at hserver
    split at hserver
    · next request hrequest hnone =>
      have ht := Option.some.inj hserver
      obtain ⟨k, conn, op, hk, -, -, rfl⟩ := hkeeps.serves.waiting hrequest hnone
      have hselected : t.server.selected = Function.update s.server.selected conn.id
          (s.server.selected conn.id ++ selectedBuffers op r) := by rw [← ht]; rfl
      have hring := hring _ hrequest
      split at hring
      · next hnil =>
        have hnil : selectedBuffers op r = [] := hnil
        refine h.congr hring ?_ (by rw [← ht]; rfl) (by rw [← ht]; rfl)
        rw [hselected, hnil, List.append_nil, Function.update_eq_self]
      · next bid rest hcons =>
        have hcons : selectedBuffers op r = bid :: rest := hcons
        have hone : rest = [] := by
          unfold selectedBuffers at hcons
          split_ifs at hcons
          exact (List.cons.inj hcons).2.symm
        refine h.select hbalanced hring.1 (hkeeps.numbered.id_lt k conn hk) ?_
          (by rw [← ht]; rfl) (by rw [← ht]; rfl)
        rw [hselected, hcons, hone, hring.2]
    · simp at hserver
  | poll c =>
    simp only [Server.step] at hserver
    split at hserver
    · obtain ⟨io, -, ht⟩ := Option.map_eq_some_iff.mp hserver
      exact h.congr hring (by rw [← ht]) (by rw [← ht]) (by rw [← ht])
    · simp at hserver
  | resume k input awaiter =>
    obtain ⟨hw, hheld⟩ := BufState.giveBack_held h.wellFormed
      (h.resume hkeeps hbalanced hbalanced' hserver)
    exact ⟨hring ▸ hw, hring ▸ hheld⟩

/-- The step lemma for the ring, where the returns are in place: each buffer stays in one place. -/
theorem Tallied.conserved_step (h : s.Tallied bufferBase) (hkeeps : s.server.Keeps code promise)
    (hbalanced : s.server.Balanced code held) (hbalanced' : t.server.Balanced code held)
    (hc : Conserved s.ring) {op : ServerOp ε κ} (hplace : s.ReturnsInPlace code bufferBase op)
    (hstep : ringServerStep code promise bufferBase s op t) : Conserved t.ring := by
  obtain ⟨⟨hserver, -⟩, hring⟩ := hstep
  cases op with
  | complete c r =>
    simp only [Server.step] at hserver
    split at hserver
    · next request hrequest hnone =>
      have hring := hring _ hrequest
      split at hring
      · exact hring ▸ hc
      · exact (select_conserved h.wellFormed hring.1).2 hc
    · simp at hserver
  | resume k input awaiter =>
    have hring : t.ring = _ := hring
    rw [hring]
    exact BufState.giveBack_conserved h.wellFormed hc
      (h.resume hkeeps hbalanced hbalanced' hserver) hplace
  | accept d => exact hring ▸ hc
  | handleClient k d n => exact hring ▸ hc
  | poll c => exact hring ▸ hc

/-- What holds of a server and its ring in every run. -/
structure Keeps (code : ClientHandler ε π) (promise : DirectOp → IoResult → Prop)
    (held : π → List UInt16) (bufferBase : ℕ) (s : RingServer κ π) : Prop where
  keeps : s.server.Keeps code promise
  balanced : s.server.Balanced code held
  tallied : s.Tallied bufferBase

/-- The buffers of a coroutine are held. -/
theorem Keeps.mem_held (h : s.Keeps code promise held bufferBase) {k : κ} {conn : Connection π}
    (hk : s.server.handlers k = some conn) {bid : UInt16}
    (hbid : bid ∈ s.server.buffersOf code held conn) : bid ∈ s.ring.held := by
  have hlt := h.keeps.numbered.id_lt k conn hk
  have hmem : bid ∈ (s.ring.held : Multiset UInt16) := by
    rw [h.tallied.held, sum_outstanding hlt, h.balanced.outstanding_eq hk]
    exact Multiset.mem_add.mpr (.inl hbid)
  exact hmem

/-- The start. -/
theorem new_keeps (mem : ℕ → BufEntry) :
    (new bufferBase mem : RingServer κ π).Keeps code promise held bufferBase :=
  ⟨Server.new_keeps, new_balanced, new_tallied mem⟩

/-- The step lemma for a server and its ring. -/
theorem Keeps.step (h : s.Keeps code promise held bufferBase) (hcode : code.ClosesLast)
    (hreturns : code.Returns promise held) {op : ServerOp ε κ}
    (hstep : ringServerStep code promise bufferBase s op t) :
    t.Keeps code promise held bufferBase := by
  have hbalanced := h.balanced.step hreturns h.keeps hstep.1
  exact ⟨h.keeps.step hcode hstep.1, hbalanced,
    h.tallied.step h.keeps h.balanced hbalanced hstep⟩

/-- The step lemma for the buffers, where the returns are in place. -/
theorem Keeps.conserved_step (h : s.Keeps code promise held bufferBase)
    (hreturns : code.Returns promise held) (hc : Conserved s.ring) {op : ServerOp ε κ}
    (hstep : ringServerStep code promise bufferBase s op t)
    (hplace : s.ReturnsInPlace code bufferBase op) : Conserved t.ring :=
  h.tallied.conserved_step h.keeps h.balanced (h.balanced.step hreturns h.keeps hstep.1) hc hplace
    hstep

/-- All is kept in every run. -/
theorem keeps_of_path (hcode : code.ClosesLast) (hreturns : code.Returns promise held)
    {mem : ℕ → BufEntry} {l : List (ServerOp ε κ × RingServer κ π)}
    (hl : Path (ringServerStep code promise bufferBase) (.new bufferBase mem) l) :
    ∀ x ∈ l, x.2.Keeps code promise held bufferBase := by
  refine (Path.invariant (I := fun s => s.Keeps code promise held bufferBase)
    (fun s op t h hstep => ?_) (new_keeps mem) hl).1
  exact h.step hcode hreturns hstep

/-- Each buffer is in one place in a run whose returns are in place. -/
theorem conserved_of_path (hcode : code.ClosesLast) (hreturns : code.Returns promise held)
    {mem : ℕ → BufEntry} {l : List (ServerOp ε κ × RingServer κ π)}
    (hl : Path (ringServerStep code promise bufferBase) (.new bufferBase mem) l)
    (hplace : Meets (ReturnsInPlace code bufferBase) (.new bufferBase mem) l) :
    ∀ x ∈ l, Conserved x.2.ring := by
  have hnew : (new bufferBase mem : RingServer κ π).Keeps code promise held bufferBase ∧
      Conserved (new bufferBase mem : RingServer κ π).ring :=
    ⟨new_keeps mem, bufStart_conserved bufferBase mem⟩
  have h := (hl.invariant_of_meets
    (I := fun s => s.Keeps code promise held bufferBase ∧ Conserved s.ring)
    (fun _ _ _ h hC hstep =>
      ⟨h.1.step hcode hreturns hstep, h.1.conserved_step hreturns h.2 hstep hC⟩) hnew hplace).1
  exact fun x hx => (h x hx).2

end RingServer

end Novaio
