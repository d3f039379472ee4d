import Novaio.Server.Ring

/-!
# The echo server

`handle_client` of `examples/production_benchmark_test.cpp` sends back what it receives, from the
buffer that the kernel selected for it, with as many sends as it takes, and then gives the buffer
back. All connections share the blocks of the ring, so that what a connection is sent depends on
what the kernel writes into them meanwhile.

`Memory` has the blocks, and what each connection has received and sent. In a run whose returns are
in place, the kernel selects no buffer that a coroutine has, and what is sent on a connection is
what was received on it (`echoes_own_bytes`).
-/

namespace Novaio.EchoServer

open DirectIo Transition Server

/-! ## The coroutine -/

/-- The places where `handle_client` is suspended: before its first statement, and at each
`co_await`, with `bid`, `total_sent` and `to_send` where it sends. -/
inductive Place where
  | start
  | recv
  | sleep
  | send (bid : UInt16) (totalSent toSend : ℕ)
  | close
  deriving DecidableEq

/-- `ENOBUFS`. -/
def enobufs : ℤ := 105

/-- The buffer that a completion names. -/
def bufferId (result : IoResult) : UInt16 := (result.flags >>> 16).toUInt16

/-- The operation that is awaited at a place. -/
def Place.awaits : Place → Option DirectOp
  | .start | .sleep => none
  | .recv => some .recv
  | .send _ _ _ => some .send
  | .close => some .close

/-- The head of the loop, which reads `g_benchmark_running`. -/
def loopHead (running : Bool) : Place := if running then .recv else .close

/-- `handle_client` from a place to the next. -/
def Place.next (running : Bool) : Place → Option IoResult → List UInt16 × Option Place
  | .start, _ | .sleep, _ => ([], some (loopHead running))
  | .recv, some recvRes =>
    if recvRes.res ≤ 0 then ([], some (if recvRes.res = -enobufs then .sleep else .close))
    else ([], some (.send (bufferId recvRes) 0 recvRes.res.toNat))
  | .send bid totalSent toSend, some sendRes =>
    if sendRes.res ≤ 0 then ([bid], some (loopHead running))
    else if totalSent + sendRes.res.toNat < toSend then
      ([], some (.send bid (totalSent + sendRes.res.toNat) toSend))
    else ([bid], some (loopHead running))
  | _, _ => ([], none)

/-- `handle_client`. -/
def handleClient : ClientHandler Bool Place where
  start := .start
  awaits := Place.awaits
  advance := Place.next

/-- The buffer that is held at a place. -/
def Place.held : Place → List UInt16
  | .send bid _ _ => [bid]
  | _ => []

/-- The kernel selects a buffer for a receive exactly when there is something in it. -/
def SelectsForData (op : DirectOp) (result : IoResult) : Prop :=
  op = .recv → (0 < result.res ↔ result.flags &&& cqeFBuffer ≠ 0)

/-- It closes its descriptor last. -/
theorem handleClient_closesLast : handleClient.ClosesLast := by
  refine ⟨rfl, fun running pc ret hret => ?_⟩
  cases pc <;> cases ret <;> simp_all [handleClient, Place.awaits, Place.next]
  all_goals split_ifs <;> simp

/-- The head of the loop holds no buffer. -/
@[simp]
theorem held_loopHead (running : Bool) : (loopHead running).held = [] := by
  cases running <;> rfl

/-- It gives back each buffer that it gets, when it is done with it. -/
theorem handleClient_returns : handleClient.Returns SelectsForData Place.held := by
  refine ⟨rfl, fun running pc ret hret hpromise => ?_⟩
  have hsend (bid : UInt16) (totalSent toSend : ℕ) :
      (Place.send bid totalSent toSend).held = [bid] := rfl
  have hrest : Place.start.held = [] ∧ Place.sleep.held = [] ∧ Place.recv.held = [] ∧
    Place.close.held = [] := ⟨rfl, rfl, rfl, rfl⟩
  cases pc with
  | start => simp [handleClient, Place.awaits, Place.next, ClientHandler.selects, hrest]
  | sleep => simp [handleClient, Place.awaits, Place.next, ClientHandler.selects, hrest]
  | recv =>
    obtain ⟨r, rfl⟩ := Option.isSome_iff_exists.mp hret
    have hdata := hpromise .recv r rfl rfl rfl
    rw [ClientHandler.selects_some (rfl : handleClient.awaits .recv = some .recv)]
    by_cases hres : r.res ≤ 0
    · have hnone : r.flags &&& cqeFBuffer = 0 := by
        by_contra hsome
        exact absurd (hdata.mpr hsome) (by omega)
      simp only [handleClient, Place.next, if_pos hres, selectedBuffers, hnone]
      split_ifs <;> simp_all
    · have hsome : r.flags &&& cqeFBuffer ≠ 0 := hdata.mp (by omega)
      simp [handleClient, Place.next, hres, selectedBuffers, hsome, hsend, hrest, bufferId]
  | send bid totalSent toSend =>
    obtain ⟨r, rfl⟩ := Option.isSome_iff_exists.mp hret
    rw [ClientHandler.selects_some
      (rfl : handleClient.awaits (.send bid totalSent toSend) = some .send)]
    by_cases hres : r.res ≤ 0
    · simp [handleClient, Place.next, hres, selectedBuffers, hsend]
    · by_cases hmore : totalSent + r.res.toNat < toSend
      · simp [handleClient, Place.next, hres, hmore, selectedBuffers, hsend]
      · simp [handleClient, Place.next, hres, hmore, selectedBuffers, hsend]
  | close =>
    obtain ⟨r, rfl⟩ := Option.isSome_iff_exists.mp hret
    simp [handleClient, Place.awaits, Place.next, ClientHandler.selects, hrest, selectedBuffers]

/-! ## The memory -/

/-- The blocks of the ring, and, for each connection, what it has received, what it has sent, and
whether a send failed. -/
structure Memory where
  blocks : UInt16 → List UInt8
  received : ℕ → List UInt8
  sent : ℕ → List UInt8
  failed : ℕ → Bool

namespace Memory

/-- The kernel writes what a connection receives into a block. -/
def receive (m : Memory) (n : ℕ) (bid : UInt16) (data : List UInt8) : Memory :=
  { m with
    blocks := Function.update m.blocks bid (data ++ (m.blocks bid).drop data.length)
    received := Function.update m.received n (m.received n ++ data) }

/-- The kernel sends a part of a block. -/
def send (m : Memory) (n : ℕ) (bid : UInt16) (offset count : ℕ) : Memory :=
  { m with
    sent := Function.update m.sent n (m.sent n ++ ((m.blocks bid).drop offset).take count) }

/-- A send fails. -/
def fail (m : Memory) (n : ℕ) : Memory :=
  { m with failed := Function.update m.failed n true }

/-- What the kernel does when it completes the operation of a place. -/
def complete (m : Memory) (n : ℕ) (pc : Place) (result : IoResult) (data : List UInt8) : Memory :=
  match pc with
  | .recv => if 0 < result.res then m.receive n (bufferId result) data else m
  | .send bid totalSent _ =>
    if 0 < result.res then m.send n bid totalSent result.res.toNat else m.fail n
  | _ => m

end Memory

/-- The kernel says how much it received, and sends no more than it should. -/
def Delivers (pc : Place) (result : IoResult) (data : List UInt8) : Prop :=
  match pc with
  | .recv => 0 < result.res → data.length = result.res.toNat
  | .send _ totalSent toSend => result.res.toNat ≤ toSend - totalSent
  | _ => True

/-- A block that is sent: its buffer, how much of it has been sent, and how much there is. -/
structure Chunk where
  bid : UInt16
  done : ℕ
  toSend : ℕ

/-- The block that a coroutine is sending, or will send. -/
def Place.chunk : Place → Option IoResult → Option Chunk
  | .recv, some r => if 0 < r.res then some ⟨bufferId r, 0, r.res.toNat⟩ else none
  | .send bid totalSent toSend, ret =>
    some ⟨bid, totalSent + ret.elim 0 fun r => r.res.toNat, toSend⟩
  | _, _ => none

/-- What was sent on a connection is what was received, but for what a failed send left out. -/
def Settled (m : Memory) (n : ℕ) : Prop :=
  (m.sent n).Sublist (m.received n) ∧ (m.failed n = false → m.sent n = m.received n)

/-- What was sent on a connection is what was received before the last block, but for what a failed
send left out, and the first part of the block. -/
def InChunk (m : Memory) (n : ℕ) (chunk : Chunk) : Prop :=
  chunk.done ≤ chunk.toSend ∧ chunk.toSend ≤ (m.blocks chunk.bid).length ∧
    ∃ old echoed, m.received n = old ++ (m.blocks chunk.bid).take chunk.toSend ∧
      m.sent n = echoed ++ (m.blocks chunk.bid).take chunk.done ∧ echoed.Sublist old ∧
      (m.failed n = false → echoed = old)

/-- A connection is echoed, as far as its coroutine has got. -/
def Echoes (m : Memory) (n : ℕ) (pc : Place) (ret : Option IoResult) : Prop :=
  match pc.chunk ret with
  | none => Settled m n
  | some chunk => InChunk m n chunk ∧ ∀ r, ret = some r → r.res ≤ 0 → m.failed n = true

variable {m : Memory} {n : ℕ} {pc : Place} {ret : Option IoResult}

/-- The kernel completes the operation of a coroutine. -/
theorem Echoes.complete (h : Echoes m n pc none) {r : IoResult} {data : List UInt8}
    (hdelivers : Delivers pc r data) : Echoes (m.complete n pc r data) n pc (some r) := by
  cases pc with
  | start => exact h
  | sleep => exact h
  | close => exact h
  | recv =>
    obtain ⟨hsub, heq⟩ : Settled m n := h
    by_cases hres : 0 < r.res
    · have hlength := hdelivers hres
      have hblock :
          ((m.receive n (bufferId r) data).blocks (bufferId r)).take r.res.toNat = data := by
        simp only [Memory.receive, Function.update_self]
        rw [← hlength, List.take_left]
      simp only [Echoes, Place.chunk, Memory.complete, if_pos hres]
      refine ⟨⟨Nat.zero_le _, ?_, m.received n, m.sent n, ?_, ?_, hsub, heq⟩, fun r' hr' hle => ?_⟩
      · simp only [Memory.receive, Function.update_self, List.length_append]
        omega
      · rw [hblock]
        exact Function.update_self ..
      · simp [Memory.receive]
      · obtain rfl := Option.some.inj hr'
        omega
    · simp only [Echoes, Place.chunk, Memory.complete, if_neg hres]
      exact ⟨hsub, heq⟩
  | send bid totalSent toSend =>
    obtain ⟨⟨hdone, hlength, old, echoed, hreceived, hsent, hsub, heq⟩, -⟩ := h
    have hcount : r.res.toNat ≤ toSend - totalSent := hdelivers
    simp only [Option.elim_none, Nat.add_zero] at hdone hlength hreceived hsent
    by_cases hres : 0 < r.res
    · simp only [Echoes, Place.chunk, Memory.complete, if_pos hres, Option.elim_some]
      refine ⟨⟨?_, hlength, old, echoed, hreceived, ?_, hsub, heq⟩, fun r' hr' hle => ?_⟩
      · dsimp only
        omega
      · simp only [Memory.send, Function.update_self]
        rw [hsent, List.append_assoc, List.take_add]
      · obtain rfl := Option.some.inj hr'
        omega
    · have hzero : r.res.toNat = 0 := by omega
      simp only [Echoes, Place.chunk, Memory.complete, if_neg hres, Option.elim_some, hzero,
        Nat.add_zero]
      refine ⟨⟨hdone, hlength, old, echoed, hreceived, hsent, hsub, fun hfalse => ?_⟩,
        fun _ _ _ => Function.update_self ..⟩
      simp [Memory.fail] at hfalse

/-- A coroutine goes on. -/
theorem Echoes.next (h : Echoes m n pc ret) (hret : ret.isSome = pc.awaits.isSome)
    (running : Bool) :
    (pc.next running ret).2.elim (Settled m n) fun pc' => Echoes m n pc' none := by
  have hhead (hsettled : Settled m n) : Echoes m n (loopHead running) none := by
    cases running <;> exact hsettled
  cases pc with
  | start => exact hhead h
  | sleep => exact hhead h
  | close => cases ret <;> exact h
  | recv =>
    obtain ⟨r, rfl⟩ := Option.isSome_iff_exists.mp hret
    by_cases hres : r.res ≤ 0
    · have hsettled : Settled m n := by
        simpa [Echoes, Place.chunk, Int.not_lt.mpr hres] using h
      simp only [Place.next, if_pos hres]
      split_ifs <;> exact hsettled
    · simp only [Echoes, Place.chunk, if_pos (Int.not_le.mp hres)] at h
      simp only [Place.next, if_neg hres]
      exact ⟨h.1, fun _ hr' => by simp at hr'⟩
  | send bid totalSent toSend =>
    obtain ⟨r, rfl⟩ := Option.isSome_iff_exists.mp hret
    obtain ⟨⟨hdone, hlength, old, echoed, hreceived, hsent, hsub, heq⟩, hfailed⟩ := h
    simp only [Option.elim_some] at hdone hlength hreceived hsent
    by_cases hres : r.res ≤ 0
    · simp only [Place.next, if_pos hres]
      refine hhead ⟨?_, fun hfalse => ?_⟩
      · rw [hreceived, hsent]
        exact hsub.append ((List.take_prefix_take_left hdone).sublist)
      · simp [hfailed r rfl hres] at hfalse
    · by_cases hmore : totalSent + r.res.toNat < toSend
      · simp only [Place.next, if_neg hres, if_pos hmore]
        exact ⟨⟨hdone, hlength, old, echoed, hreceived, hsent, hsub, heq⟩,
          fun _ hr' => by simp at hr'⟩
      · have hall : totalSent + r.res.toNat = toSend := by omega
        simp only [Place.next, if_neg hres, if_neg hmore]
        rw [hall] at hsent
        refine hhead ⟨?_, fun hfalse => ?_⟩
        · rw [hreceived, hsent]
          exact hsub.append (List.Sublist.refl _)
        · rw [hreceived, hsent, heq hfalse]

/-- A change of the memory that concerns neither the connection nor its block. -/
theorem Echoes.congr (h : Echoes m n pc ret) {m' : Memory}
    (hreceived : m'.received n = m.received n) (hsent : m'.sent n = m.sent n)
    (hfailed : m'.failed n = m.failed n)
    (hblock : ∀ chunk, pc.chunk ret = some chunk → m'.blocks chunk.bid = m.blocks chunk.bid) :
    Echoes m' n pc ret := by
  unfold Echoes at h ⊢
  cases hchunk : pc.chunk ret with
  | none =>
    simp only [hchunk, Settled] at h ⊢
    rw [hreceived, hsent, hfailed]
    exact h
  | some chunk =>
    simp only [hchunk, InChunk] at h ⊢
    rw [hblock chunk hchunk, hreceived, hsent, hfailed]
    exact h

/-- What the kernel does for one connection concerns no other one, but for the block that it
writes. -/
theorem Echoes.of_ne (h : Echoes m n pc ret) {n' : ℕ} {pc' : Place} {r : IoResult}
    {data : List UInt8} (hne : n ≠ n')
    (hbid : pc' = .recv → 0 < r.res → ∀ chunk, pc.chunk ret = some chunk → chunk.bid ≠ bufferId r) :
    Echoes (m.complete n' pc' r data) n pc ret := by
  cases pc' with
  | start => exact h
  | sleep => exact h
  | close => exact h
  | recv =>
    by_cases hres : 0 < r.res
    · simp only [Memory.complete, if_pos hres]
      exact h.congr (Function.update_of_ne hne ..) rfl rfl fun chunk hchunk =>
        Function.update_of_ne (hbid rfl hres chunk hchunk) ..
    · simpa only [Memory.complete, if_neg hres] using h
  | send bid totalSent toSend =>
    by_cases hres : 0 < r.res
    · simp only [Memory.complete, if_pos hres]
      exact h.congr rfl (Function.update_of_ne hne ..) rfl fun _ _ => rfl
    · simp only [Memory.complete, if_neg hres]
      exact h.congr rfl rfl (Function.update_of_ne hne ..) fun _ _ => rfl

/-- What is echoed is a part of what was received, and the first part if no send failed. -/
theorem Echoes.sent (h : Echoes m n pc ret) :
    (m.sent n).Sublist (m.received n) ∧ (m.failed n = false → m.sent n <+: m.received n) := by
  unfold Echoes at h
  split at h
  · exact ⟨h.1, fun hfalse => h.2 hfalse ▸ List.prefix_refl _⟩
  · obtain ⟨⟨hdone, -, old, echoed, hreceived, hsent, hsub, heq⟩, -⟩ := h
    have hprefix := List.take_prefix_take_left (l := m.blocks (Chunk.bid ‹_›)) hdone
    rw [hreceived, hsent]
    refine ⟨hsub.append hprefix.sublist, fun hfalse => ?_⟩
    rw [heq hfalse]
    exact (List.prefix_append_right_inj old).mpr hprefix

/-- The buffer of the block that a coroutine sends is one of those it has. -/
theorem chunk_mem (hpromise : ∀ r, ret = some r → pc = .recv → SelectsForData .recv r)
    {chunk : Chunk} (hchunk : pc.chunk ret = some chunk) :
    chunk.bid ∈ pc.held ++ handleClient.selects pc ret := by
  cases pc with
  | start => simp [Place.chunk] at hchunk
  | sleep => simp [Place.chunk] at hchunk
  | close => simp [Place.chunk] at hchunk
  | send bid totalSent toSend =>
    obtain rfl := Option.some.inj hchunk
    exact List.mem_append_left _ (List.mem_singleton_self _)
  | recv =>
    cases ret with
    | none => simp [Place.chunk] at hchunk
    | some r =>
      obtain ⟨hres, heq⟩ := Option.ite_none_right_eq_some.mp hchunk
      obtain rfl := Option.some.inj heq
      have hsome : r.flags &&& cqeFBuffer ≠ 0 := (hpromise r rfl rfl rfl).mp hres
      rw [ClientHandler.selects_some (rfl : handleClient.awaits .recv = some .recv),
        selectedBuffers, if_pos ⟨rfl, hsome⟩]
      exact List.mem_append_right _ (List.mem_singleton_self _)

/-! ## The server -/

/-- The server with its ring and its memory. -/
structure System (κ : Type*) where
  ring : RingServer κ Place
  memory : Memory

/-- Nothing has been received. -/
def System.new {κ : Type*} (bufferBase : ℕ) (mem : ℕ → BufEntry) (blocks : UInt16 → List UInt8) :
    System κ := ⟨.new bufferBase mem, ⟨blocks, fun _ => [], fun _ => [], fun _ => false⟩⟩

/-- A step of the server. The kernel receives or sends when it completes an operation. -/
def systemStep {κ : Type*} [DecidableEq κ] (bufferBase : ℕ) (s : System κ)
    (op : ServerOp Bool κ × List UInt8) (t : System κ) : Prop :=
  ringServerStep handleClient SelectsForData bufferBase s.ring op.1 t.ring ∧
    match op.1 with
    | .complete c r => ∀ k conn, s.ring.server.handlers k = some conn → conn.ctx = some c →
        Delivers conn.pc r op.2 ∧ t.memory = s.memory.complete conn.id conn.pc r op.2
    | _ => t.memory = s.memory

/-- The returns of a step are in place. -/
def ReturnsInPlace {κ : Type*} (bufferBase : ℕ) (s : System κ)
    (op : ServerOp Bool κ × List UInt8) : Prop :=
  s.ring.ReturnsInPlace handleClient bufferBase op.1

/-- All connections are echoed. -/
structure Echoed {κ : Type*} (s : System κ) : Prop where
  served : ∀ k conn, s.ring.server.handlers k = some conn →
    Echoes s.memory conn.id conn.pc (conn.ctx.bind s.ring.server.results)
  unserved : ∀ n, (∀ k conn, s.ring.server.handlers k = some conn → conn.id ≠ n) →
    Settled s.memory n

variable {κ : Type*} {s t : System κ} {k : κ} {conn : Connection Place} {bufferBase : ℕ}

/-- A step that concerns neither the coroutines nor the memory. -/
theorem Echoed.congr (h : Echoed s) (hhandlers : t.ring.server.handlers = s.ring.server.handlers)
    (hresults : t.ring.server.results = s.ring.server.results) (hmemory : t.memory = s.memory) :
    Echoed t := by
  constructor
  · rw [hhandlers, hresults, hmemory]
    exact h.served
  · rw [hhandlers, hmemory]
    exact h.unserved

variable [DecidableEq κ]

/-- The kernel completes an operation. -/
theorem Echoed.complete (h : Echoed s)
    (hkeeps : s.ring.Keeps handleClient SelectsForData Place.held bufferBase) {c : ℕ}
    {op : DirectOp} (hk : s.ring.server.handlers k = some conn)
    (hplace : handleClient.awaits conn.pc = some op) (hctx : conn.ctx = some c)
    (hrequest : s.ring.server.requests[c]? = some ⟨op, conn.directFd, conn.id⟩)
    (hnone : s.ring.server.results c = none) {r : IoResult} {data : List UInt8}
    (hselect : op = .recv → 0 < r.res → bufferId r ∉ s.ring.ring.held)
    (hdelivers : Delivers conn.pc r data)
    (hhandlers : t.ring.server.handlers = s.ring.server.handlers)
    (hresults : t.ring.server.results = Function.update s.ring.server.results c (some r))
    (hmemory : t.memory = s.memory.complete conn.id conn.pc r data) : Echoed t := by
  have hnum := hkeeps.keeps.numbered
  constructor
  · intro k' conn' hk'
    rw [hhandlers] at hk'
    rw [hresults, hmemory]
    have hold := h.served k' conn' hk'
    rcases eq_or_ne conn'.id conn.id with heq | hne
    · obtain rfl := hnum.id_inj k' k conn' conn hk' hk heq
      obtain rfl := Option.some.inj (hk'.symm.trans hk)
      rw [hctx, Option.bind_some, hnone] at hold
      rw [hctx, Option.bind_some, Function.update_self]
      exact hold.complete hdelivers
    · rw [bind_results_of_ne hnum hkeeps.keeps.serves hk hrequest hk' hne]
      refine hold.of_ne hne fun hrecv hres chunk hchunk heq => ?_
      -- The buffer of the block is held, so that the kernel does not select it.
      have hop : op = .recv := by
        rw [hrecv] at hplace
        exact (Option.some.inj hplace).symm
      refine hselect hop hres (heq ▸ hkeeps.mem_held hk' (chunk_mem (fun r' hr' hpc => ?_) hchunk))
      exact hkeeps.keeps.serves.promised_of hk' (by rw [hpc]; rfl) hr'
  · intro n hn
    rw [hhandlers] at hn
    have hne : n ≠ conn.id := (hn k conn hk).symm
    rw [hmemory]
    have hsettled : Echoes s.memory n .start none := h.unserved n hn
    exact hsettled.of_ne hne fun _ _ chunk hchunk => by simp [Place.chunk] at hchunk

/-- A coroutine goes on. -/
theorem Echoed.resume (h : Echoed s)
    (hkeeps : s.ring.Keeps handleClient SelectsForData Place.held bufferBase) {running : Bool}
    {awaiter : ℕ} (hstep : s.ring.server.step handleClient (.resume k running awaiter) =
      some t.ring.server) (hmemory : t.memory = s.memory) : Echoed t := by
  obtain ⟨conn, hk, hret, io, ht⟩ := resume_cases hkeeps.keeps hstep
  obtain ⟨conn', hhandlers, hconn', hkept, -, hresults, -⟩ :=
    goOn_cases (s := { s.ring.server with io := io }) hkeeps.keeps.serves.results_lt ht
  have hnext : (handleClient.advance running conn.pc (conn.ctx.bind s.ring.server.results)).2.elim
      (Settled s.memory conn.id) fun pc' => Echoes s.memory conn.id pc' none :=
    (h.served k conn hk).next hret running
  constructor
  · intro k' conn'' hk'
    rw [hhandlers] at hk'
    rw [hresults, hmemory]
    rcases eq_or_ne k' k with rfl | hne
    · rw [Function.update_self] at hk'
      obtain ⟨-, hid, hpc, hnone⟩ := hkept conn'' hk'
      rw [hpc] at hnext
      have hnone : conn''.ctx.bind s.ring.server.results = none := hnone
      rw [hid]
      show Echoes s.memory conn.id conn''.pc (conn''.ctx.bind s.ring.server.results)
      rw [hnone]
      exact hnext
    · rw [Function.update_of_ne hne] at hk'
      exact h.served k' conn'' hk'
  · intro n hn
    rw [hmemory]
    rw [hhandlers] at hn
    rcases eq_or_ne n conn.id with rfl | hne
    · -- The coroutine has returned.
      have hnone : conn' = none := by
        by_contra hsome
        obtain ⟨conn'', heq⟩ := Option.ne_none_iff_exists'.mp hsome
        exact hn k conn'' (by rw [Function.update_self, heq]) (hkept conn'' heq).2.1
      rw [hconn'.mp hnone] at hnext
      exact hnext
    · exact h.unserved n (unserved_of_update (by simp [hk, hne.symm]) hn)

/-- A coroutine starts for a connection, which has received nothing. -/
theorem Echoed.started (h : Echoed s) (hk : s.ring.server.handlers k = none) {d n : ℕ}
    (hn : ∀ k conn, s.ring.server.handlers k = some conn → conn.id ≠ n)
    (hhandlers : t.ring.server.handlers =
      Function.update s.ring.server.handlers k (some ⟨d, n, .start, none⟩))
    (hresults : t.ring.server.results = s.ring.server.results)
    (hmemory : t.memory = s.memory) : Echoed t := by
  constructor
  · intro k' conn hk'
    rw [hresults, hmemory]
    rcases handlers_cases .start hhandlers hk' with ⟨-, rfl⟩ | ⟨-, hold⟩
    · exact h.unserved n hn
    · exact h.served k' conn hold
  · intro m hm
    rw [hhandlers] at hm
    rw [hmemory]
    exact h.unserved m (unserved_of_update (by simp [hk]) hm)

/-- The step lemma for the echo. -/
theorem Echoed.step (h : Echoed s)
    (hkeeps : s.ring.Keeps handleClient SelectsForData Place.held bufferBase)
    (hc : Conserved s.ring.ring) {op : ServerOp Bool κ × List UInt8}
    (hstep : systemStep bufferBase s op t) : Echoed t := by
  obtain ⟨⟨⟨hserver, hpromise⟩, hring⟩, hmemory⟩ := hstep
  obtain ⟨op, data⟩ := op
  cases op with
  | accept d =>
    obtain ⟨-, ht⟩ := Option.ite_none_right_eq_some.mp hserver
    have ht := Option.some.inj ht
    exact h.congr (by rw [← ht]) (by rw [← ht]) hmemory
  | handleClient k d n =>
    obtain ⟨⟨hmem, hk⟩, ht⟩ := Option.ite_none_right_eq_some.mp hserver
    have ht := Option.some.inj ht
    refine h.started hk (fun k' conn hk' heq => ?_) (by rw [← ht]; rfl) (by rw [← ht]; rfl)
      hmemory
    exact hkeeps.keeps.numbered.not_accepted k' conn hk' _ hmem heq.symm
  | complete c r =>
    simp only [Server.step] at hserver
    split at hserver
    · next request hrequest hnone =>
      have ht := Option.some.inj hserver
      obtain ⟨k, conn, op, hk, hplace, hctx, rfl⟩ := hkeeps.keeps.serves.waiting hrequest hnone
      obtain ⟨hdelivers, hmemory⟩ := hmemory k conn hk hctx
      refine h.complete hkeeps hk hplace hctx hrequest hnone (fun hop hres => ?_) hdelivers
        (by rw [← ht]; rfl) (by rw [← ht]; rfl) hmemory
      -- What is received goes to the buffer at the head of the ring.
      subst hop
      have hdata : r.flags &&& cqeFBuffer ≠ 0 := (hpromise _ hrequest rfl).mp hres
      have hselected : selectedBuffers .recv r = [bufferId r] := by
        simp [selectedBuffers, hdata, bufferId]
      have hring := hring _ hrequest
      simp only [hselected] at hring
      rw [← hring.2]
      exact BufState.select_not_held hkeeps.tallied.wellFormed hc hring.1
    · simp at hserver
  | poll c =>
    simp only [Server.step] at hserver
    split at hserver
    · obtain ⟨io, -, ht⟩ := Option.map_eq_some_iff.mp hserver
      exact h.congr (by rw [← ht]) (by rw [← ht]) hmemory
    · simp at hserver
  | resume k running awaiter => exact h.resume hkeeps hserver hmemory

/-! ## Runs, computed -/

/-- Whether the kernel selects a buffer as it should can be computed. -/
instance decidableSelectsForData (op : DirectOp) (result : IoResult) :
    Decidable (SelectsForData op result) :=
  inferInstanceAs (Decidable (op = .recv → (0 < result.res ↔ result.flags &&& cqeFBuffer ≠ 0)))

/-- Whether the kernel receives and sends as it should can be computed. -/
instance decidableDelivers (pc : Place) (result : IoResult) (data : List UInt8) :
    Decidable (Delivers pc result data) :=
  match pc with
  | .recv => inferInstanceAs (Decidable (0 < result.res → data.length = result.res.toNat))
  | .send _ totalSent toSend =>
    inferInstanceAs (Decidable (result.res.toNat ≤ toSend - totalSent))
  | .start | .sleep | .close => inferInstanceAs (Decidable True)

/-- Whether the returns of a step are in place can be computed. -/
instance decidableReturnsInPlace (bufferBase : ℕ) (s : System κ)
    (op : ServerOp Bool κ × List UInt8) : Decidable (ReturnsInPlace bufferBase s op) :=
  inferInstanceAs (Decidable (s.ring.ReturnsInPlace handleClient bufferBase op.1))

/-- A step, computed, where the coroutines are among `ks`. -/
def System.next (ks : List κ) (bufferBase : ℕ) (s : System κ)
    (op : ServerOp Bool κ × List UInt8) : Option (System κ) :=
  (s.ring.next handleClient SelectsForData bufferBase op.1).bind fun ring =>
    match op.1 with
    | .complete c r =>
      (ks.findSome? fun k => (s.ring.server.handlers k).filter fun conn => conn.ctx = some c).bind
        fun conn =>
          if Delivers conn.pc r op.2 then
            some ⟨ring, s.memory.complete conn.id conn.pc r op.2⟩
          else none
    | _ => some ⟨ring, s.memory⟩

/-- In every run of the echo server, the buffers that are held are those that were selected for the
connections and have not been given back. -/
theorem held_eq_outstanding {mem : ℕ → BufEntry} {blocks : UInt16 → List UInt8}
    {l : List ((ServerOp Bool κ × List UInt8) × System κ)}
    (hl : Path (systemStep bufferBase) (.new bufferBase mem blocks) l) :
    ∀ x ∈ l, (x.2.ring.ring.held : Multiset UInt16) =
      ∑ n ∈ Finset.range x.2.ring.server.connections,
        (x.2.ring.server.outstanding n : Multiset UInt16) := by
  intro x hx
  have h := (hl.invariant
    (I := fun s => s.ring.Keeps handleClient SelectsForData Place.held bufferBase)
    (fun _ _ _ h hstep => h.step handleClient_closesLast handleClient_returns hstep.1)
    (RingServer.new_keeps mem)).1 x hx
  exact h.tallied.held

end Novaio.EchoServer
