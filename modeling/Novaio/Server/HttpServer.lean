import Novaio.Server.Ring

/-!
# The HTTP server

`handle_client` of `examples/http_server.cpp` answers whatever it receives with the same response,
until the client is gone or a send fails, and closes the descriptor. What it receives it does not
read, so that it gives the buffer back at once.
-/

namespace Novaio.HttpServer

open DirectIo Transition Server

/-- The places where `handle_client` is suspended: before its first statement, and at each
`co_await`. -/
inductive Place where
  | start
  | recv
  | send
  | close
  deriving DecidableEq

/-- The operation that is awaited at a place. -/
def Place.awaits : Place → Option DirectOp
  | .start => none
  | .recv => some .recv
  | .send => some .send
  | .close => some .close

/-- `handle_client` from a place to the next. -/
def Place.next : Place → Option IoResult → List UInt16 × Option Place
  | .start, _ => ([], some .recv)
  | .recv, some result =>
    (if result.flags &&& cqeFBuffer ≠ 0 then [(result.flags >>> 16).toUInt16] else [],
      some (if result.res ≤ 0 then .close else .send))
  | .send, some sendResult => ([], some (if sendResult.res < 0 then .close else .recv))
  | _, _ => ([], none)

/-- `handle_client`. -/
def handleClient : ClientHandler Unit Place where
  start := .start
  awaits := Place.awaits
  advance _ := Place.next

/-- It closes its descriptor last. -/
theorem handleClient_closesLast : handleClient.ClosesLast := by
  refine ⟨rfl, fun input pc ret hret => ?_⟩
  cases pc <;> cases ret <;> simp_all [handleClient, Place.awaits, Place.next]

/-- It holds no buffer while it is suspended. -/
theorem handleClient_returns (promise : DirectOp → IoResult → Prop) :
    handleClient.Returns promise fun _ => [] := by
  refine ⟨rfl, fun input pc ret hret _ => ?_⟩
  have helim (next : Option Place) : next.elim ([] : List UInt16) (fun _ => []) = [] := by
    cases next <;> rfl
  rw [helim, List.append_nil, List.nil_append]
  cases pc <;> cases ret <;>
    simp_all [handleClient, Place.awaits, Place.next, ClientHandler.selects, selectedBuffers]

variable {κ : Type*} [DecidableEq κ] {promise : DirectOp → IoResult → Prop}

/-- In every run of the server each operation is executed on the connection that it was issued for,
though the kernel gives descriptors that were closed to other connections. Nothing is executed on a
connection after its close, and each connection has its descriptor until it is closed, and no
longer. -/
theorem executed_on_own_connection {s : Server κ Place}
    (hs : Reachable (serverStep handleClient promise) .new s) :
    (∀ x ∈ s.executed, x.target = some x.id) ∧
      (s.executed.Pairwise fun x y => x.op = .close → y.id ≠ x.id) ∧
      (∀ d n, s.descriptors d = some n ↔ s.Holds handleClient d n) ∧
      (∀ n < s.connections, (∃ d, s.Holds handleClient d n) ∨
        ∃ x ∈ s.executed, x.op = .close ∧ x.id = n) ∧
      ∀ d n, s.Holds handleClient d n → ∀ x ∈ s.executed, x.op = .close → x.id ≠ n := by
  have h := (reachable_keeps handleClient_closesLast hs).owned
  exact ⟨h.executed_own, h.close_last, h.descriptor_iff, h.closes, h.not_closed⟩

/-- A second connection gets the descriptor of the first, which has been closed. -/
theorem executed_on_own_connection_reused : ∃ s : Server Unit Place,
    Reachable (serverStep handleClient fun _ _ => True) .new s ∧
      s.descriptors 0 = some 1 ∧ s.executed.map Execution.op = [.recv, .send, .close, .recv] ∧
      (∀ x ∈ s.executed, x.target = some x.id) ∧
      ∀ d n, s.Holds handleClient d n → ∀ x ∈ s.executed, x.op = .close → x.id ≠ n := by
  obtain ⟨s, hrun, hs⟩ := Option.map_eq_some_iff.mp
    (rfl : (([.accept 0, .handleClient () 0 0, .resume () () 0, .complete 0 ⟨5, 1⟩, .poll 0,
      .resume () () 0, .complete 1 ⟨-1, 0⟩, .poll 1, .resume () () 0, .complete 2 ⟨0, 0⟩,
      .accept 0, .poll 2, .resume () () 0, .handleClient () 0 1, .resume () () 0,
      .complete 3 ⟨7, 1⟩] : List (ServerOp Unit Unit)).foldlM (step handleClient) new).map
        (fun s : Server Unit Place => (s.descriptors 0, s.executed.map Execution.op)) =
          some (some 1, [.recv, .send, .close, .recv]))
  obtain ⟨hdescriptor, hexecuted⟩ := Prod.mk.inj hs
  have hreachable := reachable_of_run hrun
  obtain ⟨hown, -, -, -, hclosed⟩ := executed_on_own_connection hreachable
  exact ⟨s, hreachable, hdescriptor, hexecuted, hown, hclosed⟩

/-- In every run of the server, each buffer that was selected for a connection has been given back
once, in the order of the selections, but for that of an operation that has completed and whose
coroutine has not gone on. -/
theorem buffers_given_back {s : Server κ Place}
    (hs : Reachable (serverStep handleClient promise) .new s) :
    (∀ k conn, s.handlers k = some conn → s.selected conn.id =
      s.returned conn.id ++ handleClient.selects conn.pc (conn.ctx.bind s.results)) ∧
      ∀ n, (∀ k conn, s.handlers k = some conn → conn.id ≠ n) → s.selected n = s.returned n := by
  have h := reachable_balanced handleClient_closesLast (handleClient_returns promise) hs
  exact ⟨h.served, h.unserved⟩

/-- One buffer has been given back, and another one is about to be. -/
theorem buffers_given_back_two : ∃ s : Server Unit Place,
    Reachable (serverStep handleClient fun _ _ => True) .new s ∧
      (s.selected 0, s.returned 0) = ([3, 4], [3]) ∧
      (∀ k conn, s.handlers k = some conn → s.selected conn.id =
        s.returned conn.id ++ handleClient.selects conn.pc (conn.ctx.bind s.results)) ∧
      ∀ n, (∀ k conn, s.handlers k = some conn → conn.id ≠ n) → s.selected n = s.returned n := by
  obtain ⟨s, hrun, hs⟩ := Option.map_eq_some_iff.mp
    (rfl : (([.accept 0, .handleClient () 0 0, .resume () () 0, .complete 0 ⟨5, 196609⟩,
      .poll 0, .resume () () 0, .complete 1 ⟨9, 0⟩, .poll 1, .resume () () 0,
      .complete 2 ⟨5, 262145⟩] : List (ServerOp Unit Unit)).foldlM
        (step handleClient) new).map
          (fun s : Server Unit Place => (s.selected 0, s.returned 0)) = some ([3, 4], [3]))
  have hreachable := reachable_of_run hrun
  exact ⟨s, hreachable, hs, buffers_given_back hreachable⟩

/-- In every run of the server and its ring, the buffers that are held are those that were selected
for the connections and have not been given back. In a run whose returns are in place, each buffer
is in exactly one place in every state. Few runs are such: before the kernel has selected all 2048
buffers, the returns of a run are in place only while there are at most two of them. -/
theorem buffers_of_connections {bufferBase : ℕ} {mem : ℕ → BufEntry}
    {l : List (ServerOp Unit κ × RingServer κ Place)}
    (hl : Path (ringServerStep handleClient promise bufferBase) (.new bufferBase mem) l) :
    (∀ x ∈ l, (x.2.ring.held : Multiset UInt16) =
      ∑ n ∈ Finset.range x.2.server.connections, (x.2.server.outstanding n : Multiset UInt16)) ∧
      (Meets (RingServer.ReturnsInPlace handleClient bufferBase) (.new bufferBase mem) l →
        ∀ x ∈ l, Conserved x.2.ring) := by
  have hreturns := handleClient_returns promise
  refine ⟨fun x hx => ?_, fun hplace => ?_⟩
  · exact (RingServer.keeps_of_path handleClient_closesLast hreturns hl x hx).tallied.held
  · exact RingServer.conserved_of_path handleClient_closesLast hreturns hl hplace

/-- Two connections receive into three buffers, and each of them gives one back. -/
theorem buffers_of_connections_two : ∃ l : List (ServerOp Unit Bool × RingServer Bool Place),
    l.map Prod.fst = [.accept 0, .accept 1, .handleClient true 0 0, .handleClient false 1 1,
      .resume true () 0, .resume false () 1, .complete 0 ⟨5, 1⟩, .complete 1 ⟨6, 65537⟩, .poll 0,
      .resume true () 0, .complete 2 ⟨5, 0⟩, .poll 2, .resume true () 0, .complete 3 ⟨4, 131073⟩,
      .poll 1, .resume false () 1] ∧
    Path (ringServerStep handleClient (fun _ _ => True) 0) (.new 0 (entries 0)) l ∧
    l.map (fun x => x.2.ring.held) = [[], [], [], [], [], [], [0], [0, 1], [0, 1], [1], [1], [1],
      [1], [1, 2], [1, 2], [2]] ∧
    (∀ x ∈ l, (x.2.ring.held : Multiset UInt16) =
      ∑ n ∈ Finset.range x.2.server.connections, (x.2.server.outstanding n : Multiset UInt16)) ∧
    ∀ x ∈ l, Conserved x.2.ring := by
  have hnew : (RingServer.new 0 (entries 0) : RingServer Bool Place) =
      ⟨.new, ⟨entries 0, 2048⟩, 0, []⟩ := by
    rw [RingServer.new, bufStart_entries]
  obtain ⟨l, hops, hnext, hl⟩ := exists_run
    (RingServer.next handleClient (fun _ _ => True) 0) ⟨.new, ⟨entries 0, 2048⟩, 0, []⟩
    [.accept 0, .accept 1, .handleClient true 0 0, .handleClient false 1 1, .resume true () 0,
      .resume false () 1, .complete 0 ⟨5, 1⟩, .complete 1 ⟨6, 65537⟩, .poll 0, .resume true () 0,
      .complete 2 ⟨5, 0⟩, .poll 2, .resume true () 0, .complete 3 ⟨4, 131073⟩, .poll 1,
      .resume false () 1]
    (fun l => l.map (fun x => x.2.ring.held) = [[], [], [], [], [], [], [0], [0, 1], [0, 1], [1],
        [1], [1], [1], [1, 2], [1, 2], [2]] ∧
      Meets (RingServer.ReturnsInPlace handleClient 0) ⟨.new, ⟨entries 0, 2048⟩, 0, []⟩ l)
    (by decide +kernel)
  obtain ⟨hheld, hplace⟩ := hl
  rw [← hnew] at hnext hplace
  have hpath : Path (ringServerStep handleClient (fun _ _ => True) 0) (.new 0 (entries 0)) l :=
    hnext.mono fun _ _ _ h => RingServer.ringServerStep_of_next h
  obtain ⟨htally, hconserved⟩ := buffers_of_connections hpath
  exact ⟨l, hops, hpath, hheld, htally, hconserved hplace⟩

end Novaio.HttpServer
