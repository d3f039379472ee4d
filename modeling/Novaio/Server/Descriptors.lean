import Novaio.Server.Engine

/-!
# The descriptors of a server

A coroutine that closes its descriptor last (`ClosesLast`) has it for as long as it uses it. In
every run of a server of such coroutines, each operation is executed on the connection that it was
issued for, although the kernel gives descriptors that were closed to other connections; no
connection is used after its close, and none is closed twice.
-/

namespace Novaio

open DirectIo Transition

namespace Server

variable {ε κ π : Type*} {code : ClientHandler ε π} {promise : DirectOp → IoResult → Prop}
  {s t : Server κ π} {k : κ} {conn : Connection π} {d n : ℕ}

/-- Each connection has a number of its own, and one coroutine at most. -/
structure Numbered (s : Server κ π) : Prop where
  accepted_nodup : (s.accepted.map Prod.snd).Nodup
  accepted_lt : ∀ x ∈ s.accepted, x.2 < s.connections
  id_lt : ∀ k conn, s.handlers k = some conn → conn.id < s.connections
  id_inj : ∀ k k' conn conn', s.handlers k = some conn → s.handlers k' = some conn' →
    conn.id = conn'.id → k = k'
  not_accepted : ∀ k conn, s.handlers k = some conn → ∀ x ∈ s.accepted, x.2 ≠ conn.id

/-- The descriptor of a connection is closed: the kernel has executed the last operation. -/
def Closed (code : ClientHandler ε π) (s : Server κ π) (conn : Connection π) : Prop :=
  code.awaits conn.pc = some .close ∧ ∃ c, conn.ctx = some c ∧ s.results c ≠ none

/-- A connection has a descriptor: it is accepted, or it has a coroutine that has not closed it. -/
def Holds (code : ClientHandler ε π) (s : Server κ π) (d n : ℕ) : Prop :=
  (d, n) ∈ s.accepted ∨
    ∃ k conn, s.handlers k = some conn ∧ conn.directFd = d ∧ conn.id = n ∧ ¬ s.Closed code conn

/-- The descriptors are those of the connections that have not been closed, and what was executed
was on the connection it was meant for. -/
structure Owned (code : ClientHandler ε π) (s : Server κ π) : Prop where
  descriptor_iff : ∀ d n, s.descriptors d = some n ↔ s.Holds code d n
  executed_own : ∀ x ∈ s.executed, x.target = some x.id
  executed_lt : ∀ x ∈ s.executed, x.id < s.connections
  close_last : s.executed.Pairwise fun x y => x.op = .close → y.id ≠ x.id
  closes : ∀ n < s.connections, (∃ d, s.Holds code d n) ∨
    ∃ x ∈ s.executed, x.op = .close ∧ x.id = n
  not_closed : ∀ d n, s.Holds code d n → ∀ x ∈ s.executed, x.op = .close → x.id ≠ n

/-- Nothing is accepted at the start. -/
theorem new_numbered : (new : Server κ π).Numbered := by
  constructor <;> simp [new]

/-- Nothing is executed at the start. -/
theorem new_owned : (new : Server κ π).Owned code := by
  constructor <;> simp [new, Holds]

/-! ## The coroutines come and go -/

/-- The coroutine of a connection goes on, or returns. -/
theorem Numbered.congr (h : s.Numbered) (haccepted : t.accepted = s.accepted)
    (hconnections : t.connections = s.connections)
    (hid : ∀ k conn, t.handlers k = some conn → ∃ conn', s.handlers k = some conn' ∧
      conn'.id = conn.id) : t.Numbered := by
  refine ⟨?_, ?_, fun k conn hk => ?_, fun k k' conn conn' hk hk' heq => ?_, fun k conn hk => ?_⟩
  · rw [haccepted]
    exact h.accepted_nodup
  · rw [haccepted, hconnections]
    exact h.accepted_lt
  · obtain ⟨conn', hk', heq⟩ := hid k conn hk
    rw [hconnections, ← heq]
    exact h.id_lt k conn' hk'
  · obtain ⟨conn₁, hk₁, heq₁⟩ := hid k conn hk
    obtain ⟨conn₂, hk₂, heq₂⟩ := hid k' conn' hk'
    exact h.id_inj k k' conn₁ conn₂ hk₁ hk₂ (by rw [heq₁, heq₂, heq])
  · obtain ⟨conn', hk', heq⟩ := hid k conn hk
    rw [haccepted, ← heq]
    exact h.not_accepted k conn' hk'

/-- A step that leaves the connections as they are. -/
theorem Owned.congr (h : s.Owned code) (hconnections : t.connections = s.connections)
    (hdescriptors : t.descriptors = s.descriptors) (hexecuted : t.executed = s.executed)
    (hholds : ∀ d n, t.Holds code d n ↔ s.Holds code d n) : t.Owned code := by
  refine ⟨fun d n => ?_, ?_, ?_, ?_, fun n hn => ?_, fun d n hd => ?_⟩
  · rw [hdescriptors, hholds]
    exact h.descriptor_iff d n
  · rw [hexecuted]
    exact h.executed_own
  · rw [hexecuted, hconnections]
    exact h.executed_lt
  · rw [hexecuted]
    exact h.close_last
  · rw [hconnections] at hn
    rw [hexecuted]
    refine (h.closes n hn).imp_left ?_
    rintro ⟨d, hd⟩
    exact ⟨d, (hholds d n).mpr hd⟩
  · rw [hexecuted]
    exact h.not_closed d n ((hholds d n).mp hd)

/-- The coroutine of a connection goes on, and still has the descriptor, or it has closed it and
returns. -/
theorem holds_update [DecidableEq κ] (hk : s.handlers k = some conn) {next : Option (Connection π)}
    (haccepted : t.accepted = s.accepted) (hresults : t.results = s.results)
    (hhandlers : t.handlers = Function.update s.handlers k next)
    (hnext : ∀ conn', next = some conn' → conn'.directFd = conn.directFd ∧ conn'.id = conn.id ∧
      ¬ s.Closed code conn')
    (hclosed : next = none ↔ s.Closed code conn) (d n : ℕ) :
    t.Holds code d n ↔ s.Holds code d n := by
  have hsame : ∀ conn', t.Closed code conn' ↔ s.Closed code conn' := fun conn' => by
    rw [Closed, Closed, hresults]
  unfold Holds
  rw [haccepted, hhandlers]
  refine or_congr_right ⟨?_, ?_⟩
  · rintro ⟨k', conn', hk', hd, hn, hopen⟩
    rw [hsame] at hopen
    rcases eq_or_ne k' k with rfl | hne
    · rw [Function.update_self] at hk'
      obtain ⟨hd', hn', -⟩ := hnext conn' hk'
      refine ⟨k', conn, hk, hd' ▸ hd, hn' ▸ hn, fun hcl => ?_⟩
      simp [hclosed.mpr hcl] at hk'
    · rw [Function.update_of_ne hne] at hk'
      exact ⟨k', conn', hk', hd, hn, hopen⟩
  · rintro ⟨k', conn', hk', hd, hn, hopen⟩
    rcases eq_or_ne k' k with rfl | hne
    · obtain rfl := Option.some.inj (hk.symm.trans hk')
      obtain ⟨conn', hconn'⟩ := Option.ne_none_iff_exists'.mp (mt hclosed.mp hopen)
      obtain ⟨hd', hn', hopen'⟩ := hnext conn' hconn'
      exact ⟨k', conn', by rw [Function.update_self, hconn'], hd'.trans hd, hn'.trans hn,
        fun hcl => hopen' ((hsame conn').mp hcl)⟩
    · exact ⟨k', conn', by rw [Function.update_of_ne hne, hk'], hd, hn,
        fun hcl => hopen ((hsame conn').mp hcl)⟩

/-! ## The kernel accepts -/

/-- The kernel accepts a connection, which has the next number. -/
theorem Numbered.accept (h : s.Numbered)
    (haccepted : t.accepted = s.accepted ++ [(d, s.connections)])
    (hconnections : t.connections = s.connections + 1) (hhandlers : t.handlers = s.handlers) :
    t.Numbered := by
  refine ⟨?_, fun x hx => ?_, fun k conn hk => ?_, by rw [hhandlers]; exact h.id_inj,
    fun k conn hk x hx => ?_⟩
  · rw [haccepted, List.map_append, List.nodup_append]
    refine ⟨h.accepted_nodup, by simp, fun m hm m' hm' => ?_⟩
    obtain ⟨x, hx, rfl⟩ := List.mem_map.mp hm
    have hlt := h.accepted_lt x hx
    simp only [List.map_cons, List.map_nil, List.mem_singleton] at hm'
    omega
  · rw [haccepted] at hx
    rw [hconnections]
    rcases List.mem_append.mp hx with hx | hx
    · have hlt := h.accepted_lt x hx
      omega
    · rw [List.mem_singleton.mp hx]
      simp
  · rw [hconnections]
    exact Nat.lt_succ_of_lt (h.id_lt k conn (hhandlers ▸ hk))
  · rw [haccepted] at hx
    rw [hhandlers] at hk
    rcases List.mem_append.mp hx with hx | hx
    · exact h.not_accepted k conn hk x hx
    · rw [List.mem_singleton.mp hx]
      exact Nat.ne_of_gt (h.id_lt k conn hk)

/-- The connection that is accepted is the only one that gets a descriptor. -/
theorem Owned.accept (h : s.Owned code) (hfree : s.descriptors d = none)
    (hdescriptors : t.descriptors = Function.update s.descriptors d (some s.connections))
    (haccepted : t.accepted = s.accepted ++ [(d, s.connections)])
    (hconnections : t.connections = s.connections + 1) (hhandlers : t.handlers = s.handlers)
    (hresults : t.results = s.results) (hexecuted : t.executed = s.executed) : t.Owned code := by
  have hholds : ∀ d' n, t.Holds code d' n ↔ s.Holds code d' n ∨ d' = d ∧ n = s.connections := by
    intro d' n
    simp only [Holds, Closed, haccepted, hhandlers, hresults, List.mem_append, List.mem_singleton,
      Prod.mk.injEq]
    exact or_right_comm
  refine ⟨fun d' n => ?_, ?_, fun x hx => ?_, ?_, fun n hn => ?_, fun d' n hd' x hx hclose => ?_⟩
  · rw [hdescriptors, hholds]
    rcases eq_or_ne d' d with rfl | hne
    · have hnone : ¬ s.Holds code d' n := by
        rw [← h.descriptor_iff, hfree]
        simp
      simp [hnone, eq_comm]
    · simp [hne, h.descriptor_iff]
  · rw [hexecuted]
    exact h.executed_own
  · rw [hexecuted] at hx
    rw [hconnections]
    exact Nat.lt_succ_of_lt (h.executed_lt x hx)
  · rw [hexecuted]
    exact h.close_last
  · rw [hexecuted]
    rw [hconnections] at hn
    rcases Nat.lt_succ_iff_lt_or_eq.mp hn with hlt | rfl
    · refine (h.closes n hlt).imp_left ?_
      rintro ⟨d', hd'⟩
      exact ⟨d', (hholds d' n).mpr (.inl hd')⟩
    · exact .inl ⟨d, (hholds d _).mpr (.inr ⟨rfl, rfl⟩)⟩
  · rw [hexecuted] at hx
    rcases (hholds d' n).mp hd' with hd' | ⟨-, rfl⟩
    · exact h.not_closed d' n hd' x hx hclose
    · exact Nat.ne_of_lt (h.executed_lt x hx)

variable [DecidableEq κ]

section HandleClient

variable (h : s.Numbered) (hmem : (d, n) ∈ s.accepted) (hk : s.handlers k = none) (pc : π)
  (haccepted : t.accepted = s.accepted.erase (d, n))
  (hhandlers : t.handlers = Function.update s.handlers k (some ⟨d, n, pc, none⟩))

omit [DecidableEq κ] in
include h haccepted in
/-- The other connections that are accepted still are. -/
theorem mem_accepted_iff (x : ℕ × ℕ) : x ∈ t.accepted ↔ x ≠ (d, n) ∧ x ∈ s.accepted := by
  rw [haccepted]
  exact h.accepted_nodup.of_map.mem_erase_iff

include hhandlers in
/-- A coroutine is the one of the connection, or was there before. -/
theorem handlers_cases {k' : κ} {conn : Connection π} (hk' : t.handlers k' = some conn) :
    k' = k ∧ conn = ⟨d, n, pc, none⟩ ∨ k' ≠ k ∧ s.handlers k' = some conn := by
  rw [hhandlers] at hk'
  rcases eq_or_ne k' k with rfl | hne
  · rw [Function.update_self] at hk'
    exact .inl ⟨rfl, (Option.some.inj hk').symm⟩
  · rw [Function.update_of_ne hne] at hk'
    exact .inr ⟨hne, hk'⟩

include h hmem haccepted hhandlers in
/-- A connection that is accepted gets its coroutine. -/
theorem Numbered.handleClient (hconnections : t.connections = s.connections) : t.Numbered := by
  refine ⟨?_, fun x hx => ?_, fun k' conn hk' => ?_, fun k₁ k₂ conn₁ conn₂ hk₁ hk₂ heq => ?_,
    fun k' conn hk' x hx => ?_⟩
  · rw [haccepted]
    exact h.accepted_nodup.sublist (List.erase_sublist.map _)
  · rw [hconnections]
    exact h.accepted_lt x ((mem_accepted_iff h haccepted x).mp hx).2
  · rw [hconnections]
    rcases handlers_cases pc hhandlers hk' with ⟨-, rfl⟩ | ⟨-, hold⟩
    · exact h.accepted_lt (d, n) hmem
    · exact h.id_lt k' conn hold
  · rcases handlers_cases pc hhandlers hk₁ with ⟨rfl, rfl⟩ | ⟨-, hold₁⟩ <;>
      rcases handlers_cases pc hhandlers hk₂ with ⟨rfl, rfl⟩ | ⟨-, hold₂⟩
    · rfl
    · exact (h.not_accepted k₂ conn₂ hold₂ (d, n) hmem heq).elim
    · exact (h.not_accepted k₁ conn₁ hold₁ (d, n) hmem heq.symm).elim
    · exact h.id_inj k₁ k₂ conn₁ conn₂ hold₁ hold₂ heq
  · obtain ⟨hne, hx⟩ := (mem_accepted_iff h haccepted x).mp hx
    rcases handlers_cases pc hhandlers hk' with ⟨-, rfl⟩ | ⟨-, hold⟩
    · exact fun heq => hne (List.inj_on_of_nodup_map h.accepted_nodup hx hmem heq)
    · exact h.not_accepted k' conn hold x hx

include h hmem hk haccepted hhandlers in
/-- The connection keeps its descriptor. -/
theorem holds_handleClient (hresults : t.results = s.results) (d' n' : ℕ) :
    t.Holds code d' n' ↔ s.Holds code d' n' := by
  have hclosed : ∀ conn, t.Closed code conn ↔ s.Closed code conn := fun conn => by
    rw [Closed, Closed, hresults]
  constructor
  · rintro (hx | ⟨k', conn, hk', hd, hn, hopen⟩)
    · exact .inl ((mem_accepted_iff h haccepted _).mp hx).2
    · rcases handlers_cases pc hhandlers hk' with ⟨rfl, rfl⟩ | ⟨-, hold⟩
      · obtain rfl : d = d' := hd
        obtain rfl : n = n' := hn
        exact .inl hmem
      · exact .inr ⟨k', conn, hold, hd, hn, mt (hclosed conn).mpr hopen⟩
  · rintro (hx | ⟨k', conn, hk', hd, hn, hopen⟩)
    · by_cases heq : (d', n') = (d, n)
      · obtain ⟨rfl, rfl⟩ := Prod.mk.inj heq
        refine .inr ⟨k, ⟨d', n', pc, none⟩, by rw [hhandlers, Function.update_self], rfl, rfl, ?_⟩
        rintro ⟨-, c, hc, -⟩
        simp at hc
      · exact .inl ((mem_accepted_iff h haccepted _).mpr ⟨heq, hx⟩)
    · have hne : k' ≠ k := by
        rintro rfl
        simp [hk] at hk'
      exact .inr ⟨k', conn, by rw [hhandlers, Function.update_of_ne hne, hk'], hd, hn,
        mt (hclosed conn).mp hopen⟩

end HandleClient

/-! ## The kernel completes an operation -/

section Complete

variable (h : s.Numbered) (hserves : s.Serves code promise none) {c : ℕ} {op : DirectOp}
  (hk : s.handlers k = some conn) (hplace : code.awaits conn.pc = some op)
  (hctx : conn.ctx = some c) (hrequest : s.requests[c]? = some ⟨op, conn.directFd, conn.id⟩)
  (hnone : s.results c = none) {r : IoResult}
  (haccepted : t.accepted = s.accepted) (hhandlers : t.handlers = s.handlers)
  (hresults : t.results = Function.update s.results c (some r))

omit [DecidableEq κ] in
include h hk in
/-- The descriptor of a connection with a coroutine is the one that the coroutine has. -/
theorem Holds.of_id (hholds : s.Holds code d conn.id) :
    d = conn.directFd ∧ ¬ s.Closed code conn := by
  rcases hholds with hx | ⟨k', conn', hk', rfl, hid, hopen⟩
  · exact (h.not_accepted k conn hk _ hx rfl).elim
  · obtain rfl := h.id_inj k' k conn' conn hk' hk hid
    obtain rfl := Option.some.inj (hk'.symm.trans hk)
    exact ⟨rfl, hopen⟩

include h hserves hk hrequest in
/-- An operation is waited for by one coroutine. -/
theorem awaited_once {k' : κ} {conn' : Connection π} (hk' : s.handlers k' = some conn')
    (hctx' : conn'.ctx = some c) : conn' = conn := by
  rcases hserves.placed k' conn' hk' (by simp) with ⟨op', c', -, hc', hrequest', -⟩ | ⟨-, hc', -⟩
  · obtain rfl := Option.some.inj (hc'.symm.trans hctx')
    have heq := Option.some.inj (hrequest'.symm.trans hrequest)
    obtain rfl := h.id_inj k' k conn' conn hk' hk (congrArg Request.id heq)
    exact Option.some.inj (hk'.symm.trans hk)
  · simp [hctx'] at hc'

include h hserves hk hrequest in
/-- The completion gives no result to the coroutine of another connection. -/
theorem bind_results_of_ne {k' : κ} {conn' : Connection π} (hk' : s.handlers k' = some conn')
    (hne : conn'.id ≠ conn.id) (r : IoResult) :
    conn'.ctx.bind (Function.update s.results c (some r)) = conn'.ctx.bind s.results := by
  cases hc : conn'.ctx with
  | none => rfl
  | some c' =>
    refine Function.update_of_ne (fun heq => hne ?_) ..
    rw [awaited_once h hserves hk hrequest hk' (by rw [hc, heq])]

include h hserves hk hplace hctx hrequest hresults in
/-- A coroutine has closed its descriptor when its last operation has completed. -/
theorem closed_complete {k' : κ} {conn' : Connection π} (hk' : s.handlers k' = some conn') :
    t.Closed code conn' ↔ s.Closed code conn' ∨ op = .close ∧ conn' = conn := by
  unfold Closed
  rw [hresults]
  constructor
  · rintro ⟨hclose, c', hc', hsome⟩
    rcases eq_or_ne c' c with rfl | hne
    · obtain rfl := awaited_once h hserves hk hrequest hk' hc'
      exact .inr ⟨Option.some.inj (hplace.symm.trans hclose), rfl⟩
    · rw [Function.update_of_ne hne] at hsome
      exact .inl ⟨hclose, c', hc', hsome⟩
  · rintro (⟨hclose, c', hc', hsome⟩ | ⟨rfl, rfl⟩)
    · refine ⟨hclose, c', hc', ?_⟩
      rw [Function.update_apply]
      split_ifs
      · simp
      · exact hsome
    · exact ⟨hplace, c, hctx, by simp⟩

include h hserves hk hplace hctx hrequest haccepted hhandlers hresults in
/-- A connection loses its descriptor when it is closed. -/
theorem holds_complete (d n : ℕ) :
    t.Holds code d n ↔ s.Holds code d n ∧ ¬ (op = .close ∧ n = conn.id) := by
  have hclosed {k' : κ} {conn' : Connection π} (hk' : s.handlers k' = some conn') :=
    closed_complete h hserves hk hplace hctx hrequest hresults hk'
  unfold Holds
  rw [haccepted, hhandlers]
  constructor
  · rintro (hx | ⟨k', conn', hk', hd, hn, hopen⟩)
    · exact ⟨.inl hx, fun hcl => h.not_accepted k conn hk _ hx hcl.2⟩
    · rw [hclosed hk', not_or] at hopen
      refine ⟨.inr ⟨k', conn', hk', hd, hn, hopen.1⟩, fun hcl => hopen.2 ⟨hcl.1, ?_⟩⟩
      obtain rfl := h.id_inj k' k conn' conn hk' hk (hn.trans hcl.2)
      exact Option.some.inj (hk'.symm.trans hk)
  · rintro ⟨hx | ⟨k', conn', hk', hd, hn, hopen⟩, hcl⟩
    · exact .inl hx
    · refine .inr ⟨k', conn', hk', hd, hn, ?_⟩
      rw [hclosed hk', not_or]
      exact ⟨hopen, fun hclose => hcl ⟨hclose.1, hclose.2 ▸ hn.symm⟩⟩

omit [DecidableEq κ] in
include hk hctx hnone in
/-- A coroutine has the descriptor for which it waits. -/
theorem holds_of_ctx : s.Holds code conn.directFd conn.id := by
  refine .inr ⟨k, conn, hk, rfl, rfl, ?_⟩
  rintro ⟨-, c', hc', hsome⟩
  obtain rfl := Option.some.inj (hc'.symm.trans hctx)
  exact hsome hnone

include h hserves hk hplace hctx hrequest hnone haccepted hhandlers hresults in
/-- The kernel executes an operation on the connection it is for. -/
theorem Owned.complete (howned : s.Owned code) (hconnections : t.connections = s.connections)
    (hexecuted : t.executed = s.executed ++ [⟨op, conn.id, s.descriptors conn.directFd⟩])
    (hdescriptors : t.descriptors =
      if op = .close then Function.update s.descriptors conn.directFd none else s.descriptors) :
    t.Owned code := by
  have hholds := holds_complete h hserves hk hplace hctx hrequest haccepted hhandlers hresults
  have hopen : s.Holds code conn.directFd conn.id := holds_of_ctx hk hctx hnone
  have hdescriptor := (howned.descriptor_iff _ _).mpr hopen
  refine ⟨fun d n => ?_, fun x hx => ?_, fun x hx => ?_, ?_, fun n hn => ?_,
    fun d n hd x hx hclose => ?_⟩
  · rw [hholds, ← howned.descriptor_iff, hdescriptors]
    split_ifs with hclose
    · rcases eq_or_ne d conn.directFd with rfl | hne
      · simp [hclose, hdescriptor, eq_comm]
      · rw [Function.update_of_ne hne]
        refine ⟨fun hd => ⟨hd, ?_⟩, fun hd => hd.1⟩
        rintro ⟨-, rfl⟩
        exact hne (Holds.of_id h hk ((howned.descriptor_iff _ _).mp hd)).1
    · simp [hclose]
  · rw [hexecuted] at hx
    rcases List.mem_append.mp hx with hx | hx
    · exact howned.executed_own x hx
    · rw [List.mem_singleton.mp hx]
      exact hdescriptor
  · rw [hconnections]
    rw [hexecuted] at hx
    rcases List.mem_append.mp hx with hx | hx
    · exact howned.executed_lt x hx
    · rw [List.mem_singleton.mp hx]
      exact h.id_lt k conn hk
  · rw [hexecuted, List.pairwise_append]
    refine ⟨howned.close_last, List.pairwise_singleton .., fun x hx y hy hclose => ?_⟩
    rw [List.mem_singleton.mp hy]
    exact (howned.not_closed _ _ hopen x hx hclose).symm
  · rw [hconnections] at hn
    rw [hexecuted]
    rcases howned.closes n hn with ⟨d, hd⟩ | ⟨x, hx, hclose, rfl⟩
    · by_cases hcl : op = .close ∧ n = conn.id
      · exact .inr ⟨_, List.mem_append_right _ (List.mem_singleton_self _), hcl.1, hcl.2.symm⟩
      · exact .inl ⟨d, (hholds d n).mpr ⟨hd, hcl⟩⟩
    · exact .inr ⟨x, List.mem_append_left _ hx, hclose, rfl⟩
  · obtain ⟨hd, hcl⟩ := (hholds d n).mp hd
    rw [hexecuted] at hx
    rcases List.mem_append.mp hx with hx | hx
    · exact howned.not_closed d n hd x hx hclose
    · obtain rfl := List.mem_singleton.mp hx
      exact fun heq => hcl ⟨hclose, heq.symm⟩

end Complete

/-! ## The coroutines go on -/

/-- A connection that has no coroutine, but for that of another one that starts, goes on or returns,
had none before. -/
theorem unserved_of_update {next : Option (Connection π)} {n : ℕ}
    (hk : ∀ conn, s.handlers k = some conn → conn.id ≠ n)
    (hn : ∀ k' conn', Function.update s.handlers k next k' = some conn' → conn'.id ≠ n) :
    ∀ k' conn', s.handlers k' = some conn' → conn'.id ≠ n := by
  intro k' conn' hk'
  rcases eq_or_ne k' k with rfl | hne
  · exact hk conn' hk'
  · exact hn k' conn' (by rw [Function.update_of_ne hne, hk'])

/-- A coroutine that goes on changes its own place, to one where nothing has happened yet, and gives
its buffers back. -/
theorem goOn_cases (hlt : ∀ c, s.results c ≠ none → c < s.requests.length) {awaiter : ℕ}
    {next : List UInt16 × Option π} (ht : s.goOn code k conn awaiter next = some t) :
    ∃ conn', t.handlers = Function.update s.handlers k conn' ∧ (conn' = none ↔ next.2 = none) ∧
      (∀ conn'', conn' = some conn'' → conn''.directFd = conn.directFd ∧ conn''.id = conn.id ∧
        next.2 = some conn''.pc ∧ conn''.ctx.bind s.results = none) ∧
      t.accepted = s.accepted ∧ t.results = s.results ∧ t.connections = s.connections ∧
      t.descriptors = s.descriptors ∧ t.executed = s.executed ∧ t.selected = s.selected ∧
      t.returned = Function.update s.returned conn.id (s.returned conn.id ++ next.1) := by
  simp only [goOn] at ht
  split at ht
  · next hnone =>
    obtain rfl := Option.some.inj ht
    exact ⟨none, rfl, by simp [hnone], by simp, rfl, rfl, rfl, rfl, rfl, rfl, rfl⟩
  · next pc hpc =>
    split at ht
    · obtain rfl := Option.some.inj ht
      refine ⟨_, rfl, by simp [hpc], fun conn'' heq => ?_, rfl, rfl, rfl, rfl, rfl, rfl, rfl⟩
      obtain rfl := Option.some.inj heq
      exact ⟨rfl, rfl, hpc, rfl⟩
    · obtain ⟨io, -, rfl⟩ := Option.map_eq_some_iff.mp ht
      refine ⟨_, rfl, by simp [hpc], fun conn'' heq => ?_, rfl, rfl, rfl, rfl, rfl, rfl, rfl⟩
      obtain rfl := Option.some.inj heq
      -- The operation that it awaits next has not been executed.
      refine ⟨rfl, rfl, hpc, ?_⟩
      by_contra hsome
      exact Nat.lt_irrefl _ (hlt _ hsome)

/-- A coroutine that goes on keeps the numbers and the descriptors. -/
theorem Owned.goOn (h : s.Numbered) (howned : s.Owned code)
    (hlt : ∀ c, s.results c ≠ none → c < s.requests.length) (hk : s.handlers k = some conn)
    {awaiter : ℕ} {next : List UInt16 × Option π} (hnext : next.2 = none ↔ s.Closed code conn)
    (ht : s.goOn code k conn awaiter next = some t) : t.Numbered ∧ t.Owned code := by
  obtain ⟨conn', hhandlers, hconn', hkept, haccepted, hresults, hconnections, hdescriptors,
    hexecuted, -⟩ := goOn_cases hlt ht
  constructor
  · refine h.congr haccepted hconnections fun k' conn'' hk' => ?_
    rw [hhandlers] at hk'
    rcases eq_or_ne k' k with rfl | hne
    · rw [Function.update_self] at hk'
      exact ⟨conn, hk, (hkept conn'' hk').2.1.symm⟩
    · rw [Function.update_of_ne hne] at hk'
      exact ⟨conn'', hk', rfl⟩
  · refine howned.congr hconnections hdescriptors hexecuted
      (holds_update hk haccepted hresults hhandlers (fun conn'' heq => ?_) (hconn'.trans hnext))
    obtain ⟨hd, hn, -, hnone⟩ := hkept conn'' heq
    refine ⟨hd, hn, ?_⟩
    rintro ⟨-, c, hc, hsome⟩
    rw [hc] at hnone
    exact hsome hnone

/-- The engine, the numbers and the descriptors of a server are as they should be. -/
structure Keeps (code : ClientHandler ε π) (promise : DirectOp → IoResult → Prop)
    (s : Server κ π) : Prop where
  serves : s.Serves code promise none
  numbered : s.Numbered
  owned : s.Owned code

/-- The start. -/
theorem new_keeps : (new : Server κ π).Keeps code promise :=
  ⟨new_serves, new_numbered, new_owned⟩

omit [DecidableEq κ] in
/-- A coroutine returns when its descriptor is closed. -/
theorem returns_iff_closed (hcode : code.ClosesLast) {ret : Option IoResult}
    (hret : ret.isSome = (code.awaits conn.pc).isSome)
    (hready : ret.isSome → ∃ c, conn.ctx = some c ∧ s.results c = ret) (input : ε) :
    (code.advance input conn.pc ret).2 = none ↔ s.Closed code conn := by
  rw [hcode.returns_iff input conn.pc ret hret]
  refine ⟨fun hclose => ⟨hclose, ?_⟩, fun hcl => hcl.1⟩
  have hsome : ret.isSome := by rw [hret, hclose, Option.isSome_some]
  obtain ⟨c, hc, hresult⟩ := hready hsome
  refine ⟨c, hc, ?_⟩
  rw [hresult]
  exact Option.isSome_iff_ne_none.mp hsome

/-- The step lemma for the descriptors. -/
theorem Keeps.step (h : s.Keeps code promise) (hcode : code.ClosesLast) {op : ServerOp ε κ}
    (hstep : serverStep code promise s op t) : t.Keeps code promise := by
  suffices hkeeps : t.Numbered ∧ t.Owned code from
    ⟨h.serves.step hcode hstep, hkeeps.1, hkeeps.2⟩
  obtain ⟨hstep, -⟩ := hstep
  cases op with
  | accept d =>
    obtain ⟨hfree, ht⟩ := Option.ite_none_right_eq_some.mp hstep
    obtain rfl := Option.some.inj ht
    exact ⟨h.numbered.accept rfl rfl rfl, h.owned.accept hfree rfl rfl rfl rfl rfl rfl⟩
  | handleClient k d n =>
    obtain ⟨⟨hmem, hk⟩, ht⟩ := Option.ite_none_right_eq_some.mp hstep
    obtain rfl := Option.some.inj ht
    exact ⟨h.numbered.handleClient hmem code.start rfl rfl rfl, h.owned.congr rfl rfl rfl
      (holds_handleClient h.numbered hmem hk code.start rfl rfl rfl)⟩
  | complete c r =>
    simp only [Server.step] at hstep
    split at hstep
    · next request hrequest hnone =>
      obtain rfl := Option.some.inj hstep
      -- The coroutine that waits for the operation has its descriptor.
      obtain ⟨k, conn, op, hk, hplace, hctx, rfl⟩ := h.serves.waiting hrequest hnone
      exact ⟨h.numbered.congr rfl rfl fun k conn hk => ⟨conn, hk, rfl⟩,
        h.owned.complete h.numbered h.serves hk hplace hctx hrequest hnone rfl rfl rfl rfl rfl rfl⟩
    · simp at hstep
  | poll c =>
    simp only [Server.step] at hstep
    split at hstep
    · obtain ⟨io, -, rfl⟩ := Option.map_eq_some_iff.mp hstep
      exact ⟨h.numbered.congr rfl rfl fun k conn hk => ⟨conn, hk, rfl⟩,
        h.owned.congr rfl rfl rfl fun _ _ => Iff.rfl⟩
    · simp at hstep
  | resume k input awaiter =>
    simp only [Server.step] at hstep
    split at hstep
    · next conn hk =>
      split at hstep
      · next hplace =>
        refine h.owned.goOn h.numbered h.serves.results_lt hk ?_ hstep
        exact returns_iff_closed hcode (by simp [hplace]) (by simp) input
      · next op hplace =>
        obtain ⟨x, hio, ht⟩ := Option.bind_eq_some_iff.mp hstep
        obtain ⟨-, c, hctx, hresult, -⟩ := h.serves.awaitResult hk hplace hio
        have hnumbered : ({ s with io := x.2 }).Numbered :=
          h.numbered.congr rfl rfl fun k conn hk => ⟨conn, hk, rfl⟩
        have howned : ({ s with io := x.2 }).Owned code :=
          h.owned.congr rfl rfl rfl fun _ _ => Iff.rfl
        refine howned.goOn hnumbered h.serves.results_lt hk ?_ ht
        exact returns_iff_closed hcode (by simp [hplace]) (fun _ => ⟨c, hctx, hresult⟩) input
    · simp at hstep

/-- All is kept in every run. -/
theorem reachable_keeps (hcode : code.ClosesLast)
    (hs : Reachable (serverStep code promise) new s) : s.Keeps code promise := by
  refine Reachable.invariant (fun s op t h hstep => ?_) new_keeps hs
  exact Keeps.step h hcode hstep

/-- A list of steps leads to a reachable state, where the kernel promises nothing. -/
theorem reachable_of_run {ops : List (ServerOp ε κ)}
    (hrun : ops.foldlM (step code) s = some t) :
    Reachable (serverStep code fun _ _ => True) s t := by
  induction ops generalizing s with
  | nil =>
    obtain rfl := Option.some.inj hrun
    exact Reachable.refl _ _
  | cons op ops ih =>
    obtain ⟨u, hu, hrun⟩ := Option.bind_eq_some_iff.mp hrun
    have hstep : serverStep code (fun _ _ => True) s op u := by
      refine ⟨hu, ?_⟩
      cases op <;> simp
    exact ((Reachable.refl _ s).step hstep).trans (ih hrun)

end Server

end Novaio
