import Novaio.DirectIo.Basic

/-!
# The engine of a scheduler

`IoEngine` of `src/io_engine.cpp`, as far as the queues of its ring go: the entries that are
prepared and not submitted yet, and the completions that `poll` has not handled yet.
`io_uring_get_sqe` returns null where the submission queue holds `depth` entries, and
`io_uring_submit`, if it succeeds, submits them all.

The functions that prepare an entry write through the pointer that they get. Six of them do not look
at it (`prepare`), so that they have no result (`none`) on a full queue. `send_msg_ring` submits and
tries once more. The descriptor of a ring is given as the scheduler that has the ring.
-/

namespace Novaio

/-- `IO_QUEUE_DEPTH`. -/
def ioQueueDepth : ℕ := 4096

/-- The user data of an entry: the tag, with its payload. A null pointer is `none`. -/
inductive UserData (κ : Type*) where
  | io (ctx : Option ℕ)
  | multi (op : Option ℕ)
  | coro (handle : κ)
  | inbox

/-- An entry of the submission queue. -/
inductive Sqe (σ κ : Type*) where
  | multishotAccept (serverFd : ℤ) (op : Option ℕ)
  | recvMultishot (directFd : ℤ) (op : Option ℕ)
  | acceptDirect (serverFd : ℤ) (ctx : ℕ)
  | recv (directFd : ℤ) (ctx : ℕ)
  | send (directFd : ℤ) (buf len : ℕ) (ctx : ℕ)
  | closeDirect (directFd : ℤ) (ctx : ℕ)
  | msgRing (target : σ) (data : UserData κ)

/-- The user data that an entry completes with on its own ring. -/
def Sqe.userData {σ κ : Type*} : Sqe σ κ → UserData κ
  | .multishotAccept _ op | .recvMultishot _ op => .multi op
  | .acceptDirect _ ctx | .recv _ ctx | .send _ _ _ ctx | .closeDirect _ ctx => .io (some ctx)
  | .msgRing _ _ => .io none

/-- A completion. -/
structure Cqe (κ : Type*) where
  userData : UserData κ
  result : IoResult

/-- `IoEngine`: its ring, with the entries that are prepared and the completions that are not
handled, and the contexts of its direct operations. -/
structure IoEngine (σ κ : Type*) where
  initialized : Bool
  depth : ℕ
  sqes : List (Sqe σ κ)
  cqes : List (Cqe κ)
  contexts : ℕ → IoContext κ

/-- A call of one of the functions that prepare an operation. The context of a direct operation is
at the given address. -/
inductive IoCall where
  | acceptMultishot (serverFd : ℤ) (op : Option ℕ)
  | recvMultishot (directFd : ℤ) (op : Option ℕ)
  | acceptDirect (serverFd : ℤ) (ctx : ℕ)
  | recvDirect (directFd : ℤ) (ctx : ℕ)
  | sendDirect (directFd : ℤ) (buf len : ℕ) (ctx : ℕ)
  | closeDirect (directFd : ℤ) (ctx : ℕ)

/-- The depth of the ring that `IoEngine::init` sets up: `tryInit` says whether the kernel accepts a
depth, with the advanced flags or without. -/
def initDepth (tryInit : ℕ → Bool → Bool) : Option ℕ :=
  [ioQueueDepth, 1024, 256].find? fun depth => tryInit depth true || tryInit depth false

/-- The depth is one of the three that `init` tries. -/
theorem initDepth_mem {tryInit : ℕ → Bool → Bool} {depth : ℕ} (h : initDepth tryInit = some depth) :
    depth ∈ [4096, 1024, 256] :=
  List.mem_of_find?_eq_some h

namespace IoEngine

variable {σ κ : Type*}

/-- An engine as constructed. -/
def new : IoEngine σ κ where
  initialized := false
  depth := 0
  sqes := []
  cqes := []
  contexts _ := {}

/-- `IoEngine::init`, with a ring of this depth. -/
def init (e : IoEngine σ κ) (depth : ℕ) : IoEngine σ κ :=
  { e with initialized := true, depth := depth }

/-- `io_uring_get_sqe`, and the writes to the entry that it returns. -/
def prepare (e : IoEngine σ κ) (sqe : Sqe σ κ) : Option (IoEngine σ κ) :=
  if e.sqes.length < e.depth then some { e with sqes := e.sqes ++ [sqe] } else none

/-- `io_uring_submit`, with the entries that it submits. -/
def submit (e : IoEngine σ κ) (ok : Bool) : IoEngine σ κ × List (Sqe σ κ) :=
  if ok then ({ e with sqes := [] }, e.sqes) else (e, [])

/-- A new context for a direct operation that is prepared. -/
def newContext (e : IoEngine σ κ) (ctx : ℕ) : IoEngine σ κ :=
  { e with contexts := Function.update e.contexts ctx {} }

/-- `IoEngine::accept_multishot`. -/
def acceptMultishot (e : IoEngine σ κ) (serverFd : ℤ) (op : Option ℕ) : Option (IoEngine σ κ) :=
  e.prepare (.multishotAccept serverFd op)

/-- `IoEngine::recv_multishot`. -/
def recvMultishot (e : IoEngine σ κ) (directFd : ℤ) (op : Option ℕ) : Option (IoEngine σ κ) :=
  e.prepare (.recvMultishot directFd op)

/-- `IoEngine::send_msg_ring`, with the entries that it submits. -/
def sendMsgRing (e : IoEngine σ κ) (target : σ) (data : UserData κ) (ok : Bool) :
    Option (IoEngine σ κ × List (Sqe σ κ)) :=
  match e.prepare (.msgRing target data) with
  | some e => some (e, [])
  | none =>
    -- The queue is full: it is submitted, and the entry is asked for again.
    let (e, submitted) := e.submit ok
    (e.prepare (.msgRing target data)).map fun e => (e, submitted)

/-- `IoEngine::accept_direct`. -/
def acceptDirect (e : IoEngine σ κ) (serverFd : ℤ) (ctx : ℕ) : Option (IoEngine σ κ) :=
  (e.prepare (.acceptDirect serverFd ctx)).map fun e => e.newContext ctx

/-- `IoEngine::recv_direct`. -/
def recvDirect (e : IoEngine σ κ) (directFd : ℤ) (ctx : ℕ) : Option (IoEngine σ κ) :=
  (e.prepare (.recv directFd ctx)).map fun e => e.newContext ctx

/-- `IoEngine::send_direct`. -/
def sendDirect (e : IoEngine σ κ) (directFd : ℤ) (buf len ctx : ℕ) : Option (IoEngine σ κ) :=
  (e.prepare (.send directFd buf len ctx)).map fun e => e.newContext ctx

/-- `IoEngine::close_direct`. -/
def closeDirect (e : IoEngine σ κ) (directFd : ℤ) (ctx : ℕ) : Option (IoEngine σ κ) :=
  (e.prepare (.closeDirect directFd ctx)).map fun e => e.newContext ctx

/-- The function that a call calls. -/
def call (e : IoEngine σ κ) : IoCall → Option (IoEngine σ κ)
  | .acceptMultishot fd op => e.acceptMultishot fd op
  | .recvMultishot fd op => e.recvMultishot fd op
  | .acceptDirect fd ctx => e.acceptDirect fd ctx
  | .recvDirect fd ctx => e.recvDirect fd ctx
  | .sendDirect fd buf len ctx => e.sendDirect fd buf len ctx
  | .closeDirect fd ctx => e.closeDirect fd ctx

/-- A write to a context. -/
def setContext (e : IoEngine σ κ) (ctx : ℕ) (f : IoContext κ → IoContext κ) : IoEngine σ κ :=
  { e with contexts := Function.update e.contexts ctx (f (e.contexts ctx)) }

/-- A completion is posted. -/
def post (e : IoEngine σ κ) (cqe : Cqe κ) : IoEngine σ κ := { e with cqes := e.cqes ++ [cqe] }

/-! ## What the calls have in common -/

variable {e e' : IoEngine σ κ}

/-- An entry can be prepared if and only if the queue is not full. -/
theorem prepare_eq_none_iff (e : IoEngine σ κ) (sqe : Sqe σ κ) :
    e.prepare sqe = none ↔ e.depth ≤ e.sqes.length := by
  simp [prepare]

/-- What a call leaves alone, and the entry that it prepares. -/
structure Prepared (e e' : IoEngine σ κ) (sqe : Sqe σ κ) : Prop where
  room : e.sqes.length < e.depth
  sqes : e'.sqes = e.sqes ++ [sqe]
  depth : e'.depth = e.depth
  initialized : e'.initialized = e.initialized
  cqes : e'.cqes = e.cqes
  contexts : ∀ ctx k, (e'.contexts ctx).coro = some k → (e.contexts ctx).coro = some k

/-- An entry is prepared. -/
theorem prepared_of_prepare {sqe : Sqe σ κ} (h : e.prepare sqe = some e') :
    Prepared e e' sqe := by
  obtain ⟨hroom, h⟩ := Option.ite_none_right_eq_some.mp h
  obtain rfl := Option.some.inj h
  exact ⟨hroom, rfl, rfl, rfl, rfl, fun _ _ => id⟩

/-- An entry is prepared, with a new context. -/
theorem prepared_of_newContext {sqe : Sqe σ κ} {ctx : ℕ}
    (h : (e.prepare sqe).map (fun e => e.newContext ctx) = some e') : Prepared e e' sqe := by
  obtain ⟨e₁, h₁, rfl⟩ := Option.map_eq_some_iff.mp h
  have hprepared := prepared_of_prepare h₁
  refine ⟨hprepared.room, hprepared.sqes, hprepared.depth, hprepared.initialized, hprepared.cqes,
    fun ctx' k hk => hprepared.contexts ctx' k ?_⟩
  rcases eq_or_ne ctx' ctx with rfl | hne
  · simp [newContext] at hk
  · simpa [newContext, Function.update_of_ne hne] using hk

/-- A call prepares one entry of its own ring. -/
theorem prepared_of_call {call : IoCall} (h : e.call call = some e') :
    ∃ sqe, Prepared e e' sqe ∧ ∀ target data, sqe ≠ .msgRing target data := by
  cases call with
  | acceptMultishot fd op => exact ⟨_, prepared_of_prepare h, by simp⟩
  | recvMultishot fd op => exact ⟨_, prepared_of_prepare h, by simp⟩
  | acceptDirect fd ctx => exact ⟨_, prepared_of_newContext h, by simp⟩
  | recvDirect fd ctx => exact ⟨_, prepared_of_newContext h, by simp⟩
  | sendDirect fd buf len ctx => exact ⟨_, prepared_of_newContext h, by simp⟩
  | closeDirect fd ctx => exact ⟨_, prepared_of_newContext h, by simp⟩

/-- A call writes through a null pointer if and only if the queue is full. -/
theorem call_eq_none_iff (e : IoEngine σ κ) (call : IoCall) :
    e.call call = none ↔ e.depth ≤ e.sqes.length := by
  cases call <;>
    simp only [IoEngine.call, acceptMultishot, recvMultishot, acceptDirect, recvDirect, sendDirect,
      closeDirect, Option.map_eq_none_iff, prepare_eq_none_iff]

/-- `send_msg_ring` prepares the message, after the entries that are prepared if there is room, or
alone, when it has submitted them. -/
theorem sendMsgRing_cases {target : σ} {data : UserData κ} {ok : Bool} {submitted : List (Sqe σ κ)}
    (h : e.sendMsgRing target data ok = some (e', submitted)) :
    (e.sqes.length < e.depth ∧ e' = { e with sqes := e.sqes ++ [.msgRing target data] } ∧
        submitted = []) ∨
      (e.depth ≤ e.sqes.length ∧ e' = { e with sqes := [.msgRing target data] } ∧
        submitted = e.sqes) := by
  unfold sendMsgRing prepare at h
  by_cases hroom : e.sqes.length < e.depth
  · simp only [hroom, if_true, Option.some.injEq, Prod.mk.injEq] at h
    exact .inl ⟨hroom, h.1.symm, h.2.symm⟩
  · simp only [hroom, if_false] at h
    obtain ⟨e₁, h₁, h₂⟩ := Option.map_eq_some_iff.mp h
    obtain ⟨rfl, rfl⟩ := Prod.mk.inj h₂
    cases ok with
    | false => simp [submit, hroom] at h₁
    | true =>
      obtain ⟨-, h₁⟩ := Option.ite_none_right_eq_some.mp h₁
      exact .inr ⟨Nat.le_of_not_lt hroom, (Option.some.inj h₁).symm, rfl⟩

/-- `send_msg_ring` writes through a null pointer if and only if the queue is full and its call of
`io_uring_submit` fails. -/
theorem sendMsgRing_eq_none_iff (e : IoEngine σ κ) (target : σ) (data : UserData κ) (ok : Bool)
    (hdepth : 0 < e.depth) :
    e.sendMsgRing target data ok = none ↔ e.depth ≤ e.sqes.length ∧ ok = false := by
  unfold sendMsgRing prepare
  by_cases hroom : e.sqes.length < e.depth
  · simp [hroom, Nat.not_le_of_lt hroom]
  · cases ok with
    | false => simp [submit, hroom, Nat.le_of_not_lt hroom]
    | true => simp [submit, hroom, hdepth]

end IoEngine

end Novaio
