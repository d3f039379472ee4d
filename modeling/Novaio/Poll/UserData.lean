import Novaio.IoEngine
import Novaio.Lib.TaggedWord

/-!
# The user data of completions

Every entry of a ring carries a word that comes back with its completion: a pointer with a tag in
its low bits, which `include/novaio/io_engine.hpp` lays out. The functions of `src/io_engine.cpp`
that prepare an entry, `CoMutex::unlock` and `Runtime::dispatch_on` each pack the word by hand.

An `Issue` is a word so packed, by the function that packs it. Its `Route` is what the completion is
for. The tag and the payload that `poll` unpacks are those of the route (`Issue.and_tagMask`,
`Issue.and_not_tagMask`), and two issues have the same word if and only if they have the same route
(`Issue.userData_eq_iff`).
-/

namespace Novaio

/-! ## The words -/

/-- `TAG_MASK`. -/
def tagMask : BitVec 64 := 0b111

/-- `TAG_IO`. -/
def tagIo : BitVec 64 := 0b000

/-- `TAG_MULTI`. -/
def tagMulti : BitVec 64 := 0b001

/-- `TAG_CORO`. -/
def tagCoro : BitVec 64 := 0b010

/-- `TAG_INBOX`. -/
def tagInbox : BitVec 64 := 0b011

/-- The user data that `IoEngine::accept_multishot` sets. -/
def acceptMultishotUserData (op : BitVec 64) : BitVec 64 := op ||| tagMulti

/-- The user data that `IoEngine::recv_multishot` sets. -/
def recvMultishotUserData (op : BitVec 64) : BitVec 64 := op ||| tagMulti

/-- The user data that `IoEngine::send_msg_ring` sets: a null pointer. So does
`Runtime::notify_target_ring` on the ring of a thread that has no scheduler. -/
def sendMsgRingUserData : BitVec 64 := 0

/-- The user data that `IoEngine::accept_direct` sets. -/
def acceptDirectUserData (ctx : BitVec 64) : BitVec 64 := ctx ||| tagIo

/-- The user data that `IoEngine::recv_direct` sets. -/
def recvDirectUserData (ctx : BitVec 64) : BitVec 64 := ctx ||| tagIo

/-- The user data that `IoEngine::send_direct` sets. -/
def sendDirectUserData (ctx : BitVec 64) : BitVec 64 := ctx ||| tagIo

/-- The user data that `IoEngine::close_direct` sets. -/
def closeDirectUserData (ctx : BitVec 64) : BitVec 64 := ctx ||| tagIo

/-- The message that `CoMutex::unlock` sends. It is the user data of a completion on the ring of the
target. -/
def unlockMessage (coroAddr : BitVec 64) : BitVec 64 := coroAddr ||| tagCoro

/-- The message that `Runtime::dispatch_on` sends. -/
def dispatchOnMessage : BitVec 64 := tagInbox

/-! ## What is issued -/

/-- A pointer to an object that is aligned to 8 bytes. -/
@[ext]
structure Address where
  word : BitVec 64
  aligned : 8 ∣ word.toNat
  ne_null : word ≠ 0

/-- What sets the user data of a completion. -/
inductive Issue where
  | acceptMultishot (op : Address)
  | recvMultishot (op : Address)
  | sendMsgRing
  | acceptDirect (ctx : Address)
  | recvDirect (ctx : Address)
  | sendDirect (ctx : Address)
  | closeDirect (ctx : Address)
  | unlock (coro : Address)
  | dispatchOn

/-- What a completion is for: an operation with its context, a multishot operation, the coroutine
that a mutex has been handed to, the inbox, or nothing. -/
inductive Route where
  | context (ctx : Address)
  | multishot (op : Address)
  | coroutine (coro : Address)
  | inbox
  | nothing

namespace Issue

/-- The user data of the completion. -/
def userData : Issue → BitVec 64
  | acceptMultishot op => acceptMultishotUserData op.word
  | recvMultishot op => recvMultishotUserData op.word
  | sendMsgRing => sendMsgRingUserData
  | acceptDirect ctx => acceptDirectUserData ctx.word
  | recvDirect ctx => recvDirectUserData ctx.word
  | sendDirect ctx => sendDirectUserData ctx.word
  | closeDirect ctx => closeDirectUserData ctx.word
  | unlock coro => unlockMessage coro.word
  | dispatchOn => dispatchOnMessage

/-- What the completion is for. -/
def route : Issue → Route
  | acceptMultishot op | recvMultishot op => .multishot op
  | acceptDirect ctx | recvDirect ctx | sendDirect ctx | closeDirect ctx => .context ctx
  | unlock coro => .coroutine coro
  | dispatchOn => .inbox
  | sendMsgRing => .nothing

end Issue

/-! ## Packing and unpacking -/

/-- The tag of a route. -/
def Route.tag : Route → BitVec 64
  | context _ | nothing => tagIo
  | multishot _ => tagMulti
  | coroutine _ => tagCoro
  | inbox => tagInbox

/-- The pointer of a route. -/
def Route.payload : Route → BitVec 64
  | context a | multishot a | coroutine a => a.word
  | inbox | nothing => 0

/-- The low bits of an address are clear. -/
theorem Address.and_tagMask (a : Address) : a.word &&& tagMask = 0#64 :=
  TaggedWord.and_eq_zero_of_dvd (k := 3) rfl a.aligned

/-- The low bits of the pointer are clear. -/
theorem Route.payload_and_tagMask (r : Route) : r.payload &&& tagMask = 0#64 := by
  cases r with
  | context a | multishot a | coroutine a => exact a.and_tagMask
  | inbox | nothing => rfl

/-- The tags fit into the low bits. -/
theorem Route.tag_and_tagMask (r : Route) : r.tag &&& tagMask = r.tag := by
  cases r with
  | context _ | nothing => exact (by decide : tagIo &&& tagMask = tagIo)
  | multishot _ => exact (by decide : tagMulti &&& tagMask = tagMulti)
  | coroutine _ => exact (by decide : tagCoro &&& tagMask = tagCoro)
  | inbox => exact (by decide : tagInbox &&& tagMask = tagInbox)

/-- A route is known by its tag and its pointer. -/
theorem Route.eq_of_tag_eq {r r' : Route} (htag : r.tag = r'.tag)
    (hpayload : r.payload = r'.payload) : r = r' := by
  cases r <;> cases r' <;>
    first
      -- The same kind, with the same pointer.
      | exact congrArg _ (Address.ext hpayload)
      | rfl
      -- A pointer is not null.
      | exact absurd hpayload (Address.ne_null _)
      | exact absurd hpayload.symm (Address.ne_null _)
      -- Other kinds have other tags.
      | exact absurd htag (by simp [Route.tag, tagIo, tagMulti, tagCoro, tagInbox])

namespace Issue

/-- Every user data is the pointer and the tag of its route. -/
theorem userData_eq (i : Issue) : i.userData = i.route.payload ||| i.route.tag := by
  cases i with
  | sendMsgRing | dispatchOn => decide
  | acceptMultishot a | recvMultishot a | acceptDirect a | recvDirect a | sendDirect a
  | closeDirect a | unlock a => rfl

/-- The tag that `poll` reads. -/
theorem and_tagMask (i : Issue) : i.userData &&& tagMask = i.route.tag := by
  rw [i.userData_eq]
  exact TaggedWord.or_and_mask i.route.payload_and_tagMask i.route.tag_and_tagMask

/-- The payload that `poll` reads. -/
theorem and_not_tagMask (i : Issue) : i.userData &&& ~~~tagMask = i.route.payload := by
  rw [i.userData_eq]
  exact TaggedWord.or_and_not_mask i.route.payload_and_tagMask i.route.tag_and_tagMask

/-- Two issues have the same user data if and only if they are for the same. -/
theorem userData_eq_iff (i j : Issue) : i.userData = j.userData ↔ i.route = j.route := by
  rw [i.userData_eq, j.userData_eq, TaggedWord.or_inj i.route.payload_and_tagMask
    i.route.tag_and_tagMask j.route.payload_and_tagMask j.route.tag_and_tagMask]
  constructor
  · rintro ⟨hpayload, htag⟩
    exact Route.eq_of_tag_eq htag hpayload
  · intro h
    rw [h]
    exact ⟨rfl, rfl⟩

/-- The branch that `poll` takes for an issue is that of its route. -/
theorem branch_eq {α : Type*} (i : Issue) (context multishot coroutine : BitVec 64 → α)
    (inbox nothing : α) :
    (if i.userData &&& tagMask = tagIo ∧ i.userData &&& ~~~tagMask ≠ 0 then
        context (i.userData &&& ~~~tagMask)
      else if i.userData &&& tagMask = tagMulti ∧ i.userData &&& ~~~tagMask ≠ 0 then
        multishot (i.userData &&& ~~~tagMask)
      else if i.userData &&& tagMask = tagCoro then coroutine (i.userData &&& ~~~tagMask)
      else if i.userData &&& tagMask = tagInbox then inbox
      else nothing) =
    match i.route with
    | .context ctx => context ctx.word
    | .multishot op => multishot op.word
    | .coroutine coro => coroutine coro.word
    | .inbox => inbox
    | .nothing => nothing := by
  rw [i.and_tagMask, i.and_not_tagMask]
  cases i.route with
  | context ctx => exact if_pos ⟨rfl, ctx.ne_null⟩
  | multishot op =>
    have hio : (Route.multishot op).tag ≠ tagIo := (by decide : tagMulti ≠ tagIo)
    rw [if_neg fun h => hio h.1]
    exact if_pos ⟨rfl, op.ne_null⟩
  | coroutine coro =>
    have hio : (Route.coroutine coro).tag ≠ tagIo := (by decide : tagCoro ≠ tagIo)
    have hmulti : (Route.coroutine coro).tag ≠ tagMulti := (by decide : tagCoro ≠ tagMulti)
    rw [if_neg fun h => hio h.1, if_neg fun h => hmulti h.1]
    exact if_pos rfl
  | inbox =>
    have hio : Route.inbox.tag ≠ tagIo := by decide
    have hmulti : Route.inbox.tag ≠ tagMulti := by decide
    have hcoro : Route.inbox.tag ≠ tagCoro := by decide
    rw [if_neg fun h => hio h.1, if_neg fun h => hmulti h.1, if_neg hcoro]
    exact if_pos rfl
  | nothing =>
    -- The tag is that of an operation, but there is no pointer.
    have hnull : Route.nothing.payload = 0 := rfl
    have hcoro : Route.nothing.tag ≠ tagCoro := by decide
    have hinbox : Route.nothing.tag ≠ tagInbox := by decide
    rw [if_neg fun h => h.2 hnull, if_neg fun h => h.2 hnull, if_neg hcoro, if_neg hinbox]

end Issue

end Novaio
