import Mathlib.Data.Set.Card
import Novaio.Lib.Tally
import Novaio.TimeWheel.Calls
import Novaio.TimeWheel.Recount
import Novaio.Worker.Steps

/-!
# The copies of a handle on a worker

A handle that is to be resumed is in the run queue of a scheduler, in the batch that its loop has
taken, in a task of the inbox, in a timer, in a message, or in the context of an operation that has
not completed. `Worker.copies` counts all of these. What a step does to the number is said by
`Regular.step`: the loop and the kernel move handles, and user code places them (`placed`) until the
loop takes them from its batch (`taken`).
-/

namespace Novaio

/-! ## What a scheduler holds -/

section Engine

variable {σ κ : Type*}

/-- The coroutine in a message. -/
def UserData.carried : UserData κ → Option κ
  | .coro k => some k
  | .io _ | .multi _ | .inbox => none

/-- The context of a direct operation. -/
def UserData.ctx : UserData κ → Option ℕ
  | .io ctx => ctx
  | .multi _ | .coro _ | .inbox => none

/-- The coroutine in a message that an entry sends. -/
def Sqe.carried : Sqe σ κ → Option κ
  | .msgRing _ data => data.carried
  | _ => none

/-- The context of an entry of a direct operation. -/
def Sqe.ctx (sqe : Sqe σ κ) : Option ℕ := sqe.userData.ctx

/-- The coroutine in a completion that is a message. -/
def Cqe.carried (cqe : Cqe κ) : Option κ := cqe.userData.carried

/-- The context in the completion of a direct operation. -/
def Cqe.ctx (cqe : Cqe κ) : Option ℕ := cqe.userData.ctx

/-- The context that a call allocates. -/
def IoCall.ctx : IoCall → Option ℕ
  | .acceptMultishot _ _ | .recvMultishot _ _ => none
  | .acceptDirect _ ctx | .recvDirect _ ctx | .sendDirect _ _ _ ctx | .closeDirect _ ctx => some ctx

namespace IoEngine

/-- The coroutines in the messages that are prepared, or arrived and not handled. -/
def coros (e : IoEngine σ κ) : List κ :=
  e.sqes.filterMap Sqe.carried ++ e.cqes.filterMap Cqe.carried

/-- The contexts of the operations that are prepared, or completed and not handled. -/
def ctxs (e : IoEngine σ κ) : List ℕ :=
  (e.sqes.filterMap Sqe.ctx) ++ e.cqes.filterMap Cqe.ctx

/-- `poll` schedules the coroutine when it handles the completion of the operation. -/
def Awaits (e : IoEngine σ κ) (k : κ) (ctx : ℕ) : Prop :=
  (e.contexts ctx).coro = some k ∧ (e.contexts ctx).cancelled = false

/-- Whether an operation is awaited can be computed. -/
instance [DecidableEq κ] (e : IoEngine σ κ) (k : κ) : DecidablePred (e.Awaits k) := fun _ =>
  inferInstanceAs (Decidable (_ ∧ _))

end IoEngine

/-- The handles of the batch that the loop has not resumed. -/
def LoopPc.remaining {κ : Type*} : LoopPc κ → List κ
  | .batch handles | .coroutine _ handles => handles
  | _ => []

/-- The number of linked timers with this handle. -/
noncomputable def TimeWheel.timers {ν η : Type*} (w : TimeWheel ν η) (h : η) : ℕ :=
  {n | w.IsLinked n ∧ (w.nodes n).handle = h}.ncard

end Engine

namespace Worker

variable {σ κ : Type*}

/-- The coroutine that `poll` schedules for a completion. -/
def resumed (w : Worker σ κ) (cqe : Cqe κ) : Option κ :=
  match cqe.userData with
  | .io (some ctx) =>
    if (w.engine.contexts ctx).cancelled then none else (w.engine.contexts ctx).coro
  | .coro k => some k
  | .io none | .multi _ | .inbox => none

/-- The handles that a step passes to `schedule`. -/
def scheduled (w : Worker σ κ) : WorkerOp κ → List κ
  | .tick fuel =>
    match w.pc with
    | .ticking t now =>
      if t ≤ now then
        match w.wheel.tick true fuel t with
        | some wheel => (wheel.fired.drop w.wheel.fired.length).map fun firing => firing.handle
        | none => []
      else []
    | _ => []
  | .pop =>
    match w.inbox.pop with
    | some (some task, _) => task.coro.toList
    | _ => []
  | .poll =>
    match w.engine.cqes with
    | cqe :: _ => (w.resumed cqe).toList
    | [] => []
  | .schedule k => [k]
  | _ => []

/-- The handles that a step of user code places. -/
def placed : WorkerOp κ → List κ
  | .schedule k | .sleepFor _ _ _ k | .await _ k => [k]
  | _ => []

/-- The handles that the loop takes from its batch, and resumes unless they are done. -/
def taken (w : Worker σ κ) : WorkerOp κ → List κ
  | .resume _ => w.pc.remaining.take 1
  | _ => []

/-- The number of copies of a handle that a worker holds, while the kernel has the operations of the
contexts `flight`. -/
noncomputable def copies [DecidableEq κ] (flight : List ℕ) (w : Worker σ κ) (k : κ) : ℕ :=
  w.queue.contents.count (some k) + w.pc.remaining.count k +
    (w.inbox.contents.filterMap UniqueTask.coro).count k + w.wheel.timers k +
    w.engine.coros.count k + (w.engine.ctxs ++ flight).countP (w.engine.Awaits k)

/-- What every worker in use has. -/
structure Regular (flight : List ℕ) (w : Worker σ κ) : Prop where
  wellFormed : w.queue.localQueue.WellFormed
  capacity : w.queue.localQueue.capacity = 65536
  inbox : w.inbox.Holds 0 w.inbox.contents
  wheel : ∃ lists pending, w.wheel.Wound lists pending
  nodup : (w.engine.ctxs ++ flight).Nodup
  messages : ∀ target data, .msgRing target data ∈ w.engine.sqes → data.ctx = none

/-- The ring has room for what the step schedules, and a new context is at an address that no
operation under way has. -/
structure Orderly (flight : List ℕ) (w : Worker σ κ) (op : WorkerOp κ) : Prop where
  room : w.queue.localQueue.size + (w.scheduled op).length ≤ w.queue.localQueue.capacity
  fresh : ∀ call ctx, op = .call call → call.ctx = some ctx → ctx ∉ w.engine.ctxs ++ flight

/-- The step loses no handle: the queue of a call is not full, a coroutine awaits an operation that
is under way, alone, and no operation is cancelled that a coroutine awaits. -/
def Lossless (flight : List ℕ) (w : Worker σ κ) : WorkerOp κ → Prop
  | .call _ => w.engine.sqes.length < w.engine.depth
  | .await ctx _ => ctx ∈ w.engine.ctxs ++ flight ∧ (w.engine.contexts ctx).coro = none ∧
      (w.engine.contexts ctx).cancelled = false
  | .cancel ctx => ctx ∉ w.engine.ctxs ++ flight ∨ (w.engine.contexts ctx).coro = none
  | _ => True

end Worker

/-! ## The parts -/

/-- Scheduling a handle with room adds it, and nothing else. -/
theorem RunQueue.count_schedule {η : Type*} [DecidableEq η] {q : RunQueue η}
    (hw : q.localQueue.WellFormed) {h : η} (hroom : q.localQueue.size < q.localQueue.capacity)
    (k : η) : (q.schedule (some h)).contents.count (some k) =
      q.contents.count (some k) + [h].count k := by
  have hone : [h].count k = [some h].count (some k) := by simp [List.count_singleton]
  rw [hone]
  unfold schedule contents
  cases q.runnext with
  | none =>
    simp only [Option.isNone_none, if_true, Option.map_some, Option.map_none, Option.toList_some,
      Option.toList_none, List.count_append, List.count_nil]
    omega
  | some g =>
    simp only [Option.isNone_some, Bool.false_eq_true, if_false, Option.map_some,
      Option.toList_some, List.count_append, LocalQueue.push_slots_of_hasRoom hw (.inl hroom)]
    omega

/-- Scheduling a handle takes at most one slot of the ring, and leaves its capacity. -/
theorem RunQueue.schedule_size_le {η : Type*} {q : RunQueue η} (hw : q.localQueue.WellFormed)
    {h : η} (hroom : q.localQueue.size < q.localQueue.capacity) :
    (q.schedule (some h)).localQueue.size ≤ q.localQueue.size + 1 ∧
      (q.schedule (some h)).localQueue.capacity = q.localQueue.capacity := by
  unfold schedule
  split_ifs
  · exact ⟨Nat.le_succ _, rfl⟩
  · have hslots := congrArg List.length (LocalQueue.push_slots_of_hasRoom hw (h := h) (.inl hroom))
    rw [List.length_append, LocalQueue.slots, LocalQueue.slots, Ring.length_window,
      Ring.length_window] at hslots
    exact ⟨hslots.le, rfl⟩

/-- A batch leaves the capacity of the ring. -/
theorem RunQueue.tryDequeueBatch_capacity {η : Type*} (q : RunQueue η) (n : ℕ) :
    (q.tryDequeueBatch n).2.localQueue.capacity = q.localQueue.capacity := by
  unfold tryDequeueBatch
  split <;> exact popBatch_capacity _ _

namespace TimeWheel

variable {ν η : Type*} [DecidableEq ν] {w w' : TimeWheel ν η} {lists : Slot → List ν}
  {pending : List ν} {n : ν}

omit [DecidableEq ν] in
/-- The linked timers with a handle are the pending ones. -/
theorem Wound.timers_eq [DecidableEq η] (h : Wound w lists pending) (k : η) :
    w.timers k = (pending.map fun n => (w.nodes n).handle).count k := by
  classical
  have hset : {n | w.IsLinked n ∧ (w.nodes n).handle = k} =
      (pending.filter fun n => (w.nodes n).handle = k).toFinset := by
    ext n
    simp [h.isLinked_iff]
  rw [timers, hset, Set.ncard_coe_finset, List.toFinset_card_of_nodup (h.nodup.filter _),
    List.count, List.countP_map, List.countP_eq_length_filter]
  rfl

/-- Arming a node that is not linked adds its handle. -/
theorem Wound.timers_arm [DecidableEq η] (h : Wound w lists pending)
    (hn : (w.nodes n).headPtr = none) (e : UInt64) (handle : η) :
    (∃ lists', Wound (w.arm n e handle) lists' (n :: pending)) ∧
      ∀ k, (w.arm n e handle).timers k = w.timers k + [handle].count k := by
  have hnot : n ∉ pending := by
    intro hp
    obtain ⟨s, hs⟩ := (h.mem_iff n).mp hp
    simp [h.rep.headPtr s n hs] at hn
  obtain ⟨lists', h'⟩ := h.arm hnot e handle
  refine ⟨⟨lists', h'⟩, fun k => ?_⟩
  have hrest : (pending.map fun m => ((w.arm n e handle).nodes m).handle) =
      pending.map fun m => (w.nodes m).handle := by
    apply List.map_congr_left
    intro m hm
    exact (arm_of_ne w e handle (ne_of_mem_of_not_mem hm hnot)).2
  rw [h'.timers_eq, h.timers_eq, List.map_cons, (arm_self w n e handle).2, hrest,
    ← List.singleton_append, List.count_append, Nat.add_comm]

/-- A call of `tick` takes the handles that it fires from the timers. -/
theorem Wound.timers_tick [DecidableEq η] (h : Wound w lists pending) {fuel : ℕ} {t : UInt64}
    (ht : w.tick true fuel t = some w') :
    (∃ lists' pending', Wound w' lists' pending') ∧
      ∀ k, w'.timers k + ((w'.fired.drop w.fired.length).map fun firing => firing.handle).count k =
        w.timers k := by
  obtain ⟨lists', due, pending', h', hticked⟩ := h.of_tick (wheelCall_of_tick ht)
  refine ⟨⟨lists', pending', h'⟩, fun k => ?_⟩
  have hfired : (w'.fired.drop w.fired.length).map (fun firing => firing.handle) =
      due.map fun n => (w.nodes n).handle := by
    rw [hticked.fired, List.drop_left, List.map_map]
    rfl
  have hrest : (pending'.map fun n => (w'.nodes n).handle) =
      pending'.map fun n => (w.nodes n).handle :=
    List.map_congr_left fun n _ => hticked.handle n
  rw [h'.timers_eq, h.timers_eq, hfired, hrest,
    (hticked.perm.map fun n => (w.nodes n).handle).count_eq, List.map_append, List.count_append,
    Nat.add_comm]

end TimeWheel

namespace IoEngine

variable {σ κ : Type*} {e e' : IoEngine σ κ}

/-- What a call does: it prepares an entry of its own ring, with a new context if it is a direct
operation. -/
theorem call_spec {call : IoCall} (h : e.call call = some e') :
    ∃ sqe, e' = { e with sqes := e.sqes ++ [sqe], contexts := e'.contexts } ∧
      sqe.carried = none ∧ (∀ target data, sqe ≠ .msgRing target data) ∧
      sqe.ctx = call.ctx ∧
      ∀ ctx, e'.contexts ctx = if call.ctx = some ctx then {} else e.contexts ctx := by
  have hprepare {sqe : Sqe σ κ} (h : e.prepare sqe = some e') :
      e' = { e with sqes := e.sqes ++ [sqe] } :=
    (Option.some.inj (Option.ite_none_right_eq_some.mp h).2).symm
  have hnew {sqe : Sqe σ κ} {ctx : ℕ}
      (h : (e.prepare sqe).map (fun e => e.newContext ctx) = some e') :
      e' = { e with sqes := e.sqes ++ [sqe], contexts := Function.update e.contexts ctx {} } := by
    obtain ⟨e₁, h₁, rfl⟩ := Option.map_eq_some_iff.mp h
    obtain rfl := Option.some.inj (Option.ite_none_right_eq_some.mp h₁).2
    rfl
  have hcontexts (ctx ctx' : ℕ) : Function.update e.contexts ctx {} ctx' =
      if some ctx = some ctx' then {} else e.contexts ctx' := by
    simp only [Function.update_apply, Option.some.injEq, eq_comm]
  cases call with
  | acceptMultishot fd op =>
    obtain rfl := hprepare h
    exact ⟨_, rfl, rfl, by simp, rfl, fun _ => rfl⟩
  | recvMultishot fd op =>
    obtain rfl := hprepare h
    exact ⟨_, rfl, rfl, by simp, rfl, fun _ => rfl⟩
  | acceptDirect fd ctx | recvDirect fd ctx | sendDirect fd buf len ctx | closeDirect fd ctx =>
    obtain rfl := hnew h
    exact ⟨_, rfl, rfl, by simp, rfl, hcontexts ctx⟩

/-- Who awaits an operation after a context is written. -/
theorem awaits_setContext (e : IoEngine σ κ) (ctx : ℕ) (f : IoContext κ → IoContext κ) (k : κ)
    (ctx' : ℕ) : (e.setContext ctx f).Awaits k ctx' ↔
      if ctx' = ctx then (f (e.contexts ctx)).coro = some k ∧ (f (e.contexts ctx)).cancelled = false
      else e.Awaits k ctx' := by
  unfold Awaits setContext
  rcases eq_or_ne ctx' ctx with rfl | hne
  · simp
  · simp [hne]

end IoEngine

namespace Worker

variable {σ κ : Type*} [DecidableEq κ] {w w' : Worker σ κ} {flight : List ℕ} {running : Bool}

/-- The loop is at another place. -/
theorem copies_goto (w : Worker σ κ) (pc : LoopPc κ) (flight : List ℕ) (k : κ) :
    (w.goto pc).copies flight k + w.pc.remaining.count k =
      w.copies flight k + pc.remaining.count k := by
  unfold copies goto
  dsimp only
  omega

/-- The loop is at another place, with the handles that it had. -/
theorem copies_goto_of_eq {pc : LoopPc κ} (h : pc.remaining = w.pc.remaining) (flight : List ℕ)
    (k : κ) : (w.goto pc).copies flight k = w.copies flight k := by
  have hgoto := w.copies_goto pc flight k
  rw [h] at hgoto
  omega

/-- Nothing changes that holds a handle. -/
theorem copies_congr (hqueue : w'.queue = w.queue) (hpc : w'.pc.remaining = w.pc.remaining)
    (hinbox : w'.inbox = w.inbox) (hwheel : w'.wheel = w.wheel)
    (hsqes : w'.engine.sqes = w.engine.sqes) (hcqes : w'.engine.cqes = w.engine.cqes)
    (hcontexts : w'.engine.contexts = w.engine.contexts) (k : κ) :
    w'.copies flight k = w.copies flight k := by
  have hawaits : ∀ ctx, w'.engine.Awaits k ctx ↔ w.engine.Awaits k ctx := fun ctx => by
    rw [IoEngine.Awaits, IoEngine.Awaits, hcontexts]
  have hcoros : w'.engine.coros = w.engine.coros := by
    rw [IoEngine.coros, IoEngine.coros, hsqes, hcqes]
  have hctxs : w'.engine.ctxs = w.engine.ctxs := by
    rw [IoEngine.ctxs, IoEngine.ctxs, hsqes, hcqes]
  have hcount : (w.engine.ctxs ++ flight).countP (w'.engine.Awaits k) =
      (w.engine.ctxs ++ flight).countP (w.engine.Awaits k) :=
    List.countP_congr fun ctx _ => by simpa using hawaits ctx
  rw [copies, copies, hqueue, hpc, hinbox, hwheel, hcoros, hctxs, hcount]

/-- A handle is scheduled, with room. -/
theorem Regular.schedule (h : Regular flight w) (handle : κ)
    (hroom : w.queue.localQueue.size < w.queue.localQueue.capacity) :
    Regular flight (w.schedule handle) ∧
      (∀ k, (w.schedule handle).copies flight k = w.copies flight k + [handle].count k) ∧
      (w.schedule handle).queue.localQueue.size ≤ w.queue.localQueue.size + 1 ∧
      (w.schedule handle).queue.localQueue.capacity = w.queue.localQueue.capacity := by
  have hsize := RunQueue.schedule_size_le h.wellFormed (h := handle) hroom
  refine ⟨{ h with
    wellFormed := RunQueue.schedule_wellFormed h.wellFormed handle
    capacity := hsize.2.trans h.capacity }, fun k => ?_, hsize⟩
  have hcount := RunQueue.count_schedule h.wellFormed (h := handle) hroom k
  unfold copies Worker.schedule
  dsimp only
  omega

/-- Several are. -/
theorem Regular.schedule_foldl {α : Type*} {f : α → κ} {l : List α} (h : Regular flight w)
    (hroom : w.queue.localQueue.size + l.length ≤ w.queue.localQueue.capacity) :
    Regular flight (l.foldl (fun w a => w.schedule (f a)) w) ∧
      ∀ k, (l.foldl (fun w a => w.schedule (f a)) w).copies flight k =
        w.copies flight k + (l.map f).count k := by
  induction l generalizing w with
  | nil => exact ⟨h, fun k => rfl⟩
  | cons a l ih =>
    rw [List.length_cons] at hroom
    obtain ⟨h₁, hcopies, hsize, hcapacity⟩ := h.schedule (f a) (by omega)
    obtain ⟨h₂, hrest⟩ := ih h₁ (by omega)
    refine ⟨h₂, fun k => ?_⟩
    rw [List.foldl_cons, hrest, hcopies, List.map_cons, List.count_cons (l := l.map f),
      List.count_singleton]
    omega

/-- A handle is scheduled, or none. -/
theorem Regular.schedule_toList (h : Regular flight w) (handle : Option κ)
    (hroom : w.queue.localQueue.size + handle.toList.length ≤ w.queue.localQueue.capacity) :
    Regular flight (handle.elim w w.schedule) ∧
      ∀ k, (handle.elim w w.schedule).copies flight k =
        w.copies flight k + handle.toList.count k := by
  cases handle with
  | none => exact ⟨h, fun k => rfl⟩
  | some handle =>
    rw [Option.toList_some, List.length_singleton] at hroom
    obtain ⟨h₁, hcopies, -, -⟩ := h.schedule handle (by omega)
    exact ⟨h₁, hcopies⟩

/-- The result of an operation is stored. -/
theorem Regular.setResult (h : Regular flight w) (ctx : ℕ) (result : IoResult) :
    let w' := { w with
      engine := w.engine.setContext ctx ({ · with res := result.res, flags := result.flags }) }
    Regular flight w' ∧ ∀ k, w'.copies flight k = w.copies flight k := by
  refine ⟨{ h with }, fun k => ?_⟩
  have hawaits : ∀ ctx', (w.engine.setContext ctx
      ({ · with res := result.res, flags := result.flags })).Awaits k ctx' ↔
        w.engine.Awaits k ctx' := by
    intro ctx'
    rw [IoEngine.awaits_setContext]
    split_ifs with heq
    · rw [heq]
      rfl
    · rfl
  have hcount : (w.engine.ctxs ++ flight).countP ((w.engine.setContext ctx
      ({ · with res := result.res, flags := result.flags })).Awaits k) =
        (w.engine.ctxs ++ flight).countP (w.engine.Awaits k) :=
    List.countP_congr fun ctx' _ => by simpa using hawaits ctx'
  exact congrArg _ hcount

/-- A completion is handled. -/
theorem Regular.handle (h : Regular flight w) (hpc : w.pc = .poll) {cqe : Cqe κ}
    (hroom : w.queue.localQueue.size + (w.resumed cqe).toList.length ≤
      w.queue.localQueue.capacity) :
    Regular flight (w.handle cqe) ∧
      ∀ k, (w.handle cqe).copies flight k =
        w.copies flight k + (w.resumed cqe).toList.count k := by
  unfold Worker.handle
  unfold resumed at hroom ⊢
  cases hdata : cqe.userData with
  | io ctx =>
    cases ctx with
    | none => exact ⟨h, fun k => rfl⟩
    | some ctx =>
      simp only [hdata] at hroom ⊢
      split_ifs at hroom ⊢ with hcancelled
      · exact ⟨h, fun k => rfl⟩
      · obtain ⟨h₁, hcopies₁⟩ := h.setResult ctx cqe.result
        obtain ⟨h₂, hcopies₂⟩ :=
          h₁.schedule_toList (w.engine.contexts ctx).coro hroom
        -- The coroutine of the context is as before.
        have hcoro : ((w.engine.setContext ctx ({ · with
            res := cqe.result.res, flags := cqe.result.flags })).contexts ctx).coro =
            (w.engine.contexts ctx).coro := by
          simp [IoEngine.setContext]
        rw [hcoro]
        cases hk : (w.engine.contexts ctx).coro with
        | none => exact ⟨h₁, hcopies₁⟩
        | some k =>
          rw [hk] at h₂ hcopies₂
          exact ⟨h₂, fun k' => by rw [← hcopies₁]; exact hcopies₂ k'⟩
  | multi op =>
    cases op with
    | none => exact ⟨h, fun k => rfl⟩
    | some op => exact ⟨{ h with }, fun k => copies_goto_of_eq (by rw [hpc]; rfl) flight k⟩
  | coro k =>
    simp only [hdata] at hroom ⊢
    exact h.schedule_toList (some k) hroom
  | inbox => exact ⟨{ h with }, fun k => copies_goto_of_eq (by rw [hpc]; rfl) flight k⟩

/-- A task of the inbox is invoked. -/
theorem Regular.invoke (h : Regular flight w) {polled : Bool} (hpc : w.pc = .inbox polled)
    {task : UniqueTask (Closure κ Unit)}
    (hroom : w.queue.localQueue.size + task.coro.toList.length ≤ w.queue.localQueue.capacity) :
    Regular flight (w.invoke polled task) ∧
      ∀ k, (w.invoke polled task).copies flight k =
        w.copies flight k + task.coro.toList.count k := by
  unfold Worker.invoke
  unfold UniqueTask.coro at hroom ⊢
  cases hcallable : task.callable with
  | none => exact ⟨h, fun k => rfl⟩
  | some closure =>
    cases closure with
    | schedule k =>
      simp only [hcallable] at hroom
      exact h.schedule_toList (some k) hroom
    | other u => exact ⟨{ h with }, fun k => copies_goto_of_eq (by rw [hpc]; rfl) flight k⟩

/-- A completion is taken from the queue: its message, or its operation. -/
theorem Regular.takeCqe (h : Regular flight w) {cqe : Cqe κ} {cqes : List (Cqe κ)}
    (hcqes : w.engine.cqes = cqe :: cqes) :
    let w' := { w with engine := { w.engine with cqes := cqes } }
    Regular flight w' ∧ ∀ k, w'.copies flight k + (w'.resumed cqe).toList.count k =
      w.copies flight k := by
  intro w'
  -- The context of the completion leaves the list.
  have hperm : (w.engine.ctxs ++ flight).Perm
      (cqe.ctx.toList ++ (w'.engine.ctxs ++ flight)) := by
    have hctxs : w.engine.ctxs = w.engine.sqes.filterMap Sqe.ctx ++
        (cqe.ctx.toList ++ cqes.filterMap Cqe.ctx) := by
      rw [IoEngine.ctxs, hcqes, List.filterMap_cons]
      cases cqe.ctx <;> rfl
    rw [hctxs]
    calc List.Perm _ (cqe.ctx.toList ++ w'.engine.ctxs ++ flight) :=
          (List.perm_append_comm_assoc _ _ _).append_right flight
      _ = _ := List.append_assoc _ _ _
  refine ⟨{ h with nodup := (List.nodup_append.mp (hperm.nodup_iff.mp h.nodup)).2.1 }, fun k => ?_⟩
  have hcoros : w.engine.coros.count k =
      cqe.carried.toList.count k + w'.engine.coros.count k := by
    rw [IoEngine.coros, IoEngine.coros, hcqes, List.filterMap_cons]
    cases cqe.carried with
    | none => simp [w']
    | some k' =>
      simp only [w', List.count_append, List.count_cons, Option.toList_some, List.count_nil]
      omega
  have hcount : (w.engine.ctxs ++ flight).countP (w.engine.Awaits k) =
      cqe.ctx.toList.countP (w.engine.Awaits k) +
        (w'.engine.ctxs ++ flight).countP (w'.engine.Awaits k) := by
    rw [hperm.countP_eq, List.countP_append]
    rfl
  have hresumed : (w'.resumed cqe).toList.count k =
      cqe.carried.toList.count k + cqe.ctx.toList.countP (w.engine.Awaits k) := by
    unfold resumed Cqe.carried Cqe.ctx
    cases hdata : cqe.userData with
    | io ctx =>
      cases ctx with
      | none => rfl
      | some ctx =>
        simp only [UserData.carried, UserData.ctx, Option.toList_none, List.count_nil,
          Nat.zero_add, Option.toList_some, List.countP_singleton, IoEngine.Awaits]
        show (if (w.engine.contexts ctx).cancelled = true then none
          else (w.engine.contexts ctx).coro).toList.count k = _
        by_cases hcancelled : (w.engine.contexts ctx).cancelled = true
        · simp [hcancelled]
        · obtain hcoro | ⟨k', hcoro⟩ := Option.eq_none_or_eq_some (w.engine.contexts ctx).coro
          · simp [hcancelled, hcoro]
          · simp [hcancelled, hcoro, List.count_singleton]
    | _ => rfl
  have hrest : w'.copies flight k = w.queue.contents.count (some k) + w.pc.remaining.count k +
      (w.inbox.contents.filterMap UniqueTask.coro).count k + w.wheel.timers k +
      w'.engine.coros.count k + (w'.engine.ctxs ++ flight).countP (w'.engine.Awaits k) := rfl
  rw [hrest, copies]
  omega

/-! ## A step -/

/-- A context is written: its operation may be awaited by another coroutine than before. -/
theorem Regular.setContext (h : Regular flight w) (ctx : ℕ) (f : IoContext κ → IoContext κ) :
    let w' := { w with engine := w.engine.setContext ctx f }
    Regular flight w' ∧ ∀ k, w'.copies flight k +
        (if ctx ∈ w.engine.ctxs ++ flight ∧ w.engine.Awaits k ctx then 1 else 0) =
      w.copies flight k +
        if ctx ∈ w.engine.ctxs ++ flight ∧ w'.engine.Awaits k ctx then 1 else 0 := by
  intro w'
  refine ⟨{ h with }, fun k => ?_⟩
  have hother : ∀ ctx', ctx' ≠ ctx → (w'.engine.Awaits k ctx' ↔ w.engine.Awaits k ctx') := by
    intro ctx' hne
    rw [IoEngine.awaits_setContext, if_neg hne]
  have hcount := Tally.countP_of_iff_off h.nodup hother
  have hrest : w'.copies flight k = w.queue.contents.count (some k) + w.pc.remaining.count k +
      (w.inbox.contents.filterMap UniqueTask.coro).count k + w.wheel.timers k +
      w.engine.coros.count k + (w.engine.ctxs ++ flight).countP (w'.engine.Awaits k) := rfl
  rw [hrest, copies]
  omega

/-- An operation is prepared, with a new context if it is a direct one. -/
theorem Regular.call (h : Regular flight w) {call : IoCall} {engine : IoEngine σ κ}
    (hcall : w.engine.call call = some engine)
    (hfresh : ∀ ctx, call.ctx = some ctx → ctx ∉ w.engine.ctxs ++ flight) :
    Regular flight { w with engine := engine } ∧
      ∀ k, copies flight { w with engine := engine } k = w.copies flight k := by
  obtain ⟨sqe, hengine, hcarried, hsqe, hctx, hcontexts⟩ := IoEngine.call_spec hcall
  have hsqes : engine.sqes = w.engine.sqes ++ [sqe] := by rw [hengine]
  have hcqes : engine.cqes = w.engine.cqes := by rw [hengine]
  have hcoros : engine.coros = w.engine.coros := by
    simp [IoEngine.coros, hsqes, hcqes, hcarried]
  have hperm : (engine.ctxs ++ flight).Perm (call.ctx.toList ++ (w.engine.ctxs ++ flight)) := by
    have hctxs : engine.ctxs = w.engine.sqes.filterMap Sqe.ctx ++
        (call.ctx.toList ++ w.engine.cqes.filterMap Cqe.ctx) := by
      rw [IoEngine.ctxs, hsqes, hcqes, List.filterMap_append, ← hctx, List.append_assoc]
      cases hc : sqe.ctx <;> simp [hc]
    rw [hctxs]
    calc List.Perm _ (call.ctx.toList ++ w.engine.ctxs ++ flight) :=
          (List.perm_append_comm_assoc _ _ _).append_right flight
      _ = _ := List.append_assoc _ _ _
  -- The new context is not one of those that are there.
  have hnew : ∀ ctx ∈ w.engine.ctxs ++ flight, call.ctx ≠ some ctx := fun ctx hmem hc =>
    hfresh ctx hc hmem
  refine ⟨{ h with nodup := ?_, messages := fun target data hmem => ?_ }, fun k => ?_⟩
  · rw [hperm.nodup_iff]
    cases hc : call.ctx with
    | none => exact h.nodup
    | some ctx => exact List.nodup_cons.mpr ⟨hfresh ctx hc, h.nodup⟩
  · rw [hsqes] at hmem
    rcases List.mem_append.mp hmem with hmem | hmem
    · exact h.messages target data hmem
    · exact (hsqe _ _ (List.mem_singleton.mp hmem).symm).elim
  · have hcount : (engine.ctxs ++ flight).countP (engine.Awaits k) =
        (w.engine.ctxs ++ flight).countP (w.engine.Awaits k) := by
      have hold : (w.engine.ctxs ++ flight).countP (engine.Awaits k) =
          (w.engine.ctxs ++ flight).countP (w.engine.Awaits k) := by
        refine List.countP_congr fun ctx hmem => ?_
        have hsame : engine.Awaits k ctx ↔ w.engine.Awaits k ctx := by
          simp only [IoEngine.Awaits, hcontexts, if_neg (hnew ctx hmem)]
        simpa using hsame
      have hnone : call.ctx.toList.countP (engine.Awaits k) = 0 := by
        rw [List.countP_eq_zero]
        intro ctx hmem
        simp [IoEngine.Awaits, hcontexts, Option.mem_toList.mp hmem]
      rw [hperm.countP_eq, List.countP_append, hold, hnone, Nat.zero_add]
    unfold copies
    dsimp only
    rw [hcoros, hcount]

/-- A call of `tick`: the handles that fire are scheduled. -/
theorem Regular.fire (h : Regular flight w) {fuel : ℕ} {t : UInt64} {wheel : TimeWheel ℕ κ}
    (hwheel : w.wheel.tick true fuel t = some wheel)
    (hroom : w.queue.localQueue.size + (wheel.fired.drop w.wheel.fired.length).length ≤
      w.queue.localQueue.capacity) :
    Regular flight (w.fire wheel) ∧ ∀ k, (w.fire wheel).copies flight k = w.copies flight k := by
  obtain ⟨lists, pending, hwound⟩ := h.wheel
  obtain ⟨hwound', htimers⟩ := hwound.timers_tick hwheel
  have hticked : Regular flight { w with wheel := wheel } := { h with wheel := hwound' }
  obtain ⟨hfired, hcopies⟩ := hticked.schedule_foldl (f := fun firing => firing.handle) hroom
  refine ⟨hfired, fun k => ?_⟩
  have hk := htimers k
  rw [Worker.fire, hcopies k]
  unfold copies
  dsimp only
  omega

/-- A batch is taken from the run queue. -/
theorem Regular.dequeue (h : Regular flight w) (hpc : w.pc.remaining = []) (pc : LoopPc κ)
    (hbatch : pc.remaining = (w.queue.tryDequeueBatch 16).1) :
    let w' := { w with queue := (w.queue.tryDequeueBatch 16).2, pc := pc }
    Regular flight w' ∧ ∀ k, w'.copies flight k = w.copies flight k := by
  obtain ⟨hcontents, hwellFormed, -⟩ :=
    RunQueue.tryDequeueBatch_spec 16 (by decide) h.wellFormed
  refine ⟨{ h with
    wellFormed := hwellFormed
    capacity := (RunQueue.tryDequeueBatch_capacity _ _).trans h.capacity }, fun k => ?_⟩
  have hcount : w.queue.contents.count (some k) = pc.remaining.count k +
      (w.queue.tryDequeueBatch 16).2.contents.count (some k) := by
    rw [hcontents, List.count_append, hbatch,
      List.count_map_of_injective _ _ (Option.some_injective κ)]
  unfold copies
  rw [hpc, hcount]
  dsimp only
  simp only [List.count_nil]
  omega

/-- A task is taken from the inbox. -/
theorem Regular.takeTask (h : Regular flight w) {task : UniqueTask (Closure κ Unit)}
    {inbox : SpscQueue (UniqueTask (Closure κ Unit))}
    (hpop : w.inbox.pop = some (some task, inbox)) :
    Regular flight { w with inbox := inbox } ∧
      ∀ k, copies flight { w with inbox := inbox } k + task.coro.toList.count k =
        w.copies flight k := by
  have hinbox := h.inbox
  cases hcontents : w.inbox.contents with
  | nil =>
    rw [hcontents] at hinbox
    simp [hinbox.pop_nil] at hpop
  | cons task' rest =>
    rw [hcontents] at hinbox
    obtain ⟨inbox', hpop', -, hrest⟩ := hinbox.pop_cons
    rw [hpop'] at hpop
    simp only [Option.some.injEq, Prod.mk.injEq] at hpop
    obtain ⟨rfl, rfl⟩ := hpop
    have hrest' := hrest.contents_eq
    refine ⟨{ h with inbox := by rwa [hrest'] }, fun k => ?_⟩
    have hcount : (w.inbox.contents.filterMap UniqueTask.coro).count k =
        task'.coro.toList.count k + (inbox'.contents.filterMap UniqueTask.coro).count k := by
      rw [hcontents, hrest', List.filterMap_cons]
      cases task'.coro with
      | none => simp
      | some k' =>
        simp only [List.count_cons, Option.toList_some, List.count_nil]
        omega
    unfold copies
    rw [hcount]
    dsimp only
    omega

/-- Entries are prepared, and others are submitted to the kernel. -/
theorem Regular.setSqes (h : Regular flight w) {sqes : List (Sqe σ κ)}
    (submitted : List (Sqe σ κ))
    (hw' : w' = { w with engine := { w.engine with sqes := sqes } })
    (hsqes : (sqes.filterMap Sqe.ctx ++ submitted.filterMap Sqe.ctx).Perm
      (w.engine.sqes.filterMap Sqe.ctx))
    (hmessages : ∀ target data, .msgRing target data ∈ sqes → data.ctx = none) :
    Regular (flight ++ submitted.filterMap Sqe.ctx) w' ∧ ∀ k,
      w'.copies (flight ++ submitted.filterMap Sqe.ctx) k +
          (w.engine.sqes.filterMap Sqe.carried).count k =
        w.copies flight k + (sqes.filterMap Sqe.carried).count k := by
  subst hw'
  set w' : Worker σ κ := { w with engine := { w.engine with sqes := sqes } } with hw'
  set flight' := flight ++ submitted.filterMap Sqe.ctx with hflight'
  have hctxs : (w'.engine.ctxs ++ flight').Perm (w.engine.ctxs ++ flight) := by
    rw [List.perm_iff_count]
    intro ctx
    have hcount := hsqes.count_eq ctx
    simp only [IoEngine.ctxs, hw', hflight', List.count_append] at hcount ⊢
    omega
  refine ⟨{ h with nodup := hctxs.nodup_iff.mpr h.nodup, messages := hmessages }, fun k => ?_⟩
  have hcount : (w'.engine.ctxs ++ flight').countP (w'.engine.Awaits k) =
      (w.engine.ctxs ++ flight).countP (w.engine.Awaits k) := hctxs.countP_eq _
  have hcoros : w'.engine.coros.count k + (w.engine.sqes.filterMap Sqe.carried).count k =
      w.engine.coros.count k + (sqes.filterMap Sqe.carried).count k := by
    simp only [IoEngine.coros, hw', List.count_append]
    omega
  have hrest : w'.copies flight' k = w.queue.contents.count (some k) + w.pc.remaining.count k +
      (w.inbox.contents.filterMap UniqueTask.coro).count k + w.wheel.timers k +
      w'.engine.coros.count k + (w'.engine.ctxs ++ flight').countP (w'.engine.Awaits k) := rfl
  rw [hrest, copies]
  omega

/-- Completions are posted. -/
theorem Regular.posted (h : Regular flight w) {posted : List (Cqe κ)}
    (hposted : Workers.Posted w w' posted) (flight' : List ℕ)
    (hperm : (posted.filterMap Cqe.ctx ++ flight').Perm flight) :
    Regular flight' w' ∧ ∀ k, w'.copies flight' k =
      w.copies flight k + (posted.filterMap Cqe.carried).count k := by
  have hengine := hposted.engine
  have hctxs : (w'.engine.ctxs ++ flight').Perm (w.engine.ctxs ++ flight) := by
    rw [hengine, IoEngine.ctxs, IoEngine.ctxs, List.filterMap_append, List.append_assoc,
      List.append_assoc, List.append_assoc]
    exact (hperm.append_left _).append_left _
  refine ⟨?_, fun k => ?_⟩
  · exact {
      wellFormed := hposted.queue ▸ h.wellFormed
      capacity := hposted.queue ▸ h.capacity
      inbox := hposted.inbox ▸ h.inbox
      wheel := hposted.wheel ▸ h.wheel
      nodup := hctxs.nodup_iff.mpr h.nodup
      messages := by
        rw [hengine]
        exact h.messages }
  · have hawaits : ∀ ctx, w'.engine.Awaits k ctx ↔ w.engine.Awaits k ctx := fun ctx => by
      rw [hengine, IoEngine.Awaits, IoEngine.Awaits]
    have hcount : (w'.engine.ctxs ++ flight').countP (w'.engine.Awaits k) =
        (w.engine.ctxs ++ flight).countP (w.engine.Awaits k) := by
      rw [hctxs.countP_eq]
      exact List.countP_congr fun ctx _ => by simpa using hawaits ctx
    have hcoros : w'.engine.coros.count k =
        w.engine.coros.count k + (posted.filterMap Cqe.carried).count k := by
      rw [hengine, IoEngine.coros, IoEngine.coros, List.filterMap_append, List.count_append,
        List.count_append, List.count_append, Nat.add_assoc]
    rw [copies, copies, hposted.queue, hposted.pc, hposted.inbox, hposted.wheel, hcount, hcoros]
    omega

/-- A task is pushed to the inbox. -/
theorem Regular.push (h : Regular flight w) {task : UniqueTask (Closure κ Unit)}
    {inbox : SpscQueue (UniqueTask (Closure κ Unit))} (hpush : w.inbox.push task = (true, inbox)) :
    Regular flight { w with inbox := inbox } ∧
      ∀ k, copies flight { w with inbox := inbox } k =
        w.copies flight k + task.coro.toList.count k := by
  obtain ⟨hroom, -, hholds⟩ := h.inbox.push task
  rw [hpush] at hroom hholds
  rw [if_pos (of_decide_eq_true hroom.symm)] at hholds
  have hcontents := hholds.contents_eq
  refine ⟨{ h with inbox := by rwa [hcontents] }, fun k => ?_⟩
  have hcount : (inbox.contents.filterMap UniqueTask.coro).count k =
      (w.inbox.contents.filterMap UniqueTask.coro).count k + task.coro.toList.count k := by
    rw [hcontents, List.filterMap_append, List.count_append]
    cases hcoro : task.coro <;> simp [hcoro]
  unfold copies
  dsimp only
  omega

variable {op : WorkerOp κ}

/-- What a step does to the copies of every handle: no step makes one, and a lossless one loses
none. -/
structure Conserves (flight : List ℕ) (w : Worker σ κ) (op : WorkerOp κ) (w' : Worker σ κ) :
    Prop where
  regular : Regular flight w'
  le : ∀ k, w'.copies flight k + (w.taken op).count k ≤ w.copies flight k + (placed op).count k
  eq : Lossless flight w op → ∀ k,
    w'.copies flight k + (w.taken op).count k = w.copies flight k + (placed op).count k

/-- A step after which the copies are those taken and those placed. -/
theorem conserves_of_eq (hregular : Regular flight w')
    (h : ∀ k, w'.copies flight k + (w.taken op).count k =
      w.copies flight k + (placed op).count k) : Conserves flight w op w' :=
  ⟨hregular, fun k => (h k).le, fun _ => h⟩

/-- A step that places and takes nothing, and leaves the copies. -/
theorem conserves_of_copies (hregular : Regular flight w') (htaken : w.taken op = [])
    (hplaced : placed op = []) (h : ∀ k, w'.copies flight k = w.copies flight k) :
    Conserves flight w op w' :=
  conserves_of_eq hregular fun k => by rw [htaken, hplaced, h k]

/-- A coroutine awaits an operation. -/
theorem Regular.await (h : Regular flight w) (ctx : ℕ) (handle : κ) :
    Conserves flight w (.await ctx handle)
      { w with engine := w.engine.setContext ctx ({ · with coro := some handle }) } := by
  obtain ⟨hregular, hcopies⟩ := h.setContext ctx ({ · with coro := some handle })
  have hplaced (k : κ) : (placed (.await ctx handle)).count k = if handle = k then 1 else 0 := by
    simp [placed, List.count_singleton]
  simp only [IoEngine.awaits_setContext, if_true, Option.some.injEq] at hcopies
  refine ⟨hregular, fun k => ?_, fun ⟨hmem, hcoro, hcancelled⟩ k => ?_⟩
  · have hk := hcopies k
    simp only [hplaced, taken, List.count_nil, Nat.add_zero]
    by_cases hhandle : handle = k
    · rw [if_pos hhandle]
      split_ifs at hk <;> omega
    · simp only [hhandle, false_and, and_false, if_false] at hk ⊢
      omega
  · have hk := hcopies k
    simp only [hplaced, taken, List.count_nil, Nat.add_zero]
    simpa [hmem, hcoro, hcancelled, IoEngine.Awaits] using hk

/-- An operation is cancelled. -/
theorem Regular.cancel (h : Regular flight w) (ctx : ℕ) :
    Conserves flight w (.cancel ctx)
      { w with engine := w.engine.setContext ctx ({ · with cancelled := true }) } := by
  obtain ⟨hregular, hcopies⟩ := h.setContext ctx ({ · with cancelled := true })
  simp only [IoEngine.awaits_setContext, if_true, Bool.true_eq_false, and_false, if_false]
    at hcopies
  refine ⟨hregular, fun k => ?_, fun hlossless k => ?_⟩
  · have hk := hcopies k
    simp only [taken, placed, List.count_nil, Nat.add_zero]
    omega
  · have hk := hcopies k
    have hnot : ¬ (ctx ∈ w.engine.ctxs ++ flight ∧ w.engine.Awaits k ctx) := by
      rintro ⟨hmem, hcoro, -⟩
      rcases hlossless with hnot | hnone
      · exact hnot hmem
      · simp [hnone] at hcoro
    rw [if_neg hnot] at hk
    simpa only [taken, placed, List.count_nil, Nat.add_zero] using hk

/-- The step lemma of one worker. -/
theorem Regular.step (h : Regular flight w) (horderly : Orderly flight w op)
    (hstep : StepCase running w op w') : Conserves flight w op w' := by
  have hroom := horderly.room
  cases hstep with
  | @tick fuel t now wheel hpc ht hwheel =>
    have hfires : w.scheduled (.tick fuel) =
        (wheel.fired.drop w.wheel.fired.length).map fun firing => firing.handle := by
      simp [scheduled, hpc, ht, hwheel]
    rw [hfires, List.length_map] at hroom
    obtain ⟨hfired, hcopies⟩ := h.fire hwheel hroom
    refine conserves_of_copies { hfired with } rfl rfl fun k => ?_
    rw [copies_goto_of_eq (by rw [fire_pc, hpc]; rfl), hcopies]
  | popTask polled task inbox hpc hpop =>
    have hscheduled : w.scheduled .pop = task.coro.toList := by simp [scheduled, hpop]
    rw [hscheduled] at hroom
    obtain ⟨htaken, hcopies⟩ := h.takeTask hpop
    obtain ⟨hinvoked, hcopies'⟩ := htaken.invoke hpc hroom
    exact conserves_of_copies hinvoked rfl rfl fun k => (hcopies' k).trans (hcopies k)
  | dequeueNone hpc hnone =>
    obtain ⟨hregular, hcopies⟩ := h.dequeue (by rw [hpc]; rfl) .submit hnone.symm
    exact conserves_of_copies hregular rfl rfl hcopies
  | @dequeue handles hpc hhandles =>
    obtain ⟨hregular, hcopies⟩ := h.dequeue (by rw [hpc]; rfl) (.batch handles) hhandles.symm
    exact conserves_of_copies hregular rfl rfl hcopies
  | @skip handle handles hpc =>
    refine conserves_of_eq { h with } fun k => ?_
    have hcopies := w.copies_goto (.batch handles) flight k
    simp only [hpc, LoopPc.remaining, List.count_cons] at hcopies
    simp only [taken, hpc, LoopPc.remaining, List.take_succ_cons, List.take_zero,
      List.count_singleton, placed, List.count_nil]
    omega
  | @resume handle handles hpc =>
    refine conserves_of_eq { h with } fun k => ?_
    have hcopies := w.copies_goto (.coroutine handle handles) flight k
    simp only [hpc, LoopPc.remaining, List.count_cons] at hcopies
    simp only [taken, hpc, LoopPc.remaining, List.take_succ_cons, List.take_zero,
      List.count_singleton, placed, List.count_nil]
    omega
  | endBatch hpc =>
    refine conserves_of_copies { h with } (by simp [taken, hpc, LoopPc.remaining]) rfl fun k => ?_
    exact copies_goto_of_eq (by rw [hpc]; rfl) flight k
  | poll cqe cqes hpc hcqes =>
    obtain ⟨htaken, hcopies⟩ := h.takeCqe hcqes
    have hscheduled : w.scheduled .poll = (w.resumed cqe).toList := by simp [scheduled, hcqes]
    rw [hscheduled] at hroom
    obtain ⟨hhandled, hcopies'⟩ := htaken.handle hpc hroom
    exact conserves_of_copies hhandled rfl rfl fun k => (hcopies' k).trans (hcopies k)
  | @schedule handle huser =>
    have hone : w.queue.localQueue.size < w.queue.localQueue.capacity := hroom
    obtain ⟨hregular, hcopies, -, -⟩ := h.schedule handle hone
    exact conserves_of_eq hregular hcopies
  | @sleepFor node ms now handle huser hnode =>
    obtain ⟨lists, pending, hwound⟩ := h.wheel
    obtain ⟨⟨lists', hwound'⟩, htimers⟩ := hwound.timers_arm hnode (now + ms) handle
    refine conserves_of_eq { h with wheel := ⟨lists', _, hwound'⟩ } fun k => ?_
    have hk := htimers k
    simp only [taken, placed, List.count_nil, Nat.add_zero]
    unfold copies
    dsimp only
    omega
  | @call call engine huser hcall =>
    obtain ⟨hregular, hcopies⟩ := h.call hcall fun ctx => horderly.fresh call ctx rfl
    exact conserves_of_copies hregular rfl rfl hcopies
  | @callNull call huser hcall =>
    refine ⟨{ h with }, fun k => ?_, fun hlossless => ?_⟩
    · have hcopies := w.copies_goto .crashed flight k
      simp only [LoopPc.remaining, List.count_nil] at hcopies
      simp only [taken, placed, List.count_nil]
      omega
    · have hfull := (IoEngine.call_eq_none_iff w.engine call).mp hcall
      exact absurd hlossless (Nat.not_lt.mpr hfull)
  | await huser => exact h.await _ _
  | cancel huser => exact h.cancel _
  | popNone hpc hpop =>
    exact conserves_of_copies { h with } rfl rfl fun k =>
      copies_goto_of_eq (by rw [hpc]; split_ifs <;> rfl) flight k
  | init hpc hdepth =>
    refine conserves_of_copies { h with } rfl rfl fun k => ?_
    refine copies_congr ?_ ?_ ?_ ?_ ?_ ?_ ?_ k
    case refine_2 =>
      rw [hpc]
      rfl
    all_goals rfl
  | endTicks hpc =>
    refine conserves_of_copies { h with } rfl rfl fun k => ?_
    refine copies_congr ?_ ?_ ?_ ?_ ?_ ?_ ?_ k
    case refine_2 =>
      rw [hpc]
      rfl
    all_goals rfl
  | _ hpc =>
    refine conserves_of_copies { h with } rfl rfl fun k => ?_
    refine copies_goto_of_eq ?_ flight k
    rw [hpc]
    rfl

omit [DecidableEq κ] in
/-- A run queue holds no null handle. -/
theorem Regular.isSome_of_mem (h : w.Regular flight) {x : Option κ} (hx : x ∈ w.queue.contents) :
    x.isSome := by
  rcases List.mem_append.mp hx with hx | hx
  · cases hrun : w.queue.runnext <;> simp_all
  · exact h.wellFormed.filled x hx

/-- What the loop schedules in a step is among the copies that the worker holds, besides its run
queue. -/
theorem Regular.scheduled_le (h : Regular flight w) (hop : placed op = []) (k : κ) :
    w.queue.contents.count (some k) + (w.scheduled op).count k ≤ w.copies flight k := by
  have hcontents : w.queue.contents.count (some k) ≤ w.copies flight k := by
    unfold copies
    omega
  cases op with
  | schedule => simp [placed] at hop
  | tick fuel =>
    simp only [scheduled]
    split
    · split_ifs
      · split
        · rename_i wheel hwheel
          obtain ⟨lists, pending, hwound⟩ := h.wheel
          have hk := (hwound.timers_tick hwheel).2 k
          unfold copies
          omega
        · simpa using hcontents
      · simpa using hcontents
    · simpa using hcontents
  | pop =>
    simp only [scheduled]
    split
    · rename_i task inbox hpop
      obtain ⟨-, hcopies⟩ := h.takeTask hpop
      rw [← hcopies k]
      unfold copies
      dsimp only
      omega
    · simpa using hcontents
  | poll =>
    simp only [scheduled]
    split
    · rename_i cqe cqes hcqes
      obtain ⟨-, hcopies⟩ := h.takeCqe hcqes
      have hresumed : (w.resumed cqe).toList.count k +
          copies flight { w with engine := { w.engine with cqes := cqes } } k =
            w.copies flight k := (Nat.add_comm _ _).trans (hcopies k)
      have hle : w.queue.contents.count (some k) ≤
          copies flight { w with engine := { w.engine with cqes := cqes } } k := by
        unfold copies
        dsimp only
        omega
      omega
    · simpa using hcontents
  | _ => simpa [scheduled] using hcontents

/-- A new worker holds no handle. -/
theorem new_regular (buffer : ℕ → Option κ) (expiresAt : ℕ → UInt64) (handle : ℕ → κ) :
    Regular [] (new buffer expiresAt handle : Worker σ κ) ∧
      ∀ k, (new buffer expiresAt handle : Worker σ κ).copies [] k = 0 := by
  obtain ⟨hwellFormed, hcontents⟩ := RunQueue.new_wellFormed buffer
  have hinbox : (SpscQueue.new : SpscQueue (UniqueTask (Closure κ Unit))).contents = [] :=
    SpscQueue.new_holds.contents_eq
  have hwound := TimeWheel.empty_wound expiresAt handle
  have hempty : (new buffer expiresAt handle : Worker σ κ).inbox.contents = [] := hinbox
  refine ⟨?_, fun k => ?_⟩
  · exact {
      wellFormed := hwellFormed
      capacity := rfl
      inbox := by
        rw [hempty]
        exact SpscQueue.new_holds
      wheel := ⟨_, _, hwound⟩
      nodup := List.nodup_nil
      messages := by simp [new, IoEngine.new] }
  · have hqueue : (new buffer expiresAt handle : Worker σ κ).queue.contents = [] := hcontents
    have htimers : (new buffer expiresAt handle : Worker σ κ).wheel.timers k = 0 := by
      have htimers := hwound.timers_eq k
      exact htimers
    rw [copies, hqueue, hempty, htimers]
    simp [new, IoEngine.new, IoEngine.coros, IoEngine.ctxs, LoopPc.remaining]

end Worker

end Novaio
