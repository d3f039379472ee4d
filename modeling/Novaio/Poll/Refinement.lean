import Novaio.Poll.Routing
import Novaio.Worker.Basic

/-!
# The worker and its completion queue

The engine of a worker keeps its completions as a list, each with the tag and the payload of its
user data. The completion queue with the loop of `poll` refines it: the list is what is pending,
read through `unpack`, and every step of `poll` is a step of the worker, or none where the head is
stored (`Simulates.path`). The entries that the functions of the engine prepare carry the user data
of their issues (`userData_of_call`).
-/

namespace Novaio

open Transition

/-! ## User data -/

/-- The tag and the payload of a word, as `poll` reads them. -/
def unpack (ud : BitVec 64) : UserData (BitVec 64) :=
  if ud &&& tagMask = tagIo ∧ ud &&& ~~~tagMask ≠ 0 then .io (some (ud &&& ~~~tagMask).toNat)
  else if ud &&& tagMask = tagMulti ∧ ud &&& ~~~tagMask ≠ 0 then
    .multi (some (ud &&& ~~~tagMask).toNat)
  else if ud &&& tagMask = tagCoro then .coro (ud &&& ~~~tagMask)
  else if ud &&& tagMask = tagInbox then .inbox
  else .io none

/-- The user data of a route, as the engine has it. -/
def Route.userData : Route → UserData (BitVec 64)
  | context ctx => .io (some ctx.word.toNat)
  | multishot op => .multi (some op.word.toNat)
  | coroutine coro => .coro coro.word
  | inbox => .inbox
  | nothing => .io none

/-- What is read from a word is what it has been packed from. -/
theorem unpack_userData (i : Issue) : unpack i.userData = i.route.userData := by
  have hbranch := i.branch_eq (fun ctx => UserData.io (some ctx.toNat))
    (fun op => .multi (some op.toNat)) .coro .inbox (.io none)
  rw [unpack, hbranch]
  cases i.route <;> rfl

/-- The call of a function that prepares an entry, and what it issues. -/
inductive IoCall.Issues : IoCall → Issue → Prop
  | acceptMultishot (fd : ℤ) (op : Address) :
      Issues (.acceptMultishot fd (some op.word.toNat)) (.acceptMultishot op)
  | recvMultishot (fd : ℤ) (op : Address) :
      Issues (.recvMultishot fd (some op.word.toNat)) (.recvMultishot op)
  | acceptDirect (fd : ℤ) (ctx : Address) :
      Issues (.acceptDirect fd ctx.word.toNat) (.acceptDirect ctx)
  | recvDirect (fd : ℤ) (ctx : Address) : Issues (.recvDirect fd ctx.word.toNat) (.recvDirect ctx)
  | sendDirect (fd : ℤ) (buf len : ℕ) (ctx : Address) :
      Issues (.sendDirect fd buf len ctx.word.toNat) (.sendDirect ctx)
  | closeDirect (fd : ℤ) (ctx : Address) :
      Issues (.closeDirect fd ctx.word.toNat) (.closeDirect ctx)

/-- The entry that a call prepares completes with the user data of what the call issues. -/
theorem userData_of_call {σ : Type*} {e e' : IoEngine σ (BitVec 64)} {call : IoCall} {i : Issue}
    (hi : call.Issues i) (h : e.call call = some e') :
    ∃ sqe, e'.sqes = e.sqes ++ [sqe] ∧ sqe.userData = unpack i.userData := by
  rw [unpack_userData]
  cases hi with
  | acceptMultishot fd op => exact ⟨_, (IoEngine.prepared_of_prepare h).sqes, rfl⟩
  | recvMultishot fd op => exact ⟨_, (IoEngine.prepared_of_prepare h).sqes, rfl⟩
  | acceptDirect fd ctx => exact ⟨_, (IoEngine.prepared_of_newContext h).sqes, rfl⟩
  | recvDirect fd ctx => exact ⟨_, (IoEngine.prepared_of_newContext h).sqes, rfl⟩
  | sendDirect fd buf len ctx => exact ⟨_, (IoEngine.prepared_of_newContext h).sqes, rfl⟩
  | closeDirect fd ctx => exact ⟨_, (IoEngine.prepared_of_newContext h).sqes, rfl⟩

/-! ## The simulation -/

/-- A completion, as the engine has it. -/
def IoUringCqe.cqe (c : IoUringCqe) : Cqe (BitVec 64) := ⟨unpack c.userData, c.result⟩

/-- Where the worker is while its thread is in `poll`. Behind the loop it is at the head of its own
loop again. -/
def PollPc.place : PollPc → LoopPc (BitVec 64)
  | loop => .poll
  | callback _ _ => .callback
  | inbox => .inbox true
  | task => .task true
  | advance | outside => .head

variable {σ : Type*} {p p' : Poller} {w w' : Worker σ (BitVec 64)} {op : PollOp}

/-- The worker has what `poll` reads and writes beside the completions. -/
structure Agrees (p : Poller) (w : Worker σ (BitVec 64)) : Prop where
  pc : w.pc = p.pc.place
  contexts : ∀ a : BitVec 64, w.engine.contexts a.toNat = p.contexts a
  queue : w.queue = p.queue
  inbox : w.inbox = p.inbox

/-- The completions of the worker are those pending, all of which have been issued. -/
structure Simulates (p : Poller) (w : Worker σ (BitVec 64)) : Prop where
  counted : p.Counted
  agrees : Agrees p w
  cqes : w.engine.cqes = p.pending.map IoUringCqe.cqe
  issued : ∀ cqe ∈ p.pending, ∃ i : Issue, cqe.userData = i.userData

/-- A write to the context of an operation. -/
theorem Agrees.contexts_update (h : Agrees p w) (ctx : BitVec 64) (x : IoContext (BitVec 64))
    (a : BitVec 64) :
    Function.update w.engine.contexts ctx.toNat x a.toNat =
      Function.update p.contexts ctx x a := by
  rcases eq_or_ne a ctx with rfl | hne
  · rw [Function.update_self, Function.update_self]
  · rw [Function.update_of_ne hne, Function.update_of_ne (mt BitVec.eq_of_toNat_eq hne)]
    exact h.contexts a

/-- What leaves the contexts, the run queue and the inbox alone moves the worker at most. -/
theorem Agrees.goto (h : Agrees p w) (huntouched : p.Untouched p') :
    Agrees p' (w.goto p'.pc.place) where
  pc := rfl
  contexts a := by rw [huntouched.contexts]; exact h.contexts a
  queue := by rw [huntouched.queue]; exact h.queue
  inbox := by rw [huntouched.inbox]; exact h.inbox

/-- The worker is where it is. -/
theorem goto_of_pc_eq {pc : LoopPc (BitVec 64)} (hpc : w.pc = pc) : w.goto pc = w := by
  rw [← hpc]
  rfl

/-- The worker completes the context of an operation. -/
theorem Agrees.complete {ctx : Address} {result : IoResult} (h : Agrees p w)
    (hcompleted : ctx.Completed result p p') (hpc : p'.pc.place = w.pc) :
    Agrees p' (w.handle ⟨.io (some ctx.word.toNat), result⟩) ∧
      (w.handle ⟨.io (some ctx.word.toNat), result⟩).engine.cqes = w.engine.cqes := by
  obtain ⟨hother, hinbox, hcompleted⟩ := hcompleted
  unfold Worker.handle
  dsimp only
  rw [h.contexts ctx.word]
  by_cases hcancelled : (p.contexts ctx.word).cancelled
  · -- The context is deleted, which the worker does not see.
    rw [if_pos hcancelled] at hcompleted ⊢
    obtain ⟨-, hself, hqueue⟩ := hcompleted
    refine ⟨⟨hpc.symm, fun a => ?_, h.queue.trans hqueue.symm, h.inbox.trans hinbox.symm⟩, rfl⟩
    rcases eq_or_ne a ctx.word with rfl | hne
    · rw [hself, h.contexts]
    · rw [hother a hne, h.contexts]
  · rw [if_neg hcancelled] at hcompleted ⊢
    obtain ⟨-, hself, hqueue⟩ := hcompleted
    -- The result is stored, and the coroutine scheduled if there is one.
    set x : IoContext (BitVec 64) :=
      { p.contexts ctx.word with res := result.res, flags := result.flags }
    have hcontexts : ∀ a, p'.contexts a = Function.update p.contexts ctx.word x a := by
      intro a
      rcases eq_or_ne a ctx.word with rfl | hne
      · rw [Function.update_self, hself]
      · rw [Function.update_of_ne hne, hother a hne]
    simp only [IoEngine.setContext, Function.update_self, h.contexts]
    cases hcoro : (p.contexts ctx.word).coro with
    | some coro =>
      rw [hcoro] at hqueue
      refine ⟨⟨hpc.symm, fun a => ?_, ?_, h.inbox.trans hinbox.symm⟩, rfl⟩
      · rw [hcontexts, ← h.contexts_update]
        simp only [Worker.schedule, hcoro, x]
      · rw [hqueue, ← h.queue]
        rfl
    | none =>
      rw [hcoro] at hqueue
      refine ⟨⟨hpc.symm, fun a => ?_, h.queue.trans hqueue.symm, h.inbox.trans hinbox.symm⟩, rfl⟩
      rw [hcontexts, ← h.contexts_update]
      simp only [hcoro, x]

/-- The worker handles a completion as its route says. -/
theorem Agrees.handle {r : Route} {result : IoResult} (h : Agrees p w) (hpc : w.pc = .poll)
    (hserved : r.Served result p p') :
    Agrees p' (w.handle ⟨r.userData, result⟩) ∧
      (w.handle ⟨r.userData, result⟩).engine.cqes = w.engine.cqes := by
  cases r with
  | context ctx => exact h.complete hserved.2 (by rw [hserved.1, hpc]; rfl)
  | multishot op =>
    obtain ⟨hplace, huntouched⟩ := hserved
    have hgoto := h.goto huntouched
    rw [hplace] at hgoto
    exact ⟨hgoto, rfl⟩
  | coroutine coro =>
    obtain ⟨hplace, hcontexts, -, hqueue, hinbox⟩ := hserved
    refine ⟨⟨?_, fun a => ?_, ?_, ?_⟩, rfl⟩
    · rw [hplace]
      exact hpc
    · rw [hcontexts]
      exact h.contexts a
    · rw [hqueue, ← h.queue]
      rfl
    · rw [hinbox]
      exact h.inbox
  | inbox =>
    obtain ⟨hplace, huntouched⟩ := hserved
    have hgoto := h.goto huntouched
    rw [hplace] at hgoto
    exact ⟨hgoto, rfl⟩
  | nothing =>
    obtain ⟨hplace, huntouched⟩ := hserved
    have hgoto := h.goto huntouched
    have hstay : w.goto PollPc.loop.place = w := goto_of_pc_eq hpc
    rw [hplace, hstay] at hgoto
    exact ⟨hgoto, rfl⟩

/-- The worker invokes the task that `process_inbox` has popped. -/
theorem Agrees.invoke (h : Agrees p w)
    (inbox : SpscQueue (UniqueTask (Closure (BitVec 64) Unit)))
    (task : UniqueTask (Closure (BitVec 64) Unit)) :
    Agrees
        (({ p with
          inbox := inbox
          metrics := p.metrics.recordInboxProcessed } : Poller).invoke task)
        (({ w with inbox := inbox } : Worker σ (BitVec 64)).invoke true task) ∧
      (({ w with inbox := inbox } : Worker σ (BitVec 64)).invoke true task).engine.cqes =
        w.engine.cqes := by
  unfold Poller.invoke Worker.invoke
  cases htask : task.callable with
  | none => exact ⟨⟨h.pc, h.contexts, h.queue, rfl⟩, rfl⟩
  | some callable =>
    cases callable with
    | schedule coro =>
      refine ⟨⟨h.pc, h.contexts, ?_, rfl⟩, rfl⟩
      show w.queue.schedule (some coro) = p.queue.schedule (some coro)
      rw [h.queue]
    | other f => exact ⟨⟨rfl, h.contexts, h.queue, rfl⟩, rfl⟩

/-! ## Steps and runs -/

/-- A step of a call of `poll` whose callbacks and tasks return at once, while the kernel posts
completions that have been issued. -/
def callStep (p : Poller) (op : PollOp) (p' : Poller) : Prop :=
  pollStep p op p' ∧
    match op with
    | .next reload => reload
    | .pop | .leave | .advance => True
    | .post cqe => ∃ i : Issue, cqe.userData = i.userData
    | .enter _ | .run _ _ | .dispatch _ => False

/-- A step of a worker, or a completion that is posted to it. -/
def Worker.stepOrPost (running : Bool) (w : Worker σ (BitVec 64)) :
    WorkerOp (BitVec 64) ⊕ Cqe (BitVec 64) → Worker σ (BitVec 64) → Prop
  | .inl op, w' => w.step running op = some w'
  | .inr cqe, w' => w' = { w with engine := w.engine.post cqe }

/-- The step of the worker. Where the head is stored there is none. -/
def PollOp.workerOp : PollOp → Option (WorkerOp (BitVec 64) ⊕ Cqe (BitVec 64))
  | .next _ => some (.inl .poll)
  | .pop => some (.inl .pop)
  | .leave => some (.inl .leave)
  | .post cqe => some (.inr cqe.cqe)
  | .enter _ | .advance | .run _ _ | .dispatch _ => none

/-- The worker after a step in which it agrees and its completions stay. -/
theorem Simulates.of_agrees (h : Simulates p w) (hmoves : Poller.Moves p op p')
    (hevent : p.event op = none) (hagrees : Agrees p' w')
    (hcqes : w'.engine.cqes = w.engine.cqes) : Simulates p' w' := by
  have hpending := hmoves.pending_step
  rw [hevent] at hpending
  have hsame : p'.pending = p.pending := hpending
  exact ⟨hmoves.counted, hagrees, by rw [hcqes, hsame, h.cqes], hsame ▸ h.issued⟩

/-- The body of the loop is a step of the worker, which takes the same completion. -/
theorem Simulates.handled (running : Bool) (h : Simulates p w) {reload : Bool}
    (hloop : p.pc = .loop) (hne : p.head ≠ p.loadTail reload)
    (hp' : p' = ({ p with tail := p.loadTail reload } : Poller).handle (p.cq.entry p.head))
    (hmoves : Poller.Moves p (.next reload) p') :
    ∃ w', Simulates p' w' ∧
      StutterStep (Worker.stepOrPost running) w (PollOp.next reload).workerOp w' := by
  have htakes : p.takes (.next reload) = some (p.cq.entry p.head) := by
    simp [Poller.takes, hloop, hne]
  have hpending := hmoves.pending_step
  rw [Poller.event, htakes] at hpending
  replace hpending : p.pending = p.cq.entry p.head :: _ := hpending
  obtain ⟨i, hi⟩ := h.issued _ (hpending ▸ List.mem_cons_self)
  have hserved := Poller.handle_served (p := p) hi (p.loadTail reload)
  rw [← hp'] at hserved
  have hcqes := h.cqes
  rw [hpending, List.map_cons] at hcqes
  set rest : Worker σ (BitVec 64) :=
    { w with engine := { w.engine with cqes := p'.pending.map IoUringCqe.cqe } } with hrest
  have hword : (p.cq.entry p.head).cqe = ⟨i.route.userData, (p.cq.entry p.head).result⟩ := by
    rw [IoUringCqe.cqe, hi, unpack_userData]
  have hpoll : w.pc = .poll := by
    rw [h.agrees.pc, hloop]
    rfl
  -- Without the completion, the worker agrees as before.
  have hagrees : Agrees p rest :=
    ⟨h.agrees.pc, h.agrees.contexts, h.agrees.queue, h.agrees.inbox⟩
  obtain ⟨hagrees', hcqes'⟩ := hagrees.handle hpoll hserved
  refine ⟨rest.handle (p.cq.entry p.head).cqe, ⟨hmoves.counted, ?_, ?_, ?_⟩, ?_⟩
  · rw [hword]
    exact hagrees'
  · rw [hword, hcqes']
  · intro cqe hmem
    exact h.issued cqe (hpending ▸ List.mem_cons_of_mem _ hmem)
  · show w.step running .poll = _
    simp only [Worker.step, hpoll, hcqes, hrest]

/-- The kernel posts a completion to both. -/
theorem Simulates.posted (running : Bool) (h : Simulates p w) {cqe : IoUringCqe}
    {cq : CompletionQueue} (hmoves : Poller.Moves p (.post cqe) { p with cq := cq })
    (hissued : ∃ i : Issue, cqe.userData = i.userData) :
    ∃ w', Simulates { p with cq := cq } w' ∧
      StutterStep (Worker.stepOrPost running) w (PollOp.post cqe).workerOp w' := by
  obtain ⟨-, hpending⟩ : p.pending.length < p.cq.entries ∧
      ({ p with cq := cq } : Poller).pending = p.pending ++ [cqe] := hmoves.pending_step
  refine ⟨{ w with engine := w.engine.post cqe.cqe }, ⟨hmoves.counted, ?_, ?_, ?_⟩, rfl⟩
  · exact ⟨h.agrees.pc, h.agrees.contexts, h.agrees.queue, h.agrees.inbox⟩
  · show w.engine.cqes ++ [cqe.cqe] = _
    rw [h.cqes, hpending, List.map_append, List.map_singleton]
  · rw [hpending]
    intro c hc
    rcases List.mem_append.mp hc with hc | hc
    · exact h.issued c hc
    · obtain rfl := List.mem_singleton.mp hc
      exact hissued

/-- A step of a call of `poll` is a step of the worker. -/
theorem Simulates.step (running : Bool) (h : Simulates p w) (hstep : callStep p op p') :
    ∃ w', Simulates p' w' ∧ StutterStep (Worker.stepOrPost running) w op.workerOp w' := by
  obtain ⟨hstep, hop⟩ := hstep
  have hmoves := h.counted.moves hstep
  have hpc := h.agrees.pc
  cases Poller.StepCase.of_step hstep with
  | handled reload hloop hne => exact h.handled running hloop hne rfl hmoves
  | exhausted reload hloop heq =>
    have hreload : reload = true := hop
    subst hreload
    have hnil := (h.counted.head_eq_ktail_iff hloop).mp heq
    have hpoll : w.pc = .poll := by rw [hpc, hloop]; rfl
    have hcqes := h.cqes
    rw [hnil, List.map_nil] at hcqes
    refine ⟨w.goto .head, ?_, ?_⟩
    · exact h.of_agrees hmoves (by simp [Poller.event, PollOp.posted, Poller.takes, hloop, heq])
        (h.agrees.goto ⟨rfl, rfl, rfl, rfl⟩) rfl
    · show w.step running .poll = _
      simp only [Worker.step, hpoll, hcqes]
  | popped task inbox hinbox hpop =>
    have hpc' : w.pc = .inbox true := by rw [hpc, hinbox]; rfl
    have hpop' : w.inbox.pop = some (some task, inbox) := by rw [h.agrees.inbox, hpop]
    refine ⟨({ w with inbox := inbox } : Worker σ (BitVec 64)).invoke true task, ?_, ?_⟩
    · obtain ⟨hagrees, hcqes⟩ := h.agrees.invoke inbox task
      exact h.of_agrees hmoves rfl hagrees hcqes
    · show w.step running .pop = _
      simp only [Worker.step, hpc', hpop']
  | drained inbox hinbox hpop =>
    have hpc' : w.pc = .inbox true := by rw [hpc, hinbox]; rfl
    have hpop' : w.inbox.pop = some (none, inbox) := by rw [h.agrees.inbox, hpop]
    refine ⟨w.goto .poll, ?_, ?_⟩
    · exact h.of_agrees hmoves rfl (h.agrees.goto ⟨rfl, rfl, rfl, rfl⟩) rfl
    · show w.step running .pop = _
      simp only [Worker.step, hpc', hpop', if_true]
  | returned op result hcallback =>
    have hpc' : w.pc = .callback := by rw [hpc, hcallback]; rfl
    refine ⟨w.goto .poll, ?_, ?_⟩
    · exact h.of_agrees hmoves rfl (h.agrees.goto ⟨rfl, rfl, rfl, rfl⟩) rfl
    · show w.step running .leave = _
      simp only [Worker.step, Worker.leave, hpc']
  | taskReturned htask =>
    have hpc' : w.pc = .task true := by rw [hpc, htask]; rfl
    refine ⟨w.goto (.inbox true), ?_, ?_⟩
    · exact h.of_agrees hmoves rfl (h.agrees.goto ⟨rfl, rfl, rfl, rfl⟩) rfl
    · show w.step running .leave = _
      simp only [Worker.step, Worker.leave, hpc']
  | finished hadvance =>
    have hplace : w.pc = .head := by rw [hpc, hadvance]; rfl
    refine ⟨w, h.of_agrees hmoves rfl ⟨hplace, ?_, ?_, ?_⟩ rfl, rfl⟩
    · exact h.agrees.contexts
    · exact h.agrees.queue
    · exact h.agrees.inbox
  | posted cqe cq hpost => exact h.posted running hmoves hop
  | entered _ | noScheduler _ | ran _ _ _ | dispatched _ => exact hop.elim

/-- A call of `poll` is a run of the worker from its place before the loop, with the same
completions, and at the end of the call the worker is at the head of its own loop. -/
theorem Simulates.path (running : Bool) {l : List (PollOp × Poller)} (h : Simulates p w)
    (hl : Path callStep p l) :
    ∃ m, Path (Worker.stepOrPost running) w m ∧
      m.map Prod.fst = (l.map Prod.fst).filterMap PollOp.workerOp ∧
      Simulates (last p l) (last w m) := by
  rw [← trace_of_label PollOp.workerOp p l]
  exact hl.simulation (fun _ _ _ _ hR hstep => hR.step running hstep) h

end Novaio
