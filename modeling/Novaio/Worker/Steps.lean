import Novaio.Worker.Basic

/-!
# The steps of the workers

What a step of the workers can do, said once (`Worker.StepCase` and `Workers.StepCase`), and what
the operations of a scheduler leave alone. The invariants of the loop are proved by cases on these.
-/

namespace Novaio

namespace Worker

variable {σ κ : Type*} {w w' : Worker σ κ} {running : Bool}

/-! ## What the operations leave alone -/

/-- The worker is at its new place in the loop. -/
@[simp]
theorem goto_pc (w : Worker σ κ) (pc : LoopPc κ) : (w.goto pc).pc = pc := rfl

/-- It leaves the engine alone. -/
@[simp]
theorem goto_engine (w : Worker σ κ) (pc : LoopPc κ) : (w.goto pc).engine = w.engine := rfl

/-- It leaves the run queue alone. -/
@[simp]
theorem goto_queue (w : Worker σ κ) (pc : LoopPc κ) : (w.goto pc).queue = w.queue := rfl

/-- It leaves the inbox alone. -/
@[simp]
theorem goto_inbox (w : Worker σ κ) (pc : LoopPc κ) : (w.goto pc).inbox = w.inbox := rfl

/-- It leaves the wheel alone. -/
@[simp]
theorem goto_wheel (w : Worker σ κ) (pc : LoopPc κ) : (w.goto pc).wheel = w.wheel := rfl

/-- It leaves the time of the last tick alone. -/
@[simp]
theorem goto_lastTickTime (w : Worker σ κ) (pc : LoopPc κ) :
    (w.goto pc).lastTickTime = w.lastTickTime := rfl

/-- `schedule` stays where the loop is. -/
@[simp]
theorem schedule_pc (w : Worker σ κ) (h : κ) : (w.schedule h).pc = w.pc := rfl

/-- `schedule` leaves the engine alone. -/
@[simp]
theorem schedule_engine (w : Worker σ κ) (h : κ) : (w.schedule h).engine = w.engine := rfl

/-- `schedule` leaves the inbox alone. -/
@[simp]
theorem schedule_inbox (w : Worker σ κ) (h : κ) : (w.schedule h).inbox = w.inbox := rfl

/-- `schedule` leaves the wheel alone. -/
@[simp]
theorem schedule_wheel (w : Worker σ κ) (h : κ) : (w.schedule h).wheel = w.wheel := rfl

/-- `schedule` leaves the time of the last tick alone. -/
@[simp]
theorem schedule_lastTickTime (w : Worker σ κ) (h : κ) :
    (w.schedule h).lastTickTime = w.lastTickTime := rfl

/-- Scheduling handles changes the run queue alone. -/
theorem schedule_foldl_frame {α : Type*} (f : α → κ) (l : List α) (w : Worker σ κ) :
    let w' := l.foldl (fun w a => w.schedule (f a)) w
    w'.pc = w.pc ∧ w'.engine = w.engine ∧ w'.inbox = w.inbox ∧ w'.wheel = w.wheel := by
  induction l generalizing w with
  | nil => exact ⟨rfl, rfl, rfl, rfl⟩
  | cons a l ih => exact ih (w.schedule (f a))

/-- What a tick fires is scheduled where the loop is. -/
@[simp]
theorem fire_pc (w : Worker σ κ) (wheel : TimeWheel ℕ κ) : (w.fire wheel).pc = w.pc :=
  (schedule_foldl_frame _ _ _).1

/-- What a tick fires leaves the engine alone. -/
@[simp]
theorem fire_engine (w : Worker σ κ) (wheel : TimeWheel ℕ κ) : (w.fire wheel).engine = w.engine :=
  (schedule_foldl_frame _ _ _).2.1

/-- What a tick fires leaves the inbox alone. -/
@[simp]
theorem fire_inbox (w : Worker σ κ) (wheel : TimeWheel ℕ κ) : (w.fire wheel).inbox = w.inbox :=
  (schedule_foldl_frame _ _ _).2.2.1

/-- The wheel is the one after the tick. -/
@[simp]
theorem fire_wheel (w : Worker σ κ) (wheel : TimeWheel ℕ κ) : (w.fire wheel).wheel = wheel :=
  (schedule_foldl_frame _ _ _).2.2.2

/-- What `process_inbox` does with a task: it goes on, or calls code of the user. -/
theorem invoke_cases (w : Worker σ κ) (polled : Bool) (task : UniqueTask (Closure κ Unit)) :
    w.invoke polled task = w ∨ (∃ h, task.coro = some h ∧ w.invoke polled task = w.schedule h) ∨
      w.invoke polled task = w.goto (.task polled) := by
  unfold invoke UniqueTask.coro
  split <;> simp_all

/-- What `poll` does with a completion: it goes on, schedules a coroutine, calls code of the user,
or calls `process_inbox`. The result may be stored in a context. -/
theorem handle_cases (w : Worker σ κ) (cqe : Cqe κ) :
    (w.handle cqe = w ∧ (∀ h, cqe.userData ≠ .coro h) ∧ cqe.userData ≠ .inbox) ∨
      (∃ ctx, cqe.userData = .io (some ctx) ∧ ∃ engine, engine = w.engine.setContext ctx
          ({ · with res := cqe.result.res, flags := cqe.result.flags }) ∧
        (((w.engine.contexts ctx).coro = none ∧ w.handle cqe = { w with engine := engine }) ∨
          ∃ h, (w.engine.contexts ctx).coro = some h ∧
            w.handle cqe = Worker.schedule { w with engine := engine } h)) ∨
      (w.handle cqe = w.goto .callback ∧ ∃ op, cqe.userData = .multi op) ∨
      (∃ h, cqe.userData = .coro h ∧ w.handle cqe = w.schedule h) ∨
      (cqe.userData = .inbox ∧ w.handle cqe = w.goto (.inbox true)) := by
  unfold handle
  cases hdata : cqe.userData with
  | io ctx =>
    cases ctx with
    | none => simp
    | some ctx =>
      dsimp only
      split_ifs with hcancelled
      · simp
      · -- The result is stored first, which leaves the coroutine.
        have hcoro : ((w.engine.setContext ctx ({ · with
            res := cqe.result.res, flags := cqe.result.flags })).contexts ctx).coro =
            (w.engine.contexts ctx).coro := by
          simp [IoEngine.setContext]
        refine .inr (.inl ⟨ctx, rfl, _, rfl, ?_⟩)
        rw [hcoro]
        cases (w.engine.contexts ctx).coro with
        | none => exact .inl ⟨rfl, rfl⟩
        | some h => exact .inr ⟨h, rfl, rfl⟩
  | multi op =>
    cases op with
    | none => simp
    | some op => simp
  | coro h => simp
  | inbox => simp

/-- What `poll` leaves alone. -/
@[simp]
theorem handle_frame (w : Worker σ κ) (cqe : Cqe κ) :
    (w.handle cqe).inbox = w.inbox ∧ (w.handle cqe).wheel = w.wheel ∧
      (w.handle cqe).engine.initialized = w.engine.initialized ∧
      (w.handle cqe).engine.depth = w.engine.depth ∧ (w.handle cqe).engine.sqes = w.engine.sqes ∧
      (w.handle cqe).engine.cqes = w.engine.cqes := by
  obtain ⟨h, -⟩ | ⟨ctx, -, _, rfl, ⟨-, h⟩ | ⟨_, -, h⟩⟩ | ⟨h, -⟩ | ⟨_, -, h⟩ | ⟨-, h⟩ :=
    w.handle_cases cqe <;> rw [h] <;> exact ⟨rfl, rfl, rfl, rfl, rfl, rfl⟩

/-- Where `poll` goes on after a completion. -/
theorem handle_pc (w : Worker σ κ) (cqe : Cqe κ) :
    ((w.handle cqe).pc = w.pc ∨ (w.handle cqe).pc = .callback) ∧ cqe.userData ≠ .inbox ∨
      (w.handle cqe).pc = .inbox true := by
  obtain ⟨h, -, hdata⟩ | ⟨ctx, hdata, _, rfl, ⟨-, h⟩ | ⟨_, -, h⟩⟩ | ⟨h, _, hdata⟩ | ⟨_, hdata, h⟩ |
    ⟨-, h⟩ := w.handle_cases cqe <;> rw [h]
  · exact .inl ⟨.inl rfl, hdata⟩
  · exact .inl ⟨.inl rfl, by simp [hdata]⟩
  · exact .inl ⟨.inl rfl, by simp [hdata]⟩
  · exact .inl ⟨.inr rfl, by simp [hdata]⟩
  · exact .inl ⟨.inl rfl, by simp [hdata]⟩
  · exact .inr rfl

/-- What `process_inbox` leaves alone when it invokes a task. -/
@[simp]
theorem invoke_frame (w : Worker σ κ) (polled : Bool) (task : UniqueTask (Closure κ Unit)) :
    (w.invoke polled task).inbox = w.inbox ∧ (w.invoke polled task).wheel = w.wheel ∧
      (w.invoke polled task).engine = w.engine := by
  obtain h | ⟨_, -, h⟩ | h := w.invoke_cases polled task <;> rw [h] <;> exact ⟨rfl, rfl, rfl⟩

/-- Where `process_inbox` goes on when it has popped a task. -/
theorem invoke_pc (w : Worker σ κ) (polled : Bool) (task : UniqueTask (Closure κ Unit)) :
    (w.invoke polled task).pc = w.pc ∨ (w.invoke polled task).pc = .task polled := by
  obtain h | ⟨_, -, h⟩ | h := w.invoke_cases polled task <;> rw [h]
  · exact .inl rfl
  · exact .inl rfl
  · exact .inr rfl

/-! ## The steps of one worker -/

/-- What a step of a worker does, by the place in the loop that it starts from. -/
inductive StepCase (running : Bool) (w : Worker σ κ) : WorkerOp κ → Worker σ κ → Prop where
  | init {tryInit : ℕ → Bool → Bool} {now : UInt64} {depth : ℕ} (hpc : w.pc = .created)
      (hdepth : initDepth tryInit = some depth) :
      StepCase running w (.init tryInit now)
        { w with pc := .head, engine := w.engine.init depth, lastTickTime := now }
  | stop {now : UInt64} (hpc : w.pc = .head) : StepCase running w (.check now) (w.goto .stopped)
  | startTicks {now : UInt64} (hpc : w.pc = .head) (hnow : w.lastTickTime < now) :
      StepCase running w (.check now) (w.goto (.ticking (w.lastTickTime + 1) now))
  | noTicks {now : UInt64} (hpc : w.pc = .head) :
      StepCase running w (.check now) (w.goto (.inbox false))
  | tick {fuel : ℕ} {t now : UInt64} {wheel : TimeWheel ℕ κ} (hpc : w.pc = .ticking t now)
      (ht : t ≤ now) (hwheel : w.wheel.tick true fuel t = some wheel) :
      StepCase running w (.tick fuel) ((w.fire wheel).goto (.ticking (t + 1) now))
  | endTicks {fuel : ℕ} {t now : UInt64} (hpc : w.pc = .ticking t now) :
      StepCase running w (.tick fuel) { w with pc := .inbox false, lastTickTime := now }
  | popTask (polled : Bool) (task : UniqueTask (Closure κ Unit))
      (inbox : SpscQueue (UniqueTask (Closure κ Unit))) (hpc : w.pc = .inbox polled)
      (hpop : w.inbox.pop = some (some task, inbox)) :
      StepCase running w .pop (Worker.invoke { w with inbox := inbox } polled task)
  | popNone {polled : Bool} {inbox : SpscQueue (UniqueTask (Closure κ Unit))}
      (hpc : w.pc = .inbox polled) (hpop : w.inbox.pop = some (none, inbox)) :
      StepCase running w .pop (w.goto (if polled then .poll else .dequeue))
  | dequeueNone (hpc : w.pc = .dequeue) (hnone : (w.queue.tryDequeueBatch 16).1 = []) :
      StepCase running w .tryDequeueBatch
        { w with queue := (w.queue.tryDequeueBatch 16).2, pc := .submit }
  | dequeue {handles : List κ} (hpc : w.pc = .dequeue)
      (hhandles : (w.queue.tryDequeueBatch 16).1 = handles) :
      StepCase running w .tryDequeueBatch
        { w with queue := (w.queue.tryDequeueBatch 16).2, pc := .batch handles }
  | skip {k : κ} {handles : List κ} (hpc : w.pc = .batch (k :: handles)) :
      StepCase running w (.resume true) (w.goto (.batch handles))
  | resume {k : κ} {handles : List κ} (hpc : w.pc = .batch (k :: handles)) :
      StepCase running w (.resume false) (w.goto (.coroutine k handles))
  | endBatch {done : Bool} (hpc : w.pc = .batch []) :
      StepCase running w (.resume done) (w.goto .poll)
  | planForever {now : UInt64} (hpc : w.pc = .plan) (htimeout : w.wheel.nextTimeout now = -1) :
      StepCase running w (.plan now) (w.goto (.wait none))
  | planNone {now : UInt64} (hpc : w.pc = .plan) : StepCase running w (.plan now) (w.goto .head)
  | planPoll {now : UInt64} (hpc : w.pc = .plan) : StepCase running w (.plan now) (w.goto .poll)
  | planTimeout {now timeout : UInt64} (hpc : w.pc = .plan) :
      StepCase running w (.plan now) (w.goto (.wait (some timeout)))
  | wake {timeout : Option UInt64} (hpc : w.pc = .wait timeout) :
      StepCase running w .wake (w.goto .poll)
  | timeout {timeout : UInt64} (hpc : w.pc = .wait (some timeout)) :
      StepCase running w .timeout (w.goto .poll)
  | interrupt {timeout : Option UInt64} (hpc : w.pc = .wait timeout) :
      StepCase running w .interrupt (w.goto .head)
  | poll (cqe : Cqe κ) (cqes : List (Cqe κ)) (hpc : w.pc = .poll)
      (hcqes : w.engine.cqes = cqe :: cqes) :
      StepCase running w .poll
        (Worker.handle { w with engine := { w.engine with cqes := cqes } } cqe)
  | endPoll (hpc : w.pc = .poll) : StepCase running w .poll (w.goto .head)
  | schedule {h : κ} (huser : w.pc.user) : StepCase running w (.schedule h) (w.schedule h)
  | sleepFor {node : ℕ} {ms now : UInt64} {h : κ} (huser : w.pc.user)
      (hnode : (w.wheel.nodes node).headPtr = none) :
      StepCase running w (.sleepFor node ms now h)
        { w with wheel := w.wheel.arm node (now + ms) h }
  | call {call : IoCall} {engine : IoEngine σ κ} (huser : w.pc.user)
      (hcall : w.engine.call call = some engine) :
      StepCase running w (.call call) { w with engine := engine }
  | callNull {call : IoCall} (huser : w.pc.user) (hcall : w.engine.call call = none) :
      StepCase running w (.call call) (w.goto .crashed)
  | await {ctx : ℕ} {h : κ} (huser : w.pc.user) :
      StepCase running w (.await ctx h)
        { w with engine := w.engine.setContext ctx ({ · with coro := some h }) }
  | cancel {ctx : ℕ} (huser : w.pc.user) :
      StepCase running w (.cancel ctx)
        { w with engine := w.engine.setContext ctx ({ · with cancelled := true }) }
  | leaveTask {polled : Bool} (hpc : w.pc = .task polled) :
      StepCase running w .leave (w.goto (.inbox polled))
  | leaveCoroutine {k : κ} {handles : List κ} (hpc : w.pc = .coroutine k handles) :
      StepCase running w .leave (w.goto (.batch handles))
  | leaveCallback (hpc : w.pc = .callback) : StepCase running w .leave (w.goto .poll)

/-- The inversion of a step. -/
theorem StepCase.of_step {op : WorkerOp κ} (h : w.step running op = some w') :
    StepCase running w op w' := by
  cases op with
  | init tryInit now =>
    simp only [step] at h
    split at h
    · obtain rfl := Option.some.inj h
      exact .init ‹_› ‹_›
    · simp at h
  | check now =>
    simp only [step] at h
    split at h
    · split_ifs at h
      · exact Option.some.inj h ▸ .stop ‹_›
      · exact Option.some.inj h ▸ .startTicks ‹_› ‹_›
      · exact Option.some.inj h ▸ .noTicks ‹_›
    · simp at h
  | tick fuel =>
    simp only [step] at h
    split at h
    · split_ifs at h
      · obtain ⟨wheel, hwheel, rfl⟩ := Option.map_eq_some_iff.mp h
        exact .tick ‹_› ‹_› hwheel
      · exact Option.some.inj h ▸ .endTicks ‹_›
    · simp at h
  | pop =>
    simp only [step] at h
    split at h
    · exact Option.some.inj h ▸ .popTask _ _ _ ‹_› ‹_›
    · exact Option.some.inj h ▸ .popNone ‹_› ‹_›
    · simp at h
  | tryDequeueBatch =>
    simp only [step] at h
    split at h
    · obtain rfl := Option.some.inj h
      split_ifs with hnone
      · exact .dequeueNone ‹_› hnone
      · exact .dequeue ‹_› rfl
    · simp at h
  | resume done =>
    simp only [step] at h
    split at h
    · obtain rfl := Option.some.inj h
      cases done
      · exact .resume ‹_›
      · exact .skip ‹_›
    · exact Option.some.inj h ▸ .endBatch ‹_›
    · simp at h
  | plan now =>
    simp only [step] at h
    split at h
    · split_ifs at h
      · exact Option.some.inj h ▸ .planForever ‹_› ‹_›
      · exact Option.some.inj h ▸ .planNone ‹_›
      · exact Option.some.inj h ▸ .planPoll ‹_›
      · exact Option.some.inj h ▸ .planTimeout ‹_›
    · simp at h
  | wake =>
    simp only [step] at h
    split at h
    · split_ifs at h
      exact Option.some.inj h ▸ .wake ‹_›
    · simp at h
  | timeout =>
    simp only [step] at h
    split at h
    · exact Option.some.inj h ▸ .timeout ‹_›
    · simp at h
  | interrupt =>
    simp only [step] at h
    split at h
    · exact Option.some.inj h ▸ .interrupt ‹_›
    · simp at h
  | poll =>
    simp only [step] at h
    split at h
    · exact Option.some.inj h ▸ .poll _ _ ‹_› ‹_›
    · exact Option.some.inj h ▸ .endPoll ‹_›
    · simp at h
  | schedule handle =>
    simp only [step, Option.ite_none_right_eq_some, Option.some.injEq] at h
    exact h.2 ▸ .schedule h.1
  | sleepFor node ms now handle =>
    simp only [step, Option.ite_none_right_eq_some, Option.some.injEq] at h
    exact h.2 ▸ .sleepFor h.1.1 h.1.2.2
  | call call =>
    simp only [step] at h
    split_ifs at h with huser
    split at h
    · exact Option.some.inj h ▸ .call huser ‹_›
    · exact Option.some.inj h ▸ .callNull huser ‹_›
  | await ctx handle =>
    simp only [step, Option.ite_none_right_eq_some, Option.some.injEq] at h
    exact h.2 ▸ .await h.1
  | cancel ctx =>
    simp only [step, Option.ite_none_right_eq_some, Option.some.injEq] at h
    exact h.2 ▸ .cancel h.1
  | leave =>
    simp only [step, leave] at h
    split at h
    · exact Option.some.inj h ▸ .leaveTask ‹_›
    · exact Option.some.inj h ▸ .leaveCoroutine ‹_›
    · exact Option.some.inj h ▸ .leaveCallback ‹_›
    · simp at h

end Worker

namespace Workers

variable {σ τ κ : Type*} [DecidableEq σ] {s t : Workers σ τ κ}

/-! ## The steps of all workers -/

/-- The worker has its new state. -/
@[simp]
theorem setWorker_self (s : Workers σ τ κ) (i : σ) (w : Worker σ κ) :
    (s.setWorker i w).workers i = w :=
  Function.update_self _ _ _

/-- The other workers have the state they had. -/
theorem setWorker_of_ne (s : Workers σ τ κ) {i j : σ} (w : Worker σ κ) (h : j ≠ i) :
    (s.setWorker i w).workers j = s.workers j :=
  Function.update_of_ne h _ _

/-- What the completions that the kernel posts leave alone in a worker. -/
structure Posted (w w' : Worker σ κ) (posted : List (Cqe κ)) : Prop where
  pc : w'.pc = w.pc
  queue : w'.queue = w.queue
  inbox : w'.inbox = w.inbox
  wheel : w'.wheel = w.wheel
  lastTickTime : w'.lastTickTime = w.lastTickTime
  engine : w'.engine = { w.engine with cqes := w.engine.cqes ++ posted }

omit [DecidableEq σ] in
/-- Nothing is posted. -/
theorem Posted.refl (w : Worker σ κ) : Posted w w [] :=
  ⟨rfl, rfl, rfl, rfl, rfl, by rw [List.append_nil]⟩

omit [DecidableEq σ] in
/-- Two completions are posted, one after the other. -/
theorem Posted.trans {w₁ w₂ w₃ : Worker σ κ} {l m : List (Cqe κ)} (h : Posted w₁ w₂ l)
    (h' : Posted w₂ w₃ m) : Posted w₁ w₃ (l ++ m) :=
  ⟨h'.pc.trans h.pc, h'.queue.trans h.queue, h'.inbox.trans h.inbox, h'.wheel.trans h.wheel,
    h'.lastTickTime.trans h.lastTickTime, by rw [h'.engine, h.engine, List.append_assoc]⟩

/-- A completion is posted on the ring of one worker. -/
theorem post_posted (s : Workers σ τ κ) (i j : σ) (cqe : Cqe κ) :
    Posted (s.workers j) ((s.post i cqe).workers j) (if j = i then [cqe] else []) := by
  unfold post
  rcases eq_or_ne j i with rfl | hne
  · rw [setWorker_self, if_pos rfl]
    exact ⟨rfl, rfl, rfl, rfl, rfl, rfl⟩
  · rw [setWorker_of_ne s _ hne, if_neg hne]
    exact .refl _

/-- What an entry that completes posts on the ring of a worker. -/
def postedOn (j : σ) (origin : Option σ) (sqe : Sqe σ κ) (result : IoResult) : List (Cqe κ) :=
  (match sqe with
    | .msgRing target data => if j = target then [⟨data, ⟨0, 0⟩⟩] else []
    | _ => []) ++
  match origin with
  | some i => if j = i then [⟨sqe.userData, result⟩] else []
  | none => []

/-- An entry that completes posts, and nothing else. -/
theorem completeEntry_posted (s : Workers σ τ κ) (origin : Option σ) (sqe : Sqe σ κ)
    (result : IoResult) :
    (s.completeEntry origin sqe result).isRunning = s.isRunning ∧
      (s.completeEntry origin sqe result).inFlight = s.inFlight ∧
      (s.completeEntry origin sqe result).calls = s.calls ∧
      ∀ j, Posted (s.workers j) ((s.completeEntry origin sqe result).workers j)
        (postedOn j origin sqe result) := by
  unfold completeEntry postedOn
  refine ⟨?_, ?_, ?_, fun j => ?_⟩
  · cases sqe <;> cases origin <;> rfl
  · cases sqe <;> cases origin <;> rfl
  · cases sqe <;> cases origin <;> rfl
  · cases sqe with
    | msgRing target data =>
      cases origin with
      | none => exact (post_posted s target j _).trans (.refl _)
      | some i => exact (post_posted s target j _).trans (post_posted _ i j _)
    | _ =>
      cases origin with
      | none => exact (Posted.refl _).trans (.refl _)
      | some i => exact (Posted.refl _).trans (post_posted _ i j _)

/-- What `notify_target_ring` does: a worker prepares the message, and may have to submit what is
prepared before, or writes through a null pointer; any other thread submits the message. -/
theorem notifyTargetRing_cases (s : Workers σ τ κ) (c : σ ⊕ τ) (target : σ) (data : UserData κ)
    (ok : Bool) :
    (∃ i, c = .inl i ∧
      ((∃ sqes submitted, ((sqes = (s.workers i).engine.sqes ∧ submitted = []) ∨
            (sqes = [] ∧ submitted = (s.workers i).engine.sqes)) ∧
          s.notifyTargetRing c target data ok =
            { s.setWorker i { s.workers i with
                engine :=
                  { (s.workers i).engine with sqes := sqes ++ [.msgRing target data] } } with
              inFlight := s.inFlight ++ submitted.map fun sqe => (some i, sqe) }) ∨
        (s.workers i).engine.sendMsgRing target data ok = none ∧
          s.notifyTargetRing c target data ok = s.setWorker i ((s.workers i).goto .crashed))) ∨
    (∃ x, c = .inr x ∧ s.notifyTargetRing c target data ok =
      { s with inFlight := s.inFlight ++ [(none, .msgRing target data)] }) := by
  cases c with
  | inr x => exact .inr ⟨x, rfl, rfl⟩
  | inl i =>
    refine .inl ⟨i, rfl, ?_⟩
    unfold notifyTargetRing
    cases hsend : (s.workers i).engine.sendMsgRing target data ok with
    | none => exact .inr ⟨rfl, by simp only [hsend]⟩
    | some r =>
      obtain ⟨engine, submitted⟩ := r
      simp only [hsend]
      rcases IoEngine.sendMsgRing_cases hsend with ⟨-, rfl, rfl⟩ | ⟨-, rfl, rfl⟩
      · exact .inl ⟨_, _, .inl ⟨rfl, rfl⟩, rfl⟩
      · exact .inl ⟨_, _, .inr ⟨rfl, rfl⟩, rfl⟩

omit [DecidableEq σ] in
/-- A push that fails leaves the inbox as it is. -/
theorem inbox_of_push_false {α : Type*} {q q' : SpscQueue α} {item : α}
    (h : q.push item = (false, q')) : q' = q := by
  unfold SpscQueue.push at h
  split_ifs at h
  · exact (Prod.mk.inj h).2.symm
  · simp at h

variable [DecidableEq τ]

/-- What a step of the runtime does. -/
inductive StepCase (s : Workers σ τ κ) : WorkersOp σ τ κ → Workers σ τ κ → Prop where
  | worker (i : σ) (op : WorkerOp κ) (w : Worker σ κ) (hidle : s.calls (.inl i) = .idle)
      (h : Worker.StepCase s.isRunning (s.workers i) op w) :
      StepCase s (.worker i op) (s.setWorker i w)
  | submit (i : σ) (hpc : (s.workers i).pc = .submit) :
      StepCase s (.submit i true)
        { s.setWorker i { s.workers i with
            engine := { (s.workers i).engine with sqes := [] }, pc := .plan } with
          inFlight := s.inFlight ++ (s.workers i).engine.sqes.map fun sqe => (some i, sqe) }
  | submitFails (i : σ) (hpc : (s.workers i).pc = .submit) :
      StepCase s (.submit i false) (s.setWorker i ((s.workers i).goto .plan))
  | push (c : σ ⊕ τ) (target : σ) (task : UniqueTask (Closure κ Unit))
      (inbox : SpscQueue (UniqueTask (Closure κ Unit))) (hidle : s.calls c = .idle)
      (hacts : s.acts c) (hpush : (s.workers target).inbox.push task = (true, inbox)) :
      StepCase s (.push c target task)
        ((s.setWorker target { s.workers target with inbox := inbox }).setCall c (.pushed target))
  | pushFull (c : σ ⊕ τ) (target : σ) (task : UniqueTask (Closure κ Unit)) :
      StepCase s (.push c target task) s
  | ringFd (c : σ ⊕ τ) (target : σ) (hcall : s.calls c = .pushed target) :
      StepCase s (.ringFd c) (s.setCall c (.notify target))
  | noRing (c : σ ⊕ τ) (target : σ) (hcall : s.calls c = .pushed target)
      (hinit : (s.workers target).engine.initialized = false) :
      StepCase s (.ringFd c) (s.setCall c .idle)
  | notifyInbox (c : σ ⊕ τ) (target : σ) (ok : Bool) (hcall : s.calls c = .notify target) :
      StepCase s (.notifyInbox c ok) ((s.notifyTargetRing c target .inbox ok).setCall c .idle)
  | notifyCoro (c : σ ⊕ τ) (target : σ) (h : κ) (ok : Bool) (hidle : s.calls c = .idle)
      (hacts : s.acts c) :
      StepCase s (.notifyCoro c target h ok) (s.notifyTargetRing c target (.coro h) ok)
  | complete (n : ℕ) (origin : Option σ) (sqe : Sqe σ κ) (result : IoResult) (more : Bool)
      (hentry : s.inFlight[n]? = some (origin, sqe)) :
      StepCase s (.complete n result more)
        { s.completeEntry origin sqe result with inFlight := s.inFlight.eraseIdx n }
  | completeMore (n : ℕ) (origin : Option σ) (sqe : Sqe σ κ) (result : IoResult)
      (hentry : s.inFlight[n]? = some (origin, sqe))
      (hsqe : ∀ target data, sqe ≠ .msgRing target data) :
      StepCase s (.complete n result true) (s.completeEntry origin sqe result)
  | stop : StepCase s .stop { s with isRunning := false }

/-- The inversion of a step. -/
theorem StepCase.of_step {op : WorkersOp σ τ κ} (h : s.step op = some t) : StepCase s op t := by
  cases op with
  | worker i op =>
    simp only [step] at h
    split at h
    · obtain ⟨w, hw, rfl⟩ := Option.map_eq_some_iff.mp h
      exact .worker _ _ _ ‹_› (.of_step hw)
    · simp at h
  | submit i ok =>
    simp only [step] at h
    split at h
    · obtain rfl := Option.some.inj h
      cases ok with
      | true => exact .submit _ ‹_›
      | false =>
        simp only [IoEngine.submit, Bool.false_eq_true, if_false, List.map_nil, List.append_nil]
        exact .submitFails _ ‹_›
    · simp at h
  | push c target task =>
    simp only [step] at h
    split at h
    · rename_i hidle
      rw [Option.ite_none_right_eq_some] at h
      obtain ⟨hacts, h⟩ := h
      obtain rfl := Option.some.inj h
      cases hpush : (s.workers target).inbox.push task with
      | mk pushed inbox =>
        cases pushed with
        | true => exact .push _ _ _ _ hidle hacts hpush
        | false =>
          have hsame := inbox_of_push_false hpush
          have hcalls : Function.update s.calls c .idle = s.calls := by
            rw [← hidle, Function.update_eq_self]
          simp only [hsame, setWorker, setCall, Bool.false_eq_true, if_false,
            Function.update_eq_self, hcalls]
          exact .pushFull _ _ _
    · simp at h
  | ringFd c =>
    simp only [step] at h
    split at h
    · obtain rfl := Option.some.inj h
      split_ifs with hinit
      · exact .ringFd _ _ ‹_›
      · exact .noRing _ _ ‹_› (by simpa using hinit)
    · simp at h
  | notifyInbox c ok =>
    simp only [step] at h
    split at h
    · exact Option.some.inj h ▸ .notifyInbox _ _ _ ‹_›
    · simp at h
  | notifyCoro c target handle ok =>
    simp only [step] at h
    split at h
    · split_ifs at h with hacts
      exact Option.some.inj h ▸ .notifyCoro _ _ _ _ ‹_› hacts.1
    · simp at h
  | complete n result more =>
    simp only [step] at h
    split at h
    · rename_i origin sqe hentry
      have hflight := (completeEntry_posted s origin sqe result).2.1
      split at h
      · obtain rfl := Option.some.inj h
        rw [hflight]
        exact .complete _ _ _ _ _ hentry
      · obtain rfl := Option.some.inj h
        rw [hflight]
        exact .complete _ _ _ _ _ hentry
      · rename_i hsqe
        obtain rfl := Option.some.inj h
        exact .completeMore _ _ _ _ hentry fun target data heq => hsqe target data heq
    · simp at h
  | stop => exact Option.some.inj h ▸ .stop

end Workers

/-! ## What holds of every runtime -/

namespace Worker

variable {σ κ : Type*} {w w' : Worker σ κ} {running : Bool} {op : WorkerOp κ}

/-- A thread that has left the start of `run` has a ring of one of the depths that `init` tries. -/
structure HasRing (w : Worker σ κ) : Prop where
  initialized : w.pc ≠ .created → w.engine.initialized = true
  depth : w.pc ≠ .created → w.engine.depth ∈ [4096, 1024, 256]

/-- A ring is as deep as it was. -/
theorem HasRing.congr (h : HasRing w) (hpc : w.pc ≠ .created)
    (hinit : w'.engine.initialized = w.engine.initialized)
    (hdepth : w'.engine.depth = w.engine.depth) : HasRing w' :=
  ⟨fun _ => hinit ▸ h.initialized hpc, fun _ => hdepth ▸ h.depth hpc⟩

/-- User code runs after the start. -/
theorem ne_created_of_user (h : w.pc.user = true) : w.pc ≠ .created := by
  rintro heq
  simp [heq, LoopPc.user] at h

/-- A step keeps the ring. -/
theorem HasRing.step (h : HasRing w) (hstep : StepCase running w op w') : HasRing w' := by
  cases hstep with
  | init hpc hdepth => exact ⟨fun _ => rfl, fun _ => initDepth_mem hdepth⟩
  | tick hpc ht hwheel => exact h.congr (by simp [hpc]) (by simp) (by simp)
  | popTask polled task inbox hpc hpop => exact h.congr (by simp [hpc]) (by simp) (by simp)
  | poll cqe cqes hpc hcqes => exact h.congr (by simp [hpc]) (by simp) (by simp)
  | schedule huser => exact h.congr (ne_created_of_user huser) rfl rfl
  | sleepFor huser hnode => exact h.congr (ne_created_of_user huser) rfl rfl
  | call huser hcall =>
    obtain ⟨sqe, hprepared, -⟩ := IoEngine.prepared_of_call hcall
    exact h.congr (ne_created_of_user huser) hprepared.initialized hprepared.depth
  | callNull huser hcall => exact h.congr (ne_created_of_user huser) rfl rfl
  | await huser => exact h.congr (ne_created_of_user huser) rfl rfl
  | cancel huser => exact h.congr (ne_created_of_user huser) rfl rfl
  | _ hpc => exact h.congr (by simp [hpc]) rfl rfl

end Worker

namespace Workers

variable {σ τ κ : Type*} [DecidableEq σ] {s t : Workers σ τ κ}

/-- Every worker that has started has a ring, and runs user code while it is in a call of
`dispatch_on`. -/
structure Sound (s : Workers σ τ κ) : Prop where
  rings : ∀ i, (s.workers i).HasRing
  inCall : ∀ i, s.calls (.inl i) ≠ .idle → (s.workers i).pc.user = true

omit [DecidableEq σ] in
/-- The ring of a worker that runs user code has entries. -/
theorem Sound.depth_pos (h : Sound s) {i : σ} (huser : (s.workers i).pc.user = true) :
    0 < (s.workers i).engine.depth := by
  have hdepth := (h.rings i).depth (Worker.ne_created_of_user huser)
  simp only [List.mem_cons, List.not_mem_nil, or_false] at hdepth
  omega

/-- What holds of every worker, and of one that changes, holds of every worker after the change. -/
theorem forall_setWorker {P : Worker σ κ → Prop} {i : σ} {w : Worker σ κ}
    (h : ∀ j, P (s.workers j)) (hw : P w) (j : σ) : P ((s.setWorker i w).workers j) := by
  rcases eq_or_ne j i with rfl | hne
  · rwa [setWorker_self]
  · rw [setWorker_of_ne s w hne]
    exact h j

/-- `notify_target_ring` changes the ring of the caller alone, and its place only where it writes
through a null pointer. -/
theorem notifyTargetRing_frame (s : Workers σ τ κ) (c : σ ⊕ τ) (target : σ) (data : UserData κ)
    (ok : Bool) :
    (s.notifyTargetRing c target data ok).calls = s.calls ∧
      (s.notifyTargetRing c target data ok).isRunning = s.isRunning ∧
      ∀ j, let w := s.workers j
        let w' := (s.notifyTargetRing c target data ok).workers j
        (w'.pc = w.pc ∨ c = .inl j ∧ w'.pc = .crashed) ∧ w'.queue = w.queue ∧
          w'.inbox = w.inbox ∧ w'.wheel = w.wheel ∧ w'.lastTickTime = w.lastTickTime ∧
          w'.engine.initialized = w.engine.initialized ∧ w'.engine.depth = w.engine.depth ∧
          w'.engine.cqes = w.engine.cqes ∧ w'.engine.contexts = w.engine.contexts := by
  obtain ⟨i, rfl, ⟨sqes, submitted, -, hs⟩ | ⟨-, hs⟩⟩ | ⟨x, rfl, hs⟩ :=
    notifyTargetRing_cases s c target data ok
  · rw [hs]
    refine ⟨rfl, rfl, fun j => ?_⟩
    rcases eq_or_ne j i with rfl | hne
    · simp
    · simp [setWorker_of_ne s _ hne]
  · rw [hs]
    refine ⟨rfl, rfl, fun j => ?_⟩
    rcases eq_or_ne j i with rfl | hne
    · simp
    · simp [setWorker_of_ne s _ hne]
  · rw [hs]
    simp

/-- A worker that is in no call of `dispatch_on` changes. -/
theorem Sound.setWorker (h : Sound s) {i : σ} {w : Worker σ κ} (hring : w.HasRing)
    (hcall : (s.workers i).pc.user = true → s.calls (.inl i) ≠ .idle → w.pc.user = true) :
    Sound (s.setWorker i w) := by
  refine ⟨forall_setWorker h.rings hring, fun j hj => ?_⟩
  rcases eq_or_ne j i with rfl | hne
  · rw [setWorker_self]
    exact hcall (h.inCall j hj) hj
  · rw [setWorker_of_ne s w hne]
    exact h.inCall j hj

/-- The kernel posts completions. -/
theorem Sound.completeEntry (h : Sound s) (origin : Option σ) (sqe : Sqe σ κ) (result : IoResult) :
    Sound (s.completeEntry origin sqe result) := by
  obtain ⟨-, -, hcalls, hposted⟩ := completeEntry_posted s origin sqe result
  refine ⟨fun j => ⟨fun hpc => ?_, fun hpc => ?_⟩, fun j hj => ?_⟩
  · rw [(hposted j).pc] at hpc
    rw [(hposted j).engine]
    exact (h.rings j).initialized hpc
  · rw [(hposted j).pc] at hpc
    rw [(hposted j).engine]
    exact (h.rings j).depth hpc
  · rw [hcalls] at hj
    rw [(hposted j).pc]
    exact h.inCall j hj

variable [DecidableEq τ]

/-- A call of `dispatch_on` goes on or returns. -/
theorem Sound.setCall (h : Sound s) (c : σ ⊕ τ) {pc : DispatchPc σ}
    (hacts : pc ≠ .idle → s.acts c = true) : Sound (s.setCall c pc) := by
  refine ⟨h.rings, fun i hi => ?_⟩
  rcases eq_or_ne (.inl i) c with rfl | hne
  · have hcall : (s.setCall (.inl i) pc).calls (.inl i) = pc := Function.update_self _ _ _
    rw [hcall] at hi
    exact hacts hi
  · have hcall : (s.setCall c pc).calls (.inl i) = s.calls (.inl i) :=
      Function.update_of_ne hne _ _
    rw [hcall] at hi
    exact h.inCall i hi

omit [DecidableEq σ] [DecidableEq τ] in
/-- The caller of `dispatch_on` runs user code. -/
theorem Sound.acts (h : Sound s) {c : σ ⊕ τ} (hc : s.calls c ≠ .idle) : s.acts c = true := by
  cases c with
  | inl i => exact h.inCall i hc
  | inr x => rfl

/-- A thread that runs user code sends a message. -/
theorem Sound.notifyTargetRing (h : Sound s) {c : σ ⊕ τ} (hacts : s.acts c = true) (target : σ)
    (data : UserData κ) (ok : Bool) :
    Sound ((s.notifyTargetRing c target data ok).setCall c .idle) := by
  obtain ⟨hcalls, -, hframe⟩ := notifyTargetRing_frame s c target data ok
  refine ⟨fun j => ?_, fun j hj => ?_⟩
  · obtain ⟨hpc, -, -, -, -, hinit, hdepth, -, -⟩ := hframe j
    by_cases hcreated : (s.workers j).pc = .created
    · have hsame : ((s.notifyTargetRing c target data ok).workers j).pc = .created := by
        rcases hpc with hpc | ⟨rfl, -⟩
        · exact hpc.trans hcreated
        · have huser : (s.workers j).pc.user = true := hacts
          exact (Worker.ne_created_of_user huser hcreated).elim
      exact ⟨fun hne => (hne hsame).elim, fun hne => (hne hsame).elim⟩
    · exact (h.rings j).congr hcreated hinit hdepth
  · have hne : (.inl j) ≠ c := by
      rintro rfl
      exact hj (Function.update_self _ _ _)
    have hcall : ((s.notifyTargetRing c target data ok).setCall c .idle).calls (.inl j) =
        s.calls (.inl j) := (Function.update_of_ne hne _ _).trans (congrFun hcalls _)
    rw [hcall] at hj
    obtain ⟨hpc, -⟩ := hframe j
    show ((s.notifyTargetRing c target data ok).workers j).pc.user = true
    rw [hpc.resolve_right fun hc => hne hc.1.symm]
    exact h.inCall j hj

/-- The step lemma: a runtime stays sound. -/
theorem Sound.step (h : Sound s) {op : WorkersOp σ τ κ} (hstep : StepCase s op t) : Sound t := by
  cases hstep with
  | worker i op w hidle hw =>
    exact h.setWorker ((h.rings i).step hw) fun _ hcall => (hcall hidle).elim
  | submit i hpc =>
    have hring : Worker.HasRing { s.workers i with
        engine := { (s.workers i).engine with sqes := [] }, pc := .plan } :=
      (h.rings i).congr (by simp [hpc]) rfl rfl
    have hsound := h.setWorker (i := i) hring fun huser => by simp [hpc, LoopPc.user] at huser
    exact ⟨hsound.rings, hsound.inCall⟩
  | submitFails i hpc =>
    exact h.setWorker ((h.rings i).congr (by simp [hpc]) rfl rfl) fun huser => by
      simp [hpc, LoopPc.user] at huser
  | push c target task inbox hidle hacts hpush =>
    have hring : Worker.HasRing { s.workers target with inbox := inbox } :=
      ⟨(h.rings target).initialized, (h.rings target).depth⟩
    refine (h.setWorker hring fun huser _ => huser).setCall c fun _ => ?_
    cases c with
    | inl i =>
      show ((s.setWorker target _).workers i).pc.user = true
      rcases eq_or_ne i target with rfl | hne
      · rw [setWorker_self]
        exact hacts
      · rw [setWorker_of_ne s _ hne]
        exact hacts
    | inr x => rfl
  | pushFull => exact h
  | ringFd c target hcall => exact h.setCall c fun _ => h.acts (by simp [hcall])
  | noRing c target hcall hinit => exact h.setCall c fun hne => (hne rfl).elim
  | notifyInbox c target ok hcall => exact h.notifyTargetRing (h.acts (by simp [hcall])) _ _ _
  | notifyCoro c target k ok hidle hacts =>
    have hsound := h.notifyTargetRing hacts target (.coro k) ok
    obtain ⟨hcalls, -⟩ := notifyTargetRing_frame s c target (.coro k) ok
    have hsame : Function.update (s.notifyTargetRing c target (.coro k) ok).calls c .idle =
        (s.notifyTargetRing c target (.coro k) ok).calls := by
      rw [hcalls, ← hidle, Function.update_eq_self]
    rw [Workers.setCall, hsame] at hsound
    exact hsound
  | complete n origin sqe result more hentry =>
    have hsound := h.completeEntry origin sqe result
    exact ⟨hsound.rings, hsound.inCall⟩
  | completeMore n origin sqe result hentry hsqe => exact h.completeEntry origin sqe result
  | stop => exact ⟨h.rings, h.inCall⟩

omit [DecidableEq σ] [DecidableEq τ] in
/-- A new runtime is sound. -/
theorem new_sound (buffer : ℕ → Option κ) (expiresAt : ℕ → UInt64) (handle : ℕ → κ) :
    Sound (new buffer expiresAt handle : Workers σ τ κ) :=
  ⟨fun _ => ⟨fun hne => (hne rfl).elim, fun hne => (hne rfl).elim⟩, fun _ hne => (hne rfl).elim⟩

end Workers

end Novaio
