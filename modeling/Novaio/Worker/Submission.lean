import Novaio.Lib.Path
import Novaio.Worker.Steps

/-!
# The submission queue of a worker

User code prepares operations on the ring of its scheduler, and the loop submits them only when no
coroutine is runnable. In between, a ring of `depth` entries takes `depth` operations. Six of the
functions that prepare an operation do not look at the pointer that they get for the next one.

`Occupancy` tracks by the steps alone how many entries of a ring are prepared.
`sqe_not_null_iff` says that no null pointer is written through if and only if the steps leave room
for every operation.
-/

namespace Novaio

open Transition

namespace Worker

variable {σ κ : Type*} {w w' : Worker σ κ} {running : Bool} {op : WorkerOp κ}

/-- The step lemma of one worker: a step writes through a null pointer if and only if it prepares an
operation on a full queue. -/
theorem crashed_iff (hstep : StepCase running w op w') (hpc : w.pc ≠ .crashed) :
    w'.pc = .crashed ↔ (∃ call, op = .call call) ∧ w.engine.depth ≤ w.engine.sqes.length := by
  cases hstep with
  | popTask polled task inbox hpc' hpop =>
    refine iff_of_false ?_ (by simp)
    rcases invoke_pc { w with inbox := inbox } polled task with h | h <;> rw [h]
    · exact hpc
    · simp
  | popNone hpc' hpop =>
    refine iff_of_false ?_ (by simp)
    rw [goto_pc]
    split_ifs <;> simp
  | poll cqe cqes hpc' hcqes =>
    refine iff_of_false ?_ (by simp)
    rcases handle_pc { w with engine := { w.engine with cqes := cqes } } cqe with ⟨h | h, -⟩ | h <;>
      rw [h]
    · exact hpc
    · simp
    · simp
  | call huser hcall =>
    refine iff_of_false hpc ?_
    rw [← IoEngine.call_eq_none_iff, hcall]
    simp
  | callNull huser hcall =>
    exact iff_of_true rfl ⟨⟨_, rfl⟩, (IoEngine.call_eq_none_iff _ _).mp hcall⟩
  | _ => simp [hpc]

end Worker

/-- The depth of a ring, and how many entries of it are prepared. -/
structure Occupancy where
  depth : ℕ
  prepared : ℕ

/-- The occupancy of the ring of a worker. -/
def Worker.occupancy {σ κ : Type*} (w : Worker σ κ) : Occupancy :=
  ⟨w.engine.depth, w.engine.sqes.length⟩

namespace Occupancy

variable {σ τ κ : Type*}

/-- The occupancy after a step of the worker. -/
def afterOp (o : Occupancy) : WorkerOp κ → Occupancy
  | .init tryInit _ => { o with depth := (initDepth tryInit).getD o.depth }
  | .call _ => { o with prepared := o.prepared + 1 }
  | _ => o

/-- The occupancy after `send_msg_ring`. -/
def afterMessage (o : Occupancy) : Occupancy :=
  { o with prepared := if o.prepared < o.depth then o.prepared + 1 else 1 }

/-- The occupancy of the ring of the worker `i` after a step of the runtime. -/
def after [DecidableEq σ] (i : σ) (o : Occupancy) : WorkersOp σ τ κ → Occupancy
  | .worker j op => if j = i then o.afterOp op else o
  | .submit j ok => if j = i ∧ ok then { o with prepared := 0 } else o
  | .notifyInbox (.inl j) _ | .notifyCoro (.inl j) _ _ _ => if j = i then o.afterMessage else o
  | _ => o

/-- The condition on a step that the ring of the worker `i` has room for the operation that the step
prepares, or that `send_msg_ring` can make room. -/
def HasRoom (i : σ) (o : Occupancy) : WorkersOp σ τ κ → Prop
  | .worker j (.call _) => j = i → o.prepared < o.depth
  | .notifyInbox (.inl j) ok | .notifyCoro (.inl j) _ _ ok => j = i → o.prepared < o.depth ∨ ok
  | _ => True

/-- The condition on a step of a worker concerns its own ring. -/
theorem hasRoom_worker {o : σ → Occupancy} {j : σ} {op : WorkerOp κ} :
    (∀ i, (o i).HasRoom i (.worker j op : WorkersOp σ τ κ)) ↔
      ¬ (∃ call, op = .call call) ∨ (o j).prepared < (o j).depth := by
  cases op with
  | call call =>
    refine ⟨fun h => .inr (h j rfl), ?_⟩
    rintro (h | h) i rfl
    · exact (h ⟨call, rfl⟩).elim
    · exact h
  | _ => exact iff_of_true (fun _ => trivial) (.inl (by simp))

/-- The condition on a notification concerns the ring of the caller. -/
theorem hasRoom_notifyInbox {o : σ → Occupancy} {c : σ ⊕ τ} {ok : Bool} :
    (∀ i, (o i).HasRoom i (.notifyInbox c ok : WorkersOp σ τ κ)) ↔
      ∀ i, c = .inl i → (o i).prepared < (o i).depth ∨ ok := by
  cases c with
  | inl j => simp [HasRoom]
  | inr x => simp [HasRoom]

/-- The condition on a message for a coroutine concerns the ring of the caller. -/
theorem hasRoom_notifyCoro {o : σ → Occupancy} {c : σ ⊕ τ} {target : σ} {h : κ} {ok : Bool} :
    (∀ i, (o i).HasRoom i (.notifyCoro c target h ok : WorkersOp σ τ κ)) ↔
      ∀ i, c = .inl i → (o i).prepared < (o i).depth ∨ ok := by
  cases c with
  | inl j => simp [HasRoom]
  | inr x => simp [HasRoom]

end Occupancy

/-- The steps leave room for every operation: what they track of the occupancy of the rings, which
are not set up and empty at the start, always has room. -/
def LeavesRoom {σ τ κ : Type*} [DecidableEq σ] (ops : List (WorkersOp σ τ κ)) : Prop :=
  Tracks (fun o op i => (o i).after i op) (fun (o : σ → Occupancy) op => ∀ i, (o i).HasRoom i op)
    (fun _ => ⟨0, 0⟩) ops

namespace Worker

variable {σ κ : Type*} {w w' : Worker σ κ} {running : Bool} {op : WorkerOp κ}

/-- A step changes the occupancy as its label says. -/
theorem occupancy_step (hstep : StepCase running w op w') (hpc : w'.pc ≠ .crashed) :
    w'.occupancy = w.occupancy.afterOp op := by
  cases hstep with
  | init hpc hdepth => simp [occupancy, Occupancy.afterOp, IoEngine.init, hdepth]
  | call huser hcall =>
    obtain ⟨sqe, hprepared, -⟩ := IoEngine.prepared_of_call hcall
    simp [occupancy, Occupancy.afterOp, hprepared.depth, hprepared.sqes]
  | callNull huser hcall => exact (hpc rfl).elim
  | _ => simp [occupancy, Occupancy.afterOp, IoEngine.setContext]

end Worker

namespace Workers

variable {σ τ κ : Type*} [DecidableEq σ] {s t : Workers σ τ κ}

/-- No thread has written through a null pointer. -/
def Intact (s : Workers σ τ κ) : Prop := ∀ i, (s.workers i).pc ≠ .crashed

/-- A worker changes in a runtime where no thread has written through a null pointer. -/
theorem intact_setWorker (h : Intact s) (i : σ) (w : Worker σ κ) :
    Intact (s.setWorker i w) ↔ w.pc ≠ .crashed := by
  refine ⟨fun ht => ?_, fun hw => forall_setWorker (P := fun w => w.pc ≠ .crashed) h hw⟩
  have hi := ht i
  rwa [setWorker_self] at hi

/-- What `notify_target_ring` does to the ring of a worker. -/
theorem notifyTargetRing_inl (s : Workers σ τ κ) (i target : σ) (data : UserData κ) (ok : Bool) :
    (s.notifyTargetRing (.inl i) target data ok).workers =
      (s.setWorker i (match (s.workers i).engine.sendMsgRing target data ok with
        | some (engine, _) => { s.workers i with engine := engine }
        | none => (s.workers i).goto .crashed)).workers := by
  unfold notifyTargetRing
  cases hsend : (s.workers i).engine.sendMsgRing target data ok <;> simp only [hsend]

/-- A message is sent without a write through a null pointer if and only if the caller's ring has
room for it, or its call of `io_uring_submit` makes room. -/
theorem intact_notifyTargetRing (hsound : Sound s) (h : Intact s) {c : σ ⊕ τ}
    (hacts : s.acts c = true) (target : σ) (data : UserData κ) (ok : Bool) :
    Intact (s.notifyTargetRing c target data ok) ↔
      ∀ i, c = .inl i → (s.workers i).occupancy.prepared < (s.workers i).occupancy.depth ∨ ok := by
  cases c with
  | inr x => exact iff_of_true h (by simp)
  | inl i =>
    have hnone := (s.workers i).engine.sendMsgRing_eq_none_iff target data ok
      (hsound.depth_pos hacts)
    have hroom : (∀ j, Sum.inl i = (Sum.inl j : σ ⊕ τ) →
        (s.workers j).occupancy.prepared < (s.workers j).occupancy.depth ∨ ok = true) ↔
          (s.workers i).engine.sendMsgRing target data ok ≠ none := by
      rw [Ne, hnone, not_and_or, Nat.not_le, Bool.not_eq_false]
      exact ⟨fun hj => hj i rfl, fun hi j hj => Sum.inl.inj hj ▸ hi⟩
    unfold Intact
    rw [notifyTargetRing_inl, hroom]
    refine (intact_setWorker h i _).trans ?_
    cases (s.workers i).engine.sendMsgRing target data ok with
    | none => simp
    | some r => simpa using h i

/-- The occupancies after a message is sent. -/
theorem occupancy_notifyTargetRing (c : σ ⊕ τ) (target : σ) (data : UserData κ) (ok : Bool)
    (ht : Intact (s.notifyTargetRing c target data ok)) (i : σ) :
    ((s.notifyTargetRing c target data ok).workers i).occupancy =
      match c with
      | .inl j => if j = i then (s.workers i).occupancy.afterMessage else (s.workers i).occupancy
      | .inr _ => (s.workers i).occupancy := by
  cases c with
  | inr x => rfl
  | inl j =>
    have hj := ht j
    rw [notifyTargetRing_inl] at hj ⊢
    rcases eq_or_ne j i with rfl | hne
    · rw [setWorker_self] at hj ⊢
      cases hsend : (s.workers j).engine.sendMsgRing target data ok with
      | none => simp [hsend] at hj
      | some r =>
        obtain ⟨engine, submitted⟩ := r
        rcases IoEngine.sendMsgRing_cases hsend with ⟨hroom, rfl, rfl⟩ | ⟨hroom, rfl, rfl⟩
        · simp [Worker.occupancy, Occupancy.afterMessage, hroom]
        · simp [Worker.occupancy, Occupancy.afterMessage, Nat.not_lt.mpr hroom]
    · rw [setWorker_of_ne s _ hne.symm]
      simp [hne]

variable [DecidableEq τ]

/-- The step lemma: no thread writes through a null pointer in a step if and only if the rings have
room. -/
theorem intact_step_iff (hsound : Sound s) (h : Intact s) {op : WorkersOp σ τ κ}
    (hstep : StepCase s op t) : Intact t ↔ ∀ i, (s.workers i).occupancy.HasRoom i op := by
  cases hstep with
  | worker i op w hidle hw =>
    rw [intact_setWorker h, Ne, Worker.crashed_iff hw (h i), not_and_or, Nat.not_le,
      Occupancy.hasRoom_worker]
    rfl
  | submit i hpc => exact iff_of_true ((intact_setWorker h i _).mpr (by simp)) fun _ => trivial
  | submitFails i hpc => exact iff_of_true ((intact_setWorker h i _).mpr (by simp)) fun _ => trivial
  | push c target task inbox hidle hacts hpush =>
    exact iff_of_true ((intact_setWorker h target _).mpr (h target)) fun _ => trivial
  | notifyInbox c target ok hcall =>
    rw [Occupancy.hasRoom_notifyInbox]
    exact intact_notifyTargetRing hsound h (hsound.acts (by simp [hcall])) _ _ _
  | notifyCoro c target k ok hidle hacts =>
    rw [Occupancy.hasRoom_notifyCoro]
    exact intact_notifyTargetRing hsound h hacts _ _ _
  | complete n origin sqe result more hentry =>
    refine iff_of_true (fun i => ?_) fun _ => trivial
    show ((s.completeEntry origin sqe result).workers i).pc ≠ .crashed
    rw [((completeEntry_posted s origin sqe result).2.2.2 i).pc]
    exact h i
  | completeMore n origin sqe result hentry hsqe =>
    refine iff_of_true (fun i => ?_) fun _ => trivial
    rw [((completeEntry_posted s origin sqe result).2.2.2 i).pc]
    exact h i
  | _ => exact iff_of_true h fun _ => trivial

/-- The step lemma: the labels track the occupancy of the rings. -/
theorem occupancy_step {op : WorkersOp σ τ κ} (hstep : StepCase s op t) (ht : Intact t) (i : σ) :
    (t.workers i).occupancy = (s.workers i).occupancy.after i op := by
  -- A step of a worker changes the occupancy of its own ring alone.
  have hset (j : σ) (w : Worker σ κ) : ((s.setWorker j w).workers i).occupancy =
      if j = i then w.occupancy else (s.workers i).occupancy := by
    rcases eq_or_ne j i with rfl | hne
    · rw [setWorker_self, if_pos rfl]
    · rw [setWorker_of_ne s w hne.symm, if_neg hne]
  cases hstep with
  | worker j op w hidle hw =>
    rw [hset, Occupancy.after]
    rcases eq_or_ne j i with rfl | hne
    · have hj := ht j
      rw [setWorker_self] at hj
      rw [if_pos rfl, if_pos rfl, Worker.occupancy_step hw hj]
    · rw [if_neg hne, if_neg hne]
  | submit j hpc =>
    refine (hset j _).trans ?_
    rcases eq_or_ne j i with rfl | hne
    · simp [Occupancy.after, Worker.occupancy]
    · simp [Occupancy.after, hne]
  | submitFails j hpc =>
    refine (hset j _).trans ?_
    rcases eq_or_ne j i with rfl | hne
    · simp [Occupancy.after, Worker.occupancy]
    · simp [Occupancy.after, hne]
  | push c target task inbox hidle hacts hpush =>
    refine (hset target _).trans ?_
    rcases eq_or_ne target i with rfl | hne
    · rw [if_pos rfl]
      rfl
    · rw [if_neg hne]
      rfl
  | notifyInbox c target ok hcall =>
    refine (occupancy_notifyTargetRing c target .inbox ok ht i).trans ?_
    cases c <;> rfl
  | notifyCoro c target k ok hidle hacts =>
    refine (occupancy_notifyTargetRing c target (.coro k) ok ht i).trans ?_
    cases c <;> rfl
  | complete n origin sqe result more hentry =>
    have hengine := ((completeEntry_posted s origin sqe result).2.2.2 i).engine
    show ((s.completeEntry origin sqe result).workers i).occupancy = _
    simp [Worker.occupancy, hengine, Occupancy.after]
  | completeMore n origin sqe result hentry hsqe =>
    have hengine := ((completeEntry_posted s origin sqe result).2.2.2 i).engine
    simp [Worker.occupancy, hengine, Occupancy.after]
  | _ => rfl

end Workers

variable {σ τ κ : Type*} [DecidableEq σ] [DecidableEq τ]

/-- In every run, no pointer that `io_uring_get_sqe` returned was null when it was used, if and only
if the steps leave room on every ring for every operation. -/
theorem sqe_not_null_iff {buffer : ℕ → Option κ} {expiresAt : ℕ → UInt64} {handle : ℕ → κ}
    {l : List (WorkersOp σ τ κ × Workers σ τ κ)}
    (hl : Path workersStep (Workers.new buffer expiresAt handle) l) :
    (∀ x ∈ l, ∀ i, (x.2.workers i).pc ≠ .crashed) ↔ LeavesRoom (l.map Prod.fst) := by
  refine Path.always_iff_tracks (P := Workers.Intact)
    (R := fun s o => s.Sound ∧ ∀ i, (s.workers i).occupancy = o i) ?_ ?_ ?_ ?_ hl
  · rintro s op t o ⟨hsound, ho⟩ h ⟨hstep, -⟩
    rw [Workers.intact_step_iff hsound h (.of_step hstep)]
    simp only [ho]
  · rintro s op t o ⟨hsound, ho⟩ h ⟨hstep, -⟩ ht
    refine ⟨hsound.step (.of_step hstep), fun i => ?_⟩
    rw [Workers.occupancy_step (.of_step hstep) ht, ho]
  · exact ⟨Workers.new_sound _ _ _, fun _ => rfl⟩
  · exact fun i => by simp [Workers.new, Worker.new]

/-- A task arms a multishot accept on a ring of 256 entries. -/
theorem sqe_not_null_accept :
    ∃ l : List (WorkersOp Unit Unit Unit × Workers Unit Unit Unit),
      l.map Prod.fst = [.push (.inr ()) () ⟨some (.other ())⟩,
        .worker () (.init (fun depth _ => depth = 256) 0), .worker () (.check 0),
        .worker () .pop, .worker () (.call (.acceptMultishot 3 none))] ∧
      Path workersStep (.new (fun _ => none) (fun _ => 0) (fun _ => ())) l ∧
      ∀ x ∈ l, ∀ i, (x.2.workers i).pc ≠ .crashed := by
  have hrun : ∃ l : List (WorkersOp Unit Unit Unit × Workers Unit Unit Unit),
      l.map Prod.fst = [.push (.inr ()) () ⟨some (.other ())⟩,
        .worker () (.init (fun depth _ => depth = 256) 0), .worker () (.check 0),
        .worker () .pop, .worker () (.call (.acceptMultishot 3 none))] ∧
      Path workersStep (.new (fun _ => none) (fun _ => 0) (fun _ => ())) l :=
    ⟨[(_, _), (_, _), (_, _), (_, _), (_, _)], rfl, ⟨rfl, fun c => id⟩, ⟨rfl, trivial⟩,
      ⟨rfl, trivial⟩, ⟨rfl, trivial⟩, ⟨rfl, trivial⟩, trivial⟩
  obtain ⟨l, hlabels, hl⟩ := hrun
  refine ⟨l, hlabels, hl, (sqe_not_null_iff hl).mpr ?_⟩
  rw [hlabels]
  refine ⟨fun i => trivial, fun i => trivial, fun i => trivial, fun i => trivial, fun i _ => ?_,
    trivial⟩
  show 0 < 256
  decide

/-- Calls of a worker on a queue that has room for all but the last. -/
theorem exists_crash {s : Workers σ τ κ} {i : σ} (call : IoCall) (n : ℕ)
    (hidle : s.calls (.inl i) = .idle) (huser : (s.workers i).pc.user = true)
    (hn : (s.workers i).engine.sqes.length + n = (s.workers i).engine.depth) :
    ∃ l : List (WorkersOp σ τ κ × Workers σ τ κ),
      l.map Prod.fst = List.replicate (n + 1) (.worker i (.call call)) ∧ Path workersStep s l ∧
        ((last s l).workers i).pc = .crashed := by
  induction n generalizing s with
  | zero =>
    have hnone : (s.workers i).engine.call call = none :=
      (IoEngine.call_eq_none_iff _ _).mpr (by omega)
    have hstep : s.step (.worker i (.call call)) =
        some (s.setWorker i ((s.workers i).goto .crashed)) := by
      simp [Workers.step, hidle, Worker.step, huser, hnone]
    exact ⟨[(_, _)], rfl, ⟨⟨hstep, trivial⟩, trivial⟩, by simp [last]⟩
  | succ n ih =>
    have hsome : (s.workers i).engine.call call ≠ none := by
      rw [Ne, IoEngine.call_eq_none_iff]
      omega
    obtain ⟨engine, hcall⟩ := Option.ne_none_iff_exists'.mp hsome
    obtain ⟨sqe, hprepared, -⟩ := IoEngine.prepared_of_call hcall
    have hstep : s.step (.worker i (.call call)) =
        some (s.setWorker i { s.workers i with engine := engine }) := by
      simp [Workers.step, hidle, Worker.step, huser, hcall]
    obtain ⟨l, hl, hpath, hlast⟩ := ih (s := s.setWorker i { s.workers i with engine := engine })
      hidle (by simpa using huser) (by simp [hprepared.sqes, hprepared.depth]; omega)
    exact ⟨(_, _) :: l, by rw [List.map_cons, hl]; rfl, ⟨⟨hstep, trivial⟩, hpath⟩, hlast⟩

/-- A ring of 256 entries, and a task that arms 257 multishot accepts. -/
theorem sqe_null :
    ∃ l : List (WorkersOp Unit Unit Unit × Workers Unit Unit Unit),
      l.map Prod.fst = [.push (.inr ()) () ⟨some (.other ())⟩,
        .worker () (.init (fun depth _ => depth = 256) 0), .worker () (.check 0),
        .worker () .pop] ++ List.replicate 257 (.worker () (.call (.acceptMultishot 3 none))) ∧
      Path workersStep (.new (fun _ => none) (fun _ => 0) (fun _ => ())) l ∧
      ¬ ∀ x ∈ l, ∀ i, (x.2.workers i).pc ≠ .crashed := by
  have hrun : ∃ l : List (WorkersOp Unit Unit Unit × Workers Unit Unit Unit),
      l.map Prod.fst = [.push (.inr ()) () ⟨some (.other ())⟩,
        .worker () (.init (fun depth _ => depth = 256) 0), .worker () (.check 0),
        .worker () .pop] ∧
      Path workersStep (.new (fun _ => none) (fun _ => 0) (fun _ => ())) l ∧
      ∃ s, s = last (.new (fun _ => none) (fun _ => 0) (fun _ => ())) l ∧
        s.calls (.inl ()) = .idle ∧ (s.workers ()).pc.user = true ∧
        (s.workers ()).engine.sqes.length + 256 = (s.workers ()).engine.depth := by
    refine ⟨[(_, _), (_, _), (_, _), (_, _)], rfl, ⟨⟨rfl, fun c => id⟩, ⟨rfl, trivial⟩,
      ⟨rfl, trivial⟩, ⟨rfl, trivial⟩, trivial⟩, _, rfl, rfl, rfl, rfl⟩
  obtain ⟨l, hl, hpath, s, rfl, hidle, huser, hn⟩ := hrun
  obtain ⟨m, hm, hpath', hlast⟩ := exists_crash (.acceptMultishot 3 none) 256 hidle huser hn
  rw [← last_append] at hlast
  refine ⟨l ++ m, by rw [List.map_append, hl, hm], path_append.mpr ⟨hpath, hpath'⟩, fun h => ?_⟩
  rcases last_mem (.new (fun _ => none) (fun _ => 0) (fun _ => ())) (l ++ m) with
    hnew | ⟨x, hx, hx'⟩
  · rw [hnew] at hlast
    simp [Workers.new, Worker.new] at hlast
  · exact h x hx () (hx' ▸ hlast)

end Novaio
