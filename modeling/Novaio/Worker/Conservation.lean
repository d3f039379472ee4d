import Mathlib.Algebra.Order.BigOperators.Group.Finset
import Mathlib.Data.Set.List
import Novaio.Lib.Path
import Novaio.Worker.Copies

/-!
# The handles of a runtime

Over all workers, the entries that the kernel has, and the messages between the rings,
`Workers.copies` counts the places from which a handle is going to be resumed. Only user code makes
a copy, and only the loops take one, so that over a run each handle is resumed at most as often as
it was placed (`taken_le_placed`), and none is lost where no step loses one
(`placed_eq_taken`).
-/

namespace Novaio

open Transition

namespace Workers

variable {σ τ κ : Type*}

/-- The handles that a step places. -/
def placed : WorkersOp σ τ κ → List κ
  | .worker _ op => Worker.placed op
  | .push _ _ task => task.coro.toList
  | .notifyCoro _ _ k _ => [k]
  | _ => []

/-- The handles that the loops take from their batches in a step. -/
def taken (s : Workers σ τ κ) : WorkersOp σ τ κ → List κ
  | .worker i op => (s.workers i).taken op
  | _ => []

/-- The message of an entry that is in flight carries no context. -/
def Messages (s : Workers σ τ κ) : Prop :=
  ∀ origin target data, (origin, .msgRing target data) ∈ s.inFlight → data.ctx = none

variable [DecidableEq σ]

/-- The contexts of the operations that the kernel has from the ring of a worker. -/
def flight (s : Workers σ τ κ) (i : σ) : List ℕ :=
  s.inFlight.filterMap fun entry => if entry.1 = some i then entry.2.ctx else none

/-- What every runtime in use has. -/
structure Regular (s : Workers σ τ κ) : Prop where
  workers : ∀ i, (s.workers i).Regular (s.flight i)
  messages : s.Messages

/-- What the code relies on in a step: the run queue of a worker has room for what the step
schedules, a new context is at an address that no operation under way has, and a direct operation
completes once. -/
def Orderly (s : Workers σ τ κ) : WorkersOp σ τ κ → Prop
  | .worker i op => (s.workers i).Orderly (s.flight i) op
  | .complete n _ true => ∀ entry, s.inFlight[n]? = some entry → entry.2.ctx = none
  | _ => True

/-- The part of it that is not about the run queues. -/
def Fresh (s : Workers σ τ κ) : WorkersOp σ τ κ → Prop
  | .worker i (.call call) =>
    ∀ ctx, call.ctx = some ctx → ctx ∉ (s.workers i).engine.ctxs ++ s.flight i
  | .complete n _ true => ∀ entry, s.inFlight[n]? = some entry → entry.2.ctx = none
  | _ => True

/-- The step loses no handle: neither an inbox nor a submission queue is full, a coroutine awaits an
operation that is under way, alone, and no operation is cancelled that a coroutine awaits. -/
def Lossless (s : Workers σ τ κ) : WorkersOp σ τ κ → Prop
  | .worker i op => (s.workers i).Lossless (s.flight i) op
  | .push _ target task => task.coro = none ∨ ((s.workers target).inbox.push task).1 = true
  | .notifyInbox (.inl i) ok | .notifyCoro (.inl i) _ _ ok =>
    0 < (s.workers i).engine.depth ∧
      ((s.workers i).engine.sqes.length < (s.workers i).engine.depth ∨ ok = true)
  | _ => True

/-- The number of copies of a handle in a runtime. -/
noncomputable def copies [Fintype σ] [DecidableEq κ] (s : Workers σ τ κ) (k : κ) : ℕ :=
  ∑ i, (s.workers i).copies (s.flight i) k +
    (s.inFlight.filterMap fun entry => entry.2.carried).count k

/-- What a step does to the copies of every handle: no step makes one, and a lossless one loses
none. -/
structure Conserves [Fintype σ] [DecidableEq κ] (s : Workers σ τ κ) (op : WorkersOp σ τ κ)
    (t : Workers σ τ κ) : Prop where
  regular : Regular t
  le : ∀ k, t.copies k + (s.taken op).count k ≤ s.copies k + (placed op).count k
  eq : s.Lossless op → ∀ k,
    t.copies k + (s.taken op).count k = s.copies k + (placed op).count k

variable {s t : Workers σ τ κ} [Fintype σ] [DecidableEq κ]

omit [DecidableEq κ] [Fintype σ] in
/-- A worker changes, and nothing else. -/
@[simp]
theorem setWorker_flight (s : Workers σ τ κ) (i : σ) (w : Worker σ κ) :
    (s.setWorker i w).flight = s.flight := rfl

/-- The copies after one worker has changed. -/
theorem copies_setWorker (s : Workers σ τ κ) (i : σ) (w : Worker σ κ) (k : κ) :
    (s.setWorker i w).copies k + (s.workers i).copies (s.flight i) k =
      s.copies k + w.copies (s.flight i) k := by
  have hsum := Tally.sum_of_eq_off (i := i)
    (f := fun j => ((s.setWorker i w).workers j).copies (s.flight j) k)
    (g := fun j => (s.workers j).copies (s.flight j) k) fun j hne => by
      rw [setWorker_of_ne s w hne]
  simp only [setWorker_self] at hsum
  unfold copies
  simp only [setWorker_flight]
  have hsame : (s.setWorker i w).inFlight = s.inFlight := rfl
  rw [hsame]
  omega

/-- The copies after one worker and what is in flight have changed. -/
theorem copies_of_eq_off {i : σ}
    (h : ∀ j, j ≠ i → (t.workers j).copies (t.flight j) = (s.workers j).copies (s.flight j))
    (k : κ) :
    t.copies k + (s.workers i).copies (s.flight i) k +
        (s.inFlight.filterMap fun entry => entry.2.carried).count k =
      s.copies k + (t.workers i).copies (t.flight i) k +
        (t.inFlight.filterMap fun entry => entry.2.carried).count k := by
  have hsum := Tally.sum_of_eq_off (i := i) (f := fun j => (t.workers j).copies (t.flight j) k)
    (g := fun j => (s.workers j).copies (s.flight j) k) fun j hne => by rw [h j hne]
  unfold copies
  omega

omit [DecidableEq κ] [Fintype σ] in
/-- The entries of a worker are submitted. -/
theorem flight_append (s : Workers σ τ κ) (i : σ) (sqes : List (Sqe σ κ)) (j : σ) :
    flight { s with inFlight := s.inFlight ++ sqes.map fun sqe => (some i, sqe) } j =
      s.flight j ++ if j = i then sqes.filterMap Sqe.ctx else [] := by
  unfold flight
  rw [List.filterMap_append, List.filterMap_map]
  congr 1
  rcases eq_or_ne j i with rfl | hne
  · simp
  · simp [hne.symm, hne]

/-! ## The steps -/

variable [DecidableEq τ] {op : WorkersOp σ τ κ}

omit [DecidableEq τ] in
/-- A step after which the copies are those taken and those placed. -/
theorem conserves_of_eq (hregular : Regular t)
    (h : ∀ k, t.copies k + (s.taken op).count k = s.copies k + (placed op).count k) :
    Conserves s op t :=
  ⟨hregular, fun k => (h k).le, fun _ => h⟩

omit [DecidableEq τ] in
/-- A worker changes, and sends entries to the kernel. -/
theorem Regular.send (h : Regular s) {i : σ} {w : Worker σ κ} {submitted : List (Sqe σ κ)}
    (hw : w.Regular (s.flight i ++ submitted.filterMap Sqe.ctx))
    (hmessages : ∀ target data, .msgRing target data ∈ submitted → data.ctx = none)
    (hworkers : t.workers = Function.update s.workers i w)
    (hinFlight : t.inFlight = s.inFlight ++ submitted.map fun sqe => (some i, sqe)) :
    Regular t ∧ ∀ k, t.copies k + (s.workers i).copies (s.flight i) k =
      s.copies k + w.copies (s.flight i ++ submitted.filterMap Sqe.ctx) k +
        (submitted.filterMap Sqe.carried).count k := by
  have hflight (j : σ) : t.flight j =
      s.flight j ++ if j = i then submitted.filterMap Sqe.ctx else [] := by
    rw [← flight_append, flight, flight, hinFlight]
  have hself : t.flight i = s.flight i ++ submitted.filterMap Sqe.ctx := by
    rw [hflight i, if_pos rfl]
  have hother : ∀ j, j ≠ i → t.flight j = s.flight j := fun j hne => by
    rw [hflight j, if_neg hne, List.append_nil]
  have hworker : t.workers i = w := by rw [hworkers, Function.update_self]
  have hothers : ∀ j, j ≠ i → t.workers j = s.workers j := fun j hne => by
    rw [hworkers, Function.update_of_ne hne]
  refine ⟨⟨fun j => ?_, fun origin target data hmem => ?_⟩, fun k => ?_⟩
  · rcases eq_or_ne j i with rfl | hne
    · rwa [hworker, hself]
    · rw [hothers j hne, hother j hne]
      exact h.workers j
  · rw [hinFlight] at hmem
    rcases List.mem_append.mp hmem with hmem | hmem
    · exact h.messages origin target data hmem
    · obtain ⟨sqe, hsqe, heq⟩ := List.mem_map.mp hmem
      obtain ⟨-, rfl⟩ := Prod.mk.inj heq
      exact hmessages target data hsqe
  · have hall := copies_of_eq_off (s := s) (t := t) (i := i) (fun j hne => by
      rw [hothers j hne, hother j hne]) k
    have hcarried : (t.inFlight.filterMap fun entry => entry.2.carried).count k =
        (s.inFlight.filterMap fun entry => entry.2.carried).count k +
          (submitted.filterMap Sqe.carried).count k := by
      rw [hinFlight, List.filterMap_append, List.count_append, List.filterMap_map]
      rfl
    rw [hworker, hself] at hall
    omega

omit [DecidableEq τ] in
/-- Neither a worker nor what is in flight changes. -/
theorem Regular.congr (h : Regular s) (hworkers : t.workers = s.workers)
    (hinFlight : t.inFlight = s.inFlight) : Regular t ∧ ∀ k, t.copies k = s.copies k := by
  have hflight : t.flight = s.flight := by
    funext i
    rw [flight, flight, hinFlight]
  refine ⟨⟨fun i => ?_, fun origin target data hmem => ?_⟩, fun k => ?_⟩
  · rw [hworkers, hflight]
    exact h.workers i
  · rw [hinFlight] at hmem
    exact h.messages origin target data hmem
  · rw [copies, copies, hworkers, hflight, hinFlight]

omit [Fintype σ] [DecidableEq κ] [DecidableEq τ] in
/-- A worker changes, with the same handles, or fewer. -/
theorem Regular.setWorker (h : Regular s) {i : σ} {w : Worker σ κ}
    (hw : w.Regular (s.flight i)) : Regular (s.setWorker i w) := by
  refine ⟨fun j => ?_, h.messages⟩
  rcases eq_or_ne j i with rfl | hne
  · rwa [setWorker_self]
  · rw [setWorker_of_ne s w hne]
    exact h.workers j

omit [DecidableEq τ] in
/-- A message is sent. -/
theorem Regular.notifyTargetRing (h : Regular s) (c : σ ⊕ τ) (target : σ) (data : UserData κ)
    (hdata : data.ctx = none) (ok : Bool) :
    Regular (s.notifyTargetRing c target data ok) ∧ ∀ k,
      (s.notifyTargetRing c target data ok).copies k ≤
        s.copies k + data.carried.toList.count k ∧
      ((∀ i, c = .inl i → 0 < (s.workers i).engine.depth ∧
          ((s.workers i).engine.sqes.length < (s.workers i).engine.depth ∨ ok = true)) →
        (s.notifyTargetRing c target data ok).copies k =
          s.copies k + data.carried.toList.count k) := by
  have hcarried : [(.msgRing target data : Sqe σ κ)].filterMap Sqe.carried =
      data.carried.toList := by
    cases hc : data.carried <;> simp [Sqe.carried, hc]
  obtain ⟨i, rfl, ⟨sqes, submitted, hsqes, hs⟩ | ⟨hnone, hs⟩⟩ | ⟨x, rfl, hs⟩ :=
    notifyTargetRing_cases s c target data ok
  · -- The message is prepared, behind what was prepared or in an empty queue.
    have hall : sqes ++ submitted = (s.workers i).engine.sqes := by
      rcases hsqes with ⟨rfl, rfl⟩ | ⟨rfl, rfl⟩
      · exact List.append_nil _
      · rfl
    have hmessages : ∀ target data, .msgRing target data ∈ sqes ++ submitted → data.ctx = none :=
      fun target data hmem => (h.workers i).messages target data (hall ▸ hmem)
    have hctxs : ((sqes ++ [(.msgRing target data : Sqe σ κ)]).filterMap Sqe.ctx ++
        submitted.filterMap Sqe.ctx).Perm ((s.workers i).engine.sqes.filterMap Sqe.ctx) := by
      rw [← hall, List.filterMap_append, List.filterMap_append, List.filterMap_cons]
      simp [Sqe.ctx, Sqe.userData, UserData.ctx]
    obtain ⟨w, hw⟩ : ∃ w : Worker σ κ, w = { s.workers i with
        engine := { (s.workers i).engine with sqes := sqes ++ [.msgRing target data] } } := ⟨_, rfl⟩
    have hprepares : ∀ target' data', .msgRing target' data' ∈ sqes ++ [.msgRing target data] →
        data'.ctx = none := by
      intro target' data' hmem
      rcases List.mem_append.mp hmem with hmem | hmem
      · exact hmessages target' data' (List.mem_append_left _ hmem)
      · exact (Sqe.msgRing.inj (List.mem_singleton.mp hmem)).2 ▸ hdata
    obtain ⟨hprepared, hcopies⟩ := (h.workers i).setSqes submitted hw hctxs hprepares
    obtain ⟨hregular, hsent⟩ := h.send (t := s.notifyTargetRing (.inl i) target data ok) hprepared
      (fun target data hmem => hmessages target data (List.mem_append_right _ hmem))
      (by rw [hs, hw]; rfl) (by rw [hs])
    refine ⟨hregular, fun k => ?_⟩
    have hk := hcopies k
    have hall' := hsent k
    rw [← hall] at hk
    simp only [List.filterMap_append, List.count_append, hcarried] at hk
    exact ⟨by omega, fun _ => by omega⟩
  · rw [hs]
    refine ⟨h.setWorker { h.workers i with }, fun k => ⟨?_, fun hlossless => ?_⟩⟩
    · have hcopies := copies_setWorker s i ((s.workers i).goto .crashed) k
      have hgoto := (s.workers i).copies_goto .crashed (s.flight i) k
      simp only [LoopPc.remaining, List.count_nil] at hgoto
      omega
    · obtain ⟨hdepth, hroom⟩ := hlossless i rfl
      obtain ⟨hfull, hok⟩ := (IoEngine.sendMsgRing_eq_none_iff _ target data ok hdepth).mp hnone
      exact absurd hroom (by simp [hok, hfull])
  · -- The message of another thread is in flight at once.
    rw [hs]
    have hflight : flight { s with inFlight := s.inFlight ++ [(none, .msgRing target data)] } =
        s.flight := by
      funext i
      simp [flight]
    refine ⟨⟨fun i => ?_, fun origin target' data' hmem => ?_⟩, fun k => ?_⟩
    · rw [hflight]
      exact h.workers i
    · rcases List.mem_append.mp hmem with hmem | hmem
      · exact h.messages origin target' data' hmem
      · obtain ⟨-, hmessage⟩ := Prod.mk.inj (List.mem_singleton.mp hmem)
        exact (Sqe.msgRing.inj hmessage).2 ▸ hdata
    · have hcopies : copies { s with inFlight := s.inFlight ++ [(none, .msgRing target data)] } k =
          s.copies k + data.carried.toList.count k := by
        unfold copies
        rw [hflight, List.filterMap_append, List.count_append, ← hcarried, ← Nat.add_assoc]
        rfl
      exact ⟨hcopies.le, fun _ => hcopies⟩

/-- The message of an entry, on the ring of its target. -/
def messageOn (j : σ) : Sqe σ κ → List (Cqe κ)
  | .msgRing target data => if j = target then [⟨data, ⟨0, 0⟩⟩] else []
  | _ => []

omit [Fintype σ] [DecidableEq κ] [DecidableEq τ] in
/-- What an entry posts on a ring: its message where it is sent to, and its own completion where it
was submitted. -/
theorem postedOn_eq (j : σ) (origin : Option σ) (sqe : Sqe σ κ) (result : IoResult) :
    postedOn j origin sqe result =
      messageOn j sqe ++ if origin = some j then [⟨sqe.userData, result⟩] else [] := by
  unfold postedOn messageOn
  cases sqe <;> cases origin <;> simp [eq_comm]

omit [Fintype σ] [DecidableEq κ] [DecidableEq τ] in
/-- The contexts that an entry posts on a ring. -/
theorem postedOn_ctx {sqe : Sqe σ κ}
    (hdata : ∀ target data, sqe = .msgRing target data → data.ctx = none) (j : σ)
    (origin : Option σ) (result : IoResult) :
    (postedOn j origin sqe result).filterMap Cqe.ctx =
      (if origin = some j then sqe.ctx else none).toList := by
  have hmessage : (messageOn j sqe).filterMap Cqe.ctx = [] := by
    cases sqe with
    | msgRing target data =>
      simp only [messageOn]
      split_ifs <;> simp [Cqe.ctx, hdata target data rfl]
    | _ => rfl
  rw [postedOn_eq, List.filterMap_append, hmessage, List.nil_append]
  split_ifs
  · cases hctx : sqe.ctx <;> simp_all [Cqe.ctx, Sqe.ctx]
  · rfl

omit [DecidableEq τ] in
/-- The coroutines that an entry posts on the rings. -/
theorem sum_postedOn_carried (origin : Option σ) (sqe : Sqe σ κ) (result : IoResult) (k : κ) :
    ∑ j, ((postedOn j origin sqe result).filterMap Cqe.carried).count k =
      sqe.carried.toList.count k := by
  -- No entry completes on its own ring with a coroutine.
  have hown : sqe.userData.carried = none := by cases sqe <;> rfl
  have hposted (j : σ) : (postedOn j origin sqe result).filterMap Cqe.carried =
      (messageOn j sqe).filterMap Cqe.carried := by
    rw [postedOn_eq, List.filterMap_append]
    split_ifs <;> simp [Cqe.carried, hown]
  simp only [hposted]
  cases sqe with
  | msgRing target data =>
    have hmessage (j : σ) :
        ((messageOn j (.msgRing target data : Sqe σ κ)).filterMap Cqe.carried).count k =
          if j = target then data.carried.toList.count k else 0 := by
      simp only [messageOn]
      split_ifs
      · cases hcarried : data.carried <;> simp [Cqe.carried, hcarried]
      · rfl
    simp only [hmessage, Finset.sum_ite_eq', Finset.mem_univ, if_true]
    rfl
  | _ => simp [messageOn, Sqe.carried]

omit [DecidableEq τ] in
/-- An entry completes on the rings, and its operation leaves the kernel, if it has a context. -/
theorem Regular.completeEntry (h : Regular s) {origin : Option σ} {sqe : Sqe σ κ}
    (hentry : (origin, sqe) ∈ s.inFlight) (result : IoResult)
    (hworkers : t.workers = (s.completeEntry origin sqe result).workers)
    (hflight : ∀ j, ((if origin = some j then sqe.ctx else none).toList ++ t.flight j).Perm
      (s.flight j)) (hmessages : t.Messages) :
    Regular t ∧ ∀ k, t.copies k + (s.inFlight.filterMap fun entry => entry.2.carried).count k =
      s.copies k + sqe.carried.toList.count k +
        (t.inFlight.filterMap fun entry => entry.2.carried).count k := by
  have hdata : ∀ target data, sqe = .msgRing target data → data.ctx = none := by
    rintro target data rfl
    exact h.messages origin target data hentry
  have hposted := (completeEntry_posted s origin sqe result).2.2.2
  have hworker (j : σ) := (h.workers j).posted (hposted j) (t.flight j)
    (by rw [postedOn_ctx hdata]; exact hflight j)
  refine ⟨⟨fun j => ?_, hmessages⟩, fun k => ?_⟩
  · rw [hworkers]
    exact (hworker j).1
  · have hsum : ∑ j, (t.workers j).copies (t.flight j) k =
        ∑ j, (s.workers j).copies (s.flight j) k + sqe.carried.toList.count k := by
      rw [← sum_postedOn_carried origin sqe result, ← Finset.sum_add_distrib]
      refine Finset.sum_congr rfl fun j _ => ?_
      rw [hworkers]
      exact (hworker j).2 k
    unfold copies
    omega

omit [Fintype σ] [DecidableEq κ] in
/-- What a push to an inbox does: nothing where the inbox is full. -/
theorem push_cases {c : σ ⊕ τ} {target : σ} {task : UniqueTask (Closure κ Unit)}
    (hstep : s.step (.push c target task) = some t) :
    (∃ inbox w, (s.workers target).inbox.push task = (true, inbox) ∧
        w = { s.workers target with inbox := inbox } ∧
        t = (s.setWorker target w).setCall c (.pushed target)) ∨
      ((s.workers target).inbox.push task).1 = false ∧ t.workers = s.workers ∧
        t.inFlight = s.inFlight := by
  simp only [step] at hstep
  split at hstep
  · obtain ⟨-, hstep⟩ := Option.ite_none_right_eq_some.mp hstep
    obtain rfl := Option.some.inj hstep
    cases hpush : (s.workers target).inbox.push task with
    | mk pushed inbox =>
      cases pushed with
      | true => exact .inl ⟨inbox, _, rfl, rfl, rfl⟩
      | false =>
        refine .inr ⟨rfl, ?_, rfl⟩
        simp [setWorker, setCall, inbox_of_push_false hpush]
  · simp at hstep

/-- A task is pushed to an inbox, or not. -/
theorem Regular.push (h : Regular s) {c : σ ⊕ τ} {target : σ} {task : UniqueTask (Closure κ Unit)}
    (hstep : s.step (.push c target task) = some t) :
    Conserves s (.push c target task) t := by
  rcases push_cases hstep with ⟨inbox, w, hpush, hw, rfl⟩ | ⟨hfull, hworkers, hinFlight⟩
  · obtain ⟨hregular, hcopies⟩ : w.Regular (s.flight target) ∧ ∀ k, w.copies (s.flight target) k =
        (s.workers target).copies (s.flight target) k + task.coro.toList.count k := by
      rw [hw]
      exact (h.workers target).push hpush
    obtain ⟨hcall, hsame⟩ := (h.setWorker hregular).congr
      (t := (s.setWorker target w).setCall c (.pushed target)) rfl rfl
    refine conserves_of_eq hcall fun k => ?_
    have hk := copies_setWorker s target w k
    rw [hcopies k] at hk
    rw [hsame k]
    simp only [taken, placed, List.count_nil, Nat.add_zero]
    omega
  · obtain ⟨hregular, hcopies⟩ := h.congr hworkers hinFlight
    refine ⟨hregular, fun k => ?_, fun hlossless k => ?_⟩
    · rw [hcopies k]
      simp only [taken, placed, List.count_nil, Nat.add_zero]
      omega
    · -- A task that is lost has no coroutine.
      have hnone : task.coro = none := hlossless.resolve_right (by simp [hfull])
      simp [hcopies k, taken, placed, hnone]

omit [DecidableEq τ] in
/-- The prepared entries of a worker are submitted. -/
theorem Regular.submit (h : Regular s) {i : σ} (hpc : (s.workers i).pc = .submit)
    (hworkers : t.workers = Function.update s.workers i { s.workers i with
      engine := { (s.workers i).engine with sqes := [] }, pc := .plan })
    (hinFlight : t.inFlight =
      s.inFlight ++ (s.workers i).engine.sqes.map fun sqe => (some i, sqe)) :
    Conserves s (.submit i true) t := by
  obtain ⟨w, hw⟩ : ∃ w : Worker σ κ, w = { s.workers i with
      engine := { (s.workers i).engine with sqes := [] } } := ⟨_, rfl⟩
  obtain ⟨hempty, hcopies⟩ := (h.workers i).setSqes (s.workers i).engine.sqes hw
    (.refl _) (by simp)
  -- The loop goes on at another place.
  have hremaining : (.plan : LoopPc κ).remaining = w.pc.remaining := by
    rw [hw, hpc]
    rfl
  have hplan := Worker.copies_goto_of_eq hremaining
    (s.flight i ++ (s.workers i).engine.sqes.filterMap Sqe.ctx)
  obtain ⟨hregular, hsent⟩ := h.send (w := w.goto .plan) { hempty with } (h.workers i).messages
    (by rw [hworkers, hw]; rfl) hinFlight
  refine conserves_of_eq hregular fun k => ?_
  have hk := hcopies k
  have hall := hsent k
  have hgoto := hplan k
  simp only [List.filterMap_nil, List.count_nil] at hk
  simp only [taken, placed, List.count_nil]
  omega

omit [DecidableEq σ] [Fintype σ] [DecidableEq κ] [DecidableEq τ] in
/-- An entry that completes leaves what is in flight. -/
theorem perm_eraseIdx {n : ℕ} {entry : Option σ × Sqe σ κ} (hentry : s.inFlight[n]? = some entry) :
    s.inFlight.Perm (entry :: s.inFlight.eraseIdx n) := by
  obtain ⟨hn, rfl⟩ := List.getElem?_eq_some_iff.mp hentry
  exact (List.getElem_cons_eraseIdx_perm hn).symm

omit [DecidableEq τ] in
/-- An entry completes, and leaves what is in flight. -/
theorem Regular.complete (h : Regular s) {n : ℕ} {origin : Option σ} {sqe : Sqe σ κ}
    {result : IoResult} {more : Bool} (hentry : s.inFlight[n]? = some (origin, sqe)) :
    Conserves s (.complete n result more)
      { s.completeEntry origin sqe result with inFlight := s.inFlight.eraseIdx n } := by
  have hperm := perm_eraseIdx hentry
  obtain ⟨hregular, hcopies⟩ := h.completeEntry
    (t := { s.completeEntry origin sqe result with inFlight := s.inFlight.eraseIdx n })
    (List.mem_of_getElem? hentry) result rfl (fun j => by
      have hflight := hperm.filterMap fun entry => if entry.1 = some j then entry.2.ctx else none
      rw [List.filterMap_cons] at hflight
      refine List.Perm.trans ?_ hflight.symm
      dsimp only
      cases (if origin = some j then sqe.ctx else none) <;> exact .refl _)
    fun origin' target data hmem => h.messages origin' target data (List.mem_of_mem_eraseIdx hmem)
  refine conserves_of_eq hregular fun k => ?_
  have hk := hcopies k
  have hcarried : (s.inFlight.filterMap fun entry => entry.2.carried).count k =
      sqe.carried.toList.count k +
        ((s.inFlight.eraseIdx n).filterMap fun entry => entry.2.carried).count k := by
    rw [(hperm.filterMap fun entry => entry.2.carried).count_eq, List.filterMap_cons]
    dsimp only
    cases sqe.carried with
    | none => simp
    | some k' =>
      simp only [List.count_cons, Option.toList_some, List.count_nil]
      omega
  simp only [taken, placed, List.count_nil] at hk ⊢
  omega

omit [DecidableEq τ] in
/-- An entry completes, with more to come. -/
theorem Regular.completeMore (h : Regular s) {n : ℕ} {origin : Option σ} {sqe : Sqe σ κ}
    {result : IoResult} (hentry : s.inFlight[n]? = some (origin, sqe))
    (hsqe : ∀ target data, sqe ≠ .msgRing target data) (hctx : sqe.ctx = none) :
    Conserves s (.complete n result true) (s.completeEntry origin sqe result) := by
  obtain ⟨-, hinFlight, -, -⟩ := completeEntry_posted s origin sqe result
  obtain ⟨hregular, hcopies⟩ := h.completeEntry
    (t := s.completeEntry origin sqe result) (List.mem_of_getElem? hentry) result rfl (fun j => by
      rw [hctx, ite_self, flight, flight, hinFlight]
      exact .refl _) fun origin' target data hmem => by
      rw [hinFlight] at hmem
      exact h.messages origin' target data hmem
  refine conserves_of_eq hregular fun k => ?_
  have hk := hcopies k
  have hcarried : sqe.carried = none := by
    cases sqe with
    | msgRing target data => exact (hsqe target data rfl).elim
    | _ => rfl
  rw [hinFlight, hcarried] at hk
  simp only [Option.toList_none, List.count_nil] at hk
  simp only [taken, placed, List.count_nil]
  omega

/-- The step lemma. -/
theorem Regular.step (h : Regular s) (horderly : s.Orderly op) (hstep : s.step op = some t) :
    Conserves s op t := by
  cases hcase : StepCase.of_step hstep with
  | worker i op w hidle hw =>
    have hconserves := (h.workers i).step horderly hw
    have hcopies := copies_setWorker s i w
    refine ⟨h.setWorker hconserves.regular, fun k => ?_, fun hlossless k => ?_⟩
    · have hk := hconserves.le k
      have hall := hcopies k
      simp only [taken, placed]
      omega
    · have hk := hconserves.eq hlossless k
      have hall := hcopies k
      simp only [taken, placed]
      omega
  | submit i hpc => exact h.submit hpc rfl rfl
  | submitFails i hpc =>
    refine conserves_of_eq (h.setWorker { h.workers i with }) fun k => ?_
    have hcopies := copies_setWorker s i ((s.workers i).goto .plan) k
    have hremaining : (.plan : LoopPc κ).remaining = (s.workers i).pc.remaining := by
      rw [hpc]
      rfl
    have hgoto := Worker.copies_goto_of_eq hremaining (s.flight i) k
    simp only [taken, placed]
    omega
  | push c target task => exact h.push hstep
  | pushFull c target task => exact h.push hstep
  | ringFd c target hcall =>
    obtain ⟨hregular, hcopies⟩ := h.congr (t := s.setCall c (.notify target)) rfl rfl
    exact conserves_of_eq hregular fun k => by rw [hcopies k]; rfl
  | noRing c target hcall hinit =>
    obtain ⟨hregular, hcopies⟩ := h.congr (t := s.setCall c .idle) rfl rfl
    exact conserves_of_eq hregular fun k => by rw [hcopies k]; rfl
  | notifyInbox c target ok hcall =>
    obtain ⟨hsent, hcopies⟩ := h.notifyTargetRing c target .inbox rfl ok
    obtain ⟨hregular, hsame⟩ := hsent.congr
      (t := (s.notifyTargetRing c target .inbox ok).setCall c .idle) rfl rfl
    refine ⟨hregular, fun k => ?_, fun hlossless k => ?_⟩
    · rw [hsame k]
      exact (hcopies k).1
    · rw [hsame k]
      refine (hcopies k).2 ?_
      rintro i rfl
      exact hlossless
  | notifyCoro c target handle ok hidle hacts =>
    obtain ⟨hregular, hcopies⟩ := h.notifyTargetRing c target (.coro handle) rfl ok
    refine ⟨hregular, fun k => (hcopies k).1, fun hlossless k => (hcopies k).2 ?_⟩
    rintro i rfl
    exact hlossless
  | complete n origin sqe result more hentry => exact h.complete hentry
  | completeMore n origin sqe result hentry hsqe =>
    exact h.completeMore hentry hsqe (horderly _ hentry)
  | stop =>
    obtain ⟨hregular, hcopies⟩ := h.congr (t := { s with isRunning := false }) rfl rfl
    exact conserves_of_eq hregular fun k => by rw [hcopies k]; rfl

omit [DecidableEq τ] in
/-- A new runtime holds no handle. -/
theorem new_regular (buffer : ℕ → Option κ) (expiresAt : ℕ → UInt64) (handle : ℕ → κ) :
    Regular (new buffer expiresAt handle : Workers σ τ κ) ∧
      ∀ k, (new buffer expiresAt handle : Workers σ τ κ).copies k = 0 := by
  obtain ⟨hregular, hcopies⟩ := Worker.new_regular (σ := σ) buffer expiresAt handle
  refine ⟨⟨fun i => hregular, by simp [Messages, new]⟩, fun k => ?_⟩
  have hflight : (new buffer expiresAt handle : Workers σ τ κ).flight = fun _ => [] := rfl
  unfold copies
  rw [hflight]
  exact Nat.add_eq_zero_iff.mpr ⟨Finset.sum_eq_zero fun i _ => hcopies k, rfl⟩

/-! ## Room in the run queues -/

omit [DecidableEq τ] in
/-- A worker has no more copies than the runtime. -/
theorem copies_le (s : Workers σ τ κ) (i : σ) (k : κ) :
    (s.workers i).copies (s.flight i) k ≤ s.copies k :=
  (Finset.single_le_sum (f := fun j => (s.workers j).copies (s.flight j) k)
    (fun _ _ => Nat.zero_le _) (Finset.mem_univ i)).trans (Nat.le_add_right _ _)

omit [DecidableEq τ] in
/-- While the runtime holds no handle twice, and only those of `C`, a run queue has room for what a
step schedules. -/
theorem Regular.room (h : Regular s) {C : Finset κ} (hC : C.card ≤ 65536) (i : σ) (op : WorkerOp κ)
    (hone : ∀ k, s.copies k + (Worker.placed op).count k ≤ 1)
    (hmem : ∀ k, 0 < s.copies k + (Worker.placed op).count k → k ∈ C) :
    (s.workers i).queue.localQueue.size + ((s.workers i).scheduled op).length ≤
      (s.workers i).queue.localQueue.capacity := by
  have hworker := h.workers i
  -- What is queued or scheduled is held by the runtime, or placed in the step.
  have hcount (k : κ) : (s.workers i).queue.contents.count (some k) +
      ((s.workers i).scheduled op).count k ≤ s.copies k + (Worker.placed op).count k := by
    have hcopies := copies_le s i k
    by_cases hplaced : Worker.placed op = []
    · have hscheduled := hworker.scheduled_le hplaced k
      omega
    · have hcontents : (s.workers i).queue.contents.count (some k) ≤
          (s.workers i).copies (s.flight i) k := by
        unfold Worker.copies
        omega
      have hscheduled : ((s.workers i).scheduled op).count k ≤ (Worker.placed op).count k := by
        cases op <;> simp_all [Worker.scheduled, Worker.placed]
      omega
  have hsome : ∀ x ∈ (s.workers i).queue.contents, x ∈ Set.range some := fun x hx =>
    (Option.isSome_iff_exists.mp (hworker.isSome_of_mem hx)).imp fun _ => Eq.symm
  obtain ⟨queued, hqueued⟩ : ∃ queued : List κ, queued.map some = (s.workers i).queue.contents :=
    (Set.range_list_map some).ge hsome
  have hall (k : κ) : (queued ++ (s.workers i).scheduled op).count k ≤
      s.copies k + (Worker.placed op).count k := by
    have hk := hcount k
    rw [← hqueued, List.count_map_of_injective _ _ (Option.some_injective κ)] at hk
    rw [List.count_append]
    exact hk
  have hnodup : (queued ++ (s.workers i).scheduled op).Nodup :=
    List.nodup_iff_count_le_one.mpr fun k => (hall k).trans (hone k)
  have hlength : (queued ++ (s.workers i).scheduled op).length ≤ C.card := by
    rw [← List.toFinset_card_of_nodup hnodup]
    refine Finset.card_le_card fun k hk => hmem k ?_
    have hpos := List.count_pos_iff.mpr (List.mem_toFinset.mp hk)
    have hk := hall k
    omega
  have hsize : (s.workers i).queue.localQueue.size ≤ queued.length := by
    have hlen := congrArg List.length hqueued
    rw [List.length_map, RunQueue.contents, List.length_append, LocalQueue.slots,
      Ring.length_window] at hlen
    omega
  rw [List.length_append] at hlength
  rw [hworker.capacity]
  omega

omit [Fintype σ] [DecidableEq κ] [DecidableEq τ] in
/-- A step is orderly if the run queues have room. -/
theorem Fresh.orderly (h : s.Fresh op) (hroom : ∀ i op', op = .worker i op' →
    (s.workers i).queue.localQueue.size + ((s.workers i).scheduled op').length ≤
      (s.workers i).queue.localQueue.capacity) : s.Orderly op := by
  cases op with
  | worker i op =>
    refine ⟨hroom i op rfl, fun call ctx heq hctx => ?_⟩
    subst heq
    exact h ctx hctx
  | complete n result more =>
    cases more with
    | false => trivial
    | true => exact h
  | _ => trivial

omit [Fintype σ] [DecidableEq κ] [DecidableEq τ] in
/-- A step that places a handle neither allocates a context nor completes an operation. -/
theorem fresh_of_placed (h : placed op ≠ []) : s.Fresh op := by
  cases op with
  | worker i op => cases op <;> simp_all [placed, Worker.placed, Fresh]
  | complete n result more => simp [placed] at h
  | _ => trivial

end Workers

open Workers

end Novaio
