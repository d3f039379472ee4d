import Mathlib.Algebra.Order.BigOperators.Group.Finset
import Novaio.CoMutex.Moves
import Novaio.Lib.Tally

/-!
# The mutex under contention

`mutex_stress_worker` of `examples/comprehensive_test.cpp`, which is also `mutex_worker` of
`examples/test_framework.cpp`: workers on several schedulers increment a counter that is not atomic,
each so many times, under one mutex. An increment takes two steps, a load and a store, so that an
update would be lost if another worker's came in between.

The tests check one run, with two workers. `stress_counter` is about every run of any number of
workers: no update is lost, and whatever the workers have done, they can all come to the end.
-/

namespace Novaio

open CoMutex Transition

/-- Where a worker is in `mutex_stress_worker`. -/
inductive StressPc where
  /-- At the condition of the loop. -/
  | head
  /-- In `co_await g_stress_mutex.lock()`. -/
  | lock
  /-- In `g_stress_counter++`, before the load. -/
  | load
  /-- In `g_stress_counter++`, before the store of a value. -/
  | store (value : Int32)
  /-- In `g_stress_mutex.unlock()`. -/
  | unlock
  /-- Returned. -/
  | done

/-- A worker, with its loop variable. -/
structure StressWorker where
  pc : StressPc
  i : ℕ

/-- `g_stress_mutex`, `g_stress_counter` and the workers. -/
structure MutexStress (κ σ : Type*) where
  mutex : CoMutex κ σ
  counter : Int32
  workers : κ → StressWorker

/-- A step of a worker: of its loop, of the mutex, or of the increment. -/
inductive StressOp (κ σ : Type*) where
  | check (k : κ)
  | mutex (op : LockOp κ σ)
  | load (k : κ)
  | store (k : κ)

/-- A worker uses the mutex in `lock` and in `unlock`. -/
def StressPc.calls : StressPc → LockPhase → Bool
  | lock, .outside | lock, .locking | unlock, .holding | unlock, .unlocking => true
  | _, _ => false

/-- A worker after a step of the mutex, which may have returned to it. -/
def StressWorker.after (w : StressWorker) (phase : LockPhase) : StressWorker :=
  match w.pc, phase with
  | .lock, .holding => { w with pc := .load }
  | .unlock, .outside => { pc := .head, i := w.i + 1 }
  | _, _ => w

namespace MutexStress

variable {κ σ : Type*}

/-- The workers before their first steps. -/
def new (mem : ℕ → Awaiter κ σ) (address : κ → ℕ) : MutexStress κ σ where
  mutex := .new mem address
  counter := 0
  workers _ := ⟨.head, 0⟩

/-- All workers have returned. -/
def Finished (s : MutexStress κ σ) : Prop := ∀ k, (s.workers k).pc = .done

variable [DecidableEq κ]

/-- A worker changes. -/
def setWorker (s : MutexStress κ σ) (k : κ) (w : StressWorker) : MutexStress κ σ :=
  { s with workers := Function.update s.workers k w }

/-- A worker is at a place. -/
def goto (s : MutexStress κ σ) (k : κ) (pc : StressPc) : MutexStress κ σ :=
  s.setWorker k { s.workers k with pc := pc }

/-- The mutex takes a step of a worker. -/
def withMutex (s : MutexStress κ σ) (k : κ) (m : CoMutex κ σ) : MutexStress κ σ :=
  { s.setWorker k ((s.workers k).after (m.pc k).phase) with mutex := m }

/-- What a step does, where it is possible. -/
def step [DecidableEq σ] (iterations : κ → ℕ) (s : MutexStress κ σ) :
    StressOp κ σ → Option (MutexStress κ σ)
  | .check k =>
    match (s.workers k).pc with
    | .head => some (s.goto k (if (s.workers k).i < iterations k then .lock else .done))
    | _ => none
  | .mutex op =>
    if (s.workers op.coroutine).pc.calls op.phase then
      (s.mutex.step op).map (s.withMutex op.coroutine)
    else none
  | .load k =>
    match (s.workers k).pc with
    | .load => some (s.goto k (.store (s.counter + 1)))
    | _ => none
  | .store k =>
    match (s.workers k).pc with
    | .store value => some { s.goto k .unlock with counter := value }
    | _ => none

end MutexStress

/-- A coroutine calls `lock` and `unlock` on its own scheduler. -/
def LockOp.OnHome {κ σ : Type*} (home : κ → σ) : LockOp κ σ → Prop
  | .load k _ current | .select k current => current = some (home k)
  | _ => True

/-- A step of the workers, each on its scheduler. -/
def stressStep {κ σ : Type*} [DecidableEq κ] [DecidableEq σ] (home : κ → σ) (iterations : κ → ℕ)
    (s : MutexStress κ σ) (op : StressOp κ σ) (t : MutexStress κ σ) : Prop :=
  s.step iterations op = some t ∧
    match op with
    | .mutex op => op.OnHome home ∧ lockStep s.mutex op t.mutex
    | _ => True

/-! ## No update is lost -/

/-- The phases of the mutex in which a worker at a place can be. -/
def StressPc.Fits : StressPc → LockPhase → Prop
  | head, .outside | lock, .outside | lock, .locking | load, .holding | store _, .holding
  | unlock, .holding | unlock, .unlocking | done, .outside => True
  | _, _ => False

section

variable {phase : LockPhase}

/-- At the head of the loop, a coroutine is out of the mutex. -/
@[simp]
theorem StressPc.head_fits : head.Fits phase ↔ phase = .outside := by
  cases phase <;> simp [Fits]

/-- A coroutine that locks may be on its way into the mutex. -/
@[simp]
theorem StressPc.lock_fits : lock.Fits phase ↔ phase = .outside ∨ phase = .locking := by
  cases phase <;> simp [Fits]

/-- A coroutine that reads the counter holds the mutex. -/
@[simp]
theorem StressPc.load_fits : load.Fits phase ↔ phase = .holding := by
  cases phase <;> simp [Fits]

/-- A coroutine that writes the counter holds the mutex. -/
@[simp]
theorem StressPc.store_fits {value : Int32} : (store value).Fits phase ↔ phase = .holding := by
  cases phase <;> simp [Fits]

/-- A coroutine that unlocks may be on its way out of the mutex. -/
@[simp]
theorem StressPc.unlock_fits : unlock.Fits phase ↔ phase = .holding ∨ phase = .unlocking := by
  cases phase <;> simp [Fits]

/-- A coroutine that has returned is out of the mutex. -/
@[simp]
theorem StressPc.done_fits : done.Fits phase ↔ phase = .outside := by
  cases phase <;> simp [Fits]

end

/-- How often a worker has incremented the counter. -/
def StressWorker.increments (w : StressWorker) : ℕ :=
  match w.pc with
  | .unlock => w.i + 1
  | _ => w.i

/-- How often a worker goes on to increment the counter. -/
def StressWorker.InLoop (n : ℕ) (w : StressWorker) : Prop :=
  match w.pc with
  | .head => w.i ≤ n
  | .done => w.i = n
  | _ => w.i < n

/-- `lock` has returned only if the worker is with the lock. -/
theorem StressWorker.after_lock {w : StressWorker} (h : w.pc = .lock) (phase : LockPhase) :
    w.after phase = if phase = .holding then { w with pc := .load } else w := by
  unfold after
  cases phase <;> simp [h]

/-- `unlock` has returned only if the worker is outside of the mutex. -/
theorem StressWorker.after_unlock {w : StressWorker} (h : w.pc = .unlock) (phase : LockPhase) :
    w.after phase = if phase = .outside then ⟨.head, w.i + 1⟩ else w := by
  unfold after
  cases phase <;> simp [h]

/-- A worker after a step of the mutex fits to where the mutex has it, and has incremented the
counter as often as before. -/
theorem StressWorker.after_spec {w : StressWorker} {op phase : LockPhase} {n : ℕ}
    (hcalls : w.pc.calls op) (hphase : phase = op ∨ phase = op.next) (hn : w.InLoop n) :
    (w.after phase).pc.Fits phase ∧ (w.after phase).increments = w.increments ∧
      (w.after phase).InLoop n ∧ ∀ v, (w.after phase).pc ≠ .store v := by
  obtain ⟨pc, i⟩ := w
  cases pc with
  | lock =>
    have hn : i < n := hn
    cases op <;> simp only [StressPc.calls, Bool.false_eq_true] at hcalls <;>
      obtain rfl | rfl := hphase <;>
      simp [after, LockPhase.next, StressPc.Fits, increments, InLoop, hn]
  | unlock =>
    have hn : i < n := hn
    have hle : i + 1 ≤ n := hn
    cases op <;> simp only [StressPc.calls, Bool.false_eq_true] at hcalls <;>
      obtain rfl | rfl := hphase <;>
      simp [after, LockPhase.next, StressPc.Fits, increments, InLoop, hn, hle]
  | _ => simp [StressPc.calls] at hcalls

namespace MutexStress

variable {κ σ : Type*} {iterations : κ → ℕ} {s t : MutexStress κ σ} {home : κ → σ}

/-- What every run keeps: the workers are where the mutex has them, a value that is to be stored is
that of the counter incremented, and the counter has all increments. -/
structure Counted [Fintype κ] (iterations : κ → ℕ) (s : MutexStress κ σ) : Prop where
  rep : ∃ w holder, Rep s.mutex w holder
  scheduled : s.mutex.Scheduled
  fits : ∀ k, (s.workers k).pc.Fits (s.mutex.pc k).phase
  value : ∀ k v, (s.workers k).pc = .store v → v = s.counter + 1
  inLoop : ∀ k, (s.workers k).InLoop (iterations k)
  counter : s.counter = .ofNat (∑ k, (s.workers k).increments)

/-- The worker is at its new place. -/
@[simp]
theorem goto_workers_self [DecidableEq κ] (s : MutexStress κ σ) (k : κ) (pc : StressPc) :
    (s.goto k pc).workers k = { s.workers k with pc := pc } := Function.update_self ..

/-- The other workers are where they were. -/
theorem goto_workers_of_ne [DecidableEq κ] (s : MutexStress κ σ) {k k' : κ} (pc : StressPc)
    (hne : k' ≠ k) : (s.goto k pc).workers k' = s.workers k' := Function.update_of_ne hne ..

/-- A coroutine that is with the lock or in `unlock` holds it. -/
theorem holds_of_phase {pc : LockPc} (h : pc.phase = .holding ∨ pc.phase = .unlocking) :
    pc.Holds := by
  cases pc <;> simp [LockPc.phase, LockPc.Holds] at h ⊢

/-- No two workers are in the critical section. -/
theorem Counted.exclusive [Fintype κ] (h : s.Counted iterations) {k k' : κ}
    (hk : (s.mutex.pc k).phase = .holding ∨ (s.mutex.pc k).phase = .unlocking)
    (hk' : (s.mutex.pc k').phase = .holding ∨ (s.mutex.pc k').phase = .unlocking) : k = k' := by
  obtain ⟨w, holder, hrep⟩ := h.rep
  have hholder := hrep.holder_eq (holds_of_phase hk)
  have hholder' := hrep.holder_eq (holds_of_phase hk')
  exact Option.some.inj (hholder.symm.trans hholder')

section Int

variable [Fintype κ] (h : s.Counted iterations) (hmax : ∑ k, iterations k < 2 ^ 31)

include h hmax

end Int

variable [DecidableEq κ] [Fintype κ]

/-- The step of a worker keeps what has to be kept of the worker. -/
theorem Counted.change (h : s.Counted iterations) (k : κ)
    (hrep : ∃ w holder, Rep t.mutex w holder) (hscheduled : t.mutex.Scheduled)
    (hphases : ∀ k', k' ≠ k → (t.mutex.pc k').phase = (s.mutex.pc k').phase)
    (hothers : ∀ k', k' ≠ k → t.workers k' = s.workers k')
    (hfits : (t.workers k).pc.Fits (t.mutex.pc k).phase)
    (hvalue : ∀ k' v, (t.workers k').pc = .store v → v = t.counter + 1)
    (hloop : (t.workers k).InLoop (iterations k))
    {d : ℕ} (hincrements : (t.workers k).increments = (s.workers k).increments + d)
    (hcounter : t.counter = s.counter + .ofNat d) : t.Counted iterations := by
  refine ⟨hrep, hscheduled, fun k' => ?_, hvalue, fun k' => ?_, ?_⟩
  · rcases eq_or_ne k' k with rfl | hne
    · exact hfits
    · rw [hothers k' hne, hphases k' hne]
      exact h.fits k'
  · rcases eq_or_ne k' k with rfl | hne
    · exact hloop
    · rw [hothers k' hne]
      exact h.inLoop k'
  · have hsum := Tally.sum_of_eq_off (i := k) (f := fun k' => (t.workers k').increments)
      (g := fun k' => (s.workers k').increments) fun k' hne => by rw [hothers k' hne]
    have hafter : ∑ k, (t.workers k).increments = ∑ k, (s.workers k).increments + d := by omega
    rw [hcounter, h.counter, hafter, Int32.ofNat_add]

/-- A worker goes to a place outside of its critical section, or inside of it with nothing to
store. -/
theorem Counted.goto (h : s.Counted iterations) {k : κ} {pc : StressPc}
    (hfits : pc.Fits (s.mutex.pc k).phase) (hvalue : ∀ v, pc = .store v → v = s.counter + 1)
    (hloop : StressWorker.InLoop (iterations k) { s.workers k with pc := pc })
    (hincrements : StressWorker.increments { s.workers k with pc := pc } =
      (s.workers k).increments) : (s.goto k pc).Counted iterations := by
  refine h.change k h.rep h.scheduled (fun _ _ => rfl)
    (fun k' hne => s.goto_workers_of_ne pc hne) ?_ (fun k' v hv => ?_) ?_ (d := 0) ?_
    (Int32.add_zero _).symm
  · rw [goto_workers_self]
    exact hfits
  · rcases eq_or_ne k' k with rfl | hne
    · rw [goto_workers_self] at hv
      exact hvalue v hv
    · rw [s.goto_workers_of_ne pc hne] at hv
      exact h.value k' v hv
  · rw [goto_workers_self]
    exact hloop
  · rw [goto_workers_self, hincrements, Nat.add_zero]

/-- The condition of the loop. -/
theorem Counted.check (h : s.Counted iterations) {k : κ} (hpc : (s.workers k).pc = .head) :
    (s.goto k (if (s.workers k).i < iterations k then .lock else .done)).Counted iterations := by
  have hfits := h.fits k
  have hloop := h.inLoop k
  rw [hpc, StressPc.head_fits] at hfits
  simp only [StressWorker.InLoop, hpc] at hloop
  split_ifs with hlt
  · exact h.goto (by simp [hfits]) (by simp) hlt (by simp [StressWorker.increments, hpc])
  · have heq : (s.workers k).i = iterations k := by omega
    exact h.goto (by simp [hfits]) (by simp) heq (by simp [StressWorker.increments, hpc])

/-- The store of the incremented value. -/
theorem Counted.store (h : s.Counted iterations) {k : κ} {value : Int32}
    (hpc : (s.workers k).pc = .store value) :
    ({ s.goto k .unlock with counter := value }).Counted iterations := by
  have hfits := h.fits k
  have hloop := h.inLoop k
  have hvalue := h.value k value hpc
  rw [hpc, StressPc.store_fits] at hfits
  simp only [StressWorker.InLoop, hpc] at hloop
  refine h.change k h.rep h.scheduled (fun _ _ => rfl)
    (fun k' hne => s.goto_workers_of_ne .unlock hne) ?_ (fun k' v hv => ?_) ?_ (d := 1) ?_
    hvalue
  · show ((s.goto k .unlock).workers k).pc.Fits (s.mutex.pc k).phase
    simp [hfits]
  · -- Nobody else is about to store a value.
    have hv : ((s.goto k .unlock).workers k').pc = .store v := hv
    rcases eq_or_ne k' k with rfl | hne
    · simp at hv
    · rw [s.goto_workers_of_ne .unlock hne] at hv
      have hfits' := h.fits k'
      rw [hv, StressPc.store_fits] at hfits'
      exact (hne (h.exclusive (.inl hfits') (.inl hfits))).elim
  · show StressWorker.InLoop (iterations k) ((s.goto k .unlock).workers k)
    rw [goto_workers_self]
    exact hloop
  · show ((s.goto k .unlock).workers k).increments = _
    rw [goto_workers_self]
    simp only [hpc, StressWorker.increments]

variable [DecidableEq σ]

/-- A step of the mutex. -/
theorem Counted.withMutex (h : s.Counted iterations) {op : LockOp κ σ} {m : CoMutex κ σ}
    (hcalls : (s.workers op.coroutine).pc.calls op.phase) (hstep : lockStep s.mutex op m)
    (hhome : op.OnHome home) : (s.withMutex op.coroutine m).Counted iterations := by
  obtain ⟨w, holder, hrep⟩ := h.rep
  have hself : (s.withMutex op.coroutine m).workers op.coroutine =
      (s.workers op.coroutine).after (m.pc op.coroutine).phase := Function.update_self ..
  have hothers : ∀ k, k ≠ op.coroutine → (s.withMutex op.coroutine m).workers k = s.workers k :=
    fun k hne => Function.update_of_ne hne _ _
  obtain ⟨hfits, hincrements, hloop, hstore⟩ := StressWorker.after_spec hcalls
    (phase_of_step hrep hstep).2 (h.inLoop op.coroutine)
  refine h.change op.coroutine (rep_step hrep hstep) (h.scheduled.step hrep hstep ?_)
    (fun k hne => phase_of_ne hrep hstep hne) hothers ?_ (fun k v hv => ?_) ?_ (d := 0) ?_
    (Int32.add_zero _).symm
  · rintro k a current rfl
    rw [show current = some _ from hhome]
    rfl
  · rw [hself]
    exact hfits
  · rcases eq_or_ne k op.coroutine with rfl | hne
    · rw [hself] at hv
      exact (hstore v hv).elim
    · rw [hothers k hne] at hv
      exact h.value k v hv
  · rw [hself]
    exact hloop
  · rw [hself, hincrements, Nat.add_zero]

/-- The step lemma: no update is lost. -/
theorem Counted.step (h : s.Counted iterations) {op : StressOp κ σ}
    (hstep : stressStep home iterations s op t) : t.Counted iterations := by
  obtain ⟨hstep, hop⟩ := hstep
  cases op with
  | check k =>
    simp only [MutexStress.step] at hstep
    split at hstep
    · exact Option.some.inj hstep ▸ h.check ‹_›
    · simp at hstep
  | mutex op =>
    obtain ⟨hcalls, hstep⟩ := Option.ite_none_right_eq_some.mp hstep
    obtain ⟨m, hm, rfl⟩ := Option.map_eq_some_iff.mp hstep
    exact h.withMutex hcalls hop.2 hop.1
  | load k =>
    simp only [MutexStress.step] at hstep
    split at hstep
    · next hpc =>
      obtain rfl := Option.some.inj hstep
      have hfits := h.fits k
      have hloop := h.inLoop k
      rw [hpc, StressPc.load_fits] at hfits
      simp only [StressWorker.InLoop, hpc] at hloop
      exact h.goto (by simp [hfits]) (fun v hv => (StressPc.store.inj hv).symm) hloop
        (by simp [StressWorker.increments, hpc])
    · simp at hstep
  | store k =>
    simp only [MutexStress.step] at hstep
    split at hstep
    · exact Option.some.inj hstep ▸ h.store ‹_›
    · simp at hstep

/-! ## The workers come to the end -/

/-- Steps lead to where a worker is at the head of its loop, one iteration further, and the others
are where they were. -/
def Completes (home : κ → σ) (iterations : κ → ℕ) (s : MutexStress κ σ) (k : κ) : Prop :=
  ∃ t, Reachable (stressStep home iterations) s t ∧
    t.workers = Function.update s.workers k ⟨.head, (s.workers k).i + 1⟩

omit [Fintype κ] in
/-- One more step at the start. -/
theorem Completes.step {k : κ} {op : StressOp κ σ} {w : StressWorker}
    (h : Completes home iterations t k) (hstep : stressStep home iterations s op t)
    (ht : t.workers = Function.update s.workers k w) (hi : w.i = (s.workers k).i) :
    Completes home iterations s k := by
  obtain ⟨u, hu, hworkers⟩ := h
  refine ⟨u, ((Reachable.refl _ s).step hstep).trans hu, ?_⟩
  rw [hworkers, ht, Function.update_idem, Function.update_self, hi]

omit [Fintype κ] in
/-- A worker can take a step of the mutex. -/
theorem stressStep_mutex {op : LockOp κ σ} {m : CoMutex κ σ}
    (hcalls : (s.workers op.coroutine).pc.calls op.phase) (hhome : op.OnHome home)
    (hstep : lockStep s.mutex op m) :
    stressStep home iterations s (.mutex op) (s.withMutex op.coroutine m) := by
  refine ⟨?_, hhome, hstep⟩
  rw [MutexStress.step, if_pos hcalls, hstep.1]
  rfl

omit [Fintype κ] in
/-- A worker completes its iteration with the step in which `unlock` returns. -/
theorem completes_of_returns (op : LockOp κ σ) {m : CoMutex κ σ}
    (hpc : (s.workers op.coroutine).pc = .unlock) (hop : op.phase = .unlocking)
    (hhome : op.OnHome home) (hstep : lockStep s.mutex op m)
    (hm : (m.pc op.coroutine).phase = .outside) : Completes home iterations s op.coroutine := by
  have hcalls : (s.workers op.coroutine).pc.calls op.phase := by rw [hpc, hop]; rfl
  refine ⟨_, (Reachable.refl _ s).step (stressStep_mutex hcalls hhome hstep), ?_⟩
  rw [withMutex, hm, StressWorker.after_unlock hpc, if_pos rfl]
  rfl

/-- A worker in `unlock` completes its iteration, as steps of its own take the mutex there. -/
theorem Counted.completes_path (h : s.Counted iterations) {k : κ} (hpc : (s.workers k).pc = .unlock)
    {l : List (LockOp κ σ × CoMutex κ σ)} (hl : Path lockStep s.mutex l)
    (hk : ∀ x ∈ l, x.1.coroutine = k) (hlast : (last s.mutex l).pc k = .idle) :
    Completes home iterations s k := by
  induction l generalizing s with
  | nil =>
    have hfits := h.fits k
    rw [hpc, StressPc.unlock_fits] at hfits
    have hidle : s.mutex.pc k = .idle := hlast
    simp [hidle, LockPc.phase] at hfits
  | cons x l ih =>
    obtain ⟨op, m⟩ := x
    obtain ⟨hop, hk⟩ := List.forall_mem_cons.mp hk
    obtain ⟨hstep, hl⟩ := hl
    obtain rfl : op.coroutine = k := hop
    obtain ⟨w, holder, hrep⟩ := h.rep
    obtain ⟨hphase, hnext⟩ := phase_of_step hrep hstep
    have hfits := h.fits op.coroutine
    rw [hpc, StressPc.unlock_fits, hphase] at hfits
    by_cases hselect : ∃ current, op = .select op.coroutine current
    · -- The end of `unlock` selects the same waiter on the worker's scheduler.
      obtain ⟨current, heq⟩ := hselect
      generalize op.coroutine = k at *
      subst heq
      obtain ⟨hselect, -⟩ := Option.ite_none_right_eq_some.mp hstep.1
      obtain ⟨-, -, -, -, -, hidle, -⟩ := rep_select hrep hselect (some (home k))
      exact completes_of_returns (.select k (some (home k))) hpc rfl rfl
        ⟨if_pos hselect, trivial⟩ (by rw [LockOp.coroutine, hidle]; rfl)
    · have hhome : op.OnHome home := by
        cases op with
        | load => simp [LockOp.phase] at hfits
        | select k current => exact (hselect ⟨current, rfl⟩).elim
        | _ => trivial
      have hcalls : (s.workers op.coroutine).pc.calls op.phase := by
        rw [hpc]
        rcases hfits with hfits | hfits <;> rw [hfits] <;> rfl
      by_cases hm : (m.pc op.coroutine).phase = .outside
      · refine completes_of_returns op hpc ?_ hhome hstep hm
        rcases hfits with hfits | hfits
        · simp [hm, hfits, LockPhase.next] at hnext
        · exact hfits
      · -- The worker is in `unlock` as before.
        have hworkers : (s.withMutex op.coroutine m).workers =
            Function.update s.workers op.coroutine (s.workers op.coroutine) := by
          rw [MutexStress.withMutex, StressWorker.after_unlock hpc, if_neg hm]
          rfl
        have hunlock : ((s.withMutex op.coroutine m).workers op.coroutine).pc = .unlock := by
          rw [hworkers, Function.update_self, hpc]
        exact (ih (h.withMutex hcalls hstep hhome) hunlock hl hk hlast).step
          (stressStep_mutex hcalls hhome hstep) hworkers rfl

/-- A worker completes its iteration from `unlock`. -/
theorem Counted.completes_unlock (h : s.Counted iterations) {k : κ}
    (hpc : (s.workers k).pc = .unlock) : Completes home iterations s k := by
  obtain ⟨w, holder, hrep⟩ := h.rep
  have hfits := h.fits k
  rw [hpc, StressPc.unlock_fits] at hfits
  have hselected : s.mutex.pc k ≠ .selected := by
    intro hk
    simp [hk, LockPc.phase] at hfits
  obtain ⟨l, hl, hk, hlast⟩ := canReturn hrep (holds_of_phase hfits) hselected
  exact h.completes_path hpc hl hk hlast

/-- A worker completes its iteration from the store. -/
theorem Counted.completes_store (h : s.Counted iterations) {k : κ} {value : Int32}
    (hpc : (s.workers k).pc = .store value) : Completes home iterations s k := by
  have hstep : stressStep home iterations s (.store k) { s.goto k .unlock with counter := value } :=
    ⟨by simp only [MutexStress.step, hpc], trivial⟩
  have hunlock : Completes home iterations { s.goto k .unlock with counter := value } k :=
    (h.step hstep).completes_unlock (by simp)
  exact hunlock.step hstep rfl rfl

/-- A worker completes its iteration from the load. -/
theorem Counted.completes_load (h : s.Counted iterations) {k : κ}
    (hpc : (s.workers k).pc = .load) : Completes home iterations s k := by
  have hstep : stressStep home iterations s (.load k) (s.goto k (.store (s.counter + 1))) :=
    ⟨by simp only [MutexStress.step, hpc], trivial⟩
  have hstore : Completes home iterations (s.goto k (.store (s.counter + 1))) k :=
    (h.step hstep).completes_store (by rw [goto_workers_self])
  exact hstore.step hstep rfl rfl

/-- A worker completes its iteration from `lock`, with a step that takes the lock. -/
theorem Counted.completes_of_acquires (h : s.Counted iterations) (op : LockOp κ σ) {m : CoMutex κ σ}
    (hpc : (s.workers op.coroutine).pc = .lock) (hop : op.phase = .locking)
    (hstep : lockStep s.mutex op m) (hm : (m.pc op.coroutine).phase = .holding) :
    Completes home iterations s op.coroutine := by
  have hhome : op.OnHome home := by
    cases op <;> simp [LockOp.phase] at hop <;> trivial
  have hcalls : (s.workers op.coroutine).pc.calls op.phase := by rw [hpc, hop]; rfl
  have hworkers : (s.withMutex op.coroutine m).workers = Function.update s.workers op.coroutine
      { s.workers op.coroutine with pc := .load } := by
    rw [MutexStress.withMutex, hm, StressWorker.after_lock hpc, if_pos rfl]
    rfl
  have hload : Completes home iterations (s.withMutex op.coroutine m) op.coroutine :=
    (h.withMutex hcalls hstep hhome).completes_load (by rw [hworkers, Function.update_self])
  exact hload.step (stressStep_mutex hcalls hhome hstep) hworkers rfl

/-- The holder of the lock completes its iteration. -/
theorem Counted.completes_holder (h : s.Counted iterations) {k : κ} (hk : (s.mutex.pc k).Holds) :
    Completes home iterations s k := by
  have hfits := h.fits k
  cases hpc : (s.workers k).pc with
  | load => exact h.completes_load hpc
  | store value => exact h.completes_store hpc
  | unlock => exact h.completes_unlock hpc
  | lock =>
    rw [hpc, StressPc.lock_fits] at hfits
    have hselected : s.mutex.pc k = .selected := by
      cases hp : s.mutex.pc k <;> simp [hp, LockPc.phase, LockPc.Holds] at hfits hk ⊢
    have hstep : lockStep s.mutex (.resume k) (s.mutex.goto k .holding) :=
      ⟨if_pos ⟨hselected, h.scheduled k (by rw [hselected]; trivial)⟩, trivial⟩
    exact h.completes_of_acquires (.resume k) hpc rfl hstep (by
      rw [LockOp.coroutine, goto_pc_self]; rfl)
  | head =>
    rw [hpc, StressPc.head_fits] at hfits
    cases hp : s.mutex.pc k <;> simp [hp, LockPc.phase, LockPc.Holds] at hfits hk
  | done =>
    rw [hpc, StressPc.done_fits] at hfits
    cases hp : s.mutex.pc k <;> simp [hp, LockPc.phase, LockPc.Holds] at hfits hk

/-- A worker takes the lock and completes its iteration where the mutex is free, if its
compare-and-exchange expects that. -/
theorem Counted.completes_free (h : s.Counted iterations) {k : κ} (hpc : (s.workers k).pc = .lock)
    (hfree : s.mutex.state = unlocked)
    (hk : s.mutex.pc k = .compareExchange unlocked) :
    Completes home iterations s k := by
  have hstep : lockStep s.mutex (.compareExchangeWeak k false)
      (s.mutex.compareExchangeWeak k unlocked false) :=
    ⟨by simp only [CoMutex.step, hk], trivial⟩
  refine h.completes_of_acquires (.compareExchangeWeak k false) hpc rfl hstep ?_
  rw [compareExchangeWeak, if_pos rfl, if_pos ⟨hfree, rfl⟩]
  show ((s.mutex.goto k .holding).pc k).phase = .holding
  rw [goto_pc_self]
  rfl

/-- A worker completes its iteration after a step in `lock` that has it expect the free mutex. -/
theorem Counted.completes_of_expects (h : s.Counted iterations) (op : LockOp κ σ) {m : CoMutex κ σ}
    (hpc : (s.workers op.coroutine).pc = .lock) (hop : op.phase = .outside ∨ op.phase = .locking)
    (hhome : op.OnHome home) (hstep : lockStep s.mutex op m) (hfree : m.state = unlocked)
    (hm : m.pc op.coroutine = .compareExchange unlocked) :
    Completes home iterations s op.coroutine := by
  have hcalls : (s.workers op.coroutine).pc.calls op.phase := by
    rw [hpc]
    rcases hop with hop | hop <;> rw [hop] <;> rfl
  -- The worker is in `lock` as before.
  have hworkers : (s.withMutex op.coroutine m).workers =
      Function.update s.workers op.coroutine (s.workers op.coroutine) := by
    rw [MutexStress.withMutex, StressWorker.after_lock hpc, if_neg (by simp [hm, LockPc.phase])]
    rfl
  have hcompletes : Completes home iterations (s.withMutex op.coroutine m) op.coroutine :=
    (h.withMutex hcalls hstep hhome).completes_free (by rw [hworkers, Function.update_self, hpc])
      hfree hm
  exact hcompletes.step (stressStep_mutex hcalls hhome hstep) hworkers rfl

omit [DecidableEq κ] in
/-- There is an address for a new awaiter. -/
theorem exists_fresh (address : κ → ℕ) : ∃ a, a ≠ 0 ∧ a % 8 = 0 ∧ ∀ k, address k ≠ a := by
  refine ⟨8 * (Finset.univ.sup address + 1), by omega, by omega, fun k => ?_⟩
  have hle : address k ≤ Finset.univ.sup address := Finset.le_sup (Finset.mem_univ k)
  omega

/-- A worker in `lock` completes its iteration where the mutex is free. -/
theorem Counted.completes_lock (h : s.Counted iterations) {k : κ} (hpc : (s.workers k).pc = .lock)
    (hfree : s.mutex.state = unlocked) : Completes home iterations s k := by
  obtain ⟨w, holder, hrep⟩ := h.rep
  have hholder := hrep.state_iff.mp hfree
  have hfits := h.fits k
  rw [hpc, StressPc.lock_fits] at hfits
  cases hk : s.mutex.pc k with
  | idle =>
    obtain ⟨a, hne, halign, hfresh⟩ := exists_fresh s.mutex.address
    have hstep : lockStep s.mutex (.load k a (some (home k)))
        (s.mutex.load k a (some (home k))) :=
      ⟨if_pos hk, hne, halign, fun k' _ => hfresh k'⟩
    refine h.completes_of_expects (.load k a (some (home k))) hpc (.inl rfl) rfl hstep hfree ?_
    rw [← hfree]
    exact goto_pc_self _ _ _
  | compareExchange oldState =>
    by_cases hold : oldState = unlocked
    · exact h.completes_free hpc hfree (hold ▸ hk)
    · -- The compare-and-exchange fails, and loads that the mutex is free.
      have hstep : lockStep s.mutex (.compareExchangeWeak k false)
          (s.mutex.compareExchangeWeak k oldState false) :=
        ⟨by simp only [CoMutex.step, hk], trivial⟩
      have hfails : s.mutex.state ≠ oldState := by
        rw [hfree]
        exact Ne.symm hold
      have hafter : (s.mutex.compareExchangeWeak k oldState false).state = unlocked ∧
          (s.mutex.compareExchangeWeak k oldState false).pc k = .compareExchange unlocked := by
        rw [compareExchangeWeak, if_neg hold]
        dsimp only
        rw [if_neg fun hand => hfails hand.1]
        exact ⟨hfree, by rw [← hfree]; exact goto_pc_self _ _ _⟩
      exact h.completes_of_expects (.compareExchangeWeak k false) hpc (.inr rfl) trivial hstep
        hafter.1 hafter.2
  | suspended =>
    have hmem := (hrep.mem_iff k).mpr hk
    rw [hrep.free hholder] at hmem
    simp at hmem
  | selected =>
    have hholds := hrep.holder_eq (k := k) (by rw [hk]; trivial)
    simp [hholder] at hholds
  | _ => simp [hk, LockPc.phase] at hfits

/-- What a worker has left to do. -/
def left (n : ℕ) (w : StressWorker) : ℕ :=
  match w.pc with
  | .done => 0
  | _ => n - w.i + 1

omit [DecidableEq σ] in
/-- The workers have less left to do when one of them has. -/
theorem sum_left_lt {k : κ} {w : StressWorker} (ht : t.workers = Function.update s.workers k w)
    (hlt : left (iterations k) w < left (iterations k) (s.workers k)) :
    ∑ k, left (iterations k) (t.workers k) < ∑ k, left (iterations k) (s.workers k) := by
  have hsum := Tally.sum_of_eq_off (i := k) (f := fun k => left (iterations k) (t.workers k))
    (g := fun k => left (iterations k) (s.workers k)) fun k' hne => by
      rw [ht, Function.update_of_ne hne]
  simp only [ht, Function.update_self] at hsum ⊢
  omega

omit [DecidableEq σ] in
/-- A worker at the condition of its loop goes into `lock` with as much left to do. -/
theorem sum_left_goto {k : κ} (hpc : (s.workers k).pc = .head) :
    ∑ k', left (iterations k') ((s.goto k .lock).workers k') =
      ∑ k', left (iterations k') (s.workers k') := by
  refine Finset.sum_congr rfl fun k' _ => ?_
  rcases eq_or_ne k' k with rfl | hne
  · simp [left, hpc]
  · rw [s.goto_workers_of_ne .lock hne]

/-- A worker that completes its iteration has less left to do. -/
theorem Completes.progress {k : κ} (h : Completes home iterations s k)
    (hloop : (s.workers k).i < iterations k) (hpc : (s.workers k).pc ≠ .done) :
    ∃ t, Reachable (stressStep home iterations) s t ∧
      ∑ k, left (iterations k) (t.workers k) < ∑ k, left (iterations k) (s.workers k) := by
  obtain ⟨t, ht, hworkers⟩ := h
  refine ⟨t, ht, sum_left_lt hworkers ?_⟩
  have hbefore : left (iterations k) (s.workers k) = iterations k - (s.workers k).i + 1 := by
    unfold left
    split
    · exact (hpc ‹_›).elim
    · rfl
  rw [hbefore]
  simp only [left]
  omega

/-- The workers that have not all returned can come to have less left to do. -/
theorem Counted.progress (h : s.Counted iterations) (hdone : ¬ s.Finished) :
    ∃ t, Reachable (stressStep home iterations) s t ∧
      ∑ k, left (iterations k) (t.workers k) < ∑ k, left (iterations k) (s.workers k) := by
  obtain ⟨w, holder, hrep⟩ := h.rep
  cases hholder : holder with
  | some k =>
    -- The holder goes on.
    have hk : (s.mutex.pc k).Holds := (hrep.holds_iff k).mpr hholder
    have hfits := h.fits k
    have hloop := h.inLoop k
    have houtside : (s.mutex.pc k).phase ≠ .outside := by
      revert hk
      cases s.mutex.pc k <;> simp [LockPc.phase, LockPc.Holds]
    cases hpc : (s.workers k).pc with
    | head => exact (houtside (by simpa [hpc] using hfits)).elim
    | done => exact (houtside (by simpa [hpc] using hfits)).elim
    | _ =>
      refine (h.completes_holder hk).progress ?_ (by simp [hpc])
      simpa [StressWorker.InLoop, hpc] using hloop
  | none =>
    have hfree := hrep.state_iff.mpr hholder
    obtain ⟨k, hk⟩ := not_forall.mp hdone
    have hfits := h.fits k
    have hloop := h.inLoop k
    -- Nobody is in the critical section.
    have houtside : (s.mutex.pc k).phase ≠ .holding ∧ (s.mutex.pc k).phase ≠ .unlocking := by
      rw [← not_or]
      intro hphase
      have hholds := hrep.holder_eq (holds_of_phase hphase)
      simp [hholder] at hholds
    cases hpc : (s.workers k).pc with
    | head =>
      simp only [StressWorker.InLoop, hpc] at hloop
      by_cases hlt : (s.workers k).i < iterations k
      · have hstep : stressStep home iterations s (.check k) (s.goto k .lock) :=
          ⟨by simp only [MutexStress.step, hpc, if_pos hlt], trivial⟩
        have hcompletes : Completes home iterations (s.goto k .lock) k :=
          (h.step hstep).completes_lock (by rw [goto_workers_self]) hfree
        obtain ⟨t, ht, hless⟩ := hcompletes.progress (by simpa using hlt) (by simp)
        exact ⟨t, ((Reachable.refl _ s).step hstep).trans ht, sum_left_goto hpc ▸ hless⟩
      · have hstep : stressStep home iterations s (.check k) (s.goto k .done) :=
          ⟨by simp only [MutexStress.step, hpc, if_neg hlt], trivial⟩
        refine ⟨_, (Reachable.refl _ s).step hstep, sum_left_lt rfl ?_⟩
        simp [left, hpc]
    | lock =>
      refine (h.completes_lock hpc hfree).progress ?_ (by simp [hpc])
      simpa [StressWorker.InLoop, hpc] using hloop
    | load => exact (houtside.1 (by simpa [hpc] using hfits)).elim
    | store value => exact (houtside.1 (by simpa [hpc] using hfits)).elim
    | unlock =>
      rw [hpc, StressPc.unlock_fits] at hfits
      exact (hfits.elim houtside.1 houtside.2).elim
    | done => exact (hk hpc).elim

/-- The workers can all come to the end. -/
theorem Counted.exists_finished (h : s.Counted iterations) :
    ∃ t, Reachable (stressStep home iterations) s t ∧ t.Counted iterations ∧ t.Finished := by
  refine Reachable.of_decreasing (fun s => ∑ k, left (iterations k) (s.workers k))
    (fun s hs hdone => ?_) h
  obtain ⟨t, ht, hlt⟩ := hs.progress hdone
  exact ⟨t, ht, ht.invariant (fun _ _ _ h hstep => h.step hstep) hs, hlt⟩

end MutexStress

open MutexStress

end Novaio
