import Novaio.Affinity.Resumptions
import Novaio.CoMutex.Moves
import Novaio.Event.CrossCore
import Novaio.Worker.Conservation

/-!
# The places of a coroutine

The handle of a coroutine that is to be resumed is in the runtime, in the memory of a mutex or an
event, in a counter of `when_all`, or it is the continuation of a task. A coroutine that runs, or
that has resumed another one, has a frame on the stack of a thread. `Program.At` says at which of
these places a coroutine is.

`Places` gives every coroutine one place, which is the only one where it can be. A step of the
program moves coroutines between their places one by one: a coroutine leaves its place first
(`Nowhere`), and then gets another one (`Places.replace`).
-/

namespace Novaio

open Transition

/-! ## Places -/

/-- A place at which a coroutine can be: it is held by the runtime, has a frame on the stack of a
thread, waits for a mutex, for an event with the wait of this number, or for a counter, or awaits a
task. -/
inductive Place (σ τ κ μ ι ω : Type*) where
  | runtime
  | stack (c : σ ⊕ τ)
  | mutex (m : μ)
  | event (e : ι) (n : ℕ)
  | counter (w : ω)
  | task (t : κ)

/-- The coroutine of a frame. -/
def UserFrame.coro {κ ω : Type*} : UserFrame κ ω → Option κ
  | .coroutine k => some k
  | .plain | .startTasks _ _ => none

namespace Program

variable {σ τ κ μ ι ω : Type*}

/-- The coroutines that have frames on the stack of a thread. -/
def frames (s : Program σ τ κ μ ι ω) (c : σ ⊕ τ) : List κ := (s.stack c).filterMap UserFrame.coro

section

variable [Fintype σ] [DecidableEq σ] [DecidableEq κ]

/-- The place holds the coroutine, other than as the continuation of a task. -/
def Holds (s : Program σ τ κ μ ι ω) : Place σ τ κ μ ι ω → κ → Prop
  | .runtime, k => 0 < s.runtime.copies k
  | .stack c, k => k ∈ s.frames c
  | .mutex m, k => (s.mutexes m).pc k = .suspended
  | .event e n, k => (s.events e).waiterPc (k, n) = .suspended
  | .counter w, k => ∃ counter, s.counters w = some counter ∧ counter.count ≠ 0 ∧
      counter.continuation = some k
  | .task _, _ => False

/-- A coroutine is at a place. The continuation of a task is at a place while the task is. -/
inductive At (s : Program σ τ κ μ ι ω) : κ → Place σ τ κ μ ι ω → Prop where
  | here {k : κ} {p : Place σ τ κ μ ι ω} (h : s.Holds p k) : At s k p
  | task {k t : κ} {p : Place σ τ κ μ ι ω} (h : s.continuation t = some k) (ht : At s t p) :
      At s k (.task t)

/-- No coroutine is at two places, and each that has not ended can be at its own only. -/
structure Places (C : Finset κ) (ended : List κ) (place : κ → Option (Place σ τ κ μ ι ω))
    (s : Program σ τ κ μ ι ω) : Prop where
  holds : ∀ p k, s.Holds p k → place k = some p
  continuation : ∀ t k, s.continuation t = some k → place t ≠ none → place k = some (.task t)
  copies_le : ∀ k, s.runtime.copies k ≤ 1
  nodup : ∀ c, (s.frames c).Nodup
  created : ∀ k, place k ≠ none → s.created k = true
  new : ∀ t, s.created t = false → s.continuation t = none
  mem : ∀ k, s.created k = true → k ∈ C
  ended : ∀ k ∈ ended, s.created k = true ∧ place k = none
  runtime : s.runtime.Regular
  mutexes : ∀ m, ∃ w holder, (s.mutexes m).Rep w holder
  events : ∀ e, ∃ queued detached first, (s.events e).Rep queued detached first

/-- No place holds the coroutine, and no task that has not ended is awaited by it. -/
structure Nowhere (place : κ → Option (Place σ τ κ μ ι ω)) (s : Program σ τ κ μ ι ω) (k : κ) :
    Prop where
  holds : ∀ p, ¬ s.Holds p k
  awaits : ∀ t, s.continuation t = some k → place t = none

/-! ## How coroutines move -/

variable {C : Finset κ} {ended : List κ} {place : κ → Option (Place σ τ κ μ ι ω)}
  {s t : Program σ τ κ μ ι ω} {k : κ} {c : σ ⊕ τ}

/-- A coroutine that its place does not hold is nowhere. -/
theorem Places.nowhere (h : Places C ended place s) {p : Place σ τ κ μ ι ω}
    (hk : place k = some p) (hp : ¬ s.Holds p k) (htask : ∀ t, p = .task t → place t = none) :
    Nowhere place s k where
  holds q hq := by
    obtain rfl : p = q := Option.some.inj (hk.symm.trans (h.holds q k hq))
    exact hp hq
  awaits t ht := by
    by_contra hne
    exact hne (htask t (Option.some.inj (hk.symm.trans (h.continuation t k ht hne))))

/-- A coroutine that has no place is nowhere. -/
theorem Places.nowhere_of_none (h : Places C ended place s) (hk : place k = none) :
    Nowhere place s k where
  holds p hp := by simp [h.holds p k hp] at hk
  awaits t ht := by
    by_contra hne
    simp [h.continuation t k ht hne] at hk

/-- A coroutine that is nowhere gets another place, or none. -/
theorem Places.replace (h : Places C ended place s) (hnowhere : Nowhere place s k)
    (hk : place k ≠ none) (p : Option (Place σ τ κ μ ι ω)) :
    Places C ended (Function.update place k p) s := by
  have hother {k' : κ} (hne : k' ≠ k) : Function.update place k p k' = place k' :=
    Function.update_of_ne hne _ _
  have hlive {k' : κ} (hk' : Function.update place k p k' ≠ none) : place k' ≠ none := by
    rcases eq_or_ne k' k with rfl | hne
    · exact hk
    · rwa [hother hne] at hk'
  refine { h with
    holds := fun q k' hq => ?_
    continuation := fun t k' hcontinuation ht => ?_
    created := fun k' hk' => h.created k' (hlive hk')
    ended := fun k' hk' => ?_ }
  · rcases eq_or_ne k' k with rfl | hne
    · exact (hnowhere.holds q hq).elim
    · rw [hother hne]
      exact h.holds q k' hq
  · rcases eq_or_ne k' k with rfl | hne
    · exact (hlive ht (hnowhere.awaits t hcontinuation)).elim
    · rw [hother hne]
      exact h.continuation t k' hcontinuation (hlive ht)
  · obtain ⟨hcreated, hnone⟩ := h.ended k' hk'
    have hne : k' ≠ k := by
      rintro rfl
      exact hk hnone
    exact ⟨hcreated, (hother hne).trans hnone⟩

/-- A coroutine that is nowhere ends. -/
theorem Places.kill (h : Places C ended place s) (hnowhere : Nowhere place s k)
    (hk : place k ≠ none) : Places C (ended ++ [k]) (Function.update place k none) s := by
  refine { h.replace hnowhere hk none with ended := fun k' hk' => ?_ }
  rcases List.mem_append.mp hk' with hk' | hk'
  · exact (h.replace hnowhere hk none).ended k' hk'
  · obtain rfl := List.mem_singleton.mp hk'
    exact ⟨h.created k' hk, Function.update_self _ _ _⟩

/-- A coroutine is created, and gets a place. -/
theorem Places.create (h : Places C ended place s) (hk : s.created k = false) (hmem : k ∈ C)
    (p : Place σ τ κ μ ι ω) :
    Places C ended (Function.update place k (some p)) (s.create k) ∧
      Nowhere (Function.update place k (some p)) (s.create k) k := by
  have hnone : place k = none := by
    by_contra hne
    simp [h.created k hne] at hk
  have hnowhere := h.nowhere_of_none hnone
  have hother {k' : κ} (hne : k' ≠ k) : Function.update place k (some p) k' = place k' :=
    Function.update_of_ne hne _ _
  have hcreated {k' : κ} (hk' : s.created k' = true) : (s.create k).created k' = true := by
    rcases eq_or_ne k' k with rfl | hne
    · exact Function.update_self _ _ _
    · exact (Function.update_of_ne hne _ _).trans hk'
  refine ⟨{ h with
    holds := fun q k' hq => ?_
    continuation := fun t k' hcontinuation ht => ?_
    created := fun k' hk' => ?_
    new := fun t ht => h.new t ?_
    mem := fun k' hk' => ?_
    ended := fun k' hk' => ?_ }, hnowhere.holds, fun t ht => ?_⟩
  · have hne : k' ≠ k := by
      rintro rfl
      exact hnowhere.holds q hq
    rw [hother hne]
    exact h.holds q k' hq
  · -- Nothing is awaited yet by the new coroutine, and nothing awaits it.
    have htk : t ≠ k := by
      rintro rfl
      have hcontinuation : s.continuation t = some k' := hcontinuation
      simp [h.new t hk] at hcontinuation
    rw [hother htk] at ht
    have hplace := h.continuation t k' hcontinuation ht
    rwa [hother]
    rintro rfl
    simp [hnone] at hplace
  · rcases eq_or_ne k' k with rfl | hne
    · exact Function.update_self _ _ _
    · exact hcreated (h.created k' (hother hne ▸ hk'))
  · by_contra hne
    exact absurd (hcreated (by simpa using hne)) (by simp [ht])
  · rcases eq_or_ne k' k with rfl | hne
    · exact hmem
    · exact h.mem k' ((Function.update_of_ne hne _ _).symm.trans hk')
  · obtain ⟨hcreated', hnone'⟩ := h.ended k' hk'
    have hne : k' ≠ k := by
      rintro rfl
      simp [hk] at hcreated'
    exact ⟨hcreated hcreated', (hother hne).trans hnone'⟩
  · have htk : t ≠ k := by
      rintro rfl
      have ht : s.continuation t = some t := ht
      simp [h.new t hk] at ht
    exact (hother htk).trans (hnowhere.awaits t ht)

section

variable [DecidableEq τ]

/-- Frames return from a stack. -/
theorem Places.setStack (h : Places C ended place s) (c : σ ⊕ τ) (stack : List (UserFrame κ ω))
    (hframes : (stack.filterMap UserFrame.coro).Sublist (s.frames c)) :
    Places C ended place (s.setStack c stack) := by
  have hself : (s.setStack c stack).frames c = stack.filterMap UserFrame.coro :=
    congrArg _ (Function.update_self _ _ _)
  have hother {c' : σ ⊕ τ} (hne : c' ≠ c) : (s.setStack c stack).frames c' = s.frames c' :=
    congrArg _ (Function.update_of_ne hne _ _)
  refine { h with holds := fun p k hp => ?_, nodup := fun c' => ?_ }
  · cases p with
    | stack c' =>
      refine h.holds (.stack c') k ?_
      rcases eq_or_ne c' c with rfl | hne
      · have hmem : k ∈ (s.setStack c' stack).frames c' := hp
        rw [hself] at hmem
        exact hframes.subset hmem
      · have hmem : k ∈ (s.setStack c stack).frames c' := hp
        rwa [hother hne] at hmem
    | _ => exact h.holds _ k hp
  · rcases eq_or_ne c' c with rfl | hne
    · rw [hself]
      exact (h.nodup c').sublist hframes
    · rw [hother hne]
      exact h.nodup c'

/-- The frame of a coroutine returns from a stack, which is the place of the coroutine. -/
theorem Places.pop (h : Places C ended place s) {rest : List (UserFrame κ ω)}
    (hstack : s.stack c = .coroutine k :: rest) (stack : List (UserFrame κ ω))
    (hframes : stack.filterMap UserFrame.coro = rest.filterMap UserFrame.coro) :
    Places C ended place (s.setStack c stack) ∧ Nowhere place (s.setStack c stack) k ∧
      place k = some (.stack c) := by
  have hcons : s.frames c = k :: rest.filterMap UserFrame.coro := by
    rw [frames, hstack]
    rfl
  have hplace : place k = some (.stack c) := by
    refine h.holds (.stack c) k ?_
    show k ∈ s.frames c
    rw [hcons]
    exact List.mem_cons_self
  have hpopped : Places C ended place (s.setStack c stack) := by
    refine h.setStack c stack ?_
    rw [hframes, hcons]
    exact List.sublist_cons_self _ _
  refine ⟨hpopped, hpopped.nowhere hplace ?_ (by simp), hplace⟩
  -- The coroutine had one frame only.
  have hnodup := h.nodup c
  rw [hcons] at hnodup
  have hself : (s.setStack c stack).frames c = stack.filterMap UserFrame.coro :=
    congrArg _ (Function.update_self _ _ _)
  show k ∉ (s.setStack c stack).frames c
  rw [hself, hframes]
  exact (List.nodup_cons.mp hnodup).1

/-- A coroutine whose place is a stack is started or resumed there. -/
theorem Places.enter (h : Places C ended place s) (hk : place k = some (.stack c))
    (hnot : k ∉ s.frames c) : Places C ended place (s.enter c k) := by
  have hself : (s.enter c k).frames c = k :: s.frames c := by
    simp only [frames, Program.enter, Program.setStack, Function.update_self]
    rfl
  have hother {c' : σ ⊕ τ} (hne : c' ≠ c) : (s.enter c k).frames c' = s.frames c' :=
    congrArg _ (Function.update_of_ne hne _ _)
  refine { h with holds := fun p k' hp => ?_, nodup := fun c' => ?_ }
  · cases p with
    | stack c' =>
      rcases eq_or_ne c' c with rfl | hne
      · have hmem : k' ∈ (s.enter c' k).frames c' := hp
        rw [hself] at hmem
        rcases List.mem_cons.mp hmem with rfl | hmem
        · exact hk
        · exact h.holds (.stack c') k' hmem
      · have hmem : k' ∈ (s.enter c k).frames c' := hp
        rw [hother hne] at hmem
        exact h.holds (.stack c') k' hmem
    | _ => exact h.holds _ k' hp
  · rcases eq_or_ne c' c with rfl | hne
    · rw [hself]
      exact List.nodup_cons.mpr ⟨hnot, h.nodup c'⟩
    · rw [hother hne]
      exact h.nodup c'

end

/-- The runtime changes, and holds no handle twice. -/
theorem Places.setRuntime (h : Places C ended place s) {runtime : Workers σ τ κ}
    (hregular : runtime.Regular) (hle : ∀ k, runtime.copies k ≤ 1)
    (hplace : ∀ k, 0 < runtime.copies k → place k = some .runtime) :
    Places C ended place { s with runtime := runtime } := by
  refine { h with
    holds := fun p k hp => ?_
    copies_le := hle
    runtime := hregular }
  cases p with
  | runtime => exact hplace k hp
  | _ => exact h.holds _ k hp

/-- A new task gets its continuation. -/
theorem Places.setContinuation (h : Places C ended place s) {task : κ}
    (hk : place k = some (.task task)) (htask : s.created task = true)
    (hnone : s.continuation task = none) :
    Places C ended place
      { s with continuation := Function.update s.continuation task (some k) } := by
  refine { h with
    holds := fun p k hp => ?_
    continuation := fun t k' hcontinuation ht => ?_
    new := fun t ht => ?_ }
  · cases p with
    | _ => exact h.holds _ k hp
  · rcases eq_or_ne t task with rfl | hne
    · obtain rfl : k = k' := by simpa using hcontinuation
      exact hk
    · exact h.continuation t k' (by simpa [hne] using hcontinuation) ht
  · have ht : s.created t = false := ht
    have hne : t ≠ task := by
      rintro rfl
      simp [htask] at ht
    exact (Function.update_of_ne hne _ _).trans (h.new t ht)

/-- A counter changes, and is the place of the coroutine that it resumes. -/
theorem Places.setCounter [DecidableEq ω] (h : Places C ended place s) (w : ω)
    (counter : WhenAllCounter κ) (hcounter : ∀ k, counter.count ≠ 0 →
      counter.continuation = some k → place k = some (.counter w)) :
    Places C ended place
      { s with counters := Function.update s.counters w (some counter) } := by
  refine { h with holds := fun p k hp => ?_ }
  cases p with
  | counter w' =>
    obtain ⟨counter', hget, hcount, hk⟩ := hp
    rcases eq_or_ne w' w with rfl | hne
    · obtain rfl : counter = counter' := by simpa using hget
      exact hcounter k hcount hk
    · exact h.holds (.counter w') k ⟨counter', by simpa [hne] using hget, hcount, hk⟩
  | _ => exact h.holds _ k hp

/-- A mutex takes a step, and is the place of its waiters. -/
theorem Places.setMutex [DecidableEq μ] (h : Places C ended place s) {m : μ} {mutex : CoMutex κ σ}
    (hrep : ∃ w holder, mutex.Rep w holder)
    (hsuspended : ∀ k, mutex.pc k = .suspended → place k = some (.mutex m)) :
    Places C ended place { s with mutexes := Function.update s.mutexes m mutex } := by
  refine { h with holds := fun p k hp => ?_, mutexes := fun m' => ?_ }
  · cases p with
    | mutex m' =>
      simp only [Holds, Function.update_apply] at hp
      split_ifs at hp with heq
      · exact heq ▸ hsuspended k hp
      · exact h.holds (.mutex m') k hp
    | _ => exact h.holds _ k hp
  · rcases eq_or_ne m' m with rfl | hne
    · simpa using hrep
    · simpa [hne] using h.mutexes m'

/-- An event takes a step, and is the place of its waiters. -/
theorem Places.setEvent [DecidableEq ι] (h : Places C ended place s) {e : ι}
    {event : Event (κ × ℕ) ((σ ⊕ τ) × ℕ) σ}
    (hrep : ∃ queued detached first, event.Rep queued detached first)
    (hsuspended : ∀ k n, event.waiterPc (k, n) = .suspended → place k = some (.event e n)) :
    Places C ended place { s with events := Function.update s.events e event } := by
  refine { h with holds := fun p k hp => ?_, events := fun e' => ?_ }
  · cases p with
    | event e' n =>
      simp only [Holds, Function.update_apply] at hp
      split_ifs at hp with heq
      · exact heq ▸ hsuspended k n hp
      · exact h.holds (.event e' n) k hp
    | _ => exact h.holds _ k hp
  · rcases eq_or_ne e' e with rfl | hne
    · simpa using hrep
    · simpa [hne] using h.events e'

/-! ## Steps of the runtime -/

section

variable [DecidableEq τ] {op : WorkersOp σ τ κ} {runtime : Workers σ τ κ}

omit [DecidableEq τ] in
/-- What the runtime holds or is given has its place there, and is there once. -/
theorem Places.placed_le (h : Places C ended place s)
    (hplaced : ∀ k ∈ Workers.placed op, place k = some .runtime ∧ s.runtime.copies k = 0)
    (hnodup : (Workers.placed op).Nodup) (k : κ) :
    s.runtime.copies k + (Workers.placed op).count k ≤ 1 ∧
      (0 < s.runtime.copies k + (Workers.placed op).count k → place k = some .runtime) := by
  by_cases hk : k ∈ Workers.placed op
  · obtain ⟨hplace, hzero⟩ := hplaced k hk
    rw [hzero, Nat.zero_add]
    exact ⟨List.nodup_iff_count_le_one.mp hnodup k, fun _ => hplace⟩
  · rw [List.count_eq_zero_of_not_mem hk]
    exact ⟨h.copies_le k, h.holds .runtime k⟩

omit [DecidableEq τ] in
/-- The run queues have room in a step of the runtime that places nothing, or a coroutine whose
place it is and that is nowhere else, as they hold no more coroutines than there are. -/
theorem Places.orderly (h : Places C ended place s) (hC : C.card ≤ 65536)
    (hfresh : s.runtime.Fresh op)
    (hplaced : ∀ k ∈ Workers.placed op, place k = some .runtime ∧ s.runtime.copies k = 0)
    (hnodup : (Workers.placed op).Nodup) : s.runtime.Orderly op := by
  refine hfresh.orderly fun i op' heq => ?_
  subst heq
  refine h.runtime.room hC i op' (fun k => (h.placed_le hplaced hnodup k).1) fun k hk => ?_
  exact h.mem k (h.created k (by simp [(h.placed_le hplaced hnodup k).2 hk]))

/-- A step of the runtime that places nothing, or a coroutine whose place it is and that is nowhere
else. -/
theorem Places.runtime_step (h : Places C ended place s) (hC : C.card ≤ 65536)
    (hfresh : s.runtime.Fresh op) (hstep : s.runtime.step op = some runtime)
    (hplaced : ∀ k ∈ Workers.placed op, place k = some .runtime ∧ s.runtime.copies k = 0)
    (hnodup : (Workers.placed op).Nodup) :
    Places C ended place { s with runtime := runtime } ∧
      ∀ k ∈ s.runtime.taken op, runtime.copies k = 0 ∧ place k = some .runtime := by
  have hconserves := h.runtime.step (h.orderly hC hfresh hplaced hnodup) hstep
  have hone := h.placed_le hplaced hnodup
  refine ⟨h.setRuntime hconserves.regular (fun k => ?_) fun k hk => ?_, fun k hk => ?_⟩
  · have hle := hconserves.le k
    have hone := (hone k).1
    omega
  · have hle := hconserves.le k
    exact (hone k).2 (by omega)
  · have hle := hconserves.le k
    have hpos := List.count_pos_iff.mpr hk
    obtain ⟨hone, hplace⟩ := hone k
    exact ⟨by omega, hplace (by omega)⟩

omit [DecidableEq τ] in
/-- A coroutine that is nowhere can be placed in the runtime. -/
theorem Places.placeable (h : Places C ended place s) (hnowhere : Nowhere place s k)
    (hk : place k ≠ none) (hop : Workers.placed op = [k]) :
    Places C ended (Function.update place k (some .runtime)) s ∧ s.runtime.Fresh op ∧
      (∀ k' ∈ Workers.placed op, Function.update place k (some .runtime) k' = some .runtime ∧
        s.runtime.copies k' = 0) ∧ (Workers.placed op).Nodup := by
  refine ⟨h.replace hnowhere hk (some .runtime), Workers.fresh_of_placed (by simp [hop]), ?_,
    by simp [hop]⟩
  rw [hop]
  rintro k' hk'
  obtain rfl := List.mem_singleton.mp hk'
  exact ⟨Function.update_self _ _ _, Nat.eq_zero_of_not_pos (hnowhere.holds .runtime)⟩

/-- A coroutine that is nowhere is placed in the runtime. -/
theorem Places.within (h : Places C ended place s) (hC : C.card ≤ 65536)
    (hnowhere : Nowhere place s k) (hk : place k ≠ none) (hop : Workers.placed op = [k])
    (ht : s.within op = some t) :
    Places C ended (Function.update place k (some .runtime)) t := by
  obtain ⟨runtime, hstep, rfl⟩ := Option.map_eq_some_iff.mp ht
  obtain ⟨hreplaced, hfresh, hplaced, hnodup⟩ := h.placeable hnowhere hk hop
  exact (hreplaced.runtime_step hC hfresh hstep hplaced hnodup).1

omit [Fintype σ] [DecidableEq σ] [DecidableEq κ] [DecidableEq τ] in
/-- The steps of the loop and of the kernel place nothing. -/
theorem placed_of_placesHandle (hop : op.placesHandle = false) : Workers.placed op = [] := by
  cases op with
  | worker i op => cases op <;> simp_all [WorkersOp.placesHandle, WorkerOp.placesHandle,
      Workers.placed, Worker.placed]
  | push c target task =>
    simpa [WorkersOp.placesHandle, Workers.placed] using hop
  | notifyCoro c target k ok => simp [WorkersOp.placesHandle] at hop
  | _ => rfl

omit [Fintype σ] [DecidableEq κ] in
/-- What a step of the loop or of the kernel does to the stacks: the loop resumes a coroutine of its
batch, code of the user returns to the loop, the loop calls code of the user, or none of these. -/
theorem runtimeStep_cases (ht : s.runtimeStep op = some t) :
    Workers.placed op = [] ∧ ∃ runtime, s.runtime.step op = some runtime ∧
      ((∃ i k handles, op = .worker i (.resume false) ∧
          (s.runtime.workers i).pc = .batch (k :: handles) ∧
          t = ({ s with runtime := runtime }.setStack (.inl i) []).enter (.inl i) k) ∨
        (∃ i, op = .worker i .leave ∧ s.frames (.inl i) = [] ∧
          t = { s with runtime := runtime }.setStack (.inl i) []) ∨
        (∃ i, (op = .worker i .pop ∨ op = .worker i .poll) ∧
          (runtime.workers i).pc.user = true ∧
          t = { s with runtime := runtime }.setStack (.inl i) [.plain]) ∨
        ((∀ i, op ≠ .worker i .leave) ∧
          (s.runtime.taken op = [] ∨ ∃ i, op = .worker i (.resume true)) ∧
          (∀ i, op = .worker i .pop ∨ op = .worker i .poll →
            (runtime.workers i).pc.user = false) ∧
          t = { s with runtime := runtime })) := by
  unfold Program.runtimeStep at ht
  split at ht
  · simp at ht
  · rename_i hop
    refine ⟨placed_of_placesHandle (by simpa using hop), ?_⟩
    split at ht
    · rename_i i
      split at ht
      · rename_i k handles hpc
        obtain ⟨runtime, hr, rfl⟩ := Option.map_eq_some_iff.mp ht
        exact ⟨runtime, hr, .inl ⟨i, k, handles, rfl, hpc, rfl⟩⟩
      · rename_i hpc
        obtain ⟨runtime, hr, rfl⟩ := Option.map_eq_some_iff.mp ht
        refine ⟨runtime, hr, .inr (.inr (.inr ⟨by simp, .inl ?_, by simp, rfl⟩))⟩
        -- The batch is empty.
        cases Workers.StepCase.of_step hr with
        | worker _ _ w _ hw =>
          cases hw with
          | resume hbatch => exact (hpc _ _ hbatch).elim
          | endBatch hbatch =>
            simp [Workers.taken, Worker.taken, hbatch, LoopPc.remaining]
    · rename_i i
      split at ht
      · rename_i hstack
        obtain ⟨runtime, hr, rfl⟩ := Option.map_eq_some_iff.mp ht
        exact ⟨runtime, hr, .inr (.inl ⟨i, rfl, by rw [frames, hstack]; rfl, rfl⟩)⟩
      · rename_i hstack
        obtain ⟨runtime, hr, rfl⟩ := Option.map_eq_some_iff.mp ht
        exact ⟨runtime, hr, .inr (.inl ⟨i, rfl, by rw [frames, hstack]; rfl, rfl⟩)⟩
      · simp at ht
    · rename_i i
      obtain ⟨runtime, hr, rfl⟩ := Option.map_eq_some_iff.mp ht
      refine ⟨runtime, hr, .inr (.inr ?_)⟩
      dsimp only
      split_ifs with huser
      · exact .inl ⟨i, .inl rfl, huser, rfl⟩
      · exact .inr ⟨by simp, .inl rfl, by simpa using huser, rfl⟩
    · rename_i i
      obtain ⟨runtime, hr, rfl⟩ := Option.map_eq_some_iff.mp ht
      refine ⟨runtime, hr, .inr (.inr ?_)⟩
      dsimp only
      split_ifs with huser
      · exact .inl ⟨i, .inr rfl, huser, rfl⟩
      · exact .inr ⟨by simp, .inl rfl, by simpa using huser, rfl⟩
    · rename_i hresume hleave hpop hpoll
      obtain ⟨runtime, hr, rfl⟩ := Option.map_eq_some_iff.mp ht
      refine ⟨runtime, hr, .inr (.inr (.inr ⟨fun i => hleave i, ?_, fun i hi => ?_, rfl⟩))⟩
      · cases op with
        | worker i op =>
          cases op with
          | resume done =>
            cases done with
            | false => exact (hresume i rfl).elim
            | true => exact .inr ⟨i, rfl⟩
          | _ => exact .inl rfl
        | _ => exact .inl rfl
      · rcases hi with hi | hi
        · exact (hpop i hi).elim
        · exact (hpoll i hi).elim

/-- A step of the loop or of the kernel: the coroutine that the loop resumes is taken from the
runtime, and gets a place on the stack. -/
theorem Places.runtimeStep (h : Places C ended place s) (hC : C.card ≤ 65536)
    (hfresh : s.runtime.Fresh op) (ht : s.runtimeStep op = some t) :
    ∃ place', Places C ended place' t := by
  obtain ⟨hplaced, runtime, hr, hcases⟩ := runtimeStep_cases ht
  obtain ⟨hstepped, htaken⟩ := h.runtime_step hC hfresh hr (by simp [hplaced]) (by simp [hplaced])
  rcases hcases with ⟨i, k, handles, rfl, hpc, rfl⟩ | ⟨i, -, -, rfl⟩ | ⟨i, -, -, rfl⟩ |
    ⟨-, -, -, rfl⟩
  · -- The loop resumes a coroutine of its batch.
    obtain ⟨hzero, hplace⟩ := htaken k (by simp [Workers.taken, Worker.taken, hpc,
      LoopPc.remaining])
    have hempty := hstepped.setStack (.inl i) [] (List.nil_sublist _)
    have hnowhere := hempty.nowhere hplace (by simp [Holds, hzero, Program.setStack]) (by simp)
    exact ⟨_, (hempty.replace hnowhere (by simp [hplace]) (some (.stack (.inl i)))).enter
      (Function.update_self _ _ _) (hnowhere.holds (.stack (.inl i)))⟩
  · exact ⟨place, hstepped.setStack _ _ (List.nil_sublist _)⟩
  · exact ⟨place, hstepped.setStack _ _ (List.nil_sublist _)⟩
  · exact ⟨place, hstepped⟩

end

end

end Program

end Novaio
