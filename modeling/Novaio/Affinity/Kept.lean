import Novaio.Affinity.Exclusive

/-!
# No coroutine is lost

Where the inboxes and the submission queues have room, every coroutine that has been created and has
not ended is at some place (`Kept`), and at no other one (`exactly_one_place`). A step keeps the
coroutines that it does not move where they are. Those that it moves are listed (`moving`) from the
place that they leave to the one that they get. The continuations of tasks lead to a place in the
end, as each coroutine awaits tasks that were created after it (`Kept.exists_at`).
-/

namespace Novaio

open Transition

/-! ## What the runtime keeps -/

namespace Workers

variable {σ τ κ : Type*} [DecidableEq σ] {s t : Workers σ τ κ} {op : WorkersOp σ τ κ}

omit [DecidableEq σ] in
/-- A step that places a handle takes none from a batch. -/
theorem taken_of_placed (h : placed op ≠ []) : s.taken op = [] := by
  cases op with
  | worker i op => cases op <;> simp_all [placed, Worker.placed, taken, Worker.taken]
  | _ => rfl

/-- The message of a lossless step does not crash its sender. -/
theorem notifyTargetRing_pc {c : σ ⊕ τ} {target : σ} {data : UserData κ} {ok : Bool}
    (hlossless : ∀ i, c = .inl i → 0 < (s.workers i).engine.depth ∧
      ((s.workers i).engine.sqes.length < (s.workers i).engine.depth ∨ ok = true)) (j : σ) :
    ((s.notifyTargetRing c target data ok).workers j).pc = (s.workers j).pc := by
  obtain ⟨i, rfl, ⟨sqes, submitted, -, hs⟩ | ⟨hnone, -⟩⟩ | ⟨x, rfl, hs⟩ :=
    notifyTargetRing_cases s c target data ok
  · rw [hs]
    rcases eq_or_ne j i with rfl | hne
    · simp
    · simp [setWorker_of_ne s _ hne]
  · obtain ⟨hdepth, hroom⟩ := hlossless i rfl
    obtain ⟨hfull, hok⟩ := (IoEngine.sendMsgRing_eq_none_iff _ target data ok hdepth).mp hnone
    exact absurd hroom (by simp [hok, hfull])
  · rw [hs]

variable [DecidableEq τ]

/-- Code of the user runs on a worker until it returns to the loop. -/
theorem user_of_step (hstep : s.step op = some t) (hlossless : s.Lossless op)
    (hop : ∀ i, op ≠ .worker i .leave) {j : σ} (huser : (s.workers j).pc.user = true) :
    (t.workers j).pc.user = true := by
  cases hcase : StepCase.of_step hstep with
  | worker i op w hidle hw =>
    rcases eq_or_ne j i with rfl | hne
    · rw [setWorker_self]
      cases hw with
      | call huser' hcall => exact huser
      | callNull huser' hcall =>
        exact absurd hlossless (Nat.not_lt.mpr ((IoEngine.call_eq_none_iff _ _).mp hcall))
      | schedule _ | sleepFor _ _ | await _ | cancel _ => exact huser
      | leaveTask _ | leaveCoroutine _ | leaveCallback _ => exact (hop j rfl).elim
      | tick hpc _ _ => simp [hpc, LoopPc.user] at huser
      | popTask polled task inbox hpc hpop => simp [hpc, LoopPc.user] at huser
      | poll cqe cqes hpc hcqes => simp [hpc, LoopPc.user] at huser
      | _ hpc => simp [hpc, LoopPc.user] at huser
    · rwa [setWorker_of_ne s w hne]
  | submit i hpc | submitFails i hpc =>
    have hne : j ≠ i := by
      rintro rfl
      simp [hpc, LoopPc.user] at huser
    simpa [setWorker_of_ne s _ hne] using huser
  | push c target task inbox hidle hacts hpush =>
    show ((s.setWorker target _).workers j).pc.user = true
    rcases eq_or_ne j target with rfl | hne
    · rwa [setWorker_self]
    · rwa [setWorker_of_ne s _ hne]
  | notifyInbox c target ok hcall =>
    show ((s.notifyTargetRing c target .inbox ok).workers j).pc.user = true
    rwa [notifyTargetRing_pc]
    rintro i rfl
    exact hlossless
  | notifyCoro c target handle ok hidle hacts =>
    rwa [notifyTargetRing_pc]
    rintro i rfl
    exact hlossless
  | complete n origin sqe result more hentry | completeMore n origin sqe result hentry hsqe =>
    have hposted := (completeEntry_posted s origin sqe result).2.2.2 j
    show ((s.completeEntry origin sqe result).workers j).pc.user = true
    rwa [hposted.pc]
  | pushFull c target task | ringFd c target hcall | noRing c target hcall hinit | stop =>
    exact huser

end Workers

/-! ## What a step keeps -/

namespace Program

variable {σ τ κ μ ι ω : Type*} [Fintype σ] [DecidableEq σ] [DecidableEq κ]

/-- A place holds the coroutine, or it awaits a task that has not ended. -/
def Somewhere (ended : List κ) (s : Program σ τ κ μ ι ω) (k : κ) : Prop :=
  (∃ p, s.Holds p k) ∨ ∃ t, s.continuation t = some k ∧ t ∉ ended

/-- Every coroutine that has not ended is somewhere, unless it is moving. The thread of a worker has
coroutines on its stack only while its loop calls code of the user, no `run_task` is awaited as a
task, and coroutines await tasks that were created after them. -/
structure Kept (moving ended : List κ) (s : Program σ τ κ μ ι ω) : Prop where
  somewhere : ∀ k, s.created k = true → k ∉ ended → k ∉ moving → s.Somewhere ended k
  idle : ∀ i, (s.runtime.workers i).pc.user = false → s.frames (.inl i) = []
  helpers : ∀ k, s.counterOf k ≠ none → s.created k = true ∧ s.continuation k = none
  ranked : ∃ (rank : κ → ℕ) (n : ℕ), (∀ k, s.created k = true → rank k < n) ∧
    ∀ t k, s.continuation t = some k →
      s.created t = true ∧ s.created k = true ∧ rank k < rank t

variable {moving moving' ended : List κ} {s t : Program σ τ κ μ ι ω} {k : κ} {c : σ ⊕ τ}

/-- Coroutines move from a place to another one, and nothing is created. -/
theorem Kept.change (h : Kept moving ended s) (hcreated : t.created = s.created)
    (hcontinuation : t.continuation = s.continuation) (hcounterOf : t.counterOf = s.counterOf)
    (hidle : ∀ i, (t.runtime.workers i).pc.user = false → t.frames (.inl i) = [])
    (hholds : ∀ p k, s.Holds p k → k ∈ moving' ∨ t.Holds p k)
    (hmoving : ∀ k ∈ moving, k ∈ moving' ∨ ∃ q, t.Holds q k) : Kept moving' ended t where
  somewhere k hk hended hnot := by
    rw [hcreated] at hk
    by_cases hmem : k ∈ moving
    · exact .inl ((hmoving k hmem).resolve_left hnot)
    · rcases h.somewhere k hk hended hmem with ⟨p, hp⟩ | ⟨t', ht', hlive⟩
      · exact .inl ⟨p, (hholds p k hp).resolve_left hnot⟩
      · exact .inr ⟨t', by rw [hcontinuation, ht'], hlive⟩
  idle := hidle
  helpers k hk := by
    rw [hcounterOf] at hk
    rw [hcreated, hcontinuation]
    exact h.helpers k hk
  ranked := by
    rw [hcreated, hcontinuation]
    exact h.ranked

/-- A coroutine ends, so that its continuation awaits nothing. -/
theorem Kept.kill (h : Kept (k :: moving) ended s) :
    Kept ((s.continuation k).toList ++ moving) (ended ++ [k]) s := by
  refine { h with somewhere := fun k' hk' hended hnot => ?_ }
  simp only [List.mem_append, List.mem_singleton, not_or, Option.mem_toList] at hended hnot
  have hmem : k' ∉ k :: moving := by simp [hended.2, hnot.2]
  rcases h.somewhere k' hk' hended.1 hmem with hp | ⟨t, ht, hlive⟩
  · exact .inl hp
  · refine .inr ⟨t, ht, ?_⟩
    simp only [List.mem_append, List.mem_singleton, not_or]
    refine ⟨hlive, ?_⟩
    rintro rfl
    exact hnot.1 ht

/-- A coroutine is created, and is nowhere yet. -/
theorem Kept.create (h : Kept moving ended s) (hk : s.created k = false) :
    Kept (k :: moving) ended (s.create k) := by
  have hother {k' : κ} (hne : k' ≠ k) : (s.create k).created k' = s.created k' :=
    Function.update_of_ne hne _ _
  have hold {k' : κ} (hk' : s.created k' = true) : (s.create k).created k' = true := by
    rw [hother, hk']
    rintro rfl
    simp [hk] at hk'
  obtain ⟨rank, n, hrank, hawaits⟩ := h.ranked
  refine ⟨fun k' hk' hended hnot => ?_, h.idle, fun k' hk' => ?_,
    ⟨Function.update rank k n, n + 1, fun k' hk' => ?_, fun t k' ht => ?_⟩⟩
  · simp only [List.mem_cons, not_or] at hnot
    rw [hother hnot.1] at hk'
    exact h.somewhere k' hk' hended hnot.2
  · obtain ⟨hcreated, hnone⟩ := h.helpers k' hk'
    exact ⟨hold hcreated, hnone⟩
  · rcases eq_or_ne k' k with rfl | hne
    · rw [Function.update_self]
      exact Nat.lt_succ_self n
    · rw [Function.update_of_ne hne]
      exact Nat.lt_succ_of_lt (hrank k' (hother hne ▸ hk'))
  · obtain ⟨hcreated, hcreated', hlt⟩ := hawaits t k' ht
    have htk : t ≠ k := by
      rintro rfl
      simp [hk] at hcreated
    have hk'k : k' ≠ k := by
      rintro rfl
      simp [hk] at hcreated'
    rw [Function.update_of_ne htk, Function.update_of_ne hk'k]
    exact ⟨hold hcreated, hold hcreated', hlt⟩

/-- A task is created, and is nowhere yet; a coroutine awaits it. -/
theorem Kept.createTask (h : Kept (k :: moving) ended s) {task : κ}
    (htask : s.created task = false) (hk : s.created k = true) (hended : task ∉ ended) :
    Kept (task :: moving) ended
      { s.create task with
        continuation := Function.update s.continuation task (some k) } := by
  have hcreated := h.create htask
  obtain ⟨rank, n, hrank, hawaits⟩ := h.ranked
  have hnew {k' : κ} (hk' : s.created k' = true) : k' ≠ task := by
    rintro rfl
    simp [htask] at hk'
  have hold {k' : κ} (hk' : s.created k' = true) : (s.create task).created k' = true :=
    (Function.update_of_ne (hnew hk') _ _).trans hk'
  refine ⟨fun k' hk' hended' hnot => ?_, h.idle, fun k' hk' => ?_,
    ⟨Function.update rank task n, n + 1, fun k' hk' => ?_, fun t k' ht => ?_⟩⟩
  · rcases eq_or_ne k' k with rfl | hne
    · exact .inr ⟨task, Function.update_self _ _ _, hended⟩
    · simp only [List.mem_cons, not_or] at hnot
      have hmem : k' ∉ task :: k :: moving := by simp [hnot.1, hnot.2, hne]
      rcases hcreated.somewhere k' hk' hended' hmem with hp | ⟨t, ht, hlive⟩
      · exact .inl hp
      · exact .inr ⟨t, (Function.update_of_ne (hnew (hawaits t k' ht).1) _ _).trans ht, hlive⟩
  · obtain ⟨hhelper, hnone⟩ := h.helpers k' hk'
    exact ⟨hold hhelper, (Function.update_of_ne (hnew hhelper) _ _).trans hnone⟩
  · rcases eq_or_ne k' task with rfl | hne
    · rw [Function.update_self]
      exact Nat.lt_succ_self n
    · rw [Function.update_of_ne hne]
      exact Nat.lt_succ_of_lt (hrank k' ((Function.update_of_ne hne _ _).symm.trans hk'))
  · rcases eq_or_ne t task with rfl | hne
    · obtain rfl : k = k' := by simpa using ht
      rw [Function.update_self, Function.update_of_ne (hnew hk)]
      exact ⟨Function.update_self _ _ _, hold hk, hrank k hk⟩
    · obtain ⟨hcreated, hcreated', hlt⟩ := hawaits t k' (by simpa [hne] using ht)
      rw [Function.update_of_ne hne, Function.update_of_ne (hnew hcreated')]
      exact ⟨hold hcreated, hold hcreated', hlt⟩

section

variable [DecidableEq τ]

/-- A stack changes, and those of its coroutines that it keeps stay. -/
theorem Kept.setStack (h : Kept moving ended s) {stack : List (UserFrame κ ω)}
    (hmoving : moving ⊆ moving')
    (hframes : ∀ k ∈ s.frames c, k ∈ moving' ∨ k ∈ stack.filterMap UserFrame.coro)
    (hidle : ∀ i, c = .inl i → (s.runtime.workers i).pc.user = false →
      stack.filterMap UserFrame.coro = []) : Kept moving' ended (s.setStack c stack) := by
  have hself : (s.setStack c stack).frames c = stack.filterMap UserFrame.coro :=
    congrArg _ (Function.update_self _ _ _)
  have hother {c' : σ ⊕ τ} (hne : c' ≠ c) : (s.setStack c stack).frames c' = s.frames c' :=
    congrArg _ (Function.update_of_ne hne _ _)
  refine h.change rfl rfl rfl (fun i hi => ?_) (fun p k hp => ?_) fun k hk => .inl (hmoving hk)
  · rcases eq_or_ne (.inl i) c with rfl | hne
    · rw [hself]
      exact hidle i rfl hi
    · rw [hother hne]
      exact h.idle i hi
  · cases p with
    | stack c' =>
      rcases eq_or_ne c' c with rfl | hne
      · refine (hframes k hp).imp_right fun hk => ?_
        show k ∈ (s.setStack c' stack).frames c'
        rwa [hself]
      · right
        show k ∈ (s.setStack c stack).frames c'
        rwa [hother hne]
    | _ => exact .inr hp

/-- The coroutine that runs leaves the stack, and moves. -/
theorem Kept.leave (h : Kept moving ended s) {rest : List (UserFrame κ ω)}
    (hstack : s.stack c = .coroutine k :: rest) (hacts : s.acts c = true) :
    Kept (k :: moving) ended (s.leave c) := by
  refine h.setStack (List.subset_cons_self _ _) (fun k' hk' => ?_) fun i hi hidle => ?_
  · have hcons : s.frames c = k :: rest.filterMap UserFrame.coro := by
      rw [frames, hstack]
      rfl
    rw [hcons] at hk'
    rw [hstack]
    rcases List.mem_cons.mp hk' with rfl | hk'
    · exact .inl List.mem_cons_self
    · exact .inr hk'
  · subst hi
    have huser : (s.runtime.workers i).pc.user = true := (Bool.and_eq_true_iff.mp hacts).1
    simp [hidle] at huser

/-- A coroutine that moves is started or resumed. -/
theorem Kept.enter (h : Kept (k :: moving) ended s)
    (hacts : ∀ i, c = .inl i → (s.runtime.workers i).pc.user = true) :
    Kept moving ended (s.enter c k) := by
  have hself : (s.enter c k).frames c = k :: s.frames c := by
    simp only [frames, Program.enter, Program.setStack, Function.update_self]
    rfl
  have hother {c' : σ ⊕ τ} (hne : c' ≠ c) : (s.enter c k).frames c' = s.frames c' :=
    congrArg _ (Function.update_of_ne hne _ _)
  refine h.change rfl rfl rfl (fun i hi => ?_) (fun p k' hp => .inr ?_) fun k' hk' => ?_
  · have hne : .inl i ≠ c := by
      rintro rfl
      have huser := hacts i rfl
      simp_all [Program.enter, Program.setStack]
    rw [hother hne]
    exact h.idle i hi
  · cases p with
    | stack c' =>
      show k' ∈ (s.enter c k).frames c'
      rcases eq_or_ne c' c with rfl | hne
      · rw [hself]
        exact List.mem_cons_of_mem _ hp
      · rwa [hother hne]
    | _ => exact hp
  · rcases List.mem_cons.mp hk' with rfl | hk'
    · refine .inr ⟨.stack c, ?_⟩
      show k' ∈ (s.enter c k').frames c
      rw [hself]
      exact List.mem_cons_self
    · exact .inl hk'

end

/-- A counter changes. -/
theorem Kept.setCounter [DecidableEq ω] (h : Kept moving ended s) (moving' : List κ) (w : ω)
    (counter : WhenAllCounter κ)
    (hmoving : ∀ k ∈ moving, k ∈ moving' ∨ counter.count ≠ 0 ∧ counter.continuation = some k)
    (hcounter : ∀ old k, s.counters w = some old → old.count ≠ 0 → old.continuation = some k →
      k ∈ moving' ∨ counter.count ≠ 0 ∧ counter.continuation = some k) :
    Kept moving' ended
      { s with counters := Function.update s.counters w (some counter) } := by
  have hself {k : κ} (hk : counter.count ≠ 0 ∧ counter.continuation = some k) :
      Holds { s with counters := Function.update s.counters w (some counter) } (.counter w) k :=
    ⟨counter, Function.update_self _ _ _, hk⟩
  refine h.change rfl rfl rfl h.idle (fun p k hp => ?_) fun k hk =>
    (hmoving k hk).imp_right fun hk => ⟨.counter w, hself hk⟩
  cases p with
  | counter w' =>
    obtain ⟨old, hget, hcount, hk⟩ := hp
    rcases eq_or_ne w' w with rfl | hne
    · exact (hcounter old k hget hcount hk).imp_right hself
    · exact .inr ⟨old, (Function.update_of_ne hne _ _).trans hget, hcount, hk⟩
  | _ => exact .inr hp

/-- A mutex takes a step. -/
theorem Kept.setMutex [DecidableEq μ] (h : Kept moving ended s) {m : μ} {mutex : CoMutex κ σ}
    (hmoving : ∀ k ∈ moving, k ∈ moving' ∨ mutex.pc k = .suspended)
    (hsuspended : ∀ k, (s.mutexes m).pc k = .suspended → k ∈ moving' ∨ mutex.pc k = .suspended) :
    Kept moving' ended { s with mutexes := Function.update s.mutexes m mutex } := by
  have hself {k : κ} (hk : mutex.pc k = .suspended) :
      Holds { s with mutexes := Function.update s.mutexes m mutex } (.mutex m) k := by
    simpa [Holds] using hk
  refine h.change rfl rfl rfl h.idle (fun p k hp => ?_) fun k hk =>
    (hmoving k hk).imp_right fun hk => ⟨.mutex m, hself hk⟩
  cases p with
  | mutex m' =>
    rcases eq_or_ne m' m with rfl | hne
    · exact (hsuspended k hp).imp_right hself
    · right
      simpa [Holds, hne] using hp
  | _ => exact .inr hp

/-- An event takes a step. -/
theorem Kept.setEvent [DecidableEq ι] (h : Kept moving ended s) {e : ι}
    {event : Event (κ × ℕ) ((σ ⊕ τ) × ℕ) σ}
    (hmoving : ∀ k ∈ moving, k ∈ moving' ∨ ∃ n, event.waiterPc (k, n) = .suspended)
    (hsuspended : ∀ k n, (s.events e).waiterPc (k, n) = .suspended →
      k ∈ moving' ∨ event.waiterPc (k, n) = .suspended) :
    Kept moving' ended { s with events := Function.update s.events e event } := by
  have hself {k : κ} {n : ℕ} (hk : event.waiterPc (k, n) = .suspended) :
      Holds { s with events := Function.update s.events e event } (.event e n) k := by
    simpa [Holds] using hk
  refine h.change rfl rfl rfl h.idle (fun p k hp => ?_) fun k hk => ?_
  · cases p with
    | event e' n =>
      rcases eq_or_ne e' e with rfl | hne
      · exact (hsuspended k n hp).imp_right hself
      · right
        simpa [Holds, hne] using hp
    | _ => exact .inr hp
  · obtain hmem | ⟨n, hn⟩ := hmoving k hk
    · exact .inl hmem
    · exact .inr ⟨.event e n, hself hn⟩

/-! ## Steps of the runtime -/

variable [DecidableEq τ] {op : WorkersOp σ τ κ} {runtime : Workers σ τ κ} {C : Finset κ}
  {place : κ → Option (Place σ τ κ μ ι ω)}

/-- A step of the runtime that loses no handle. -/
theorem Kept.runtime_step (h : Kept moving ended s) (hregular : s.runtime.Regular)
    (horderly : s.runtime.Orderly op) (hlossless : s.runtime.Lossless op)
    (hstep : s.runtime.step op = some runtime)
    (hidle : ∀ i, (runtime.workers i).pc.user = false → s.frames (.inl i) = [])
    (htaken : ∀ k ∈ s.runtime.taken op, k ∈ moving')
    (hmoving : ∀ k ∈ moving, k ∈ moving' ∨ k ∈ Workers.placed op) :
    Kept moving' ended { s with runtime := runtime } := by
  have hcopies := (hregular.step horderly hstep).eq hlossless
  refine h.change rfl rfl rfl hidle (fun p k hp => ?_) fun k hk => ?_
  · cases p with
    | runtime =>
      by_cases hk : k ∈ s.runtime.taken op
      · exact .inl (htaken k hk)
      · have heq := hcopies k
        have hpos : 0 < s.runtime.copies k := hp
        rw [List.count_eq_zero_of_not_mem hk] at heq
        exact .inr (show 0 < runtime.copies k by omega)
    | _ => exact .inr hp
  · by_cases hmem : k ∈ moving'
    · exact .inl hmem
    · have hplaced := (hmoving k hk).resolve_left hmem
      have heq := hcopies k
      have hzero := List.count_eq_zero_of_not_mem fun hk => hmem (htaken k hk)
      have hpos := List.count_pos_iff.mpr hplaced
      exact .inr ⟨.runtime, show 0 < runtime.copies k by omega⟩

/-- A coroutine that moves is placed in the runtime. -/
theorem Kept.within (h : Kept (k :: moving) ended s) (hplaces : Places C ended place s)
    (hC : C.card ≤ 65536) (hnowhere : Nowhere place s k) (hk : place k ≠ none)
    (hop : Workers.placed op = [k]) (hlossless : s.runtime.Lossless op)
    (ht : s.within op = some t) : Kept moving ended t := by
  obtain ⟨runtime, hstep, rfl⟩ := Option.map_eq_some_iff.mp ht
  obtain ⟨hreplaced, hfresh, hplaced, hnodup⟩ := hplaces.placeable hnowhere hk hop
  refine h.runtime_step hplaces.runtime (hreplaced.orderly hC hfresh hplaced hnodup) hlossless
    hstep (fun i hi => h.idle i ?_) ?_ fun k' hk' => ?_
  · by_contra huser
    have huser := Workers.user_of_step hstep hlossless (fun i heq => by
      rw [heq] at hop
      simp [Workers.placed, Worker.placed] at hop) (by simpa using huser)
    simp [hi] at huser
  · rw [Workers.taken_of_placed (by simp [hop])]
    simp
  · rw [hop, List.mem_singleton]
    exact (List.mem_cons.mp hk').symm

/-- A step of the loop or of the kernel that loses no handle. -/
theorem Kept.runtimeStep (h : Kept [] ended s) (hplaces : Places C ended place s)
    (hC : C.card ≤ 65536) (hfresh : s.runtime.Fresh op) (hlossless : s.runtime.Lossless op)
    (hdone : ∀ i, op ≠ .worker i (.resume true)) (ht : s.runtimeStep op = some t) :
    Kept [] ended t := by
  obtain ⟨hplaced, runtime, hr, hcases⟩ := runtimeStep_cases ht
  have horderly := hplaces.orderly hC hfresh (by simp [hplaced]) (by simp [hplaced])
  -- A worker whose loop does not call code of the user has no coroutine on its stack.
  have hidle (hop : ∀ i, op ≠ .worker i .leave) (i : σ)
      (hi : (runtime.workers i).pc.user = false) : s.frames (.inl i) = [] := by
    refine h.idle i ?_
    by_contra huser
    have huser := Workers.user_of_step hr hlossless hop (by simpa using huser)
    simp [hi] at huser
  have hstep (moving : List κ) (hop : ∀ i, op ≠ .worker i .leave)
      (htaken : ∀ k ∈ s.runtime.taken op, k ∈ moving) :
      Kept moving ended { s with runtime := runtime } :=
    h.runtime_step hplaces.runtime horderly hlossless hr (hidle hop) htaken (by simp)
  rcases hcases with ⟨i, k, handles, rfl, hpc, rfl⟩ | ⟨i, rfl, hframes, rfl⟩ |
    ⟨i, hop, huser, rfl⟩ | ⟨hop, htaken, -, rfl⟩
  · -- The loop resumes a coroutine of its batch.
    have htaken := hstep [k] (by simp)
      (by simp [Workers.taken, Worker.taken, hpc, LoopPc.remaining])
    have hempty : s.frames (.inl i) = [] := h.idle i (by rw [hpc]; rfl)
    have hset : Kept [k] ended ({ s with runtime := runtime }.setStack (.inl i) []) := by
      refine htaken.setStack (List.Subset.refl _) (fun k' hk' => ?_) fun _ _ _ => rfl
      have hk' : k' ∈ s.frames (.inl i) := hk'
      simp [hempty] at hk'
    refine hset.enter fun j hj => ?_
    obtain rfl := Sum.inl.inj hj
    show (runtime.workers i).pc.user = true
    cases Workers.StepCase.of_step hr with
    | worker _ _ w _ hw =>
      rw [Workers.setWorker_self]
      cases hw with
      | resume _ => rfl
      | endBatch hbatch => simp [hpc] at hbatch
  · have hset : Kept [] ended { s with runtime := runtime } := by
      refine h.runtime_step hplaces.runtime horderly hlossless hr (fun j hj => ?_)
        (by simp [Workers.taken, Worker.taken]) (by simp)
      rcases eq_or_ne j i with rfl | hne
      · exact hframes
      · refine h.idle j ?_
        cases Workers.StepCase.of_step hr with
        | worker _ _ w _ hw => rwa [Workers.setWorker_of_ne _ _ hne] at hj
    refine hset.setStack (List.Subset.refl _) (fun k' hk' => ?_) fun _ _ _ => rfl
    have hk' : k' ∈ s.frames (.inl i) := hk'
    simp [hframes] at hk'
  · have hnone : (∀ i, op ≠ .worker i .leave) ∧ s.runtime.taken op = [] := by
      rcases hop with rfl | rfl
      · exact ⟨by simp, rfl⟩
      · exact ⟨by simp, rfl⟩
    have hset := hstep [] hnone.1 (by simp [hnone.2])
    have hbefore : (s.runtime.workers i).pc.user = false := by
      cases Workers.StepCase.of_step hr with
      | worker _ _ w _ hw =>
        obtain hop | hop := hop
        · obtain ⟨rfl, rfl⟩ := WorkersOp.worker.inj hop
          cases hw with
          | popTask polled task inbox hpc _ => rw [hpc]; rfl
          | popNone hpc _ => rw [hpc]; rfl
        · obtain ⟨rfl, rfl⟩ := WorkersOp.worker.inj hop
          cases hw with
          | poll cqe cqes hpc _ => rw [hpc]; rfl
          | endPoll hpc => rw [hpc]; rfl
      | _ => simp at hop
    refine hset.setStack (List.Subset.refl _) (fun k' hk' => ?_) fun j hj hjuser => rfl
    have hk' : k' ∈ s.frames (.inl i) := hk'
    simp [h.idle i hbefore] at hk'
  · refine hstep [] hop ?_
    rw [htaken.resolve_right (not_exists.mpr hdone)]
    simp

/-! ## Coroutines and tasks -/

omit [Fintype σ] [DecidableEq σ] [DecidableEq κ] [DecidableEq τ] in
/-- A worker that acts runs code of the user. -/
theorem user_of_acts (hacts : s.acts c = true) (i : σ) (hi : c = .inl i) :
    (s.runtime.workers i).pc.user = true := by
  subst hi
  exact (Bool.and_eq_true_iff.mp hacts).1

/-- A coroutine is suspended in a scheduler. -/
theorem Kept.suspend (h : Kept [] ended s) (hplaces : Places C ended place s)
    (hC : C.card ≤ 65536) (hk : s.running c = some k) (hop : Workers.placed op = [k])
    (hlossless : s.runtime.Lossless op)
    (ht : (s.within op).map (fun s => s.leave c) = some t) : Kept [] ended t := by
  obtain ⟨hacts, rest, hstack⟩ := stack_of_running hk
  obtain ⟨hleft, hnowhere, hplace⟩ := hplaces.leave hstack
  obtain ⟨_, hwithin, rfl⟩ := Option.map_eq_some_iff.mp ht
  obtain ⟨runtime, hstep, rfl⟩ := Option.map_eq_some_iff.mp hwithin
  refine (h.leave hstack hacts).within hleft hC hnowhere (by simp [hplace]) hop hlossless ?_
  show (s.runtime.step op).map _ = _
  rw [hstep]
  rfl

/-- A coroutine awaits a new task. -/
theorem Kept.awaitTask (h : Kept [] ended s) {rest : List (UserFrame κ ω)}
    (hstack : s.stack c = .coroutine k :: rest) (hacts : s.acts c = true)
    (hk : s.created k = true) {task : κ} (htask : s.created task = false) (hended : task ∉ ended) :
    Kept [] ended (s.awaitTask c k task) :=
  ((h.leave hstack hacts).createTask htask hk hended).enter (user_of_acts hacts)

/-- A task ends, and its continuation goes on. -/
theorem Kept.finish (h : Kept [] ended s) {rest : List (UserFrame κ ω)}
    (hstack : s.stack c = .coroutine k :: rest) (hacts : s.acts c = true) :
    Kept [] (ended ++ [k]) (s.finish c k) := by
  have hended : Kept ((s.continuation k).toList ++ []) (ended ++ [k]) (s.leave c) :=
    (h.leave hstack hacts).kill
  unfold Program.finish
  cases hp : s.continuation k with
  | none => simpa [hp] using hended
  | some p =>
    rw [hp] at hended
    exact hended.enter (user_of_acts hacts)

/-! ## `when_all` -/

variable [DecidableEq ω]

/-- A coroutine awaits `when_all`, with a new counter. -/
theorem Kept.whenAll (h : Kept [] ended s) {rest : List (UserFrame κ ω)}
    (hstack : s.stack c = .coroutine k :: rest) (hacts : s.acts c = true) {counter : ω}
    (hnew : s.counters counter = none) {n : ℕ} (hn : n ≠ 0) :
    Kept [] ended (s.whenAll c k counter n) := by
  have hleft : Kept [k] ended (s.setStack c (.startTasks counter n :: (s.stack c).tail)) := by
    refine h.setStack (List.nil_subset _) (fun k' hk' => ?_) fun i hi hidle => ?_
    · have hcons : s.frames c = k :: rest.filterMap UserFrame.coro := by
        rw [frames, hstack]
        rfl
      rw [hcons] at hk'
      rw [hstack]
      rcases List.mem_cons.mp hk' with rfl | hk'
      · exact .inl List.mem_cons_self
      · exact .inr hk'
    · have huser := user_of_acts hacts i hi
      simp [hidle] at huser
  refine hleft.setCounter [] counter ⟨n, some k⟩ (fun k' hk' => .inr ⟨hn, ?_⟩) fun old k' hold => ?_
  · rw [List.mem_singleton.mp hk']
  · simp [Program.setStack, hnew] at hold

omit [DecidableEq ω] in
/-- An iteration of `start_tasks` starts `run_task`, which awaits its task. -/
theorem Kept.runTask (h : Kept [] ended s) (hplaces : Places C ended place s) {counter : ω} {n : ℕ}
    {rest : List (UserFrame κ ω)} (hstack : s.stack c = .startTasks counter (n + 1) :: rest)
    (hacts : s.acts c = true) {helper task : κ} (hhelper : s.created helper = false)
    (htask : s.created task = false) (hne : helper ≠ task) :
    Kept [] ended (s.runTask c counter n helper task) := by
  have hframes : Kept [helper] ended
      ((s.create helper).setStack c (.startTasks counter n :: (s.stack c).tail)) := by
    refine (h.create hhelper).setStack (List.Subset.refl _) (fun k hk => .inr ?_)
      fun i hi hidle => ?_
    · have hsame : (s.create helper).frames c = rest.filterMap UserFrame.coro := by
        rw [frames, Program.create, hstack]
        rfl
      rw [hsame] at hk
      rwa [hstack]
    · have huser := user_of_acts hacts i hi
      have hidle : (s.runtime.workers i).pc.user = false := hidle
      simp [hidle] at huser
  have hcounterOf : Kept [helper] ended
      { (s.create helper).setStack c (.startTasks counter n :: (s.stack c).tail) with
        counterOf := Function.update s.counterOf helper (some counter) } := by
    refine { hframes with helpers := fun k hk => ?_ }
    rcases eq_or_ne k helper with rfl | hk'
    · exact ⟨Function.update_self _ _ _, hplaces.new k hhelper⟩
    · have hk : s.counterOf k ≠ none := by simpa [hk'] using hk
      exact hframes.helpers k hk
  refine (hcounterOf.enter (user_of_acts hacts)).awaitTask (k := helper)
    (Function.update_self _ _ _) hacts (Function.update_self _ _ _) ?_ fun hmem => ?_
  · exact (Function.update_of_ne hne.symm _ _).trans htask
  · simp [(hplaces.ended task hmem).1] at htask

/-- The end of `run_task`: the counter resumes its coroutine after the last child. -/
theorem Kept.notify (h : Kept [] ended s) (hplaces : Places C ended place s)
    (hC : C.card ≤ 65536) {helper : κ} (hk : s.running c = some helper) {counter : ω}
    (hhelper : s.counterOf helper = some counter) (ht : s.notify c helper counter = some t) :
    Kept [] (ended ++ [helper]) t := by
  obtain ⟨hacts, rest, hstack⟩ := stack_of_running hk
  have hended : Kept ((s.continuation helper).toList ++ []) (ended ++ [helper]) (s.leave c) :=
    (h.leave hstack hacts).kill
  rw [(h.helpers helper (by simp [hhelper])).2] at hended
  obtain ⟨whenAllCounter, hcounter, hcases⟩ := notify_cases ht
  -- The coroutine of the counter moves where the counter has been one.
  have hcounted (moving : List κ) (hmoving : ∀ k, whenAllCounter.count = 1 →
      whenAllCounter.continuation = some k → k ∈ moving) :
      Kept moving (ended ++ [helper]) (s.counted c helper counter whenAllCounter) := by
    have hset := hended.setCounter moving counter
      { whenAllCounter with count := whenAllCounter.count - 1 } (by simp)
      fun old k hold hcount hk => by
        obtain rfl : whenAllCounter = old := by
          simpa [Program.leave, Program.setStack, hcounter] using hold
        by_cases hlast : whenAllCounter.count = 1
        · exact .inl (hmoving k hlast hk)
        · exact .inr ⟨by simp only; omega, hk⟩
    refine { hset with helpers := fun k hk => ?_ }
    refine h.helpers k fun hnone => hk ?_
    show Function.update s.counterOf helper none k = none
    rcases eq_or_ne k helper with rfl | hne
    · exact Function.update_self _ _ _
    · rw [Function.update_of_ne hne, hnone]
  rcases hcases with ⟨hnone, rfl⟩ | ⟨k, hlast, hk, ⟨i, ht⟩ | rfl⟩
  · exact hcounted [] fun k hlast hk => by simp [hnone hlast] at hk
  · obtain ⟨hplaces', hmoving⟩ := hplaces.counted hstack hcounter
    obtain ⟨hnowhere, hlive⟩ := hmoving k hlast hk
    refine (hcounted [k] fun k' _ hk' => ?_).within hplaces' hC hnowhere hlive rfl ?_ ht
    · simpa [hk, eq_comm] using hk'
    · trivial
  · refine (hcounted [k] fun k' _ hk' => ?_).enter (user_of_acts hacts)
    simpa [hk, eq_comm] using hk'

/-! ## Mutexes and events -/

omit [Fintype σ] [DecidableEq κ] [DecidableEq τ] [DecidableEq ω] in
/-- The step loses no handle: what it does to the runtime loses none, a coroutine awaits an
operation that is under way, alone, and no coroutine that the loop takes from its batch is found to
be done. -/
def Lossless (s : Program σ τ κ μ ι ω) : ProgramOp σ τ κ μ ι ω → Prop
  | .runtime op => s.runtime.Lossless op ∧ ∀ i, op ≠ .worker i (.resume true)
  | .awaitIo i ctx => ∀ k, s.runtime.Lossless (.worker i (.await ctx k))
  | .lock c _ (.select _ _) ok => ∀ target k, s.runtime.Lossless (.notifyCoro c target k ok)
  | .event c _ (.resumeWaiter _ _) =>
    ∀ target k, s.runtime.Lossless (.push c target ⟨some (.schedule k)⟩)
  | _ => True

omit [DecidableEq ω] in
/-- What `unlock` does to have a waiter resumed places its handle in the runtime, as the waiter has
a scheduler. -/
theorem Kept.handOver (h : Kept [k] ended s) (hplaces : Places C ended place s)
    (hC : C.card ≤ 65536) (hnowhere : Nowhere place s k) (hk : place k ≠ none) {ok : Bool}
    (hlossless : ∀ target k, s.runtime.Lossless (.notifyCoro c target k ok))
    {awaiter : Awaiter κ σ} (hawaiter : awaiter.awaitingCoroutine = some k) {home : κ → Option σ}
    (hhome : awaiter.AtHome home) {current : Option σ}
    (ht : Program.handOver c ok (CoMutex.handover current awaiter) s = some t) :
    Kept [] ended t := by
  obtain ⟨target, htarget, -⟩ := hhome k hawaiter
  unfold CoMutex.handover at ht
  rw [htarget, hawaiter] at ht
  dsimp only at ht
  split_ifs at ht
  · obtain ⟨u, hu, ht⟩ := Option.bind_eq_some_iff.mp ht
    obtain rfl := Option.some.inj ht
    refine h.within hplaces hC hnowhere hk rfl ?_ hu
    trivial
  · obtain ⟨u, hu, ht⟩ := Option.bind_eq_some_iff.mp ht
    obtain rfl := Option.some.inj ht
    exact h.within hplaces hC hnowhere hk rfl (hlossless target k) hu

omit [DecidableEq ω] in
/-- A step of a coroutine or of a thread that uses a mutex. -/
theorem Kept.lock [DecidableEq μ] (h : Kept [] ended s) (hplaces : Places C ended place s)
    (hC : C.card ≤ 65536) {home : κ → Option σ} (hhome : AtHome home s) {m : μ}
    {op : LockOp κ σ} {ok : Bool} (ht : s.lock c m op ok = some t)
    (hlossless : s.Lossless (.lock c m op ok))
    (hstep : lockStep (s.mutexes m) op (t.mutexes m)) : Kept [] ended t := by
  obtain ⟨hmay, ht⟩ := Option.ite_none_right_eq_some.mp ht
  obtain ⟨mutex, hmutex, ht⟩ := Option.bind_eq_some_iff.mp ht
  obtain ⟨u, hu, rfl⟩ := Option.map_eq_some_iff.mp ht
  replace hstep : lockStep (s.mutexes m) op mutex := ⟨hmutex, hstep.2⟩
  obtain ⟨w, holder, hrep⟩ := hplaces.mutexes m
  have hrep' := CoMutex.rep_step hrep hstep
  rcases CoMutex.handover_of_step hrep hstep with
    ⟨hsame, hstays⟩ | ⟨j, current, k, rfl, hk, hselected, hawaiter, happend, hstays⟩
  · rw [hsame, List.drop_length] at hu
    obtain rfl := Option.some.inj hu
    have hset : Kept [] ended { s with mutexes := Function.update s.mutexes m mutex } :=
      h.setMutex (by simp) fun k hk => .inr (hstays k hk)
    split
    · rename_i k spurious _ _
      split_ifs with hk
      · -- The coroutine that runs is suspended in the mutex.
        obtain ⟨hacts, rest, hstack⟩ := stack_of_running (by simpa [mayLock] using hmay)
        refine (h.leave hstack hacts).setMutex (fun k' hk' => .inr ?_) fun k' hk' =>
          .inr (hstays k' hk')
        rwa [List.mem_singleton.mp hk']
      · exact hset
    · exact hset
  · -- The lock is given to a waiter, which the mutex holds no longer.
    rw [happend, List.drop_left] at hu
    have hplace := hplaces.holds (.mutex m) k hk
    have hset : Kept [k] ended { s with mutexes := Function.update s.mutexes m mutex } := by
      refine h.setMutex (by simp) fun k' hk' => ?_
      rcases eq_or_ne k' k with rfl | hne
      · exact .inl List.mem_cons_self
      · exact .inr (hstays k' hne hk')
    have hplaces' : Places C ended place
        { s with mutexes := Function.update s.mutexes m mutex } := by
      refine hplaces.setMutex hrep' fun k' hk' => ?_
      rcases CoMutex.suspended_of_step hrep hstep hk' with hbefore | ⟨spurious, heq⟩
      · exact hplaces.holds (.mutex m) k' hbefore
      · simp at heq
    have hnowhere := hplaces'.nowhere hplace (by simp [Holds, hselected]) (by simp)
    exact hset.handOver hplaces' hC hnowhere (by simp [hplace]) hlossless hawaiter
      (hhome.mutexes m _) hu

omit [DecidableEq ω] in
/-- What `set` does to have a waiter resumed places its handle in the runtime, or resumes it. -/
theorem Kept.resumeWaiter (h : Kept [k] ended s) (hplaces : Places C ended place s)
    (hC : C.card ≤ 65536) (hnowhere : Nowhere place s k) (hk : place k ≠ none)
    (hacts : s.acts c = true)
    (hlossless : ∀ target k, s.runtime.Lossless (.push c target ⟨some (.schedule k)⟩)) {n : ℕ}
    {current scheduler : Option σ}
    (ht : Program.resumeWaiter c (Event.resumeWaiter current scheduler (some (k, n))) s = some t) :
    Kept [] ended t := by
  unfold Event.resumeWaiter at ht
  dsimp only at ht
  split at ht
  · rename_i target
    split_ifs at ht
    · obtain ⟨u, hu, ht⟩ := Option.bind_eq_some_iff.mp ht
      obtain rfl := Option.some.inj ht
      refine h.within hplaces hC hnowhere hk rfl ?_ hu
      trivial
    · obtain ⟨u, hu, ht⟩ := Option.bind_eq_some_iff.mp ht
      obtain rfl := Option.some.inj ht
      exact h.within hplaces hC hnowhere hk rfl (hlossless target k) hu
  · obtain rfl := Option.some.inj ht
    exact h.enter (user_of_acts hacts)

omit [DecidableEq ω] in
/-- A step of a coroutine or of a thread that uses an event. -/
theorem Kept.event [DecidableEq ι] (h : Kept [] ended s) (hplaces : Places C ended place s)
    (hC : C.card ≤ 65536) {e : ι} {op : EventOp (κ × ℕ) ((σ ⊕ τ) × ℕ) σ}
    (ht : s.event c e op = some t)
    (hlossless : s.Lossless (.event c e op))
    (hstep : eventStep (s.events e) op (t.events e)) : Kept [] ended t := by
  obtain ⟨hmay, ht⟩ := Option.ite_none_right_eq_some.mp ht
  obtain ⟨event, hevent, ht⟩ := Option.bind_eq_some_iff.mp ht
  obtain ⟨u, hu, rfl⟩ := Option.map_eq_some_iff.mp ht
  replace hstep : eventStep (s.events e) op event := ⟨hevent, hstep.2⟩
  obtain ⟨queued, detached, first, hrep⟩ := hplaces.events e
  have hrep' := Event.rep_step hrep hstep
  rcases Event.resumptions_step hrep hstep with
    ⟨hsame, hstays⟩ | ⟨setter, current, ⟨k, n⟩, rfl, hk, happend, hresumed, hstays⟩
  · rw [hsame, List.drop_length] at hu
    obtain rfl := Option.some.inj hu
    have hset : Kept [] ended { s with events := Function.update s.events e event } :=
      h.setEvent (by simp) fun k n hk => .inr (hstays (k, n) hk)
    split
    · rename_i waiter current _ _
      split_ifs with hk
      · -- The coroutine that runs is suspended in the event.
        have hrunning : s.running c = some waiter.1 := (by simpa [maySignal] using hmay :
          s.running c = some waiter.1 ∧ current = currentScheduler c).1
        obtain ⟨hacts, rest, hstack⟩ := stack_of_running hrunning
        refine (h.leave hstack hacts).setEvent (fun k' hk' => .inr ⟨waiter.2, ?_⟩) fun k n hk =>
          .inr (hstays (k, n) hk)
        rwa [List.mem_singleton.mp hk']
      · exact hset
    · exact hset
  · -- A waiter is resumed, which the event holds no longer.
    rw [happend, List.drop_left] at hu
    have hacts : s.acts c = true := (by simpa [maySignal] using hmay :
      s.acts c = true ∧ setter.1 = c ∧ current = currentScheduler c).1
    have hplace := hplaces.holds (.event e n) k hk
    have hset : Kept [k] ended { s with events := Function.update s.events e event } := by
      refine h.setEvent (by simp) fun k' n' hk' => ?_
      rcases eq_or_ne (k', n') (k, n) with heq | hne
      · exact .inl (List.mem_singleton.mpr (Prod.mk.inj heq).1)
      · exact .inr ((hstays (k', n') hne).trans hk')
    have hplaces' : Places C ended place
        { s with events := Function.update s.events e event } := by
      refine hplaces.setEvent hrep' fun k' n' hk' => hplaces.holds (.event e n') k' ?_
      by_contra hne
      obtain ⟨_, heq, -⟩ := Event.newly_suspended hstep hne hk'
      simp at heq
    have hnowhere := hplaces'.nowhere hplace (by simp [Holds, hresumed]) (by simp)
    exact hset.resumeWaiter hplaces' hC hnowhere (by simp [hplace]) hacts hlossless hu

/-! ## Every step -/

variable [DecidableEq μ] [DecidableEq ι]

/-- The step lemma: a lossless step keeps every coroutine somewhere. -/
theorem Kept.step (h : Kept [] ended s) (hplaces : Places C ended place s) (hC : C.card ≤ 65536)
    {home : κ → Option σ} (hhome : AtHome home s) {op : ProgramOp σ τ κ μ ι ω}
    (horderly : s.Orderly C op) (hlossless : s.Lossless op) (hstep : programStep s op t) :
    Kept [] (ended ++ s.ends op) t := by
  obtain ⟨ht, hop⟩ := hstep
  cases op with
  | runtime op =>
    simpa [ends] using h.runtimeStep hplaces hC horderly hlossless.1 hlossless.2 ht
  | schedule i k =>
    obtain ⟨⟨-, hk⟩, ht⟩ := Option.ite_none_right_eq_some.mp ht
    obtain ⟨hcreated, hnowhere⟩ := hplaces.create hk horderly .runtime
    have hkept := (h.create hk).within hcreated hC hnowhere (by simp) rfl (by trivial) ht
    simpa [ends] using hkept
  | sleepFor i node ms now =>
    simp only [Program.step] at ht
    split at ht
    · rename_i k hk
      have hkept := h.suspend hplaces hC hk rfl (by trivial) ht
      simpa [ends] using hkept
    · simp at ht
  | awaitIo i ctx =>
    simp only [Program.step] at ht
    split at ht
    · rename_i k hk
      have hkept := h.suspend hplaces hC hk rfl (hlossless k) ht
      simpa [ends] using hkept
    · simp at ht
  | awaitTask c task =>
    simp only [Program.step] at ht
    split at ht
    · rename_i k hk
      obtain ⟨hacts, rest, hstack⟩ := stack_of_running hk
      obtain ⟨htask, ht⟩ := Option.ite_none_right_eq_some.mp ht
      obtain rfl := Option.some.inj ht
      obtain ⟨-, -, hplace⟩ := hplaces.leave hstack
      have hended : task ∉ ended := fun hmem => by simp [(hplaces.ended task hmem).1] at htask
      simpa [ends] using
        h.awaitTask hstack hacts (hplaces.created k (by simp [hplace])) htask hended
    · simp at ht
  | finish c =>
    simp only [Program.step] at ht
    split at ht
    · rename_i k hk
      obtain ⟨hacts, rest, hstack⟩ := stack_of_running hk
      obtain ⟨-, ht⟩ := Option.ite_none_right_eq_some.mp ht
      obtain rfl := Option.some.inj ht
      simpa [ends, hk] using h.finish hstack hacts
    · simp at ht
  | whenAll c counter n =>
    simp only [Program.step] at ht
    split at ht
    · rename_i k hk hcounter
      obtain ⟨hacts, rest, hstack⟩ := stack_of_running hk
      obtain ⟨hn, ht⟩ := Option.ite_none_right_eq_some.mp ht
      obtain rfl := Option.some.inj ht
      simpa [ends] using h.whenAll hstack hacts hcounter hn
    · simp at ht
  | runTask c helper task =>
    simp only [Program.step] at ht
    split at ht
    · rename_i counter n rest hstack
      obtain ⟨⟨hacts, hhelper, htask, hne⟩, ht⟩ := Option.ite_none_right_eq_some.mp ht
      obtain rfl := Option.some.inj ht
      simpa [ends] using h.runTask hplaces hstack hacts hhelper htask hne
    · simp at ht
  | endStartTasks c =>
    simp only [Program.step] at ht
    split at ht
    · rename_i counter rest hstack
      obtain ⟨hacts, ht⟩ := Option.ite_none_right_eq_some.mp ht
      obtain rfl := Option.some.inj ht
      have hleft : Kept [] ended (s.leave c) := by
        refine h.setStack (List.Subset.refl _) (fun k hk => .inr ?_) fun i hi hidle => ?_
        · rw [frames, hstack] at hk
          rwa [hstack]
        · have huser := user_of_acts hacts i hi
          simp [hidle] at huser
      simpa [ends] using hleft
    · simp at ht
  | notify c =>
    simp only [Program.step] at ht
    split at ht
    · rename_i helper hhelper
      split at ht
      · rename_i counter hcounter
        simpa [ends, hhelper] using h.notify hplaces hC hhelper hcounter ht
      · simp at ht
    · simp at ht
  | lock c m op ok => simpa [ends] using h.lock hplaces hC hhome ht hlossless hop
  | event c e op => simpa [ends] using h.event hplaces hC ht hlossless hop

end Program

end Novaio
