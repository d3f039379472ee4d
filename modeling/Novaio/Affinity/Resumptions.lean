import Novaio.Affinity.Homes
import Novaio.CoMutex.Fairness
import Novaio.Event.Broadcast
import Novaio.Lib.Path

/-!
# Where coroutines are resumed

An awaiter of a mutex or of an event has the scheduler that was current when its coroutine
suspended, which is the home of the coroutine. The steps of mutexes and events write nothing else
there (`awaiters_step`), and have only the coroutines of awaiters resumed. With it every step of the
program keeps the coroutines at home (`AtHome.step`), so that each is resumed by one scheduler only.
-/

namespace Novaio

open Transition

namespace CoMutex

variable {κ σ : Type*} [DecidableEq κ] {m m' : CoMutex κ σ} {op : LockOp κ σ}

omit [DecidableEq κ] in
/-- The link of an awaiter is written. -/
theorem setNext_awaiters (m : CoMutex κ σ) (a b : ℕ) (p : Option ℕ) :
    ((m.setAwaiter b ({ · with next := p })).awaiters a).awaitingCoroutine =
        (m.awaiters a).awaitingCoroutine ∧
      ((m.setAwaiter b ({ · with next := p })).awaiters a).scheduler =
        (m.awaiters a).scheduler := by
  rw [setAwaiter_awaiters]
  split_ifs with h
  · rw [h]
    exact ⟨rfl, rfl⟩
  · exact ⟨rfl, rfl⟩

/-- What the steps keep that neither make an awaiter nor select one: the coroutine and the scheduler
of every awaiter, and what was handed over. -/
theorem kept_step [DecidableEq σ] (h : m.step op = some m')
    (hload : ∀ k a current, op ≠ .load k a current)
    (hselect : ∀ k current, op ≠ .select k current) :
    m'.handovers = m.handovers ∧
      ∀ a, (m'.awaiters a).awaitingCoroutine = (m.awaiters a).awaitingCoroutine ∧
        (m'.awaiters a).scheduler = (m.awaiters a).scheduler := by
  cases StepCase.of_step h with
  | load k a current _ => exact (hload k a current rfl).elim
  | select k current _ => exact (hselect k current rfl).elim
  | compareExchangeWeak k oldState spurious _ =>
    unfold compareExchangeWeak
    split
    · split_ifs <;> exact ⟨rfl, fun _ => ⟨rfl, rfl⟩⟩
    · dsimp only
      split_ifs <;> exact ⟨rfl, fun a => setNext_awaiters m a _ _⟩
  | reverse k current prev _ =>
    unfold reverse
    split
    · exact ⟨rfl, fun a => setNext_awaiters m a _ _⟩
    · exact ⟨rfl, fun _ => ⟨rfl, rfl⟩⟩
  | unlock k _ =>
    unfold unlock
    split_ifs <;> exact ⟨rfl, fun _ => ⟨rfl, rfl⟩⟩
  | exchange k _ =>
    unfold exchange
    dsimp only
    split_ifs <;> exact ⟨rfl, fun _ => ⟨rfl, rfl⟩⟩
  | compareExchangeStrong k _ =>
    unfold compareExchangeStrong
    split_ifs <;> exact ⟨rfl, fun _ => ⟨rfl, rfl⟩⟩
  | exchangeAgain k _ => exact ⟨rfl, fun _ => ⟨rfl, rfl⟩⟩
  | resume k _ _ => exact ⟨rfl, fun _ => ⟨rfl, rfl⟩⟩

/-- What a step writes to the coroutine and the scheduler of an awaiter: those of the call of
`lock`, or nothing. -/
theorem awaiters_step [DecidableEq σ] (h : m.step op = some m') (a : ℕ) :
    ((m'.awaiters a).awaitingCoroutine = (m.awaiters a).awaitingCoroutine ∧
        (m'.awaiters a).scheduler = (m.awaiters a).scheduler) ∨
      ∃ k current, op = .load k a current ∧ (m'.awaiters a).awaitingCoroutine = some k ∧
        (m'.awaiters a).scheduler = current := by
  cases StepCase.of_step h with
  | load k b current _ =>
    have hmem : (m.load k b current).awaiters a =
        if a = b then { awaitingCoroutine := some k, scheduler := current } else m.awaiters a :=
      Function.update_apply _ _ _ _
    rw [hmem]
    split_ifs with hab
    · exact .inr ⟨k, current, hab ▸ rfl, rfl, rfl⟩
    · exact .inl ⟨rfl, rfl⟩
  | select k current _ =>
    left
    unfold select
    split
    · exact ⟨rfl, rfl⟩
    · dsimp only
      split <;> exact ⟨rfl, rfl⟩
  | _ => exact .inl ((kept_step h (by simp) (by simp)).2 a)

/-- What a step hands over: the first of the waiters, in the last step of `unlock`, or nothing. -/
theorem handovers_step [DecidableEq σ] (h : m.step op = some m') :
    m'.handovers = m.handovers ∨ ∃ k current a, op = .select k current ∧
      m'.handovers = m.handovers ++ handover current (m.awaiters a) := by
  cases StepCase.of_step h with
  | load k b current _ => exact .inl rfl
  | select k current _ =>
    unfold select
    cases m.waitersHead with
    | none => exact .inl rfl
    | some a =>
      refine .inr ⟨k, current, a, rfl, ?_⟩
      dsimp only
      split <;> rfl
  | _ => exact .inl (kept_step h (by simp) (by simp)).1

end CoMutex

namespace Event

variable {ω τ σ : Type*} [DecidableEq ω] [DecidableEq τ] [DecidableEq σ] {e e' : Event ω τ σ}
  {op : EventOp ω τ σ}

/-- What a step writes to the coroutine and the scheduler of an awaiter: those of `await_suspend`,
or nothing, or no coroutine. -/
theorem awaiters_step (h : e.step op = some e') (a : ℕ) :
    (e'.awaiters a).awaitingCoroutine = none ∨
      ((e'.awaiters a).awaitingCoroutine = (e.awaiters a).awaitingCoroutine ∧
        (e'.awaiters a).scheduler = (e.awaiters a).scheduler) ∨
      ∃ i current, op = .awaitSuspend i current ∧ (e'.awaiters a).awaitingCoroutine = some i ∧
        (e'.awaiters a).scheduler = current := by
  cases StepCase.of_step h with
  | awaitReady i b _ =>
    have hmem : (e.awaitReady i b).awaiters a = if a = b then {} else e.awaiters a :=
      Function.update_apply _ _ _ _
    rw [hmem]
    split_ifs
    · exact .inl rfl
    · exact .inr (.inl ⟨rfl, rfl⟩)
  | awaitSuspend i current _ =>
    right
    rcases eq_or_ne a (e.address i) with rfl | hne
    · right
      refine ⟨i, current, rfl, ?_⟩
      unfold awaitSuspend
      split_ifs
      · simp [waiterAt, setAwaiter]
      · simp [waiterAt, setAwaiter]
    · left
      unfold awaitSuspend
      split_ifs
      · simp [waiterAt, setAwaiter, hne]
      · simp [waiterAt, setAwaiter, hne]
  | resumeWaiter setter waiters current _ =>
    rw [(resumeStep_frame e setter waiters current).1]
    exact .inr (.inl ⟨rfl, rfl⟩)
  | _ => exact .inr (.inl ⟨rfl, rfl⟩)

/-- What a step passes on: a waiter, in the loop of `set`, or nothing. -/
theorem resumptions_eq_step (h : e.step op = some e') :
    e'.resumptions = e.resumptions ∨ ∃ setter current a, op = .resumeWaiter setter current ∧
      e'.resumptions = e.resumptions ++
        resumeWaiter current (e.awaiters a).scheduler (e.awaiters a).awaitingCoroutine := by
  cases StepCase.of_step h with
  | resumeWaiter setter waiters current _ =>
    unfold resumeStep
    cases waiters with
    | none => exact .inl rfl
    | some a =>
      refine .inr ⟨setter, current, a, rfl, ?_⟩
      dsimp only
      split <;> rfl
  | awaitSuspend i current _ =>
    unfold awaitSuspend
    split_ifs <;> exact .inl rfl
  | _ => exact .inl rfl

end Event

namespace Program

variable {σ τ κ μ ι ω : Type*} {home : κ → Option σ} {s t : Program σ τ κ μ ι ω}

section

variable [DecidableEq σ] [DecidableEq τ]

/-! ## Mutexes -/

/-- What `unlock` does to have a waiter resumed belongs to the home of the waiter. -/
theorem AtHome.handOver (h : AtHome home s) {c : σ ⊕ τ} {ok : Bool} {awaiter : Awaiter κ σ}
    (ha : awaiter.AtHome home) {current : Option σ}
    (ht : Program.handOver c ok (CoMutex.handover current awaiter) s = some t) :
    AtHome home t := by
  unfold CoMutex.handover at ht
  split at ht
  · exact Option.some.inj ht ▸ h
  · rename_i target htarget
    cases hk : awaiter.awaitingCoroutine with
    | none =>
      rw [hk] at ht
      split_ifs at ht <;> simp [Program.handOver] at ht
    | some k =>
      obtain ⟨i, hi, hhome⟩ := ha k hk
      obtain rfl : target = i := Option.some.inj (htarget.symm.trans hi)
      rw [hk] at ht
      split_ifs at ht
      · obtain ⟨u, hu, ht⟩ := Option.bind_eq_some_iff.mp ht
        exact Option.some.inj ht ▸ h.within (.worker target (.schedule k)) hhome hu
      · obtain ⟨u, hu, ht⟩ := Option.bind_eq_some_iff.mp ht
        exact Option.some.inj ht ▸ h.within (.notifyCoro c target k ok) hhome hu

variable [DecidableEq κ]

/-- The step lemma for the steps of a coroutine or a thread that uses a mutex. -/
theorem AtHome.lock [DecidableEq μ] (h : AtHome home s) {c : σ ⊕ τ} {m : μ} {op : LockOp κ σ}
    {ok : Bool} (ht : s.lock c m op ok = some t) : AtHome home t := by
  obtain ⟨hmay, ht⟩ := Option.ite_none_right_eq_some.mp ht
  obtain ⟨mutex, hmutex, ht⟩ := Option.bind_eq_some_iff.mp ht
  obtain ⟨u, hu, rfl⟩ := Option.map_eq_some_iff.mp ht
  have hset : AtHome home { s with mutexes := Function.update s.mutexes m mutex } := by
    refine { h with mutexes := fun m' a k hk => ?_ }
    rcases eq_or_ne m' m with rfl | hne
    · simp only [Function.update_self] at hk ⊢
      rcases CoMutex.awaiters_step hmutex a with ⟨hcoro, hscheduler⟩ | ⟨k', current, rfl, hcoro, hs⟩
      · rw [hscheduler]
        exact h.mutexes m' a k (hcoro ▸ hk)
      · -- The awaiter of a new call of `lock`, by a coroutine that runs.
        obtain rfl : k' = k := Option.some.inj (hcoro.symm.trans hk)
        obtain ⟨hrunning, rfl⟩ : s.running c = some k' ∧ current = currentScheduler c := by
          simpa [mayLock] using hmay
        obtain ⟨i, rfl, hi⟩ := h.of_running hrunning
        exact ⟨i, hs, hi⟩
    · simp only [Function.update_of_ne hne] at hk ⊢
      exact h.mutexes m' a k hk
  -- What is handed over is the coroutine of an awaiter, which is at home with its scheduler.
  have hhanded : AtHome home u := by
    rcases CoMutex.handovers_step hmutex with hsame | ⟨k, current, a, rfl, happend⟩
    · rw [hsame, List.drop_length] at hu
      exact Option.some.inj hu ▸ hset
    · rw [happend, List.drop_left] at hu
      exact hset.handOver (h.mutexes m a) hu
  split
  · split_ifs
    · exact hhanded.leave c
    · exact hhanded
  · exact hhanded

/-! ## Events -/

omit [DecidableEq κ] in
/-- What `set` does to have a waiter resumed belongs to the home of the waiter. -/
theorem AtHome.resumeWaiter (h : AtHome home s) {c : σ ⊕ τ} {awaiter : Awaiter (κ × ℕ) σ}
    (ha : awaiter.AtHome fun waiter => home waiter.1) {current : Option σ}
    (ht : Program.resumeWaiter c
      (Event.resumeWaiter current awaiter.scheduler awaiter.awaitingCoroutine) s = some t) :
    AtHome home t := by
  cases hwaiter : awaiter.awaitingCoroutine with
  | none =>
    rw [hwaiter] at ht
    exact Option.some.inj ht ▸ h
  | some waiter =>
    obtain ⟨i, hi, hhome⟩ := ha waiter hwaiter
    rw [hwaiter, hi] at ht
    unfold Event.resumeWaiter at ht
    dsimp only at ht
    split_ifs at ht
    · obtain ⟨u, hu, ht⟩ := Option.bind_eq_some_iff.mp ht
      exact Option.some.inj ht ▸ h.within (.worker i (.schedule waiter.1)) hhome hu
    · obtain ⟨u, hu, ht⟩ := Option.bind_eq_some_iff.mp ht
      refine Option.some.inj ht ▸ h.within (.push c i ⟨some (.schedule waiter.1)⟩) ?_ hu
      intro k hk
      obtain rfl : waiter.1 = k := Option.some.inj hk
      exact hhome

/-- The step lemma for the steps of a coroutine or a thread that uses an event. -/
theorem AtHome.event [DecidableEq ι] (h : AtHome home s) {c : σ ⊕ τ} {e : ι}
    {op : EventOp (κ × ℕ) ((σ ⊕ τ) × ℕ) σ} (ht : s.event c e op = some t) : AtHome home t := by
  obtain ⟨hmay, ht⟩ := Option.ite_none_right_eq_some.mp ht
  obtain ⟨event, hevent, ht⟩ := Option.bind_eq_some_iff.mp ht
  obtain ⟨u, hu, rfl⟩ := Option.map_eq_some_iff.mp ht
  have hset : AtHome home { s with events := Function.update s.events e event } := by
    refine { h with events := fun e' a waiter hw => ?_ }
    rcases eq_or_ne e' e with rfl | hne
    · simp only [Function.update_self] at hw ⊢
      rcases Event.awaiters_step hevent a with
        hnone | ⟨hcoro, hscheduler⟩ | ⟨i, current, rfl, hcoro, hs⟩
      · simp [hnone] at hw
      · rw [hscheduler]
        exact h.events e' a waiter (hcoro ▸ hw)
      · -- The awaiter of a coroutine that runs, and suspends.
        obtain rfl : i = waiter := Option.some.inj (hcoro.symm.trans hw)
        obtain ⟨hrunning, rfl⟩ : s.running c = some i.1 ∧ current = currentScheduler c := by
          simpa [maySignal] using hmay
        obtain ⟨j, rfl, hj⟩ := h.of_running hrunning
        exact ⟨j, hs, hj⟩
    · simp only [Function.update_of_ne hne] at hw ⊢
      exact h.events e' a waiter hw
  -- What is resumed is the coroutine of an awaiter, which is at home with its scheduler.
  have hresumed : AtHome home u := by
    rcases Event.resumptions_eq_step hevent with hsame | ⟨setter, current, a, rfl, happend⟩
    · rw [hsame, List.drop_length] at hu
      exact Option.some.inj hu ▸ hset
    · rw [happend, List.drop_left] at hu
      exact hset.resumeWaiter (h.events e a) hu
  split
  · split_ifs
    · exact hresumed.leave c
    · exact hresumed
  · exact hresumed

/-! ## Every step -/

variable [DecidableEq μ] [DecidableEq ι] [DecidableEq ω]

/-- The step lemma: coroutines stay at home, and new ones get a home. -/
theorem AtHome.step (h : AtHome home s) {op : ProgramOp σ τ κ μ ι ω} (ht : s.step op = some t) :
    ∃ home', AtHome home' t := by
  cases op with
  | runtime op => exact ⟨home, h.runtimeStep ht⟩
  | schedule i k =>
    obtain ⟨⟨-, hk⟩, ht⟩ := Option.ite_none_right_eq_some.mp ht
    exact ⟨_, (h.create hk i).within (.worker i (.schedule k)) (Function.update_self _ _ _) ht⟩
  | sleepFor i node ms now =>
    simp only [Program.step] at ht
    split at ht
    · rename_i k hk
      obtain ⟨u, hu, rfl⟩ := Option.map_eq_some_iff.mp ht
      obtain ⟨j, hj, hhome⟩ := h.of_running hk
      obtain rfl : i = j := Sum.inl.inj hj
      exact ⟨home, (h.within (.worker i (.sleepFor node ms now k)) hhome hu).leave _⟩
    · simp at ht
  | awaitIo i ctx =>
    simp only [Program.step] at ht
    split at ht
    · rename_i k hk
      obtain ⟨u, hu, rfl⟩ := Option.map_eq_some_iff.mp ht
      obtain ⟨j, hj, hhome⟩ := h.of_running hk
      obtain rfl : i = j := Sum.inl.inj hj
      exact ⟨home, (h.within (.worker i (.await ctx k)) hhome hu).leave _⟩
    · simp at ht
  | awaitTask c task =>
    simp only [Program.step] at ht
    split at ht
    · rename_i k hk
      obtain ⟨htask, ht⟩ := Option.ite_none_right_eq_some.mp ht
      exact Option.some.inj ht ▸ h.awaitTask (h.of_running hk) htask
    · simp at ht
  | finish c =>
    simp only [Program.step] at ht
    split at ht
    · rename_i k hk
      obtain ⟨-, ht⟩ := Option.ite_none_right_eq_some.mp ht
      exact ⟨home, Option.some.inj ht ▸ h.finish (h.of_running hk)⟩
    · simp at ht
  | whenAll c counter n =>
    simp only [Program.step] at ht
    split at ht
    · rename_i k hk hcounter
      obtain ⟨-, ht⟩ := Option.ite_none_right_eq_some.mp ht
      exact ⟨home, Option.some.inj ht ▸ h.whenAll (h.of_running hk) hcounter n⟩
    · simp at ht
  | runTask c helper task =>
    simp only [Program.step] at ht
    split at ht
    · rename_i counter n frames hstack
      obtain ⟨⟨-, hhelper, htask, hne⟩, ht⟩ := Option.ite_none_right_eq_some.mp ht
      exact Option.some.inj ht ▸ h.runTask hstack hhelper htask hne
    · simp at ht
  | endStartTasks c =>
    simp only [Program.step] at ht
    split at ht
    · obtain ⟨-, ht⟩ := Option.ite_none_right_eq_some.mp ht
      exact ⟨home, Option.some.inj ht ▸ h.leave c⟩
    · simp at ht
  | notify c =>
    simp only [Program.step] at ht
    split at ht
    · rename_i helper hhelper
      split at ht
      · rename_i counter hcounter
        exact ⟨home, h.notify (h.of_running hhelper) hcounter ht⟩
      · simp at ht
    · simp at ht
  | lock c m op ok => exact ⟨home, h.lock ht⟩
  | event c e op => exact ⟨home, h.event ht⟩

end

/-- In a program at its start, there is no coroutine. -/
theorem new_atHome (buffer : ℕ → Option κ) (expiresAt : ℕ → UInt64) (handle : ℕ → κ)
    (address : κ → ℕ) (waiterAddress : κ × ℕ → ℕ) :
    AtHome (fun _ => none)
      (new buffer expiresAt handle address waiterAddress : Program σ τ κ μ ι ω) where
  runtime := Workers.new_located _ _ _ _
  created k i hi := by simp at hi
  coroutines c k hk := by cases c <;> simp [new] at hk
  starting c counter n hn := by cases c <;> simp [new] at hn
  continuation k p hp := by simp [new] at hp
  helpers k counter hk := by simp [new] at hk
  mutexes m a k hk := by simp [new, CoMutex.new] at hk
  events e a waiter hw := by simp [new, Event.new] at hw
  resumptions k c hk := by simp [new] at hk

end Program

/-- In every run, each coroutine is started and resumed by one scheduler only, on its worker. -/
theorem scheduler_affinity {σ τ κ μ ι ω : Type*} [DecidableEq σ] [DecidableEq τ] [DecidableEq κ]
    [DecidableEq μ] [DecidableEq ι] [DecidableEq ω] (buffer : ℕ → Option κ)
    (expiresAt : ℕ → UInt64) (handle : ℕ → κ) (address : κ → ℕ) (waiterAddress : κ × ℕ → ℕ)
    (l : List (ProgramOp σ τ κ μ ι ω × Program σ τ κ μ ι ω))
    (hl : Path programStep (.new buffer expiresAt handle address waiterAddress) l) (k : κ) :
    (∀ c, (k, c) ∈ (last (.new buffer expiresAt handle address waiterAddress) l).resumptions →
        ∃ i, c = .inl i) ∧
      ∀ c c', (k, c) ∈ (last (.new buffer expiresAt handle address waiterAddress) l).resumptions →
        (k, c') ∈ (last (.new buffer expiresAt handle address waiterAddress) l).resumptions →
        c = c' := by
  obtain ⟨-, home, hhome⟩ := hl.invariant (I := fun s => ∃ home, Program.AtHome home s)
    (fun _ _ _ ⟨_, h⟩ hstep => h.step hstep.1) ⟨_, Program.new_atHome _ _ _ _ _⟩
  refine ⟨fun c hc => ?_, fun c c' hc hc' => ?_⟩
  · obtain ⟨i, rfl, -⟩ := hhome.resumptions k c hc
    exact ⟨i, rfl⟩
  · obtain ⟨i, rfl, hi⟩ := hhome.resumptions k c hc
    obtain ⟨j, rfl, hj⟩ := hhome.resumptions k c' hc'
    rw [Option.some.inj (hi.symm.trans hj)]

/-- A coroutine of one scheduler waits for an event that a coroutine of another one sets: it is
resumed on the scheduler where it has run before. -/
theorem scheduler_affinity_event_two :
    ∃ l : List (ProgramOp Bool Unit Bool Unit Unit Unit × Program Bool Unit Bool Unit Unit Unit),
      Path programStep
        (.new (fun _ => none) (fun _ => 0) (fun _ => false) (fun _ => 0) (fun _ => 0)) l ∧
      (last (.new (fun _ => none) (fun _ => 0) (fun _ => false) (fun _ => 0) (fun _ => 0))
        l).resumptions = [(false, .inl false), (true, .inl true), (false, .inl false)] ∧
      ∀ k, (∀ c, (k, c) ∈
          (last (.new (fun _ => none) (fun _ => 0) (fun _ => false) (fun _ => 0) (fun _ => 0))
            l).resumptions → ∃ i, c = .inl i) ∧
        ∀ c c', (k, c) ∈
            (last (.new (fun _ => none) (fun _ => 0) (fun _ => false) (fun _ => 0) (fun _ => 0))
              l).resumptions →
          (k, c') ∈
            (last (.new (fun _ => none) (fun _ => 0) (fun _ => false) (fun _ => 0) (fun _ => 0))
              l).resumptions → c = c' := by
  have hrun :
      ∃ l : List (ProgramOp Bool Unit Bool Unit Unit Unit ×
          Program Bool Unit Bool Unit Unit Unit),
        Path programStep
          (.new (fun _ => none) (fun _ => 0) (fun _ => false) (fun _ => 0) (fun _ => 0)) l ∧
        (last (.new (fun _ => none) (fun _ => 0) (fun _ => false) (fun _ => 0) (fun _ => 0))
          l).resumptions = [(false, .inl false), (true, .inl true), (false, .inl false)] :=
    ⟨ -- A task of the other thread schedules a coroutine, which waits.
      (.runtime (.push (.inr ()) false ⟨some (.other ())⟩), _) ::
      (.runtime (.ringFd (.inr ())), _) :: [
      (.runtime (.worker false (.init (fun depth _ => depth = 256) 0)), _),
      (.runtime (.worker false (.check 0)), _), (.runtime (.worker false .pop), _),
      (.schedule false false, _), (.runtime (.worker false .leave), _),
      (.runtime (.worker false .pop), _), (.runtime (.worker false .tryDequeueBatch), _),
      (.runtime (.worker false (.resume false)), _),
      (.event (.inl false) () (.awaitReady (false, 0) 8), _),
      (.event (.inl false) () (.awaitSuspend (false, 0) (some false)), _),
      (.runtime (.worker false .leave), _), (.runtime (.worker false (.resume false)), _),
      (.runtime (.worker false .poll), _),
      -- Another one schedules a coroutine of the other scheduler.
      (.runtime (.push (.inr ()) true ⟨some (.other ())⟩), _), (.runtime (.ringFd (.inr ())), _),
      (.runtime (.worker true (.init (fun depth _ => depth = 256) 0)), _),
      (.runtime (.worker true (.check 0)), _), (.runtime (.worker true .pop), _),
      (.schedule true true, _), (.runtime (.worker true .leave), _),
      (.runtime (.worker true .pop), _), (.runtime (.worker true .tryDequeueBatch), _),
      (.runtime (.worker true (.resume false)), _),
      -- It sets the event.
      (.event (.inl true) () (.exchange (.inl true, 0)), _),
      (.event (.inl true) () (.detach (.inl true, 0)), _),
      (.event (.inl true) () (.resumeWaiter (.inl true, 0) (some true)), _),
      -- The first scheduler invokes what it has sent, and resumes the coroutine.
      (.runtime (.worker false (.check 0)), _), (.runtime (.worker false .pop), _),
      (.runtime (.worker false .pop), _), (.runtime (.worker false .tryDequeueBatch), _),
      (.runtime (.worker false (.resume false)), _)],
      ⟨⟨rfl, trivial⟩, ⟨rfl, trivial⟩, ⟨rfl, trivial⟩, ⟨rfl, trivial⟩, ⟨rfl, trivial⟩,
        ⟨rfl, trivial⟩, ⟨rfl, trivial⟩, ⟨rfl, trivial⟩, ⟨rfl, trivial⟩, ⟨rfl, trivial⟩,
        ⟨rfl, rfl, fun _ h => False.elim h⟩, ⟨rfl, rfl, trivial⟩, ⟨rfl, trivial⟩, ⟨rfl, trivial⟩,
        ⟨rfl, trivial⟩, ⟨rfl, trivial⟩, ⟨rfl, trivial⟩, ⟨rfl, trivial⟩, ⟨rfl, trivial⟩,
        ⟨rfl, trivial⟩, ⟨rfl, trivial⟩, ⟨rfl, trivial⟩, ⟨rfl, trivial⟩, ⟨rfl, trivial⟩,
        ⟨rfl, trivial⟩, ⟨rfl, rfl, trivial⟩, ⟨rfl, rfl, trivial⟩, ⟨rfl, rfl, trivial⟩,
        ⟨rfl, trivial⟩, ⟨rfl, trivial⟩, ⟨rfl, trivial⟩, ⟨rfl, trivial⟩, ⟨rfl, trivial⟩, trivial⟩,
      rfl⟩
  obtain ⟨l, hl, hresumptions⟩ := hrun
  exact ⟨l, hl, hresumptions, scheduler_affinity _ _ _ _ _ l hl⟩

end Novaio
