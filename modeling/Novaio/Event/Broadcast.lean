import Mathlib.Tactic.Common
import Novaio.Event.Basic
import Novaio.Lib.Chain
import Novaio.Lib.Path

/-!
# The event wakes each waiter once

The waiters that are suspended are in one of two lists: that of `waiters_`, and the one that the
first `set` has detached and goes through. `Rep` says that the memory holds the two lists. Only the
first `set`, the one whose exchange finds the event not set, comes to detach the waiters, and by
then no waiter comes in any more, since `await_suspend` checks the event under the mutex.
-/

namespace Novaio

open Linked Transition

/-- The setter is the one whose exchange found the event not set. -/
def SetterPc.Won : SetterPc → Prop
  | detach | resume _ | returned => True
  | idle | returnedAtOnce => False

/-- The coroutine that `resume_waiter` was called with. -/
def Resumption.coro {ω σ : Type*} : Resumption ω σ → ω
  | .schedule _ i | .dispatchOn _ i | .resume i => i

/-- The moves of a waiter from one place to another, where the event is set or not. -/
def WaiterPc.Move (signaled : Bool) : WaiterPc → WaiterPc → Prop
  | idle, continued => signaled = true
  | idle, suspending => signaled = false
  | suspending, continued => signaled = true
  | suspending, suspended => signaled = false
  | suspended, resumed => True
  | _, _ => False

namespace Event

variable {ω τ σ : Type*} {e : Event ω τ σ} {queued detached : List ω} {first : Option τ}
  {i : ω} {s : τ}

/-- The links of the awaiters. -/
abbrev next (e : Event ω τ σ) : ℕ → Option ℕ := fun a => (e.awaiters a).next

/-- The waiters that were passed to `resume_waiter`, in order. -/
def woken (e : Event ω τ σ) : List ω := e.resumptions.map Resumption.coro

/-- Where the suspended waiters are while the first setter is at a place. -/
def Phase (e : Event ω τ σ) (queued detached : List ω) : SetterPc → Prop
  | .detach => detached = []
  | .resume p => queued = [] ∧ Chain e.next p (detached.map e.address)
  | .returned => queued = [] ∧ detached = []
  | _ => True

/-- The memory holds the suspended waiters, and `first` is the setter that detaches them. -/
structure Rep (e : Event ω τ σ) (queued detached : List ω) (first : Option τ) : Prop where
  won_iff : ∀ s, (e.setterPc s).Won ↔ first = some s
  signaled_iff : e.signaled = true ↔ first ≠ none
  atOnce : ∀ s, e.setterPc s = .returnedAtOnce → e.signaled = true
  queue : Chain e.next e.waiters (queued.map e.address)
  phase : ∀ s, first = some s → Phase e queued detached (e.setterPc s)
  before : first = none → detached = []
  nodup : (queued ++ detached).Nodup
  mem_iff : ∀ i, i ∈ queued ++ detached ↔ e.waiterPc i = .suspended
  coroutine : ∀ i, e.waiterPc i = .suspended →
    (e.awaiters (e.address i)).awaitingCoroutine = some i
  address_inj : ∀ i j, (e.waiterPc i).Awaits → (e.waiterPc j).Awaits →
    e.address i = e.address j → i = j
  woken_nodup : e.woken.Nodup
  woken_iff : ∀ i, i ∈ e.woken ↔ e.waiterPc i = .resumed

/-- A waiter in a list is suspended. -/
theorem Rep.suspended (h : Rep e queued detached first) (hi : i ∈ queued ∨ i ∈ detached) :
    e.waiterPc i = .suspended := by
  rw [← h.mem_iff, List.mem_append]
  exact hi

/-- A phase depends on the places and the links of the waiters only. -/
theorem Rep.phase_congr {e' : Event ω τ σ} (h : Rep e queued detached first)
    (hlinks : ∀ i, e.waiterPc i = .suspended → e'.address i = e.address i ∧
      e'.next (e.address i) = e.next (e.address i)) {pc : SetterPc}
    (hp : Phase e queued detached pc) : Phase e' queued detached pc := by
  cases pc with
  | resume p => exact ⟨hp.1, hp.2.map_congr fun i hi => hlinks i (h.suspended (.inr hi))⟩
  | _ => exact hp

variable [DecidableEq ω]

/-- The waiter is at its new place. -/
@[simp]
theorem waiterAt_self (e : Event ω τ σ) (i : ω) (pc : WaiterPc) :
    (e.waiterAt i pc).waiterPc i = pc := Function.update_self _ _ _

/-- The other waiters are where they were. -/
theorem waiterAt_of_ne (e : Event ω τ σ) {i j : ω} (pc : WaiterPc) (h : j ≠ i) :
    (e.waiterAt i pc).waiterPc j = e.waiterPc j := Function.update_of_ne h _ _

/-! ## The steps of `co_await` -/

/-- A step of a waiter that is in no list before nor after, and that writes to its own awaiter. -/
theorem Rep.waiter {e' : Event ω τ σ} (h : Rep e queued detached first) (pc : WaiterPc)
    (hsetters : e'.setterPc = e.setterPc) (hsignaled : e'.signaled = e.signaled)
    (hwaiters : e'.waiters = e.waiters) (hresumptions : e'.resumptions = e.resumptions)
    (hpc : e'.waiterPc = (e.waiterAt i pc).waiterPc)
    (haddress : ∀ j, j ≠ i → e'.address j = e.address j)
    (hmem : ∀ a, a ≠ e'.address i → e'.awaiters a = e.awaiters a)
    (hfresh : ∀ j, j ≠ i → (e.waiterPc j).Awaits → e.address j ≠ e'.address i)
    (hfrom : e.waiterPc i ≠ .suspended ∧ e.waiterPc i ≠ .resumed)
    (hto : pc ≠ .suspended ∧ pc ≠ .resumed) : Rep e' queued detached first := by
  have hself : e'.waiterPc i = pc := by rw [hpc, waiterAt_self]
  have hother : ∀ j, j ≠ i → e'.waiterPc j = e.waiterPc j := fun j hj => by
    rw [hpc, waiterAt_of_ne e pc hj]
  -- The waiter is not suspended, before or after.
  have hsuspended : ∀ j, e'.waiterPc j = .suspended ↔ e.waiterPc j = .suspended := by
    intro j
    rcases eq_or_ne j i with rfl | hj
    · rw [hself]
      exact iff_of_false hto.1 hfrom.1
    · rw [hother j hj]
  -- So the lists of waiters, and what they link, stay as they are.
  have hlist : ∀ j, e.waiterPc j = .suspended → e'.address j = e.address j ∧
      e'.awaiters (e.address j) = e.awaiters (e.address j) := by
    intro j hj
    have hne : j ≠ i := by
      rintro rfl
      exact hfrom.1 hj
    exact ⟨haddress j hne, hmem _ (hfresh j hne (by rw [hj]; trivial))⟩
  have hlinks : ∀ j, e.waiterPc j = .suspended → e'.address j = e.address j ∧
      e'.next (e.address j) = e.next (e.address j) :=
    fun j hj => ⟨(hlist j hj).1, congrArg Awaiter.next (hlist j hj).2⟩
  constructor
  case won_iff =>
    rw [hsetters]
    exact h.won_iff
  case signaled_iff =>
    rw [hsignaled]
    exact h.signaled_iff
  case atOnce =>
    rw [hsetters, hsignaled]
    exact h.atOnce
  case queue =>
    rw [hwaiters]
    exact h.queue.map_congr fun j hj => hlinks j (h.suspended (.inl hj))
  case phase =>
    intro s hs
    rw [hsetters]
    exact h.phase_congr hlinks (h.phase s hs)
  case before => exact h.before
  case nodup => exact h.nodup
  case mem_iff =>
    intro j
    rw [h.mem_iff, hsuspended]
  case coroutine =>
    intro j hj
    rw [hsuspended] at hj
    rw [(hlist j hj).1, (hlist j hj).2]
    exact h.coroutine j hj
  case address_inj =>
    intro j k hj hk heq
    rcases eq_or_ne j i with rfl | hne <;> rcases eq_or_ne k j with rfl | hne'
    · rfl
    · rw [hother k hne'] at hk
      rw [haddress k hne'] at heq
      exact (hfresh k hne' hk heq.symm).elim
    · rfl
    · rw [hother j hne] at hj
      rcases eq_or_ne k i with rfl | hne''
      · rw [haddress j hne] at heq
        exact (hfresh j hne hj heq).elim
      · rw [hother k hne''] at hk
        rw [haddress j hne, haddress k hne''] at heq
        exact h.address_inj j k hj hk heq
  case woken_nodup =>
    rw [woken, hresumptions]
    exact h.woken_nodup
  case woken_iff =>
    intro j
    rw [woken, hresumptions, ← woken, h.woken_iff]
    rcases eq_or_ne j i with rfl | hne
    · rw [hself]
      exact iff_of_false hfrom.2 hto.2
    · rw [hother j hne]

/-- The start of a `co_await`. -/
theorem rep_awaitReady (h : Rep e queued detached first) (hi : e.waiterPc i = .idle) {a : ℕ}
    (hfresh : ∀ j, (e.waiterPc j).Awaits → e.address j ≠ a) :
    Rep (e.awaitReady i a) queued detached first := by
  have haddr : (e.awaitReady i a).address i = a := Function.update_self _ _ _
  refine h.waiter (i := i) (if e.signaled then .continued else .suspending) rfl rfl rfl rfl
    rfl (fun j hj => Function.update_of_ne hj _ _) ?_ ?_ (by simp [hi]) (by split_ifs <;> simp)
  · intro b hb
    rw [haddr] at hb
    exact Function.update_of_ne hb _ _
  · intro j _ hj
    rw [haddr]
    exact hfresh j hj

/-- The section of `await_suspend` under the mutex: the waiter goes on if the event is set, and
comes in at the front of the list otherwise. -/
theorem rep_awaitSuspend (h : Rep e queued detached first) (hi : e.waiterPc i = .suspending)
    (current : Option σ) : ∃ queued', Rep (e.awaitSuspend i current) queued' detached first := by
  have hawaits : (e.waiterPc i).Awaits := by
    rw [hi]
    trivial
  have hfresh : ∀ j, j ≠ i → (e.waiterPc j).Awaits → e.address j ≠ e.address i :=
    fun j hj hja heq => hj (h.address_inj j i hja hawaits heq)
  by_cases hset : e.signaled = true
  · -- The event is set, and the waiter goes on.
    refine ⟨queued, ?_⟩
    rw [awaitSuspend, if_pos hset]
    exact h.waiter .continued rfl rfl rfl rfl rfl (fun _ _ => rfl)
      (fun a ha => Function.update_of_ne ha _ _) hfresh (by simp [hi]) (by simp)
  · obtain rfl : first = none := by
      by_contra hne
      exact hset (h.signaled_iff.mpr hne)
    obtain rfl := h.before rfl
    -- The waiter is put in front of the queue.
    set e' := e.awaitSuspend i current with he'
    have heq : e' = { (e.setAwaiter (e.address i)
          { awaitingCoroutine := some i, scheduler := current, next := e.waiters }).waiterAt i
            .suspended with waiters := some (e.address i) } := by
      rw [he', awaitSuspend, if_neg hset]
      rfl
    have hself : e'.waiterPc i = .suspended := by
      rw [heq]
      exact waiterAt_self _ _ _
    have hother : ∀ j, j ≠ i → e'.waiterPc j = e.waiterPc j := by
      intro j hj
      rw [heq]
      exact waiterAt_of_ne _ _ hj
    have haddress : e'.address = e.address := by rw [heq]; rfl
    have hown : e'.awaiters (e.address i) =
        { awaitingCoroutine := some i, scheduler := current, next := e.waiters } := by
      rw [heq]
      exact Function.update_self _ _ _
    -- The awaiters of the other waiters are elsewhere.
    have hmem : ∀ j, j ≠ i → (e.waiterPc j).Awaits →
        e'.awaiters (e.address j) = e.awaiters (e.address j) := by
      intro j hj hja
      rw [heq]
      exact Function.update_of_ne (hfresh j hj hja) _ _
    have hnot : i ∉ queued := by
      intro hq
      have := h.suspended (.inl hq)
      rw [hi] at this
      simp at this
    have hawaits' : ∀ j, (e'.waiterPc j).Awaits → (e.waiterPc j).Awaits := by
      intro j hj
      rcases eq_or_ne j i with rfl | hne
      · exact hawaits
      · rwa [hother j hne] at hj
    have hrest : e'.setterPc = e.setterPc ∧ e'.signaled = e.signaled ∧
        e'.resumptions = e.resumptions ∧ e'.waiters = some (e.address i) := by
      rw [heq]
      exact ⟨rfl, rfl, rfl, rfl⟩
    obtain ⟨hsetters, hsignaled, hresumptions, hwaiters⟩ := hrest
    refine ⟨i :: queued, ?_, ?_, ?_, ?_, by simp, by simp, ?_, ?_, ?_, ?_, ?_, ?_⟩
    · rw [hsetters]
      exact h.won_iff
    · rw [hsignaled]
      exact h.signaled_iff
    · rw [hsetters, hsignaled]
      exact h.atOnce
    · rw [hwaiters, haddress]
      refine ⟨rfl, ?_⟩
      rw [next, hown]
      apply h.queue.map_congr
      intro j hj
      have hjs := h.suspended (.inl hj)
      refine ⟨rfl, congrArg Awaiter.next (hmem j ?_ (by rw [hjs]; trivial))⟩
      rintro rfl
      exact hnot hj
    · simpa using ⟨hnot, by simpa using h.nodup⟩
    · intro j
      have hmem_iff := h.mem_iff j
      rw [List.append_nil] at hmem_iff
      rw [List.append_nil, List.mem_cons, hmem_iff]
      rcases eq_or_ne j i with rfl | hne
      · simp [hself]
      · rw [hother j hne]
        simp [hne]
    · intro j hj
      rw [haddress]
      rcases eq_or_ne j i with rfl | hne
      · rw [hown]
      · rw [hother j hne] at hj
        rw [hmem j hne (by rw [hj]; trivial)]
        exact h.coroutine j hj
    · intro j k hj hk
      rw [haddress]
      exact h.address_inj j k (hawaits' j hj) (hawaits' k hk)
    · rw [woken, hresumptions]
      exact h.woken_nodup
    · intro j
      rw [woken, hresumptions, ← woken, h.woken_iff]
      rcases eq_or_ne j i with rfl | hne
      · simp [hself, hi]
      · rw [hother j hne]

/-! ## The steps of `set` -/

variable [DecidableEq τ]

omit [DecidableEq ω] in
/-- The setter is at its new place. -/
@[simp]
theorem setterAt_self (e : Event ω τ σ) (s : τ) (pc : SetterPc) :
    (e.setterAt s pc).setterPc s = pc := Function.update_self _ _ _

omit [DecidableEq ω] in
/-- The other setters are where they were. -/
theorem setterAt_of_ne (e : Event ω τ σ) {s s' : τ} (pc : SetterPc) (h : s' ≠ s) :
    (e.setterAt s pc).setterPc s' = e.setterPc s' := Function.update_of_ne h _ _

omit [DecidableEq ω] in
/-- The first setter goes from one place to another, and the lists may change. -/
theorem Rep.firstSetter {e' : Event ω τ σ} {queued' detached' : List ω}
    (h : Rep e queued detached (some s)) (pc : SetterPc)
    (hpc : e'.setterPc = (e.setterAt s pc).setterPc)
    (hwon : pc.Won) (hsignaled : e'.signaled = e.signaled)
    (hqueue : Chain e'.next e'.waiters (queued'.map e'.address))
    (hphase : Phase e' queued' detached' pc) (hnodup : (queued' ++ detached').Nodup)
    (hmem : ∀ i, i ∈ queued' ++ detached' ↔ e'.waiterPc i = .suspended)
    (hlive : ∀ i, (e'.waiterPc i).Awaits → e'.waiterPc i = e.waiterPc i)
    (haddress : e'.address = e.address) (hawaiters : e'.awaiters = e.awaiters)
    (hwoken : e'.woken.Nodup) (hwoken_iff : ∀ i, i ∈ e'.woken ↔ e'.waiterPc i = .resumed) :
    Rep e' queued' detached' (some s) := by
  have hset : e.signaled = true := h.signaled_iff.mpr (by simp)
  have hself : e'.setterPc s = pc := by rw [hpc, setterAt_self]
  have hother : ∀ s', s' ≠ s → e'.setterPc s' = e.setterPc s' := fun s' hs' => by
    rw [hpc, setterAt_of_ne e pc hs']
  constructor
  case won_iff =>
    intro s'
    rcases eq_or_ne s' s with rfl | hne
    · rw [hself]
      exact iff_of_true hwon rfl
    · rw [hother s' hne]
      exact h.won_iff s'
  case signaled_iff =>
    rw [hsignaled]
    exact h.signaled_iff
  case atOnce => exact fun _ _ => hsignaled.trans hset
  case queue => exact hqueue
  case phase =>
    intro s' hs'
    obtain rfl := Option.some.inj hs'
    rwa [hself]
  case before => simp
  case nodup => exact hnodup
  case mem_iff => exact hmem
  case coroutine =>
    intro i hi
    rw [haddress, hawaiters]
    exact h.coroutine i ((hlive i (by rw [hi]; trivial)) ▸ hi)
  case address_inj =>
    intro i j hi hj
    rw [haddress]
    exact h.address_inj i j (hlive i hi ▸ hi) (hlive j hj ▸ hj)
  case woken_nodup => exact hwoken
  case woken_iff => exact hwoken_iff

omit [DecidableEq ω] in
/-- The exchange of `set`: the setter is the first one if the event was not set. -/
theorem rep_exchange (h : Rep e queued detached first) (hs : e.setterPc s = .idle) :
    ∃ first', Rep (e.exchange s) queued detached first' := by
  have hne : ∀ s', first = some s' → s' ≠ s := by
    rintro s' hs' rfl
    have := (h.won_iff s').mpr hs'
    rw [hs] at this
    exact this
  by_cases hset : e.signaled = true
  · -- The event is set, and the setter returns at once.
    refine ⟨first, ?_⟩
    rw [exchange, if_pos hset]
    refine { h with won_iff := ?_, signaled_iff := ?_, atOnce := fun _ _ => rfl, phase := ?_ }
    · intro s'
      rcases eq_or_ne s' s with rfl | hs'
      · refine iff_of_false ?_ fun hf => hne s' hf rfl
        simp [SetterPc.Won]
      · simp only [setterAt_of_ne e _ hs']
        exact h.won_iff s'
    · exact iff_of_true rfl (h.signaled_iff.mp hset)
    · intro s' hs'
      simp only [setterAt_of_ne e _ (hne s' hs')]
      exact h.phase s' hs'
  · obtain rfl : first = none := by
      by_contra hf
      exact hset (h.signaled_iff.mpr hf)
    -- This setter is the first, and nothing has been detached yet.
    refine ⟨some s, ?_⟩
    rw [exchange, if_neg hset]
    refine { h with
      won_iff := ?_, signaled_iff := by simp, atOnce := fun _ _ => rfl, phase := ?_,
      before := by simp }
    · intro s'
      rcases eq_or_ne s' s with rfl | hs'
      · simp [SetterPc.Won]
      · have := h.won_iff s'
        simp only [setterAt_of_ne e _ hs']
        simpa [hs'.symm] using this
    · intro s' hs'
      obtain rfl := Option.some.inj hs'
      simp only [setterAt_self]
      exact h.before rfl

omit [DecidableEq ω] in
/-- The section of `set` under the mutex moves the waiters to the list that `set` goes through. -/
theorem rep_detach (h : Rep e queued detached first) (hs : e.setterPc s = .detach) :
    Rep (e.detach s) [] queued first := by
  obtain rfl := (h.won_iff s).mp (by rw [hs]; trivial)
  have hphase := h.phase s rfl
  rw [hs] at hphase
  obtain rfl : detached = [] := hphase
  have hnodup := h.nodup
  rw [List.append_nil] at hnodup
  refine h.firstSetter (.resume e.waiters) rfl trivial rfl rfl ⟨rfl, h.queue⟩ hnodup ?_
    (fun _ _ => rfl) rfl rfl h.woken_nodup h.woken_iff
  intro i
  have := h.mem_iff i
  rwa [List.append_nil] at this

variable [DecidableEq σ]

omit [DecidableEq ω] [DecidableEq τ] in
/-- `resume_waiter` is called with the coroutine. -/
theorem resumeWaiter_coro (current scheduler : Option σ) (i : ω) :
    (resumeWaiter current scheduler (some i)).map Resumption.coro = [i] := by
  unfold resumeWaiter
  cases scheduler with
  | none => rfl
  | some s =>
    dsimp only
    split_ifs <;> rfl

omit [DecidableEq ω] [DecidableEq τ] [DecidableEq σ] in
/-- In the loop of `set`, the waiter at the address is the head of the detached list. -/
theorem Rep.detached_cons (h : Rep e queued detached first) {a : ℕ}
    (hs : e.setterPc s = .resume (some a)) :
    ∃ i rest, detached = i :: rest ∧ a = e.address i ∧ e.waiterPc i = .suspended ∧ queued = [] ∧
      Chain e.next (e.next (e.address i)) (rest.map e.address) := by
  have hphase := h.phase s ((h.won_iff s).mp (by rw [hs]; trivial))
  rw [hs] at hphase
  obtain ⟨hqueued, hchain⟩ := hphase
  cases detached with
  | nil => simp at hchain
  | cons i rest =>
    exact ⟨i, rest, rfl, Option.some.inj hchain.1, h.suspended (by simp), hqueued, hchain.2⟩

/-- An iteration of the loop of `set` passes one more waiter to `resume_waiter`. -/
theorem rep_resumeStep (h : Rep e queued detached first) {p : Option ℕ}
    (hs : e.setterPc s = .resume p) (current : Option σ) :
    Rep (e.resumeStep s p current) queued detached.tail first := by
  obtain rfl := (h.won_iff s).mp (by rw [hs]; trivial)
  cases p with
  | none =>
    -- The loop ends.
    have hphase := h.phase s rfl
    rw [hs] at hphase
    obtain ⟨rfl, hchain⟩ := hphase
    obtain rfl : detached = [] := by simpa using hchain
    exact h.firstSetter .returned rfl trivial rfl h.queue ⟨rfl, rfl⟩ h.nodup h.mem_iff
      (fun _ _ => rfl) rfl rfl h.woken_nodup h.woken_iff
  | some a =>
    -- The waiter at the head of the detached list is resumed.
    obtain ⟨i, rest, rfl, rfl, hi, rfl, hchain⟩ := h.detached_cons hs
    obtain ⟨hnot, hnodup⟩ := List.nodup_cons.mp h.nodup
    set e' := e.resumeStep s (some (e.address i)) current with he'
    have heq : e' = { (e.waiterAt i .resumed).setterAt s (.resume (e.next (e.address i))) with
        resumptions := e.resumptions ++
          resumeWaiter current (e.awaiters (e.address i)).scheduler (some i) } := by
      simp only [he', resumeStep, h.coroutine i hi]
      rfl
    have hself : e'.waiterPc i = .resumed := by
      rw [heq]
      exact waiterAt_self _ _ _
    have hother : ∀ j, j ≠ i → e'.waiterPc j = e.waiterPc j := by
      intro j hj
      rw [heq]
      exact waiterAt_of_ne _ _ hj
    have hwoken : e'.woken = e.woken ++ [i] := by
      rw [heq, woken, List.map_append, resumeWaiter_coro]
      rfl
    have hfields : e'.setterPc = (e.setterAt s (.resume (e.next (e.address i)))).setterPc ∧
        e'.signaled = e.signaled ∧ e'.waiters = e.waiters ∧ e'.address = e.address ∧
        e'.awaiters = e.awaiters := by
      rw [heq]
      exact ⟨rfl, rfl, rfl, rfl, rfl⟩
    obtain ⟨hpc, hsignaled, hwaiters, haddress, hawaiters⟩ := hfields
    refine h.firstSetter _ hpc trivial hsignaled ?_ ⟨rfl, ?_⟩ hnodup ?_ ?_ haddress hawaiters ?_ ?_
    · rw [hwaiters]
      exact h.queue
    · rw [haddress]
      exact hchain.map_congr fun j _ => ⟨rfl, by rw [next, hawaiters]⟩
    · intro j
      have hmem := h.mem_iff j
      rw [List.nil_append, List.mem_cons] at hmem
      rcases eq_or_ne j i with rfl | hne
      · exact iff_of_false hnot (by simp [hself])
      · rw [hother j hne, ← hmem]
        simp [hne]
    · intro j hj
      rcases eq_or_ne j i with rfl | hne
      · rw [hself] at hj
        exact hj.elim
      · exact hother j hne
    · rw [hwoken]
      refine List.nodup_append.mpr ⟨h.woken_nodup, List.nodup_singleton i, ?_⟩
      rintro j hj k hk rfl
      rw [List.mem_singleton.mp hk, h.woken_iff, hi] at hj
      simp at hj
    · intro j
      rw [hwoken, List.mem_append, List.mem_singleton, h.woken_iff]
      rcases eq_or_ne j i with rfl | hne
      · simp [hself]
      · simp [hother j hne, hne]

/-! ## Runs -/

/-- The step lemma: every step keeps the suspended waiters in memory. -/
theorem rep_step {e' : Event ω τ σ} {op : EventOp ω τ σ} (h : Rep e queued detached first)
    (hstep : eventStep e op e') : ∃ queued' detached' first', Rep e' queued' detached' first' := by
  obtain ⟨hstep, hfresh⟩ := hstep
  cases StepCase.of_step hstep with
  | awaitReady i a hi => exact ⟨_, _, _, rep_awaitReady h hi hfresh⟩
  | awaitSuspend i current hi =>
    obtain ⟨queued', h'⟩ := rep_awaitSuspend h hi current
    exact ⟨_, _, _, h'⟩
  | exchange s hs =>
    obtain ⟨first', h'⟩ := rep_exchange h hs
    exact ⟨_, _, _, h'⟩
  | detach s hs => exact ⟨_, _, _, rep_detach h hs⟩
  | resumeWaiter s waiters current hs => exact ⟨_, _, _, rep_resumeStep h hs current⟩

/-- What a step does to a waiter: nothing, or one of the moves. -/
theorem waiter_step {e' : Event ω τ σ} {op : EventOp ω τ σ} (h : Rep e queued detached first)
    (hstep : eventStep e op e') (i : ω) :
    e'.waiterPc i = e.waiterPc i ∨ WaiterPc.Move e.signaled (e.waiterPc i) (e'.waiterPc i) := by
  -- The step of another waiter leaves this one alone.
  have hmove : ∀ {e₁ : Event ω τ σ} {j} (pc), e₁.waiterPc = (e.waiterAt j pc).waiterPc →
      WaiterPc.Move e.signaled (e.waiterPc j) pc →
      e₁.waiterPc i = e.waiterPc i ∨ WaiterPc.Move e.signaled (e.waiterPc i) (e₁.waiterPc i) := by
    intro e₁ j pc he₁ hm
    rw [he₁]
    rcases eq_or_ne i j with rfl | hne
    · right
      rwa [waiterAt_self]
    · left
      exact waiterAt_of_ne e pc hne
  obtain ⟨hstep, -⟩ := hstep
  cases StepCase.of_step hstep with
  | awaitReady j a hj =>
    refine hmove (j := j) (if e.signaled then .continued else .suspending) rfl ?_
    rw [hj]
    cases hset : e.signaled <;> rfl
  | awaitSuspend j current hj =>
    by_cases hset : e.signaled = true
    · rw [awaitSuspend, if_pos hset]
      refine hmove (j := j) .continued rfl ?_
      rw [hj]
      exact hset
    · rw [awaitSuspend, if_neg hset]
      refine hmove (j := j) .suspended rfl ?_
      rw [hj]
      simpa [WaiterPc.Move] using hset
  | exchange s _ => exact .inl rfl
  | detach s _ => exact .inl rfl
  | resumeWaiter s waiters current hs =>
    cases waiters with
    | none => exact .inl rfl
    | some a =>
      obtain ⟨j, rest, -, rfl, hj, -, -⟩ := h.detached_cons hs
      refine hmove (j := j) .resumed ?_ (by rw [hj]; trivial)
      simp only [resumeStep, h.coroutine j hj]
      rfl

/-- A setter that has returned stays so. -/
theorem returned_step {e' : Event ω τ σ} {op : EventOp ω τ σ}
    (hstep : eventStep e op e') (hs : e.setterPc s = .returned) : e'.setterPc s = .returned := by
  have hother : ∀ {s' pc}, e.setterPc s' ≠ .returned →
      (e.setterAt s' pc).setterPc s = .returned := by
    intro s' pc hs'
    rw [setterAt_of_ne, hs]
    rintro rfl
    exact hs' hs
  obtain ⟨hstep, -⟩ := hstep
  cases StepCase.of_step hstep with
  | awaitReady i a _ => exact hs
  | awaitSuspend i current _ =>
    unfold awaitSuspend
    split_ifs <;> exact hs
  | exchange s' hs' => exact hother (by simp [hs'])
  | detach s' hs' => exact hother (by simp [hs'])
  | resumeWaiter s' waiters current hs' =>
    unfold resumeStep
    split
    · exact hother (by simp [hs'])
    · dsimp only
      split <;> exact hother (by simp [hs'])

omit [DecidableEq ω] [DecidableEq τ] [DecidableEq σ] in
/-- A new event has no waiters. -/
theorem new_rep (mem : ℕ → Awaiter ω σ) (address : ω → ℕ) :
    Rep (new mem address : Event ω τ σ) [] [] none := by
  refine ⟨?_, ?_, ?_, ?_, ?_, ?_, ?_, ?_, ?_, ?_, ?_, ?_⟩ <;>
    simp [new, woken, SetterPc.Won, WaiterPc.Awaits]

/-- The run lemma: the memory of an event in use holds its suspended waiters. -/
theorem run_rep {mem : ℕ → Awaiter ω σ} {address : ω → ℕ}
    {l : List (EventOp ω τ σ × Event ω τ σ)} (hl : Path eventStep (new mem address) l) :
    ∃ queued detached first, Rep (last (new mem address) l) queued detached first :=
  (hl.invariant (I := fun e => ∃ queued detached first, Rep e queued detached first)
    (fun _ _ _ ⟨_, _, _, h⟩ hstep => rep_step h hstep) ⟨_, _, _, new_rep mem address⟩).2

/-- Steps of the setter `s` alone lead from `e` to a state in which it has returned. -/
def CanReturn (s : τ) (e : Event ω τ σ) : Prop :=
  ∃ l : List (EventOp ω τ σ × Event ω τ σ), Path eventStep e l ∧
    (∀ x ∈ l, x.1.setter = some s) ∧ (last e l).setterPc s = .returned

/-- One more step at the start. -/
theorem CanReturn.step {e' : Event ω τ σ} {op : EventOp ω τ σ} (h : CanReturn s e')
    (hop : op.setter = some s) (hstep : eventStep e op e') : CanReturn s e := by
  obtain ⟨l, hl, hs, hlast⟩ := h
  exact ⟨(op, e') :: l, ⟨hstep, hl⟩, List.forall_mem_cons.mpr ⟨hop, hs⟩, hlast⟩

/-- The loop of `set` ends with the waiters that were detached, by its own steps. -/
theorem resume_returns {p : Option ℕ} (current : Option σ) (h : Rep e queued detached first)
    (hs : e.setterPc s = .resume p) :
    ∃ l : List (EventOp ω τ σ × Event ω τ σ), Path eventStep e l ∧
      (∀ x ∈ l, x.1 = .resumeWaiter s current) ∧ (last e l).setterPc s = .returned := by
  have hphase := h.phase s ((h.won_iff s).mp (by rw [hs]; trivial))
  rw [hs] at hphase
  have hstep : eventStep e (.resumeWaiter s current) (e.resumeStep s p current) := by
    refine ⟨?_, trivial⟩
    simp only [Event.step, hs]
  induction detached generalizing e p with
  | nil =>
    obtain rfl : p = none := hphase.2
    exact ⟨[(_, _)], ⟨hstep, trivial⟩, by simp, setterAt_self _ _ _⟩
  | cons i rest ih =>
    obtain ⟨rfl, -⟩ := hphase.2
    have h' := rep_resumeStep h hs current
    have hs' : (e.resumeStep s (some (e.address i)) current).setterPc s =
        .resume (e.next (e.address i)) := setterAt_self _ _ _
    have hphase' := h'.phase s ((h'.won_iff s).mp (by rw [hs']; trivial))
    rw [hs'] at hphase'
    obtain ⟨l, hl, hops, hlast⟩ := ih h' hs' hphase' (by
      refine ⟨?_, trivial⟩
      simp only [Event.step, hs'])
    exact ⟨(_, _) :: l, ⟨hstep, hl⟩, List.forall_mem_cons.mpr ⟨rfl, hops⟩, hlast⟩

/-- `set` returns from its loop. -/
theorem canReturn_resume {p : Option ℕ} (h : Rep e queued detached first)
    (hs : e.setterPc s = .resume p) : CanReturn s e := by
  obtain ⟨l, hl, hops, hlast⟩ := resume_returns none h hs
  exact ⟨l, hl, fun x hx => by rw [hops x hx]; rfl, hlast⟩

/-- The first `set` can return, whatever the others have done. -/
theorem canReturn (h : Rep e queued detached first) (hs : (e.setterPc s).Won) :
    CanReturn s e := by
  cases hpc : e.setterPc s with
  | detach =>
    have hstep : eventStep e (.detach s) (e.detach s) := ⟨if_pos hpc, trivial⟩
    exact (canReturn_resume (rep_detach h hpc) (setterAt_self _ _ _)).step rfl hstep
  | resume p => exact canReturn_resume h hpc
  | returned => exact ⟨[], trivial, by simp, hpc⟩
  | idle | returnedAtOnce =>
    rw [hpc] at hs
    exact hs.elim

end Event

open Event

/-- The broadcast, in every state that a run of waiters and setters reaches. The waiters passed to
`resume_waiter` are those resumed, each of them once. A waiter only ever moves on: it goes on when
the event is set, it is suspended when the event is not set, and a suspended one is resumed. At most
one setter, the first one, comes to detach the waiters; it can always return. Once it has returned,
no waiter is in `waiters_` or suspended, in that state and in every later one. Once any setter has
returned, the event is set, so that no waiter is suspended any more. -/
theorem event_wakes_each_once {ω τ σ : Type*} [DecidableEq ω] [DecidableEq τ] [DecidableEq σ]
    (mem : ℕ → Awaiter ω σ) (address : ω → ℕ) (l : List (EventOp ω τ σ × Event ω τ σ))
    (hl : Path eventStep (new mem address) l) :
    let e := last (new mem address) l
    (e.woken.Nodup ∧ ∀ i, i ∈ e.woken ↔ e.waiterPc i = .resumed) ∧
    (∀ op e' i, eventStep e op e' → e'.waiterPc i = e.waiterPc i ∨
      WaiterPc.Move e.signaled (e.waiterPc i) (e'.waiterPc i)) ∧
    (∀ s s', (e.setterPc s).Won → (e.setterPc s').Won → s = s') ∧
    (∀ s, (e.setterPc s).Won → CanReturn s e) ∧
    (∀ s l', e.setterPc s = .returned → Path eventStep e l' →
      (last e l').waiters = none ∧ ∀ i, (last e l').waiterPc i ≠ .suspended) ∧
    ∀ s, e.setterPc s = .returned ∨ e.setterPc s = .returnedAtOnce → e.signaled = true := by
  obtain ⟨queued, detached, first, h⟩ := run_rep hl
  refine ⟨⟨h.woken_nodup, h.woken_iff⟩, fun op e' i hstep => waiter_step h hstep i, ?_,
    fun s hs => canReturn h hs, ?_, ?_⟩
  · intro s s' hs hs'
    exact Option.some.inj (((h.won_iff s).mp hs).symm.trans ((h.won_iff s').mp hs'))
  · intro s l' hs hl'
    -- After the return of the first setter nobody is queued any more, in the whole run.
    obtain ⟨hs', queued', detached', first', h'⟩ := (hl'.invariant
      (I := fun e => e.setterPc s = .returned ∧ ∃ queued detached first,
        Rep e queued detached first)
      (fun _ _ _ ⟨hs, _, _, _, h⟩ hstep => ⟨returned_step hstep hs, rep_step h hstep⟩)
      ⟨hs, queued, detached, first, h⟩).2
    have hphase := h'.phase s ((h'.won_iff s).mp (by rw [hs']; trivial))
    rw [hs'] at hphase
    obtain ⟨rfl, rfl⟩ := hphase
    refine ⟨h'.queue, fun i hi => ?_⟩
    have := (h'.mem_iff i).mpr hi
    simp at this
  · rintro s (hs | hs)
    · exact h.signaled_iff.mpr (by rw [(h.won_iff s).mp (by rw [hs]; trivial)]; simp)
    · exact h.atOnce s hs

/-- A waiter is suspended, and a setter wakes it. -/
theorem event_wakes_each_once_one :
    ∃ l : List (EventOp ℕ ℕ ℕ × Event ℕ ℕ ℕ), Path eventStep (new (fun _ => {}) id) l ∧
      l.map Prod.fst = [.awaitReady 0 8, .awaitSuspend 0 (some 1), .exchange 0, .detach 0,
        .resumeWaiter 0 none, .resumeWaiter 0 none] ∧
      (last (new (fun _ => {}) id) l).woken = [0] ∧
      ∀ i, (last (new (fun _ => {}) id) l).waiterPc i ≠ .suspended := by
  set e₀ : Event ℕ ℕ ℕ := new (fun _ => {}) id
  set e₁ := e₀.awaitReady 0 8
  set e₂ := e₁.awaitSuspend 0 (some 1)
  set e₃ := e₂.exchange 0
  set e₄ := e₃.detach 0
  set e₅ := e₄.resumeStep 0 (some 8) none
  have hl : Path eventStep e₀ [(.awaitReady 0 8, e₁), (.awaitSuspend 0 (some 1), e₂),
      (.exchange 0, e₃), (.detach 0, e₄), (.resumeWaiter 0 none, e₅),
      (.resumeWaiter 0 none, e₅.resumeStep 0 none none)] :=
    ⟨⟨rfl, fun _ hi => hi.elim⟩, ⟨rfl, trivial⟩, ⟨rfl, trivial⟩, ⟨rfl, trivial⟩, ⟨rfl, trivial⟩,
      ⟨rfl, trivial⟩, trivial⟩
  obtain ⟨-, -, -, -, hend, -⟩ := event_wakes_each_once _ _ _ hl
  exact ⟨_, hl, rfl, rfl, (hend 0 [] rfl trivial).2⟩

end Novaio
