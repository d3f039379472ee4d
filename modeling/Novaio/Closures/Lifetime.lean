import Mathlib.Data.List.Count
import Novaio.Closures.Basic
import Novaio.Lib.Ownership

/-!
# The lifetime of a callable

The objects of a program, the inbox and the calls of deleters make a ledger of the callables. Every
step moves a callable in the ledger or leaves it alone, so that ownership stays exclusive. `Sound`
adds the order in which the inbox is used, and that no callable is destroyed before an invocation of
it has returned. It holds in every state of every run (`Sound.step`).
-/

namespace Novaio

open Ownership

/-- Whenever a callable is destroyed, no invocation of it has yet to return, and none follows. -/
def Timely (log : List TaskEvent) : Prop :=
  ∀ pre c post, log = pre ++ ⟨.destroyed, c⟩ :: post →
    ⟨.invoked, c⟩ ∉ post ∧ pre.count ⟨.invoked, c⟩ = pre.count ⟨.returned, c⟩

/-- One more event. -/
theorem Timely.concat {log : List TaskEvent} {e : TaskEvent} (h : Timely log)
    (hinvoked : ∀ c, e = ⟨.invoked, c⟩ → ⟨.destroyed, c⟩ ∉ log)
    (hdestroyed : ∀ c, e = ⟨.destroyed, c⟩ →
      log.count ⟨.invoked, c⟩ = log.count ⟨.returned, c⟩) : Timely (log ++ [e]) := by
  intro pre c post heq
  rcases List.eq_nil_or_concat post with rfl | ⟨post, e', rfl⟩
  · -- The new event is the destruction.
    obtain ⟨rfl, he⟩ := List.append_inj' heq rfl
    exact ⟨List.not_mem_nil, hdestroyed c (List.singleton_inj.mp he)⟩
  · rw [List.concat_eq_append, ← List.cons_append, ← List.append_assoc] at heq
    obtain ⟨rfl, he⟩ := List.append_inj' heq rfl
    obtain rfl := List.singleton_inj.mp he
    obtain ⟨hnot, hcount⟩ := h pre c post rfl
    refine ⟨?_, hcount⟩
    rw [List.concat_eq_append, List.mem_append, List.mem_singleton]
    rintro (hmem | he')
    · exact hnot hmem
    · exact hinvoked c he'.symm (by simp)

namespace TaskMemory

variable {ο : Type*} {m m' : TaskMemory ο} {s : TaskStorage}

/-- The callables with an event of a kind, in order. -/
def of (m : TaskMemory ο) (kind : TaskEventKind) : List ℕ :=
  (m.log.filter (·.kind = kind)).map TaskEvent.callable

/-- The callable that an object holds. -/
def held (m : TaskMemory ο) (place : TaskPlace ο) : Option ℕ := (m.objects place).join

/-- The callables in the inbox, in order. -/
def queued (m : TaskMemory ο) : List ℕ :=
  match m.inbox with
  | some q => q.contents.filterMap id
  | none => []

/-- The callable that `process_inbox` has popped and not invoked yet. -/
def inHand (m : TaskMemory ο) : List ℕ :=
  if m.phase = .popped then (m.held .task).toList else []

/-- Where the callables are. -/
def ledger (m : TaskMemory ο) : Ledger (TaskPlace ο) :=
  ⟨m.held, m.queued, m.of .destroyed, m.allocated⟩

/-- What holds in every state. -/
structure Sound (m : TaskMemory ο) : Prop where
  exclusive : Exclusive m.ledger
  holds : ∀ q, m.inbox = some q → q.Holds 0 q.contents
  idle : m.phase = .idle → m.objects .task = none
  inUse : m.inbox ≠ none → m.of .discarded = []
  accepted_eq : m.of .accepted = m.of .reached ++ m.queued ++ m.of .discarded
  reached_eq : m.of .reached = m.of .invoked ++ m.inHand
  nodup : (m.of .accepted).Nodup
  handed : ∀ c ∈ m.of .accepted, c < m.allocated ∧ ∀ x, m.held (.var x) ≠ some c
  refused : ∀ c ∈ m.of .refused, c ∉ m.of .accepted ∧ c ∈ m.of .destroyed
  balanced : ∀ c, m.log.count ⟨.invoked, c⟩ = m.log.count ⟨.returned, c⟩ +
    if m.phase = .invoking ∧ m.held .task = some c then 1 else 0
  timely : Timely m.log

/-! ## The log -/

/-- There are no events of an empty storage. -/
@[simp]
theorem emit_none (m : TaskMemory ο) (kind : TaskEventKind) : m.emit kind none = m := by
  rw [emit, Option.toList_none, List.map_nil, List.append_nil]

/-- The callables with an event of a kind after more events. -/
theorem of_emit (m : TaskMemory ο) (kind kind' : TaskEventKind) (s : TaskStorage) :
    (m.emit kind s).of kind' = m.of kind' ++ if kind = kind' then s.toList else [] := by
  rw [of, emit, List.filter_append, List.map_append]
  congr 1
  cases s with
  | none => split_ifs <;> rfl
  | some c => split_ifs with h <;> simp [h]

/-- How often an event is in the log after more events. -/
theorem count_emit (m : TaskMemory ο) (kind : TaskEventKind) (s : TaskStorage) (e : TaskEvent) :
    (m.emit kind s).log.count e =
      m.log.count e + if kind = e.kind ∧ s = some e.callable then 1 else 0 := by
  obtain ⟨kind', c⟩ := e
  rw [emit, List.count_append]
  congr 1
  cases s with
  | none => simp
  | some d => simp [List.count_singleton]

/-- How often an event of another kind is in the log does not change. -/
theorem count_emit_of_ne (m : TaskMemory ο) {kind : TaskEventKind} (s : TaskStorage) {e : TaskEvent}
    (hne : kind ≠ e.kind) : (m.emit kind s).log.count e = m.log.count e := by
  rw [count_emit, if_neg fun hcond => hne hcond.1, Nat.add_zero]

/-- The events of a kind are those of the callables with one. -/
theorem mem_of {kind : TaskEventKind} {c : ℕ} : c ∈ m.of kind ↔ ⟨kind, c⟩ ∈ m.log := by
  simp only [of, List.mem_map, List.mem_filter, decide_eq_true_iff]
  constructor
  · rintro ⟨e, ⟨he, rfl⟩, rfl⟩
    exact he
  · exact fun h => ⟨_, ⟨h, rfl⟩, rfl⟩

/-- More events. -/
theorem timely_emit (h : Timely m.log) (kind : TaskEventKind)
    (hinvoked : kind = .invoked → ∀ c, s = some c → c ∉ m.of .destroyed)
    (hdestroyed : kind = .destroyed → ∀ c, s = some c →
      m.log.count ⟨.invoked, c⟩ = m.log.count ⟨.returned, c⟩) : Timely (m.emit kind s).log := by
  cases s with
  | none => rwa [emit_none]
  | some c =>
    refine Timely.concat h (fun d he => ?_) fun d he => ?_
    · obtain ⟨hkind, rfl⟩ := TaskEvent.mk.inj he
      rw [← mem_of]
      exact hinvoked hkind c rfl
    · obtain ⟨hkind, rfl⟩ := TaskEvent.mk.inj he
      exact hdestroyed hkind c rfl

/-- What the object in a place holds. -/
theorem held_of_eq {place : TaskPlace ο} {object : Option TaskStorage}
    (h : m.objects place = object) : m.held place = object.join := by
  rw [held, h]

/-- A callable is in hand before the test of `task` only. -/
theorem inHand_of_ne (h : m.phase ≠ .popped) : m.inHand = [] := by
  rw [inHand, if_neg h]

/-- What is in hand before the test of `task`. -/
theorem inHand_of_popped (h : m.phase = .popped) : m.inHand = (m.held .task).toList := by
  rw [inHand, if_pos h]

/-- A callable that is not in the hands of `process_inbox` has no invocation that has yet to
return. -/
theorem Sound.count_eq (h : m.Sound) {c : ℕ} (hc : m.held .task ≠ some c) :
    m.log.count ⟨.invoked, c⟩ = m.log.count ⟨.returned, c⟩ := by
  rw [h.balanced c, if_neg fun hcond => hc hcond.2, Nat.add_zero]

/-- While `process_inbox` does not invoke a callable, every invocation has returned. -/
theorem Sound.all_returned (h : m.Sound) (hphase : m.phase ≠ .invoking) (c : ℕ) :
    m.log.count ⟨.invoked, c⟩ = m.log.count ⟨.returned, c⟩ := by
  rw [h.balanced c, if_neg fun hcond => hphase hcond.1, Nat.add_zero]

/-! ## The steps of the program -/

section Objects

variable [DecidableEq ο]

/-- What the objects hold after one of them is written. -/
theorem held_setObject (m : TaskMemory ο) (place : TaskPlace ο) (object : Option TaskStorage) :
    (m.setObject place object).held = Function.update m.held place object.join := by
  funext p
  simp only [held, setObject, Function.update_apply]
  split_ifs <;> rfl

/-- A write to a variable leaves the local of `process_inbox`. -/
theorem setObject_task (m : TaskMemory ο) (x : ο) (object : Option TaskStorage) :
    (m.setObject (.var x) object).objects .task = m.objects .task :=
  Function.update_of_ne (fun heq : TaskPlace.task = .var x => by cases heq) object m.objects

/-- An object that is assigned leaves what it held to its cleanup. -/
theorem ledger_cleanup_setObject (m : TaskMemory ο) (place : TaskPlace ο) {s : TaskStorage}
    {object : Option TaskStorage} (hs : m.held place = s) (hobject : object.join = none) :
    ((m.cleanup s).setObject place object).ledger = m.ledger.release place := by
  have hgone : ((m.cleanup s).setObject place object).of .destroyed =
      m.of .destroyed ++ (m.held place).toList := by
    rw [hs]
    exact of_emit m .destroyed .destroyed s
  have hheld : ((m.cleanup s).setObject place object).held =
      Function.update m.held place none := by
    rw [held_setObject, hobject]
    rfl
  rw [ledger, hgone, hheld]
  rfl

end Objects

/-- A step of the program with its own objects: it may destroy what one of them held, also because
the inbox refuses it, and they hold what they held or what is new. -/
theorem Sound.objects {r : TaskStorage} (h : m.Sound) (hexclusive : Exclusive m'.ledger)
    (hinbox : m'.inbox = m.inbox) (hphase : m'.phase = m.phase)
    (htask : m'.objects .task = m.objects .task) (hallocated : m.allocated ≤ m'.allocated)
    (hlog : m'.log = ((m.emit .refused r).cleanup s).log) (hr : r = none ∨ r = s)
    (hs : ∀ c, s = some c → ∃ x, m.held (.var x) = some c)
    (hheld : ∀ x c, m'.held (.var x) = some c → m.allocated ≤ c ∨ ∃ y, m.held (.var y) = some c) :
    m'.Sound := by
  -- The log grows by what is refused and what is destroyed.
  have hof (kind : TaskEventKind) : m'.of kind = m.of kind ++
      (if .refused = kind then r.toList else []) ++ if .destroyed = kind then s.toList else [] := by
    rw [← of_emit, ← of_emit, of, hlog]
    rfl
  have haccepted : m'.of .accepted = m.of .accepted := by simp [hof]
  have hrefused : m'.of .refused = m.of .refused ++ r.toList := by simp [hof]
  have hreached : m'.of .reached = m.of .reached := by simp [hof]
  have hdiscarded : m'.of .discarded = m.of .discarded := by simp [hof]
  have hinvoked : m'.of .invoked = m.of .invoked := by simp [hof]
  have hdestroyed : m'.of .destroyed = m.of .destroyed ++ s.toList := by simp [hof]
  have hqueued : m'.queued = m.queued := by rw [queued, hinbox, queued]
  have htask' : m'.held .task = m.held .task := by rw [held, htask, held]
  have hinHand : m'.inHand = m.inHand := by rw [inHand, hphase, htask', inHand]
  have hcount (e : TaskEvent) (he : e.kind ≠ .destroyed) (he' : e.kind ≠ .refused) :
      m'.log.count e = m.log.count e := by
    rw [hlog, cleanup, count_emit_of_ne _ _ he.symm, count_emit_of_ne _ _ he'.symm]
  constructor
  case exclusive => exact hexclusive
  case holds =>
    rw [hinbox]
    exact h.holds
  case idle =>
    rw [hphase, htask]
    exact h.idle
  case inUse =>
    rw [hinbox, hdiscarded]
    exact h.inUse
  case accepted_eq =>
    rw [haccepted, hreached, hqueued, hdiscarded]
    exact h.accepted_eq
  case reached_eq =>
    rw [hreached, hinvoked, hinHand]
    exact h.reached_eq
  case nodup =>
    rw [haccepted]
    exact h.nodup
  case handed =>
    intro c hc
    rw [haccepted] at hc
    obtain ⟨hlt, hnot⟩ := h.handed c hc
    refine ⟨by omega, fun x hx => ?_⟩
    rcases hheld x c hx with hle | ⟨y, hy⟩
    · omega
    · exact hnot y hy
  case refused =>
    intro c hc
    rw [hrefused] at hc
    rw [haccepted, hdestroyed]
    rcases List.mem_append.mp hc with hc | hc
    · obtain ⟨hnot, hgone⟩ := h.refused c hc
      exact ⟨hnot, List.mem_append_left _ hgone⟩
    · -- What is refused now was in an object, so it has not been accepted before.
      obtain rfl := Option.mem_toList.mp hc
      obtain rfl := hr.resolve_left (by simp)
      obtain ⟨x, hx⟩ := hs c rfl
      exact ⟨fun hc => (h.handed c hc).2 x hx, List.mem_append_right _ (by simp)⟩
  case balanced =>
    intro c
    rw [hcount _ (by simp) (by simp), hcount _ (by simp) (by simp), hphase, htask']
    exact h.balanced c
  case timely =>
    rw [hlog]
    refine timely_emit (timely_emit h.timely .refused (by simp) (by simp)) .destroyed (by simp) ?_
    intro _ c hc
    rw [count_emit_of_ne _ _ (by simp), count_emit_of_ne _ _ (by simp)]
    refine h.count_eq fun htask => ?_
    -- What is destroyed was in an object, so it is not the callable of `process_inbox`.
    obtain ⟨x, hx⟩ := hs c hc
    have heq := h.exclusive.injective _ _ c hx htask
    simp at heq

variable [DecidableEq ο]

/-- Construction from a callable. -/
theorem Sound.construct (h : m.Sound) {x : ο} (hx : m.objects (.var x) = none) :
    (m.construct x).Sound := by
  have hheld : (m.construct x).held = Function.update m.held (.var x) (some m.allocated) :=
    held_setObject m (.var x) _
  have hledger : (m.construct x).ledger = m.ledger.mint (.var x) := by
    rw [ledger, hheld]
    rfl
  refine h.objects (s := none) (r := none) ?_ rfl rfl ?_ (Nat.le_succ _) ?_ (.inl rfl) (by simp) ?_
  · rw [hledger]
    exact h.exclusive.mint (held_of_eq hx)
  · exact setObject_task m x (some (some m.allocated))
  · rw [cleanup, emit_none, emit_none]
    rfl
  · intro y c hy
    rw [hheld, Function.update_apply] at hy
    split_ifs at hy with heq
    · exact .inl (Option.some.inj hy).le
    · exact .inr ⟨y, hy⟩

/-- Construction of an empty task. -/
theorem Sound.constructEmpty (h : m.Sound) {x : ο} (hx : m.objects (.var x) = none) :
    (m.setObject (.var x) (some none)).Sound := by
  have hheld : (m.setObject (.var x) (some none)).held = m.held := by
    rw [held_setObject, Function.update_eq_self_iff]
    exact (held_of_eq hx).symm
  refine h.objects (s := none) (r := none) ?_ rfl rfl ?_ (le_refl _) ?_ (.inl rfl) (by simp) ?_
  · rw [ledger, hheld]
    exact h.exclusive
  · exact setObject_task m x _
  · rw [cleanup, emit_none, emit_none]
    rfl
  · intro y c hy
    rw [hheld] at hy
    exact .inr ⟨y, hy⟩

/-- What the objects hold after a move construction. -/
theorem held_moveConstruct (m : TaskMemory ο) (x : ο) {y : ο} {other : TaskStorage}
    (hy : m.objects (.var y) = some other) : (m.moveConstruct x y other).held =
      Function.update (Function.update m.held (.var x) (m.held (.var y))) (.var y) none := by
  rw [held_of_eq hy]
  show ((m.setObject (.var x) (some other)).setObject (.var y) (some none)).held = _
  rw [held_setObject, held_setObject]
  rfl

/-- Move construction. -/
theorem Sound.moveConstruct (h : m.Sound) {x y : ο} {other : TaskStorage}
    (hx : m.objects (.var x) = none) (hy : m.objects (.var y) = some other) :
    (m.moveConstruct x y other).Sound := by
  have hxy : TaskPlace.var x ≠ .var y := by
    intro heq
    rw [heq, hy] at hx
    simp at hx
  have hheld := held_moveConstruct m x hy
  have hledger : (m.moveConstruct x y other).ledger = m.ledger.move (.var x) (.var y) := by
    rw [ledger, hheld]
    rfl
  refine h.objects (s := none) (r := none) ?_ rfl rfl ?_ (le_refl _) ?_ (.inl rfl) (by simp) ?_
  · rw [hledger]
    exact h.exclusive.move (held_of_eq hx) hxy
  · exact (setObject_task _ y _).trans (setObject_task m x _)
  · rw [cleanup, emit_none, emit_none]
    rfl
  · intro z c hz
    rw [hheld] at hz
    simp only [Function.update_apply] at hz
    split_ifs at hz
    · exact .inr ⟨y, hz⟩
    · exact .inr ⟨z, hz⟩

/-- Destruction of an object. -/
theorem Sound.destroy (h : m.Sound) {x : ο} {s : TaskStorage} (hx : m.objects (.var x) = some s) :
    (m.destroy x s).Sound := by
  have hheld : (m.destroy x s).held = Function.update m.held (.var x) none :=
    held_setObject (m.cleanup s) (.var x) none
  have hledger : (m.destroy x s).ledger = m.ledger.release (.var x) :=
    ledger_cleanup_setObject m _ (held_of_eq hx) rfl
  refine h.objects (s := s) (r := none) ?_ rfl rfl ?_ (le_refl _) ?_ (.inl rfl) ?_ ?_
  · rw [hledger]
    exact h.exclusive.release _
  · exact setObject_task (m.cleanup s) x _
  · rw [emit_none]
    rfl
  · exact fun c hc => ⟨x, (held_of_eq hx).trans hc⟩
  · intro y c hy
    rw [hheld, Function.update_apply] at hy
    split_ifs at hy
    exact .inr ⟨y, hy⟩

/-- What the objects hold after a move assignment, and what it destroys. -/
theorem moveAssign_spec {x y : ο} {s other : TaskStorage} (hxy : x ≠ y)
    (hy : m.objects (.var y) = some other) : (m.moveAssign x y s other).held =
      Function.update (Function.update m.held (.var x) (m.held (.var y))) (.var y) none ∧
      (m.moveAssign x y s other).log = m.log ++ s.toList.map (⟨.destroyed, ·⟩) := by
  rw [TaskMemory.moveAssign, if_pos hxy]
  refine ⟨?_, rfl⟩
  show (((m.cleanup s).setObject (.var x) (some other)).setObject (.var y) (some none)).held = _
  rw [held_setObject, held_setObject, held_of_eq hy]
  rfl

/-- Move assignment. -/
theorem Sound.moveAssign (h : m.Sound) {x y : ο} {s other : TaskStorage}
    (hx : m.objects (.var x) = some s) (hy : m.objects (.var y) = some other) :
    (m.moveAssign x y s other).Sound := by
  rw [TaskMemory.moveAssign]
  split_ifs with hxy
  · have hxy' : TaskPlace.var x ≠ .var y := by simpa using hxy
    -- First the object gives up its callable, and then it takes the other one.
    set m₁ := (m.cleanup s).setObject (.var x) (some none) with hm₁
    have hrelease : m₁.ledger = m.ledger.release (.var x) :=
      ledger_cleanup_setObject m _ (held_of_eq hx) rfl
    have hy₁ : m₁.held (.var y) = other := by
      rw [hm₁, held_setObject, Function.update_of_ne hxy'.symm]
      exact held_of_eq hy
    set m₂ := ((m.cleanup s).setObject (.var x) (some other)).setObject (.var y) (some none)
      with hm₂
    have hheld : m₂.held =
        Function.update (Function.update m₁.held (.var x) (m₁.held (.var y))) (.var y) none := by
      rw [hy₁, hm₂, hm₁]
      simp only [held_setObject, Function.update_idem]
      rfl
    have hmove : m₂.ledger = m₁.ledger.move (.var x) (.var y) := by
      rw [ledger, hheld]
      rfl
    have hempty : m₁.ledger.holds (.var x) = none := by
      show m₁.held (.var x) = none
      rw [hm₁, held_setObject, Function.update_self]
      rfl
    refine h.objects (s := s) (r := none) ?_ rfl rfl ?_ (le_refl _) ?_ (.inl rfl) ?_ ?_
    · rw [hmove]
      refine Exclusive.move ?_ hempty hxy'
      rw [hrelease]
      exact h.exclusive.release _
    · exact (setObject_task _ y _).trans (setObject_task (m.cleanup s) x _)
    · rw [emit_none]
      rfl
    · exact fun c hc => ⟨x, (held_of_eq hx).trans hc⟩
    · intro z c hz
      rw [hheld, hy₁] at hz
      simp only [Function.update_apply, hm₁, held_setObject] at hz
      split_ifs at hz
      · exact .inr ⟨y, (held_of_eq hy).trans hz⟩
      · exact .inr ⟨z, hz⟩
  · exact h

end TaskMemory

end Novaio
