import Novaio.Closures.Lifetime

/-!
# Callables through the inbox

The steps of `push_inbox`, of `process_inbox` and of the inbox's destructor keep what holds of the
lifetime of a callable. So in every run the callables that the inbox has accepted are invoked in
order, each once when `process_inbox` comes to it, and every callable is destroyed once
(`inbox_closures_once`).
-/

namespace Novaio

open Ownership Transition

namespace TaskMemory

variable {ο : Type*} [DecidableEq ο] {m m' : TaskMemory ο} {s : TaskStorage}
  {q q' : SpscQueue TaskStorage}

/-! ## Pushing -/

/-- `push_inbox` moves the callable into the inbox, or destroys it. -/
theorem pushInbox_eq (m : TaskMemory ο) (x : ο) (q : SpscQueue TaskStorage) (other : TaskStorage) :
    m.pushInbox x q other =
      if (q.push other).1 then
        { m.setObject (.var x) (some none) with
          inbox := some (q.push other).2 }.emit .accepted other
      else ((m.setObject (.var x) (some none)).emit .refused other).cleanup other := by
  cases hpush : (q.push other).1 <;>
  simp only [pushInbox, moved, cleanup, hpush, if_true, Bool.false_eq_true, if_false, emit_none]

omit [DecidableEq ο] in
/-- The callables in an inbox. -/
theorem queued_eq (hq : m.inbox = some q) : m.queued = q.contents.filterMap id := by
  rw [queued, hq]

/-- A push that the inbox accepts. -/
theorem Sound.accept (h : m.Sound) {x : ο} (hx : m.objects (.var x) = some s)
    (hq : m.inbox = some q) (hpush : (q.push s).1 = true) :
    ({ m.setObject (.var x) (some none) with
      inbox := some (q.push s).2 }.emit .accepted s).Sound := by
  set m' := { m.setObject (.var x) (some none) with inbox := some (q.push s).2 }.emit .accepted s
    with hm'
  have hhx : m.held (.var x) = s := held_of_eq hx
  obtain ⟨hroom, -, hholds⟩ := (h.holds q hq).push s
  rw [hpush, eq_comm, decide_eq_true_iff] at hroom
  rw [if_pos hroom] at hholds
  have hcontents : (q.push s).2.contents = q.contents ++ [s] := hholds.contents_eq
  -- The log grows by the acceptance alone, and the inbox by what is accepted.
  have hof (kind : TaskEventKind) :
      m'.of kind = m.of kind ++ if .accepted = kind then s.toList else [] := of_emit _ _ _ _
  have haccepted : m'.of .accepted = m.of .accepted ++ s.toList := by simp [hof]
  have hreached : m'.of .reached = m.of .reached := by simp [hof]
  have hdiscarded : m'.of .discarded = m.of .discarded := by simp [hof]
  have hinvoked : m'.of .invoked = m.of .invoked := by simp [hof]
  have hrefused : m'.of .refused = m.of .refused := by simp [hof]
  have hdestroyed : m'.of .destroyed = m.of .destroyed := by simp [hof]
  have hheld : m'.held = Function.update m.held (.var x) none :=
    held_setObject m (.var x) (some none)
  have hobject : m'.objects .task = m.objects .task := setObject_task m x (some none)
  have htask : m'.held .task = m.held .task := by rw [held, hobject, held]
  have hqueued : m'.queued = m.queued ++ s.toList := by
    rw [queued_eq (m := m') rfl, queued_eq hq, hcontents, List.filterMap_append]
    cases s <;> rfl
  have hcount (kind : TaskEventKind) (c : ℕ) (hkind : .accepted ≠ kind) :
      m'.log.count ⟨kind, c⟩ = m.log.count ⟨kind, c⟩ := by
    rw [hm', count_emit_of_ne _ _ hkind]
    rfl
  have hledger : m'.ledger = m.ledger.enqueue (.var x) := by
    rw [ledger, hheld, hqueued, hdestroyed, ← hhx]
    rfl
  -- An object held the callable, so that it had not been accepted before.
  have hnew : ∀ c, s = some c → c ∉ m.of .accepted := fun c hc hmem =>
    (h.handed c hmem).2 x (hhx.trans hc)
  constructor
  case exclusive =>
    rw [hledger]
    exact h.exclusive.enqueue _
  case holds =>
    intro q' hq'
    obtain rfl := Option.some.inj hq'
    rwa [hcontents]
  case idle =>
    intro hidle
    rw [hobject]
    exact h.idle hidle
  case inUse =>
    intro _
    rw [hdiscarded]
    exact h.inUse (by simp [hq])
  case accepted_eq =>
    have hnone := h.inUse (by simp [hq])
    -- No callable is discarded, and the one that is accepted is the last one queued.
    calc m'.of .accepted = m.of .accepted ++ s.toList := haccepted
      _ = m.of .reached ++ m.queued ++ s.toList := by
          rw [h.accepted_eq, hnone, List.append_nil]
      _ = m'.of .reached ++ m'.queued ++ m'.of .discarded := by
          rw [hreached, hqueued, hdiscarded, hnone, List.append_nil, List.append_assoc]
  case reached_eq =>
    rw [hreached, hinvoked, inHand, htask]
    exact h.reached_eq
  case nodup =>
    rw [haccepted]
    refine List.nodup_append.mpr ⟨h.nodup, by cases s <;> simp, ?_⟩
    rintro c hc _ hs rfl
    exact hnew c (Option.mem_toList.mp hs) hc
  case handed =>
    intro c hc
    rw [haccepted] at hc
    rcases List.mem_append.mp hc with hc | hc
    · obtain ⟨hlt, hnot⟩ := h.handed c hc
      refine ⟨hlt, fun y hy => ?_⟩
      rw [hheld, Function.update_apply] at hy
      split_ifs at hy
      exact hnot y hy
    · -- The callable was held by the object that has been moved from, and by no other.
      have hc' : m.held (.var x) = some c := hhx.trans (Option.mem_toList.mp hc)
      refine ⟨(h.exclusive.held _ c hc').1, fun y hy => ?_⟩
      rw [hheld, Function.update_apply] at hy
      split_ifs at hy with hyx
      exact hyx (h.exclusive.injective _ _ c hy hc')
  case refused =>
    intro c hc
    rw [hrefused] at hc
    obtain ⟨hnot, hgone⟩ := h.refused c hc
    rw [haccepted, hdestroyed]
    refine ⟨fun hmem => ?_, hgone⟩
    rcases List.mem_append.mp hmem with hmem | hmem
    · exact hnot hmem
    · exact (h.exclusive.held _ c (hhx.trans (Option.mem_toList.mp hmem))).2.2 hgone
  case balanced =>
    intro c
    rw [hcount _ _ (by simp), hcount _ _ (by simp), htask]
    exact h.balanced c
  case timely => exact timely_emit h.timely .accepted (by simp) (by simp)

/-- A push. -/
theorem Sound.pushInbox (h : m.Sound) {x : ο} (hx : m.objects (.var x) = some s)
    (hq : m.inbox = some q) : (m.pushInbox x q s).Sound := by
  rw [pushInbox_eq]
  split_ifs with hpush
  · exact h.accept hx hq hpush
  · set m' := ((m.setObject (.var x) (some none)).emit .refused s).cleanup s with hm'
    have hheld : m'.held = Function.update m.held (.var x) none :=
      held_setObject m (.var x) (some none)
    have hdestroyed : m'.of .destroyed = m.of .destroyed ++ (m.held (.var x)).toList := by
      rw [held_of_eq hx, hm', cleanup, of_emit, of_emit, if_neg (by simp), List.append_nil,
        if_pos rfl]
      rfl
    have hledger : m'.ledger = m.ledger.release (.var x) := by
      rw [ledger, hheld, hdestroyed]
      rfl
    refine h.objects (s := s) (r := s) ?_ rfl rfl ?_ (le_refl _) rfl (.inr rfl) ?_ ?_
    · rw [hledger]
      exact h.exclusive.release _
    · exact setObject_task m x (some none)
    · exact fun c hc => ⟨x, (held_of_eq hx).trans hc⟩
    · intro y c hy
      rw [hheld, Function.update_apply] at hy
      split_ifs at hy
      exact .inr ⟨y, hy⟩

/-! ## Processing -/

omit [DecidableEq ο] in
/-- A step of `process_inbox` or of the inbox's destructor: nothing is accepted or refused, and no
variable is written. -/
theorem Sound.process (h : m.Sound) (hexclusive : Exclusive m'.ledger)
    (hvars : ∀ x, m'.objects (.var x) = m.objects (.var x))
    (hallocated : m'.allocated = m.allocated)
    (haccepted : m'.of .accepted = m.of .accepted) (hrefused : m'.of .refused = m.of .refused)
    (hdestroyed : ∀ c ∈ m.of .destroyed, c ∈ m'.of .destroyed)
    (hholds : ∀ q, m'.inbox = some q → q.Holds 0 q.contents)
    (hidle : m'.phase = .idle → m'.objects .task = none)
    (hinUse : m'.inbox ≠ none → m'.of .discarded = [])
    (horder : m.of .accepted = m'.of .reached ++ m'.queued ++ m'.of .discarded)
    (hreached : m'.of .reached = m'.of .invoked ++ m'.inHand)
    (hbalanced : ∀ c, m'.log.count ⟨.invoked, c⟩ = m'.log.count ⟨.returned, c⟩ +
      if m'.phase = .invoking ∧ m'.held .task = some c then 1 else 0)
    (htimely : Timely m'.log) : m'.Sound where
  exclusive := hexclusive
  holds := hholds
  idle := hidle
  inUse := hinUse
  accepted_eq := haccepted.trans horder
  reached_eq := hreached
  nodup := haccepted ▸ h.nodup
  handed c hc := by
    rw [haccepted] at hc
    obtain ⟨hlt, hnot⟩ := h.handed c hc
    refine ⟨hallocated ▸ hlt, fun x hx => ?_⟩
    rw [held, hvars] at hx
    exact hnot x hx
  refused c hc := by
    rw [hrefused] at hc
    obtain ⟨hnot, hgone⟩ := h.refused c hc
    exact ⟨haccepted ▸ hnot, hdestroyed c hgone⟩
  balanced := hbalanced
  timely := htimely

/-- The local of `process_inbox` is written, and no variable. -/
theorem setObject_var (m : TaskMemory ο) (x : ο) (object : Option TaskStorage) :
    (m.setObject .task object).objects (.var x) = m.objects (.var x) :=
  Function.update_of_ne (fun heq : TaskPlace.var x = .task => by cases heq) object m.objects

/-- The local of `process_inbox` after a write. -/
theorem setObject_task_self (m : TaskMemory ο) (object : Option TaskStorage) :
    (m.setObject .task object).objects .task = object := by
  simp [setObject]

/-- `process_inbox` starts. -/
theorem Sound.enter (h : m.Sound) (hphase : m.phase = .idle) (hinbox : m.inbox ≠ none) :
    { m.setObject .task (some none) with phase := .popping : TaskMemory ο }.Sound := by
  set m' : TaskMemory ο := { m.setObject .task (some none) with phase := .popping } with hm'
  have hnone : m.held .task = none := held_of_eq (h.idle hphase)
  have hheld : m'.held = m.held := by
    rw [show m'.held = Function.update m.held .task none from held_setObject m .task (some none),
      ← hnone, Function.update_eq_self]
  have hinHand : m.inHand = [] := inHand_of_ne (by simp [hphase])
  have hledger : m'.ledger = m.ledger := by
    rw [ledger, hheld]
    rfl
  refine h.process (hledger ▸ h.exclusive) (fun x => setObject_var m x (some none)) rfl rfl rfl
    (fun _ hc => hc) h.holds (fun hidle => by cases hidle) (fun _ => h.inUse hinbox) h.accepted_eq
    ?_ (fun c => ?_) h.timely
  · have hreached := h.reached_eq
    rw [hinHand] at hreached
    rw [inHand_of_ne (by simp [hm'])]
    exact hreached
  · rw [if_neg (by simp [hm'])]
    exact h.count_eq (by simp [hnone])

/-- `process_inbox` finds the inbox empty and returns. -/
theorem Sound.leave (h : m.Sound) (hphase : m.phase = .popping) (htask : m.objects .task = some s)
    (hinbox : m.inbox = some q) :
    { (m.cleanup s).setObject .task none with
      inbox := some q, phase := .idle : TaskMemory ο }.Sound := by
  set m' : TaskMemory ο :=
    { (m.cleanup s).setObject .task none with inbox := some q, phase := .idle } with hm'
  have hof (kind : TaskEventKind) :
      m'.of kind = m.of kind ++ if .destroyed = kind then s.toList else [] := of_emit _ _ _ _
  -- The local is destroyed, with the callable that has been invoked last.
  have hrelease : ((m.cleanup s).setObject .task none).ledger = m.ledger.release .task :=
    ledger_cleanup_setObject m .task (held_of_eq htask) rfl
  have hledger : m'.ledger = m.ledger.release .task := by
    have hqueued : m'.queued = m.queued := by
      rw [queued_eq (m := m') rfl, queued_eq hinbox]
    rw [← hrelease, ledger, hqueued]
    rfl
  have hinHand : m.inHand = [] := inHand_of_ne (by simp [hphase])
  have hcount (kind : TaskEventKind) (c : ℕ) (hkind : .destroyed ≠ kind) :
      m'.log.count ⟨kind, c⟩ = m.log.count ⟨kind, c⟩ := by
    exact count_emit_of_ne m s hkind
  have hbalanced := h.all_returned (by simp [hphase])
  refine h.process ?_ (fun x => setObject_var (m.cleanup s) x none) rfl (by simp [hof])
    (by simp [hof]) (fun c hc => ?_) (fun q' hq' => ?_)
    (fun _ => setObject_task_self (m.cleanup s) none) (fun _ => ?_) ?_ ?_ (fun c => ?_) ?_
  · rw [hledger]
    exact h.exclusive.release _
  · rw [hof]
    exact List.mem_append_left _ hc
  · obtain rfl := Option.some.inj hq'
    exact h.holds q hinbox
  · rw [hof, if_neg (by simp), List.append_nil]
    exact h.inUse (by simp [hinbox])
  · rw [h.accepted_eq, hof, hof, if_neg (by simp), if_neg (by simp), List.append_nil,
      List.append_nil, queued_eq hinbox]
    rfl
  · have hreached := h.reached_eq
    rw [hinHand] at hreached
    rw [inHand_of_ne (by simp [hm'])]
    simpa [hof] using hreached
  · rw [hcount _ _ (by simp), hcount _ _ (by simp), if_neg (by simp [hm'])]
    exact hbalanced c
  · exact timely_emit h.timely .destroyed (by simp) fun _ c _ => hbalanced c

/-- `process_inbox` takes a callable from the inbox, and destroys the one that it has invoked
before. -/
theorem Sound.pop (h : m.Sound) (hphase : m.phase = .popping) (htask : m.objects .task = some s)
    (hinbox : m.inbox = some q) {slot : TaskStorage} {rest : List TaskStorage}
    (hslot : q.contents = slot :: rest) (hrest : q'.Holds 0 rest) :
    ({ (m.cleanup s).setObject .task (some slot) with
      inbox := some q', phase := .popped : TaskMemory ο }.emit .reached slot).Sound := by
  set m₁ := (m.cleanup s).setObject .task (some none) with hm₁
  set m' := { (m.cleanup s).setObject .task (some slot) with
    inbox := some q', phase := .popped : TaskMemory ο }.emit .reached slot with hm'
  have hof (kind : TaskEventKind) : m'.of kind = m.of kind ++
      (if .destroyed = kind then s.toList else []) ++
        if .reached = kind then slot.toList else [] := by
    rw [hm', of_emit, ← of_emit m]
    rfl
  -- The callable moves from the front of the inbox to the local, which is empty by then.
  have hqueued : m.queued = slot.toList ++ m'.queued := by
    rw [queued_eq hinbox, queued_eq (m := m') rfl, hslot, hrest.contents_eq]
    cases slot <;> rfl
  have hheld : m'.held = Function.update m₁.held .task slot := by
    rw [hm₁, held_setObject, Function.update_idem]
    exact held_setObject (m.cleanup s) .task (some slot)
  have hrelease : m₁.ledger = m.ledger.release .task :=
    ledger_cleanup_setObject m .task (held_of_eq htask) rfl
  have hledger : m'.ledger = m₁.ledger.dequeue .task slot m'.queued := by
    have hgone : m'.of .destroyed = m₁.of .destroyed := by
      rw [hm', of_emit, if_neg (by simp), List.append_nil]
      rfl
    rw [ledger, hheld, hgone]
    rfl
  have hempty : m₁.ledger.holds .task = none := by
    show m₁.held .task = none
    rw [hm₁, held_setObject, Function.update_self]
    rfl
  have htask' : m'.held .task = slot := by
    rw [hheld, Function.update_self]
  have hinHand : m.inHand = [] := inHand_of_ne (by simp [hphase])
  have hdiscarded := h.inUse (by simp [hinbox])
  have hcount (kind : TaskEventKind) (c : ℕ) (hkind : .destroyed ≠ kind)
      (hkind' : .reached ≠ kind) : m'.log.count ⟨kind, c⟩ = m.log.count ⟨kind, c⟩ := by
    rw [hm', count_emit_of_ne _ _ hkind']
    exact count_emit_of_ne m s hkind
  have hbalanced := h.all_returned (by simp [hphase])
  refine h.process ?_ (fun x => setObject_var (m.cleanup s) x (some slot)) rfl (by simp [hof])
    (by simp [hof]) (fun c hc => ?_) (fun q'' hq' => ?_) (fun hidle => ?_)
    (fun _ => by simp [hof, hdiscarded]) ?_ ?_ (fun c => ?_) ?_
  · rw [hledger]
    refine Exclusive.dequeue ?_ hempty hqueued
    rw [hrelease]
    exact h.exclusive.release _
  · rw [hof]
    exact List.mem_append_left _ (List.mem_append_left _ hc)
  · obtain rfl := Option.some.inj hq'
    rwa [hrest.contents_eq]
  · cases hidle
  · rw [h.accepted_eq, hqueued, hdiscarded]
    simp [hof, hdiscarded]
  · have hreached := h.reached_eq
    rw [hinHand, List.append_nil] at hreached
    rw [inHand_of_popped rfl, htask']
    simp [hof, hreached]
  · rw [hcount _ _ (by simp) (by simp), hcount _ _ (by simp) (by simp),
      if_neg (by simp [hm', emit])]
    exact hbalanced c
  · refine timely_emit ?_ .reached (by simp) (by simp)
    exact timely_emit h.timely .destroyed (by simp) fun _ c _ => hbalanced c

omit [DecidableEq ο] in
/-- `process_inbox` invokes the callable that it has taken, if the task has one. -/
theorem Sound.invoke (h : m.Sound) (hphase : m.phase = .popped) (htask : m.objects .task = some s) :
    { m.emit .invoked s with
      phase := if s.isSome then .invoking else .popping : TaskMemory ο }.Sound := by
  set m' : TaskMemory ο :=
    { m.emit .invoked s with phase := if s.isSome then .invoking else .popping } with hm'
  have hof (kind : TaskEventKind) :
      m'.of kind = m.of kind ++ if .invoked = kind then s.toList else [] := of_emit _ _ _ _
  have htask' : m.held .task = s := held_of_eq htask
  have hledger : m'.ledger = m.ledger := by
    rw [ledger, hof, if_neg (by simp), List.append_nil]
    rfl
  have hreached := h.reached_eq
  rw [inHand_of_popped hphase, htask'] at hreached
  have hphase' : m'.phase ≠ .popped := by
    rw [hm']
    dsimp only
    split_ifs <;> simp
  refine h.process (hledger ▸ h.exclusive) (fun _ => rfl) rfl (by simp [hof]) (by simp [hof])
    (fun c hc => by simpa [hof] using hc) h.holds (fun hidle => ?_)
    (fun hinbox => by simpa [hof] using h.inUse hinbox) ?_ ?_ (fun c => ?_) ?_
  · rw [hm'] at hidle
    dsimp only at hidle
    split_ifs at hidle
  · simp only [hof, reduceCtorEq, if_false, List.append_nil]
    exact h.accepted_eq
  · rw [inHand_of_ne hphase']
    simpa [hof] using hreached
  · have hbalanced := h.all_returned (by simp [hphase]) c
    have hinvoked := count_emit m .invoked s ⟨.invoked, c⟩
    have hreturned : (m.emit .invoked s).log.count ⟨.returned, c⟩ = m.log.count ⟨.returned, c⟩ :=
      count_emit_of_ne m s (by simp)
    simp only [true_and] at hinvoked
    show (m.emit .invoked s).log.count _ = (m.emit .invoked s).log.count _ +
      if m'.phase = .invoking ∧ m.held .task = some c then 1 else 0
    rw [hinvoked, hreturned, hbalanced, htask']
    congr 1
    -- The phase is `invoking` where the task has a callable.
    cases s with
    | none => simp
    | some d => simp [hm']
  · refine timely_emit h.timely .invoked (fun _ c hc => ?_) (by simp)
    exact (h.exclusive.held .task c (htask'.trans hc)).2.2

omit [DecidableEq ο] in
/-- The task returns. -/
theorem Sound.return (h : m.Sound) (hphase : m.phase = .invoking)
    (htask : m.objects .task = some s) :
    { m.emit .returned s with phase := .popping : TaskMemory ο }.Sound := by
  set m' : TaskMemory ο := { m.emit .returned s with phase := .popping } with hm'
  have hof (kind : TaskEventKind) :
      m'.of kind = m.of kind ++ if .returned = kind then s.toList else [] := of_emit _ _ _ _
  have htask' : m.held .task = s := held_of_eq htask
  have hledger : m'.ledger = m.ledger := by
    rw [ledger, hof, if_neg (by simp), List.append_nil]
    rfl
  have hreached := h.reached_eq
  rw [inHand_of_ne (by simp [hphase])] at hreached
  refine h.process (hledger ▸ h.exclusive) (fun _ => rfl) rfl (by simp [hof]) (by simp [hof])
    (fun c hc => by simpa [hof] using hc) h.holds (fun hidle => by cases hidle)
    (fun hinbox => by simpa [hof] using h.inUse hinbox) ?_ ?_ (fun c => ?_) ?_
  · simp only [hof, reduceCtorEq, if_false, List.append_nil]
    exact h.accepted_eq
  · rw [inHand_of_ne (by simp [hm'])]
    simpa [hof] using hreached
  · have hbalanced := h.balanced c
    have hinvoked : (m.emit .returned s).log.count ⟨.invoked, c⟩ = m.log.count ⟨.invoked, c⟩ :=
      count_emit_of_ne m s (by simp)
    have hreturned := count_emit m .returned s ⟨.returned, c⟩
    simp only [hphase, htask', true_and] at hbalanced hreturned
    rw [if_neg (by simp [hm']), Nat.add_zero]
    show (m.emit .returned s).log.count _ = (m.emit .returned s).log.count _
    rw [hinvoked, hreturned, hbalanced]
  · exact timely_emit h.timely .returned (by simp) (by simp)

/-! ## Destruction -/

omit [DecidableEq ο] in
/-- The destructor of the inbox destroys the callables in the slots, in order, and changes nothing
else. -/
theorem destroySlots_eq (m : TaskMemory ο) (items : List TaskStorage) :
    ∃ log, m.destroySlots (items.map .live) = { m with log := log } ∧
      (∀ kind, ({ m with log := log } : TaskMemory ο).of kind = m.of kind ++
        if kind = .discarded ∨ kind = .destroyed then items.filterMap id else []) ∧
      (∀ kind c, kind ≠ .discarded → kind ≠ .destroyed →
        log.count ⟨kind, c⟩ = m.log.count ⟨kind, c⟩) ∧
      (Timely m.log → (∀ c, m.log.count ⟨.invoked, c⟩ = m.log.count ⟨.returned, c⟩) →
        Timely log) := by
  induction items generalizing m with
  | nil => exact ⟨m.log, rfl, by simp, fun _ _ _ _ => rfl, fun h _ => h⟩
  | cons s items ih =>
    -- The first slot is discarded and destroyed before the rest.
    set m₁ := (m.emit .discarded s).cleanup s with hm₁
    obtain ⟨log, heq, hof, hcount, htimely⟩ := ih m₁
    have hof₁ (kind : TaskEventKind) : m₁.of kind = m.of kind ++
        (if .discarded = kind then s.toList else []) ++
          if .destroyed = kind then s.toList else [] := by
      rw [hm₁, cleanup, of_emit, of_emit]
    have hcount₁ (kind : TaskEventKind) (c : ℕ) (hdiscarded : kind ≠ .discarded)
        (hdestroyed : kind ≠ .destroyed) : m₁.log.count ⟨kind, c⟩ = m.log.count ⟨kind, c⟩ := by
      rw [hm₁, cleanup, count_emit_of_ne _ _ hdestroyed.symm, count_emit_of_ne _ _ hdiscarded.symm]
    refine ⟨log, heq, fun kind => ?_, fun kind c hdiscarded hdestroyed => ?_, fun ht hb => ?_⟩
    · have hrest := (hof kind).trans (by rw [hof₁])
      refine Eq.trans hrest ?_
      cases kind <;> cases s <;> simp
    · rw [hcount kind c hdiscarded hdestroyed, hcount₁ kind c hdiscarded hdestroyed]
    · have hb₁ : ∀ c, m₁.log.count ⟨.invoked, c⟩ = m₁.log.count ⟨.returned, c⟩ := fun c => by
        rw [hcount₁ _ _ (by simp) (by simp), hcount₁ _ _ (by simp) (by simp), hb]
      refine htimely ?_ hb₁
      refine timely_emit (timely_emit ht .discarded (by simp) (by simp)) .destroyed (by simp) ?_
      intro _ c _
      rw [count_emit_of_ne _ _ (by simp), count_emit_of_ne _ _ (by simp)]
      exact hb c

omit [DecidableEq ο] in
/-- The inbox is destroyed with what is left in it. -/
theorem Sound.destroyInbox (h : m.Sound) (hphase : m.phase = .idle) (hinbox : m.inbox = some q) :
    ({ m with inbox := none : TaskMemory ο }.destroySlots (q.destroyAll q.capacity).1).Sound := by
  have hholds := h.holds q hinbox
  have hslots := (hholds.destroyAll_eq q.capacity (by simpa using hholds.size_le)).1
  obtain ⟨log, heq, hof, hcount, htimely⟩ :=
    destroySlots_eq { m with inbox := none : TaskMemory ο } q.contents
  rw [hslots, heq]
  set m' : TaskMemory ο := { m with inbox := none, log := log } with hm'
  have hof' (kind : TaskEventKind) : m'.of kind = m.of kind ++
      if kind = .discarded ∨ kind = .destroyed then m.queued else [] := by
    rw [queued_eq hinbox]
    exact hof kind
  have hcount' (kind : TaskEventKind) (c : ℕ) (hdiscarded : kind ≠ .discarded)
      (hdestroyed : kind ≠ .destroyed) : m'.log.count ⟨kind, c⟩ = m.log.count ⟨kind, c⟩ :=
    hcount kind c hdiscarded hdestroyed
  have hbalanced := h.all_returned (by simp [hphase])
  -- What was queued is gone, and nothing else changes hands.
  have hledger : m'.ledger = m.ledger.drop := by
    rw [ledger, hof', if_pos (.inr rfl)]
    rfl
  have hinHand : m'.inHand = m.inHand := rfl
  refine h.process ?_ (fun _ => rfl) rfl (by simp [hof']) (by simp [hof']) (fun c hc => ?_)
    (fun q' hq' => ?_) h.idle (fun hne => (hne rfl).elim) ?_ ?_ (fun c => ?_)
    (htimely h.timely hbalanced)
  · rw [hledger]
    exact h.exclusive.drop
  · rw [hof']
    exact List.mem_append_left _ hc
  · cases hq'
  · have hqueued : m'.queued = [] := rfl
    rw [h.accepted_eq, hqueued, h.inUse (by simp [hinbox])]
    simp [hof', h.inUse (by simp [hinbox] : m.inbox ≠ none)]
  · rw [hinHand]
    simpa [hof'] using h.reached_eq
  · rw [hcount' _ _ (by simp) (by simp), hcount' _ _ (by simp) (by simp)]
    exact h.balanced c

/-! ## All steps -/

/-- A pop that finds a task. -/
theorem popInbox_of_some (m : TaskMemory ο) (task : TaskStorage) {slot : TaskStorage}
    (hq : q.pop = some (some slot, q')) : m.popInbox task q =
      some ({ (m.cleanup task).setObject .task (some slot) with
        inbox := some q', phase := .popped : TaskMemory ο }.emit .reached slot) := by
  rw [popInbox, hq]
  simp only [moved, cleanup, emit_none]

/-- `pop` and the test that the loop of `process_inbox` makes. -/
theorem Sound.popInbox (h : m.Sound) (hphase : m.phase = .popping)
    (htask : m.objects .task = some s) (hinbox : m.inbox = some q)
    (hpop : m.popInbox s q = some m') : m'.Sound := by
  have hholds := h.holds q hinbox
  cases hcontents : q.contents with
  | nil =>
    rw [hcontents] at hholds
    rw [TaskMemory.popInbox, hholds.pop_nil] at hpop
    obtain rfl := Option.some.inj hpop
    exact h.leave hphase htask hinbox
  | cons slot rest =>
    rw [hcontents] at hholds
    obtain ⟨q', hq', -, hrest⟩ := hholds.pop_cons
    rw [popInbox_of_some m s hq'] at hpop
    obtain rfl := Option.some.inj hpop
    exact h.pop hphase htask hinbox hcontents hrest

/-- Every step keeps what holds. -/
theorem Sound.step (h : m.Sound) {op : TaskOp ο} (hstep : uniqueTaskStep m op m') : m'.Sound := by
  cases op with
  | construct x =>
    obtain ⟨hx, rfl⟩ := hstep
    exact h.construct hx
  | constructEmpty x =>
    obtain ⟨hx, rfl⟩ := hstep
    exact h.constructEmpty hx
  | moveConstruct x y =>
    obtain ⟨hx, other, hy, rfl⟩ := hstep
    exact h.moveConstruct hx hy
  | moveAssign x y =>
    obtain ⟨s, other, hx, hy, rfl⟩ := hstep
    exact h.moveAssign hx hy
  | destroy x =>
    obtain ⟨s, hx, rfl⟩ := hstep
    exact h.destroy hx
  | pushInbox x =>
    obtain ⟨other, q, hx, hq, rfl⟩ := hstep
    exact h.pushInbox hx hq
  | enter =>
    obtain ⟨hphase, hinbox, rfl⟩ := hstep
    exact h.enter hphase hinbox
  | pop =>
    obtain ⟨hphase, task, q, htask, hq, hpop⟩ := hstep
    exact h.popInbox hphase htask hq hpop
  | invoke =>
    obtain ⟨hphase, task, htask, rfl⟩ := hstep
    exact h.invoke hphase htask
  | «return» =>
    obtain ⟨hphase, task, htask, rfl⟩ := hstep
    exact h.return hphase htask
  | destroyInbox =>
    obtain ⟨hphase, q, hq, rfl⟩ := hstep
    exact h.destroyInbox hphase hq

omit [DecidableEq ο] in
/-- At the start there is no callable. -/
theorem new_sound (capacity : ℕ) (hpow : ∃ k, capacity = 2 ^ k) (hle : capacity ≤ 2 ^ 63) :
    (new capacity hpow hle : TaskMemory ο).Sound := by
  have hholds : (SpscQueue.ofCapacity capacity hpow hle : SpscQueue TaskStorage).Holds 0 [] :=
    SpscQueue.ofCapacity_holds capacity hpow hle
  have hqueued : (new capacity hpow hle : TaskMemory ο).queued = [] := by
    rw [queued_eq rfl, hholds.contents_eq]
    rfl
  have hledger : (new capacity hpow hle : TaskMemory ο).ledger = Ledger.new := by
    rw [ledger, hqueued]
    rfl
  refine ⟨hledger ▸ Exclusive.new, fun q hq => ?_, fun _ => rfl, fun _ => rfl, ?_, rfl,
    List.nodup_nil, fun c hc => (List.not_mem_nil hc).elim,
    fun c hc => (List.not_mem_nil hc).elim, fun c => rfl, ?_⟩
  · obtain rfl := Option.some.inj hq
    rwa [hholds.contents_eq]
  · rw [hqueued]
    rfl
  · intro pre c post heq
    simp [new] at heq

omit [DecidableEq ο] in
/-- The destructor of the inbox writes to the log only. -/
theorem exists_destroySlots (m : TaskMemory ο) (slots : List (Cell TaskStorage)) :
    ∃ log, m.destroySlots slots = { m with log := log } := by
  induction slots generalizing m with
  | nil => exact ⟨m.log, rfl⟩
  | cons slot slots ih =>
    cases slot with
    | live s => exact ih ((m.emit .discarded s).cleanup s)
    | raw => exact ih m
    | moved => exact ih m

/-- While `process_inbox` runs it has its local, and the inbox is there. -/
def Running (m : TaskMemory ο) : Prop :=
  m.phase ≠ .idle → m.objects .task ≠ none ∧ m.inbox ≠ none

omit [DecidableEq ο] in
/-- A step that leaves these. -/
theorem Running.of_eq (h : m.Running) (hphase : m'.phase = m.phase)
    (htask : m'.objects .task = m.objects .task) (hinbox : m.inbox ≠ none → m'.inbox ≠ none) :
    m'.Running := by
  intro hne
  obtain ⟨ht, hi⟩ := h (hphase ▸ hne)
  exact ⟨htask ▸ ht, hinbox hi⟩

/-- Every step keeps it. -/
theorem Running.step (h : m.Running) {op : TaskOp ο} (hstep : uniqueTaskStep m op m') :
    m'.Running := by
  cases op with
  | construct x =>
    obtain ⟨-, rfl⟩ := hstep
    exact h.of_eq rfl (setObject_task m x (some (some m.allocated))) id
  | constructEmpty x =>
    obtain ⟨-, rfl⟩ := hstep
    exact h.of_eq rfl (setObject_task m x (some none)) id
  | moveConstruct x y =>
    obtain ⟨-, other, -, rfl⟩ := hstep
    exact h.of_eq rfl ((setObject_task _ y _).trans (setObject_task m x _)) id
  | moveAssign x y =>
    obtain ⟨s, other, -, -, rfl⟩ := hstep
    rw [moveAssign]
    split_ifs
    · exact h.of_eq rfl ((setObject_task _ y _).trans (setObject_task (m.cleanup s) x _)) id
    · exact h
  | destroy x =>
    obtain ⟨s, -, rfl⟩ := hstep
    exact h.of_eq rfl (setObject_task (m.cleanup s) x _) id
  | pushInbox x =>
    obtain ⟨s, q, -, -, rfl⟩ := hstep
    rw [pushInbox_eq]
    split_ifs
    · exact h.of_eq rfl (setObject_task m x (some none)) fun _ => Option.some_ne_none _
    · exact h.of_eq rfl (setObject_task m x (some none)) id
  | enter =>
    obtain ⟨-, hinbox, rfl⟩ := hstep
    refine fun _ => ⟨?_, hinbox⟩
    rw [show _ = some none from setObject_task_self m (some none)]
    exact Option.some_ne_none _
  | pop =>
    obtain ⟨-, task, q, -, -, hpop⟩ := hstep
    cases hq : q.pop with
    | none => simp [popInbox, hq] at hpop
    | some r =>
      obtain ⟨slot, q'⟩ := r
      cases slot with
      | none =>
        rw [popInbox, hq] at hpop
        obtain rfl := Option.some.inj hpop
        exact fun hne => (hne rfl).elim
      | some slot =>
        rw [popInbox_of_some m task hq] at hpop
        obtain rfl := Option.some.inj hpop
        refine fun _ => ⟨fun hnone => ?_, Option.some_ne_none _⟩
        have hself := setObject_task_self (m.cleanup task) (some slot)
        exact Option.some_ne_none slot (hself.symm.trans hnone)
  | invoke =>
    obtain ⟨hphase, task, htask, rfl⟩ := hstep
    exact fun _ => h (by simp [hphase])
  | «return» =>
    obtain ⟨hphase, task, htask, rfl⟩ := hstep
    exact fun _ => h (by simp [hphase])
  | destroyInbox =>
    obtain ⟨hphase, q, hq, rfl⟩ := hstep
    obtain ⟨log, heq⟩ := exists_destroySlots { m with inbox := none : TaskMemory ο }
      (q.destroyAll q.capacity).1
    rw [heq]
    exact fun hne => (hne hphase).elim

/-- What the steps do with the callables. An object that is assigned or destroyed gives up what it
held, which is destroyed, and so does the inbox with all that it has. A push is accepted if there is
room, and otherwise what is pushed is destroyed. -/
structure Acts (m : TaskMemory ο) : Prop where
  constructs (x : ο) (m' : TaskMemory ο) : uniqueTaskStep m (.construct x) m' →
    m'.held = Function.update m.held (.var x) (some m.allocated) ∧ m'.log = m.log
  moves (x y : ο) (m' : TaskMemory ο) : uniqueTaskStep m (.moveConstruct x y) m' →
    m'.held = Function.update (Function.update m.held (.var x) (m.held (.var y))) (.var y) none ∧
      m'.log = m.log
  assigns (x y : ο) (m' : TaskMemory ο) : x ≠ y → uniqueTaskStep m (.moveAssign x y) m' →
    m'.held = Function.update (Function.update m.held (.var x) (m.held (.var y))) (.var y) none ∧
      m'.log = m.log ++ (m.held (.var x)).toList.map (⟨.destroyed, ·⟩)
  assigns_self (x : ο) (m' : TaskMemory ο) : uniqueTaskStep m (.moveAssign x x) m' → m' = m
  destroys (x : ο) (m' : TaskMemory ο) : uniqueTaskStep m (.destroy x) m' →
    m'.objects = Function.update m.objects (.var x) none ∧
      m'.log = m.log ++ (m.held (.var x)).toList.map (⟨.destroyed, ·⟩)
  can_destroy (x : ο) : m.objects (.var x) ≠ none → ∃ m', uniqueTaskStep m (.destroy x) m'
  pushes (x : ο) (q : SpscQueue TaskStorage) (m' : TaskMemory ο) : m.inbox = some q →
    uniqueTaskStep m (.pushInbox x) m' → m'.held = Function.update m.held (.var x) none ∧
      if q.contents.length < q.capacity then
        m'.queued = m.queued ++ (m.held (.var x)).toList ∧
        m'.log = m.log ++ (m.held (.var x)).toList.map (⟨.accepted, ·⟩)
      else m'.queued = m.queued ∧
        m'.log = m.log ++ (m.held (.var x)).toList.map (⟨.refused, ·⟩) ++
          (m.held (.var x)).toList.map (⟨.destroyed, ·⟩)
  destroysInbox (m' : TaskMemory ο) : uniqueTaskStep m .destroyInbox m' → m'.inbox = none ∧
    m'.objects = m.objects ∧ m'.of .discarded = m.of .discarded ++ m.queued ∧
      m'.of .destroyed = m.of .destroyed ++ m.queued

/-- What `process_inbox` does with the callables, each of whose steps is possible: it destroys the
one that it has invoked, takes the first one in the inbox, if there is one, and invokes it. -/
structure Processes (m : TaskMemory ο) : Prop where
  pops : m.phase = .popping → ∃ q m', m.inbox = some q ∧ uniqueTaskStep m .pop m' ∧
    (q.contents = [] → m'.phase = .idle ∧ m'.objects .task = none ∧ m'.queued = [] ∧
      m'.log = m.log ++ (m.held .task).toList.map (⟨.destroyed, ·⟩)) ∧
    ∀ slot rest, q.contents = slot :: rest → m'.phase = .popped ∧ m'.held .task = slot ∧
      m'.queued = rest.filterMap id ∧
      m'.log = m.log ++ (m.held .task).toList.map (⟨.destroyed, ·⟩) ++
        slot.toList.map (⟨.reached, ·⟩)
  invokes : m.phase = .popped → ∃ m', uniqueTaskStep m .invoke m' ∧
    m'.log = m.log ++ (m.held .task).toList.map (⟨.invoked, ·⟩) ∧
    m'.phase = if (m.held .task).isSome then .invoking else .popping
  returns : m.phase = .invoking → ∃ m', uniqueTaskStep m .return m' ∧
    m'.log = m.log ++ (m.held .task).toList.map (⟨.returned, ·⟩) ∧ m'.phase = .popping

/-- The steps of the program do this where the inbox is used in order. -/
theorem Sound.acts (h : m.Sound) : m.Acts := by
  constructor
  case constructs =>
    rintro x _ ⟨-, rfl⟩
    exact ⟨held_setObject m (.var x) _, rfl⟩
  case moves =>
    rintro x y _ ⟨-, other, hy, rfl⟩
    exact ⟨held_moveConstruct m x hy, rfl⟩
  case assigns =>
    rintro x y _ hxy ⟨s, other, hx, hy, rfl⟩
    rw [held_of_eq hx]
    exact moveAssign_spec hxy hy
  case assigns_self =>
    rintro x _ ⟨s, other, -, -, rfl⟩
    rw [TaskMemory.moveAssign, if_neg (not_not.mpr rfl)]
  case destroys =>
    rintro x _ ⟨s, hx, rfl⟩
    rw [held_of_eq hx]
    exact ⟨rfl, rfl⟩
  case can_destroy =>
    intro x hx
    obtain ⟨s, hs⟩ := Option.ne_none_iff_exists'.mp hx
    exact ⟨_, s, hs, rfl⟩
  case pushes =>
    rintro x q _ hq ⟨s, q', hx, hq', rfl⟩
    obtain rfl : q = q' := Option.some.inj (hq.symm.trans hq')
    have hhx : m.held (.var x) = s := held_of_eq hx
    obtain ⟨hroom, -, hholds⟩ := (h.holds q hq).push s
    rw [pushInbox_eq, hhx]
    by_cases hlt : q.contents.length < q.capacity
    · rw [if_pos hlt] at hholds ⊢
      rw [if_pos (by rw [hroom, decide_eq_true hlt])]
      refine ⟨held_setObject m (.var x) (some none), ?_, rfl⟩
      rw [queued_eq hq, queued_eq (q := (q.push s).2) rfl, hholds.contents_eq,
        List.filterMap_append]
      cases s <;> rfl
    · rw [if_neg hlt, if_neg (by simp [hroom, hlt])]
      exact ⟨held_setObject m (.var x) (some none), rfl, rfl⟩
  case destroysInbox =>
    rintro _ ⟨-, q, hq, rfl⟩
    have hholds := h.holds q hq
    have hslots := (hholds.destroyAll_eq q.capacity (by simpa using hholds.size_le)).1
    obtain ⟨log, heq, hof, -⟩ :=
      destroySlots_eq { m with inbox := none : TaskMemory ο } q.contents
    rw [hslots, heq, queued_eq hq]
    exact ⟨rfl, rfl, hof .discarded, hof .destroyed⟩

/-- `process_inbox` does this. -/
theorem Sound.processes (h : m.Sound) (hrunning : m.Running) : m.Processes := by
  constructor
  case pops =>
    intro hphase
    obtain ⟨ht, hi⟩ := hrunning (by simp [hphase])
    obtain ⟨task, htask⟩ := Option.ne_none_iff_exists'.mp ht
    obtain ⟨q, hq⟩ := Option.ne_none_iff_exists'.mp hi
    have hholds := h.holds q hq
    rw [held_of_eq htask]
    cases hcontents : q.contents with
    | nil =>
      rw [hcontents] at hholds
      have hpop : m.popInbox task q = some { (m.cleanup task).setObject .task none with
          inbox := some q, phase := .idle } := by rw [TaskMemory.popInbox, hholds.pop_nil]
      refine ⟨q, _, hq, ⟨hphase, task, q, htask, hq, hpop⟩,
        fun _ => ⟨rfl, setObject_task_self (m.cleanup task) none, ?_, rfl⟩, fun _ _ heq => ?_⟩
      · rw [queued_eq rfl, hcontents]
        rfl
      · simp [hcontents] at heq
    | cons slot rest =>
      rw [hcontents] at hholds
      obtain ⟨q', hq', -, hrest⟩ := hholds.pop_cons
      refine ⟨q, _, hq, ⟨hphase, task, q, htask, hq, popInbox_of_some m task hq'⟩, fun heq => ?_,
        fun slot' rest' heq => ?_⟩
      · simp [hcontents] at heq
      · obtain ⟨rfl, rfl⟩ := List.cons.inj (hcontents.symm.trans heq)
        refine ⟨rfl, held_of_eq (setObject_task_self (m.cleanup task) (some slot)), ?_, rfl⟩
        rw [queued_eq rfl, hrest.contents_eq]
  case invokes =>
    intro hphase
    obtain ⟨task, htask⟩ := Option.ne_none_iff_exists'.mp (hrunning (by simp [hphase])).1
    rw [held_of_eq htask]
    exact ⟨_, ⟨hphase, task, htask, rfl⟩, rfl, rfl⟩
  case returns =>
    intro hphase
    obtain ⟨task, htask⟩ := Option.ne_none_iff_exists'.mp (hrunning (by simp [hphase])).1
    rw [held_of_eq htask]
    exact ⟨_, ⟨hphase, task, htask, rfl⟩, rfl, rfl⟩

/-- What holds of every callable. Those accepted are reached in the order of the pushes, unless the
inbox is destroyed before, and those reached are invoked in that order, each once. No other callable
is invoked. A callable is destroyed once, not before an invocation of it has returned, and every one
has been destroyed when no object is left. What the steps do with them is `acts` and `processes`.
-/
structure Once (m : TaskMemory ο) : Prop where
  accepted_eq : m.of .accepted = m.of .reached ++ m.queued ++ m.of .discarded
  reached_eq : m.of .reached = m.of .invoked ++ m.inHand
  count_invoked : ∀ c ∈ m.of .reached, c ∉ m.inHand → (m.of .invoked).count c = 1
  not_invoked : ∀ c, c ∉ m.of .reached ∨ c ∈ m.of .refused ∨ c ∈ m.queued ∨ c ∈ m.of .discarded →
    c ∉ m.of .invoked
  count_destroyed_le : ∀ c, (m.of .destroyed).count c ≤ 1
  timely : Timely m.log
  count_destroyed : (∀ place, m.objects place = none) → m.inbox = none →
    ∀ c < m.allocated, (m.of .destroyed).count c = 1
  acts : m.Acts
  processes : m.Processes

/-- A callable that has been accepted is in one part of the way through the inbox only. -/
theorem Sound.once (h : m.Sound) (hrunning : m.Running) : m.Once := by
  have hnodup := h.nodup
  rw [h.accepted_eq, h.reached_eq] at hnodup
  have hinvoked : (m.of .invoked).Nodup := by
    simp only [List.append_assoc] at hnodup
    exact (List.nodup_append.mp hnodup).1
  have hreached : ∀ c ∈ m.of .invoked, c ∈ m.of .reached := fun c hc => by
    rw [h.reached_eq]
    exact List.mem_append_left _ hc
  have haccepted : ∀ c ∈ m.of .reached, c ∈ m.of .accepted := fun c hc => by
    rw [h.accepted_eq]
    exact List.mem_append_left _ (List.mem_append_left _ hc)
  refine ⟨h.accepted_eq, h.reached_eq, fun c hc hhand => ?_, fun c hc hmem => ?_, fun c => ?_,
    h.timely, fun hobjects hinbox c hc => ?_, h.acts, h.processes hrunning⟩
  · rw [h.reached_eq, List.mem_append] at hc
    exact List.count_eq_one_of_mem hinvoked (hc.resolve_right hhand)
  · rcases hc with hc | hc | hc | hc
    · exact hc (hreached c hmem)
    · exact (h.refused c hc).1 (haccepted c (hreached c hmem))
    · -- A callable in the inbox would have been accepted twice.
      have hdisjoint := (List.nodup_append.mp (List.nodup_append.mp hnodup).1).2.2
      exact hdisjoint c (List.mem_append_left _ hmem) c hc rfl
    · have hdisjoint := (List.nodup_append.mp hnodup).2.2
      exact hdisjoint c (List.mem_append_left _ (List.mem_append_left _ hmem)) c hc rfl
  · exact List.nodup_iff_count_le_one.mp h.exclusive.nodup_gone c
  · refine h.exclusive.count_gone (fun place => ?_) ?_ hc
    · exact held_of_eq (hobjects place)
    · show m.queued = []
      rw [queued, hinbox]

end TaskMemory

/-- In every run of a program that constructs, moves, assigns and destroys tasks, with pushes into
an inbox of any capacity, also by the tasks that `process_inbox` invokes, and with the destruction
of the inbox in the end: the callables accepted are invoked in the order of the pushes, each once
when `process_inbox` has come to it, those refused or left in the inbox are not invoked, and every
callable is destroyed once, not before an invocation of it has returned. -/
theorem inbox_closures_once {ο : Type*} [DecidableEq ο] (capacity : ℕ)
    (hpow : ∃ k, capacity = 2 ^ k) (hle : capacity ≤ 2 ^ 63) {l : List (TaskOp ο × TaskMemory ο)}
    (hl : Path uniqueTaskStep (TaskMemory.new capacity hpow hle) l) :
    (last (TaskMemory.new capacity hpow hle) l).Once := by
  obtain ⟨hsound, hrunning⟩ := (hl.invariant (I := fun m => m.Sound ∧ m.Running)
    (fun _ _ _ h hstep => ⟨h.1.step hstep, h.2.step hstep⟩)
    ⟨TaskMemory.new_sound capacity hpow hle, fun hne => (hne rfl).elim⟩).2
  exact hsound.once hrunning

/-- Of two callables, an inbox for one refuses the second. A third is destroyed with the object that
holds it, and a fourth with the inbox. -/
theorem inbox_closures_once_refused : ∃ l : List (TaskOp Bool × TaskMemory Bool),
    l.map Prod.fst = [.construct false, .construct true, .pushInbox false, .pushInbox true, .enter,
      .pop, .invoke, .return, .pop, .destroy false, .construct false, .destroy false, .destroy true,
      .construct true, .pushInbox true, .destroyInbox, .destroy true] ∧
    Path uniqueTaskStep (TaskMemory.new 1 ⟨0, rfl⟩ (by decide)) l ∧
    (last (TaskMemory.new 1 ⟨0, rfl⟩ (by decide)) l).of .invoked = [0] ∧
    (last (TaskMemory.new 1 ⟨0, rfl⟩ (by decide)) l).of .refused = [1] ∧
    (last (TaskMemory.new 1 ⟨0, rfl⟩ (by decide)) l).of .discarded = [3] ∧
    (last (TaskMemory.new 1 ⟨0, rfl⟩ (by decide)) l).of .destroyed = [1, 0, 2, 3] ∧
    (last (TaskMemory.new 1 ⟨0, rfl⟩ (by decide)) l).Once := by
  obtain ⟨l, hops, hl, hinvoked, hrefused, hdiscarded, hdestroyed⟩ :
      ∃ l : List (TaskOp Bool × TaskMemory Bool),
        l.map Prod.fst = [.construct false, .construct true, .pushInbox false, .pushInbox true,
          .enter, .pop, .invoke, .return, .pop, .destroy false, .construct false, .destroy false,
          .destroy true, .construct true, .pushInbox true, .destroyInbox, .destroy true] ∧
        Path uniqueTaskStep (TaskMemory.new 1 ⟨0, rfl⟩ (by decide)) l ∧
        (last (TaskMemory.new 1 ⟨0, rfl⟩ (by decide)) l).of .invoked = [0] ∧
        (last (TaskMemory.new 1 ⟨0, rfl⟩ (by decide)) l).of .refused = [1] ∧
        (last (TaskMemory.new 1 ⟨0, rfl⟩ (by decide)) l).of .discarded = [3] ∧
        (last (TaskMemory.new 1 ⟨0, rfl⟩ (by decide)) l).of .destroyed = [1, 0, 2, 3] :=
    ⟨[(_, _), (_, _), (_, _), (_, _), (_, _), (_, _), (_, _), (_, _), (_, _), (_, _), (_, _),
      (_, _), (_, _), (_, _), (_, _), (_, _), (_, _)], rfl,
      ⟨⟨rfl, rfl⟩, ⟨rfl, rfl⟩, ⟨_, _, rfl, rfl, rfl⟩, ⟨_, _, rfl, rfl, rfl⟩,
        ⟨rfl, Option.some_ne_none _, rfl⟩, ⟨rfl, _, _, rfl, rfl, rfl⟩, ⟨rfl, _, rfl, rfl⟩,
        ⟨rfl, _, rfl, rfl⟩, ⟨rfl, _, _, rfl, rfl, rfl⟩, ⟨_, rfl, rfl⟩, ⟨rfl, rfl⟩, ⟨_, rfl, rfl⟩,
        ⟨_, rfl, rfl⟩, ⟨rfl, rfl⟩, ⟨_, _, rfl, rfl, rfl⟩, ⟨rfl, _, rfl, rfl⟩, ⟨_, rfl, rfl⟩,
        trivial⟩, rfl, rfl, rfl, rfl⟩
  exact ⟨l, hops, hl, hinvoked, hrefused, hdiscarded, hdestroyed,
    inbox_closures_once 1 ⟨0, rfl⟩ (by decide) hl⟩

end Novaio
