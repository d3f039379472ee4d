import Novaio.Lib.Path
import Novaio.SpscQueue.Basic

/-!
# The callables of tasks

`UniqueTask` of `scheduler.hpp` keeps a callable on the heap, and hands it on by moving its
pointers. On the way through the inbox a callable is held by the object that the program pushes, by
the parameters of `push_inbox` and of `SpscQueue::push`, by an object in a slot of the ring, and by
the local `task` of `process_inbox`, which takes one callable after the other.

A callable is known by its number in the order of construction. The log records what becomes of it:
whether the inbox accepts it, the calls of its invoker, and those of its deleter. `process_inbox` is
given step by step, so that its tasks, and other threads, may do anything in between.
-/

namespace Novaio

/-- `UniqueTask::Storage`: the pointer to a callable, with its invoker and its deleter, or all three
null. Every write to a storage is to the three of them. -/
abbrev TaskStorage := Option ℕ

/-- A `UniqueTask` object: a variable of the program, or the local `task` of `process_inbox`. -/
inductive TaskPlace (ο : Type*) where
  | var (name : ο)
  | task
  deriving DecidableEq

/-- What becomes of a callable: `push_inbox` accepts or refuses it, `process_inbox` pops it, the
inbox is destroyed with it, its invoker is called and returns, and its deleter is called. -/
inductive TaskEventKind where
  | accepted
  | refused
  | reached
  | discarded
  | invoked
  | returned
  | destroyed
  deriving DecidableEq

/-- An event of a callable. -/
structure TaskEvent where
  kind : TaskEventKind
  callable : ℕ
  deriving DecidableEq

/-- Where `process_inbox` is: not running, before `pop`, before the test of `task`, or in a task. -/
inductive InboxPhase where
  | idle
  | popping
  | popped
  | invoking
  deriving DecidableEq

/-- The `UniqueTask` objects that there are, the inbox until it is destroyed, where `process_inbox`
is, the number of the callables constructed so far, and the log. -/
structure TaskMemory (ο : Type*) where
  objects : TaskPlace ο → Option TaskStorage
  inbox : Option (SpscQueue TaskStorage)
  phase : InboxPhase
  allocated : ℕ
  log : List TaskEvent

/-- A step of the program, or of `process_inbox`. -/
inductive TaskOp (ο : Type*) where
  | construct (x : ο)
  | constructEmpty (x : ο)
  | moveConstruct (x y : ο)
  | moveAssign (x y : ο)
  | destroy (x : ο)
  | pushInbox (x : ο)
  | enter
  | pop
  | invoke
  | return
  | destroyInbox

namespace TaskMemory

variable {ο : Type*}

/-- The start, with an inbox of the given capacity and no other object. -/
def new (capacity : ℕ) (hpow : ∃ k, capacity = 2 ^ k) (hle : capacity ≤ 2 ^ 63) : TaskMemory ο where
  objects _ := none
  inbox := some (.ofCapacity capacity hpow hle)
  phase := .idle
  allocated := 0
  log := []

/-- The events of the callable in a storage, if there is one. -/
def emit (m : TaskMemory ο) (kind : TaskEventKind) (storage : TaskStorage) : TaskMemory ο :=
  { m with log := m.log ++ storage.toList.map (⟨kind, ·⟩) }

/-- `UniqueTask::cleanup`. -/
def cleanup (m : TaskMemory ο) (storage : TaskStorage) : TaskMemory ο := m.emit .destroyed storage

/-- The move constructor: the storage of the new object, and what is left in the other one. -/
def moved (other : TaskStorage) : TaskStorage × TaskStorage := (other, none)

/-- The loop of `SpscQueue::~SpscQueue`, over the slots with an object. -/
def destroySlots (m : TaskMemory ο) (slots : List (Cell TaskStorage)) : TaskMemory ο :=
  slots.foldl (fun m slot =>
    match slot with
    | .live storage => (m.emit .discarded storage).cleanup storage
    | .raw | .moved => m) m

variable [DecidableEq ο]

/-- An object is constructed, assigned or destroyed. -/
def setObject (m : TaskMemory ο) (place : TaskPlace ο) (object : Option TaskStorage) :
    TaskMemory ο :=
  { m with objects := Function.update m.objects place object }

/-- `UniqueTask::UniqueTask` from a callable. -/
def construct (m : TaskMemory ο) (x : ο) : TaskMemory ο :=
  { m.setObject (.var x) (some (some m.allocated)) with allocated := m.allocated + 1 }

/-- `UniqueTask::UniqueTask` from another task. -/
def moveConstruct (m : TaskMemory ο) (x y : ο) (other : TaskStorage) : TaskMemory ο :=
  let (storage, other) := moved other
  (m.setObject (.var x) (some storage)).setObject (.var y) (some other)

/-- `UniqueTask::operator=`. -/
def moveAssign (m : TaskMemory ο) (x y : ο) (storage other : TaskStorage) : TaskMemory ο :=
  if x ≠ y then
    -- What the task held is destroyed first.
    let m := m.cleanup storage
    let m := m.setObject (.var x) (some other)
    m.setObject (.var y) (some none)
  else m

/-- `UniqueTask::~UniqueTask`. -/
def destroy (m : TaskMemory ο) (x : ο) (storage : TaskStorage) : TaskMemory ο :=
  (m.cleanup storage).setObject (.var x) none

/-- `Scheduler::push_inbox` of an object that is moved from. -/
def pushInbox (m : TaskMemory ο) (x : ο) (q : SpscQueue TaskStorage) (other : TaskStorage) :
    TaskMemory ο :=
  -- The parameter of `push_inbox`, and the one of `SpscQueue::push`.
  let (task, other) := moved other
  let m := m.setObject (.var x) (some other)
  let (item, task) := moved task
  let (m, item) :=
    if (q.push item).1 then
      let (slot, item) := moved item
      ({ m with inbox := some (q.push slot).2 }.emit .accepted slot, item)
    else (m.emit .refused item, item)
  -- The parameters are destroyed.
  (m.cleanup item).cleanup task

/-- `SpscQueue::pop` into the local `task`, and its destructor where the loop of `process_inbox`
ends. The behaviour is undefined where a slot in use holds no object. -/
def popInbox (m : TaskMemory ο) (task : TaskStorage) (q : SpscQueue TaskStorage) :
    Option (TaskMemory ο) :=
  match q.pop with
  | some (some slot, q) =>
    let m := m.cleanup task
    let (task, slot) := moved slot
    let m := m.setObject .task (some task)
    -- The object in the slot is destroyed, which holds nothing now.
    let m := m.cleanup slot
    some ({ m with inbox := some q, phase := .popped }.emit .reached task)
  | some (none, q) =>
    some { (m.cleanup task).setObject .task none with inbox := some q, phase := .idle }
  | none => none

end TaskMemory

/-- The effect of a step. An object is constructed where there is none, and the inbox is used until
it is destroyed, while `process_inbox` does not run. -/
def uniqueTaskStep {ο : Type*} [DecidableEq ο] (m : TaskMemory ο) (op : TaskOp ο)
    (m' : TaskMemory ο) : Prop :=
  match op with
  | .construct x => m.objects (.var x) = none ∧ m' = m.construct x
  | .constructEmpty x => m.objects (.var x) = none ∧ m' = m.setObject (.var x) (some none)
  | .moveConstruct x y => m.objects (.var x) = none ∧
      ∃ other, m.objects (.var y) = some other ∧ m' = m.moveConstruct x y other
  | .moveAssign x y => ∃ storage other, m.objects (.var x) = some storage ∧
      m.objects (.var y) = some other ∧ m' = m.moveAssign x y storage other
  | .destroy x => ∃ storage, m.objects (.var x) = some storage ∧ m' = m.destroy x storage
  | .pushInbox x => ∃ other q, m.objects (.var x) = some other ∧ m.inbox = some q ∧
      m' = m.pushInbox x q other
  | .enter => m.phase = .idle ∧ m.inbox ≠ none ∧
      m' = { m.setObject .task (some none) with phase := .popping }
  | .pop => m.phase = .popping ∧ ∃ task q, m.objects .task = some task ∧ m.inbox = some q ∧
      m.popInbox task q = some m'
  | .invoke => m.phase = .popped ∧ ∃ task, m.objects .task = some task ∧
      m' = { m.emit .invoked task with phase := if task.isSome then .invoking else .popping }
  | .return => m.phase = .invoking ∧ ∃ task, m.objects .task = some task ∧
      m' = { m.emit .returned task with phase := .popping }
  | .destroyInbox => m.phase = .idle ∧ ∃ q, m.inbox = some q ∧
      m' = { m with inbox := none }.destroySlots (q.destroyAll q.capacity).1

end Novaio
