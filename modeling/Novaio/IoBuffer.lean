import Novaio.Lib.Custody
import Novaio.Lib.Path

/-!
# The owners of provided buffers

`IoBuffer` of `include/novaio/io_buffer.hpp` wraps a provided buffer that a receive has selected,
and gives it back to the engine of its scheduler when it is destroyed. An object owns a buffer while
its `data_` is not null. One that has been moved from keeps its `id_` and its `sched_`.

The objects have custody of the buffers that they own: every operation issues a buffer to an object,
moves it, returns it or leaves it where it is (`IoBuffers.Sound.step`). So a buffer that is wrapped
is owned by one object until it is returned, and is returned once.
-/

namespace Novaio

open Ownership Transition

/-! ## The objects -/

/-- `IoBuffer`. A null pointer is `none`. -/
structure IoBuffer (σ : Type*) where
  id : UInt16 := 0
  data : Option ℕ := none
  sched : Option σ := none

namespace IoBuffer

variable {σ : Type*}

/-- `IoBuffer::IoBuffer` from another object: the fields of the new object, and what is left in the
other one. -/
def moved (other : IoBuffer σ) : IoBuffer σ × IoBuffer σ :=
  (⟨other.id, other.data, other.sched⟩, { other with data := none })

/-- `IoBuffer::release`, with the call of `return_buffer` that it makes, on the engine of a
scheduler. -/
def release (b : IoBuffer σ) : IoBuffer σ × Option (σ × UInt16) :=
  match b.data, b.sched with
  | some _, some sched => ({ b with data := none }, some (sched, b.id))
  | _, _ => (b, none)

/-- `IoBuffer::operator bool`. -/
def toBool (b : IoBuffer σ) : Bool := b.data.isSome

/-- The buffer that an object owns. -/
def owned (b : IoBuffer σ) : Option (σ × UInt16) :=
  if b.data.isSome then b.sched.map fun sched => (sched, b.id) else none

end IoBuffer

/-- The objects that there are, the buffers that have been wrapped, and the calls of
`return_buffer`, in order. A buffer is known by its scheduler and its id. -/
structure IoBuffers (ο σ : Type*) where
  objects : ο → Option (IoBuffer σ)
  wrapped : List (σ × UInt16)
  returned : List (σ × UInt16)

/-- An operation on the objects at the places `x` and `y`. -/
inductive IoBufferOp (ο σ : Type*) where
  | construct (x : ο)
  | wrap (x : ο) (id : UInt16) (data : ℕ) (sched : σ)
  | moveConstruct (x y : ο)
  | moveAssign (x y : ο)
  | destroy (x : ο)

namespace IoBuffers

variable {ο σ : Type*}

/-- Before the first object. -/
def new : IoBuffers ο σ := ⟨fun _ => none, [], []⟩

/-- The buffer that the object at a place owns. -/
def owned (m : IoBuffers ο σ) (x : ο) : Option (σ × UInt16) := (m.objects x).bind IoBuffer.owned

/-- The buffer has been wrapped and not returned since. -/
def Outstanding [DecidableEq σ] (m : IoBuffers ο σ) (b : σ × UInt16) : Prop :=
  m.returned.count b < m.wrapped.count b

/-- Whether a buffer is outstanding can be computed. -/
instance [DecidableEq σ] (m : IoBuffers ο σ) (b : σ × UInt16) : Decidable (m.Outstanding b) :=
  inferInstanceAs (Decidable (_ < _))

variable [DecidableEq ο]

/-- An object is constructed, assigned or destroyed. -/
def setObject (m : IoBuffers ο σ) (x : ο) (object : Option (IoBuffer σ)) : IoBuffers ο σ :=
  { m with objects := Function.update m.objects x object }

/-- `IoBuffer::IoBuffer` from a buffer. -/
def wrap (m : IoBuffers ο σ) (x : ο) (id : UInt16) (data : ℕ) (sched : σ) : IoBuffers ο σ :=
  { m.setObject x (some ⟨id, some data, some sched⟩) with
    wrapped := m.wrapped ++ [(sched, id)] }

/-- `IoBuffer::IoBuffer` from another object. -/
def moveConstruct (m : IoBuffers ο σ) (x y : ο) (other : IoBuffer σ) : IoBuffers ο σ :=
  let (object, other) := other.moved
  (m.setObject x (some object)).setObject y (some other)

/-- A call of `release` on an object. -/
def release (m : IoBuffers ο σ) (x : ο) (object : IoBuffer σ) : IoBuffers ο σ :=
  let (object, call) := object.release
  { m.setObject x (some object) with returned := m.returned ++ call.toList }

/-- `IoBuffer::operator=`. -/
def moveAssign (m : IoBuffers ο σ) (x y : ο) (object other : IoBuffer σ) : IoBuffers ο σ :=
  if x ≠ y then
    let m := m.release x object
    let m := m.setObject x (some ⟨other.id, other.data, other.sched⟩)
    m.setObject y (some { other with data := none })
  else m

/-- `IoBuffer::~IoBuffer`. -/
def destroy (m : IoBuffers ο σ) (x : ο) (object : IoBuffer σ) : IoBuffers ο σ :=
  (m.release x object).setObject x none

end IoBuffers

/-- The effect of an operation. An object is constructed where there is none, and a buffer is not
wrapped while it is outstanding. -/
def ioBufferStep {ο σ : Type*} [DecidableEq ο] [DecidableEq σ] (m : IoBuffers ο σ)
    (op : IoBufferOp ο σ) (m' : IoBuffers ο σ) : Prop :=
  match op with
  | .construct x => m.objects x = none ∧ m' = m.setObject x (some {})
  | .wrap x id data sched => m.objects x = none ∧ ¬ m.Outstanding (sched, id) ∧
      m' = m.wrap x id data sched
  | .moveConstruct x y => m.objects x = none ∧
      ∃ other, m.objects y = some other ∧ m' = m.moveConstruct x y other
  | .moveAssign x y => ∃ object other, m.objects x = some object ∧ m.objects y = some other ∧
      m' = m.moveAssign x y object other
  | .destroy x => ∃ object, m.objects x = some object ∧ m' = m.destroy x object

/-! ## Custody -/

namespace IoBuffer

variable {σ : Type*} (b : IoBuffer σ)

/-- `release` returns the buffer that the object owns. -/
theorem release_snd : b.release.2 = b.owned := by
  unfold release owned
  cases b.data <;> cases b.sched <;> rfl

/-- After `release` the object owns nothing. -/
theorem owned_release : b.release.1.owned = none := by
  unfold release owned
  cases hdata : b.data <;> cases hsched : b.sched <;> simp [hdata, hsched]

/-- An object whose `data_` is null owns nothing. -/
theorem owned_of_data (hdata : b.data = none) : b.owned = none := by
  unfold owned
  rw [hdata]
  rfl

end IoBuffer

namespace IoBuffers

variable {ο σ : Type*} {m m' : IoBuffers ο σ} {op : IoBufferOp ο σ}

/-- The objects have custody of the buffers. -/
def Sound (m : IoBuffers ο σ) : Prop :=
  ∃ l : Ledger ο, Custody l m.owned m.wrapped m.returned

/-- Before the first object. -/
theorem new_sound : (new : IoBuffers ο σ).Sound := ⟨_, .new⟩

/-- A place without an object owns nothing. -/
theorem owned_of_objects {x : ο} (hx : m.objects x = none) : m.owned x = none := by
  rw [owned, hx]
  rfl

/-- What an object owns. -/
theorem owned_eq {x : ο} {object : IoBuffer σ} (hx : m.objects x = some object) :
    m.owned x = object.owned := by
  rw [owned, hx]
  rfl

/-- Nothing changes hands. -/
theorem Sound.of_owned (h : m.Sound) (howned : m'.owned = m.owned)
    (hwrapped : m'.wrapped = m.wrapped) (hreturned : m'.returned = m.returned) : m'.Sound := by
  obtain ⟨l, hl⟩ := h
  exact ⟨l, by rwa [howned, hwrapped, hreturned]⟩

/-- A buffer is outstanding if and only if an object owns it. -/
theorem Sound.outstanding_iff [DecidableEq σ] (h : m.Sound) (b : σ × UInt16) :
    m.Outstanding b ↔ ∃ x, m.owned x = some b := by
  obtain ⟨l, hl⟩ := h
  unfold Outstanding
  rcases hl.count_issued b with ⟨hx, hcount⟩ | ⟨hx, hcount⟩
  · exact iff_of_true (by omega) hx
  · exact iff_of_false (by omega) (not_exists.mpr hx)

variable [DecidableEq ο]

/-- What the objects own after an object has changed. -/
theorem owned_setObject (m : IoBuffers ο σ) (x : ο) (object : Option (IoBuffer σ)) :
    (m.setObject x object).owned = Function.update m.owned x (object.bind IoBuffer.owned) := by
  funext y
  rcases eq_or_ne y x with rfl | hne
  · simp [owned, setObject]
  · simp [owned, setObject, hne]

/-- `release` returns what the object owns. -/
theorem release_spec {x : ο} {object : IoBuffer σ} (hx : m.objects x = some object) :
    (m.release x object).owned = Function.update m.owned x none ∧
      (m.release x object).wrapped = m.wrapped ∧
      (m.release x object).returned = m.returned ++ (m.owned x).toList := by
  refine ⟨?_, rfl, ?_⟩
  · show (m.setObject x (some object.release.1)).owned = _
    rw [owned_setObject]
    exact congrArg _ object.owned_release
  · show m.returned ++ object.release.2.toList = _
    rw [object.release_snd, owned_eq hx]

/-- A buffer is returned. -/
theorem Sound.release (h : m.Sound) {x : ο} {object : IoBuffer σ}
    (hx : m.objects x = some object) : (m.release x object).Sound := by
  obtain ⟨howned, hwrapped, hreturned⟩ := release_spec hx
  obtain ⟨l, hl⟩ := h
  exact ⟨l.release x, by rw [howned, hwrapped, hreturned]; exact hl.release x⟩

/-- An object takes over what another one owns. -/
theorem owned_move (x : ο) {y : ο} {object other : IoBuffer σ} (hobject : object.owned = m.owned y)
    (hother : other.owned = none) : ((m.setObject x (some object)).setObject y (some other)).owned =
      Function.update (Function.update m.owned x (m.owned y)) y none := by
  rw [owned_setObject, owned_setObject, ← hobject, ← hother]
  rfl

/-- Another object takes over from one that releases what it owns first. -/
theorem owned_moveAssign {x y : ο} (hxy : x ≠ y) {object other : IoBuffer σ}
    (hx : m.objects x = some object) (hy : m.objects y = some other) :
    (m.moveAssign x y object other).owned =
      Function.update (Function.update m.owned x (m.owned y)) y none := by
  have hrelease := (release_spec hx).1
  have hy' : other.owned = (m.release x object).owned y := by
    rw [hrelease, Function.update_of_ne (Ne.symm hxy), owned_eq hy]
  rw [moveAssign, if_pos hxy]
  refine (owned_move x hy' (IoBuffer.owned_of_data _ rfl)).trans ?_
  rw [hrelease, Function.update_idem, Function.update_of_ne (Ne.symm hxy)]

/-- What an object owns moves to another object, which owns nothing. -/
theorem Sound.move (h : m.Sound) {x y : ο} (hx : m.owned x = none) (hxy : x ≠ y)
    {object other : IoBuffer σ} (hobject : object.owned = m.owned y) (hother : other.owned = none) :
    ((m.setObject x (some object)).setObject y (some other)).Sound := by
  obtain ⟨l, hl⟩ := h
  refine ⟨l.move x y, ?_⟩
  rw [owned_move x hobject hother]
  exact hl.move hx hxy

/-- Custody is kept by every operation. -/
theorem Sound.step [DecidableEq σ] (h : m.Sound) (hstep : ioBufferStep m op m') : m'.Sound := by
  cases op with
  | construct x =>
    obtain ⟨hx, rfl⟩ := hstep
    refine h.of_owned ?_ rfl rfl
    rw [owned_setObject, Function.update_eq_self_iff]
    exact (owned_of_objects hx).symm
  | wrap x id data sched =>
    obtain ⟨hx, hfree, rfl⟩ := hstep
    rw [h.outstanding_iff, not_exists] at hfree
    obtain ⟨l, hl⟩ := h
    refine ⟨l.mint x, ?_⟩
    have howned : (m.wrap x id data sched).owned = Function.update m.owned x (some (sched, id)) :=
      m.owned_setObject x _
    rw [howned]
    exact hl.issue (owned_of_objects hx) hfree
  | moveConstruct x y =>
    obtain ⟨hx, other, hy, rfl⟩ := hstep
    have hxy : x ≠ y := by
      rintro rfl
      rw [hx] at hy
      simp at hy
    exact h.move (owned_of_objects hx) hxy (owned_eq hy).symm (IoBuffer.owned_of_data _ rfl)
  | moveAssign x y =>
    obtain ⟨object, other, hx, hy, rfl⟩ := hstep
    by_cases hxy : x = y
    · -- An object that is assigned to itself stays as it is.
      rwa [moveAssign, if_neg (not_not.mpr hxy)]
    · rw [moveAssign, if_pos hxy]
      -- The object returns what it owns first, and then owns nothing.
      have howned := (release_spec hx).1
      have hx' : (m.release x object).owned x = none := by rw [howned, Function.update_self]
      have hy' : other.owned = (m.release x object).owned y := by
        rw [howned, Function.update_of_ne (Ne.symm hxy), owned_eq hy]
      exact (h.release hx).move hx' hxy hy' (IoBuffer.owned_of_data _ rfl)
  | destroy x =>
    obtain ⟨object, hx, rfl⟩ := hstep
    refine (h.release hx).of_owned ?_ rfl rfl
    show ((m.release x object).setObject x none).owned = _
    rw [owned_setObject, Function.update_eq_self_iff, (release_spec hx).1, Function.update_self]
    rfl

/-- An object whose `data_` is not null has a scheduler. -/
def Valid (m : IoBuffers ο σ) : Prop :=
  ∀ x object, m.objects x = some object → object.toBool → object.sched.isSome

/-- An object changes into one that has a scheduler, or no data, or into none. -/
theorem Valid.setObject (h : m.Valid) (x : ο) (object : Option (IoBuffer σ))
    (hobject : ∀ o, object = some o → o.toBool → o.sched.isSome) :
    (m.setObject x object).Valid := by
  intro y o hy
  replace hy : Function.update m.objects x object y = some o := hy
  rcases eq_or_ne y x with rfl | hne
  · rw [Function.update_self] at hy
    exact hobject o hy
  · rw [Function.update_of_ne hne] at hy
    exact h y o hy

/-- `release` leaves no data behind, unless there is no scheduler. -/
theorem Valid.release (h : m.Valid) {x : ο} {object : IoBuffer σ} (hx : m.objects x = some object) :
    (m.release x object).Valid := by
  refine h.setObject x (some object.release.1) ?_
  rintro o ho hbool
  obtain rfl := Option.some.inj ho
  have hsched := h x object hx
  unfold IoBuffer.release at hbool ⊢
  cases hdata : object.data <;> cases hs : object.sched <;>
    simp_all [IoBuffer.toBool]

/-- An object takes over from another one, which has no data then. -/
theorem Valid.move (h : m.Valid) (x y : ο) {other : IoBuffer σ}
    (hother : other.toBool → other.sched.isSome) :
    ((m.setObject x (some other.moved.1)).setObject y (some other.moved.2)).Valid := by
  refine (h.setObject x _ ?_).setObject y _ ?_
  · rintro o ho
    obtain rfl := Option.some.inj ho
    exact hother
  · rintro o ho hbool
    obtain rfl := Option.some.inj ho
    exact absurd hbool nofun

/-- Every operation keeps it. -/
theorem Valid.step [DecidableEq σ] (h : m.Valid) (hstep : ioBufferStep m op m') : m'.Valid := by
  cases op with
  | construct x =>
    obtain ⟨-, rfl⟩ := hstep
    refine h.setObject x _ ?_
    rintro o ho hbool
    obtain rfl := Option.some.inj ho
    exact absurd hbool nofun
  | wrap x id data sched =>
    obtain ⟨-, -, rfl⟩ := hstep
    refine h.setObject x (some ⟨id, some data, some sched⟩) ?_
    rintro o ho -
    obtain rfl := Option.some.inj ho
    rfl
  | moveConstruct x y =>
    obtain ⟨-, other, hy, rfl⟩ := hstep
    exact h.move x y (h y other hy)
  | moveAssign x y =>
    obtain ⟨object, other, hx, hy, rfl⟩ := hstep
    unfold moveAssign
    split_ifs with hxy
    · exact (h.release hx).move x y (h y other hy)
    · -- An object that is assigned to itself stays as it is.
      exact h
  | destroy x =>
    obtain ⟨object, hx, rfl⟩ := hstep
    exact (h.release hx).setObject x none nofun

end IoBuffers

/-! ## Runs -/

/-- What the operations do to what the objects own, and which buffers they return. -/
structure IoBuffers.Acts {ο σ : Type*} [DecidableEq ο] [DecidableEq σ] (m : IoBuffers ο σ) :
    Prop where
  wraps (x : ο) (id : UInt16) (data : ℕ) (sched : σ) (m' : IoBuffers ο σ) :
    ioBufferStep m (.wrap x id data sched) m' →
      m'.owned = Function.update m.owned x (some (sched, id)) ∧
      m'.wrapped = m.wrapped ++ [(sched, id)] ∧ m'.returned = m.returned
  moves (x y : ο) (m' : IoBuffers ο σ) : ioBufferStep m (.moveConstruct x y) m' →
    m'.owned = Function.update (Function.update m.owned x (m.owned y)) y none ∧
      m'.wrapped = m.wrapped ∧ m'.returned = m.returned
  /-- What is assigned to an owner replaces the buffer, which is returned. -/
  assigns (x y : ο) (m' : IoBuffers ο σ) : x ≠ y → ioBufferStep m (.moveAssign x y) m' →
    m'.owned = Function.update (Function.update m.owned x (m.owned y)) y none ∧
      m'.wrapped = m.wrapped ∧ m'.returned = m.returned ++ (m.owned x).toList
  assigns_self (x : ο) (m' : IoBuffers ο σ) : ioBufferStep m (.moveAssign x x) m' → m' = m
  /-- An object that is destroyed is no more, and what it owned is returned. -/
  destroys (x : ο) (m' : IoBuffers ο σ) : ioBufferStep m (.destroy x) m' →
    m'.objects = Function.update m.objects x none ∧
      m'.wrapped = m.wrapped ∧ m'.returned = m.returned ++ (m.owned x).toList
  can_destroy (x : ο) : m.objects x ≠ none → ∃ m', ioBufferStep m (.destroy x) m'

/-- The operations do this in every state. -/
theorem IoBuffers.acts {ο σ : Type*} [DecidableEq ο] [DecidableEq σ] (m : IoBuffers ο σ) :
    m.Acts := by
  constructor
  case wraps =>
    rintro x id data sched _ ⟨-, -, rfl⟩
    exact ⟨m.owned_setObject x _, rfl, rfl⟩
  case moves =>
    rintro x y _ ⟨-, other, hy, rfl⟩
    exact ⟨owned_move x (owned_eq hy).symm (IoBuffer.owned_of_data _ rfl), rfl, rfl⟩
  case assigns =>
    rintro x y _ hxy ⟨object, other, hx, hy, rfl⟩
    refine ⟨owned_moveAssign hxy hx hy, ?_, ?_⟩
    · rw [moveAssign, if_pos hxy]
      rfl
    · rw [moveAssign, if_pos hxy]
      exact (release_spec hx).2.2
  case assigns_self =>
    rintro x _ ⟨object, other, -, -, rfl⟩
    rw [moveAssign, if_neg (not_not.mpr rfl)]
  case destroys =>
    rintro x _ ⟨object, hx, rfl⟩
    exact ⟨Function.update_idem .., rfl, (release_spec hx).2.2⟩
  case can_destroy =>
    intro x hx
    obtain ⟨object, hobject⟩ := Option.ne_none_iff_exists'.mp hx
    exact ⟨_, object, hobject, rfl⟩

/-- What holds of the buffers at every moment. An object owns a buffer if it is `true`. The buffers
that are wrapped and not returned are those that are owned, each by one object. Every call of
`return_buffer` returns what another operation has wrapped, on the scheduler that it was wrapped
with, and once there is no object, every buffer has been returned as often as it has been wrapped.
What an object owns is returned when it is destroyed or assigned to (`acts`). -/
structure IoBuffers.ReturnsOnce {ο σ : Type*} [DecidableEq ο] [DecidableEq σ]
    (m : IoBuffers ο σ) : Prop where
  owns_iff : ∀ x object, m.objects x = some object → (object.toBool ↔ ∃ b, m.owned x = some b)
  outstanding_iff : ∀ b, m.Outstanding b ↔ ∃ x, m.owned x = some b
  owned_once : ∀ b, m.Outstanding b → ∃! x, m.owned x = some b
  returned_le : ∀ b, m.returned.count b ≤ m.wrapped.count b
  wrapped_le : ∀ b, m.wrapped.count b ≤ m.returned.count b + 1
  returned_eq : ∃ wraps : List ℕ, wraps.Nodup ∧
    m.returned.map some = wraps.map (m.wrapped[·]?)
  all_returned : (∀ x, m.objects x = none) → ∀ b, m.returned.count b = m.wrapped.count b
  acts : m.Acts

/-- Custody of the buffers says all of it. -/
theorem IoBuffers.Sound.returnsOnce {ο σ : Type*} [DecidableEq ο] [DecidableEq σ]
    {m : IoBuffers ο σ} (h : m.Sound) (hvalid : m.Valid) : m.ReturnsOnce := by
  have hiff := h.outstanding_iff
  obtain ⟨l, hl⟩ := h
  constructor
  case owns_iff =>
    intro x object hx
    rw [owned_eq hx]
    have hsched := hvalid x object hx
    -- An object with data has a scheduler, and so it owns a buffer.
    unfold IoBuffer.owned
    unfold IoBuffer.toBool at hsched ⊢
    cases hdata : object.data <;> cases hs : object.sched <;> simp_all
  case outstanding_iff => exact hiff
  case owned_once =>
    intro b hb
    obtain ⟨x, hx⟩ := (hiff b).mp hb
    exact ⟨x, hx, fun y hy => hl.injective y x b hy hx⟩
  case returned_le =>
    intro b
    rcases hl.count_issued b with ⟨-, hcount⟩ | ⟨-, hcount⟩ <;> omega
  case wrapped_le =>
    intro b
    rcases hl.count_issued b with ⟨-, hcount⟩ | ⟨-, hcount⟩ <;> omega
  case returned_eq => exact ⟨l.gone, hl.exclusive.nodup_gone, hl.returned_eq⟩
  case all_returned =>
    intro hnone b
    rcases hl.count_issued b with ⟨⟨x, hx⟩, -⟩ | ⟨-, hcount⟩
    · rw [owned_of_objects (hnone x)] at hx
      simp at hx
    · exact hcount.symm
  case acts => exact m.acts

/-- In every run of the operations, every buffer that is wrapped is owned by one object until it is
returned, and it is returned once, when that object is destroyed or assigned to. -/
theorem ioBuffer_returns_once {ο σ : Type*} [DecidableEq ο] [DecidableEq σ]
    (l : List (IoBufferOp ο σ × IoBuffers ο σ)) (hl : Path ioBufferStep IoBuffers.new l) :
    ∀ x ∈ l, x.2.ReturnsOnce := by
  have hall := hl.invariant (I := fun m => m.Sound ∧ m.Valid)
    (fun _ _ _ h hstep => ⟨h.1.step hstep, h.2.step hstep⟩)
    ⟨IoBuffers.new_sound, fun _ _ hnone => by simp [IoBuffers.new] at hnone⟩
  intro x hx
  obtain ⟨hsound, hvalid⟩ := hall.1 x hx
  exact hsound.returnsOnce hvalid

/-- Two buffers: the first one moves to another object, which is then assigned the second one. -/
theorem ioBuffer_returns_once_two :
    ∃ l : List (IoBufferOp ℕ Bool × IoBuffers ℕ Bool),
      l.map Prod.fst = [.wrap 0 7 4096 true, .moveConstruct 1 0, .wrap 2 8 6144 true,
        .moveAssign 1 2, .moveAssign 1 1, .destroy 0, .destroy 2, .destroy 1] ∧
      Path ioBufferStep IoBuffers.new l ∧
      (last IoBuffers.new l).returned = [(true, 7), (true, 8)] ∧ ∀ x ∈ l, x.2.ReturnsOnce := by
  obtain ⟨l, hops, hl, hreturned⟩ : ∃ l : List (IoBufferOp ℕ Bool × IoBuffers ℕ Bool),
      l.map Prod.fst = [.wrap 0 7 4096 true, .moveConstruct 1 0, .wrap 2 8 6144 true,
        .moveAssign 1 2, .moveAssign 1 1, .destroy 0, .destroy 2, .destroy 1] ∧
      Path ioBufferStep IoBuffers.new l ∧
      (last IoBuffers.new l).returned = [(true, 7), (true, 8)] :=
    ⟨[(_, _), (_, _), (_, _), (_, _), (_, _), (_, _), (_, _), (_, _)], rfl,
      ⟨⟨rfl, by decide, rfl⟩, ⟨rfl, _, rfl, rfl⟩, ⟨rfl, by decide, rfl⟩, ⟨_, _, rfl, rfl, rfl⟩,
        ⟨_, _, rfl, rfl, rfl⟩, ⟨_, rfl, rfl⟩, ⟨_, rfl, rfl⟩, ⟨_, rfl, rfl⟩, trivial⟩, rfl⟩
  exact ⟨l, hops, hl, hreturned, ioBuffer_returns_once l hl⟩

end Novaio
