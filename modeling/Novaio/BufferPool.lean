import Novaio.BufRing
import Novaio.IoBuffer

/-!
# The engines of the schedulers and the owners of their buffers

`IoBuffer` objects with the buffer rings of the engines that their buffers belong to. A buffer is
wrapped after the kernel has selected it. Then every engine only sees what the model of its ring
asks of the application: `return_buffer` is called for buffers that the application holds
(`BufferPool.path_engine`).
-/

namespace Novaio

open Transition

/-- The objects and the engines. -/
structure BufferPool (ο σ : Type*) where
  buffers : IoBuffers ο σ
  engines : σ → BufState

/-- A step: the kernel selects a buffer of an engine, or an operation on the objects. -/
inductive BufferPoolOp (ο σ : Type*) where
  | select (sched : σ)
  | use (op : IoBufferOp ο σ)

variable {ο σ : Type*} [DecidableEq ο] [DecidableEq σ]

/-- The call of `return_buffer` that an operation makes. -/
def IoBuffers.call (m : IoBuffers ο σ) : IoBufferOp ο σ → Option (σ × UInt16)
  | .moveAssign x y => if x ≠ y then m.owned x else none
  | .destroy x => m.owned x
  | .construct _ | .wrap _ _ _ _ | .moveConstruct _ _ => none

/-- The buffer that an operation wraps. -/
def IoBufferOp.wraps : IoBufferOp ο σ → Option (σ × UInt16)
  | .wrap _ id _ sched => some (sched, id)
  | .construct _ | .moveConstruct _ _ | .moveAssign _ _ | .destroy _ => none

/-- `IoEngine::return_buffer` of an engine. -/
def BufState.return (bufferBase : ℕ) (engine : BufState) (id : UInt16) : BufState :=
  ⟨returnBuffer bufferBase engine.ring id, engine.head, engine.held.erase id⟩

/-- The engines after a call of `return_buffer`, if there is one. -/
def returnTo (bufferBase : ℕ) (engines : σ → BufState) : Option (σ × UInt16) → σ → BufState
  | some (sched, id) =>
    Function.update engines sched ((engines sched).return bufferBase id)
  | none => engines

/-- The effect of a step. A buffer is wrapped while the application holds it. -/
def bufferPoolStep (bufferBase : ℕ) (s : BufferPool ο σ) (op : BufferPoolOp ο σ)
    (t : BufferPool ο σ) : Prop :=
  match op with
  | .select sched => t.buffers = s.buffers ∧ ∃ engine,
      bufStep bufferBase (s.engines sched) .select engine ∧
      t.engines = Function.update s.engines sched engine
  | .use op => ioBufferStep s.buffers op t.buffers ∧
      (∀ b, op.wraps = some b → b.2 ∈ (s.engines b.1).held) ∧
      t.engines = returnTo bufferBase s.engines (s.buffers.call op)

/-- What an engine sees of a step. -/
def BufferPool.event (i : σ) (s : BufferPool ο σ) : BufferPoolOp ο σ → Option BufOp
  | .select sched => if sched = i then some .select else none
  | .use op => (s.buffers.call op).bind fun b => if b.1 = i then some (.returnBuffer b.2) else none

/-- What an operation adds to the buffers wrapped and returned. -/
theorem IoBuffers.history_of_step {m m' : IoBuffers ο σ} {op : IoBufferOp ο σ}
    (hstep : ioBufferStep m op m') :
    m'.wrapped = m.wrapped ++ op.wraps.toList ∧ m'.returned = m.returned ++ (m.call op).toList := by
  cases op with
  | construct x =>
    obtain ⟨-, rfl⟩ := hstep
    exact ⟨(List.append_nil _).symm, (List.append_nil _).symm⟩
  | wrap x id data sched =>
    obtain ⟨-, -, rfl⟩ := hstep
    exact ⟨rfl, (List.append_nil _).symm⟩
  | moveConstruct x y =>
    obtain ⟨-, other, -, rfl⟩ := hstep
    exact ⟨(List.append_nil _).symm, (List.append_nil _).symm⟩
  | moveAssign x y =>
    obtain ⟨object, other, hx, -, rfl⟩ := hstep
    by_cases hxy : x ≠ y
    · have hcall : m.call (.moveAssign x y) = m.owned x := if_pos hxy
      rw [moveAssign, if_pos hxy, hcall]
      exact ⟨(List.append_nil _).symm, (release_spec hx).2.2⟩
    · have hcall : m.call (.moveAssign x y) = none := if_neg hxy
      rw [moveAssign, if_neg hxy, hcall]
      exact ⟨(List.append_nil _).symm, (List.append_nil _).symm⟩
  | destroy x =>
    obtain ⟨object, hx, rfl⟩ := hstep
    exact ⟨(List.append_nil _).symm, (release_spec hx).2.2⟩

/-- What is owned after an operation is wrapped by it, or has been owned before and is not
returned. -/
theorem IoBuffers.Sound.owned_of_step {m m' : IoBuffers ο σ} {op : IoBufferOp ο σ} (h : m.Sound)
    (hvalid : m.Valid) (hstep : ioBufferStep m op m') {b : σ × UInt16}
    (hb : ∃ x, m'.owned x = some b) :
    op.wraps = some b ∨ m.call op ≠ some b ∧ ∃ x, m.owned x = some b := by
  obtain ⟨hwrapped, hreturned⟩ := history_of_step hstep
  have houtstanding := ((h.step hstep).outstanding_iff b).mpr hb
  have hle := (h.returnsOnce hvalid).wrapped_le b
  rw [← h.outstanding_iff b]
  unfold Outstanding at houtstanding ⊢
  rw [hwrapped, hreturned, List.count_append, List.count_append] at houtstanding
  by_cases hwraps : op.wraps = some b
  · exact .inl hwraps
  · -- It is not wrapped now, so that it has been wrapped once more than it is returned.
    have hnone : op.wraps.toList.count b = 0 := by
      rw [List.count_eq_zero, Option.mem_toList]
      exact hwraps
    rw [hnone] at houtstanding
    refine .inr ⟨fun hcall => ?_, by omega⟩
    have hone : (m.call op).toList.count b = 1 := by rw [hcall]; simp
    omega

omit [DecidableEq σ] in
/-- A buffer that is returned is owned by an object. -/
theorem IoBuffers.owned_of_call {m : IoBuffers ο σ} {op : IoBufferOp ο σ} {b : σ × UInt16}
    (hcall : m.call op = some b) : ∃ x, m.owned x = some b := by
  cases op with
  | moveAssign x y => exact ⟨x, (Option.ite_none_right_eq_some.mp hcall).2⟩
  | destroy x => exact ⟨x, hcall⟩
  | construct _ | wrap _ _ _ _ | moveConstruct _ _ => simp [call] at hcall

omit [DecidableEq σ] in
/-- An operation that wraps a buffer returns none. -/
theorem IoBuffers.call_of_wraps {m : IoBuffers ο σ} {op : IoBufferOp ο σ} {b : σ × UInt16}
    (hwraps : op.wraps = some b) : m.call op = none := by
  cases op with
  | wrap x id data sched => rfl
  | construct _ | moveConstruct _ _ | moveAssign _ _ | destroy _ =>
    simp [IoBufferOp.wraps] at hwraps

omit [DecidableEq ο] in
/-- A buffer stays held while another one is returned. -/
theorem held_returnTo {bufferBase : ℕ} {engines : σ → BufState} {call : Option (σ × UInt16)}
    {b : σ × UInt16} (hheld : b.2 ∈ (engines b.1).held) (hcall : call ≠ some b) :
    b.2 ∈ (returnTo bufferBase engines call b.1).held := by
  cases call with
  | none => exact hheld
  | some c =>
    obtain ⟨sched, id⟩ := c
    dsimp only [returnTo]
    rcases eq_or_ne b.1 sched with rfl | hne
    · rw [Function.update_self]
      have hid : b.2 ≠ id := by
        rintro rfl
        exact hcall rfl
      exact (List.mem_erase_of_ne hid).mpr hheld
    · rwa [Function.update_of_ne hne]

/-- What the objects own is held. -/
structure BufferPool.Held (s : BufferPool ο σ) : Prop where
  sound : s.buffers.Sound
  valid : s.buffers.Valid
  held : ∀ b, (∃ x, s.buffers.owned x = some b) → b.2 ∈ (s.engines b.1).held

namespace BufferPool

variable {bufferBase : ℕ} {s t : BufferPool ο σ} {op : BufferPoolOp ο σ}

/-- Every step keeps what the objects own. -/
theorem Held.step (h : s.Held) (hstep : bufferPoolStep bufferBase s op t) : t.Held := by
  cases op with
  | select sched =>
    obtain ⟨hbuffers, engine, ⟨-, rfl⟩, hengines⟩ := hstep
    refine ⟨hbuffers ▸ h.sound, hbuffers ▸ h.valid, fun b hb => ?_⟩
    rw [hbuffers] at hb
    have hheld := h.held b hb
    rw [hengines]
    rcases eq_or_ne b.1 sched with hsched | hne
    · rw [hsched, Function.update_self]
      exact List.mem_append_left _ (hsched ▸ hheld)
    · rwa [Function.update_of_ne hne]
  | use op =>
    obtain ⟨hop, hwraps, hengines⟩ := hstep
    refine ⟨h.sound.step hop, h.valid.step hop, fun b hb => ?_⟩
    rw [hengines]
    rcases h.sound.owned_of_step h.valid hop hb with hwrapped | ⟨hcall, howned⟩
    · rw [IoBuffers.call_of_wraps hwrapped]
      exact hwraps b hwrapped
    · exact held_returnTo (h.held b howned) hcall

/-- Every engine sees a step of its ring, or none. -/
theorem Held.event_step (h : s.Held) (hstep : bufferPoolStep bufferBase s op t) (i : σ) :
    StutterStep (bufStep bufferBase) (s.engines i) (s.event i op) (t.engines i) := by
  cases op with
  | select sched =>
    obtain ⟨-, engine, hselect, hengines⟩ := hstep
    rw [hengines]
    show StutterStep _ _ (if sched = i then some BufOp.select else none) _
    split_ifs with hi
    · subst hi
      rw [Function.update_self]
      exact hselect
    · exact Function.update_of_ne (Ne.symm hi) _ _
  | use op =>
    obtain ⟨-, -, hengines⟩ := hstep
    rw [hengines]
    show StutterStep _ _ ((s.buffers.call op).bind _) _
    cases hcall : s.buffers.call op with
    | none => rfl
    | some b =>
      obtain ⟨sched, id⟩ := b
      rw [Option.bind_some]
      dsimp only [returnTo]
      split_ifs with hi
      · -- What is returned has been owned, so that it is held.
        subst hi
        rw [Function.update_self]
        exact ⟨h.held (sched, id) (IoBuffers.owned_of_call hcall), rfl⟩
      · exact Function.update_of_ne (Ne.symm hi) _ _

/-- In every run of the objects and the kernel, every engine sees a run of its ring: buffers are
returned only while the application holds them. -/
theorem path_engine (h : s.Held) {l : List (BufferPoolOp ο σ × BufferPool ο σ)}
    (hl : Path (bufferPoolStep bufferBase) s l) (i : σ) :
    ∃ m, Path (bufStep bufferBase) (s.engines i) m ∧ m.map Prod.fst = trace (event i) s l ∧
      (last s l).engines i = last (s.engines i) m := by
  obtain ⟨m, hm, htrace, -, hlast⟩ := hl.simulation (R := fun s u => s.Held ∧ s.engines i = u)
    (fun s op t u hR hstep => by
      obtain ⟨hs, rfl⟩ := hR
      exact ⟨t.engines i, ⟨hs.step hstep, rfl⟩, hs.event_step hstep i⟩) ⟨h, rfl⟩
  exact ⟨m, hm, htrace, hlast⟩

end BufferPool

end Novaio
