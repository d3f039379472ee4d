import Mathlib.Data.UInt
import Novaio.Lib.Code

/-!
# The serializer

`serialize` of `include/novaio/serializer.hpp`, for every type on which the template is defined: the
arithmetic types, `std::string`, and the structures with a `tie()`, whose fields are of such types
again. A template is instantiated at a type; here it is a function of a description of the type
(`Ty`), and the tuple of references that `tie()` returns is a `Tuple` of descriptions.

A value of an arithmetic type is its object representation, in the byte order of the machine, which
is little-endian. A value of a structure is what its `tie()` exposes. `size_t` has eight bytes.

The format is append-only and self-delimiting (`serialize_self_delimiting`): by induction on the
description, where a tuple is one code after another, and a string a header and its body.
-/

namespace Novaio

mutual

/-- The types that `serialize` accepts. An arithmetic type is given by its `sizeof`. -/
inductive Ty where
  | arithmetic (sizeof : ℕ)
  | string
  | tied (fields : Tuple)

/-- The types of the fields that a `tie()` exposes. -/
inductive Tuple where
  | nil
  | cons (field : Ty) (fields : Tuple)

end

/-- `std::string`: its characters, whose number is a `size_t`. -/
def StdString : Type := { s : List UInt8 // s.length < 2 ^ 64 }

mutual

/-- The values of a type. -/
def Ty.Value : Ty → Type
  | .arithmetic sizeof => BitVec (8 * sizeof)
  | .string => StdString
  | .tied fields => fields.Value

/-- The values of a tuple. -/
def Tuple.Value : Tuple → Type
  | .nil => Unit
  | .cons field fields => field.Value × fields.Value

end

/-- The bytes of an object of an arithmetic type. -/
def objectBytes {sizeof : ℕ} (value : BitVec (8 * sizeof)) : List UInt8 :=
  (List.range sizeof).map fun i => ⟨value.extractLsb' (8 * i) 8⟩

/-- `append_bytes`. -/
def appendBytes {sizeof : ℕ} (buffer : List UInt8) (value : BitVec (8 * sizeof)) : List UInt8 :=
  buffer ++ objectBytes value

/-- `obj.size()`, as a `size_t`. -/
def StdString.size (obj : StdString) : BitVec (8 * 8) := BitVec.ofNat _ obj.val.length

mutual

/-- `serialize`. -/
def serialize : (t : Ty) → t.Value → List UInt8 → List UInt8
  | .arithmetic _, obj, buffer => appendBytes buffer obj
  | .string, obj, buffer =>
    let buffer := appendBytes buffer (StdString.size obj)
    buffer ++ obj.val
  | .tied fields, obj, buffer => serializeTupleImpl fields obj buffer

/-- `serialize_tuple_impl`: the fold over the fields of the tuple, from the left. -/
def serializeTupleImpl : (t : Tuple) → t.Value → List UInt8 → List UInt8
  | .nil, _, buffer => buffer
  | .cons field fields, t, buffer => serializeTupleImpl fields t.2 (serialize field t.1 buffer)

end

/-- An object has as many bytes as its `sizeof`. -/
theorem length_objectBytes {sizeof : ℕ} (value : BitVec (8 * sizeof)) :
    (objectBytes value).length = sizeof := by simp [objectBytes]

/-- The bytes of an object determine its value. -/
theorem objectBytes_injective (sizeof : ℕ) :
    Function.Injective (objectBytes : BitVec (8 * sizeof) → List UInt8) := by
  intro v w h
  apply BitVec.eq_of_getLsbD_eq
  intro i hi
  -- The bit `i` of a value is the bit `i % 8` of its byte `i / 8`.
  have hbyte : v.extractLsb' (8 * (i / 8)) 8 = w.extractLsb' (8 * (i / 8)) 8 := by
    have hmem := List.map_inj_left.mp h (i / 8) (List.mem_range.mpr (by omega))
    exact congrArg UInt8.toBitVec hmem
  have hbit := congrArg (fun b => b.getLsbD (i % 8)) hbyte
  have hlt : i % 8 < 8 := Nat.mod_lt _ (by omega)
  simpa [BitVec.getLsbD_extractLsb', hlt, Nat.div_add_mod] using hbit

/-- The code of an arithmetic type. -/
theorem objectBytes_selfDelimiting (sizeof : ℕ) :
    Code.SelfDelimiting (objectBytes : BitVec (8 * sizeof) → List UInt8) :=
  .of_length length_objectBytes (objectBytes_injective sizeof)

/-- The size of a string determines its length. -/
theorem StdString.length_eq {v w : StdString} (h : v.size = w.size) :
    v.val.length = w.val.length := by
  have hnat := congrArg BitVec.toNat h
  simp only [StdString.size, BitVec.toNat_ofNat] at hnat
  rwa [Nat.mod_eq_of_lt v.property, Nat.mod_eq_of_lt w.property] at hnat

/-- The code of `std::string`: its length in a header, and its characters. -/
def StdString.code (obj : StdString) : List UInt8 := objectBytes obj.size ++ obj.val

/-- The code of `std::string` is self-delimiting. -/
theorem StdString.code_selfDelimiting : Code.SelfDelimiting StdString.code :=
  (objectBytes_selfDelimiting 8).header (fun _ _ => length_eq) Subtype.val_injective

mutual

/-- Each type has a self-delimiting code that `serialize` appends. -/
theorem Ty.exists_code (t : Ty) : ∃ enc : t.Value → List UInt8,
    Code.AppendOnly (serialize t) enc ∧ Code.SelfDelimiting enc := by
  cases t with
  | arithmetic sizeof =>
    exact ⟨objectBytes, fun _ _ => rfl, objectBytes_selfDelimiting sizeof⟩
  | string =>
    exact ⟨StdString.code, fun _ _ => List.append_assoc .., StdString.code_selfDelimiting⟩
  | tied fields => exact fields.exists_code

/-- Each tuple has a self-delimiting code that `serialize_tuple_impl` appends. -/
theorem Tuple.exists_code (t : Tuple) : ∃ enc : t.Value → List UInt8,
    Code.AppendOnly (serializeTupleImpl t) enc ∧ Code.SelfDelimiting enc := by
  cases t with
  | nil =>
    exact ⟨fun _ => [], fun _ _ => (List.append_nil _).symm, Code.SelfDelimiting.nil (α := Unit)⟩
  | cons field fields =>
    obtain ⟨enc, hwrite, henc⟩ := field.exists_code
    obtain ⟨enc', hwrite', henc'⟩ := fields.exists_code
    exact ⟨fun v => enc v.1 ++ enc' v.2, hwrite.append hwrite', henc.append henc'⟩

end

/-- For every type there is an encoding that `serialize` appends to the buffer, and from which the
value and what follows it are recovered in one way. -/
theorem serialize_self_delimiting (t : Ty) :
    ∃ enc : t.Value → List UInt8,
      (∀ v buffer, serialize t v buffer = buffer ++ enc v) ∧
        ∀ v w r s, enc v ++ r = enc w ++ s → v = w ∧ r = s := t.exists_code

-- An `int` and a string, behind what the buffer already holds.
example : serialize (.tied (.cons (.arithmetic 4) (.cons .string .nil)))
    (42#32, ⟨[104, 105], by decide⟩, ()) [255] =
      [255, 42, 0, 0, 0, 2, 0, 0, 0, 0, 0, 0, 0, 104, 105] := by decide

end Novaio
