import Mathlib.Data.List.Basic
import Mathlib.Data.Nat.Notation

/-!
# Self-delimiting codes

A code writes a value as a list of symbols. It is self-delimiting when what it writes can be told
from whatever follows it: two values whose codes can be continued to the same list are equal, and so
are the continuations.

The rules follow the ways in which a format is put together: words of a fixed length, one code after
another (`SelfDelimiting.append`), and a body whose length the code before it determines
(`SelfDelimiting.header`).
-/

namespace Code

variable {α β σ : Type*}

/-- What `enc` writes can be told from what follows it. -/
def SelfDelimiting (enc : α → List σ) : Prop :=
  ∀ v w r s, enc v ++ r = enc w ++ s → v = w ∧ r = s

/-- `write` appends what `enc` writes to what is already there. -/
def AppendOnly (write : α → List σ → List σ) (enc : α → List σ) : Prop :=
  ∀ v buffer, write v buffer = buffer ++ enc v

/-- An injective code whose words have the same length. -/
theorem SelfDelimiting.of_length {enc : α → List σ} {n : ℕ} (hlength : ∀ v, (enc v).length = n)
    (hinj : Function.Injective enc) : SelfDelimiting enc := by
  intro v w r s h
  have hlen : (enc v).length = (enc w).length := by rw [hlength, hlength]
  obtain ⟨henc, hrest⟩ := List.append_inj h hlen
  exact ⟨hinj henc, hrest⟩

/-- The code of a value that is known, in no symbols. -/
theorem SelfDelimiting.nil [Subsingleton α] : SelfDelimiting fun _ : α => ([] : List σ) :=
  fun _ _ _ _ h => ⟨Subsingleton.elim _ _, h⟩

/-- One code after another. -/
theorem SelfDelimiting.append {enc : α → List σ} {enc' : β → List σ} (h : SelfDelimiting enc)
    (h' : SelfDelimiting enc') : SelfDelimiting fun v : α × β => enc v.1 ++ enc' v.2 := by
  rintro ⟨v, v'⟩ ⟨w, w'⟩ r s hvw
  simp only [List.append_assoc] at hvw
  obtain ⟨rfl, hrest⟩ := h _ _ _ _ hvw
  obtain ⟨rfl, hrs⟩ := h' _ _ _ _ hrest
  exact ⟨rfl, hrs⟩

/-- A header that says how long the body is, and the body. -/
theorem SelfDelimiting.header {enc : β → List σ} (h : SelfDelimiting enc) {head : α → β}
    {body : α → List σ} (hlength : ∀ v w, head v = head w → (body v).length = (body w).length)
    (hinj : Function.Injective body) : SelfDelimiting fun v => enc (head v) ++ body v := by
  intro v w r s hvw
  simp only [List.append_assoc] at hvw
  obtain ⟨hhead, hrest⟩ := h _ _ _ _ hvw
  obtain ⟨hbody, hrs⟩ := List.append_inj hrest (hlength v w hhead)
  exact ⟨hinj hbody, hrs⟩

/-- Writing one value after another appends the codes in order. -/
theorem AppendOnly.append {write : α → List σ → List σ} {enc : α → List σ}
    {write' : β → List σ → List σ} {enc' : β → List σ} (h : AppendOnly write enc)
    (h' : AppendOnly write' enc') :
    AppendOnly (fun v buffer => write' v.2 (write v.1 buffer))
      fun v : α × β => enc v.1 ++ enc' v.2 := by
  intro v buffer
  calc
    write' v.2 (write v.1 buffer) = write v.1 buffer ++ enc' v.2 := h' _ _
    _ = buffer ++ enc v.1 ++ enc' v.2 := by rw [h]
    _ = buffer ++ (enc v.1 ++ enc' v.2) := List.append_assoc ..

end Code
