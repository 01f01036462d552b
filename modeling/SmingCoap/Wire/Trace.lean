import SmingCoap.Wire.Options

/-! # The bytes a computation reads

A result says nothing about the bytes that were looked at on the way to it.  `Traced` is a result together with the
positions that were read for it, in their order; `Within stop` says that all of them lie below `stop`.  A program is
written over a `Source`, the pointer whose reads are noted, and its rules are those of its parts: `within_bind` for
two steps one after the other, `within_cell` for a single byte.
-/

namespace Wire

/-- A result, and the positions that were read for it. -/
structure Traced (α : Type) where
  value : α
  reads : List Nat

namespace Traced

variable {α β : Type}

instance : Monad Traced where
  pure value := ⟨value, []⟩
  bind first next := ⟨(next first.value).value, first.reads ++ (next first.value).reads⟩

@[simp] theorem value_pure (a : α) : (pure a : Traced α).value = a := (rfl)

@[simp] theorem reads_pure (a : α) : (pure a : Traced α).reads = [] := rfl

@[simp] theorem value_bind (first : Traced α) (next : α → Traced β) :
    (first >>= next).value = (next first.value).value := (rfl)

@[simp] theorem reads_bind (first : Traced α) (next : α → Traced β) :
    (first >>= next).reads = first.reads ++ (next first.value).reads := rfl

@[simp] theorem value_ite (condition : Prop) [Decidable condition] (yes no : Traced α) :
    (if condition then yes else no).value = if condition then yes.value else no.value := by
  split <;> rfl

/-- No position from `stop` on is read. -/
def Within (stop : Nat) (traced : Traced α) : Prop := ∀ position ∈ traced.reads, position < stop

@[simp] theorem within_pure (stop : Nat) (a : α) : (pure a : Traced α).Within stop := by
  intro position member
  cases member

@[simp] theorem within_bind {stop : Nat} {first : Traced α} {next : α → Traced β} :
    (first >>= next).Within stop ↔ first.Within stop ∧ (next first.value).Within stop := by
  simp only [Within, reads_bind, List.mem_append]
  constructor
  · intro all
    exact ⟨fun position member => all position (.inl member), fun position member => all position (.inr member)⟩
  · rintro ⟨before, after⟩ position (member | member)
    · exact before position member
    · exact after position member

@[simp] theorem within_ite {stop : Nat} (condition : Prop) [Decidable condition] (yes no : Traced α) :
    (if condition then yes else no).Within stop ↔
      (condition → yes.Within stop) ∧ (¬ condition → no.Within stop) := by
  split
  next holds => simp [holds]
  next fails => simp [fails]

end Traced

/-- A pointer whose reads are noted. -/
abbrev Source := Nat → Traced UInt8

namespace Source

/-- The pointer `&memory[base]`. -/
def pointer (memory : Memory) (base : Nat) : Source := fun i => ⟨memory (base + i), [base + i]⟩

/-- The pointer `&source[base]`. -/
def offset (source : Source) (base : Nat) : Source := fun i => source (base + i)

@[simp] theorem value_pointer (memory : Memory) (base i : Nat) :
    (pointer memory base i).value = memory (base + i) := (rfl)

@[simp] theorem offset_pointer (memory : Memory) (base shift : Nat) :
    (pointer memory base).offset shift = pointer memory (base + shift) := by
  funext i
  simp only [offset, pointer, Nat.add_assoc]

@[simp] theorem within_pointer {memory : Memory} {base i stop : Nat} :
    (pointer memory base i).Within stop ↔ base + i < stop := by
  simp [Traced.Within, pointer]

/-- The `length` bytes from the pointer on. -/
def bytes (source : Source) : Nat → Traced (List UInt8)
  | 0 => pure []
  | length + 1 => do
    let byte ← source 0
    let rest ← (source.offset 1).bytes length
    return byte :: rest

@[simp] theorem value_bytes (memory : Memory) (base length : Nat) :
    ((pointer memory base).bytes length).value = memory.bytes base length := by
  induction length generalizing base with
  | zero => rfl
  | succ length inductionHypothesis => simp [bytes, Memory.bytes, inductionHypothesis]

/-- A slice is read within `stop` when it ends there. -/
theorem within_bytes {memory : Memory} {base length stop : Nat} :
    ((pointer memory base).bytes length).Within stop ↔ length = 0 ∨ base + length ≤ stop := by
  induction length generalizing base with
  | zero => simp [bytes]
  | succ length inductionHypothesis =>
    simp only [bytes, Traced.within_bind, within_pointer, offset_pointer, inductionHypothesis, Traced.within_pure,
      and_true]
    omega

end Source

end Wire
