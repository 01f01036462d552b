import Mathlib.Algebra.Order.Ring.Nat
import Mathlib.Logic.Function.Basic

/-! # Byte-addressed memory

A pointer into a byte buffer is the function that reads the byte at each offset
from it.  Nothing bounds a read: a program that walks past the end of its
buffer reads whatever the memory holds there, and the theorems quantify over
that.  `bytes` extracts a slice, `Holds` says which bytes lie at an offset, and
the frame lemmas say what a store or a block copy leaves alone.
-/

namespace Wire

/-- The bytes at the offsets from some base address. -/
abbrev Memory := Nat → UInt8

namespace Memory

/-- The pointer `&memory[base]`. -/
def offset (memory : Memory) (base : Nat) : Memory := fun i => memory (base + i)

/-- The `length` bytes from `base` on. -/
def bytes (memory : Memory) (base : Nat) : Nat → List UInt8
  | 0 => []
  | length + 1 => memory base :: bytes memory (base + 1) length

/-- `memory[address] = byte`. -/
def store (memory : Memory) (address : Nat) (byte : UInt8) : Memory :=
  fun i => if i = address then byte else memory i

/-- `memcpy(&memory[base], source, source.length)`. -/
def copy (memory : Memory) (base : Nat) (source : List UInt8) : Memory :=
  fun i => if base ≤ i ∧ i < base + source.length then source.getD (i - base) 0 else memory i

/-- The bytes `content` lie at `base`. -/
def Holds (memory : Memory) (base : Nat) (content : List UInt8) : Prop :=
  memory.bytes base content.length = content

@[simp] theorem offset_apply (memory : Memory) (base i : Nat) :
    memory.offset base i = memory (base + i) := rfl

@[simp] theorem length_bytes (memory : Memory) (base length : Nat) :
    (memory.bytes base length).length = length := by
  induction length generalizing base with
  | zero => rfl
  | succ length inductionHypothesis => simp [bytes, inductionHypothesis]

theorem bytes_add (memory : Memory) (base first second : Nat) :
    memory.bytes base (first + second) =
      memory.bytes base first ++ memory.bytes (base + first) second := by
  induction first generalizing base with
  | zero => simp [bytes]
  | succ first inductionHypothesis =>
    rw [Nat.add_right_comm, bytes, inductionHypothesis, bytes, List.cons_append,
      Nat.add_right_comm base 1 first, Nat.add_assoc base first 1]

/-- Two slices that touch are one. -/
theorem bytes_append (memory : Memory) (base first second : Nat) :
    memory.bytes base first ++ memory.bytes (base + first) second =
      memory.bytes base (first + second) :=
  (bytes_add memory base first second).symm

theorem bytes_congr {left right : Memory} {base length : Nat}
    (agree : ∀ i, base ≤ i → i < base + length → left i = right i) :
    left.bytes base length = right.bytes base length := by
  induction length generalizing base with
  | zero => rfl
  | succ length inductionHypothesis =>
    rw [bytes, bytes, agree base (by omega) (by omega),
      inductionHypothesis fun i low high => agree i (by omega) (by omega)]

theorem bytes_offset (memory : Memory) (shift base length : Nat) :
    (memory.offset shift).bytes base length = memory.bytes (shift + base) length := by
  induction length generalizing base with
  | zero => rfl
  | succ length inductionHypothesis =>
    rw [bytes, bytes, inductionHypothesis, offset_apply, Nat.add_assoc]

theorem getElem_bytes (memory : Memory) (base length i : Nat)
    (bound : i < (memory.bytes base length).length) :
    (memory.bytes base length)[i] = memory (base + i) := by
  induction length generalizing base i with
  | zero => simp at bound
  | succ length inductionHypothesis =>
    cases i with
    | zero => rfl
    | succ i =>
      simp only [bytes, List.getElem_cons_succ, inductionHypothesis]
      congr 1
      omega

/-! ## What lies where -/

@[simp] theorem holds_nil (memory : Memory) (base : Nat) : memory.Holds base [] := rfl

theorem holds_cons {memory : Memory} {base : Nat} {byte : UInt8} {rest : List UInt8} :
    memory.Holds base (byte :: rest) ↔ memory base = byte ∧ memory.Holds (base + 1) rest := by
  simp [Holds, bytes]

theorem holds_append {memory : Memory} {base : Nat} {first second : List UInt8} :
    memory.Holds base (first ++ second) ↔
      memory.Holds base first ∧ memory.Holds (base + first.length) second := by
  induction first generalizing base with
  | nil => simp
  | cons byte rest inductionHypothesis =>
    rw [List.cons_append, holds_cons, holds_cons, inductionHypothesis, and_assoc,
      List.length_cons, Nat.add_right_comm, Nat.add_assoc]

theorem holds_bytes (memory : Memory) (base length : Nat) :
    memory.Holds base (memory.bytes base length) := by
  simp [Holds]

theorem Holds.congr {left right : Memory} {base : Nat} {content : List UInt8}
    (holds : left.Holds base content)
    (agree : ∀ i, base ≤ i → i < base + content.length → right i = left i) :
    right.Holds base content := by
  rw [Holds, bytes_congr agree]
  exact holds

/-- Bytes that another memory has at another place. -/
theorem Holds.move {left right : Memory} {base target : Nat} {content : List UInt8}
    (holds : left.Holds base content)
    (agree : ∀ i, i < content.length → right (target + i) = left (base + i)) :
    right.Holds target content := by
  induction content generalizing base target with
  | nil => rfl
  | cons byte rest inductionHypothesis =>
    rw [holds_cons] at holds ⊢
    refine ⟨(agree 0 (Nat.zero_lt_succ _)).trans holds.1, inductionHypothesis holds.2 ?_⟩
    intro i inside
    have next := agree (1 + i) (by rw [List.length_cons]; omega)
    rwa [← Nat.add_assoc, ← Nat.add_assoc] at next

theorem Holds.offset {memory : Memory} {base shift : Nat} {content : List UInt8}
    (holds : memory.Holds (shift + base) content) : (memory.offset shift).Holds base content := by
  rw [Holds, bytes_offset]
  exact holds

theorem Holds.apply {memory : Memory} {base : Nat} {content : List UInt8}
    (holds : memory.Holds base content) {i : Nat} (bound : i < content.length) :
    memory (base + i) = content[i] := by
  rw [← getElem_bytes memory base content.length i (by simpa using bound)]
  exact List.getElem_of_eq holds _

/-- Two memories with the same bytes, here and there, agree byte by byte. -/
theorem Holds.agree {left right : Memory} {base target : Nat} {content : List UInt8}
    (holds : left.Holds base content) (moved : right.Holds target content) {i : Nat}
    (bound : i < content.length) : right (target + i) = left (base + i) := by
  rw [holds.apply bound, moved.apply bound]

/-- Bytes that lie at an address can be read off it. -/
theorem Holds.eq_bytes {memory : Memory} {base length : Nat} {content : List UInt8}
    (holds : memory.Holds base content) (size : content.length = length) :
    memory.bytes base length = content := by
  subst size
  exact holds

/-! ## Stores and copies -/

@[simp] theorem store_same (memory : Memory) (address : Nat) (byte : UInt8) :
    memory.store address byte address = byte := by
  simp [store]

theorem store_other (memory : Memory) {address i : Nat} (byte : UInt8) (other : i ≠ address) :
    memory.store address byte i = memory i := by
  simp [store, other]

theorem copy_outside (memory : Memory) {base i : Nat} {source : List UInt8}
    (outside : i < base ∨ base + source.length ≤ i) : memory.copy base source i = memory i := by
  rw [copy, if_neg (by omega)]

theorem copy_holds (memory : Memory) (base : Nat) (source : List UInt8) :
    (memory.copy base source).Holds base source := by
  apply List.ext_getElem (by simp)
  intro i _ bound
  rw [getElem_bytes, copy, if_pos (by omega), Nat.add_sub_cancel_left]
  simp [bound]

/-! ## Room between two parts -/

/-- What lies in front of `low` is where it was, and what lay from `high` up to `top` is `offset`
further up. -/
structure Spread (memory result : Memory) (low high top offset : Nat) : Prop where
  front : ∀ i, i < low → result i = memory i
  back : ∀ i, high ≤ i → i < top → result (i + offset) = memory i

section
variable {memory result other : Memory} {low high top offset base : Nat} {content : List UInt8}

/-- The room between the parts may be written to. -/
theorem Spread.filled (spread : Spread memory result low high top offset)
    (frame : ∀ i, i < low ∨ high + offset ≤ i → other i = result i) :
    Spread memory other low high top offset where
  front i inside := (frame i (Or.inl inside)).trans (spread.front i inside)
  back i behind inside := (frame _ (Or.inr (by omega))).trans (spread.back i behind inside)

end

end Memory

end Wire
