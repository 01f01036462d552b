import Mathlib.Algebra.Order.Ring.Nat

/-! # Unsigned operations that overflow or do not

A sum of machine numbers is the sum of the numbers they stand for only if that
fits, and a difference only if it is not negative.  `Checked` is what a
computation returns on the machine, wrapped around where it overflows, together
with a flag that says whether every operation on the way was exact.  A program
is written over `Checked.sum` and the other operations; behind its flag the
arithmetic is that of the natural numbers.
-/

namespace Machine

/-- A type of machine numbers, each standing for a natural number. -/
class Unsigned (N : Type) where
  toNat : N → Nat

instance : Unsigned UInt32 := ⟨UInt32.toNat⟩

/-- A result, and whether the operations for it were all exact. -/
structure Checked (α : Type) where
  value : α
  exact : Bool

namespace Checked

variable {α β : Type}

instance : Monad Checked where
  pure value := ⟨value, true⟩
  bind first next := ⟨(next first.value).value, first.exact && (next first.value).exact⟩

@[simp] theorem value_pure (a : α) : (pure a : Checked α).value = a := (rfl)

@[simp] theorem exact_pure (a : α) : (pure a : Checked α).exact = true := (rfl)

@[simp] theorem value_bind (first : Checked α) (next : α → Checked β) :
    (first >>= next).value = (next first.value).value := (rfl)

@[simp] theorem exact_bind (first : Checked α) (next : α → Checked β) :
    (first >>= next).exact = true ↔ first.exact = true ∧ (next first.value).exact = true :=
  Bool.and_eq_true_iff

@[simp] theorem value_ite (condition : Prop) [Decidable condition] (yes no : Checked α) :
    (if condition then yes else no).value = if condition then yes.value else no.value := by
  split <;> rfl

@[simp] theorem exact_ite (condition : Prop) [Decidable condition] (yes no : Checked α) :
    (if condition then yes else no).exact = true ↔
      (condition → yes.exact = true) ∧ (¬ condition → no.exact = true) := by
  split
  next holds => simp [holds]
  next fails => simp [fails]

section Operations

variable {N : Type} [Unsigned N]

open Unsigned (toNat)

def sum [Add N] (a b : N) : Checked N := ⟨a + b, decide (toNat (a + b) = toNat a + toNat b)⟩

def difference [Sub N] (a b : N) : Checked N := ⟨a - b, decide (toNat (a - b) + toNat b = toNat a)⟩

def quotient [Div N] (a b : N) : Checked N := ⟨a / b, decide (toNat b ≠ 0 ∧ toNat (a / b) = toNat a / toNat b)⟩

@[simp] theorem value_sum [Add N] (a b : N) : (sum a b).value = a + b := (rfl)

@[simp] theorem value_difference [Sub N] (a b : N) : (difference a b).value = a - b := (rfl)

@[simp] theorem value_quotient [Div N] (a b : N) : (quotient a b).value = a / b := (rfl)

end Operations

/-! ## 32 bits -/

@[simp] theorem exact_sum (a b : UInt32) : (sum a b).exact = true ↔ a.toNat + b.toNat < 2 ^ 32 := by
  have bound := (a + b).toNat_lt
  simp only [sum, Unsigned.toNat, decide_eq_true_eq, UInt32.toNat_add] at bound ⊢
  omega

@[simp] theorem exact_difference (a b : UInt32) : (difference a b).exact = true ↔ b.toNat ≤ a.toNat := by
  simp only [difference, Unsigned.toNat, decide_eq_true_eq]
  constructor
  · intro same
    exact Nat.le.intro ((Nat.add_comm ..).trans same)
  · intro noBorrow
    rw [UInt32.toNat_sub_of_le _ _ noBorrow, Nat.sub_add_cancel noBorrow]

@[simp] theorem exact_quotient (a b : UInt32) : (quotient a b).exact = true ↔ b.toNat ≠ 0 := by
  simp [quotient, Unsigned.toNat]

end Checked

end Machine
