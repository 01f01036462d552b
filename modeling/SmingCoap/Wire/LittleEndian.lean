import Mathlib.Algebra.Order.Ring.Nat
import Mathlib.Data.List.Induction
import SmingCoap.Wire.Memory

/-! # Byte strings as little-endian numbers

A byte string kept as a number loses its length: `digits` gives it back only
when the length is still known (`digits_littleEndian`).  A codec that derives
the length from the number (`byteCount`) gives back the strings whose last byte
is not zero and no others (`digits_byteCount_iff`).
-/

namespace Wire

/-- The number whose lowest byte comes first. -/
def littleEndian : List UInt8 → Nat
  | [] => 0
  | byte :: rest => byte.toNat + 256 * littleEndian rest

/-- The lowest `count` bytes of `n`, lowest first. -/
def digits (n : Nat) : Nat → List UInt8
  | 0 => []
  | count + 1 => UInt8.ofNat n :: digits (n / 256) count

/-- How many bytes `n` takes; none at all for 0. -/
def byteCount (n : Nat) : Nat := if n = 0 then 0 else byteCount (n / 256) + 1
termination_by n
decreasing_by omega

@[simp] theorem byteCount_zero : byteCount 0 = 0 := by
  simp [byteCount]

@[simp] theorem length_digits (n count : Nat) : (digits n count).length = count := by
  induction count generalizing n with
  | zero => rfl
  | succ count inductionHypothesis => simp [digits, inductionHypothesis]

theorem littleEndian_lt (bytes : List UInt8) : littleEndian bytes < 256 ^ bytes.length := by
  induction bytes with
  | nil => decide
  | cons byte rest inductionHypothesis =>
    have bound := byte.toNat_lt
    rw [littleEndian, List.length_cons, Nat.pow_succ]
    omega

theorem littleEndian_append (first second : List UInt8) :
    littleEndian (first ++ second) = littleEndian first + 256 ^ first.length * littleEndian second := by
  induction first with
  | nil => simp [littleEndian]
  | cons byte rest inductionHypothesis =>
    rw [List.cons_append, littleEndian, inductionHypothesis, littleEndian, List.length_cons,
      Nat.pow_succ', Nat.mul_add, Nat.mul_assoc, Nat.add_assoc]

/-- With the length known nothing is lost. -/
theorem digits_littleEndian (bytes : List UInt8) : digits (littleEndian bytes) bytes.length = bytes := by
  induction bytes with
  | nil => rfl
  | cons byte rest inductionHypothesis =>
    have bound := byte.toNat_lt
    have rest_eq : (byte.toNat + 256 * littleEndian rest) / 256 = littleEndian rest := by omega
    rw [littleEndian, List.length_cons, digits, rest_eq, inductionHypothesis]
    congr 1
    apply UInt8.toNat_inj.mp
    rw [UInt8.toNat_ofNat']
    omega

theorem littleEndian_digits {n count : Nat} (bound : n < 256 ^ count) :
    littleEndian (digits n count) = n := by
  induction count generalizing n with
  | zero =>
    have zero : n = 0 := by simpa using bound
    rw [zero]
    rfl
  | succ count inductionHypothesis =>
    have quotient : n / 256 < 256 ^ count := by
      rw [Nat.pow_succ] at bound
      omega
    rw [digits, littleEndian, inductionHypothesis quotient, UInt8.toNat_ofNat']
    omega

theorem littleEndian_snoc (bytes : List UInt8) (last : UInt8) :
    littleEndian (bytes ++ [last]) = littleEndian bytes + 256 ^ bytes.length * last.toNat := by
  rw [littleEndian_append, littleEndian, littleEndian, Nat.mul_zero, Nat.add_zero]

theorem digits_succ (n count : Nat) :
    digits n (count + 1) = digits n count ++ [UInt8.ofNat (n / 256 ^ count)] := by
  induction count generalizing n with
  | zero => simp [digits]
  | succ count inductionHypothesis =>
    rw [digits, inductionHypothesis, digits, List.cons_append, Nat.div_div_eq_div_mul, Nat.pow_succ']

theorem byteCount_le_iff (n count : Nat) : byteCount n ≤ count ↔ n < 256 ^ count := by
  induction count generalizing n with
  | zero =>
    rw [byteCount]
    split <;> simp [*]
  | succ count inductionHypothesis =>
    rw [byteCount]
    split
    next zero =>
      rw [zero]
      exact iff_of_true (Nat.zero_le _) (Nat.pow_pos (by decide))
    next =>
      rw [Nat.add_le_add_iff_right, inductionHypothesis, Nat.pow_succ]
      omega

/-- A non-empty string needs its last byte exactly when that is not zero. -/
theorem byteCount_littleEndian_snoc (bytes : List UInt8) (last : UInt8) :
    byteCount (littleEndian (bytes ++ [last])) = bytes.length + 1 ↔ last ≠ 0 := by
  have fits := (byteCount_le_iff _ _).mpr (littleEndian_lt (bytes ++ [last]))
  have shorter := byteCount_le_iff (littleEndian (bytes ++ [last])) bytes.length
  have low := littleEndian_lt bytes
  have value := littleEndian_snoc bytes last
  rw [List.length_append, List.length_singleton] at fits
  constructor
  · intro count zero
    subst zero
    rw [UInt8.toNat_zero, Nat.mul_zero, Nat.add_zero] at value
    have small := shorter.mpr (by rw [value]; exact low)
    omega
  · intro filled
    have positive : 0 < last.toNat := by
      apply Nat.pos_of_ne_zero
      intro zero
      exact filled (UInt8.toNat_inj.mp zero)
    have large : 256 ^ bytes.length ≤ littleEndian (bytes ++ [last]) := by
      rw [value]
      exact Nat.le_trans (Nat.le_mul_of_pos_right _ positive) (Nat.le_add_left _ _)
    have longer : ¬ byteCount (littleEndian (bytes ++ [last])) ≤ bytes.length := by
      rw [shorter]
      exact Nat.not_lt.mpr large
    omega

/-- Which strings survive as a number. -/
theorem digits_byteCount_iff (bytes : List UInt8) :
    digits (littleEndian bytes) (byteCount (littleEndian bytes)) = bytes ↔ bytes.getLast? ≠ some 0 := by
  have lengths : digits (littleEndian bytes) (byteCount (littleEndian bytes)) = bytes ↔
      byteCount (littleEndian bytes) = bytes.length := by
    constructor
    · intro same
      rw [← congrArg List.length same, length_digits]
    · intro count
      rw [count, digits_littleEndian]
  rw [lengths]
  cases bytes using List.reverseRecOn with
  | nil => simp [littleEndian]
  | append_singleton bytes last =>
    rw [List.length_append, List.length_singleton, byteCount_littleEndian_snoc]
    simp

end Wire
