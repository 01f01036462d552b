import SmingCoap.Wire.Message

/-! # Options relative to one another

What the bytes say of an option is its value and how far its number is above that of the option in front of it.
Numbers are the 16-bit sums of these deltas, whether they ascend or wrap; to put an option between two others is
to split one delta in two (`absolute_insert`).
-/

namespace Wire

/-- An option as its bytes give it. -/
structure Relative where
  delta : Nat
  value : List UInt8

def encodeRelative : List Relative → List UInt8
  | [] => []
  | option :: rest => encodeOption option.delta option.value ++ encodeRelative rest

/-- The number that an option behind the list is counted from. -/
def reached (number : Nat) : List Relative → Nat
  | [] => number
  | option :: rest => reached ((number + option.delta) % 65536) rest

/-- The options with their numbers. -/
def absolute (number : Nat) : List Relative → List Opt
  | [] => []
  | option :: rest =>
    ⟨(number + option.delta) % 65536, option.value⟩ :: absolute ((number + option.delta) % 65536) rest

/-- Deltas and value lengths are 16-bit numbers. -/
def Encodable (options : List Relative) : Prop :=
  ∀ option ∈ options, option.delta ≤ 65535 ∧ option.value.length ≤ 65535

/-- The options as seen from one another. -/
def relative (number : Nat) : List Opt → List Relative
  | [] => []
  | option :: rest => ⟨option.number - number, option.value⟩ :: relative option.number rest

theorem encodeRelative_append (first second : List Relative) :
    encodeRelative (first ++ second) = encodeRelative first ++ encodeRelative second := by
  induction first with
  | nil => rfl
  | cons option rest inductionHypothesis =>
    rw [List.cons_append, encodeRelative, encodeRelative, inductionHypothesis, List.append_assoc]

theorem length_le_encodeRelative (options : List Relative) : options.length ≤ (encodeRelative options).length := by
  induction options with
  | nil => exact Nat.le_refl 0
  | cons option rest inductionHypothesis =>
    rw [encodeRelative, List.length_append, length_encodeOption, List.length_cons]
    omega

theorem absolute_append (number : Nat) (first second : List Relative) :
    absolute number (first ++ second) = absolute number first ++ absolute (reached number first) second := by
  induction first generalizing number with
  | nil => rfl
  | cons option rest inductionHypothesis =>
    rw [List.cons_append, absolute, absolute, inductionHypothesis, reached, List.cons_append]

/-- An option put in front of another one takes its part of the delta; from there on the numbers are what they were. -/
theorem absolute_insert {number inserted first second total : Nat} (stored value : List UInt8) (rest : List Relative)
    (front : (number + first) % 65536 = inserted)
    (sum : (inserted + second) % 65536 = (number + total) % 65536) :
    absolute number (⟨first, stored⟩ :: ⟨second, value⟩ :: rest) =
      ⟨inserted, stored⟩ :: absolute number (⟨total, value⟩ :: rest) := by
  simp only [absolute, front, sum]

theorem Encodable.tail {option : Relative} {rest : List Relative} (encodable : Encodable (option :: rest)) :
    Encodable rest :=
  fun other member => encodable other (List.mem_cons_of_mem _ member)

theorem encodable_append {first second : List Relative} :
    Encodable (first ++ second) ↔ Encodable first ∧ Encodable second :=
  List.forall_mem_append

theorem encodable_cons {option : Relative} {rest : List Relative} :
    Encodable (option :: rest) ↔ (option.delta ≤ 65535 ∧ option.value.length ≤ 65535) ∧ Encodable rest :=
  List.forall_mem_cons

theorem holds_cons_relative {memory : Memory} {position : Nat} {option : Relative} {rest : List Relative}
    (encodable : Encodable (option :: rest)) (holds : memory.Holds position (encodeRelative (option :: rest))) :
    OptionAt memory position option.delta option.value ∧
      memory.Holds (position + (1 + extra option.delta + extra option.value.length + option.value.length))
        (encodeRelative rest) := by
  rw [encodeRelative, Memory.holds_append, length_encodeOption] at holds
  have bounds := encodable option (List.mem_cons_self ..)
  exact ⟨option_of_holds (by unfold maxExtended; omega) (by unfold maxExtended; omega) holds.1, holds.2⟩

/-! ## Ascending options -/

theorem encodeRelative_relative (number : Nat) (options : List Opt) :
    encodeRelative (relative number options) = encodeOptions number options := by
  induction options generalizing number with
  | nil => rfl
  | cons option rest inductionHypothesis => rw [relative, encodeRelative, encodeOptions, inductionHypothesis]

theorem length_relative (number : Nat) (options : List Opt) : (relative number options).length = options.length := by
  induction options generalizing number with
  | nil => rfl
  | cons option rest inductionHypothesis => rw [relative, List.length_cons, List.length_cons, inductionHypothesis]

theorem encodable_relative {number : Nat} {options : List Opt} (representable : Representable options) :
    Encodable (relative number options) := by
  induction options generalizing number with
  | nil => exact fun _ member => nomatch member
  | cons option rest inductionHypothesis =>
    have bounds := representable option (List.mem_cons_self ..)
    exact encodable_cons.mpr
      ⟨⟨Nat.le_trans (Nat.sub_le ..) bounds.1, bounds.2⟩, inductionHypothesis representable.tail⟩

/-- Numbers that ascend are those their deltas add up to. -/
theorem absolute_relative {number : Nat} {options : List Opt} (ascending : Ascending number options)
    (representable : Representable options) : absolute number (relative number options) = options := by
  induction options generalizing number with
  | nil => rfl
  | cons option rest inductionHypothesis =>
    have bounds := representable option (List.mem_cons_self ..)
    have order := ascending.1
    have sum : (number + (option.number - number)) % 65536 = option.number := by omega
    rw [relative, absolute, sum, inductionHypothesis ascending.2 representable.tail]

end Wire
