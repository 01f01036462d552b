import SmingCoap.Wire.Memory
import SmingCoap.Wire.StableInsert

/-! # The CoAP option format

An option is written as a header byte, the bytes that extend its delta, the
bytes that extend its length, and its value.  A half-byte of the header carries
a number up to 12 itself, 13 announces one extension byte and 14 announces two;
15 is not an option.  `encodeOption` writes one option, `encodeOptions` a list
sorted by option number with each number relative to the one before it.

`deltaAt`, `lengthAt` and `headerSize` read an option back from an address.
`option_of_holds` and `bytes_of_option` say that reading and writing are
inverse: the format is canonical, so each option has exactly one spelling.
-/

namespace Wire

/-- An option: its number and the bytes of its value. -/
structure Opt where
  number : Nat
  value : List UInt8
  deriving DecidableEq, Repr

/-- The largest number two extension bytes can carry. -/
abbrev maxExtended : Nat := 65535 + 269

/-! ## Numbers in a half-byte with extension -/

def upperNibble (byte : UInt8) : Nat := byte.toNat / 16

def lowerNibble (byte : UInt8) : Nat := byte.toNat % 16

/-- The number two bytes spell, high byte first. -/
def bigEndian16 (high low : UInt8) : Nat := high.toNat * 256 + low.toNat

/-- The half-byte that announces `n`. -/
def nibble (n : Nat) : Nat := if n < 13 then n else if n < 269 then 13 else 14

/-- How many extension bytes `n` takes. -/
def extra (n : Nat) : Nat := if n < 13 then 0 else if n < 269 then 1 else 2

/-- The extension bytes of `n`. -/
def extension (n : Nat) : List UInt8 :=
  if n < 13 then []
  else if n < 269 then [UInt8.ofNat (n - 13)]
  else [UInt8.ofNat ((n - 269) / 256), UInt8.ofNat (n - 269)]

/-- How many extension bytes a half-byte announces. -/
def width (half : Nat) : Nat := if half < 13 then 0 else if half = 13 then 1 else 2

/-- The number a half-byte and the bytes behind it stand for. -/
def extended (half : Nat) (rest : Memory) : Nat :=
  if half < 13 then half
  else if half = 13 then (rest 0).toNat + 13
  else bigEndian16 (rest 0) (rest 1) + 269

@[simp] theorem length_extension (n : Nat) : (extension n).length = extra n := by
  unfold extension extra
  split
  · rfl
  · split <;> rfl

theorem extra_le (n : Nat) : extra n ≤ 2 := by
  unfold extra
  split
  · omega
  · split <;> omega

theorem extra_mono {m n : Nat} (order : m ≤ n) : extra m ≤ extra n := by
  unfold extra
  split <;> split <;> (try split) <;> (try split) <;> omega

theorem nibble_le (n : Nat) : nibble n ≤ 14 := by
  unfold nibble
  split
  · omega
  · split <;> omega

theorem width_le (half : Nat) : width half ≤ 2 := by
  rw [width]
  split
  · omega
  · split <;> omega

theorem width_nibble (n : Nat) : width (nibble n) = extra n := by
  unfold width nibble extra
  split
  · simp [*]
  · split <;> simp

/-- A half-byte announces no more bytes by its own value than it stands for. -/
theorem extra_nibble_le (n : Nat) : extra (nibble n) ≤ extra n := by
  unfold extra nibble
  split
  · simp [*]
  · split <;> simp

theorem upperNibble_lt (byte : UInt8) : upperNibble byte < 16 := by
  have bound := byte.toNat_lt
  unfold upperNibble
  omega

theorem lowerNibble_lt (byte : UInt8) : lowerNibble byte < 16 := by
  unfold lowerNibble
  omega

theorem toNat_ofNat_of_lt {n : Nat} (bound : n < 256) : (UInt8.ofNat n).toNat = n := by
  simpa using Nat.mod_eq_of_lt bound

theorem bigEndian16_ofNat {n : Nat} (bound : n ≤ 65535) :
    bigEndian16 (UInt8.ofNat (n / 256)) (UInt8.ofNat n) = n := by
  simp only [bigEndian16, UInt8.toNat_ofNat']
  omega

theorem bigEndian16_le (high low : UInt8) : bigEndian16 high low ≤ 65535 := by
  have highBound := high.toNat_lt
  have lowBound := low.toNat_lt
  unfold bigEndian16
  omega

/-- How C reads the lower half of a byte. -/
theorem and_lowerNibble (byte : UInt8) : (byte &&& 0x0F).toNat = lowerNibble byte := by
  rw [UInt8.toNat_and]
  exact Nat.and_two_pow_sub_one_eq_mod _ 4

/-- How C reads two bytes in network order. -/
theorem toNat_shiftLeft_or (high low : UInt8) :
    (high.toUInt16 <<< 8 ||| low.toUInt16).toNat = bigEndian16 high low := by
  have highBound := high.toNat_lt
  have lowBound := low.toNat_lt
  rw [UInt16.toNat_or, UInt16.toNat_shiftLeft]
  simp only [UInt8.toNat_toUInt16, UInt16.reduceToNat, Nat.reduceMod]
  rw [Nat.shiftLeft_eq, Nat.mod_eq_of_lt (by omega), Nat.mul_comm,
    ← Nat.two_pow_add_eq_or_of_lt (i := 8) lowBound, bigEndian16]
  omega

/-- Reading the extension bytes of `n` gives `n` back. -/
theorem extended_of_holds {memory : Memory} {base n : Nat} (bound : n ≤ maxExtended)
    (holds : memory.Holds base (extension n)) :
    extended (nibble n) (memory.offset base) = n := by
  unfold extension at holds
  unfold extended nibble
  by_cases small : n < 13
  · simp [small]
  · by_cases medium : n < 269
    · rw [if_neg small, if_pos medium, Memory.holds_cons] at holds
      simp only [small, medium, if_false, if_true, Memory.offset_apply, Nat.add_zero, holds.1,
        toNat_ofNat_of_lt (show n - 13 < 256 by omega), Nat.lt_irrefl]
      omega
    · rw [if_neg small, if_neg medium, Memory.holds_cons, Memory.holds_cons] at holds
      obtain ⟨high, low, _⟩ := holds
      simp only [small, medium, if_false, Memory.offset_apply, Nat.add_zero, high, low,
        bigEndian16_ofNat (show n - 269 ≤ 65535 by unfold maxExtended at bound; omega),
        show ¬ (14 : Nat) < 13 by omega, show (14 : Nat) ≠ 13 by omega]
      omega

/-- A half-byte other than 15 is the one that announces the number read. -/
theorem nibble_extended {half : Nat} (valid : half ≤ 14) (rest : Memory) :
    nibble (extended half rest) = half := by
  have byteBound := (rest 0).toNat_lt
  unfold extended nibble
  split
  · simp [*]
  · split
    · rw [if_neg (by omega), if_pos (by omega)]
      omega
    · rw [if_neg (by omega), if_neg (by omega)]
      omega

/-- The bytes a half-byte announces are the extension of the number read. -/
theorem bytes_extension (half : Nat) (memory : Memory) (base : Nat) :
    memory.bytes base (width half) = extension (extended half (memory.offset base)) := by
  have byteBound := (memory base).toNat_lt
  unfold width extended extension
  split
  · simp [*, Memory.bytes]
  · split
    · rw [if_neg (by omega), if_pos (by simp; omega)]
      simp [Memory.bytes]
    · have nextBound := (memory (base + 1)).toNat_lt
      rw [if_neg (by omega), if_neg (by omega)]
      simp only [Nat.add_sub_cancel, Memory.offset_apply, Nat.add_zero, bigEndian16, Memory.bytes,
        List.cons.injEq, and_true]
      constructor <;> apply UInt8.toNat_inj.mp <;> rw [UInt8.toNat_ofNat'] <;> omega

/-! ## One option -/

/-- An option whose number is `delta` above the previous one. -/
def encodeOption (delta : Nat) (value : List UInt8) : List UInt8 :=
  UInt8.ofNat (nibble delta * 16 + nibble value.length) ::
    (extension delta ++ (extension value.length ++ value))

/-- The delta of the option at `position`. -/
def deltaAt (memory : Memory) (position : Nat) : Nat :=
  extended (upperNibble (memory position)) (memory.offset (position + 1))

/-- The value length of the option at `position`. -/
def lengthAt (memory : Memory) (position : Nat) : Nat :=
  extended (lowerNibble (memory position))
    (memory.offset (position + 1 + width (upperNibble (memory position))))

/-- How far the value of the option at `position` starts behind it. -/
def headerSize (memory : Memory) (position : Nat) : Nat :=
  1 + width (upperNibble (memory position)) + width (lowerNibble (memory position))

theorem length_encodeOption (delta : Nat) (value : List UInt8) :
    (encodeOption delta value).length = 1 + extra delta + extra value.length + value.length := by
  simp only [encodeOption, List.length_cons, List.length_append, length_extension]
  omega

theorem upperNibble_header (upper lower : Nat) (upperBound : upper ≤ 14) (lowerBound : lower ≤ 14) :
    upperNibble (UInt8.ofNat (upper * 16 + lower)) = upper := by
  rw [upperNibble, toNat_ofNat_of_lt (by omega)]
  omega

theorem lowerNibble_header (upper lower : Nat) (upperBound : upper ≤ 14) (lowerBound : lower ≤ 14) :
    lowerNibble (UInt8.ofNat (upper * 16 + lower)) = lower := by
  rw [lowerNibble, toNat_ofNat_of_lt (by omega)]
  omega

/-- A byte with a half of 15 is no option header; the payload marker is one of them. -/
theorem ne_marker_of_upperNibble {byte : UInt8} (valid : upperNibble byte ≤ 14) : byte ≠ 0xFF := by
  rintro rfl
  exact absurd valid (by decide)

/-- What reading the option at an address gives. -/
structure OptionAt (memory : Memory) (position delta : Nat) (value : List UInt8) : Prop where
  upper : upperNibble (memory position) = nibble delta
  lower : lowerNibble (memory position) = nibble value.length
  delta_eq : deltaAt memory position = delta
  length_eq : lengthAt memory position = value.length
  size_eq : headerSize memory position = 1 + extra delta + extra value.length
  not_marker : memory position ≠ 0xFF
  value_holds : memory.Holds (position + (1 + extra delta + extra value.length)) value

/-- Reading an option where one was written gives back its delta and its value. -/
theorem option_of_holds {memory : Memory} {position delta : Nat} {value : List UInt8}
    (deltaBound : delta ≤ maxExtended) (lengthBound : value.length ≤ maxExtended)
    (holds : memory.Holds position (encodeOption delta value)) :
    OptionAt memory position delta value := by
  rw [encodeOption, Memory.holds_cons, Memory.holds_append, Memory.holds_append,
    length_extension, length_extension] at holds
  obtain ⟨header, deltaHolds, lengthHolds, valueHolds⟩ := holds
  have upper : upperNibble (memory position) = nibble delta := by
    rw [header, upperNibble_header _ _ (nibble_le _) (nibble_le _)]
  have lower : lowerNibble (memory position) = nibble value.length := by
    rw [header, lowerNibble_header _ _ (nibble_le _) (nibble_le _)]
  refine ⟨upper, lower, ?_, ?_, ?_, ?_, ?_⟩
  · rw [deltaAt, upper, extended_of_holds deltaBound deltaHolds]
  · rw [lengthAt, upper, lower, width_nibble, extended_of_holds lengthBound lengthHolds]
  · rw [headerSize, upper, lower, width_nibble, width_nibble]
  · exact ne_marker_of_upperNibble (upper ▸ nibble_le delta)
  · simpa only [Nat.add_assoc] using valueHolds

theorem headerSize_eq {memory : Memory} {position : Nat} (upper : upperNibble (memory position) ≤ 14)
    (lower : lowerNibble (memory position) ≤ 14) :
    headerSize memory position =
      1 + extra (deltaAt memory position) + extra (lengthAt memory position) := by
  have upperWidth := width_nibble (deltaAt memory position)
  have lowerWidth := width_nibble (lengthAt memory position)
  rw [deltaAt, nibble_extended upper, ← deltaAt] at upperWidth
  rw [lengthAt, nibble_extended lower, ← lengthAt] at lowerWidth
  rw [headerSize, upperWidth, lowerWidth]

/-- The bytes at an address whose halves are not 15 spell the option read there. -/
theorem bytes_of_option {memory : Memory} {position : Nat}
    (upper : upperNibble (memory position) ≤ 14) (lower : lowerNibble (memory position) ≤ 14) :
    memory.bytes position (headerSize memory position + lengthAt memory position) =
      encodeOption (deltaAt memory position)
        (memory.bytes (position + headerSize memory position) (lengthAt memory position)) := by
  have header : memory position =
      UInt8.ofNat (upperNibble (memory position) * 16 + lowerNibble (memory position)) := by
    apply UInt8.toNat_inj.mp
    rw [toNat_ofNat_of_lt (by omega), upperNibble, lowerNibble]
    omega
  rw [encodeOption, Memory.length_bytes, Memory.bytes_add]
  simp only [headerSize, Nat.add_assoc]
  rw [Memory.bytes_add, Memory.bytes_add, bytes_extension, bytes_extension]
  simp only [Memory.bytes, List.cons_append, List.nil_append, List.append_assoc]
  refine congrArg₂ List.cons ?_ rfl
  rw [deltaAt, lengthAt, nibble_extended upper, nibble_extended lower]
  exact header

/-- An option can be read off the bytes it starts. -/
theorem encodeOption_append_inj {delta other : Nat} {value written rest behind : List UInt8}
    (deltaBound : delta ≤ maxExtended) (lengthBound : value.length ≤ maxExtended)
    (otherBound : other ≤ maxExtended) (writtenBound : written.length ≤ maxExtended)
    (same : encodeOption delta value ++ rest = encodeOption other written ++ behind) :
    delta = other ∧ value = written ∧ rest = behind := by
  have holds := Memory.copy_holds (fun _ => 0) 0 (encodeOption delta value ++ rest)
  have first := option_of_holds deltaBound lengthBound (Memory.holds_append.mp holds).1
  rw [same] at first holds
  have second := option_of_holds otherBound writtenBound (Memory.holds_append.mp holds).1
  have deltas : delta = other := first.delta_eq.symm.trans second.delta_eq
  have lengths : value.length = written.length := first.length_eq.symm.trans second.length_eq
  subst deltas
  simp only [encodeOption, lengths, List.cons_append, List.append_assoc, List.cons.injEq, true_and,
    List.append_cancel_left_eq] at same
  exact ⟨rfl, List.append_inj same lengths⟩

/-- No option starts with the payload marker. -/
theorem encodeOption_append_ne_marker (delta : Nat) (value rest behind : List UInt8) :
    encodeOption delta value ++ rest ≠ 0xFF :: behind := by
  intro same
  simp only [encodeOption, List.cons_append, List.cons.injEq] at same
  refine ne_marker_of_upperNibble ?_ same.1
  rw [upperNibble_header _ _ (nibble_le _) (nibble_le _)]
  exact nibble_le _

/-! ## A list of options -/

/-- The options in order, the first one's number counted from `previous`. -/
def encodeOptions (previous : Nat) : List Opt → List UInt8
  | [] => []
  | option :: rest =>
    encodeOption (option.number - previous) option.value ++ encodeOptions option.number rest

/-- The numbers never decrease, starting from `previous`. -/
def Ascending (previous : Nat) : List Opt → Prop
  | [] => True
  | option :: rest => previous ≤ option.number ∧ Ascending option.number rest

/-- The number the option behind the list is counted from. -/
def lastNumber (previous : Nat) : List Opt → Nat
  | [] => previous
  | option :: rest => lastNumber option.number rest

theorem encodeOptions_append (previous : Nat) (first second : List Opt) :
    encodeOptions previous (first ++ second) =
      encodeOptions previous first ++ encodeOptions (lastNumber previous first) second := by
  induction first generalizing previous with
  | nil => rfl
  | cons option rest inductionHypothesis =>
    rw [List.cons_append, encodeOptions, encodeOptions, inductionHypothesis, List.append_assoc,
      lastNumber]

theorem lastNumber_append (previous : Nat) (first second : List Opt) :
    lastNumber previous (first ++ second) = lastNumber (lastNumber previous first) second := by
  induction first generalizing previous with
  | nil => rfl
  | cons option rest inductionHypothesis => exact inductionHypothesis option.number

theorem lastNumber_le {bound previous : Nat} {options : List Opt} (start : previous ≤ bound)
    (below : ∀ option ∈ options, option.number ≤ bound) : lastNumber previous options ≤ bound := by
  induction options generalizing previous with
  | nil => exact start
  | cons option rest inductionHypothesis =>
    exact inductionHypothesis (below option (List.mem_cons_self ..))
      fun other member => below other (List.mem_cons_of_mem _ member)

/-- Every option takes a byte at least. -/
theorem length_le_encodeOptions (previous : Nat) (options : List Opt) :
    options.length ≤ (encodeOptions previous options).length := by
  induction options generalizing previous with
  | nil => exact Nat.le_refl _
  | cons option rest inductionHypothesis =>
    have behind := inductionHypothesis option.number
    rw [encodeOptions, List.length_append, length_encodeOption, List.length_cons]
    omega

/-- The value of an option lies in the bytes of the list. -/
theorem length_value_le {previous : Nat} {options : List Opt} {option : Opt} (member : option ∈ options) :
    option.value.length ≤ (encodeOptions previous options).length := by
  induction options generalizing previous with
  | nil => cases member
  | cons head rest inductionHypothesis =>
    rw [encodeOptions, List.length_append, length_encodeOption]
    cases member with
    | head => omega
    | tail _ member =>
      have behind : option.value.length ≤ (encodeOptions head.number rest).length := inductionHypothesis member
      omega

/-- Every number and every value length fits the format. -/
def Representable (options : List Opt) : Prop :=
  ∀ option ∈ options, option.number ≤ 65535 ∧ option.value.length ≤ 65535

theorem Ascending.le_number {previous : Nat} {options : List Opt} (ascending : Ascending previous options)
    {option : Opt} (member : option ∈ options) : previous ≤ option.number := by
  induction options generalizing previous with
  | nil => cases member
  | cons head rest inductionHypothesis =>
    cases member with
    | head => exact ascending.1
    | tail _ member => exact Nat.le_trans ascending.1 (inductionHypothesis ascending.2 member)

theorem Ascending.previous_le {previous : Nat} {options : List Opt}
    (ascending : Ascending previous options) : previous ≤ lastNumber previous options := by
  induction options generalizing previous with
  | nil => exact Nat.le_refl _
  | cons head rest inductionHypothesis =>
    exact Nat.le_trans ascending.1 (inductionHypothesis ascending.2)

theorem Ascending.le_lastNumber {previous : Nat} {options : List Opt}
    (ascending : Ascending previous options) {option : Opt} (member : option ∈ options) :
    option.number ≤ lastNumber previous options := by
  induction options generalizing previous with
  | nil => cases member
  | cons head rest inductionHypothesis =>
    cases member with
    | head => exact ascending.2.previous_le
    | tail _ member => exact inductionHypothesis ascending.2 member

theorem ascending_append {previous : Nat} {first second : List Opt} :
    Ascending previous (first ++ second) ↔
      Ascending previous first ∧ Ascending (lastNumber previous first) second := by
  induction first generalizing previous with
  | nil => exact (and_iff_right trivial).symm
  | cons option rest inductionHypothesis =>
    rw [List.cons_append, Ascending, Ascending, inductionHypothesis, lastNumber, and_assoc]

theorem Representable.tail {option : Opt} {rest : List Opt} (fits : Representable (option :: rest)) :
    Representable rest :=
  fun member inside => fits member (List.mem_cons_of_mem _ inside)

theorem ascending_zero_iff (options : List Opt) :
    Ascending 0 options ↔ options.Pairwise (fun left right => left.number ≤ right.number) := by
  have general : ∀ previous, Ascending previous options ↔
      (∀ option ∈ options, previous ≤ option.number) ∧
        options.Pairwise (fun left right => left.number ≤ right.number) := by
    induction options with
    | nil => simp [Ascending]
    | cons head rest inductionHypothesis =>
      intro previous
      simp only [Ascending, inductionHypothesis, List.forall_mem_cons, List.pairwise_cons]
      constructor
      · rintro ⟨low, bounds, sorted⟩
        exact ⟨⟨low, fun option member => Nat.le_trans low (bounds option member)⟩, bounds, sorted⟩
      · rintro ⟨⟨low, _⟩, bounds, sorted⟩
        exact ⟨low, bounds, sorted⟩
  rw [general]
  simp

/-! ## A new option in the list -/

theorem ascending_insertBehind {previous : Nat} {options : List Opt} (ascending : Ascending previous options)
    {option : Opt} (low : previous ≤ option.number) :
    Ascending previous (insertBehind Opt.number option options) := by
  induction options generalizing previous with
  | nil => exact ⟨low, trivial⟩
  | cons head rest inductionHypothesis =>
    rw [insertBehind]
    split
    next before => exact ⟨low, Nat.le_of_lt before, ascending.2⟩
    next behind => exact ⟨ascending.1, inductionHypothesis ascending.2 (Nat.le_of_not_lt behind)⟩

/-- The list grows by the new option at most, written with a delta that reaches it from the start or
from one of the options: the delta of the option behind it only shrinks. -/
theorem length_encodeOptions_insertBehind {previous delta : Nat} {options : List Opt}
    (ascending : Ascending previous options) {option : Opt} (low : previous ≤ option.number)
    (reached : option.number ≤ previous + delta ∨
      ∃ other ∈ options, other.number ≤ option.number ∧ option.number ≤ other.number + delta) :
    (encodeOptions previous (insertBehind Opt.number option options)).length ≤
      (encodeOptions previous options).length + (encodeOption delta option.value).length := by
  have writes : ∀ {earlier : Nat}, option.number ≤ earlier + delta →
      (encodeOption (option.number - earlier) option.value).length ≤
        (encodeOption delta option.value).length := by
    intro earlier near
    have width := extra_mono (show option.number - earlier ≤ delta by omega)
    rw [length_encodeOption, length_encodeOption]
    omega
  -- the new option costs a header of its own; the one behind it gets a shorter one
  induction options generalizing previous with
  | nil =>
    have near : option.number ≤ previous + delta := by simpa using reached
    have size := writes near
    simpa [insertBehind, encodeOptions] using size
  | cons head rest inductionHypothesis =>
    rw [insertBehind]
    split
    next before =>
      have near : option.number ≤ previous + delta := by
        rcases reached with near | ⟨other, member, below, _⟩
        · exact near
        · -- no option of the list is in front of the new one
          have first : head.number ≤ other.number := by
            cases member with
            | head => exact Nat.le_refl _
            | tail _ member => exact ascending.2.le_number member
          omega
      have size := writes near
      have width := extra_mono (show head.number - option.number ≤ head.number - previous by omega)
      simp only [encodeOptions, List.length_append, length_encodeOption] at size ⊢
      omega
    next behind =>
      have reached : option.number ≤ head.number + delta ∨
          ∃ other ∈ rest, other.number ≤ option.number ∧ option.number ≤ other.number + delta := by
        have order := ascending.1
        rcases reached with near | ⟨other, member, below, near⟩
        · exact Or.inl (by omega)
        · cases member with
          | head => exact Or.inl near
          | tail _ member => exact Or.inr ⟨other, member, below, near⟩
      have size := inductionHypothesis ascending.2 (Nat.le_of_not_lt behind) reached
      simp only [encodeOptions, List.length_append]
      omega

end Wire
