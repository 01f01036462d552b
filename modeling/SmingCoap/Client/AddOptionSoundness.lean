import Mathlib.Data.List.TakeWhile
import SmingCoap.Client.InsertSoundness
import SmingCoap.Wire.Relative
import SmingCoap.Wire.StableInsert

/-! # Any sequence of added options

`Represents` is the invariant of a PDU under construction: its bytes are the
encoding of a list of options in ascending order.  `addOption` keeps it, with the
new option behind those of the same number, for every order of numbers and every
pair of extension widths.

The value that ends up in the PDU is `storedValue`, so a sequence of calls
leaves the sorted list of what was added exactly when no call loses a tail
(`addOptions_sorted_iff`).
-/

namespace SmingCoap

open Wire (Memory Opt)

namespace CoapPDU

/-- The PDU consists of header, token and `options`, and has no payload. -/
structure Represents (this : CoapPDU) (options : List Opt) : Prop where
  owned : this.Owned
  ascending : Wire.Ascending 0 options
  representable : Wire.Representable options
  holds : this.pdu.Holds (4 + this.getTokenLength) (Wire.encodeOptions 0 options)
  length_eq : this.pduLength = 4 + this.getTokenLength + (Wire.encodeOptions 0 options).length
  numOptions_eq : this.numOptions = options.length
  maximum : this.maxAddedOptionNumber = Wire.lastNumber 0 options
  noPointer : this.payloadPointer = none
  noPayload : this.payloadLength = 0

/-! ## Reading the options back -/

/-- The two readers on a written option. -/
theorem read_option {pdu : Memory} {position delta : Nat} {value : List UInt8}
    (written : Wire.OptionAt pdu position delta value) (deltaBound : delta ≤ 65535)
    (lengthBound : value.length ≤ 65535) :
    getOptionDelta (pdu.offset position) = delta ∧
      getOptionValueLength (pdu.offset position) = value.length := by
  have upper : Wire.upperNibble (pdu position) ≤ 14 := written.upper ▸ Wire.nibble_le _
  have lower : Wire.lowerNibble (pdu position) ≤ 14 := written.lower ▸ Wire.nibble_le _
  rw [getOptionDelta_eq _ _ upper, getOptionValueLength_eq _ _ upper lower, written.delta_eq,
    written.length_eq]
  exact ⟨Nat.mod_eq_of_lt (by omega), Nat.mod_eq_of_lt (by omega)⟩

/-- `getOptions` walks over written options and finds each of them, whatever their deltas add up to. -/
theorem getOptionsLoop_absolute (this : CoapPDU) (options : List Wire.Relative) (position number : Nat)
    (encodable : Wire.Encodable options) (holds : this.pdu.Holds position (Wire.encodeRelative options)) :
    (getOptionsLoop this options.length position number).map this.optionOf = Wire.absolute number options := by
  induction options generalizing position number with
  | nil => rfl
  | cons option rest inductionHypothesis =>
    obtain ⟨written, restHolds⟩ := Wire.holds_cons_relative encodable holds
    have bounds := encodable option (List.mem_cons_self ..)
    obtain ⟨delta, length⟩ := read_option written bounds.1 bounds.2
    have value := written.value_holds.eq_bytes rfl
    simp only [List.length_cons, getOptionsLoop, delta, length, computeExtraBytes_eq, List.map_cons,
      optionOf, Wire.absolute]
    rw [inductionHypothesis _ _ encodable.tail restHolds,
      show position + (1 + Wire.extra option.delta + Wire.extra option.value.length +
        option.value.length) - option.value.length =
        position + (1 + Wire.extra option.delta + Wire.extra option.value.length) by omega,
      value]

theorem getOptionsLoop_spec (this : CoapPDU) (options : List Opt) (position number : Nat)
    (ascending : Wire.Ascending number options) (representable : Wire.Representable options)
    (holds : this.pdu.Holds position (Wire.encodeOptions number options)) :
    (getOptionsLoop this options.length position number).map this.optionOf = options := by
  have read := this.getOptionsLoop_absolute (Wire.relative number options) position number
    (Wire.encodable_relative representable) (by rw [Wire.encodeRelative_relative]; exact holds)
  rwa [Wire.length_relative, Wire.absolute_relative ascending representable] at read

theorem Represents.readOptions_eq {this : CoapPDU} {options : List Opt}
    (represents : this.Represents options) : this.readOptions = options := by
  rw [readOptions, getOptions, represents.numOptions_eq]
  exact getOptionsLoop_spec this options _ 0 represents.ascending represents.representable
    represents.holds

/-! ## Where an option goes -/

/-- The options the new one goes behind. -/
def upTo (number : Nat) (options : List Opt) : List Opt :=
  options.takeWhile (fun option => option.number ≤ number)

/-- The options the new one goes in front of. -/
def beyond (number : Nat) (options : List Opt) : List Opt :=
  options.dropWhile (fun option => option.number ≤ number)

theorem upTo_append_beyond (number : Nat) (options : List Opt) :
    upTo number options ++ beyond number options = options :=
  List.takeWhile_append_dropWhile

theorem upTo_le {number : Nat} {options : List Opt} {option : Opt} (member : option ∈ upTo number options) :
    option.number ≤ number := by
  simpa using List.mem_takeWhile_imp member

theorem ascending_beyond {number previous : Nat} {options : List Opt}
    (ascending : Wire.Ascending previous options) : Wire.Ascending number (beyond number options) := by
  induction options generalizing previous with
  | nil => trivial
  | cons head rest inductionHypothesis =>
    by_cases before : head.number ≤ number
    · rw [beyond, List.dropWhile_cons_of_pos (by simpa using before)]
      exact inductionHypothesis ascending.2
    · rw [beyond, List.dropWhile_cons_of_neg (by simpa using before)]
      exact ⟨Nat.le_of_not_le before, ascending.2⟩

/-- The walk stops at the first option with a larger number, else at the end of the options. -/
theorem findInsertionLoop_spec (this : CoapPDU) (optionNumber : Nat) (fuel : Nat) (options : List Opt)
    (payload : List UInt8) (position previous : Nat) (ascending : Wire.Ascending previous options)
    (representable : Wire.Representable options)
    (holds : this.pdu.Holds position (Wire.encodeOptions previous options ++ Wire.payloadSection payload))
    (lengthEq : this.pduLength =
      position + (Wire.encodeOptions previous options ++ Wire.payloadSection payload).length)
    (enough : options.length ≤ fuel) :
    findInsertionLoop this optionNumber fuel position previous =
      (position + (Wire.encodeOptions previous (upTo optionNumber options)).length,
        Wire.lastNumber previous (upTo optionNumber options)) := by
  -- induction on the fuel, which the options that are left never exceed
  induction fuel generalizing options position previous with
  | zero =>
    have none : options = [] := List.eq_nil_of_length_eq_zero (by omega)
    subst none
    rfl
  | succ fuel inductionHypothesis =>
    cases options with
    | nil =>
      rw [findInsertionLoop, if_neg]
      · rfl
      -- the loop stands at the end of the PDU or at the marker, and a marker is no option
      · rintro ⟨inside, marker⟩
        by_cases filled : payload = []
        · simp [filled, Wire.encodeOptions] at lengthEq
          omega
        · rw [Wire.encodeOptions, List.nil_append, Wire.payloadSection_of_ne filled, Memory.holds_cons] at holds
          exact marker holds.1
    | cons option rest =>
      obtain ⟨written, _⟩ := Wire.holds_cons_options representable (Memory.holds_append.mp holds).1
      have bounds := representable option (List.mem_cons_self ..)
      have order := ascending.1
      rw [Wire.encodeOptions, List.append_assoc, Memory.holds_append, Wire.length_encodeOption] at holds
      rw [Wire.encodeOptions, List.append_assoc, List.length_append, Wire.length_encodeOption] at lengthEq
      obtain ⟨delta, length⟩ := read_option written (by omega) bounds.2
      have current : (previous + (option.number - previous)) % 65536 = option.number := by omega
      have moved : position + Wire.extra (option.number - previous) + Wire.extra option.value.length +
          option.value.length + 1 = position + (1 + Wire.extra (option.number - previous) +
          Wire.extra option.value.length + option.value.length) := by omega
      rw [findInsertionLoop, if_pos ⟨by omega, written.not_marker⟩]
      simp only [delta, length, current, computeExtraBytes_eq, moved]
      -- options of the same number are passed too, so the new one goes behind them
      by_cases before : option.number ≤ optionNumber
      · rw [if_neg (by omega), inductionHypothesis rest _ _ ascending.2 representable.tail holds.2
          (by omega) (by simpa using enough), upTo, upTo,
          List.takeWhile_cons_of_pos (by simpa using before), Wire.encodeOptions, List.length_append,
          Wire.length_encodeOption, Wire.lastNumber, Nat.add_assoc position]
      · rw [if_pos (by omega), upTo, List.takeWhile_cons_of_neg (by simpa using before)]
        rfl

theorem findInsertionPosition_spec {this : CoapPDU} {options : List Opt} (represents : this.Represents options)
    (optionNumber : Nat) :
    this.findInsertionPosition optionNumber =
      (4 + this.getTokenLength + (Wire.encodeOptions 0 (upTo optionNumber options)).length,
        Wire.lastNumber 0 (upTo optionNumber options)) := by
  have lengthEq := represents.length_eq
  have maximum := represents.maximum
  rw [findInsertionPosition]
  split
  next atEnd =>
    -- both tests mean that no option has a larger number
    have all : upTo optionNumber options = options := by
      apply List.takeWhile_eq_self_iff.mpr
      intro option member
      rcases atEnd with largest | noOptions
      · have below := represents.ascending.le_lastNumber member
        simp only [decide_eq_true_eq]
        omega
      · have count := Wire.length_le_encodeOptions 0 options
        have some := List.length_pos_of_mem member
        simp only [hdrSize] at noOptions
        omega
    rw [all, lengthEq, maximum]
  next =>
    have count := Wire.length_le_encodeOptions 0 options
    have noTail : Wire.encodeOptions 0 options ++ Wire.payloadSection [] = Wire.encodeOptions 0 options :=
      List.append_nil _
    exact findInsertionLoop_spec this optionNumber _ options [] _ 0 represents.ascending
      represents.representable (by rw [noTail]; exact represents.holds) (by rw [noTail]; exact lengthEq)
      (by omega)

/-! ## One call -/

/-- The 16 bit total length of the option does not wrap. -/
def TotalLengthFits (this : CoapPDU) (number : Nat) (value : List UInt8) : Prop :=
  optionHdrByte +
    computeExtraBytes ((number + 65536 - (this.findInsertionPosition number).2) % 65536) +
    computeExtraBytes value.length + value.length < 65536

instance (this : CoapPDU) (number : Nat) (value : List UInt8) :
    Decidable (this.TotalLengthFits number value) :=
  inferInstanceAs (Decidable (_ < 65536))

/-- Nothing of the value is lost: it is shorter than 269 bytes, or its last 269 bytes already lie
where they belong when `insertOption` starts. -/
def TailKept (this : CoapPDU) (grant : Option Realloc) (number : Nat) (value : List UInt8) : Prop :=
  let (position, previous) := this.findInsertionPosition number
  let delta := (number + 65536 - previous) % 65536
  let headerLength := optionHdrByte + computeExtraBytes delta + computeExtraBytes value.length
  value.length < 269 ∨
    ∃ gap, (this.noteMaximum position number).openGap grant number position previous
        (headerLength + value.length) = some gap ∧
      gap.pdu.Holds (position + headerLength + (value.length - 269)) (value.drop (value.length - 269))

theorem noteMaximum_facts (this : CoapPDU) (position number : Nat) :
    (this.noteMaximum position number).pdu = this.pdu ∧
      (this.noteMaximum position number).pduLength = this.pduLength ∧
      (this.noteMaximum position number).numOptions = this.numOptions ∧
      (this.noteMaximum position number).payloadPointer = this.payloadPointer ∧
      (this.noteMaximum position number).payloadLength = this.payloadLength ∧
      (this.Owned → (this.noteMaximum position number).Owned) := by
  rw [noteMaximum]
  split
  · exact ⟨rfl, rfl, rfl, rfl, rfl, id⟩
  · exact ⟨rfl, rfl, rfl, rfl, rfl, id⟩

theorem TotalLengthFits.length_le {this : CoapPDU} {number : Nat} {value : List UInt8}
    (fits : this.TotalLengthFits number value) : value.length ≤ 65535 := by
  unfold TotalLengthFits at fits
  omega

/-- A successful call opens a gap and writes the option into it. -/
theorem addOption_opened {this next : CoapPDU} {grant : Option Realloc} {number position previous : Nat}
    {value : List UInt8} (place : this.findInsertionPosition number = (position, previous))
    (fits : this.TotalLengthFits number value)
    (success : this.addOption grant number value.length value = (0, next)) :
    let delta := (number + 65536 - previous) % 65536
    let headerLength := 1 + Wire.extra delta + Wire.extra value.length
    ∃ gap, (this.noteMaximum position number).openGap grant number position previous
        (headerLength + value.length) = some gap ∧
      next = { gap.insertOption position delta value.length value with numOptions := gap.numOptions + 1 } ∧
      (storedValue gap.pdu (position + headerLength) value = value ↔ this.TailKept grant number value) := by
  intro delta headerLength
  have deltaEq : delta = (number + 65536 - previous) % 65536 := rfl
  have headerEq : headerLength = 1 + Wire.extra delta + Wire.extra value.length := rfl
  clear_value headerLength delta
  have total : optionHdrByte + Wire.extra delta + Wire.extra value.length + value.length =
      headerLength + value.length := by rw [headerEq, optionHdrByte]
  rw [TotalLengthFits, place, ← deltaEq, computeExtraBytes_eq, computeExtraBytes_eq, total] at fits
  rw [addOption, place] at success
  simp only [computeExtraBytes_eq, ← deltaEq, total, Nat.mod_eq_of_lt fits] at success
  have kept : this.TailKept grant number value ↔ value.length < 269 ∨
      ∃ gap, (this.noteMaximum position number).openGap grant number position previous
          (headerLength + value.length) = some gap ∧
        gap.pdu.Holds (position + headerLength + (value.length - 269))
          (value.drop (value.length - 269)) := by
    rw [TailKept, place]
    simp only [computeExtraBytes_eq, ← deltaEq, optionHdrByte, headerEq]
  -- without a gap nothing is written, and the call fails
  cases opened : (this.noteMaximum position number).openGap grant number position previous
      (headerLength + value.length) with
  | none => simp [opened] at success
  | some gap =>
    simp only [opened, Prod.mk.injEq, true_and] at success
    rw [insertOption_numOptions] at success
    refine ⟨gap, rfl, success.symm, ?_⟩
    rw [storedValue_eq_iff, kept]
    constructor
    · intro whole
      exact whole.imp id fun tail => ⟨gap, opened, tail⟩
    · intro whole
      cases whole with
      | inl short => exact Or.inl short
      | inr found =>
        obtain ⟨other, same, tail⟩ := found
        rw [opened, Option.some.injEq] at same
        exact Or.inr (same ▸ tail)

/-- Header, token, options and what follows them, and the facts a call leaves behind. -/
structure Inserts (this next : CoapPDU) (position number : Nat) (options : List Opt) (tail : List UInt8) : Prop where
  owned : next.Owned
  header : ∀ i, i < 4 + this.getTokenLength → next.pdu i = this.pdu i
  holds : next.pdu.Holds (4 + this.getTokenLength) (Wire.encodeOptions 0 options ++ tail)
  length_eq : next.pduLength = 4 + this.getTokenLength + (Wire.encodeOptions 0 options ++ tail).length
  numOptions_eq : next.numOptions = this.numOptions + 1
  maximum : next.maxAddedOptionNumber = (this.noteMaximum position number).maxAddedOptionNumber
  pointer : next.payloadPointer = this.payloadPointer
  payload : next.payloadLength = this.payloadLength

/-- At its place the option is inserted as the format asks for, whatever lies behind the options; its
value is whole exactly when no tail is lost. -/
theorem addOption_inserts {this next : CoapPDU} {grant : Option Realloc} {number : Nat} {value : List UInt8}
    {before after : List Opt} (tail : List UInt8) (owned : this.Owned)
    (representable : Wire.Representable (before ++ after)) (low : Wire.lastNumber 0 before ≤ number)
    (high : Wire.Ascending number after) (last : after = [] → tail = [])
    (holds : this.pdu.Holds (4 + this.getTokenLength) (Wire.encodeOptions 0 (before ++ after) ++ tail))
    (lengthEq : this.pduLength = 4 + this.getTokenLength + (Wire.encodeOptions 0 (before ++ after) ++ tail).length)
    (place : this.findInsertionPosition number =
      (4 + this.getTokenLength + (Wire.encodeOptions 0 before).length, Wire.lastNumber 0 before))
    (bound : number ≤ 65535) (fits : this.TotalLengthFits number value)
    (success : this.addOption grant number value.length value = (0, next)) :
    ∃ stored, Inserts this next (4 + this.getTokenLength + (Wire.encodeOptions 0 before).length) number
        (before ++ ⟨number, stored⟩ :: after) tail ∧
      stored.length = value.length ∧ (stored = value ↔ this.TailKept grant number value) := by
  obtain ⟨position, positionEq⟩ : ∃ position,
    position = 4 + this.getTokenLength + (Wire.encodeOptions 0 before).length := ⟨_, rfl⟩
  obtain ⟨previous, previousEq⟩ : ∃ previous, previous = Wire.lastNumber 0 before := ⟨_, rfl⟩
  rw [← positionEq, ← previousEq] at place
  rw [← previousEq] at low
  have delta : (number + 65536 - previous) % 65536 = number - previous := by omega
  obtain ⟨gap, opened, result, whole⟩ := addOption_opened place fits success
  rw [delta] at opened result whole
  obtain ⟨headerLength, headerEq⟩ : ∃ headerLength,
    headerLength = 1 + Wire.extra (number - previous) + Wire.extra value.length := ⟨_, rfl⟩
  rw [← headerEq] at opened whole
  obtain ⟨notedPdu, notedLength, notedCount, notedPointer, notedPayload, notedOwned⟩ :=
    this.noteMaximum_facts position number
  rw [Wire.encodeOptions_append, List.append_assoc, Memory.holds_append, ← previousEq, ← positionEq] at holds
  rw [Wire.encodeOptions_append, List.append_assoc, List.length_append, ← previousEq, ← Nat.add_assoc,
    ← positionEq] at lengthEq
  -- first the room, which rewrites the delta behind it, then the option into that room
  have gapOpened := openGap_spec (notedOwned owned) low high
    (fun option member => representable option (List.mem_append_right _ member)) last
    (by rw [notedPdu]; exact holds.2) (by rw [notedLength]; exact lengthEq) (by omega) opened
  obtain ⟨written, frame⟩ := gap.insertOption_spec position (number - previous) value
  have start : position + (1 + Wire.extra (number - previous) + Wire.extra value.length) =
      position + headerLength := by rw [headerEq]
  simp only [start] at written frame
  rw [show (gap.insertOption position (number - previous) value.length value).pdu = next.pdu by
    rw [result]] at written frame
  have untouched : ∀ i, i < position → next.pdu i = this.pdu i := by
    intro i inside
    rw [frame i (Or.inl inside), gapOpened.before i inside, notedPdu]
  refine ⟨storedValue gap.pdu (position + headerLength) value, ⟨?_, ?_, ?_, ?_, ?_, ?_, ?_, ?_⟩,
    length_storedValue .., whole⟩
  · rw [result]
    exact gapOpened.owned
  · exact fun i inside => untouched i (by omega)
  · rw [Wire.encodeOptions_append, List.append_assoc, Memory.holds_append, ← previousEq, ← positionEq,
      Wire.encodeOptions, List.append_assoc, Memory.holds_append, Wire.length_encodeOption, length_storedValue,
      ← headerEq, ← Nat.add_assoc]
    refine ⟨holds.1.congr fun i _ inside => untouched i (by omega), written, ?_⟩
    rw [Nat.add_assoc]
    exact gapOpened.behind.congr fun i outside _ => frame i (Or.inr (by omega))
  · have length : next.pduLength = gap.pduLength := by
      rw [result]
      rfl
    simp only [length, gapOpened.length_eq, Wire.encodeOptions_append, ← previousEq, Wire.encodeOptions,
      List.length_append, Wire.length_encodeOption, length_storedValue]
    omega
  · rw [result]
    simp only [gapOpened.facts.numOptions, notedCount]
  · rw [← positionEq, result]
    exact gapOpened.facts.maxAddedOptionNumber
  · rw [result]
    exact gapOpened.facts.payloadPointer.trans notedPointer
  · rw [result]
    exact gapOpened.facts.payloadLength.trans notedPayload

theorem Inserts.getTokenLength {this next : CoapPDU} {position number : Nat} {options : List Opt}
    {tail : List UInt8} (inserts : Inserts this next position number options tail) :
    next.getTokenLength = this.getTokenLength := by
  rw [CoapPDU.getTokenLength, CoapPDU.getTokenLength, inserts.header 0 (by omega)]

/-- The new option among those it is inserted into. -/
theorem representable_insert {before after : List Opt} {option : Opt}
    (representable : Wire.Representable (before ++ after))
    (bounds : option.number ≤ 65535 ∧ option.value.length ≤ 65535) :
    Wire.Representable (before ++ option :: after) := by
  intro other member
  cases List.mem_append.mp member with
  | inl inside => exact representable other (List.mem_append_left _ inside)
  | inr inside =>
    cases List.mem_cons.mp inside with
    | inl new =>
      rw [new]
      exact bounds
    | inr inside => exact representable other (List.mem_append_right _ inside)

theorem lastNumber_upTo_le (number : Nat) (options : List Opt) :
    Wire.lastNumber 0 (upTo number options) ≤ number :=
  Wire.lastNumber_le (Nat.zero_le _) fun _ member => upTo_le member

theorem insertBehind_upTo (option : Opt) (options : List Opt) :
    Wire.insertBehind Opt.number option options =
      upTo option.number options ++ option :: beyond option.number options :=
  Wire.insertBehind_eq Opt.number option options

/-- A successful call inserts the option behind those of a smaller or equal number; its value is
whole exactly when no tail is lost. -/
theorem addOption_spec {this next : CoapPDU} {grant : Option Realloc} {number : Nat}
    {value : List UInt8} {options : List Opt} (represents : this.Represents options)
    (bound : number ≤ 65535) (fits : this.TotalLengthFits number value)
    (success : this.addOption grant number value.length value = (0, next)) :
    ∃ stored, next.Represents (Wire.insertBehind Opt.number ⟨number, stored⟩ options) ∧
      (∀ i, i < 4 + this.getTokenLength → next.pdu i = this.pdu i) ∧
      stored.length = value.length ∧ (stored = value ↔ this.TailKept grant number value) := by
  have place := findInsertionPosition_spec represents number
  have splitting := (upTo_append_beyond number options).symm
  have ascending := represents.ascending
  have representable := represents.representable
  have lengthEq := represents.length_eq
  have low := lastNumber_upTo_le number options
  have high : Wire.Ascending number (beyond number options) := ascending_beyond ascending
  obtain ⟨stored, inserts, size, whole⟩ := addOption_inserts [] represents.owned (splitting ▸ representable) low
    high (fun _ => rfl) (by rw [← splitting, List.append_nil]; exact represents.holds)
    (by rw [← splitting, List.append_nil]; exact lengthEq) place bound fits success
  have holds := inserts.holds
  have length := inserts.length_eq
  have count := represents.numOptions_eq
  have maximum := represents.maximum
  rw [List.append_nil] at holds length
  rw [splitting, Wire.ascending_append] at ascending
  refine ⟨stored, ?_, inserts.header, size, whole⟩
  rw [insertBehind_upTo]
  refine ⟨inserts.owned, ?_, ?_, ?_, ?_, ?_, ?_, ?_, ?_⟩
  · rw [Wire.ascending_append]
    exact ⟨ascending.1, low, high⟩
  · exact representable_insert (splitting ▸ representable) ⟨bound, size ▸ fits.length_le⟩
  · rw [inserts.getTokenLength]
    exact holds
  · rw [inserts.getTokenLength]
    exact length
  · have counts := congrArg List.length splitting
    rw [inserts.numOptions_eq, count]
    simp only [List.length_append, List.length_cons] at counts ⊢
    omega
  · rw [inserts.maximum, Wire.lastNumber_append, Wire.lastNumber]
    rw [splitting, Wire.lastNumber_append] at maximum
    rw [splitting, Wire.encodeOptions_append, List.length_append, ← Nat.add_assoc] at lengthEq
    -- the maximum moves only when nothing lies behind
    cases behind : beyond number options with
    | nil =>
      rw [behind, Wire.encodeOptions, List.length_nil, Nat.add_zero] at lengthEq
      rw [noteMaximum, if_pos lengthEq.symm]
      rfl
    | cons first rest =>
      rw [behind, Wire.encodeOptions, List.length_append, Wire.length_encodeOption] at lengthEq
      rw [noteMaximum, if_neg (by omega), maximum, behind]
      rfl
  · exact inserts.pointer.trans represents.noPointer
  · exact inserts.payload.trans represents.noPayload

/-! ## Fresh PDUs -/

/-- A PDU before its first option, with a token or without. -/
inductive Fresh : CoapPDU → Prop
  | new (block : Nat) (memory : Memory) : Fresh (new block memory)
  | ofBuffer (block : Nat) (buffer : Memory) (bufferLength : Nat) :
      Fresh (ofBuffer block buffer bufferLength 0)
  | setType {this : CoapPDU} (type : MessageType) (fresh : Fresh this) : Fresh (this.setType type)
  | setCode {this : CoapPDU} (code : UInt8) (fresh : Fresh this) : Fresh (this.setCode code)
  | setMessageID {this : CoapPDU} (messageID : Nat) (fresh : Fresh this) :
      Fresh (this.setMessageID messageID)
  | setToken {this next : CoapPDU} {grant : Option Realloc} {token : List UInt8} (fresh : Fresh this)
      (size : token.length ≤ 8) (success : this.setToken grant token = (0, next)) : Fresh next

/-- The lower half of the first byte is all that the token length depends on. -/
theorem getTokenLength_congr {this other : CoapPDU}
    (same : Wire.lowerNibble (other.pdu 0) = Wire.lowerNibble (this.pdu 0)) :
    other.getTokenLength = this.getTokenLength := by
  rw [getTokenLength, getTokenLength, Wire.and_lowerNibble, Wire.and_lowerNibble, same]

/-- A PDU without options stands or falls with its length and its cached facts. -/
theorem represents_nil {this : CoapPDU} (owned : this.Owned) (lengthEq : this.pduLength = 4 + this.getTokenLength)
    (count : this.numOptions = 0) (maximum : this.maxAddedOptionNumber = 0)
    (noPointer : this.payloadPointer = none) (noPayload : this.payloadLength = 0) :
    this.Represents [] :=
  ⟨owned, trivial, (fun _ member => nomatch member), Memory.holds_nil .., lengthEq, count, maximum,
    noPointer, noPayload⟩

theorem getTokenLength_setTokenLength (this : CoapPDU) {tokenLength : Nat} (size : tokenLength ≤ 8) :
    (this.setTokenLength tokenLength).2.getTokenLength = tokenLength := by
  rw [setTokenLength, if_neg (show ¬ tokenLength > 8 by omega), getTokenLength, Wire.and_lowerNibble]
  simp only [Memory.store_same]
  rw [lowerNibble_update, show Wire.lowerNibble 0xF0 = 0 from rfl, Nat.and_zero, Nat.zero_or,
    Wire.lowerNibble, Wire.toNat_ofNat_of_lt (by omega)]
  omega

theorem represents_setTokenLength {this : CoapPDU} {tokenLength : Nat} (size : tokenLength ≤ 8)
    (owned : this.Owned) (lengthEq : this.pduLength = 4 + tokenLength) (count : this.numOptions = 0)
    (maximum : this.maxAddedOptionNumber = 0) (noPointer : this.payloadPointer = none)
    (noPayload : this.payloadLength = 0) :
    (this.setTokenLength tokenLength).2.Represents [] := by
  have changed := this.getTokenLength_setTokenLength size
  have facts : (this.setTokenLength tokenLength).2 = { this with
      pdu := (this.setTokenLength tokenLength).2.pdu } := by
    rw [setTokenLength, if_neg (show ¬ tokenLength > 8 by omega)]
  rw [facts] at changed ⊢
  exact represents_nil owned (by rw [changed]; exact lengthEq) count maximum noPointer noPayload

/-- Setting a token on a PDU without options moves nothing but its end. -/
theorem setToken_represents {this next : CoapPDU} {grant : Option Realloc} {token : List UInt8}
    (represents : this.Represents []) (small : this.getTokenLength ≤ 8) (size : token.length ≤ 8)
    (success : this.setToken grant token = (0, next)) :
    next.Represents [] ∧ next.getTokenLength = token.length := by
  have lengthEq : this.pduLength = 4 + this.getTokenLength := represents.length_eq
  have count := represents.numOptions_eq
  have maximum := represents.maximum
  have noPointer := represents.noPointer
  have noPayload := represents.noPayload
  have old : this.pduLength % 256 = this.pduLength := Nat.mod_eq_of_lt (by omega)
  have new : this.pduLength - this.getTokenLength + token.length = 4 + token.length := by omega
  simp only [setToken, old, new] at success
  split at success
  next => cases success
  next filled =>
    split at success
    -- a token of the same length is written over the old one
    next same =>
      simp only [Prod.mk.injEq, true_and] at success
      subst success
      have kept : getTokenLength { this with pdu := this.pdu.copy 4 token } = this.getTokenLength :=
        getTokenLength_congr
          (congrArg Wire.lowerNibble
            (@Memory.copy_outside this.pdu 4 0 token (Or.inl (Nat.zero_lt_succ 3))))
      exact ⟨represents_nil represents.owned (by rw [kept]; exact lengthEq) count maximum noPointer
        noPayload, by rw [kept]; exact same.symm⟩
    next other =>
      split at success
      -- a longer token needs space, a shorter one gives some back
      next bigger =>
        cases reservedEq : this.reserve grant (4 + token.length) with
        | none => simp [reservedEq] at success
        | some reserved =>
          simp only [reservedEq, Prod.mk.injEq, true_and] at success
          obtain ⟨newLength, facts, newOwned, _⟩ := reserve_spec represents.owned reservedEq
          rw [← success]
          exact ⟨represents_setTokenLength size newOwned newLength (facts.numOptions.trans count)
            (facts.maxAddedOptionNumber.trans maximum) (facts.payloadPointer.trans noPointer)
            (facts.payloadLength.trans noPayload), getTokenLength_setTokenLength _ size⟩
      next smaller =>
        split at success
        next => cases success
        next reserved reservedEq =>
          simp only [Prod.mk.injEq, true_and] at success
          have shrunk : this.constructedFromBuffer = false → 4 + token.length ≤ this.bufferLength :=
            fun dynamic => Nat.le_trans (Nat.le_of_not_lt smaller) (represents.owned dynamic)
          obtain ⟨newLength, facts, newOwned, _⟩ := shrink_spec (by exact shrunk) reservedEq
          rw [← success]
          exact ⟨represents_setTokenLength size newOwned newLength (facts.numOptions.trans count)
            (facts.maxAddedOptionNumber.trans maximum) (facts.payloadPointer.trans noPointer)
            (facts.payloadLength.trans noPayload), getTokenLength_setTokenLength _ size⟩

/-- The header of both constructors: version 1 and nothing else. -/
theorem setVersion_one (this : CoapPDU) :
    this.setVersion 1 = { this with
      pdu := this.pdu.store 0 ((this.pdu 0 &&& (0x3F : UInt8)) ||| (0x40 : UInt8)) } := by
  rw [setVersion, if_neg (by decide)]
  rfl

theorem represents_header (block : Nat) (memory : Memory) (constructedFromBuffer : Bool)
    (bufferLength : Nat) (owned : constructedFromBuffer = false → 4 ≤ bufferLength) :
    let header := setVersion ⟨block, memory.copy 0 [0, 0, 0, 0], 4, constructedFromBuffer, bufferLength,
      none, 0, 0, 0⟩ 1
    header.Represents [] ∧ header.getTokenLength = 0 := by
  simp only [setVersion_one]
  have tokenLength : getTokenLength ⟨block, (memory.copy 0 [0, 0, 0, 0]).store 0
      ((memory.copy 0 [0, 0, 0, 0] 0 &&& (0x3F : UInt8)) ||| (0x40 : UInt8)), 4, constructedFromBuffer,
      bufferLength, none, 0, 0, 0⟩ = 0 := by
    rw [getTokenLength, Wire.and_lowerNibble]
    simp only [Memory.store_same]
    rw [lowerNibble_update_upper _ rfl rfl]
    rfl
  exact ⟨represents_nil owned (by rw [tokenLength]) rfl rfl rfl rfl, tokenLength⟩

theorem Fresh.represents {this : CoapPDU} (fresh : this.Fresh) :
    this.Represents [] ∧ this.getTokenLength ≤ 8 := by
  induction fresh with
  | new block memory =>
    obtain ⟨represents, tokenLength⟩ := represents_header block memory false 4 fun _ => Nat.le_refl 4
    exact ⟨represents, Nat.le_trans (Nat.le_of_eq tokenLength) (Nat.zero_le 8)⟩
  | ofBuffer block buffer bufferLength =>
    obtain ⟨represents, tokenLength⟩ :=
      represents_header block buffer true bufferLength fun dynamic => nomatch dynamic
    exact ⟨represents, Nat.le_trans (Nat.le_of_eq tokenLength) (Nat.zero_le 8)⟩
  | @setType this type _ inductionHypothesis =>
    obtain ⟨represents, small⟩ := inductionHypothesis
    have kept : (this.setType type).getTokenLength = this.getTokenLength := by
      apply getTokenLength_congr
      simp only [CoapPDU.setType, Memory.store_same]
      exact lowerNibble_update_upper _ rfl (by cases type <;> rfl)
    exact ⟨represents_nil represents.owned (kept ▸ represents.length_eq) represents.numOptions_eq
      represents.maximum represents.noPointer represents.noPayload, kept ▸ small⟩
  | @setCode this code _ inductionHypothesis =>
    obtain ⟨represents, small⟩ := inductionHypothesis
    exact ⟨represents_nil represents.owned represents.length_eq represents.numOptions_eq
      represents.maximum represents.noPointer represents.noPayload, small⟩
  | @setMessageID this messageID _ inductionHypothesis =>
    obtain ⟨represents, small⟩ := inductionHypothesis
    exact ⟨represents_nil represents.owned represents.length_eq represents.numOptions_eq
      represents.maximum represents.noPointer represents.noPayload, small⟩
  | setToken _ size success inductionHypothesis =>
    obtain ⟨represents, small⟩ := inductionHypothesis
    obtain ⟨after, length⟩ := setToken_represents represents small size success
    exact ⟨after, length ▸ size⟩

/-! ## A run of calls -/

/-- One call of `addOption`: what is added and what the allocator does. -/
structure Addition where
  number : Nat
  value : List UInt8
  grant : Option Realloc

def Addition.option (addition : Addition) : Opt := ⟨addition.number, addition.value⟩

/-- Successful calls lead from one PDU to another. -/
inductive Adds : CoapPDU → List Addition → CoapPDU → Prop
  | nil (this : CoapPDU) : Adds this [] this
  | cons {this next final : CoapPDU} {addition : Addition} {rest : List Addition}
      (bound : addition.number ≤ 65535)
      (fits : this.TotalLengthFits addition.number addition.value)
      (success : this.addOption addition.grant addition.number addition.value.length
        addition.value = (0, next))
      (behind : Adds next rest final) : Adds this (addition :: rest) final

/-- A call that returns 0 goes on from the PDU it returns. -/
theorem Adds.of_zero {this final : CoapPDU} {addition : Addition} {rest : List Addition}
    (bound : addition.number ≤ 65535)
    (fits : this.TotalLengthFits addition.number addition.value)
    (success : (this.addOption addition.grant addition.number addition.value.length
      addition.value).1 = 0)
    (behind : Adds (this.addOption addition.grant addition.number addition.value.length
      addition.value).2 rest final) : Adds this (addition :: rest) final :=
  .cons bound fits (Prod.ext success rfl) behind

/-- Each call of the run finds the tail of its value in place, if it has one. -/
def TailsKept (this : CoapPDU) : List Addition → Prop
  | [] => True
  | addition :: rest =>
    this.TailKept addition.grant addition.number addition.value ∧
      TailsKept (this.addOption addition.grant addition.number addition.value.length
        addition.value).2 rest

/-- Induction on the run, next to the list that ought to be there: the invariant is that the two
lists have the same numbers in the same places. -/
theorem Adds.represents {this final : CoapPDU} {additions : List Addition} (adds : Adds this additions final)
    {options wanted : List Opt} (represents : this.Represents options)
    (numbers : options.map Opt.number = wanted.map Opt.number) :
    ∃ result, final.Represents result ∧ result.length = options.length + additions.length ∧
      (result = additions.foldl (fun sorted addition =>
          Wire.insertBehind Opt.number addition.option sorted) wanted ↔
        options = wanted ∧ this.TailsKept additions) := by
  induction adds generalizing options wanted with
  | nil this => exact ⟨options, represents, rfl, by simp [TailsKept]⟩
  | @cons this next final addition rest bound fits success _ inductionHypothesis =>
    obtain ⟨stored, nextRepresents, _, _, whole⟩ := addOption_spec represents bound fits success
    have sameNumber : Opt.number ⟨addition.number, stored⟩ = addition.option.number := rfl
    obtain ⟨result, finalRepresents, count, exact⟩ :=
      inductionHypothesis nextRepresents (Wire.map_insertBehind Opt.number sameNumber numbers)
    refine ⟨result, finalRepresents, ?_, ?_⟩
    · rw [count, Wire.length_insertBehind, List.length_cons, Nat.add_assoc, Nat.add_comm 1]
    · rw [List.foldl_cons, exact, Wire.insertBehind_inj Opt.number sameNumber numbers, TailsKept,
        success, ← whole, Addition.option, Opt.mk.injEq]
      simp only [true_and]
      exact and_assoc.trans and_left_comm

/-- After any sequence of successful calls on a fresh PDU, the options are those added in stable
order, each with its whole value, exactly when no call loses the tail of its value. -/
theorem addOptions_sorted_iff {this final : CoapPDU} {additions : List Addition} (fresh : this.Fresh)
    (adds : Adds this additions final) :
    (final.readOptions = (additions.map Addition.option).insertionSort
        (fun left right => left.number ≤ right.number) ∧
      final.getNumOptions = additions.length) ↔
    this.TailsKept additions := by
  obtain ⟨represents, _⟩ := fresh.represents
  obtain ⟨result, finalRepresents, count, exact⟩ := adds.represents represents (Eq.refl ([].map Opt.number))
  rw [finalRepresents.readOptions_eq, getNumOptions, finalRepresents.numOptions_eq, count,
    ← Wire.foldl_insertBehind, List.foldl_map, exact]
  simp

/-- A content format added in front of a path segment goes behind it. -/
theorem addOptions_sorted_iff_twoOptions :
    ∃ this final additions, additions.length = 2 ∧ this.Fresh ∧ Adds this additions final ∧
      ((final.readOptions = (additions.map Addition.option).insertionSort
          (fun left right => left.number ≤ right.number) ∧
        final.getNumOptions = additions.length) ↔ this.TailsKept additions) := by
  have adds : Adds (new 0 fun _ => 0)
      [⟨12, [50], some ⟨1, fun _ => 0⟩⟩, ⟨11, [97], some ⟨2, fun _ => 0⟩⟩] _ :=
    .of_zero (by decide) (by decide) rfl (.of_zero (by decide) (by decide) rfl (.nil _))
  exact ⟨_, _, _, rfl, .new 0 _, adds, addOptions_sorted_iff (.new 0 _) adds⟩

/-- A value of 269 bytes on a zeroed heap: none of its bytes is copied. -/
theorem addOption_loses_tail :
    ¬ ∀ (this final : CoapPDU) (additions : List Addition), this.Fresh → Adds this additions final →
      final.readOptions = (additions.map Addition.option).insertionSort
          (fun left right => left.number ≤ right.number) ∧
        final.getNumOptions = additions.length := by
  intro claimed
  -- of 269 bytes none is copied, so the first one, a 1, is read as what the gap held, a 0
  obtain ⟨value, size, tail, valueEq⟩ : ∃ value : List UInt8, value.length = 269 ∧
      ∃ tail, value = 1 :: tail :=
    ⟨1 :: List.replicate 268 1, by rw [List.length_cons, List.length_replicate], _, rfl⟩
  obtain ⟨this, thisEq⟩ : ∃ this, this = new 0 fun _ => 0 := ⟨_, rfl⟩
  have fresh : this.Fresh := thisEq ▸ .new 0 _
  have fits : this.TotalLengthFits 11 value := by
    rw [TotalLengthFits, size, thisEq]
    decide
  have success : (this.addOption (some ⟨1, fun _ => 0⟩) 11 value.length value).1 = 0 := by
    rw [thisEq]
    rfl
  obtain ⟨stored, represents, _, _, whole⟩ :=
    addOption_spec fresh.represents.1 (by decide) fits (Prod.ext success rfl)
  have read := (claimed this _ [⟨11, value, some ⟨1, fun _ => 0⟩⟩] fresh
    (.of_zero (show 11 ≤ 65535 by decide) fits success (.nil _))).1
  rw [represents.readOptions_eq] at read
  have same : stored = value := by simpa [Wire.insertBehind, Addition.option] using read
  rcases whole.mp same with short | ⟨gap, opened, holds⟩
  · omega
  · -- the gap lies in fresh memory
    rw [size, Nat.sub_self, List.drop_zero, valueEq, Memory.holds_cons, thisEq] at holds
    rw [size, thisEq] at opened
    have written : gap.pdu 7 = 1 := holds.1
    have zeroed : gap.pdu 7 = 0 := by
      cases opened
      rfl
    exact absurd (zeroed.symm.trans written) (by decide)

end CoapPDU

end SmingCoap
