import Mathlib.Logic.Relation
import SmingCoap.Client.Pdu
import SmingCoap.Wire.Cursor

/-! # What `validate` accepts

`validate` reads option deltas, value lengths and the running option number
into 16-bit variables and takes the extension widths from the reduced values,
so an option past 65535 is misread rather than refused.  `Cursor` is the
position of the loop, `Reads` one turn of it, and `validateLoop_iff` says that
the loop accepts exactly when `Reads` leads from the first option to the end.

A run that meets no `Overflows` spells a message of the format
(`message_of_path`), and a message of the format is read without overflow
(`Parses.validate`), so the two notions of well-formedness part exactly at a
`Misread`.
-/

namespace SmingCoap

open Wire (Memory Opt Cursor Finishes Spelled)
open Relation (ReflTransGen)

namespace CoapPDU

/-! ## The readers in terms of the format -/

theorem shiftRight_and (byte : UInt8) : ((byte &&& 0xF0) >>> 4).toNat = Wire.upperNibble byte := by
  have bound := byte.toNat_lt
  rw [UInt8.toNat_shiftRight, UInt8.toNat_and]
  simp only [UInt8.reduceToNat, Nat.reduceMod, Nat.shiftRight_and_distrib]
  rw [show 240 >>> 4 = 2 ^ 4 - 1 from rfl, Nat.and_two_pow_sub_one_eq_mod, Nat.shiftRight_eq_div_pow,
    Wire.upperNibble]
  omega

theorem endianLoad16_eq (source : Memory) :
    endianLoad16 source = Wire.bigEndian16 (source 0) (source 1) :=
  Wire.toNat_shiftLeft_or _ _

theorem computeExtraBytes_eq (n : Nat) : computeExtraBytes n = Wire.extra n := rfl

theorem getOptionDelta_eq (memory : Memory) (position : Nat)
    (upper : Wire.upperNibble (memory position) ≤ 14) :
    getOptionDelta (memory.offset position) = Wire.deltaAt memory position % 65536 := by
  have oneBound := (memory (position + 1)).toNat_lt
  simp only [getOptionDelta, shiftRight_and, endianLoad16_eq, Memory.offset_apply, Nat.add_zero,
    Wire.deltaAt, Wire.extended]
  split
  · omega
  · split
    · omega
    · rw [if_pos (by omega)]

/-- Where the length bytes start: behind those of the delta. -/
theorem lengthOffset_eq {delta : Nat} (upper : delta ≤ 14) :
    (if delta = 13 then 2 else if delta = 14 then 3 else 1) = 1 + Wire.width delta := by
  unfold Wire.width
  split
  · simp [*]
  · split <;> split <;> omega

theorem getOptionValueLength_eq (memory : Memory) (position : Nat)
    (upper : Wire.upperNibble (memory position) ≤ 14)
    (lower : Wire.lowerNibble (memory position) ≤ 14) :
    getOptionValueLength (memory.offset position) = Wire.lengthAt memory position % 65536 := by
  simp only [getOptionValueLength, shiftRight_and, Wire.and_lowerNibble, endianLoad16_eq,
    Memory.offset_apply, Nat.add_zero, lengthOffset_eq upper, Wire.lengthAt, Wire.extended, ← Nat.add_assoc]
  have oneBound := (memory (position + 1 + Wire.width (Wire.upperNibble (memory position)))).toNat_lt
  split
  · omega
  · split
    · omega
    · rfl

end CoapPDU

/-! ## The loop as a relation on cursors -/

/-- The cursor behind the option at `cursor`, all numbers reduced to 16 bits and the
extension widths taken from the reduced numbers. -/
def advance (memory : Memory) (cursor : Cursor) : Cursor :=
  let delta := Wire.deltaAt memory cursor.position % 65536
  let length := Wire.lengthAt memory cursor.position % 65536
  ⟨cursor.position + (1 + Wire.extra delta + Wire.extra length + length),
    (cursor.number + delta) % 65536⟩

/-- One turn of the loop that goes on to the next option. -/
structure Reads (memory : Memory) (stop : Nat) (cursor next : Cursor) : Prop where
  inside : cursor.position < stop
  upper : Wire.upperNibble (memory cursor.position) ≤ 14
  lower : Wire.lowerNibble (memory cursor.position) ≤ 14
  announced : cursor.position + 1 + Wire.extra (Wire.upperNibble (memory cursor.position)) +
    Wire.extra (Wire.lowerNibble (memory cursor.position)) ≤ stop
  next_eq : next = advance memory cursor
  room : next.position ≤ stop

/-- The option at the cursor has a delta, a value length or a number beyond 65535. -/
def Overflows (memory : Memory) (cursor : Cursor) : Prop :=
  Wire.deltaAt memory cursor.position > 65535 ∨ Wire.lengthAt memory cursor.position > 65535 ∨
    cursor.number + Wire.deltaAt memory cursor.position > 65535

theorem Reads.not_marker {memory : Memory} {stop : Nat} {cursor next : Cursor}
    (reads : Reads memory stop cursor next) : memory cursor.position ≠ 0xFF :=
  Wire.ne_marker_of_upperNibble reads.upper

theorem Reads.not_finishes {memory : Memory} {stop : Nat} {cursor next : Cursor}
    (reads : Reads memory stop cursor next) : ¬ Finishes memory stop cursor.position := by
  rintro (atEnd | ⟨marker, _⟩)
  · exact absurd reads.inside (by omega)
  · exact reads.not_marker marker

theorem Reads.lt {memory : Memory} {stop : Nat} {cursor next : Cursor}
    (reads : Reads memory stop cursor next) : cursor.position < next.position := by
  rw [reads.next_eq, advance]
  simp only
  omega

/-- `Reads` is a function of the cursor. -/
theorem Reads.unique {memory : Memory} {stop : Nat} {cursor first second : Cursor}
    (left : Reads memory stop cursor first) (right : Reads memory stop cursor second) :
    first = second := by
  rw [left.next_eq, right.next_eq]

/-! ## The loop accepts what `Reads` leads to the end -/

namespace CoapPDU

theorem validateLoop_atEnd (this : CoapPDU) (fuel number numOptions : Nat) :
    validateLoop (fuel + 1) this this.pduLength 0 number numOptions =
      (1, { this with payloadPointer := none, payloadLength := 0, numOptions }) := by
  simp [validateLoop]

theorem validateLoop_atMarker (this : CoapPDU) (fuel position number numOptions : Nat)
    (marker : this.pdu position = 0xFF) (filled : position + 1 < this.pduLength) :
    validateLoop (fuel + 1) this position (this.pduLength - position) number numOptions =
      (1, { this with
        payloadPointer := some ⟨this.block, position + 1⟩
        payloadLength := this.pduLength - position - 1
        numOptions }) := by
  have lengthEq : ((this.pduLength : Int) - position - 1).toNat = this.pduLength - position - 1 := by
    omega
  rw [validateLoop, if_pos (by omega), if_pos marker, if_pos (by omega), lengthEq]

theorem validateLoop_reads (this : CoapPDU) (fuel numOptions : Nat) {cursor next : Cursor}
    (reads : Reads this.pdu this.pduLength cursor next) :
    validateLoop (fuel + 1) this cursor.position (this.pduLength - cursor.position) cursor.number
        numOptions =
      validateLoop fuel this next.position (this.pduLength - next.position) next.number
        (numOptions + 1) := by
  have inside := reads.inside
  have upper := reads.upper
  have lower := reads.lower
  have announced := reads.announced
  have room := reads.room
  simp only [reads.next_eq, advance] at room ⊢
  rw [validateLoop, if_pos (by omega), if_neg reads.not_marker]
  simp only [shiftRight_and, Wire.and_lowerNibble, computeExtraBytes_eq,
    getOptionDelta_eq this.pdu _ upper, getOptionValueLength_eq this.pdu _ upper lower]
  rw [if_neg (by omega), if_neg (by omega), if_neg (by omega), if_neg (by omega)]
  congr 1
  omega

theorem validateLoop_stuck (this : CoapPDU) (fuel numOptions : Nat) {cursor : Cursor}
    (within : cursor.position ≤ this.pduLength)
    (unfinished : ¬ Finishes this.pdu this.pduLength cursor.position)
    (stuck : ∀ next, ¬ Reads this.pdu this.pduLength cursor next) :
    (validateLoop (fuel + 1) this cursor.position (this.pduLength - cursor.position) cursor.number
      numOptions).1 = 0 := by
  have inside : cursor.position < this.pduLength := by
    have notEnd : cursor.position ≠ this.pduLength := fun atEnd => unfinished (Or.inl atEnd)
    omega
  rw [validateLoop, if_pos (by omega)]
  simp only
  split
  · next marker =>
    rw [if_neg]
    intro filled
    exact unfinished (Or.inr ⟨marker, by omega⟩)
  · simp only [shiftRight_and, Wire.and_lowerNibble, computeExtraBytes_eq]
    split
    · rfl
    · next halves =>
      have upperBound := Wire.upperNibble_lt (this.pdu cursor.position)
      have lowerBound := Wire.lowerNibble_lt (this.pdu cursor.position)
      split
      · rfl
      · split
        · rfl
        · next announced =>
          refine congrArg Prod.fst (if_pos ?_)
          -- with room for the option `Reads` would go on
          by_contra room
          rw [getOptionDelta_eq this.pdu _ (by omega),
            getOptionValueLength_eq this.pdu _ (by omega) (by omega)] at room
          refine stuck (advance this.pdu cursor) ⟨inside, by omega, by omega, by omega, rfl, ?_⟩
          simp only [advance]
          omega

theorem validateLoop_finishes (this : CoapPDU) (fuel position number numOptions : Nat)
    (finishes : Finishes this.pdu this.pduLength position) :
    validateLoop (fuel + 1) this position (this.pduLength - position) number numOptions =
      (1, { this with
        payloadPointer :=
          if position = this.pduLength then none else some ⟨this.block, position + 1⟩
        payloadLength := this.pduLength - position - 1
        numOptions }) := by
  rcases finishes with atEnd | ⟨marker, filled⟩
  · rw [atEnd, Int.sub_self, validateLoop_atEnd, if_pos rfl, Nat.sub_self]
  · rw [validateLoop_atMarker this fuel _ _ _ marker filled, if_neg (by omega)]

/-- The loop accepts exactly when the options lead to the end of the PDU. -/
theorem validateLoop_iff (this : CoapPDU) (fuel numOptions : Nat) (cursor : Cursor)
    (within : cursor.position ≤ this.pduLength) (enough : this.pduLength - cursor.position < fuel) :
    (validateLoop fuel this cursor.position (this.pduLength - cursor.position) cursor.number
        numOptions).1 = 1 ↔
      ∃ last, ReflTransGen (Reads this.pdu this.pduLength) cursor last ∧
        Finishes this.pdu this.pduLength last.position := by
  -- induction on the fuel; every read moves on, so the fuel is enough
  induction fuel generalizing cursor numOptions with
  | zero => omega
  | succ fuel inductionHypothesis =>
    by_cases finishes : Finishes this.pdu this.pduLength cursor.position
    · constructor
      · intro _
        exact ⟨cursor, .refl, finishes⟩
      · intro _
        rw [validateLoop_finishes this fuel _ _ _ finishes]
    -- at most one option can be read at a place, so the path is unique
    · by_cases readable : ∃ next, Reads this.pdu this.pduLength cursor next
      · obtain ⟨next, reads⟩ := readable
        have progress := reads.lt
        have room := reads.room
        rw [validateLoop_reads _ _ _ reads, inductionHypothesis _ next room (by omega)]
        constructor
        · rintro ⟨last, path, ends⟩
          exact ⟨last, .head reads path, ends⟩
        · rintro ⟨last, path, ends⟩
          cases path using ReflTransGen.head_induction_on with
          | refl => exact absurd ends finishes
          | head first rest => exact ⟨last, first.unique reads ▸ rest, ends⟩
      · rw [validateLoop_stuck _ _ _ within finishes (not_exists.mp readable)]
        constructor
        · intro impossible
          omega
        · rintro ⟨last, path, ends⟩
          cases path using ReflTransGen.head_induction_on with
          | refl => exact absurd ends finishes
          | head first _ => exact absurd ⟨_, first⟩ readable

end CoapPDU

/-! ## `validate` as a reader of the format -/

/-- Where nothing overflows, the next cursor is the one behind the option. -/
theorem advance_exact {memory : Memory} {cursor : Cursor} (upper : Wire.upperNibble (memory cursor.position) ≤ 14)
    (lower : Wire.lowerNibble (memory cursor.position) ≤ 14) (exact : ¬ Overflows memory cursor) :
    advance memory cursor = Wire.behind memory cursor := by
  simp only [Overflows] at exact
  rw [advance, Wire.behind, Wire.headerSize_eq upper lower, Nat.mod_eq_of_lt (by omega),
    Nat.mod_eq_of_lt (by omega)]
  simp only [Cursor.mk.injEq, true_and]
  omega

/-- The loop reads an option where one was written. -/
theorem reads_of_optionAt {memory : Memory} {position number stop : Nat} {option : Opt}
    (low : number ≤ option.number) (numberBound : option.number ≤ 65535)
    (lengthBound : option.value.length ≤ 65535)
    (written : Wire.OptionAt memory position (option.number - number) option.value)
    (room : position + (Wire.encodeOption (option.number - number) option.value).length ≤ stop) :
    ¬ Overflows memory ⟨position, number⟩ ∧
      Reads memory stop ⟨position, number⟩
        ⟨position + (Wire.encodeOption (option.number - number) option.value).length,
          option.number⟩ := by
  have deltaEq := written.delta_eq
  have lengthEq := written.length_eq
  rw [Wire.length_encodeOption] at room ⊢
  have upperExtra := Wire.extra_nibble_le (option.number - number)
  have lowerExtra := Wire.extra_nibble_le option.value.length
  refine ⟨?_, ?_, ?_, ?_, ?_, ?_, ?_⟩
  · simp only [Overflows, deltaEq, lengthEq]
    omega
  · simp only
    omega
  · rw [written.upper]
    exact Wire.nibble_le _
  · rw [written.lower]
    exact Wire.nibble_le _
  · simp only [written.upper, written.lower]
    omega
  · simp only [advance, deltaEq, lengthEq]
    rw [Nat.mod_eq_of_lt (by omega), Nat.mod_eq_of_lt (by omega), Nat.mod_eq_of_lt (by omega),
      Nat.add_sub_of_le low]
  · exact room

/-- The option loop; it has no limit of its own. -/
def reader (memory : Memory) (stop : Nat) : Wire.Reader memory stop where
  step := Reads memory stop
  overflows := Overflows memory
  admits _ := True
  unique _ _ _ left right := left.unique right
  unfinished _ _ reads := reads.not_finishes
  upper _ _ reads := reads.upper
  lower _ _ reads := reads.lower
  exact cursor next reads exact := by
    have nextEq := reads.next_eq
    rw [advance_exact reads.upper reads.lower exact] at nextEq
    simp only [Overflows] at exact
    exact ⟨nextEq, by omega, by omega, trivial⟩
  reads _ _ _ low numberBound lengthBound _ written room :=
    reads_of_optionAt low numberBound lengthBound written room

/-- An option beyond 65535 is read on the way from `start` to the end. -/
def Misread (memory : Memory) (stop start : Nat) : Prop :=
  ∃ last, (reader memory stop).Stray ⟨start, 0⟩ last ∧ Finishes memory stop last.position

namespace CoapPDU

/-- Over a written list of options the loop takes one turn an option and counts them. -/
theorem validateLoop_options (this : CoapPDU) (fuel position number numOptions : Nat)
    (options : List Opt) (ascending : Wire.Ascending number options)
    (representable : Wire.Representable options)
    (holds : this.pdu.Holds position (Wire.encodeOptions number options))
    (room : position + (Wire.encodeOptions number options).length ≤ this.pduLength) :
    validateLoop (fuel + options.length) this position (this.pduLength - position) number numOptions =
      validateLoop fuel this (position + (Wire.encodeOptions number options).length)
        (this.pduLength - (position + (Wire.encodeOptions number options).length : Nat))
        (Wire.lastNumber number options) (numOptions + options.length) := by
  induction options generalizing position number numOptions with
  | nil => rfl
  | cons option rest inductionHypothesis =>
    obtain ⟨⟨_, reads⟩, restHolds, restRoom⟩ := (reader this.pdu this.pduLength).cons ascending
      representable (fun _ _ => trivial) holds room
    have turn := validateLoop_reads this (fuel + rest.length) numOptions reads
    have behind := inductionHypothesis _ _ (numOptions + 1) ascending.2 representable.tail restHolds restRoom
    rw [List.length_cons, ← Nat.add_assoc, turn, behind, Wire.encodeOptions, List.length_append,
      Wire.lastNumber, Nat.add_assoc position, Nat.add_assoc numOptions, Nat.add_comm 1]

end CoapPDU

/-! ## The header -/

namespace CoapPDU

/-- What `validate` checks before it turns to the options. -/
structure HeaderAccepted (memory : Memory) (length : Nat) : Prop where
  size : 4 ≤ length
  version : (memory 0).toNat / 64 = 1
  tokenLength : (memory 0).toNat % 16 ≤ 8
  token : 4 + (memory 0).toNat % 16 ≤ length
  code : validCode (memory 1) = true

theorem getVersion_eq (this : CoapPDU) : this.getVersion.toNat = (this.pdu 0).toNat / 64 := by
  have bound := (this.pdu 0).toNat_lt
  rw [getVersion, UInt8.toNat_shiftRight, UInt8.toNat_and]
  simp only [UInt8.reduceToNat, Nat.reduceMod, Nat.shiftRight_and_distrib]
  rw [show 192 >>> 6 = 2 ^ 2 - 1 from rfl, Nat.and_two_pow_sub_one_eq_mod, Nat.shiftRight_eq_div_pow]
  omega

theorem getTokenLength_eq (this : CoapPDU) : this.getTokenLength = (this.pdu 0).toNat % 16 :=
  Wire.and_lowerNibble _

theorem getVersion_eq_one (this : CoapPDU) : this.getVersion = 1 ↔ (this.pdu 0).toNat / 64 = 1 := by
  rw [← getVersion_eq, ← UInt8.toNat_inj]
  rfl

theorem validate_of_header (this : CoapPDU) (header : HeaderAccepted this.pdu this.pduLength) :
    this.validate =
      if 4 + (this.pdu 0).toNat % 16 = this.pduLength then
        (1, { this with numOptions := 0, payloadLength := 0 })
      else
        validateLoop (this.pduLength + 1) this (4 + (this.pdu 0).toNat % 16)
          (this.pduLength - (4 + (this.pdu 0).toNat % 16 : Nat)) 0 0 := by
  have size := header.size
  have tokenLength := header.tokenLength
  have token := header.token
  have version := this.getVersion_eq_one.mpr header.version
  have code : validCode this.getCode = true := header.code
  simp only [validate, getTokenLength_eq, hdrSize, code]
  rw [if_neg (by omega), if_neg (not_not.mpr version), if_neg (by omega), if_neg (by omega),
    if_neg (by decide)]

theorem validate_rejects (this : CoapPDU) (header : ¬ HeaderAccepted this.pdu this.pduLength) :
    this.validate.1 = 0 := by
  rw [validate]
  split
  · rfl
  · split
    · rfl
    · next size version =>
      simp only [getTokenLength_eq, hdrSize]
      split
      · rfl
      · split
        · rfl
        · split
          · rfl
          · next tokenLength token code =>
            refine absurd ⟨by omega, ?_, by omega, by omega, ?_⟩ header
            · exact this.getVersion_eq_one.mp (not_not.mp version)
            · exact eq_true_of_ne_false code

/-- `validate` accepts exactly when the header is accepted and the options lead to the end. -/
theorem validate_iff (this : CoapPDU) :
    this.validate.1 = 1 ↔ HeaderAccepted this.pdu this.pduLength ∧
      ∃ last, ReflTransGen (Reads this.pdu this.pduLength) ⟨4 + (this.pdu 0).toNat % 16, 0⟩ last ∧
        Finishes this.pdu this.pduLength last.position := by
  by_cases header : HeaderAccepted this.pdu this.pduLength
  · have token := header.token
    rw [this.validate_of_header header]
    split
    · next atEnd =>
      constructor
      · intro _
        exact ⟨header, _, .refl, Or.inl atEnd⟩
      · intro _
        rfl
    · rw [validateLoop_iff this _ 0 ⟨_, 0⟩ token (by simp only; omega)]
      exact ⟨fun accepted => ⟨header, accepted⟩, fun accepted => accepted.2⟩
  · rw [this.validate_rejects header]
    constructor
    · intro impossible
      omega
    · intro accepted
      exact absurd accepted.1 header

end CoapPDU

/-! ## Exactness -/

namespace CoapPDU

/-- `message` is the parse of `bytes` that `validate` stands for. -/
def Parses (bytes : List UInt8) (message : Wire.Message) : Prop :=
  message.Fits ∧ validCode message.code = true ∧ message.encode = bytes

/-- `validate` decides well-formedness of `bytes` and caches the facts of the parse, whatever
lies behind the bytes. -/
def ValidateExact (bytes : List UInt8) : Prop :=
  ∀ (block : Nat) (memory : Memory), memory.Holds 0 bytes →
    let result := (ofBytes block memory bytes.length).validate
    (result.1 = 1 ↔ ∃ message, Parses bytes message) ∧
      ∀ message, result.1 = 1 → Parses bytes message →
        result.2.numOptions = message.options.length ∧
        result.2.payloadLength = message.payload.length ∧
        result.2.payloadPointer =
          if message.payload = [] then none
          else some ⟨block, bytes.length - message.payload.length⟩

/-- The bytes hold no option past 65535 on a path that `validate` follows to the end. -/
def NoneMisread (bytes : List UInt8) : Prop :=
  ∀ memory : Memory, memory.Holds 0 bytes → HeaderAccepted memory bytes.length →
    ¬ Misread memory bytes.length (4 + (memory 0).toNat % 16)

theorem ofBytes_of_ne {bytes : List UInt8} (filled : bytes ≠ []) (block : Nat) (memory : Memory) :
    ofBytes block memory bytes.length =
      { block, pdu := memory, pduLength := bytes.length, constructedFromBuffer := true
        bufferLength := bytes.length, payloadPointer := none, payloadLength := 0, numOptions := 0
        maxAddedOptionNumber := 0 } := by
  rw [ofBytes, ofBuffer, if_neg (fun zero => filled (List.eq_nil_of_length_eq_zero zero))]

theorem Parses.ne_nil {bytes : List UInt8} {message : Wire.Message} (parses : Parses bytes message) :
    bytes ≠ [] := by
  rintro rfl
  have size := message.length_encode
  rw [parses.2.2, List.length_nil] at size
  omega

/-- A message of the format passes the header checks. -/
theorem Parses.header {bytes : List UInt8} {message : Wire.Message} (parses : Parses bytes message)
    {memory : Memory} (holds : memory.Holds 0 bytes) :
    HeaderAccepted memory bytes.length ∧ (memory 0).toNat % 16 = message.token.length := by
  obtain ⟨fits, code, rfl⟩ := parses
  have written := Wire.holds_encode fits holds
  have size := message.length_encode
  have tokenLength := written.tokenLength
  have tokenBound := fits.token
  exact ⟨⟨by omega, written.version, by omega, by omega, written.code ▸ code⟩, tokenLength⟩

/-- The options of a written message lead to its end. -/
theorem Parses.finishes {bytes : List UInt8} {message : Wire.Message} (parses : Parses bytes message)
    {memory : Memory} (holds : memory.Holds 0 bytes) :
    Finishes memory bytes.length
      (4 + message.token.length + (Wire.encodeOptions 0 message.options).length) := by
  obtain ⟨fits, _, rfl⟩ := parses
  have written := Wire.holds_encode fits holds
  have size := message.length_encode
  by_cases filled : message.payload = []
  · rw [filled, Wire.payloadSection_nil, List.length_nil] at size
    exact Or.inl size.symm
  · have payload := written.payload
    rw [Wire.payloadSection_of_ne filled, Memory.holds_cons] at payload
    rw [Wire.payloadSection_of_ne filled, List.length_cons] at size
    have nonempty := List.length_pos_iff.mpr filled
    exact Or.inr ⟨payload.1, by omega⟩

/-- A message of the format is read option by option, and nothing on the way overflows. -/
theorem Parses.not_misread {bytes : List UInt8} {message : Wire.Message}
    (parses : Parses bytes message) {memory : Memory} (holds : memory.Holds 0 bytes) :
    ¬ Misread memory bytes.length (4 + (memory 0).toNat % 16) := by
  intro misread
  obtain ⟨_, ⟨stray, next, path, overflows, reads, _⟩, _⟩ := misread
  have finishes := parses.finishes holds
  rw [(parses.header holds).2] at path
  obtain ⟨fits, _, rfl⟩ := parses
  have written := Wire.holds_encode fits holds
  have size := message.length_encode
  exact (reader memory message.encode.length).not_overflows_of_holds message.options _ 0 fits.ascending
    fits.options (fun _ _ => trivial) written.options (by omega) finishes path reads overflows

/-- What `validate` caches of a message.  With neither options nor payload it leaves the pointer as it
was. -/
def cached (this : CoapPDU) (message : Wire.Message) : CoapPDU :=
  { this with
    numOptions := message.options.length
    payloadLength := message.payload.length
    payloadPointer :=
      if message.options = [] ∧ message.payload = [] then this.payloadPointer
      else if message.payload = [] then none
      else some ⟨this.block, this.pduLength - message.payload.length⟩ }

/-- `validate` accepts a message of the format in any container and caches its parse. -/
theorem Parses.validate_eq {bytes : List UInt8} {message : Wire.Message} (parses : Parses bytes message)
    {this : CoapPDU} (holds : this.pdu.Holds 0 bytes) (length : this.pduLength = bytes.length) :
    this.validate = (1, this.cached message) := by
  obtain ⟨header, tokenLength⟩ := parses.header holds
  have finishes := parses.finishes holds
  rw [← length] at header finishes
  rw [validate_of_header _ header]
  obtain ⟨fits, _, rfl⟩ := parses
  have written := Wire.holds_encode fits holds
  have size := message.length_encode
  simp only [tokenLength]
  split
  · next atEnd =>
    have noOptions : message.options = [] := by
      cases optionsEq : message.options with
      | nil => rfl
      | cons option rest =>
        rw [optionsEq, Wire.encodeOptions, List.length_append, Wire.length_encodeOption] at size
        omega
    have noPayload : message.payload = [] := by
      by_contra filled
      rw [Wire.payloadSection_of_ne filled, List.length_cons] at size
      omega
    simp [cached, noOptions, noPayload]
  -- as many turns as there are options, and one more for the marker or the end
  · next inside =>
    have enough := Wire.length_le_encodeOptions 0 message.options
    obtain ⟨fuel, fuelEq⟩ : ∃ fuel, this.pduLength + 1 = (fuel + 1) + message.options.length :=
      ⟨this.pduLength - message.options.length, by omega⟩
    rw [fuelEq, validateLoop_options _ _ _ 0 0 message.options fits.ascending fits.options
      written.options (by omega), Nat.zero_add]
    refine (validateLoop_finishes _ fuel _ _ _ finishes).trans ?_
    have some : ¬ (message.options = [] ∧ message.payload = []) := by
      rintro ⟨noOptions, noPayload⟩
      rw [noOptions, noPayload, Wire.payloadSection_nil, Wire.encodeOptions] at size
      simp only [List.length_nil] at size
      omega
    simp only [cached, if_neg some, Prod.mk.injEq, CoapPDU.mk.injEq, true_and, and_true]
    by_cases filled : message.payload = []
    · rw [filled, Wire.payloadSection_nil, List.length_nil] at size
      rw [if_pos (by omega), if_pos filled, filled, List.length_nil]
      exact ⟨rfl, by omega⟩
    · rw [Wire.payloadSection_of_ne filled, List.length_cons] at size
      rw [if_neg (by omega), if_neg filled]
      simp only [Option.some.injEq, Pointer.mk.injEq, true_and]
      omega

/-- The same for a container over exactly these bytes. -/
theorem Parses.validate {bytes : List UInt8} {message : Wire.Message} (parses : Parses bytes message)
    {memory : Memory} (holds : memory.Holds 0 bytes) (block : Nat) :
    (ofBytes block memory bytes.length).validate =
      (1, { ofBytes block memory bytes.length with
        numOptions := message.options.length
        payloadLength := message.payload.length
        payloadPointer :=
          if message.payload = [] then none
          else some ⟨block, bytes.length - message.payload.length⟩ }) := by
  rw [ofBytes_of_ne parses.ne_nil]
  refine (parses.validate_eq holds rfl).trans ?_
  by_cases filled : message.payload = []
  · simp [cached, filled]
  · simp [cached, filled]

/-- Options that lead to the end without overflow spell a message. -/
theorem message_of_path {bytes : List UInt8} {memory : Memory} {last : Cursor}
    (holds : memory.Holds 0 bytes) (header : HeaderAccepted memory bytes.length)
    (path : ReflTransGen (Reads memory bytes.length) ⟨4 + (memory 0).toNat % 16, 0⟩ last)
    (finishes : Finishes memory bytes.length last.position)
    (exact : ¬ Misread memory bytes.length (4 + (memory 0).toNat % 16)) :
    ∃ message, Parses bytes message := by
  rcases (reader memory bytes.length).spelled_or_stray path with stray | spelled
  · exact absurd ⟨last, stray, finishes⟩ exact
  · obtain ⟨options, spelled, _⟩ := spelled
    obtain ⟨fits, encodes⟩ := spelled.message header.version header.tokenLength finishes
    exact ⟨_, fits, header.code, encodes.trans (holds.eq_bytes rfl)⟩

/-- `validate` is exact on bytes that are not empty and of which no option is misread. -/
theorem validate_exact_iff (bytes : List UInt8) :
    ValidateExact bytes ↔ bytes ≠ [] ∧ NoneMisread bytes := by
  constructor
  · intro exact
    have nonempty : bytes ≠ [] := by
      rintro rfl
      have accepted := (exact 0 (fun _ => 0) rfl).1.mp rfl
      obtain ⟨message, parses⟩ := accepted
      exact parses.ne_nil rfl
    refine ⟨nonempty, ?_⟩
    intro memory holds header misread
    obtain ⟨last, ⟨stray, next, before, _, reads, behind⟩, finishes⟩ := id misread
    have decides := (exact 0 memory holds).1
    rw [ofBytes_of_ne nonempty, validate_iff] at decides
    obtain ⟨message, parses⟩ := decides.mp ⟨header, last, before.trans (.head reads behind), finishes⟩
    exact parses.not_misread holds misread
  · rintro ⟨nonempty, noneMisread⟩ block memory holds
    constructor
    · constructor
      · intro accepted
        rw [ofBytes_of_ne nonempty, validate_iff] at accepted
        obtain ⟨header, last, path, finishes⟩ := accepted
        exact message_of_path holds header path finishes (noneMisread memory holds header)
      · rintro ⟨message, parses⟩
        rw [parses.validate holds]
    · intro message _ parses
      rw [parses.validate holds]
      exact ⟨rfl, rfl, rfl⟩

/-- A header half-byte of 14 counts as one extension byte in the space check, so the second
byte of the delta is read behind the PDU; the delta then wraps below 269 and the option ends
exactly at the end. -/
theorem validate_accepts_wrapped_delta : ¬ ValidateExact [0x40, 0x01, 0x00, 0x00, 0xE0, 0xFF] := by
  intro exact
  have holds := Memory.copy_holds (fun _ => 0) 0 [0x40, 0x01, 0x00, 0x00, 0xE0, 0xFF]
  obtain ⟨message, parses⟩ := (exact 0 _ holds).1.mp (by decide)
  refine parses.not_misread holds ⟨⟨6, 13⟩, ⟨⟨4, 0⟩, ⟨6, 13⟩, .refl, ?_, ?_, .refl⟩, Or.inl rfl⟩
  · exact Or.inl (by decide)
  · exact ⟨by decide, by decide, by decide, by decide, by decide, by decide⟩

end CoapPDU

end SmingCoap
