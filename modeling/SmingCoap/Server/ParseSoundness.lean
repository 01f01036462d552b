import Mathlib.Data.List.TakeWhile
import Mathlib.Logic.Relation
import SmingCoap.Server.Message
import SmingCoap.Wire.Cursor

/-! # What the parser accepts

Inside a datagram the option loop of `parse_OptionsFromRaw` never wraps its
offset, so `Takes` describes a turn and `parseOptionsLoop_spec` the whole loop.
The widths are those of the header halves; the value length and the running
number are 16 bit, so a length or a number past 65535 is misread rather than
refused (`Misread`).
-/

namespace SmingCoap.Server

open Wire (Memory Opt Cursor Finishes Spelled)
open Relation (ReflTransGen)

/-! ## The readers in terms of the format -/

theorem shiftRight_upper (byte : UInt8) : (byte >>> 4).toNat = Wire.upperNibble byte := by
  rw [UInt8.toNat_shiftRight]
  simp only [UInt8.reduceToNat, Nat.reduceMod, Nat.shiftRight_eq_div_pow, Wire.upperNibble]

theorem parseField_inside (srcArr : Memory) {offset field : Nat} (valid : field ≤ 14)
    (room : offset + Wire.width field < 65536) :
    parseField srcArr offset field =
      some (Wire.extended field (srcArr.offset offset) % 65536, offset + Wire.width field) := by
  have byteBound := (srcArr offset).toNat_lt
  rw [Wire.width] at room ⊢
  rw [parseField, Wire.extended]
  by_cases plain : field < 13
  · rw [if_neg (by omega), if_neg (by omega), if_neg (by omega), if_pos plain, if_pos plain,
      Nat.mod_eq_of_lt (by omega), Nat.add_zero]
  · by_cases one : field = 13
    · rw [if_neg plain, if_pos one] at room
      rw [if_pos one, if_neg plain, if_pos one, if_neg plain, if_pos one]
      simp only [Memory.offset_apply, Nat.add_zero]
      rw [Nat.mod_eq_of_lt (by omega), Nat.mod_eq_of_lt (by omega)]
    · rw [if_neg plain, if_neg one] at room
      rw [if_neg one, if_pos (by omega), if_neg plain, if_neg one, if_neg plain, if_neg one,
        Wire.toNat_shiftLeft_or, Nat.mod_eq_of_lt room]
      rfl

theorem parseField_eq (srcArr : Memory) {offset field : Nat} (valid : field ≤ 14)
    (small : offset + 2 < 65536) :
    parseField srcArr offset field =
      some (Wire.extended field (srcArr.offset offset) % 65536, offset + Wire.width field) := by
  have width := Wire.width_le field
  exact parseField_inside srcArr valid (by omega)

theorem parseField_reserved (srcArr : Memory) (offset : Nat) : parseField srcArr offset 15 = none := rfl

/-! ## The loop as a relation on cursors -/

/-- The cursor behind the option at `cursor`, value length and number reduced to 16 bits. -/
def advance (srcArr : Memory) (cursor : Cursor) : Cursor :=
  ⟨cursor.position + (Wire.headerSize srcArr cursor.position +
      Wire.lengthAt srcArr cursor.position % 65536),
    (cursor.number + Wire.deltaAt srcArr cursor.position) % 65536⟩

/-- The option the loop appends there. -/
def taken (srcArr : Memory) (cursor : Cursor) : Opt :=
  ⟨(cursor.number + Wire.deltaAt srcArr cursor.position) % 65536,
    srcArr.bytes (cursor.position + Wire.headerSize srcArr cursor.position)
      (Wire.lengthAt srcArr cursor.position % 65536)⟩

/-- One turn of the loop that goes on to the next option. -/
structure Takes (srcArr : Memory) (srcLength : Nat) (cursor next : Cursor) : Prop where
  inside : cursor.position < srcLength
  upper : Wire.upperNibble (srcArr cursor.position) ≤ 14
  lower : Wire.lowerNibble (srcArr cursor.position) ≤ 14
  short : Wire.lengthAt srcArr cursor.position % 65536 ≤ maxOptionValueSize
  next_eq : next = advance srcArr cursor
  room : next.position ≤ srcLength

/-- The option at the cursor has a value length or a number beyond 65535. -/
def Overflows (srcArr : Memory) (cursor : Cursor) : Prop :=
  Wire.lengthAt srcArr cursor.position > 65535 ∨
    cursor.number + Wire.deltaAt srcArr cursor.position > 65535

theorem Takes.not_marker {srcArr : Memory} {srcLength : Nat} {cursor next : Cursor}
    (takes : Takes srcArr srcLength cursor next) : srcArr cursor.position ≠ 0xFF :=
  Wire.ne_marker_of_upperNibble takes.upper

theorem Takes.not_finishes {srcArr : Memory} {srcLength : Nat} {cursor next : Cursor}
    (takes : Takes srcArr srcLength cursor next) : ¬ Finishes srcArr srcLength cursor.position := by
  intro finishes
  cases finishes with
  | inl atEnd => exact absurd takes.inside (by omega)
  | inr marker => exact takes.not_marker marker.1

theorem Takes.lt {srcArr : Memory} {srcLength : Nat} {cursor next : Cursor}
    (takes : Takes srcArr srcLength cursor next) : cursor.position < next.position := by
  rw [takes.next_eq, advance, Wire.headerSize]
  simp only
  omega

/-- `Takes` is a function of the cursor. -/
theorem Takes.unique {srcArr : Memory} {srcLength : Nat} {cursor first second : Cursor}
    (left : Takes srcArr srcLength cursor first) (right : Takes srcArr srcLength cursor second) :
    first = second := by
  rw [left.next_eq, right.next_eq]

theorem advance_exact {srcArr : Memory} {cursor : Cursor} (exact : ¬ Overflows srcArr cursor) :
    advance srcArr cursor = Wire.behind srcArr cursor ∧ taken srcArr cursor = Wire.optionAt srcArr cursor := by
  simp only [Overflows] at exact
  rw [advance, Wire.behind, taken, Wire.optionAt, Nat.mod_eq_of_lt (by omega), Nat.mod_eq_of_lt (by omega)]
  exact ⟨rfl, rfl⟩

/-! ## The loop follows `Takes` -/

section Loop

variable {alloc : Nat → Bool} {srcArr : Memory} {srcLength : Nat}

/-- The option list after a successful append. -/
def append (options : List Opt) (option : Opt) : List Opt := (appendOptionToList true options option).2

theorem parseOptionsLoop_finishes (alloc : Nat → Bool) (fuel : Nat) {position : Nat} (number : Nat)
    (options : List Opt) (finishes : Finishes srcArr srcLength position) :
    parseOptionsLoop alloc srcArr srcLength (fuel + 1) position number options =
      some (.ok, options, if position = srcLength then none else some (position + 1)) := by
  cases finishes with
  | inl atEnd => rw [parseOptionsLoop, if_neg (by omega), if_pos atEnd]
  | inr marker =>
    obtain ⟨marker, filled⟩ := marker
    rw [parseOptionsLoop, if_pos (by omega), if_pos marker, if_neg (by omega), if_neg (by omega)]

/-- What a turn reads when both fields are valid and the offset does not wrap in front of the value. -/
theorem parseOptionsLoop_fields (alloc : Nat → Bool) (fuel : Nat) (cursor : Cursor) (options : List Opt)
    (room : cursor.position + Wire.headerSize srcArr cursor.position < 65536) (inside : cursor.position < srcLength)
    (upper : Wire.upperNibble (srcArr cursor.position) ≤ 14)
    (lower : Wire.lowerNibble (srcArr cursor.position) ≤ 14) :
    parseOptionsLoop alloc srcArr srcLength (fuel + 1) cursor.position cursor.number options =
      if Wire.lengthAt srcArr cursor.position % 65536 > maxOptionValueSize then
        some (.parseMessageFormatError, options, none)
      else if (srcLength : Int) - (cursor.position + Wire.headerSize srcArr cursor.position : Nat) <
          (Wire.lengthAt srcArr cursor.position % 65536 : Nat) then
        some (.parseMessageFormatError, options, none)
      else
        match appendOptionToList (alloc options.length) options (taken srcArr cursor) with
        | (.ok, options) =>
          parseOptionsLoop alloc srcArr srcLength fuel ((advance srcArr cursor).position % 65536)
            (advance srcArr cursor).number options
        | (failed, options) => some (failed, options, none) := by
  -- neither offset wraps around as long as the header is in the first 64 KiB
  rw [Wire.headerSize] at room
  have first := parseField_inside srcArr upper (show cursor.position + 1 +
    Wire.width (Wire.upperNibble (srcArr cursor.position)) < 65536 by omega)
  have second := parseField_inside srcArr lower
    (show cursor.position + 1 + Wire.width (Wire.upperNibble (srcArr cursor.position)) +
      Wire.width (Wire.lowerNibble (srcArr cursor.position)) < 65536 by omega)
  rw [← Wire.deltaAt] at first
  rw [← Wire.lengthAt] at second
  have header : cursor.position + 1 + Wire.width (Wire.upperNibble (srcArr cursor.position)) +
      Wire.width (Wire.lowerNibble (srcArr cursor.position)) =
      cursor.position + Wire.headerSize srcArr cursor.position := by
    rw [Wire.headerSize]
    omega
  have number : (Wire.deltaAt srcArr cursor.position % 65536 + cursor.number) % 65536 =
      (cursor.number + Wire.deltaAt srcArr cursor.position) % 65536 := by omega
  have behind := Nat.add_assoc cursor.position (Wire.headerSize srcArr cursor.position)
    (Wire.lengthAt srcArr cursor.position % 65536)
  rw [parseOptionsLoop, if_pos inside, if_neg (Wire.ne_marker_of_upperNibble upper)]
  simp only [shiftRight_upper, Wire.and_lowerNibble, Nat.mod_eq_of_lt (show cursor.position + 1 < 65536 by omega),
    first, second, header, number, advance, behind]
  rfl

theorem parseOptionsLoop_takes (available : ∀ i, alloc i = true) (fuel : Nat) {cursor next : Cursor}
    (options : List Opt) (small : srcLength ≤ 65535) (takes : Takes srcArr srcLength cursor next) :
    parseOptionsLoop alloc srcArr srcLength (fuel + 1) cursor.position cursor.number options =
      parseOptionsLoop alloc srcArr srcLength fuel next.position next.number
        (append options (taken srcArr cursor)) := by
  have short := takes.short
  have room := takes.room
  have value : cursor.position + (Wire.headerSize srcArr cursor.position +
      Wire.lengthAt srcArr cursor.position % 65536) ≤ srcLength := by
    rw [takes.next_eq, advance] at room
    exact room
  rw [parseOptionsLoop_fields alloc fuel cursor options (by omega) takes.inside takes.upper takes.lower,
    if_neg (by omega), if_neg (by omega), available, ← takes.next_eq, Nat.mod_eq_of_lt (by omega)]
  rfl

/-- Where the loop can neither end nor go on it reports a format error. -/
theorem parseOptionsLoop_stuck (alloc : Nat → Bool) (fuel : Nat) {cursor : Cursor} (options : List Opt)
    (small : srcLength ≤ 65531) (within : cursor.position ≤ srcLength)
    (unfinished : ¬ Finishes srcArr srcLength cursor.position)
    (stuck : ∀ next, ¬ Takes srcArr srcLength cursor next) :
    parseOptionsLoop alloc srcArr srcLength (fuel + 1) cursor.position cursor.number options =
      some (.parseMessageFormatError, options, none) := by
  have inside : cursor.position < srcLength := by
    have notEnd : cursor.position ≠ srcLength := fun atEnd => unfinished (Or.inl atEnd)
    omega
  by_cases marker : srcArr cursor.position = 0xFF
  · have alone : srcLength - cursor.position < 2 := by
      by_contra filled
      exact unfinished (Or.inr ⟨marker, by omega⟩)
    rw [parseOptionsLoop, if_pos inside, if_pos marker, if_pos alone]
  · have upperBound := Wire.upperNibble_lt (srcArr cursor.position)
    have lowerBound := Wire.lowerNibble_lt (srcArr cursor.position)
    by_cases upper : Wire.upperNibble (srcArr cursor.position) ≤ 14
    · by_cases lower : Wire.lowerNibble (srcArr cursor.position) ≤ 14
      · have upperWidth := Wire.width_le (Wire.upperNibble (srcArr cursor.position))
        have lowerWidth := Wire.width_le (Wire.lowerNibble (srcArr cursor.position))
        rw [parseOptionsLoop_fields alloc fuel cursor options (by rw [Wire.headerSize]; omega) inside upper lower]
        split
        · rfl
        · next short =>
          rw [if_pos]
          -- with room for the value `Takes` would go on
          by_contra room
          refine stuck (advance srcArr cursor) ⟨inside, upper, lower, by omega, rfl, ?_⟩
          simp only [advance]
          omega
      · -- a reserved length behind a delta that was read
        have reserved : Wire.lowerNibble (srcArr cursor.position) = 15 := by omega
        have first := parseField_eq srcArr upper (show cursor.position + 1 + 2 < 65536 by omega)
        rw [parseOptionsLoop, if_pos inside, if_neg marker]
        simp only [shiftRight_upper, Wire.and_lowerNibble, reserved,
          Nat.mod_eq_of_lt (show cursor.position + 1 < 65536 by omega), first, parseField_reserved]
    · have reserved : Wire.upperNibble (srcArr cursor.position) = 15 := by omega
      rw [parseOptionsLoop, if_pos inside, if_neg marker]
      simp only [shiftRight_upper, reserved, parseField_reserved]

/-- The loop ends: it accepts at the end `Takes` leads to, or reports a format error when there is
none. -/
theorem parseOptionsLoop_spec (available : ∀ i, alloc i = true) (fuel : Nat) (cursor : Cursor)
    (options : List Opt) (small : srcLength ≤ 65531) (within : cursor.position ≤ srcLength)
    (enough : srcLength - cursor.position < fuel) :
    (∃ last parsed, ReflTransGen (Takes srcArr srcLength) cursor last ∧
        Finishes srcArr srcLength last.position ∧
        parseOptionsLoop alloc srcArr srcLength fuel cursor.position cursor.number options =
          some (.ok, parsed, if last.position = srcLength then none else some (last.position + 1))) ∨
    (∃ parsed, parseOptionsLoop alloc srcArr srcLength fuel cursor.position cursor.number options =
        some (.parseMessageFormatError, parsed, none)) ∧
      ¬ ∃ last, ReflTransGen (Takes srcArr srcLength) cursor last ∧
        Finishes srcArr srcLength last.position := by
  induction fuel generalizing cursor options with
  | zero => omega
  | succ fuel inductionHypothesis =>
    -- the loop finishes here, or takes one more option, or is stuck
    by_cases finishes : Finishes srcArr srcLength cursor.position
    · exact Or.inl ⟨cursor, options, .refl, finishes, parseOptionsLoop_finishes alloc fuel _ options finishes⟩
    · by_cases readable : ∃ next, Takes srcArr srcLength cursor next
      · obtain ⟨next, takes⟩ := readable
        have progress := takes.lt
        have room := takes.room
        rw [parseOptionsLoop_takes available fuel options (by omega) takes]
        rcases inductionHypothesis next (append options (taken srcArr cursor)) room (by omega) with
          ⟨last, parsed, path, ends, result⟩ | ⟨failed, noEnd⟩
        · exact Or.inl ⟨last, parsed, .head takes path, ends, result⟩
        · refine Or.inr ⟨failed, ?_⟩
          intro end_
          obtain ⟨last, path, ends⟩ := end_
          cases path using ReflTransGen.head_induction_on with
          | refl => exact finishes ends
          -- at most one option can be taken at a place, so the path is unique
          | head first rest => exact noEnd ⟨last, first.unique takes ▸ rest, ends⟩
      · have stuck := not_exists.mp readable
        refine Or.inr ⟨⟨options, parseOptionsLoop_stuck alloc fuel options small within finishes stuck⟩, ?_⟩
        intro end_
        obtain ⟨last, path, ends⟩ := end_
        cases path using ReflTransGen.head_induction_on with
        | refl => exact finishes ends
        | head first _ => exact stuck _ first

end Loop

/-! ## The loop as a reader of the format -/

theorem takes_of_optionAt {srcArr : Memory} {position number srcLength : Nat} {option : Opt}
    (low : number ≤ option.number) (numberBound : option.number ≤ 65535)
    (short : option.value.length ≤ maxOptionValueSize)
    (written : Wire.OptionAt srcArr position (option.number - number) option.value)
    (room : position + (Wire.encodeOption (option.number - number) option.value).length ≤ srcLength) :
    ¬ Overflows srcArr ⟨position, number⟩ ∧
      Takes srcArr srcLength ⟨position, number⟩
        ⟨position + (Wire.encodeOption (option.number - number) option.value).length,
          option.number⟩ := by
  have deltaEq := written.delta_eq
  have lengthEq := written.length_eq
  have limit : option.value.length % 65536 = option.value.length := by
    rw [maxOptionValueSize] at short
    omega
  rw [maxOptionValueSize] at short
  have advanced : advance srcArr ⟨position, number⟩ =
      ⟨position + (Wire.encodeOption (option.number - number) option.value).length, option.number⟩ := by
    rw [Wire.length_encodeOption, advance, deltaEq, lengthEq, limit, written.size_eq,
      Nat.add_sub_of_le low, Nat.mod_eq_of_lt (by omega)]
  rw [← advanced]
  refine ⟨?_, ?_, ?_, ?_, ?_, rfl, ?_⟩
  · simp only [Overflows, deltaEq, lengthEq]
    omega
  · rw [Wire.length_encodeOption] at room
    simp only
    omega
  · rw [written.upper]
    exact Wire.nibble_le _
  · rw [written.lower]
    exact Wire.nibble_le _
  · simp only [lengthEq, limit, maxOptionValueSize]
    exact short
  · rw [advanced]
    exact room

/-- The option loop of `parse_OptionsFromRaw`, with its limit on the value length. -/
def reader (srcArr : Memory) (srcLength : Nat) : Wire.Reader srcArr srcLength where
  step := Takes srcArr srcLength
  overflows := Overflows srcArr
  admits option := option.value.length ≤ maxOptionValueSize
  unique _ _ _ left right := left.unique right
  unfinished _ _ takes := takes.not_finishes
  upper _ _ takes := takes.upper
  lower _ _ takes := takes.lower
  exact cursor next takes exact := by
    have nextEq := takes.next_eq
    have short := takes.short
    rw [(advance_exact exact).1] at nextEq
    simp only [Overflows] at exact
    refine ⟨nextEq, by omega, by omega, ?_⟩
    rw [Wire.optionAt, Memory.length_bytes]
    omega
  reads _ _ _ low numberBound _ short written room :=
    takes_of_optionAt low numberBound short written room

/-- What the loop appends over a written list: its options, in their order. -/
theorem parseOptionsLoop_options {alloc : Nat → Bool} {srcArr : Memory} {srcLength : Nat}
    (available : ∀ i, alloc i = true) (fuel : Nat) (options parsed : List Opt) (position number : Nat)
    (small : srcLength ≤ 65535) (ascending : Wire.Ascending number options)
    (representable : Wire.Representable options)
    (short : ∀ option ∈ options, option.value.length ≤ maxOptionValueSize)
    (below : ∀ option ∈ parsed, option.number ≤ number)
    (holds : srcArr.Holds position (Wire.encodeOptions number options))
    (room : position + (Wire.encodeOptions number options).length ≤ srcLength) :
    parseOptionsLoop alloc srcArr srcLength (fuel + options.length) position number parsed =
      parseOptionsLoop alloc srcArr srcLength fuel
        (position + (Wire.encodeOptions number options).length) (Wire.lastNumber number options)
        (parsed ++ options) := by
  induction options generalizing position number parsed with
  | nil => rw [List.append_nil]; rfl
  | cons option rest inductionHypothesis =>
    obtain ⟨⟨exact, takes⟩, restHolds, restRoom⟩ :=
      (reader srcArr srcLength).cons ascending representable short holds room
    have written := (Wire.holds_cons_options representable holds).1
    have low := ascending.1
    have value : srcArr.bytes (position + Wire.headerSize srcArr position)
        (Wire.lengthAt srcArr position) = option.value := by
      rw [written.size_eq, written.length_eq]
      exact written.value_holds.eq_bytes rfl
    have read : taken srcArr ⟨position, number⟩ = option := by
      rw [(advance_exact exact).2, Wire.optionAt]
      simp only [written.delta_eq, value, Nat.add_sub_of_le low]
    -- behind every smaller number, which is behind everything read so far
    have appended : append parsed option = parsed ++ [option] := by
      have all : parsed.takeWhile (fun other => other.number ≤ option.number) = parsed := by
        apply List.takeWhile_eq_self_iff.mpr
        intro other member
        have before := below other member
        simp only [decide_eq_true_eq]
        omega
      have none : parsed.dropWhile (fun other => other.number ≤ option.number) = [] := by
        apply List.dropWhile_eq_nil_iff.mpr
        intro other member
        have before := below other member
        simp only [decide_eq_true_eq]
        omega
      simp only [append, appendOptionToList, if_true, all, none]
    have behind := inductionHypothesis (parsed ++ [option]) _ _ ascending.2 representable.tail
      (fun other member => short other (List.mem_cons_of_mem _ member))
      (fun other member => by
        rcases List.mem_append.mp member with old | new
        · exact Nat.le_trans (below other old) low
        · rw [List.mem_singleton.mp new])
      restHolds restRoom
    have turn := parseOptionsLoop_takes available (fuel + rest.length) parsed small takes
    rw [read, appended] at turn
    rw [List.length_cons, ← Nat.add_assoc, turn, behind, Wire.encodeOptions, List.length_append,
      Wire.lastNumber, Nat.add_assoc position, List.append_assoc]
    rfl

end SmingCoap.Server
