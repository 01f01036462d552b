import SmingCoap.Client.FailureSoundness

/-! # An option in front of another one

To put an option in front of another one, `addOption` splits the delta of that option in two.  Its extension may
shrink by a byte or two; `extra_add_le` says that the new option takes at least as many, so the room is never
negative and the bytes behind move up as one block, over nothing that is still to be read.

`Comprises` asks nothing of the numbers.  A call that fails has noted its number all the same, and an option that a
later call puts at the end may be counted from it and wrap.
-/

namespace SmingCoap

open Wire (Memory Opt Relative)

namespace CoapPDU

/-! ## What is built -/

/-- A PDU without payload, built by any calls of `addOption`, whether they succeed or fail. -/
inductive Built : CoapPDU → Prop
  | fresh {this : CoapPDU} (fresh : Fresh this) : Built this
  | addOption {this : CoapPDU} {number : Nat} {value : List UInt8} (grant : Option Realloc) (built : Built this)
      (bound : number ≤ 65535) (fits : this.TotalLengthFits number value) :
      Built (this.addOption grant number value.length value).2

/-- The PDU consists of header, token and options with these deltas. -/
structure Comprises (this : CoapPDU) (options : List Relative) : Prop where
  owned : this.Owned
  encodable : Wire.Encodable options
  holds : this.pdu.Holds (4 + this.getTokenLength) (Wire.encodeRelative options)
  length_eq : this.pduLength = 4 + this.getTokenLength + (Wire.encodeRelative options).length
  numOptions_eq : this.numOptions = options.length

theorem Comprises.readOptions_eq {this : CoapPDU} {options : List Relative} (comprises : this.Comprises options) :
    this.readOptions = Wire.absolute 0 options := by
  rw [readOptions, getOptions, comprises.numOptions_eq]
  exact getOptionsLoop_absolute this options _ 0 comprises.encodable comprises.holds

theorem Represents.comprises {this : CoapPDU} {options : List Opt} (represents : this.Represents options) :
    this.Comprises (Wire.relative 0 options) where
  owned := represents.owned
  encodable := Wire.encodable_relative represents.representable
  holds := by
    rw [Wire.encodeRelative_relative]
    exact represents.holds
  length_eq := by
    rw [Wire.encodeRelative_relative]
    exact represents.length_eq
  numOptions_eq := by
    rw [Wire.length_relative]
    exact represents.numOptions_eq

theorem Comprises.noteMaximum {this : CoapPDU} {options : List Relative} (comprises : this.Comprises options)
    (position number : Nat) : (this.noteMaximum position number).Comprises options := by
  rw [CoapPDU.noteMaximum]
  split
  · exact ⟨comprises.owned, comprises.encodable, comprises.holds, comprises.length_eq, comprises.numOptions_eq⟩
  · exact comprises

/-! ## Where the option goes -/

/-- The walk stops at the first option with a larger number, else at the end. -/
theorem findInsertionLoop_split (this : CoapPDU) (optionNumber fuel : Nat) (options : List Relative)
    (position previous : Nat) (low : previous ≤ optionNumber) (encodable : Wire.Encodable options)
    (holds : this.pdu.Holds position (Wire.encodeRelative options))
    (lengthEq : this.pduLength = position + (Wire.encodeRelative options).length)
    (enough : options.length ≤ fuel) :
    ∃ before after, options = before ++ after ∧
      findInsertionLoop this optionNumber fuel position previous =
        (position + (Wire.encodeRelative before).length, Wire.reached previous before) ∧
      Wire.reached previous before ≤ optionNumber ∧
      ∀ next rest, after = next :: rest →
        optionNumber < (Wire.reached previous before + next.delta) % 65536 := by
  -- induction on the fuel, which the options that are left never exceed
  induction fuel generalizing options position previous with
  | zero =>
    have none : options = [] := List.eq_nil_of_length_eq_zero (by omega)
    exact ⟨[], [], none, rfl, low, nofun⟩
  | succ fuel inductionHypothesis =>
    cases options with
    | nil =>
      rw [Wire.encodeRelative, List.length_nil, Nat.add_zero] at lengthEq
      rw [findInsertionLoop, if_neg fun inside => by omega]
      exact ⟨[], [], rfl, rfl, low, nofun⟩
    | cons option rest =>
      obtain ⟨written, restHolds⟩ := Wire.holds_cons_relative encodable holds
      have bounds := encodable option (List.mem_cons_self ..)
      obtain ⟨delta, length⟩ := read_option written bounds.1 bounds.2
      rw [Wire.encodeRelative, List.length_append, Wire.length_encodeOption] at lengthEq
      have moved : position + Wire.extra option.delta + Wire.extra option.value.length + option.value.length + 1 =
          position + (1 + Wire.extra option.delta + Wire.extra option.value.length + option.value.length) := by
        omega
      rw [findInsertionLoop, if_pos ⟨by omega, written.not_marker⟩]
      simp only [delta, length, computeExtraBytes_eq, moved]
      -- the sum is of 16 bits, so a number may be passed that is smaller than the one before
      by_cases beyond : (previous + option.delta) % 65536 > optionNumber
      · rw [if_pos beyond]
        refine ⟨[], option :: rest, rfl, rfl, low, ?_⟩
        intro next behind same
        rw [← (List.cons.inj same).1]
        exact beyond
      · rw [if_neg beyond]
        obtain ⟨before, after, splitting, walk, below, stop⟩ := inductionHypothesis rest _
          ((previous + option.delta) % 65536) (by omega) encodable.tail restHolds (by omega) (by simpa using enough)
        refine ⟨option :: before, after, by rw [splitting, List.cons_append], ?_, below, stop⟩
        rw [walk, Wire.encodeRelative, List.length_append, Wire.length_encodeOption, Wire.reached,
          Nat.add_assoc position]

/-- The new option goes between `before` and `next`, at `position`, and is counted from `previous`. -/
structure StopsAt (this : CoapPDU) (number position previous : Nat) (before : List Relative) (next : Relative) :
    Prop where
  place : this.findInsertionPosition number = (position, previous)
  position_eq : position = 4 + this.getTokenLength + (Wire.encodeRelative before).length
  previous_eq : previous = Wire.reached 0 before
  low : previous ≤ number
  high : number < previous + next.delta
  small : previous + next.delta ≤ 65535

theorem Comprises.place {this : CoapPDU} {options : List Relative} (comprises : this.Comprises options) {number : Nat}
    (bound : number ≤ 65535) :
    (∃ previous, this.findInsertionPosition number = (this.pduLength, previous)) ∨
      ∃ position previous before next rest, options = before ++ next :: rest ∧
        this.StopsAt number position previous before next := by
  by_cases atEnd : number ≥ this.maxAddedOptionNumber ∨ this.pduLength = hdrSize + this.getTokenLength
  · left
    exact ⟨_, by rw [findInsertionPosition, if_pos atEnd]⟩
  · have count := Wire.length_le_encodeRelative options
    have length := comprises.length_eq
    obtain ⟨before, after, splitting, walk, low, stop⟩ := findInsertionLoop_split this number this.pduLength
      options _ 0 (Nat.zero_le _) comprises.encodable comprises.holds length (by omega)
    have place : this.findInsertionPosition number =
        (4 + this.getTokenLength + (Wire.encodeRelative before).length, Wire.reached 0 before) := by
      rw [findInsertionPosition, if_neg atEnd]
      exact walk
    cases after with
    | nil =>
      left
      rw [List.append_nil] at splitting
      rw [length, splitting]
      exact ⟨_, place⟩
    | cons next rest =>
      right
      have bounds := (splitting ▸ comprises.encodable) next (List.mem_append_right _ (List.mem_cons_self ..))
      have larger := stop next rest rfl
      -- the sum does not wrap: it would fall below the number it started from
      have small : Wire.reached 0 before + next.delta ≤ 65535 := by omega
      exact ⟨_, _, before, next, rest, splitting, place, rfl, rfl, low, by omega, small⟩

/-! ## What one call does -/

/-- The option is written into its room, between the options in front and those behind. -/
theorem GapOpened.comprises {this gap : CoapPDU} {before behind : List Relative} {delta position number : Nat}
    {value : List UInt8} {after : List Opt} {tail : List UInt8}
    (opened : GapOpened this gap position (1 + Wire.extra delta + Wire.extra value.length + value.length) number
      after tail)
    (front : this.pdu.Holds (4 + this.getTokenLength) (Wire.encodeRelative before))
    (positionEq : position = 4 + this.getTokenLength + (Wire.encodeRelative before).length)
    (behindEq : Wire.encodeOptions number after ++ tail = Wire.encodeRelative behind)
    (encodable : Wire.Encodable (before ++ behind)) (deltaBound : delta ≤ 65535)
    (valueBound : value.length ≤ 65535) (count : this.numOptions = (before ++ behind).length) :
    ∃ stored, stored.length = value.length ∧
      Comprises { gap.insertOption position delta value.length value with numOptions := gap.numOptions + 1 }
        (before ++ ⟨delta, stored⟩ :: behind) := by
  obtain ⟨written, frame⟩ := gap.insertOption_spec position delta value
  obtain ⟨next, nextEq⟩ : ∃ next : CoapPDU, next =
    { gap.insertOption position delta value.length value with numOptions := gap.numOptions + 1 } := ⟨_, rfl⟩
  obtain ⟨stored, storedEq⟩ : ∃ stored, stored =
    storedValue gap.pdu (position + (1 + Wire.extra delta + Wire.extra value.length)) value := ⟨_, rfl⟩
  have size : stored.length = value.length := by rw [storedEq, length_storedValue]
  have pdu : (gap.insertOption position delta value.length value).pdu = next.pdu := by rw [nextEq]
  simp only [pdu, ← storedEq] at written frame
  rw [← nextEq]
  -- in front of the room nothing was written, the token length included
  have untouched : ∀ i, i < position → next.pdu i = this.pdu i := by
    intro i inside
    rw [frame i (Or.inl inside), opened.before i inside]
  have token : next.getTokenLength = this.getTokenLength := by
    rw [getTokenLength, getTokenLength, untouched 0 (by omega)]
  have held := opened.behind
  have length := opened.length_eq
  rw [behindEq] at held length
  refine ⟨stored, size, ?_, ?_, ?_, ?_, ?_⟩
  · rw [nextEq]
    exact opened.owned
  · rw [Wire.encodable_append] at encodable
    exact Wire.encodable_append.mpr
      ⟨encodable.1, Wire.encodable_cons.mpr ⟨⟨deltaBound, size ▸ valueBound⟩, encodable.2⟩⟩
  · rw [token, Wire.encodeRelative_append, Wire.encodeRelative, Memory.holds_append, Memory.holds_append,
      ← positionEq, Wire.length_encodeOption, size]
    refine ⟨front.congr fun i _ upper => untouched i (by omega), written, held.congr ?_⟩
    intro i lower _
    exact frame i (Or.inr (by omega))
  · have same : next.pduLength = gap.pduLength := by
      rw [nextEq]
      rfl
    simp only [same, length, token, Wire.encodeRelative_append, Wire.encodeRelative, List.length_append,
      Wire.length_encodeOption, size]
    omega
  · have added : next.numOptions = gap.numOptions + 1 := by rw [nextEq]
    rw [added, opened.facts.numOptions, count]
    simp only [List.length_append, List.length_cons]
    omega

/-- The option behind the room is where it was read, shifted, but for its header and its delta. -/
theorem GapOpened.spread {this gap : CoapPDU} {position optionLength number previous opened : Nat} {next : Opt}
    {tail : List UInt8} (gapOpened : GapOpened this gap position optionLength number [next] tail)
    (holds : this.pdu.Holds position (Wire.encodeOptions previous [next] ++ tail))
    (lengthEq : this.pduLength = position + (Wire.encodeOptions previous [next] ++ tail).length)
    (growth : opened + Wire.extra (next.number - previous) = optionLength + Wire.extra (next.number - number)) :
    Memory.Spread this.pdu gap.pdu position (position + 1 + Wire.extra (next.number - previous)) this.pduLength
      opened := by
  have moved := gapOpened.behind
  -- both are a header, a delta, and then the same bytes
  simp only [Wire.encodeOptions, List.append_nil, Wire.encodeOption, List.cons_append,
    List.append_assoc] at holds moved lengthEq
  rw [Memory.holds_cons, Memory.holds_append, Wire.length_extension] at holds moved
  simp only [List.length_cons, List.length_append, Wire.length_extension] at lengthEq
  refine ⟨gapOpened.before, ?_⟩
  intro i behind inside
  obtain ⟨j, iEq⟩ := Nat.exists_eq_add_of_le behind
  have same := holds.2.2.agree moved.2.2 (show j < _ by
    simp only [List.length_append, Wire.length_extension]
    omega)
  rw [iEq, ← same]
  congr 1
  omega

/-! ## The room that is opened -/

/-- The delta of the option that the new one goes in front of. -/
def nextOptionDelta (this : CoapPDU) (insertedOptionNumber : Nat) : Nat :=
  getOptionDelta (this.pdu.offset (this.findInsertionPosition insertedOptionNumber).1)

/-- The bytes that the new option takes. -/
def optionLength (this : CoapPDU) (insertedOptionNumber optionValueLength : Nat) : Nat :=
  let optionDelta := (insertedOptionNumber + 65536 - (this.findInsertionPosition insertedOptionNumber).2) % 65536
  (optionHdrByte + computeExtraBytes optionDelta + computeExtraBytes optionValueLength + optionValueLength) % 65536

/-- The bytes by which the PDU grows: those of the new option, and the difference between the new and the old delta
of the one behind it. -/
def mallocLength (this : CoapPDU) (insertedOptionNumber optionValueLength : Nat) : Int :=
  let nextOptionDelta := this.nextOptionDelta insertedOptionNumber
  let nextOptionNumber := (this.findInsertionPosition insertedOptionNumber).2 + nextOptionDelta
  let newNextOptionDelta := (nextOptionNumber + 65536 - insertedOptionNumber) % 65536
  let optionDeltaAdjustment : Int := computeExtraBytes newNextOptionDelta - computeExtraBytes nextOptionDelta
  this.optionLength insertedOptionNumber optionValueLength + optionDeltaAdjustment

/-- The PDU after the shift and the move of the header, and before `insertOption`. -/
def makeRoom (this : CoapPDU) (grant : Option Realloc) (insertedOptionNumber optionValueLength : Nat) :
    Option CoapPDU :=
  let (insertionPosition, prevOptionNumber) := this.findInsertionPosition insertedOptionNumber
  (this.noteMaximum insertionPosition insertedOptionNumber).openGap grant insertedOptionNumber insertionPosition
    prevOptionNumber (this.optionLength insertedOptionNumber optionValueLength)

theorem addOption_of_makeRoom {this : CoapPDU} {number position previous : Nat}
    (place : this.findInsertionPosition number = (position, previous)) (grant : Option Realloc)
    (value : List UInt8) :
    this.addOption grant number value.length value =
      match this.makeRoom grant number value.length with
      | none => (1, this.noteMaximum position number)
      | some gap => (0, { gap.insertOption position ((number + 65536 - previous) % 65536) value.length value with
          numOptions := gap.numOptions + 1 }) := by
  rw [CoapPDU.addOption, makeRoom, optionLength, place]
  simp only
  generalize (this.noteMaximum position number).openGap grant number position previous _ = room
  cases room with
  | none => rfl
  | some gap =>
    simp only
    rw [insertOption_numOptions]

theorem optionLength_eq {this : CoapPDU} {number : Nat} {value : List UInt8}
    (fits : this.TotalLengthFits number value) :
    this.optionLength number value.length =
      1 + Wire.extra ((number + 65536 - (this.findInsertionPosition number).2) % 65536) + Wire.extra value.length +
        value.length :=
  Nat.mod_eq_of_lt fits

section
variable {this gap : CoapPDU} {grant : Option Realloc} {number position previous opened : Nat} {value : List UInt8}
  {before rest : List Relative} {next : Relative}

/-- The new option begins where the one behind it began. -/
theorem Comprises.held (comprises : this.Comprises (before ++ next :: rest))
    (stops : this.StopsAt number position previous before next) :
    this.pdu.Holds (4 + this.getTokenLength) (Wire.encodeRelative before) ∧
      this.pdu.Holds position (Wire.encodeRelative (next :: rest)) ∧
      this.pduLength = position + (Wire.encodeRelative (next :: rest)).length := by
  have holds := comprises.holds
  have length := comprises.length_eq
  rw [Wire.encodeRelative_append] at holds length
  rw [Memory.holds_append, ← stops.position_eq] at holds
  rw [List.length_append, ← Nat.add_assoc, ← stops.position_eq] at length
  exact ⟨holds.1, holds.2, length⟩

theorem Comprises.nextOptionDelta_eq (comprises : this.Comprises (before ++ next :: rest))
    (stops : this.StopsAt number position previous before next) : this.nextOptionDelta number = next.delta := by
  have encodable := (Wire.encodable_append.mp comprises.encodable).2
  have bounds := encodable next (List.mem_cons_self ..)
  obtain ⟨written, _⟩ := Wire.holds_cons_relative encodable (comprises.held stops).2.1
  rw [nextOptionDelta, stops.place]
  exact (read_option written bounds.1 bounds.2).1

theorem StopsAt.delta_eq (stops : this.StopsAt number position previous before next) :
    (number + 65536 - previous) % 65536 = number - previous := by
  have low := stops.low
  have high := stops.high
  have small := stops.small
  omega

theorem StopsAt.optionLength_eq (stops : this.StopsAt number position previous before next)
    (fits : this.TotalLengthFits number value) :
    this.optionLength number value.length =
      1 + Wire.extra (number - previous) + Wire.extra value.length + value.length := by
  rw [CoapPDU.optionLength_eq fits, stops.place, stops.delta_eq]

/-- What the option behind loses of its delta, the header of the new one makes up for. -/
theorem Comprises.mallocLength_eq (comprises : this.Comprises (before ++ next :: rest))
    (stops : this.StopsAt number position previous before next) (fits : this.TotalLengthFits number value) :
    ∃ opened : Nat, this.mallocLength number value.length = opened ∧
      opened + Wire.extra next.delta =
        this.optionLength number value.length + Wire.extra (previous + next.delta - number) := by
  have low := stops.low
  have high := stops.high
  have small := stops.small
  have length := stops.optionLength_eq fits
  have newDelta : (previous + next.delta + 65536 - number) % 65536 = previous + next.delta - number := by omega
  -- the old delta is the sum of the two it is split into
  have split := extra_add_le (number - previous) (previous + next.delta - number)
  rw [show number - previous + (previous + next.delta - number) = next.delta by omega] at split
  have shrinks : Wire.extra next.delta ≤
      this.optionLength number value.length + Wire.extra (previous + next.delta - number) := by omega
  refine ⟨_, ?_, Nat.sub_add_cancel shrinks⟩
  simp only [mallocLength, comprises.nextOptionDelta_eq stops, stops.place, newDelta, computeExtraBytes_eq]
  omega

/-- The option behind the new one, with the number it has and keeps. -/
theorem encode_next (next : Relative) (rest : List Relative) (previous : Nat) :
    Wire.encodeOptions previous [⟨previous + next.delta, next.value⟩] ++ Wire.encodeRelative rest =
      Wire.encodeRelative (next :: rest) := by
  simp [Wire.encodeOptions, Wire.encodeRelative]

/-- Room is made between the two options, and the one behind gets the rest of its delta. -/
theorem Comprises.makeRoom_spec (comprises : this.Comprises (before ++ next :: rest))
    (stops : this.StopsAt number position previous before next) (fits : this.TotalLengthFits number value)
    (room : this.makeRoom grant number value.length = some gap) :
    GapOpened (this.noteMaximum position number) gap position (this.optionLength number value.length) number
      [⟨previous + next.delta, next.value⟩] (Wire.encodeRelative rest) := by
  obtain ⟨notedPdu, notedLength, _, _, _, notedOwned⟩ := this.noteMaximum_facts position number
  obtain ⟨_, holds, lengthEq⟩ := comprises.held stops
  have bounds := (Wire.encodable_append.mp comprises.encodable).2 next (List.mem_cons_self ..)
  have size := stops.optionLength_eq fits
  have ascending : Wire.Ascending number [⟨previous + next.delta, next.value⟩] :=
    ⟨Nat.le_of_lt stops.high, trivial⟩
  have representable : Wire.Representable [⟨previous + next.delta, next.value⟩] := by
    intro option member
    rw [List.mem_singleton.mp member]
    exact ⟨stops.small, bounds.2⟩
  simp only [makeRoom, stops.place] at room
  apply openGap_spec (notedOwned comprises.owned) stops.low ascending representable (fun none => nomatch none) _ _
    (by omega) room
  · rw [notedPdu, encode_next]
    exact holds
  · rw [notedLength, encode_next]
    exact lengthEq

/-- Only the header and the delta of the option behind are rewritten. -/
theorem Comprises.makeRoom_spread (comprises : this.Comprises (before ++ next :: rest))
    (stops : this.StopsAt number position previous before next) (fits : this.TotalLengthFits number value)
    (growth : opened + Wire.extra next.delta =
      this.optionLength number value.length + Wire.extra (previous + next.delta - number))
    (room : this.makeRoom grant number value.length = some gap) :
    Memory.Spread this.pdu gap.pdu position (position + 1 + Wire.extra next.delta) this.pduLength opened := by
  obtain ⟨notedPdu, notedLength, _⟩ := this.noteMaximum_facts position number
  obtain ⟨_, holds, lengthEq⟩ := comprises.held stops
  have delta : previous + next.delta - previous = next.delta := Nat.add_sub_cancel_left ..
  have spread := (comprises.makeRoom_spec stops fits room).spread (by rw [notedPdu, encode_next]; exact holds)
    (by rw [notedLength, encode_next]; exact lengthEq) (by rw [delta]; exact growth)
  rwa [delta, notedPdu, notedLength] at spread

theorem Comprises.makeRoom_length (comprises : this.Comprises (before ++ next :: rest))
    (stops : this.StopsAt number position previous before next) (fits : this.TotalLengthFits number value)
    (growth : opened + Wire.extra next.delta =
      this.optionLength number value.length + Wire.extra (previous + next.delta - number))
    (room : this.makeRoom grant number value.length = some gap) : gap.pduLength = this.pduLength + opened := by
  have before := (comprises.held stops).2.2
  have after := (comprises.makeRoom_spec stops fits room).length_eq
  simp only [Wire.encodeRelative, Wire.encodeOptions, List.length_append, Wire.length_encodeOption,
    List.length_nil] at before after
  omega

/-- The option in its room. -/
theorem Comprises.makeRoom_filled (comprises : this.Comprises (before ++ next :: rest))
    (stops : this.StopsAt number position previous before next) (fits : this.TotalLengthFits number value)
    (room : this.makeRoom grant number value.length = some gap) :
    ∃ stored, stored.length = value.length ∧
      Comprises { gap.insertOption position (number - previous) value.length value with
          numOptions := gap.numOptions + 1 }
        (before ++ ⟨number - previous, stored⟩ :: ⟨previous + next.delta - number, next.value⟩ :: rest) := by
  have low := stops.low
  have high := stops.high
  have small := stops.small
  have opened := comprises.makeRoom_spec stops fits room
  obtain ⟨notedPdu, _, notedCount, _⟩ := this.noteMaximum_facts position number
  have token : (this.noteMaximum position number).getTokenLength = this.getTokenLength := by
    rw [getTokenLength, getTokenLength, notedPdu]
  obtain ⟨encodableBefore, encodableBehind⟩ := Wire.encodable_append.mp comprises.encodable
  obtain ⟨bounds, encodableRest⟩ := Wire.encodable_cons.mp encodableBehind
  rw [stops.optionLength_eq fits] at opened
  apply opened.comprises
  · rw [token, notedPdu]
    exact (comprises.held stops).1
  · rw [token, stops.position_eq]
  · simp [Wire.encodeOptions, Wire.encodeRelative]
  · exact Wire.encodable_append.mpr
      ⟨encodableBefore, Wire.encodable_cons.mpr ⟨⟨by simp only; omega, bounds.2⟩, encodableRest⟩⟩
  · omega
  · exact fits.length_le
  · rw [notedCount, comprises.numOptions_eq]
    simp only [List.length_append, List.length_cons]

end

/-! ## Calls -/

/-- Whatever the place, an option that is added joins those that are there. -/
theorem Comprises.addOption {this : CoapPDU} {options : List Relative} {number : Nat} {value : List UInt8}
    (comprises : this.Comprises options) (grant : Option Realloc) (bound : number ≤ 65535)
    (fits : this.TotalLengthFits number value) :
    ∃ result, (this.addOption grant number value.length value).2.Comprises result := by
  rcases comprises.place bound with ⟨previous, place⟩ | ⟨position, previous, before, next, rest, splitting, stops⟩
  -- at the end nothing moves; elsewhere the delta of the option behind changes with it
  · rw [addOption_of_makeRoom place]
    cases room : this.makeRoom grant number value.length with
    | none => exact ⟨options, comprises.noteMaximum _ number⟩
    | some gap =>
      obtain ⟨notedPdu, notedLength, notedCount, _, _, notedOwned⟩ := this.noteMaximum_facts this.pduLength number
      have token : (this.noteMaximum this.pduLength number).getTokenLength = this.getTokenLength := by
        rw [getTokenLength, getTokenLength, notedPdu]
      have opened : (this.noteMaximum this.pduLength number).openGap grant number
          (this.noteMaximum this.pduLength number).pduLength previous
          (this.optionLength number value.length) = some gap := by
        rw [notedLength, ← room, makeRoom, place]
      rw [optionLength_eq fits, place] at opened
      have gapOpened := openGap_end number (notedOwned comprises.owned) opened
      rw [notedLength] at gapOpened
      obtain ⟨stored, _, filled⟩ := @GapOpened.comprises _ gap options [] _ _ number value [] [] gapOpened
        (by rw [token, notedPdu]; exact comprises.holds) (by rw [token]; exact comprises.length_eq) rfl
        (by rw [List.append_nil]; exact comprises.encodable) (by omega) fits.length_le
        (by rw [notedCount, List.append_nil]; exact comprises.numOptions_eq)
      exact ⟨_, filled⟩
  · subst splitting
    rw [addOption_of_makeRoom stops.place]
    cases room : this.makeRoom grant number value.length with
    | none => exact ⟨_, comprises.noteMaximum _ number⟩
    | some gap =>
      obtain ⟨stored, _, filled⟩ := comprises.makeRoom_filled stops fits room
      rw [← stops.delta_eq] at filled
      exact ⟨_, filled⟩

theorem Built.comprises {this : CoapPDU} (built : this.Built) : ∃ options, this.Comprises options := by
  induction built with
  | fresh fresh => exact ⟨_, fresh.represents.1.comprises⟩
  | addOption grant _ bound fits inductionHypothesis =>
    obtain ⟨options, comprises⟩ := inductionHypothesis
    exact comprises.addOption grant bound fits

/-- An option is put in front of another one: the PDU does not shrink, the bytes on both sides but for the header
and the delta of that option are moved and not written to, and every option is read as before. -/
theorem addOption_frames {this : CoapPDU} {number : Nat} {value : List UInt8} (built : this.Built)
    (bound : number ≤ 65535) (fits : this.TotalLengthFits number value)
    (inFront : (this.findInsertionPosition number).1 < this.pduLength) (grant : Option Realloc) :
    let position := (this.findInsertionPosition number).1
    let behind := position + 1 + computeExtraBytes (this.nextOptionDelta number)
    ∃ opened : Nat, this.mallocLength number value.length = opened ∧
      (∀ gap, this.makeRoom grant number value.length = some gap →
        Memory.Spread this.pdu gap.pdu position behind this.pduLength opened) ∧
      ∀ next, this.addOption grant number value.length value = (0, next) →
        next.pduLength = this.pduLength + opened ∧
        Memory.Spread this.pdu next.pdu position behind this.pduLength opened ∧
        ∃ before after stored, this.readOptions = before ++ after ∧ after ≠ [] ∧ stored.length = value.length ∧
          next.readOptions = before ++ ⟨number, stored⟩ :: after := by
  obtain ⟨options, comprises⟩ := built.comprises
  -- behind the last option the gap is at the end, which is excluded
  rcases comprises.place bound with ⟨previous, place⟩ | ⟨position, previous, before, next, rest, splitting, stops⟩
  · rw [place] at inFront
    exact absurd inFront (Nat.lt_irrefl _)
  · subst splitting
    obtain ⟨opened, openedEq, growth⟩ := comprises.mallocLength_eq stops fits
    have low := stops.low
    have high := stops.high
    have small := stops.small
    simp only [stops.place, comprises.nextOptionDelta_eq stops, computeExtraBytes_eq]
    refine ⟨opened, openedEq, fun gap room => comprises.makeRoom_spread stops fits growth room, ?_⟩
    intro result success
    rw [addOption_of_makeRoom stops.place] at success
    cases room : this.makeRoom grant number value.length with
    | none => simp [room] at success
    | some gap =>
      simp only [room, stops.delta_eq, Prod.mk.injEq, true_and] at success
      obtain ⟨stored, length, filled⟩ := comprises.makeRoom_filled stops fits room
      rw [success] at filled
      -- the option that follows is rewritten relative to the new one, so the numbers are those from before
      have read := filled.readOptions_eq
      rw [Wire.absolute_append, ← stops.previous_eq,
        @Wire.absolute_insert previous number _ _ next.delta stored next.value rest (by omega) (by omega)] at read
      have readBefore := comprises.readOptions_eq
      rw [Wire.absolute_append, ← stops.previous_eq] at readBefore
      refine ⟨?_, ?_, _, _, stored, readBefore, nofun, length, read⟩
      · have unchanged : result.pduLength = gap.pduLength := by
          rw [← success]
          rfl
        rw [unchanged]
        exact comprises.makeRoom_length stops fits growth room
      · -- the new option ends in front of what was moved
        have size := stops.optionLength_eq fits
        obtain ⟨_, frame⟩ := gap.insertOption_spec position (number - previous) value
        apply (comprises.makeRoom_spread stops fits growth room).filled
        intro i outside
        rw [← success]
        exact frame i (by omega)

/-- The option behind loses both bytes of its delta. -/
theorem addOption_frames_narrowed : ∃ this next : CoapPDU, this.Built ∧
    this.addOption (some ⟨2, fun _ => 0⟩) 290 1 [97] = (0, next) ∧ this.mallocLength 290 1 = 2 ∧
    next.pduLength = this.pduLength + 2 ∧
    ∃ before after stored, this.readOptions = before ++ after ∧ after ≠ [] ∧ stored.length = 1 ∧
      next.readOptions = before ++ ⟨290, stored⟩ :: after := by
  obtain ⟨this, thisEq⟩ : ∃ this, this = ((new 0 fun _ => 0).addOption (some ⟨1, fun _ => 0⟩) 300 1 [50]).2 :=
    ⟨_, rfl⟩
  have built : this.Built := by
    rw [thisEq]
    exact @Built.addOption _ 300 [50] _ (.fresh (.new 0 _)) (by decide) (by decide)
  have success : (this.addOption (some ⟨2, fun _ => 0⟩) 290 1 [97]).1 = 0 := by
    rw [thisEq]
    rfl
  have room : this.mallocLength 290 1 = 2 := by
    rw [thisEq]
    rfl
  have fits : this.TotalLengthFits 290 [97] := by
    rw [thisEq]
    decide
  have inFront : (this.findInsertionPosition 290).1 < this.pduLength := by
    rw [thisEq]
    decide
  obtain ⟨opened, openedEq, _, framed⟩ :=
    @addOption_frames this 290 [97] built (by decide) fits inFront (some ⟨2, fun _ => 0⟩)
  obtain ⟨length, _, read⟩ := framed _ (Prod.ext success rfl)
  have two : opened = 2 := Int.ofNat.inj (openedEq.symm.trans room)
  exact ⟨this, _, built, Prod.ext success rfl, room, two ▸ length, read⟩

end CoapPDU

end SmingCoap
