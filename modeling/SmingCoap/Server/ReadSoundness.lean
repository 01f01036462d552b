import SmingCoap.Server.ParseExactness
import SmingCoap.Wire.Trace

/-! # The bytes the parser reads

`Reading.coapParseMessageFromDatagram` is the parser over a pointer that notes each read
(`value_coapParseMessageFromDatagram`).  The bound of `parse_OptionsFromRaw` is looked at once an option, before its
first byte and before its value; the token and the extension bytes are read without a look.  So the reads stay in
the datagram exactly when the token and the fields of each option that is come to end in it (`FieldsInside`).
-/

namespace SmingCoap.Server

open Wire (Memory Opt Source Traced Cursor Finishes)
open Relation (ReflTransGen)

namespace Reading

def parseField (srcArr : Source) (offset field : Nat) : Traced (Option (Nat × Nat)) :=
  if field = 13 then do
    let byte ← srcArr offset
    return some (byte.toNat + 13, (offset + 1) % 65536)
  else if field = 14 then do
    let high ← srcArr offset
    let low ← srcArr (offset + 1)
    return some (((high.toUInt16 <<< 8 ||| low.toUInt16).toNat + 269) % 65536, (offset + 2) % 65536)
  else if field = 15 then return none
  else return some (field, offset)

/-- The loop of `parse_OptionsFromRaw`; `CoAP_AppendOptionToList` copies the value once it has the memory. -/
def parseOptionsLoop (alloc : Nat → Bool) (srcArr : Source) (srcLength : Nat) :
    Nat → Nat → Nat → List Opt → Traced (Option (CoapResult × List Opt × Option Nat))
  | 0, _, _, _ => return none
  | fuel + 1, offset, lastOptionNumber, options =>
    if offset < srcLength then do
      let marker ← srcArr offset
      if marker = 0xFF then
        if srcLength - offset < 2 then return some (.parseMessageFormatError, options, none)
        else return some (.ok, options, some (offset + 1))
      else
        let upper ← srcArr offset
        let lower ← srcArr offset
        let currOptDelta ← parseField srcArr ((offset + 1) % 65536) (upper >>> 4).toNat
        match currOptDelta with
        | none => return some (.parseMessageFormatError, options, none)
        | some (currOptDelta, offset) =>
          let currOptLength ← parseField srcArr offset (lower &&& 0x0F).toNat
          match currOptLength with
          | none => return some (.parseMessageFormatError, options, none)
          | some (currOptLength, offset) =>
            if currOptLength > maxOptionValueSize then
              return some (.parseMessageFormatError, options, none)
            else if (srcLength : Int) - offset < currOptLength then
              return some (.parseMessageFormatError, options, none)
            else
              let lastOptionNumber := (currOptDelta + lastOptionNumber) % 65536
              if alloc options.length then
                let value ← (srcArr.offset offset).bytes currOptLength
                parseOptionsLoop alloc srcArr srcLength fuel ((offset + currOptLength) % 65536)
                  lastOptionNumber (appendOptionToList true options ⟨lastOptionNumber, value⟩).2
              else
                return some (.errOutOfMemory, (appendOptionToList false options ⟨lastOptionNumber, []⟩).2, none)
    else return some (.ok, options, none)

def parseOptionsFromRaw (alloc : Nat → Bool) (srcArr : Source) (srcLength : Nat) :
    Traced (Option (CoapResult × List Opt × Option Nat)) :=
  if srcLength = 0 then return some (.ok, [], none)
  else do
    let first ← srcArr 0
    if first = 0xFF then return some (.parseMessageFormatError, [], none)
    else parseOptionsLoop alloc srcArr srcLength 65536 0 0 []

def parseToken (srcArr : Source) (offset : Nat) : Nat → Traced UInt64
  | 0 => return 0
  | i + 1 => do
    let token ← parseToken srcArr offset i
    let byte ← srcArr (offset + i)
    return token ||| byte.toUInt64 <<< UInt64.ofNat (8 * i)

/-- The payload is copied into the memory for the message. -/
def copyPayload (available : Bool) (now : Nat) (msg : CoapMessage) (payload : Source) (payloadLength : Nat) :
    Traced (CoapResult × Option CoapMessage) :=
  if available then do
    let payload ← payload.bytes payloadLength
    return copyMessage true now { msg with payload, payloadBufSize := payloadLength }
  else return copyMessage false now msg

/-- The end of the parser, behind the options. -/
def copyParsed (alloc : Nat → Bool) (now : Nat) (msg : CoapMessage) (srcArr : Source) (srcArrLength offset : Nat) :
    Option (CoapResult × List Opt × Option Nat) → Traced (Option (CoapResult × Option CoapMessage))
  | none => return none
  | some (.ok, options, none) =>
    return some (copyMessage (alloc options.length) now { msg with options })
  | some (.ok, options, some payloadBegin) =>
    let payloadLength := (srcArrLength + 65536 - (offset + payloadBegin) % 65536) % 65536
    if payloadLength > maxPayloadSize then return some (.parseTooMuchPayload, none)
    else do
      let copied ← copyPayload (alloc options.length) now { msg with options } (srcArr.offset (offset + payloadBegin))
        payloadLength
      return some copied
  | some (failed, _, _) => return some (failed, none)

def coapParseMessageFromDatagram (alloc : Nat → Bool) (now : Nat) (srcArr : Source) (srcArrLength : Nat) :
    Traced (Option (CoapResult × Option CoapMessage)) :=
  if srcArrLength < 4 then return some (.parseDatagramTooShort, none)
  else do
    let version ← srcArr 0
    if version >>> 6 ≠ coapVersion then return some (.parseUnkownCoapVersion, none)
    else
      let type ← srcArr 0
      let header ← srcArr 0
      let tokenLength := (header &&& 0x0F).toNat
      if tokenLength > 8 then return some (.parseMessageFormatError, none)
      else
        let code ← srcArr 1
        let codeClass := code >>> 5
        if codeClass = 1 ∨ codeClass = 6 ∨ codeClass = 7 then return some (.parseMessageFormatError, none)
        else
          let high ← srcArr 2
          let low ← srcArr 3
          let msg := { coapInitToEmptyResetMsg with
            type := MessageType.ofBits ((type &&& 0x30) >>> 4).toNat
            code := code
            messageID := (high.toUInt16 <<< 8 ||| low.toUInt16).toNat }
          if srcArrLength = 4 then return some (copyMessage (alloc 0) now msg)
          else
            let token64 ← parseToken srcArr 4 tokenLength
            let msg := { msg with token64 }
            let offset := 4 + tokenLength
            if srcArrLength = offset then return some (copyMessage (alloc 0) now msg)
            else
              let srcLength := (srcArrLength + 65536 - offset) % 65536
              let parsed ← parseOptionsFromRaw alloc (srcArr.offset offset) srcLength
              copyParsed alloc now msg srcArr srcArrLength offset parsed

/-! ## The same results -/

@[simp] theorem value_parseField (memory : Memory) (base offset field : Nat) :
    (parseField (.pointer memory base) offset field).value =
      Server.parseField (memory.offset base) offset field := by
  simp only [parseField, Server.parseField, Traced.value_bind, Traced.value_ite, Traced.value_pure,
    Source.value_pointer, Memory.offset_apply]

@[simp] theorem value_parseToken (memory : Memory) (offset i : Nat) :
    (parseToken (.pointer memory 0) offset i).value = Server.parseToken memory offset i := by
  induction i with
  | zero => rfl
  | succ i inductionHypothesis => simp [parseToken, Server.parseToken, inductionHypothesis]

theorem value_parseOptionsLoop (alloc : Nat → Bool) (memory : Memory) (base srcLength fuel offset number : Nat)
    (options : List Opt) :
    (parseOptionsLoop alloc (.pointer memory base) srcLength fuel offset number options).value =
      Server.parseOptionsLoop alloc (memory.offset base) srcLength fuel offset number options := by
  induction fuel generalizing offset number options with
  | zero => rfl
  | succ fuel inductionHypothesis =>
    simp only [parseOptionsLoop, Server.parseOptionsLoop, Traced.value_bind, Traced.value_ite, Traced.value_pure,
      Source.value_pointer, Memory.offset_apply, value_parseField]
    congr 2
    cases Server.parseField (memory.offset base) ((offset + 1) % 65536) (memory (base + offset) >>> 4).toNat with
    | none => rfl
    | some delta =>
      obtain ⟨currOptDelta, lengthStart⟩ := delta
      simp only [Traced.value_bind, value_parseField]
      cases Server.parseField (memory.offset base) lengthStart (memory (base + offset) &&& 0x0F).toNat with
      | none => rfl
      | some length =>
        obtain ⟨currOptLength, valueStart⟩ := length
        simp only [Traced.value_bind, Traced.value_ite, Traced.value_pure, Source.offset_pointer, Source.value_bytes,
          inductionHypothesis, Memory.bytes_offset]
        congr 2
        -- without memory the value is not looked at
        cases available : alloc options.length with
        | true => simp [appendOptionToList]
        | false => simp [appendOptionToList]

theorem value_parseOptionsFromRaw (alloc : Nat → Bool) (memory : Memory) (base srcLength : Nat) :
    (parseOptionsFromRaw alloc (.pointer memory base) srcLength).value =
      Server.parseOptionsFromRaw alloc (memory.offset base) srcLength := by
  simp only [parseOptionsFromRaw, Server.parseOptionsFromRaw, Traced.value_bind, Traced.value_ite, Traced.value_pure,
    Source.value_pointer, Memory.offset_apply, value_parseOptionsLoop]
  rfl

theorem value_copyPayload (available : Bool) (now : Nat) (msg : CoapMessage) (memory : Memory)
    (base payloadLength : Nat) :
    (copyPayload available now msg (.pointer memory base) payloadLength).value =
      copyMessage available now { msg with
        payload := memory.bytes base payloadLength, payloadBufSize := payloadLength } := by
  cases available with
  | true => simp [copyPayload]
  | false => rfl

theorem value_coapParseMessageFromDatagram (alloc : Nat → Bool) (now : Nat) (memory : Memory) (srcArrLength : Nat) :
    (coapParseMessageFromDatagram alloc now (.pointer memory 0) srcArrLength).value =
      Server.coapParseMessageFromDatagram alloc now memory srcArrLength := by
  simp only [coapParseMessageFromDatagram, Server.coapParseMessageFromDatagram, Traced.value_bind, Traced.value_ite,
    Traced.value_pure, Source.value_pointer, Source.offset_pointer, Nat.zero_add, value_parseToken,
    value_parseOptionsFromRaw]
  congr 6
  cases Server.parseOptionsFromRaw alloc (memory.offset (4 + (memory 0 &&& 0x0F).toNat))
    ((srcArrLength + 65536 - (4 + (memory 0 &&& 0x0F).toNat)) % 65536) with
  | none => rfl
  | some parsed =>
    obtain ⟨result, options, payloadBegin⟩ := parsed
    cases result <;> cases payloadBegin <;> simp [copyParsed, value_copyPayload]

/-! ## Which positions -/

theorem parseField_within (memory : Memory) (base offset stop : Nat) {field : Nat} (valid : field ≤ 14) :
    (parseField (.pointer memory base) offset field).Within stop ↔
      Wire.width field = 0 ∨ base + offset + Wire.width field ≤ stop := by
  simp only [parseField, Traced.within_bind, Traced.within_ite, Traced.within_pure, Source.within_pointer,
    implies_true, and_true, Wire.width]
  split
  · omega
  · split <;> omega

theorem parseField_reserved_within (memory : Memory) (base offset stop : Nat) :
    (parseField (.pointer memory base) offset 15).Within stop := by
  simp [parseField]

theorem parseToken_within {memory : Memory} {offset i stop : Nat} :
    (parseToken (.pointer memory 0) offset i).Within stop ↔ i = 0 ∨ offset + i ≤ stop := by
  induction i with
  | zero => simp [parseToken]
  | succ i inductionHypothesis =>
    simp only [parseToken, Traced.within_bind, Traced.within_pure, Source.within_pointer, inductionHypothesis,
      Nat.zero_add, and_true]
    omega

end Reading

/-- The fields of the option at `position` end in the array; the length field of an option with a reserved delta is
not looked at. -/
def FieldsInside (srcArr : Memory) (srcLength position : Nat) : Prop :=
  Wire.upperNibble (srcArr position) ≤ 14 →
    position + 1 + Wire.width (Wire.upperNibble (srcArr position)) ≤ srcLength ∧
    (Wire.lowerNibble (srcArr position) ≤ 14 → position + Wire.headerSize srcArr position ≤ srcLength)

/-- The loop goes on behind an option when it passes and there is memory for it.  The second component counts the
options in the list. -/
def Goes (alloc : Nat → Bool) (srcArr : Memory) (srcLength : Nat) (here there : Cursor × Nat) : Prop :=
  Takes srcArr srcLength here.1 there.1 ∧ alloc here.2 = true ∧ there.2 = here.2 + 1

theorem length_append (options : List Opt) (option : Opt) :
    (append options option).length = options.length + 1 := by
  have split := congrArg List.length
    (List.takeWhile_append_dropWhile (p := fun other : Opt => decide (other.number ≤ option.number)) (l := options))
  simp only [append, appendOptionToList, if_true, List.length_append, List.length_cons] at split ⊢
  omega

/-- The count of a turn is the length of the list behind it. -/
theorem counted_append {options : List Opt} {next : Cursor × Nat} (option : Opt)
    (count : next.2 = options.length + 1) : next = (next.1, (append options option).length) := by
  rw [length_append]
  exact Prod.ext rfl count

section Loop

variable {alloc : Nat → Bool} {memory : Memory} {base srcLength fuel : Nat} {options : List Opt}

/-- Both fields are valid: they are read, and then the value if it is short enough, there and has memory. -/
theorem parseOptionsLoop_within_fields (cursor : Cursor) (small : srcLength ≤ 65531)
    (inside : cursor.position < srcLength) (upper : Wire.upperNibble (memory (base + cursor.position)) ≤ 14)
    (lower : Wire.lowerNibble (memory (base + cursor.position)) ≤ 14) :
    (Reading.parseOptionsLoop alloc (.pointer memory base) srcLength (fuel + 1) cursor.position cursor.number
        options).Within (base + srcLength) ↔
      cursor.position + Wire.headerSize (memory.offset base) cursor.position ≤ srcLength ∧
        ∀ next, Goes alloc (memory.offset base) srcLength (cursor, options.length) next →
          (Reading.parseOptionsLoop alloc (.pointer memory base) srcLength fuel next.1.position next.1.number
            (append options (taken (memory.offset base) cursor))).Within (base + srcLength) := by
  have marker := Wire.ne_marker_of_upperNibble upper
  have upperWidth := Wire.width_le (Wire.upperNibble (memory (base + cursor.position)))
  have first := parseField_eq (memory.offset base) upper (show cursor.position + 1 + 2 < 65536 by omega)
  have second := parseField_eq (memory.offset base) lower (show cursor.position + 1 +
    Wire.width (Wire.upperNibble (memory (base + cursor.position))) + 2 < 65536 by omega)
  have firstReads := Reading.parseField_within memory base (cursor.position + 1) (base + srcLength) upper
  have secondReads := Reading.parseField_within memory base (cursor.position + 1 +
    Wire.width (Wire.upperNibble (memory (base + cursor.position)))) (base + srcLength) lower
  rw [← Memory.offset_apply memory base, ← Wire.deltaAt] at first
  rw [← Memory.offset_apply memory base, ← Wire.lengthAt] at second
  simp only [Memory.offset_apply] at first second
  have header : cursor.position + 1 + Wire.width (Wire.upperNibble (memory (base + cursor.position))) +
      Wire.width (Wire.lowerNibble (memory (base + cursor.position))) =
      cursor.position + Wire.headerSize (memory.offset base) cursor.position := by
    rw [Wire.headerSize, Memory.offset_apply]
    omega
  have position : base + cursor.position < base + srcLength := by omega
  have number : (Wire.deltaAt (memory.offset base) cursor.position % 65536 + cursor.number) % 65536 =
      (cursor.number + Wire.deltaAt (memory.offset base) cursor.position) % 65536 := by omega
  simp only [Reading.parseOptionsLoop, Traced.within_bind, Traced.within_ite, Traced.within_pure,
    Source.within_pointer, Source.value_pointer, Reading.value_parseField, shiftRight_upper,
    Wire.and_lowerNibble, Nat.mod_eq_of_lt (show cursor.position + 1 < 65536 by omega), first, second, firstReads,
    secondReads, header, number, inside, position, marker, Source.offset_pointer, Source.value_bytes,
    Source.within_bytes, implies_true, true_and, and_true, not_false_eq_true, forall_const]
  -- what the loop appends is the option that the cursor takes
  have option : (⟨(cursor.number + Wire.deltaAt (memory.offset base) cursor.position) % 65536,
      memory.bytes (base + (cursor.position + Wire.headerSize (memory.offset base) cursor.position))
        (Wire.lengthAt (memory.offset base) cursor.position % 65536)⟩ : Opt) =
      taken (memory.offset base) cursor := by
    rw [taken, Memory.bytes_offset]
  have advanced : (advance (memory.offset base) cursor).position =
      cursor.position + Wire.headerSize (memory.offset base) cursor.position +
        Wire.lengthAt (memory.offset base) cursor.position % 65536 :=
    (Nat.add_assoc _ _ _).symm
  rw [option, ← advanced]
  constructor
  · rintro ⟨deltaInside, lengthInside, rest⟩
    refine ⟨by omega, ?_⟩
    intro next goes
    obtain ⟨takes, available, _⟩ := goes
    have short := takes.short
    have room := takes.room
    rw [takes.next_eq] at room ⊢
    simp only at short room
    have goesOn := (rest (by omega) (by omega) available).2
    rw [Nat.mod_eq_of_lt (by omega)] at goesOn
    exact goesOn
  · rintro ⟨headerInside, rest⟩
    refine ⟨by omega, by omega, ?_⟩
    intro short value available
    refine ⟨by omega, ?_⟩
    rw [Nat.mod_eq_of_lt (by omega)]
    have takes : Takes (memory.offset base) srcLength cursor (advance (memory.offset base) cursor) :=
      ⟨inside, upper, lower, Nat.not_lt.mp short, rfl, by omega⟩
    exact rest ⟨advance (memory.offset base) cursor, options.length + 1⟩ ⟨takes, available, rfl⟩

/-- What is read of an option, and behind it. -/
theorem parseOptionsLoop_within (cursor : Cursor) (small : srcLength ≤ 65531) :
    (Reading.parseOptionsLoop alloc (.pointer memory base) srcLength (fuel + 1) cursor.position cursor.number
        options).Within (base + srcLength) ↔
      (cursor.position < srcLength → FieldsInside (memory.offset base) srcLength cursor.position) ∧
        ∀ next, Goes alloc (memory.offset base) srcLength (cursor, options.length) next →
          (Reading.parseOptionsLoop alloc (.pointer memory base) srcLength fuel next.1.position next.1.number
            (append options (taken (memory.offset base) cursor))).Within (base + srcLength) := by
  by_cases goesOn : cursor.position < srcLength ∧ Wire.upperNibble (memory (base + cursor.position)) ≤ 14 ∧
      Wire.lowerNibble (memory (base + cursor.position)) ≤ 14
  · obtain ⟨inside, upper, lower⟩ := goesOn
    rw [parseOptionsLoop_within_fields cursor small inside upper lower]
    have fields : FieldsInside (memory.offset base) srcLength cursor.position ↔
        cursor.position + Wire.headerSize (memory.offset base) cursor.position ≤ srcLength := by
      rw [FieldsInside, Wire.headerSize]
      simp only [Memory.offset_apply, upper, lower, true_implies]
      omega
    simp only [fields, inside, true_implies]
  · -- the loop ends here, and the relation with it
    have noNext : ∀ next, ¬ Goes alloc (memory.offset base) srcLength (cursor, options.length) next :=
      fun next goes => goesOn ⟨goes.1.inside, goes.1.upper, goes.1.lower⟩
    have upperBound := Wire.upperNibble_lt (memory (base + cursor.position))
    have lowerBound := Wire.lowerNibble_lt (memory (base + cursor.position))
    simp only [noNext, false_implies, implies_true, and_true]
    by_cases inside : cursor.position < srcLength
    · simp only [inside, true_implies, Reading.parseOptionsLoop, Traced.within_bind, Traced.within_ite,
        Traced.within_pure, Source.within_pointer, Source.value_pointer, shiftRight_upper, Wire.and_lowerNibble,
        Reading.value_parseField, implies_true, true_and, and_true, not_true_eq_false,
        Nat.mod_eq_of_lt (show cursor.position + 1 < 65536 by omega), Nat.add_lt_add_iff_left]
      rw [FieldsInside, Memory.offset_apply]
      -- the length nibble is reserved, and its field is not read
      by_cases upper : Wire.upperNibble (memory (base + cursor.position)) ≤ 14
      · have reserved : Wire.lowerNibble (memory (base + cursor.position)) = 15 := by omega
        have first := parseField_eq (memory.offset base) upper (show cursor.position + 1 + 2 < 65536 by omega)
        have firstReads := Reading.parseField_within memory base (cursor.position + 1) (base + srcLength) upper
        have marker := Wire.ne_marker_of_upperNibble upper
        simp only [marker, first, firstReads, reserved, upper, Traced.within_bind, Traced.within_pure,
          Reading.value_parseField, parseField_reserved, Reading.parseField_reserved_within, not_false_eq_true,
          true_implies, and_true]
        omega
      · have reserved : Wire.upperNibble (memory (base + cursor.position)) = 15 := by omega
        simp [reserved, parseField_reserved, Reading.parseField_reserved_within]
    · simp [Reading.parseOptionsLoop, inside]

/-- The reads of the loop stay in the array exactly when the fields of each option it comes to end there. -/
theorem parseOptionsLoop_within_iff (cursor : Cursor) (small : srcLength ≤ 65531)
    (enough : srcLength - cursor.position < fuel) :
    (Reading.parseOptionsLoop alloc (.pointer memory base) srcLength fuel cursor.position cursor.number
        options).Within (base + srcLength) ↔
      ∀ last, ReflTransGen (Goes alloc (memory.offset base) srcLength) (cursor, options.length) last →
        last.1.position < srcLength → FieldsInside (memory.offset base) srcLength last.1.position := by
  induction fuel generalizing cursor options with
  | zero => omega
  | succ fuel inductionHypothesis =>
    rw [parseOptionsLoop_within cursor small]
    constructor
    · rintro ⟨fields, rest⟩ last path inside
      rcases path.cases_head with rfl | ⟨next, goes, behind⟩
      · exact fields inside
      · obtain ⟨takes, _, count⟩ := id goes
        have progress := takes.lt
        have started := takes.inside
        simp only at progress started
        -- the number of options says how many allocations were made
        rw [counted_append (taken (memory.offset base) cursor) count] at behind
        exact (inductionHypothesis next.1 (by omega)).mp (rest next goes) last behind inside
    · intro all
      refine ⟨all _ .refl, ?_⟩
      intro next goes
      obtain ⟨takes, _, count⟩ := id goes
      have progress := takes.lt
      have started := takes.inside
      simp only at progress started
      refine (inductionHypothesis next.1 (by omega)).mpr ?_
      intro last path
      rw [← counted_append (taken (memory.offset base) cursor) count] at path
      exact all last (.head goes path)

/-- The payload begins in the array. -/
theorem parseOptionsLoop_payload {srcArr : Memory} {offset number payloadBegin : Nat} {result : CoapResult}
    {parsed : List Opt}
    (ends : parseOptionsLoop alloc srcArr srcLength fuel offset number options =
      some (result, parsed, some payloadBegin)) :
    payloadBegin < srcLength := by
  induction fuel generalizing offset number options with
  | zero => cases ends
  | succ fuel inductionHypothesis =>
    simp only [parseOptionsLoop] at ends
    split at ends
    next inside =>
      split at ends
      -- the payload begins behind a marker that is not the last byte
      next marker =>
        split at ends
        · cases ends
        · cases ends
          omega
      next other =>
        cases first : parseField srcArr ((offset + 1) % 65536) (srcArr offset >>> 4).toNat with
        | none =>
          rw [first] at ends
          cases ends
        | some delta =>
          cases second : parseField srcArr delta.2 (srcArr offset &&& 0x0F).toNat with
          | none =>
            simp only [first, second] at ends
            cases ends
          | some length =>
            simp only [first, second] at ends
            split at ends
            · cases ends
            · split at ends
              · cases ends
              · split at ends
                · exact inductionHypothesis ends
                · cases ends
    next atEnd => cases ends

end Loop

section Datagram

variable {alloc : Nat → Bool} {memory : Memory} {length start : Nat}

/-- A payload that the options end before is copied from inside the datagram. -/
theorem copyPayload_within {now payloadBegin : Nat} {available : Bool} {msg : CoapMessage}
    (inside : start + payloadBegin < length) :
    (Reading.copyPayload available now msg (.pointer memory (start + payloadBegin))
      (length - (start + payloadBegin))).Within length := by
  cases available with
  | true =>
    simp only [Reading.copyPayload, if_true, Traced.within_bind, Traced.within_pure, Source.within_bytes, and_true]
    omega
  | false => simp [Reading.copyPayload]

/-- Behind the options only the payload is read, and it ends with the datagram. -/
theorem copyParsed_within {now : Nat} {msg : CoapMessage} (small : length ≤ 65535) (goesOn : start < length) :
    (Reading.copyParsed alloc now msg (.pointer memory 0) length start
      (parseOptionsFromRaw alloc (memory.offset start) (length - start))).Within length := by
  cases parsed : parseOptionsFromRaw alloc (memory.offset start) (length - start) with
  | none => simp [Reading.copyParsed]
  | some found =>
    obtain ⟨result, options, payloadBegin⟩ := found
    cases payloadBegin with
    | none => cases result <;> simp [Reading.copyParsed]
    | some payloadBegin =>
      have begins : payloadBegin < length - start := by
        simp only [parseOptionsFromRaw, show ¬ length - start = 0 by omega, if_false] at parsed
        split at parsed
        · cases parsed
        · exact parseOptionsLoop_payload parsed
      have payloadLength : (length + 65536 - (start + payloadBegin) % 65536) % 65536 =
          length - (start + payloadBegin) := by
        omega
      cases result <;>
        simp [Reading.copyParsed, payloadLength, copyPayload_within (show start + payloadBegin < length by omega)]

/-- The option section of a datagram that goes on behind the token. -/
theorem parseOptionsFromRaw_within (small : length ≤ 65535) (four : 4 ≤ start) (goesOn : start < length) :
    (Reading.parseOptionsFromRaw alloc (.pointer memory start) (length - start)).Within length ↔
      ∀ last, ReflTransGen (Goes alloc (memory.offset start) (length - start)) (⟨0, 0⟩, 0) last →
        last.1.position < length - start → FieldsInside (memory.offset start) (length - start) last.1.position := by
  have loop := @parseOptionsLoop_within_iff alloc memory start (length - start) 65536 [] ⟨0, 0⟩ (by omega)
    (by simp only; omega)
  rw [Nat.add_sub_cancel' (Nat.le_of_lt goesOn)] at loop
  simp only [Reading.parseOptionsFromRaw, Traced.within_bind, Traced.within_ite, Traced.within_pure,
    Source.within_pointer, Source.value_pointer, Nat.add_zero, implies_true, true_and,
    show ¬ length - start = 0 by omega, not_false_eq_true, forall_const, goesOn]
  constructor
  · intro reads last path inside
    by_cases marker : memory start = 0xFF
    · -- the marker in front is refused, and no option is come to
      rcases path.cases_head with rfl | ⟨next, goes, _⟩
      · intro upper
        exact absurd marker (Wire.ne_marker_of_upperNibble upper)
      · exact absurd marker goes.1.not_marker
    · exact loop.mp (reads marker) last path inside
  · intro fields _
    exact loop.mpr fields

end Datagram

/-- Behind a header that is accepted, the token and the fields of each option that is come to end in the
datagram. -/
def EndsInside (alloc : Nat → Bool) (memory : Memory) (length : Nat) : Prop :=
  HeaderAccepted memory length → length ≠ 4 →
    4 + (memory 0).toNat % 16 ≤ length ∧
    ∀ last, ReflTransGen
        (Goes alloc (memory.offset (4 + (memory 0).toNat % 16)) (length - (4 + (memory 0).toNat % 16)))
        (⟨0, 0⟩, 0) last →
      last.1.position < length - (4 + (memory 0).toNat % 16) →
      FieldsInside (memory.offset (4 + (memory 0).toNat % 16)) (length - (4 + (memory 0).toNat % 16)) last.1.position

/-- The reads of the parser stay in the datagram exactly when its token and its option fields end there. -/
theorem parse_reads_inside (alloc : Nat → Bool) (now : Nat) (memory : Memory) (srcArrLength : UInt16) :
    (Reading.coapParseMessageFromDatagram alloc now (.pointer memory 0) srcArrLength.toNat).value =
        coapParseMessageFromDatagram alloc now memory srcArrLength.toNat ∧
      ((Reading.coapParseMessageFromDatagram alloc now (.pointer memory 0) srcArrLength.toNat).Within
        srcArrLength.toNat ↔ EndsInside alloc memory srcArrLength.toNat) := by
  refine ⟨Reading.value_coapParseMessageFromDatagram .., ?_⟩
  have bound := srcArrLength.toNat_lt
  generalize srcArrLength.toNat = length at bound
  simp only [Reading.coapParseMessageFromDatagram, Traced.within_bind, Traced.within_ite, Traced.within_pure,
    Source.within_pointer, Source.value_pointer, Source.offset_pointer, Nat.zero_add, Wire.and_lowerNibble, version_eq,
    Reading.parseToken_within, Reading.value_parseOptionsFromRaw, implies_true, true_and, not_not, ne_eq]
  rw [EndsInside]
  constructor
  · intro reads header four
    obtain ⟨_, behind⟩ := reads (Nat.not_lt.mpr header.size)
    obtain ⟨_, _, behind⟩ := behind header.version
    obtain ⟨_, behind⟩ := behind (Nat.not_lt.mpr header.tokenLength)
    obtain ⟨_, _, behind⟩ := behind header.code
    obtain ⟨token, options⟩ := behind four
    have size := header.size
    rw [Wire.lowerNibble] at token options
    refine ⟨by omega, ?_⟩
    by_cases atEnd : length = 4 + (memory 0).toNat % 16
    · intro last _ inside
      omega
    -- the parser subtracts in 16 bits
    · have remaining : (length + 65536 - (4 + (memory 0).toNat % 16)) % 65536 =
          length - (4 + (memory 0).toNat % 16) := by
        omega
      have fields := (options atEnd).1
      rw [remaining] at fields
      exact (parseOptionsFromRaw_within (by omega) (Nat.le_add_right ..) (by omega)).mp fields
  · intro inside size
    refine ⟨by omega, fun version => ⟨by omega, by omega, fun tokenLength => ⟨by omega, fun code =>
      ⟨by omega, by omega, fun four => ?_⟩⟩⟩⟩
    obtain ⟨token, fields⟩ := inside ⟨Nat.not_lt.mp size, version, Nat.not_lt.mp tokenLength, code⟩ four
    refine ⟨.inr token, ?_⟩
    intro atEnd
    rw [Wire.lowerNibble] at atEnd ⊢
    have remaining : (length + 65536 - (4 + (memory 0).toNat % 16)) % 65536 =
        length - (4 + (memory 0).toNat % 16) := by
      omega
    rw [remaining]
    refine ⟨?_, copyParsed_within (by omega) (by omega)⟩
    exact (parseOptionsFromRaw_within (by omega) (Nat.le_add_right ..) (by omega)).mpr fields

/-- A token length of eight with one byte behind the header. -/
theorem parse_reads_behind : ¬ ∀ (alloc : Nat → Bool) (now : Nat) (memory : Memory) (srcArrLength : UInt16),
    (Reading.coapParseMessageFromDatagram alloc now (.pointer memory 0) srcArrLength.toNat).Within
      srcArrLength.toNat := by
  intro all
  have inside := all (fun _ => false) 0 (Memory.copy (fun _ => 0) 0 [0x48, 0x01, 0, 0, 0xAA]) 5
  have behind : 5 ∈ (Reading.coapParseMessageFromDatagram (fun _ => false) 0
      (.pointer (Memory.copy (fun _ => 0) 0 [0x48, 0x01, 0, 0, 0xAA]) 0) 5).reads := by
    decide +kernel
  exact absurd (inside 5 behind) (by decide)

end SmingCoap.Server
