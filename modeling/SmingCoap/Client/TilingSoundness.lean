import SmingCoap.Client.ValidateSoundness

/-! # The options that `getOptions` lists

`validate` walks over the options by the bytes that are left and records their number; `getOptions` walks over
them again by that number and checks nothing.  Both read the same delta and the same value length at the same
position, so their turns keep step (`validateLoop_tiled`), and the entries tile the PDU from the end of the token
to the payload marker or the end.  Nothing is asked of the options: one that is misread is misread by both.
-/

namespace SmingCoap

open Wire (Memory Cursor Finishes)

/-- The entries lie one behind the other from `start` to `stop`, each with its value inside it, and their numbers
are the 16-bit sums of the deltas from `number` on. -/
def Tiles (memory : Memory) (start number stop : Nat) : List CoapOption → Prop
  | [] => start = stop
  | option :: rest =>
    (option.optionPointer = start ∧
      option.optionDelta = CoapPDU.getOptionDelta (memory.offset start) ∧
      option.optionValueLength = CoapPDU.getOptionValueLength (memory.offset start) ∧
      option.optionNumber = (number + option.optionDelta) % 65536 ∧
      option.optionPointer < option.optionValuePointer ∧
      option.optionValuePointer + option.optionValueLength = option.optionPointer + option.totalLength) ∧
    Tiles memory (option.optionPointer + option.totalLength) option.optionNumber stop rest

namespace CoapPDU

/-- How far the options of a PDU reach: up to the payload marker, or to the end. -/
def optionsEnd (this : CoapPDU) : Nat :=
  this.pduLength - if this.payloadLength = 0 then 0 else this.payloadLength + 1

theorem length_getOptionsLoop (this : CoapPDU) (remaining optionPos optionNumber : Nat) :
    (this.getOptionsLoop remaining optionPos optionNumber).length = remaining := by
  induction remaining generalizing optionPos optionNumber with
  | zero => rfl
  | succ remaining inductionHypothesis => simp [getOptionsLoop, inductionHypothesis]

/-- The walk depends on the bytes alone. -/
theorem getOptionsLoop_congr {left right : CoapPDU} (same : left.pdu = right.pdu)
    (remaining optionPos optionNumber : Nat) :
    left.getOptionsLoop remaining optionPos optionNumber = right.getOptionsLoop remaining optionPos optionNumber := by
  induction remaining generalizing optionPos optionNumber with
  | zero => rfl
  | succ remaining inductionHypothesis => simp only [getOptionsLoop, same, inductionHypothesis]

/-- Where `validate` reads an option, `getOptions` reads the same one and goes on to the same place. -/
theorem getOptionsLoop_tiled (this : CoapPDU) (remaining stop : Nat) {cursor next : Cursor}
    (reads : Reads this.pdu this.pduLength cursor next)
    (rest : Tiles this.pdu next.position next.number stop
      (this.getOptionsLoop remaining next.position next.number)) :
    Tiles this.pdu cursor.position cursor.number stop
      (this.getOptionsLoop (remaining + 1) cursor.position cursor.number) := by
  have delta := getOptionDelta_eq this.pdu cursor.position reads.upper
  have length := getOptionValueLength_eq this.pdu cursor.position reads.upper reads.lower
  have behind : next.position = cursor.position +
      (1 + computeExtraBytes (getOptionDelta (this.pdu.offset cursor.position)) +
        computeExtraBytes (getOptionValueLength (this.pdu.offset cursor.position)) +
        getOptionValueLength (this.pdu.offset cursor.position)) := by
    rw [delta, length, reads.next_eq, advance, computeExtraBytes_eq, computeExtraBytes_eq]
  have number : next.number =
      (cursor.number + getOptionDelta (this.pdu.offset cursor.position)) % 65536 := by
    rw [delta, reads.next_eq, advance]
  rw [behind, number] at rest
  rw [getOptionsLoop, Tiles]
  refine ⟨⟨rfl, rfl, rfl, rfl, ?_, ?_⟩, rest⟩
  · simp only
    omega
  · simp only
    omega

/-- The two loops in step: from where the loop of `validate` accepts, the walk of `getOptions` tiles the rest in as
many turns as the loop counted. -/
theorem validateLoop_tiled (this after : CoapPDU) (fuel numOptions : Nat) (cursor : Cursor)
    (within : cursor.position ≤ this.pduLength) (enough : this.pduLength - cursor.position < fuel)
    (accepts : validateLoop fuel this cursor.position (this.pduLength - cursor.position) cursor.number numOptions =
      (1, after)) :
    after.pdu = this.pdu ∧ after.pduLength = this.pduLength ∧
      ∃ remaining, after.numOptions = numOptions + remaining ∧
        Tiles this.pdu cursor.position cursor.number after.optionsEnd
          (this.getOptionsLoop remaining cursor.position cursor.number) := by
  induction fuel generalizing cursor numOptions with
  | zero => omega
  | succ fuel inductionHypothesis =>
    by_cases finishes : Finishes this.pdu this.pduLength cursor.position
    · rw [validateLoop_finishes this fuel _ _ _ finishes] at accepts
      cases accepts
      refine ⟨rfl, rfl, 0, rfl, ?_⟩
      simp only [getOptionsLoop, Tiles, optionsEnd]
      -- where the options end without a payload, and in front of a marker
      rcases finishes with atEnd | ⟨_, filled⟩
      · rw [if_pos (by omega)]
        omega
      · rw [if_neg (by omega)]
        omega
    · by_cases readable : ∃ next, Reads this.pdu this.pduLength cursor next
      · obtain ⟨next, reads⟩ := readable
        have progress := reads.lt
        have room := reads.room
        rw [validateLoop_reads _ _ _ reads] at accepts
        obtain ⟨pdu, length, remaining, counted, tiled⟩ :=
          inductionHypothesis (numOptions + 1) next room (by omega) accepts
        refine ⟨pdu, length, remaining + 1, ?_, this.getOptionsLoop_tiled remaining _ reads tiled⟩
        rw [counted]
        omega
      · have stuck := validateLoop_stuck this fuel numOptions within finishes (not_exists.mp readable)
        rw [accepts] at stuck
        cases stuck

/-- Of every byte array that `validate` accepts, `getOptions` lists the recorded number of options, and they tile
it. -/
theorem options_tiled (this after : CoapPDU) (valid : this.validate = (1, after)) :
    after.getOptions.length = after.numOptions ∧
      Tiles after.pdu (hdrSize + after.getTokenLength) 0 after.optionsEnd after.getOptions := by
  refine ⟨after.length_getOptionsLoop _ _ _, ?_⟩
  by_cases header : HeaderAccepted this.pdu this.pduLength
  · have token := header.token
    rw [this.validate_of_header header] at valid
    split at valid
    next atEnd =>
      cases valid
      simp only [getOptions, getOptionsLoop, Tiles, optionsEnd, getTokenLength_eq, hdrSize]
      rw [if_pos trivial]
      exact atEnd
    next inside =>
      obtain ⟨pdu, _, remaining, counted, tiled⟩ :=
        validateLoop_tiled this after _ 0 ⟨_, 0⟩ token (by simp only; omega) valid
      rw [Nat.zero_add] at counted
      rw [getOptions, counted, getTokenLength_eq, pdu, getOptionsLoop_congr pdu]
      exact tiled
  · have rejects := this.validate_rejects header
    rw [valid] at rejects
    cases rejects

/-- Two options and a payload. -/
theorem options_tiled_path : ∃ after : CoapPDU,
    (ofBytes 0 (Memory.copy (fun _ => 0) 0 [0x40, 1, 0, 0, 0xB1, 0x61, 0x01, 0x62, 0xFF, 0x63]) 10).validate =
      (1, after) ∧ after.numOptions = 2 ∧ after.getOptions.length = 2 ∧
      Tiles after.pdu 4 0 8 after.getOptions := by
  have tiled := options_tiled
    (ofBytes 0 (Memory.copy (fun _ => 0) 0 [0x40, 1, 0, 0, 0xB1, 0x61, 0x01, 0x62, 0xFF, 0x63]) 10) _ rfl
  exact ⟨_, rfl, rfl, tiled.1, tiled.2⟩

end CoapPDU

end SmingCoap
