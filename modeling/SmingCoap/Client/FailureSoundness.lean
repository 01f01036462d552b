import SmingCoap.Client.TokenSoundness
import SmingCoap.Transition.Comparison

/-! # Calls that fail

A mutator that finds no space returns 1, and its caller may go on with the PDU.  What it may then see is compared with
a run in which the failed call was not made.  `setPayload` leaves nothing behind.  `addOption` notes the biggest number
before it knows whether there is space, and a later option that goes to the end is encoded relative to that number
(`maxima_told_apart`).  `setToken` restores the length from eight bits, and a shorter token has moved the options by
the time its `realloc` fails.
-/

namespace SmingCoap

open Wire (Memory)
open Transition (outcomes Alike AllHave allHave_cons allHave_nil)

namespace CoapPDU

/-! ## What a caller sees -/

/-- A call with its arguments and with what `realloc` does in it. -/
inductive Call where
  | reset
  | setVersion (version : UInt8)
  | setType (type : MessageType)
  | setCode (code : UInt8)
  | setMessageID (messageID : UInt16)
  | setToken (grant : Option Realloc) (token : List UInt8)
  | addOption (grant : Option Realloc) (number : UInt16) (value : List UInt8)
  | setURI (heap : Heap) (uri : List UInt8)
  | setContentFormat (grant : Option Realloc) (format : Nat)
  | mallocPayload (grant : Option Realloc) (len : Nat)
  | setPayload (grant : Option Realloc) (payload : List UInt8)
  | setPDULength (len : Nat)
  | validate

/-- The call made, with 0 for success as most of them return it. -/
def perform (this : CoapPDU) : Call → Nat × CoapPDU
  | .reset => (0, this.reset)
  | .setVersion version => (0, this.setVersion version)
  | .setType type => (0, this.setType type)
  | .setCode code => (0, this.setCode code)
  | .setMessageID messageID => (0, this.setMessageID messageID.toNat)
  | .setToken grant token => this.setToken grant token
  | .addOption grant number value => this.addOption grant number.toNat value.length value
  | .setURI heap uri => ((this.setURI heap uri).1, (this.setURI heap uri).2.1)
  | .setContentFormat grant format => this.setContentFormat grant format
  | .mallocPayload grant len =>
    (if (this.mallocPayload grant len).1 = none then 1 else 0, (this.mallocPayload grant len).2)
  | .setPayload grant payload => this.setPayload grant payload
  | .setPDULength len => (0, this.setPDULength len)
  | .validate => (1 - this.validate.1, this.validate.2)

/-- What the accessors return. -/
structure View where
  bytes : List UInt8
  pduLength : Nat
  version : UInt8
  type : MessageType
  token : List UInt8
  code : UInt8
  messageID : Nat
  numOptions : Nat
  options : List Wire.Opt
  payloadLength : Nat
  payload : List UInt8
  deriving DecidableEq

def view (this : CoapPDU) : View where
  bytes := this.bytes
  pduLength := this.pduLength
  version := this.getVersion
  type := this.getType
  token := this.getToken
  code := this.getCode
  messageID := this.getMessageID
  numOptions := this.getNumOptions
  options := this.readOptions
  payloadLength := this.payloadLength
  payload := this.getPayload

/-- Every call of the sequence returns 0. -/
def Succeed (this : CoapPDU) (calls : List Call) : Prop := AllHave (· = 0) perform view this calls

/-- Nobody can tell that the PDU is `after` and not `this`: they look the same, and the results of any sequence of
calls that succeed on one of them are the same. -/
def Unnoticed (this after : CoapPDU) : Prop :=
  after.view = this.view ∧
    ∀ calls, this.Succeed calls ∨ after.Succeed calls → Alike perform view after this calls

theorem Unnoticed.refl (this : CoapPDU) : this.Unnoticed this :=
  ⟨rfl, fun calls _ => Alike.of_eq rfl calls⟩

theorem Unnoticed.pduLength {this after : CoapPDU} (unnoticed : this.Unnoticed after) :
    after.pduLength = this.pduLength :=
  congrArg View.pduLength unnoticed.1

/-! ## The biggest number -/

section

variable {this next : CoapPDU} {grant : Option Realloc} {number : Nat} {value : List UInt8}

/-- A failing call has only noted the number. -/
theorem addOption_refused (failed : (this.addOption grant number value.length value).1 ≠ 0) :
    (this.addOption grant number value.length value).2 =
      this.noteMaximum (this.findInsertionPosition number).1 number := by
  cases place : this.findInsertionPosition number with
  | mk position previous =>
    simp only [addOption, place] at failed ⊢
    split
    next => rfl
    next gap opened => simp [opened] at failed

theorem noteMaximum_eq_iff {position : Nat} :
    this.noteMaximum position number = this ↔ position ≠ this.pduLength ∨ number = this.maxAddedOptionNumber := by
  rw [noteMaximum]
  split
  next last =>
    simp only [last, ne_eq, not_true_eq_false, false_or]
    exact ⟨fun same => congrArg CoapPDU.maxAddedOptionNumber same, fun same => by rw [same]⟩
  next middle => simp [middle]

theorem findInsertionPosition_last (maximum : this.maxAddedOptionNumber ≤ number) :
    this.findInsertionPosition number = (this.pduLength, this.maxAddedOptionNumber) :=
  if_pos (Or.inl maximum)

/-- What an empty option adds when it goes to the end. -/
theorem addOption_last_spec (maximum : this.maxAddedOptionNumber ≤ number) (bound : number ≤ 65535)
    (success : this.addOption grant number 0 [] = (0, next)) :
    next.pduLength = this.pduLength + (1 + Wire.extra (number - this.maxAddedOptionNumber)) ∧
      next.pdu this.pduLength = UInt8.ofNat (Wire.nibble (number - this.maxAddedOptionNumber) * 16) := by
  have place := findInsertionPosition_last maximum
  have delta : (number + 65536 - this.maxAddedOptionNumber) % 65536 = number - this.maxAddedOptionNumber := by omega
  have extraBound := Wire.extra_le (number - this.maxAddedOptionNumber)
  have fits : this.TotalLengthFits number [] := by
    rw [TotalLengthFits, place, delta, computeExtraBytes_eq, optionHdrByte]
    simp only [List.length_nil, show computeExtraBytes 0 = 0 from rfl]
    omega
  obtain ⟨gap, opened, nextEq, _⟩ := addOption_opened place fits success
  rw [delta] at opened nextEq
  rw [openGap, (noteMaximum_facts ..).2.1, if_pos rfl] at opened
  have length := reserve_length opened
  have written := (gap.insertOption_spec this.pduLength (number - this.maxAddedOptionNumber) []).1
  rw [Wire.encodeOption, Memory.holds_cons] at written
  refine ⟨?_, ?_⟩
  · rw [nextEq]
    exact length
  · rw [nextEq]
    exact written.1

/-- One free byte is enough for an empty option with the biggest number again. -/
theorem addOption_last_succeeds (same : number = this.maxAddedOptionNumber)
    (room : this.HasRoom grant (this.pduLength + 1)) : (this.addOption grant number 0 []).1 = 0 := by
  have place := findInsertionPosition_last (Nat.le_of_eq same.symm)
  have noted : this.noteMaximum this.pduLength number = this := noteMaximum_eq_iff.mpr (Or.inr same)
  have delta : (number + 65536 - this.maxAddedOptionNumber) % 65536 = 0 := by omega
  obtain ⟨reserved, reservedEq⟩ := Option.isSome_iff_exists.mp (reserve_isSome.mpr room)
  simp only [addOption, place, noted, delta, openGap, if_true]
  rw [show (optionHdrByte + computeExtraBytes 0 + computeExtraBytes 0 + 0) % 65536 = 1 from rfl, reservedEq]

end

/-- A byte that both PDUs have reads the same off both when they look the same. -/
theorem pdu_of_view {left right : CoapPDU} (same : left.view = right.view) {i : Nat} (inside : i < left.pduLength) :
    left.pdu i = right.pdu i := by
  have length : left.pduLength = right.pduLength := congrArg View.pduLength same
  have bytes : left.pdu.bytes 0 left.pduLength = right.pdu.bytes 0 right.pduLength := congrArg View.bytes same
  have leftByte := Memory.getElem_bytes left.pdu 0 left.pduLength i (by simpa using inside)
  have rightByte := Memory.getElem_bytes right.pdu 0 right.pduLength i (by simpa using length ▸ inside)
  rw [Nat.zero_add] at leftByte rightByte
  rw [← leftByte, ← rightByte]
  exact List.getElem_of_eq bytes _

/-- Two PDUs that differ in the biggest number alone are told apart by an option with the bigger one, for which there
is room on the PDU that has it. -/
theorem maxima_told_apart (this : CoapPDU) (grant : Option Realloc) (low high : UInt16) (below : low < high)
    (room : this.HasRoom grant (this.pduLength + 1)) :
    Succeed { this with maxAddedOptionNumber := high.toNat } [.addOption grant high []] ∧
      ¬ Alike perform view { this with maxAddedOptionNumber := low.toNat }
        { this with maxAddedOptionNumber := high.toNat } [.addOption grant high []] := by
  have order : low.toNat < high.toNat := below
  have bound : high.toNat ≤ 65535 := by have small := high.toNat_lt; omega
  have taken : (addOption { this with maxAddedOptionNumber := high.toNat } grant high.toNat 0 []).1 = 0 :=
    addOption_last_succeeds rfl room
  refine ⟨allHave_cons.mpr ⟨taken, allHave_nil _⟩, ?_⟩
  intro alike
  obtain ⟨codes, same, _⟩ := alike.head
  simp only [perform, List.length_nil] at codes same
  -- both calls succeed, so both options are there to be compared
  have lowSpec := addOption_last_spec (Nat.le_of_lt order) bound (Prod.ext (codes.trans taken) rfl)
  have highSpec := addOption_last_spec (Nat.le_refl _) bound (Prod.ext taken rfl)
  have length := congrArg View.pduLength same
  simp only [view] at length
  have byte := pdu_of_view same (i := this.pduLength) (by rw [lowSpec.1]; simp only; omega)
  simp only at lowSpec highSpec
  rw [lowSpec.1, highSpec.1, Nat.sub_self, show Wire.extra 0 = 0 from rfl] at length
  rw [lowSpec.2, highSpec.2, Nat.sub_self, show Wire.nibble 0 = 0 from rfl] at byte
  have small : high.toNat - low.toNat < 13 := by
    by_contra large
    rw [Wire.extra, if_neg large] at length
    split at length <;> omega
  rw [Wire.nibble, if_pos small] at byte
  have numbers := congrArg UInt8.toNat byte
  rw [Wire.toNat_ofNat_of_lt (by omega), Wire.toNat_ofNat_of_lt (by omega)] at numbers
  omega

/-- A number noted for an option that was not added shows as soon as there is space for a byte. -/
theorem not_unnoticed (this : CoapPDU) {number : Nat} (buffer : 0 < this.bufferLength) (bound : number ≤ 65535)
    (maximum : this.maxAddedOptionNumber ≤ 65535) (other : number ≠ this.maxAddedOptionNumber) :
    ¬ this.Unnoticed { this with maxAddedOptionNumber := number } := by
  intro unnoticed
  have room : (this.setPDULength (this.bufferLength - 1)).HasRoom (some ⟨0, fun _ => 0⟩)
      (this.bufferLength - 1 + 1) := by
    rw [HasRoom]
    split
    · rfl
    · exact Nat.le_of_eq (Nat.sub_add_cancel buffer)
  have numberEq : (UInt16.ofNat number).toNat = number := UInt16.toNat_ofNat_of_lt' (by rw [UInt16.size]; omega)
  have maximumEq : (UInt16.ofNat this.maxAddedOptionNumber).toNat = this.maxAddedOptionNumber :=
    UInt16.toNat_ofNat_of_lt' (by rw [UInt16.size]; omega)
  -- the PDU is made one byte shorter than its buffer, and then an option with the bigger of the two numbers is added
  have apart := fun low high below =>
    maxima_told_apart (this.setPDULength (this.bufferLength - 1)) (some ⟨0, fun _ => 0⟩) low high below room
  rcases Nat.lt_or_gt_of_ne other with smaller | bigger
  · have below : UInt16.ofNat number < UInt16.ofNat this.maxAddedOptionNumber := by
      rw [UInt16.lt_iff_toNat_lt, numberEq, maximumEq]
      exact smaller
    obtain ⟨succeeds, differ⟩ := apart _ _ below
    rw [numberEq, maximumEq] at differ
    rw [maximumEq] at succeeds
    have alike := unnoticed.2 (.setPDULength (this.bufferLength - 1) :: [_])
      (Or.inl (allHave_cons.mpr ⟨rfl, succeeds⟩))
    exact differ alike.head.2.2
  · have below : UInt16.ofNat this.maxAddedOptionNumber < UInt16.ofNat number := by
      rw [UInt16.lt_iff_toNat_lt, numberEq, maximumEq]
      exact bigger
    obtain ⟨succeeds, differ⟩ := apart _ _ below
    rw [numberEq, maximumEq] at differ
    rw [numberEq] at succeeds
    have alike := unnoticed.2 (.setPDULength (this.bufferLength - 1) :: [_])
      (Or.inr (allHave_cons.mpr ⟨rfl, succeeds⟩))
    exact differ alike.head.2.2.symm

/-! ## The three mutators -/

section

variable {this : CoapPDU} {grant : Option Realloc}

/-- Without space for a payload nothing changes. -/
theorem mallocPayload_refused {len : Nat} (null : (this.mallocPayload grant len).1 = none) :
    (this.mallocPayload grant len).2 = this := by
  simp only [mallocPayload] at null ⊢
  split
  next => rfl
  next filled =>
    split
    next => rfl
    next other =>
      rw [if_neg filled, if_neg other] at null
      split
      next => rfl
      next reserved reservedEq =>
        rw [reservedEq] at null
        cases pointer : this.payloadPointer <;> simp [pointer] at null

theorem setPayload_refused {payload : List UInt8} (failed : (this.setPayload grant payload).1 = 1) :
    (this.setPayload grant payload).2 = this := by
  simp only [setPayload] at failed ⊢
  split
  next after result =>
    have same : (this.mallocPayload grant payload.length).2 = this := mallocPayload_refused (by rw [result])
    rw [result] at same
    exact same
  next pointer after result =>
    rw [result] at failed
    simp only at failed
    split at failed <;> cases failed

/-- What a failing `setToken` leaves: nothing new for an empty token, the old length as eight bits hold it for a longer
one, and the shorter length already for a shorter one. -/
theorem setToken_refused {token : List UInt8} (failed : (this.setToken grant token).1 = 1) :
    token.length = 0 ∧ (this.setToken grant token).2 = this ∨
      token.length ≠ 0 ∧ token.length ≠ this.getTokenLength ∧
        (this.pduLength % 256 < this.pduLength - this.getTokenLength + token.length ∧
            (this.setToken grant token).2 = { this with pduLength := this.pduLength % 256 } ∨
          this.pduLength - this.getTokenLength + token.length ≤ this.pduLength % 256 ∧
            (this.setToken grant token).2.pduLength = this.pduLength - this.getTokenLength + token.length) := by
  simp only [setToken] at failed ⊢
  split
  next empty => exact Or.inl ⟨empty, rfl⟩
  next filled =>
    rw [if_neg filled] at failed
    refine Or.inr ⟨filled, ?_⟩
    split
    next same => simp [same] at failed
    next other =>
      rw [if_neg other] at failed
      refine ⟨other, ?_⟩
      split
      next bigger =>
        rw [if_pos bigger] at failed
        split
        next => exact Or.inl ⟨bigger, rfl⟩
        next reserved reservedEq => simp [reservedEq] at failed
      next smaller =>
        rw [if_neg smaller] at failed
        split
        next => exact Or.inr ⟨Nat.le_of_not_lt smaller, rfl⟩
        next released releasedEq => simp [releasedEq] at failed

end

/-- Exactly these failing calls leave nothing behind: an option that would not have gone to the end or that has the
biggest number, an empty token or a longer one for a PDU below 256 bytes, and every payload. -/
theorem unnoticed_iff (this : CoapPDU) (buffer : 0 < this.bufferLength) (inside : this.getTokenLength ≤ this.pduLength)
    (maximum : this.maxAddedOptionNumber ≤ 65535) (grant : Option Realloc) :
    (∀ (number : UInt16) value, (this.addOption grant number.toNat value.length value).1 = 1 →
      (this.Unnoticed (this.addOption grant number.toNat value.length value).2 ↔
        (this.findInsertionPosition number.toNat).1 ≠ this.pduLength ∨
          number.toNat = this.maxAddedOptionNumber)) ∧
    (∀ token, (this.setToken grant token).1 = 1 →
      (this.Unnoticed (this.setToken grant token).2 ↔
        token.length = 0 ∨ this.pduLength < 256 ∧ this.getTokenLength < token.length)) ∧
    ∀ payload, (this.setPayload grant payload).1 = 1 → this.Unnoticed (this.setPayload grant payload).2 := by
  refine ⟨?_, ?_, ?_⟩
  · intro number value failed
    rw [addOption_refused (by rw [failed]; decide), ← noteMaximum_eq_iff]
    -- the maximum is raised before space is asked for, and stays so
    constructor
    · intro unnoticed
      by_contra noted
      obtain ⟨last, other⟩ := not_or.mp (noteMaximum_eq_iff.not.mp noted)
      rw [noteMaximum, if_pos (not_not.mp last)] at unnoticed
      exact not_unnoticed this buffer (by have bound := number.toNat_lt; omega) maximum other unnoticed
    · intro same
      rw [same]
      exact Unnoticed.refl this
  · intro token failed
    -- a refused token leaves everything, or the length that eight bits hold, or a shorter PDU
    rcases setToken_refused failed with ⟨empty, same⟩ | ⟨filled, other, ⟨bigger, same⟩ | ⟨smaller, length⟩⟩
    · rw [same]
      exact iff_of_true (Unnoticed.refl this) (Or.inl empty)
    · rw [same]
      constructor
      · intro unnoticed
        have length : this.pduLength % 256 = this.pduLength := unnoticed.pduLength
        omega
      · intro fits
        have length : this.pduLength % 256 = this.pduLength := Nat.mod_eq_of_lt (by omega)
        rw [length]
        exact Unnoticed.refl this
    · refine iff_of_false (fun unnoticed => ?_) (by omega)
      have same := unnoticed.pduLength
      omega
  · intro payload failed
    rw [setPayload_refused failed]
    exact Unnoticed.refl this

/-- A value that is too long for an eight byte buffer. -/
theorem unnoticed_iff_content :
    ¬ Unnoticed (ofBuffer 0 (fun _ => 0) 8 0)
      ((ofBuffer 0 (fun _ => 0) 8 0).addOption none (20 : UInt16).toNat 10 (List.replicate 10 7)).2 := by
  have decided := (unnoticed_iff (ofBuffer 0 (fun _ => 0) 8 0) (by decide) (by decide) (by decide) none).1 20
    (List.replicate 10 7) (by decide)
  rw [List.length_replicate] at decided
  rw [decided]
  decide

/-- The next option, which fits, is encoded relative to the one that was not added. -/
theorem failure_noticed : ¬ ∀ (this : CoapPDU) (grant : Option Realloc) (number : UInt16) (value : List UInt8),
    (this.addOption grant number.toNat value.length value).1 = 1 →
      this.Unnoticed (this.addOption grant number.toNat value.length value).2 := by
  intro all
  have unnoticed := all (ofBuffer 0 (fun _ => 0) 8 0) none 20 (List.replicate 10 7) (by decide)
  have alike := unnoticed.2 [.addOption none 12 []] (Or.inl (allHave_cons.mpr ⟨by decide, allHave_nil _⟩))
  have bytes := congrArg View.bytes alike.head.2.1
  revert bytes
  decide

end CoapPDU

end SmingCoap
