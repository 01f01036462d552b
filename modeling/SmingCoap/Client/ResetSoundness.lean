import SmingCoap.Client.FailureSoundness

/-! # Using a container again

The constructors set version 1 in the header and `reset` clears it with the rest of the buffer.  None of the calls
that build a PDU sets it, so a container that is used again is never like a new one.  Everything else is
re-established: over an external buffer, `setVersion(1)` after `reset` gives the state of the constructor
(`reset_setVersion`).
-/

namespace SmingCoap

open Wire (Memory)
open Transition (Alike)

namespace CoapPDU

/-- A container as the constructors leave it, for a PDU that is yet to be built. -/
inductive NewlyConstructed : CoapPDU → Prop
  | new (block : Nat) (memory : Memory) : NewlyConstructed (new block memory)
  | ofBuffer (block : Nat) (buffer : Memory) (bufferLength : Nat) :
      NewlyConstructed (ofBuffer block buffer bufferLength 0)

/-- The first byte of both constructors. -/
theorem NewlyConstructed.getVersion {fresh : CoapPDU} (constructed : NewlyConstructed fresh) :
    fresh.getVersion = 1 := by
  cases constructed with
  | new block memory =>
    have first : (CoapPDU.new block memory).pdu 0 = 0x40 := by
      simp [CoapPDU.new, setVersion_one, Memory.copy]
    rw [CoapPDU.getVersion, first]
    rfl
  | ofBuffer block buffer bufferLength =>
    have first : (CoapPDU.ofBuffer block buffer bufferLength 0).pdu 0 = 0x40 := by
      simp [CoapPDU.ofBuffer, setVersion_one, Memory.copy]
    rw [CoapPDU.getVersion, first]
    rfl

/-- `memset` clears the version, too. -/
theorem reset_getVersion (this : CoapPDU) (buffer : 0 < this.bufferLength) : this.reset.getVersion = 0 := by
  have first : this.reset.pdu 0 = 0 := if_pos buffer
  rw [CoapPDU.getVersion, first]
  rfl

/-- A header of zeros is what the memory of the buffer already holds. -/
theorem reset_header (this : CoapPDU) (buffer : 4 ≤ this.bufferLength) :
    this.reset.pdu.copy 0 [0, 0, 0, 0] = this.reset.pdu := by
  funext i
  rw [Memory.copy]
  split
  next header =>
    have inside : i < 4 := header.2
    have cleared : this.reset.pdu i = 0 := if_pos (by omega)
    have zeros : ∀ i : Fin 4, [(0 : UInt8), 0, 0, 0].getD i.val 0 = 0 := by decide
    rw [cleared]
    exact zeros ⟨i, inside⟩
  next => rfl

/-- With the version set the container is the newly constructed one over the same buffer, so that no sequence of
calls tells them apart. -/
theorem reset_setVersion (this : CoapPDU) (external : this.constructedFromBuffer = true)
    (buffer : 4 ≤ this.bufferLength) (calls : List Call) :
    Alike perform view (this.reset.setVersion 1) (ofBuffer this.block this.reset.pdu this.bufferLength 0) calls := by
  apply Alike.of_eq
  rw [CoapPDU.ofBuffer, if_pos rfl, reset_header this buffer]
  congr 1
  rw [reset, external]

/-! ## The version stays -/

/-- Masks and bits that leave the upper two bits alone. -/
theorem version_update (byte : UInt8) {mask set : UInt8} (kept : mask &&& 0xC0 = 0xC0) (clear : set &&& 0xC0 = 0) :
    (byte &&& mask ||| set) &&& 0xC0 = byte &&& 0xC0 := by
  apply UInt8.toNat_inj.mp
  rw [UInt8.toNat_and, UInt8.toNat_or, UInt8.toNat_and, Nat.and_or_distrib_right, Nat.and_assoc,
    ← UInt8.toNat_and mask, ← UInt8.toNat_and set, kept, clear, ← UInt8.toNat_and]
  exact Nat.or_zero _

/-- A header and nothing else, in memory that exists. -/
structure Blank (this : CoapPDU) : Prop where
  buffer : this.constructedFromBuffer = false → 0 < this.bufferLength
  length : this.pduLength = 4
  noToken : this.getTokenLength = 0
  noPointer : this.payloadPointer = none
  noPayload : this.payloadLength = 0
  maximum : this.maxAddedOptionNumber = 0

/-- The calls that build a PDU. -/
def Call.Builds : Call → Prop
  | .setType _ | .setCode _ | .setMessageID _ | .setToken .. | .addOption .. | .setURI .. | .setContentFormat ..
  | .setPayload .. => True
  | _ => False

theorem NewlyConstructed.blank {fresh : CoapPDU} (constructed : NewlyConstructed fresh) : fresh.Blank := by
  cases constructed with
  | new block memory =>
    refine ⟨fun _ => Nat.zero_lt_succ 3, rfl, ?_, rfl, rfl, rfl⟩
    have first : (CoapPDU.new block memory).pdu 0 = 0x40 := by
      simp [CoapPDU.new, setVersion_one, Memory.copy]
    rw [getTokenLength, first]
    rfl
  | ofBuffer block buffer bufferLength =>
    refine ⟨fun dynamic => (by cases dynamic), rfl, ?_, rfl, rfl, rfl⟩
    have first : (CoapPDU.ofBuffer block buffer bufferLength 0).pdu 0 = 0x40 := by
      simp [CoapPDU.ofBuffer, setVersion_one, Memory.copy]
    rw [getTokenLength, first]
    rfl

theorem reset_blank (this : CoapPDU) (buffer : 0 < this.bufferLength) : this.reset.Blank := by
  refine ⟨fun _ => buffer, rfl, ?_, rfl, rfl, rfl⟩
  have first : this.reset.pdu 0 = 0 := if_pos buffer
  rw [getTokenLength, first]
  rfl

section

variable {this reserved : CoapPDU} {grant : Option Realloc}

theorem reserve_first {pduLength : Nat} (buffer : this.constructedFromBuffer = false → 0 < this.bufferLength)
    (positive : 0 < pduLength) (success : this.reserve grant pduLength = some reserved) :
    reserved.pdu 0 = this.pdu 0 ∧ (reserved.constructedFromBuffer = false → 0 < reserved.bufferLength) := by
  simp only [reserve] at success
  split at success
  next dynamic =>
    cases grant with
    | none => cases success
    | some memory =>
      cases success
      exact ⟨if_pos ⟨buffer dynamic, positive⟩, fun _ => positive⟩
  next external =>
    split at success
    next => cases success
    next =>
      cases success
      exact ⟨rfl, fun dynamic => absurd dynamic external⟩

/-- An option is written from its place on. -/
theorem insertOption_front (this : CoapPDU) {headerStart : Nat} (optionDelta optionValueLength : Nat)
    (optionValue : List UInt8) {i : Nat} (front : i < headerStart) :
    (this.insertOption headerStart optionDelta optionValueLength optionValue).pdu i = this.pdu i := by
  obtain ⟨cleared, clearedEq⟩ :
      ∃ cleared, cleared = this.pdu.store headerStart (this.pdu headerStart &&& (0x00 : UInt8)) := ⟨_, rfl⟩
  obtain ⟨deltaEnd, deltaStored⟩ := storeDelta_spec cleared headerStart optionDelta
  obtain ⟨lengthEnd, _, lengthStored⟩ := storeLength_spec (storeDelta cleared headerStart optionDelta).1
    optionValueLength (Nat.le_add_right headerStart (Wire.extra optionDelta))
  simp only [insertOption, ← clearedEq, deltaEnd, lengthEnd]
  rw [Memory.copy_outside _ (by omega), lengthStored.frame i (by omega) (by omega), deltaStored.frame i (by omega),
    clearedEq, Memory.store_other _ _ (by omega)]

/-- An option at the end leaves the first byte, and the PDU can take another one there. -/
theorem addOption_first (grant : Option Realloc) {number : Nat} (optionValueLength : Nat) (optionValue : List UInt8)
    (buffer : this.constructedFromBuffer = false → 0 < this.bufferLength) (positive : 0 < this.pduLength)
    (maximum : this.maxAddedOptionNumber ≤ number) :
    let next := (this.addOption grant number optionValueLength optionValue).2
    next.pdu 0 = this.pdu 0 ∧ (next.constructedFromBuffer = false → 0 < next.bufferLength) ∧ 0 < next.pduLength ∧
      next.maxAddedOptionNumber = number := by
  -- the option goes to the end, since no greater number was added
  have place := findInsertionPosition_last maximum
  obtain ⟨noted, notedEq⟩ : ∃ noted, noted = this.noteMaximum this.pduLength number := ⟨_, rfl⟩
  have same : noted = { this with maxAddedOptionNumber := number } := by rw [notedEq, noteMaximum, if_pos rfl]
  simp only [addOption, place, ← notedEq]
  rw [openGap, if_pos (by rw [same])]
  split
  next => rw [same]; exact ⟨rfl, buffer, positive, rfl⟩
  next gap opened =>
    have length := reserve_length opened
    obtain ⟨first, gapBuffer⟩ := reserve_first (by rw [same]; exact buffer) (by rw [same]; simp only; omega) opened
    have maximumEq : gap.maxAddedOptionNumber = noted.maxAddedOptionNumber := by
      simp only [reserve] at opened
      split at opened
      next dynamic => cases grant <;> cases opened; rfl
      next external => split at opened <;> cases opened; rfl
    refine ⟨?_, gapBuffer, ?_, ?_⟩
    · simp only
      rw [insertOption_front _ _ _ _ positive, first, same]
    · simp only [insertOption]
      rw [length, same]
      simp only
      omega
    · simp only [insertOption]
      rw [maximumEq, same]

/-- The options of a URI go to the end one after the other. -/
theorem setURILoop_first (fuel : Nat) (heap : Heap) (splitChar : UInt8) {optionType : Nat} (startP : List UInt8)
    (buffer : this.constructedFromBuffer = false → 0 < this.bufferLength) (positive : 0 < this.pduLength)
    (maximum : this.maxAddedOptionNumber ≤ optionType) (type : optionType ≤ optionUriQuery) :
    (setURILoop fuel this heap splitChar optionType startP).2.1.pdu 0 = this.pdu 0 := by
  induction fuel generalizing this heap splitChar optionType startP with
  | zero => rfl
  | succ fuel inductionHypothesis =>
    rw [setURILoop]
    split
    next => rfl
    next more =>
      obtain ⟨segment, endP, queryStageTriggered⟩ := nextSegment splitChar startP
      obtain ⟨first, nextBuffer, nextPositive, nextMaximum⟩ := addOption_first heap.next
        ((segment.length - endP.length) % 65536) (segment.take (segment.length - endP.length)) buffer positive maximum
      simp only
      split
      next => exact first
      next =>
        split
        next =>
          rw [inductionHypothesis heap.rest 0x26 endP.tail nextBuffer nextPositive (by omega) (Nat.le_refl _)]
          exact first
        next =>
          rw [inductionHypothesis heap.rest splitChar endP nextBuffer nextPositive (by omega) type]
          exact first

/-- A first token only makes the header longer. -/
theorem setToken_version (blank : this.Blank) (token : List UInt8) :
    (this.setToken grant token).2.pdu 0 &&& 0xC0 = this.pdu 0 &&& 0xC0 := by
  by_cases filled : token.length = 0
  · rw [setToken, if_pos filled]
  · simp only [setToken, blank.length, blank.noToken, if_neg filled]
    rw [if_pos (by omega)]
    cases reservedEq : this.reserve grant (4 - 0 + token.length) with
    | none => rfl
    | some reserved =>
      have amount : ((4 - 0 + token.length : Nat) : Int) - token.length - hdrSize = 0 := by rw [hdrSize]; omega
      have front : reserved.pdu.copy 4 token 0 = reserved.pdu 0 := Memory.copy_outside _ (Or.inl (by omega))
      obtain ⟨first, _⟩ := reserve_first blank.buffer (by omega) reservedEq
      simp only [amount, shiftPDUUp, Int.toNat_zero, shiftUpLoop, setTokenLength]
      split
      next long => simp only [front, first]
      next short =>
        have clear : ∀ n, n ≤ 8 → UInt8.ofNat n &&& 0xC0 = 0 := by decide
        simp only [Memory.store_same, front, first]
        exact version_update _ rfl (clear _ (by omega))

theorem setPayload_first (blank : this.Blank) (payload : List UInt8) :
    (this.setPayload grant payload).2.pdu 0 = this.pdu 0 := by
  by_cases filled : payload.length = 0
  · simp [setPayload, mallocPayload, filled]
  · have size : (((4 : Nat) : Int) + (payload.length : Int) + (1 : Nat)).toNat = 5 + payload.length := by omega
    simp only [setPayload, mallocPayload, blank.noPayload, blank.noPointer, blank.length, if_neg filled, ne_eq,
      not_true_eq_false, if_false, size]
    cases reservedEq : this.reserve grant (5 + payload.length) with
    | none => rfl
    | some reserved =>
      obtain ⟨first, _⟩ := reserve_first blank.buffer (by omega) reservedEq
      simp only [if_true]
      rw [Memory.copy_outside _ (Or.inl (by omega)), Memory.store_other _ _ (by omega), first]

/-- No call that builds a PDU sets its version. -/
theorem perform_getVersion (blank : this.Blank) {call : Call} (builds : call.Builds) :
    (this.perform call).2.getVersion = this.getVersion := by
  have same : (this.perform call).2.pdu 0 &&& 0xC0 = this.pdu 0 &&& 0xC0 := by
    have positive : 0 < this.pduLength := by rw [blank.length]; omega
    have lowest : ∀ number, this.maxAddedOptionNumber ≤ number := by
      intro number
      rw [blank.maximum]
      exact Nat.zero_le _
    have option : ∀ grant number length value,
        (this.addOption grant number length value).2.pdu 0 &&& 0xC0 = this.pdu 0 &&& 0xC0 := by
      intro grant number length value
      rw [(addOption_first grant length value blank.buffer positive (lowest number)).1]
    -- the calls that write the first byte keep its version bits, the others leave it alone
    cases call with
    | setType type =>
      cases type <;> exact version_update _ rfl rfl
    | setCode code => rfl
    | setMessageID messageID => rfl
    | setToken grant token => exact setToken_version blank token
    | addOption grant number value => exact option ..
    | setURI heap uri =>
      simp only [perform, setURI]
      split
      next => rfl
      next =>
        split
        next => exact option ..
        next =>
          rw [setURILoop_first _ _ _ _ blank.buffer positive (lowest _) (by decide)]
    | setContentFormat grant format =>
      simp only [perform, setContentFormat]
      split
      next => exact option ..
      next =>
        split
        next => exact option ..
        next => split <;> exact option ..
    | setPayload grant payload => rw [perform, setPayload_first blank payload]
    | _ => exact absurd builds id
  rw [getVersion, getVersion, same]

end

/-- Whatever was done with the container before, whichever new one it is compared with and whichever calls build the
PDU: the results are not the same. -/
theorem reset_never_alike (this : CoapPDU) (buffer : 0 < this.bufferLength) (fresh : CoapPDU)
    (constructed : NewlyConstructed fresh) (calls : List Call) (builds : ∀ call ∈ calls, call.Builds) :
    ¬ Alike perform view this.reset fresh calls := by
  intro alike
  -- after the first call, or at once where there is none, the versions are 0 and 1
  have versions : this.reset.getVersion = fresh.getVersion := by
    cases calls with
    | nil => exact congrArg View.version alike.final
    | cons call rest =>
      have first := builds call List.mem_cons_self
      rw [← perform_getVersion (reset_blank this buffer) first, ← perform_getVersion constructed.blank first]
      exact congrArg View.version alike.head.2.1
  rw [reset_getVersion this buffer, constructed.getVersion] at versions
  cases versions

/-- A second GET in the same buffer. -/
theorem reset_never_alike_get :
    ¬ Alike perform view (((ofBuffer 0 (fun _ => 0) 16 0).setCode get).reset) (ofBuffer 0 (fun _ => 0) 16 0)
      [.setType .confirmable, .setCode get] := by
  apply reset_never_alike _ (by decide) _ (.ofBuffer ..)
  intro call member
  simp only [List.mem_cons, List.not_mem_nil, or_false] at member
  rcases member with same | same <;> rw [same] <;> trivial

/-- The first byte is 00 and not 40. -/
theorem reset_not_new : ¬ ∀ (this fresh : CoapPDU), Container this → NewlyConstructed fresh →
    fresh.bufferLength = this.bufferLength → ∀ calls, (∀ call ∈ calls, call.Builds) →
      Alike perform view this.reset fresh calls := by
  intro all
  have alike := all (ofBuffer 0 (fun _ => 0) 16 0) (ofBuffer 0 (fun _ => 0) 16 0) (.ofBuffer ..) (.ofBuffer ..) rfl
    [.setCode get] (by simp [Call.Builds])
  have bytes := congrArg View.bytes alike.head.2.1
  revert bytes
  decide

end CoapPDU

end SmingCoap
