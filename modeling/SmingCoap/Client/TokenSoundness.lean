import SmingCoap.Client.ContainerSoundness

/-! # Setting the token

`setToken` moves everything behind the old token, up or down, and writes the new one into the gap.  Both shifts are
right (`setToken_grows`, `setToken_shrinks`), but the old length of the PDU is kept in eight bits: from 256 bytes on
every token of another length is taken for a longer one, and the shift starts so far down that its last bytes come
from in front of the allocation.  `setTokenFrom` has these bytes as a parameter and is `setToken` wherever they are
not read (`setTokenFrom_eq`).  A token of more than eight bytes is not refused either, unless there is no room for
it: the outcome of `setTokenLength` is not looked at.
-/

namespace SmingCoap

open Wire (Memory)

namespace CoapPDU

/-! ## Reads in front of the allocation -/

/-- The byte at a position; `before` are the bytes in front of the allocation, the nearest one first. -/
def byteAt (before pdu : Memory) (pointer : Int) : UInt8 :=
  if pointer < 0 then before (-pointer - 1).toNat else pdu pointer.toNat

/-- The byte loop of `shiftPDUUp`, wherever its source points. -/
def shiftUpLoopFrom (before : Memory) : Nat → Memory → Int → Int → Memory
  | 0, pdu, _, _ => pdu
  | shiftAmount + 1, pdu, destPointer, srcPointer =>
    shiftUpLoopFrom before shiftAmount (pdu.store destPointer.toNat (byteAt before pdu srcPointer))
      (destPointer - 1) (srcPointer - 1)

def shiftPDUUpFrom (before : Memory) (this : CoapPDU) (shiftOffset shiftAmount : Int) : CoapPDU :=
  let destPointer : Int := this.pduLength - 1
  { this with
    pdu := shiftUpLoopFrom before shiftAmount.toNat this.pdu destPointer (destPointer - shiftOffset) }

/-- `setToken` with the bytes in front of the allocation. -/
def setTokenFrom (before : Memory) (this : CoapPDU) (grant : Option Realloc) (token : List UInt8) : Nat × CoapPDU :=
  let tokenLength := token.length
  if tokenLength = 0 then (1, this)
  else
    let oldTokenLength := this.getTokenLength
    if tokenLength = oldTokenLength then (0, { this with pdu := this.pdu.copy 4 token })
    else
      let oldPDULength := this.pduLength % 256
      let pduLength := this.pduLength - oldTokenLength + tokenLength
      if pduLength > oldPDULength then
        match this.reserve grant pduLength with
        | none => (1, { this with pduLength := oldPDULength })
        | some this =>
          let this := this.shiftPDUUpFrom before ((pduLength : Int) - oldPDULength)
            ((pduLength : Int) - tokenLength - hdrSize)
          (0, (setTokenLength { this with pdu := this.pdu.copy 4 token } tokenLength).2)
      else
        let this := { this with pduLength, pdu := this.pdu.copy 4 token }
        let this := this.shiftPDUDown (hdrSize + tokenLength) (oldPDULength - pduLength)
          (oldPDULength - oldTokenLength - hdrSize)
        match this.shrink grant with
        | none => (1, this)
        | some this => (0, (setTokenLength this tokenLength).2)

theorem shiftUpLoopFrom_eq (before pdu : Memory) (amount : Nat) (dest source : Int)
    (inside : (amount : Int) ≤ source + 1) :
    shiftUpLoopFrom before amount pdu dest source = shiftUpLoop amount pdu dest source := by
  induction amount generalizing pdu dest source with
  | zero => rfl
  | succ amount inductionHypothesis =>
    rw [shiftUpLoopFrom, shiftUpLoop, byteAt, if_neg (by omega), inductionHypothesis _ _ _ (by omega)]

/-- The last byte that is moved, when its source lies in front of the allocation. -/
theorem shiftUpLoopFrom_last (before pdu : Memory) (amount start offset : Nat) (outside : start < offset) :
    shiftUpLoopFrom before (amount + 1) pdu (start + amount : Nat) ((start + amount : Nat) - offset) start =
      before (offset - start - 1) := by
  induction amount generalizing pdu with
  | zero =>
    have source : (-(((start + 0 : Nat) : Int) - offset) - 1).toNat = offset - start - 1 := by omega
    rw [shiftUpLoopFrom, shiftUpLoopFrom, byteAt, if_pos (by omega), source]
    exact Memory.store_same ..
  | succ amount inductionHypothesis =>
    have dest : ((start + (amount + 1) : Nat) : Int) - 1 = (start + amount : Nat) := by omega
    have source : ((start + (amount + 1) : Nat) : Int) - offset - 1 = (start + amount : Nat) - offset := by omega
    rw [shiftUpLoopFrom, dest, source, inductionHypothesis]

theorem reserve_length {this reserved : CoapPDU} {grant : Option Realloc} {pduLength : Nat}
    (success : this.reserve grant pduLength = some reserved) : reserved.pduLength = pduLength := by
  simp only [reserve] at success
  split at success
  next dynamic =>
    cases grant with
    | none => cases success
    | some memory =>
      cases success
      rfl
  next external =>
    split at success
    · cases success
    · cases success
      rfl

/-- A PDU below 256 bytes is shifted inside its allocation. -/
theorem setTokenFrom_eq (before : Memory) (this : CoapPDU) (grant : Option Realloc) (token : List UInt8)
    (small : this.pduLength < 256) : setTokenFrom before this grant token = this.setToken grant token := by
  have old : this.pduLength % 256 = this.pduLength := Nat.mod_eq_of_lt small
  simp only [setTokenFrom, setToken, old]
  split
  · rfl
  · split
    · rfl
    · split
      · cases reserved : this.reserve grant (this.pduLength - this.getTokenLength + token.length) with
        | none => rfl
        | some next =>
          have length := reserve_length reserved
          simp only [shiftPDUUpFrom, shiftPDUUp, length]
          rw [shiftUpLoopFrom_eq _ _ _ _ _ (by rw [hdrSize]; omega)]
      · rfl

/-- Shifting down copies the block from the bottom. -/
theorem shiftDownLoop_spec (pdu : Memory) (amount start offset i : Nat) :
    shiftDownLoop amount pdu start (start + offset) i =
      if start ≤ i ∧ i < start + amount then pdu (i + offset) else pdu i := by
  induction amount generalizing pdu start with
  | zero => rw [shiftDownLoop, if_neg (by omega)]
  | succ amount inductionHypothesis =>
    have source : start + offset + 1 = start + 1 + offset := by omega
    rw [shiftDownLoop, source, inductionHypothesis]
    split
    next moved => rw [Memory.store_other _ _ (by omega), if_pos (by omega)]
    next outside =>
      by_cases first : i = start
      · rw [first, Memory.store_same, if_pos (by omega)]
      · rw [Memory.store_other _ _ first, if_neg (by omega)]

/-! ## The token is replaced -/

/-- There is space for a PDU of this length. -/
def HasRoom (this : CoapPDU) (grant : Option Realloc) (pduLength : Nat) : Prop :=
  if this.constructedFromBuffer = false then grant.isSome = true else pduLength ≤ this.bufferLength

theorem reserve_isSome {this : CoapPDU} {grant : Option Realloc} {pduLength : Nat} :
    (this.reserve grant pduLength).isSome = true ↔ this.HasRoom grant pduLength := by
  simp only [reserve, HasRoom]
  split
  next dynamic => cases grant <;> simp
  next external =>
    split
    next beyond => simpa using beyond
    next inside => simpa using inside

/-- Only memory of its own can fail to shrink. -/
theorem shrink_isSome {this : CoapPDU} {grant : Option Realloc} :
    (this.shrink grant).isSome = true ↔ (this.constructedFromBuffer = false → grant.isSome = true) := by
  simp only [shrink]
  split
  next dynamic => simp [reserve_isSome, HasRoom, dynamic]
  next external => simp [external]

/-- `next` is `this` with another token: the same header but for the token length, and behind the token the same
bytes in the same order. -/
structure Replaces (this next : CoapPDU) (token : List UInt8) : Prop where
  facts : SameFacts this next
  length : next.pduLength + this.getTokenLength = this.pduLength + token.length
  first : next.pdu 0 = (this.pdu 0 &&& (0xF0 : UInt8)) ||| UInt8.ofNat token.length
  header : ∀ i, 0 < i → i < 4 → next.pdu i = this.pdu i
  tokenBytes : next.pdu.Holds 4 token
  behind : ∀ i, 4 + this.getTokenLength + i < this.pduLength →
    next.pdu (4 + token.length + i) = this.pdu (4 + this.getTokenLength + i)

/-- The header and its token lie in the PDU, and a PDU in memory of its own inside it. -/
structure WellFormed (this : CoapPDU) : Prop where
  owned : this.Owned
  tokenLength : this.getTokenLength ≤ 8
  token : 4 + this.getTokenLength ≤ this.pduLength

theorem halves_or (byte : UInt8) : (byte &&& (0xF0 : UInt8)) ||| UInt8.ofNat (byte &&& 0x0F).toNat = byte := by
  rw [UInt8.ofNat_toNat]
  apply UInt8.toNat_inj.mp
  rw [UInt8.toNat_or, UInt8.toNat_and, UInt8.toNat_and, ← Nat.and_or_distrib_left]
  exact Nat.and_two_pow_sub_one_of_lt_two_pow byte.toNat_lt

/-- A PDU that `validate` accepted is well formed. -/
theorem Validated.wellFormed {this : CoapPDU} (validated : this.Validated) : this.WellFormed := by
  obtain ⟨container, history, accepted⟩ := validated
  obtain ⟨pointer, length, count, same⟩ := container.validate_facts
  have kept := (Container.validate history).kept
  rw [accepted] at same kept
  have header := (container.validate_iff.mp (by rw [accepted])).1
  have pdu : this.pdu = container.pdu := by rw [show this = _ from same]
  have size : this.pduLength = container.pduLength := by rw [show this = _ from same]
  refine ⟨kept.owned, ?_, ?_⟩
  · rw [CoapPDU.getTokenLength_eq, pdu]
    exact header.tokenLength
  · rw [CoapPDU.getTokenLength_eq, pdu, size]
    exact header.token

section

variable {this next : CoapPDU} {grant : Option Realloc} {token : List UInt8}

/-- The last step of all three branches: the bytes are in place, and the header gets the new length. -/
theorem replaces_setTokenLength {shifted : CoapPDU} (size : token.length ≤ 8) (facts : SameFacts this shifted)
    (length : shifted.pduLength + this.getTokenLength = this.pduLength + token.length)
    (header : ∀ i, i < 4 → shifted.pdu i = this.pdu i) (tokenBytes : shifted.pdu.Holds 4 token)
    (behind : ∀ i, 4 + this.getTokenLength + i < this.pduLength →
      shifted.pdu (4 + token.length + i) = this.pdu (4 + this.getTokenLength + i)) :
    this.Replaces (shifted.setTokenLength token.length).2 token := by
  rw [setTokenLength, if_neg (by omega)]
  constructor
  · exact ⟨facts.constructedFromBuffer, facts.payloadPointer, facts.payloadLength, facts.numOptions,
      facts.maxAddedOptionNumber⟩
  · exact length
  · simp only [Memory.store_same, header 0 (by omega)]
  · intro i positive inside
    simp only
    rw [Memory.store_other _ _ (by omega), header i inside]
  · apply tokenBytes.congr
    intro i low _
    exact Memory.store_other _ _ (by omega)
  · intro i inside
    simp only
    rw [Memory.store_other _ _ (by omega), behind i inside]

/-- A token of the old length is written over the old one. -/
theorem setToken_overwrites (grant : Option Realloc) (filled : token.length ≠ 0)
    (same : token.length = this.getTokenLength) :
    ∃ next, this.setToken grant token = (0, next) ∧ this.Replaces next token := by
  refine ⟨{ this with pdu := this.pdu.copy 4 token }, ?_, ?_⟩
  · rw [setToken, if_neg filled, if_pos same]
  · constructor
    · exact ⟨rfl, rfl, rfl, rfl, rfl⟩
    · simp [same]
    · simp only
      rw [Memory.copy_outside _ (by omega), same, getTokenLength, halves_or]
    · intro i _ header
      exact Memory.copy_outside _ (by omega)
    · exact Memory.copy_holds ..
    · intro i _
      simp only
      rw [Memory.copy_outside _ (by omega), same]

/-- A longer token: what lies behind the old one is shifted up. -/
theorem setToken_grows (well : this.WellFormed) (small : this.pduLength < 256) (size : token.length ≤ 8)
    (longer : this.getTokenLength < token.length)
    (room : this.HasRoom grant (this.pduLength - this.getTokenLength + token.length)) :
    ∃ next, this.setToken grant token = (0, next) ∧ this.Replaces next token := by
  obtain ⟨owned, _, inside⟩ := well
  obtain ⟨reserved, reservedEq⟩ := Option.isSome_iff_exists.mp (reserve_isSome.mpr room)
  obtain ⟨length, facts, _, kept⟩ := reserve_spec owned reservedEq
  have old : this.pduLength % 256 = this.pduLength := Nat.mod_eq_of_lt small
  have offset : ((this.pduLength - this.getTokenLength + token.length : Nat) : Int) - this.pduLength =
      (token.length - this.getTokenLength : Nat) := by
    omega
  have amount : ((this.pduLength - this.getTokenLength + token.length : Nat) : Int) - token.length - hdrSize =
      (this.pduLength - this.getTokenLength - 4 : Nat) := by
    rw [hdrSize]
    omega
  -- the bytes behind the old token move up by the difference of the lengths
  have shift := fun i => reserved.shiftPDUUp_apply (4 + this.getTokenLength) (token.length - this.getTokenLength)
    (this.pduLength - this.getTokenLength - 4) i (by omega)
  obtain ⟨shifted, shiftedEq⟩ : ∃ shifted, shifted = reserved.shiftPDUUp (token.length - this.getTokenLength : Nat)
    (this.pduLength - this.getTokenLength - 4 : Nat) := ⟨_, rfl⟩
  rw [← shiftedEq] at shift
  refine ⟨({ shifted with pdu := shifted.pdu.copy 4 token }.setTokenLength token.length).2, ?_, ?_⟩
  · rw [setToken, if_neg (by omega), if_neg (by omega)]
    simp only [old, reservedEq, offset, amount, ← shiftedEq]
    rw [if_pos (by omega)]
  · have shiftedFacts : SameFacts this shifted := by
      rw [shiftedEq]
      exact ⟨facts.constructedFromBuffer, facts.payloadPointer, facts.payloadLength, facts.numOptions,
        facts.maxAddedOptionNumber⟩
    have shiftedLength : shifted.pduLength = reserved.pduLength := by rw [shiftedEq]; rfl
    apply replaces_setTokenLength size
    · exact ⟨shiftedFacts.constructedFromBuffer, shiftedFacts.payloadPointer, shiftedFacts.payloadLength,
        shiftedFacts.numOptions, shiftedFacts.maxAddedOptionNumber⟩
    · simp only [shiftedLength, length]
      omega
    · intro i header
      simp only
      rw [Memory.copy_outside _ (by omega), shift, if_neg (by omega), kept i (by omega) (by omega)]
    · exact Memory.copy_holds ..
    · intro i low
      simp only
      rw [Memory.copy_outside _ (by omega), shift, if_pos (by omega), kept _ (by omega) (by omega)]
      congr 1
      omega

/-- A shorter token: what lies behind the old one is shifted down. -/
theorem setToken_shrinks (well : this.WellFormed) (small : this.pduLength < 256)
    (filled : token.length ≠ 0) (shorter : token.length < this.getTokenLength)
    (room : this.HasRoom grant (this.pduLength - this.getTokenLength + token.length)) :
    ∃ next, this.setToken grant token = (0, next) ∧ this.Replaces next token := by
  obtain ⟨owned, _, inside⟩ := well
  -- the code keeps the old length in one byte, which loses nothing here
  have old : this.pduLength % 256 = this.pduLength := Nat.mod_eq_of_lt small
  have offset : this.pduLength - (this.pduLength - this.getTokenLength + token.length) =
      this.getTokenLength - token.length := by
    omega
  obtain ⟨shifted, shiftedEq⟩ : ∃ shifted, shifted = shiftPDUDown
      { this with
        pduLength := this.pduLength - this.getTokenLength + token.length, pdu := this.pdu.copy 4 token }
      (hdrSize + token.length) (this.getTokenLength - token.length) (this.pduLength - this.getTokenLength - hdrSize) :=
    ⟨_, rfl⟩
  have shift : ∀ i, shifted.pdu i =
      if 4 + token.length ≤ i ∧ i < 4 + token.length + (this.pduLength - this.getTokenLength - 4) then
        this.pdu.copy 4 token (i + (this.getTokenLength - token.length))
      else this.pdu.copy 4 token i := by
    intro i
    rw [shiftedEq]
    exact shiftDownLoop_spec ..
  have length : shifted.pduLength = this.pduLength - this.getTokenLength + token.length := by
    rw [shiftedEq]
    rfl
  have shiftedRoom : shifted.constructedFromBuffer = false → grant.isSome = true := by
    rw [shiftedEq]
    intro dynamic
    simpa [HasRoom, show this.constructedFromBuffer = false from dynamic] using room
  have shiftedOwned : shifted.Owned := by
    intro dynamic
    rw [length]
    rw [shiftedEq] at dynamic ⊢
    have bound := owned dynamic
    simp only [shiftPDUDown]
    omega
  obtain ⟨released, releasedEq⟩ := Option.isSome_iff_exists.mp (shrink_isSome.mpr shiftedRoom)
  obtain ⟨newLength, facts, _, kept⟩ := shrink_spec shiftedOwned releasedEq
  rw [length] at kept newLength
  refine ⟨(released.setTokenLength token.length).2, ?_, ?_⟩
  · rw [setToken, if_neg filled, if_neg (by omega)]
    simp only [old]
    rw [if_neg (by omega), offset, ← shiftedEq, releasedEq]
  · apply replaces_setTokenLength (by omega)
    · rw [shiftedEq] at facts
      exact ⟨facts.constructedFromBuffer, facts.payloadPointer, facts.payloadLength, facts.numOptions,
        facts.maxAddedOptionNumber⟩
    · omega
    · intro i header
      rw [kept i (by omega), shift, if_neg (by omega), Memory.copy_outside _ (by omega)]
    · apply (Memory.copy_holds this.pdu 4 token).congr
      intro i low high
      rw [kept i (by omega), shift, if_neg (by omega)]
    · intro i low
      rw [kept _ (by omega), shift, if_pos (by omega), Memory.copy_outside _ (by omega)]
      congr 1
      omega

/-- From 256 bytes on the shift ends on a byte from in front of the allocation. -/
theorem setTokenFrom_far {before : Memory} (well : this.WellFormed) (long : 256 ≤ this.pduLength)
    (filled : token.length ≠ 0) (size : token.length ≤ 8) (other : token.length ≠ this.getTokenLength)
    (taken : setTokenFrom before this grant token = (0, next)) : ∃ i, next.pdu (4 + token.length) = before i := by
  obtain ⟨_, old, _⟩ := well
  rw [setTokenFrom, if_neg filled, if_neg other] at taken
  simp only at taken
  rw [if_pos (by omega)] at taken
  cases reservedEq : this.reserve grant (this.pduLength - this.getTokenLength + token.length) with
  | none => simp [reservedEq] at taken
  | some reserved =>
    have length := reserve_length reservedEq
    simp only [reservedEq, Prod.mk.injEq, true_and] at taken
    obtain ⟨amount, amountEq⟩ : ∃ amount, this.pduLength - this.getTokenLength - 4 = amount + 1 :=
      ⟨this.pduLength - this.getTokenLength - 5, by omega⟩
    have moved : (((this.pduLength - this.getTokenLength + token.length : Nat) : Int) - token.length - hdrSize).toNat =
        amount + 1 := by
      rw [hdrSize]
      omega
    have dest : (reserved.pduLength : Int) - 1 = (4 + token.length + amount : Nat) := by omega
    have offset : ((this.pduLength - this.getTokenLength + token.length : Nat) : Int) - (this.pduLength % 256 : Nat) =
        (this.pduLength - this.getTokenLength + token.length - this.pduLength % 256 : Nat) := by
      omega
    have last := shiftUpLoopFrom_last before reserved.pdu amount (4 + token.length)
      (this.pduLength - this.getTokenLength + token.length - this.pduLength % 256) (by omega)
    refine ⟨this.pduLength - this.getTokenLength + token.length - this.pduLength % 256 - (4 + token.length) - 1, ?_⟩
    rw [← taken, setTokenLength, if_neg (by omega)]
    simp only [shiftPDUUpFrom, moved, dest, offset]
    rw [Memory.store_other _ _ (by omega), Memory.copy_outside _ (by omega), last]

/-- The claim of the function's comment: a token of one to eight bytes is set wherever there is room for it,
whatever lies in front of the allocation, and any other leaves the PDU as it is. -/
structure SetsToken (this : CoapPDU) (grant : Option Realloc) (token : List UInt8) : Prop where
  sets : 1 ≤ token.length → token.length ≤ 8 →
    this.HasRoom grant (this.pduLength - this.getTokenLength + token.length) →
      ∀ before, ∃ next, setTokenFrom before this grant token = (0, next) ∧ this.Replaces next token
  refuses : token.length = 0 ∨ 8 < token.length → ∀ before, setTokenFrom before this grant token = (1, this)

theorem setToken_replaces (well : this.WellFormed) (small : this.pduLength < 256) (filled : token.length ≠ 0)
    (size : token.length ≤ 8) (room : this.HasRoom grant (this.pduLength - this.getTokenLength + token.length)) :
    ∃ next, this.setToken grant token = (0, next) ∧ this.Replaces next token := by
  rcases Nat.lt_trichotomy token.length this.getTokenLength with shorter | same | longer
  · exact setToken_shrinks well small filled shorter room
  · exact setToken_overwrites grant filled same
  · exact setToken_grows well small size longer room

/-- A token that is too long is refused only for want of room, and then the length of the PDU is cut to eight bits. -/
theorem setTokenFrom_refused {before : Memory} (well : this.WellFormed) (long : 8 < token.length) :
    setTokenFrom before this grant token = (1, this) ↔
      this.pduLength < 256 ∧ ¬ this.HasRoom grant (this.pduLength - this.getTokenLength + token.length) := by
  obtain ⟨_, old, _⟩ := well
  rw [setTokenFrom, if_neg (by omega), if_neg (by omega), ← reserve_isSome]
  simp only
  rw [if_pos (by omega)]
  cases reservedEq : this.reserve grant (this.pduLength - this.getTokenLength + token.length) with
  | none =>
    simp only [Prod.mk.injEq, true_and, Option.isSome_none, Bool.false_eq_true, not_false_eq_true, and_true]
    constructor
    · intro same
      have length := congrArg CoapPDU.pduLength same
      simp only at length
      omega
    · intro small
      rw [Nat.mod_eq_of_lt small]
  | some reserved => simp

/-- `setToken` does what it says exactly for the token lengths it has, on PDUs below 256 bytes. -/
theorem setToken_iff (this : CoapPDU) (well : this.WellFormed) (grant : Option Realloc) (token : List UInt8) :
    this.SetsToken grant token ↔
      (token.length ≤ 8 → token.length = 0 ∨ token.length = this.getTokenLength ∨ this.pduLength < 256 ∨
        ¬ this.HasRoom grant (this.pduLength - this.getTokenLength + token.length)) ∧
      (8 < token.length → this.pduLength < 256 ∧
        ¬ this.HasRoom grant (this.pduLength - this.getTokenLength + token.length)) := by
  constructor
  · intro right
    refine ⟨?_, fun long => (setTokenFrom_refused well long).mp (right.refuses (.inr long) fun _ => 0)⟩
    intro size
    by_contra fails
    simp only [not_or, not_not, Nat.not_lt] at fails
    obtain ⟨filled, other, long, room⟩ := fails
    -- a byte in front of the allocation that is not the one behind the old token
    obtain ⟨next, taken, replaces⟩ := right.sets (by omega) size room
      fun _ => this.pdu (4 + this.getTokenLength + 0) + 1
    obtain ⟨_, last⟩ := setTokenFrom_far well long filled size other taken
    have behind := replaces.behind 0 (by have old := well.tokenLength; omega)
    rw [Nat.add_zero (4 + token.length), last] at behind
    have numbers := congrArg UInt8.toNat behind
    have bound := (this.pdu (4 + this.getTokenLength + 0)).toNat_lt
    simp only [UInt8.toNat_add, UInt8.reduceToNat, Nat.reducePow] at numbers
    omega
  · rintro ⟨short, long⟩
    constructor
    · intro filled size room before
      rcases short size with none | same | small | full
      · omega
      · obtain ⟨next, taken, replaces⟩ := setToken_overwrites grant (by omega) same
        refine ⟨next, ?_, replaces⟩
        rw [← taken, setTokenFrom, if_neg (by omega), if_pos same, setToken, if_neg (by omega), if_pos same]
      · rw [setTokenFrom_eq before this grant token small]
        exact setToken_replaces well small (by omega) size room
      · exact absurd room full
    · intro out before
      rcases out with none | more
      · rw [setTokenFrom, if_pos none]
      · exact (setTokenFrom_refused well more).mpr (long more)

/-- A longer token for a PDU with a token and a payload. -/
theorem setToken_iff_longer : ∃ next,
    setTokenFrom (fun _ => 0) (ofBuffer 0 (Memory.copy (fun _ => 0) 0 [0x41, 1, 0, 0, 0xAA, 0xFF, 7]) 16 7) none [1, 2] =
      (0, next) ∧
    (ofBuffer 0 (Memory.copy (fun _ => 0) 0 [0x41, 1, 0, 0, 0xAA, 0xFF, 7]) 16 7).Replaces next [1, 2] := by
  have well : (ofBuffer 0 (Memory.copy (fun _ => 0) 0 [0x41, 1, 0, 0, 0xAA, 0xFF, 7]) 16 7).WellFormed :=
    ⟨(fun dynamic => by cases dynamic), by decide, by decide⟩
  have sets := (setToken_iff _ well none [1, 2]).mpr
    ⟨fun _ => .inr (.inr (.inl (by decide))), fun long => absurd long (by decide)⟩
  refine sets.sets (by decide) (by decide) ?_ _
  rw [HasRoom, if_neg (by decide)]
  decide

end

/-- A PDU of 256 bytes: its payload marker is replaced by a byte from in front of the buffer. -/
theorem setToken_misplaces : ¬ ∀ this : CoapPDU, this.Validated → ∀ (grant : Option Realloc) (token : List UInt8),
    this.SetsToken grant token := by
  intro all
  obtain ⟨this, thisEq⟩ : ∃ this, this =
    (ofBuffer 0 (Memory.copy (fun _ => 0) 0 [0x40, 1, 0, 0, 0xFF]) 300 256).validate.2 := ⟨_, rfl⟩
  have validated : this.Validated := ⟨_, .ofBuffer 0 _ 300 256, Prod.ext rfl thisEq.symm⟩
  have length : this.pduLength = 256 := by rw [thisEq]; rfl
  have old : this.getTokenLength = 0 := by rw [thisEq]; rfl
  have room : this.HasRoom none (this.pduLength - this.getTokenLength + [(1 : UInt8)].length) := by
    have buffer : this.constructedFromBuffer = true ∧ this.bufferLength = 300 := by rw [thisEq]; exact ⟨rfl, rfl⟩
    rw [HasRoom, buffer.1, buffer.2, length, old]
    decide
  obtain ⟨next, taken, replaces⟩ := (all this validated none [1]).sets (by decide) (by decide) room fun _ => 0
  obtain ⟨_, last⟩ := setTokenFrom_far validated.wellFormed (by omega) (by decide) (by decide)
    (by rw [old]; decide) taken
  have behind := replaces.behind 0 (by omega)
  have marker : this.pdu (4 + this.getTokenLength + 0) = 0xFF := by rw [thisEq]; rfl
  rw [Nat.add_zero (4 + [(1 : UInt8)].length), last, marker] at behind
  cases behind

end CoapPDU

end SmingCoap
