import SmingCoap.Client.ValidateSoundness
import SmingCoap.Client.Queue

/-! # Transaction ids of one server

The last two bytes that are hashed are the message id.  Its low byte reaches the second byte of the key only
shifted by one, so two message ids are confused when their low bytes differ in the bit that is shifted out and their
high bytes make up for it in the first byte (`createTransactionID_ne_iff`).  Every endpoint has such message ids.
-/

namespace SmingCoap

namespace CoapKey

/-- A byte of the key takes up the byte in front of it, shifted. -/
theorem toNat_mix (front byte : UInt8) :
    (((byte <<< 7) ||| (front >>> 1)) + byte).toNat = (byte.toNat * 128 % 256 + front.toNat / 2 + byte.toNat) % 256 := by
  have bound := front.toNat_lt
  have half : front.toNat / 2 < 2 ^ 7 := by omega
  rw [UInt8.toNat_add, UInt8.toNat_or, UInt8.toNat_shiftLeft, UInt8.toNat_shiftRight]
  simp only [UInt8.reduceToNat, Nat.reduceMod, Nat.shiftLeft_eq, Nat.shiftRight_eq_div_pow, Nat.reducePow]
  have multiple : byte.toNat * 128 % 256 = 2 ^ 7 * (byte.toNat % 2) := by omega
  rw [multiple, ← Nat.two_pow_add_eq_or_of_lt half]

theorem toNat_add_h0 (h : CoapKey) (s : UInt8) : (h.add s).h0.toNat = (129 * h.h0.toNat + s.toNat) % 256 := by
  rw [add, UInt8.toNat_add, UInt8.toNat_add, UInt8.toNat_shiftLeft]
  simp only [UInt8.reduceToNat, Nat.reduceMod, Nat.shiftLeft_eq, Nat.reducePow]
  omega

/-- Keys that differ in the first byte alone. -/
theorem add_h1_iff {h other : CoapKey} (s t : UInt8) (same : h.h1 = other.h1) :
    (h.add s).h1 = (other.add t).h1 ↔ h.h0.toNat / 2 = other.h0.toNat / 2 := by
  have bound := h.h0.toNat_lt
  have otherBound := other.h0.toNat_lt
  rw [← UInt8.toNat_inj, add, add, toNat_mix, toNat_mix, same]
  omega

/-- The bit that is shifted out of the first byte is the parity of all that was hashed. -/
theorem parity_coapHash (s : List UInt8) (h : CoapKey) :
    (coapHash s h).h0.toNat % 2 = (h.h0.toNat + (s.map UInt8.toNat).sum) % 2 := by
  induction s generalizing h with
  | nil => simp [coapHash]
  | cons byte rest inductionHypothesis =>
    have step := inductionHypothesis (h.add byte)
    rw [toNat_add_h0] at step
    rw [coapHash, List.foldl_cons, ← coapHash, step, List.map_cons, List.sum_cons]
    omega

/-- How the key is folded to a transaction id. -/
def fold (h : CoapKey) : CoapTid :=
  ((h.h0.toUInt16 <<< 8 ||| h.h1.toUInt16) ^^^ (h.h2.toUInt16 <<< 8 ||| h.h3.toUInt16)).toNat

theorem fold_eq_iff {h other : CoapKey} (h2 : h.h2 = other.h2) (h3 : h.h3 = other.h3) :
    h.fold = other.fold ↔ h.h0 = other.h0 ∧ h.h1 = other.h1 := by
  have low := h.h1.toNat_lt
  have otherLow := other.h1.toNat_lt
  rw [fold, fold, h2, h3, Int.natCast_inj, UInt16.toNat_inj, UInt16.xor_left_inj, ← UInt16.toNat_inj,
    Wire.toNat_shiftLeft_or, Wire.toNat_shiftLeft_or, Wire.bigEndian16, Wire.bigEndian16, ← UInt8.toNat_inj,
    ← UInt8.toNat_inj]
  omega

/-- When two message ids behind one key are folded to the same id. -/
theorem fold_add_eq_iff (h : CoapKey) (first second : Nat) :
    ((h.add (UInt8.ofNat first)).add (UInt8.ofNat (first / 256))).fold =
        ((h.add (UInt8.ofNat second)).add (UInt8.ofNat (second / 256))).fold ↔
      (129 * ((129 * h.h0.toNat + first) % 256) + first / 256) % 256 =
          (129 * ((129 * h.h0.toNat + second) % 256) + second / 256) % 256 ∧
        (129 * h.h0.toNat + first) % 256 / 2 = (129 * h.h0.toNat + second) % 256 / 2 := by
  -- the last two bytes do not depend on the message id
  rw [fold_eq_iff (by rfl) (by rfl), add_h1_iff _ _ (by rfl), ← UInt8.toNat_inj]
  simp only [toNat_add_h0, UInt8.toNat_ofNat', Nat.reducePow, Nat.add_mod_mod]

end CoapKey

/-- What the bytes of port and address add up to. -/
def endpointSum (ip port : UInt32) : Nat :=
  ((Wire.digits port.toNat 4 ++ Wire.digits ip.toNat 4).map UInt8.toNat).sum

/-- Two message ids that the hash takes for one, the first with the even low byte, the endpoint added. -/
structure Confused (ip port : UInt32) (first second : Nat) : Prop where
  even : (endpointSum ip port + first) % 2 = 0
  low : second % 256 = (first + 1) % 256
  high : first / 256 = (second / 256 + 129) % 256

/-- The id is a fold of the key of the endpoint with the message id in it. -/
theorem createTransactionID_fold (ip port : UInt32) (pdu : CoapPDU) : createTransactionID ip port pdu =
    (((coapHash (Wire.digits port.toNat 4 ++ Wire.digits ip.toNat 4) ⟨0, 0, 0, 0⟩).add
      (UInt8.ofNat pdu.getMessageID)).add (UInt8.ofNat (pdu.getMessageID / 256))).fold := by
  simp [createTransactionID, coapHash, CoapKey.fold, Wire.digits]

/-- Two message ids of one server lead to different transaction ids unless the hash confuses them. -/
theorem createTransactionID_ne_iff (ip port : UInt32) (first second : CoapPDU)
    (different : first.getMessageID ≠ second.getMessageID) :
    createTransactionID ip port first ≠ createTransactionID ip port second ↔
      ¬ Confused ip port first.getMessageID second.getMessageID ∧
        ¬ Confused ip port second.getMessageID first.getMessageID := by
  obtain ⟨key, keyEq⟩ : ∃ key, key = coapHash (Wire.digits port.toNat 4 ++ Wire.digits ip.toNat 4) ⟨0, 0, 0, 0⟩ :=
    ⟨_, rfl⟩
  have parity := CoapKey.parity_coapHash (Wire.digits port.toNat 4 ++ Wire.digits ip.toNat 4) ⟨0, 0, 0, 0⟩
  rw [← keyEq, ← endpointSum] at parity
  have bound : first.getMessageID ≤ 65535 := by
    rw [CoapPDU.getMessageID, CoapPDU.endianLoad16_eq]
    exact Wire.bigEndian16_le ..
  have otherBound : second.getMessageID ≤ 65535 := by
    rw [CoapPDU.getMessageID, CoapPDU.endianLoad16_eq]
    exact Wire.bigEndian16_le ..
  rw [Ne, createTransactionID_fold, createTransactionID_fold, ← keyEq, CoapKey.fold_add_eq_iff]
  have start : (0 : UInt8).toNat = 0 := rfl
  rw [start] at parity
  constructor
  · intro distinct
    constructor
    · rintro ⟨even, low, high⟩
      omega
    · rintro ⟨even, low, high⟩
      omega
  · rintro ⟨notConfused, notReversed⟩ ⟨sameFirst, sameSecond⟩
    obtain ⟨low, lowEq⟩ : ∃ low, low = (129 * key.h0.toNat + first.getMessageID) % 256 := ⟨_, rfl⟩
    obtain ⟨other, otherEq⟩ : ∃ other, other = (129 * key.h0.toNat + second.getMessageID) % 256 := ⟨_, rfl⟩
    rw [← lowEq, ← otherEq] at sameFirst sameSecond
    have even : low % 2 = (endpointSum ip port + first.getMessageID) % 2 := by omega
    have otherEven : other % 2 = (endpointSum ip port + second.getMessageID) % 2 := by omega
    -- the first byte of the key was even for one of them and odd for the other
    have apart : low = other ∨ low % 2 = 0 ∧ other = low + 1 ∨ other % 2 = 0 ∧ low = other + 1 := by omega
    rcases apart with same | ⟨first_, next⟩ | ⟨second_, next⟩
    · have lows : first.getMessageID % 256 = second.getMessageID % 256 := by omega
      have highs : first.getMessageID / 256 = second.getMessageID / 256 := by omega
      exact different (by omega)
    · have lows : second.getMessageID % 256 = (first.getMessageID + 1) % 256 := by omega
      have highs : first.getMessageID / 256 = (second.getMessageID / 256 + 129) % 256 := by omega
      exact notConfused ⟨even ▸ first_, lows, highs⟩
    · have lows : first.getMessageID % 256 = (second.getMessageID + 1) % 256 := by omega
      have highs : second.getMessageID / 256 = (first.getMessageID / 256 + 129) % 256 := by omega
      exact notReversed ⟨otherEven ▸ second_, lows, highs⟩

/-- A PDU with a message id. -/
def numberedPdu (messageID : Nat) : CoapPDU := (CoapPDU.new 0 fun _ => 0).setMessageID messageID

/-- The message ids 0 and 2 at 10.0.0.1:5683. -/
theorem createTransactionID_ne_iff_even :
    createTransactionID 0x0100000A 5683 (numberedPdu 0) ≠ createTransactionID 0x0100000A 5683 (numberedPdu 2) := by
  apply (createTransactionID_ne_iff 0x0100000A 5683 (numberedPdu 0) (numberedPdu 2) (by decide)).mpr
  constructor
  · rintro ⟨_, low, _⟩
    revert low
    decide
  · rintro ⟨_, low, _⟩
    revert low
    decide

/-- The message ids 0x8100 and 1 lead to one transaction id at 10.0.0.1:5683. -/
theorem createTransactionID_collides : ¬ ∀ (ip port : UInt32) (first second : CoapPDU),
    first.getMessageID ≠ second.getMessageID → createTransactionID ip port first ≠ createTransactionID ip port second := by
  intro distinct
  exact distinct 0x0100000A 5683 (numberedPdu 0x8100) (numberedPdu 1) (by decide) (by decide +kernel)

/-- No endpoint is free of confusion. -/
theorem exists_confused (ip port : UInt32) :
    ∃ first second, first ≤ 65535 ∧ second ≤ 65535 ∧ first ≠ second ∧ Confused ip port first second := by
  by_cases even : endpointSum ip port % 2 = 0
  · exact ⟨0x8100, 1, by omega, by omega, by omega, by omega, by omega, by omega⟩
  · exact ⟨0x8101, 2, by omega, by omega, by omega, by omega, by omega, by omega⟩

end SmingCoap
