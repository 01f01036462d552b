import SmingCoap.Client.RequestPdu
import SmingCoap.Server.BlockwiseSoundness
import SmingCoap.Server.Handlers
import SmingCoap.Server.ObserveValue
import Mathlib.Data.Nat.Digits.Lemmas

/-! # Options that carry a number

The format has an unsigned integer in as few bytes as it takes, the highest
first: no byte in front is 0, and 0 itself has none.  The encoders choose the
bytes themselves.  All of them keep to the format but `AddCfOptionToMsg`, which
writes a content format above 255 with the lower byte first
(`option_formats_iff`).
-/

namespace SmingCoap

open Server

/-- The value bytes of a number. -/
structure UintFormat (number : Nat) (value : List UInt8) : Prop where
  number_eq : bigEndian value = number
  shortest : value.head? ≠ some 0

/-! ## One format -/

theorem bigEndian_eq_ofDigits (value : List UInt8) :
    bigEndian value = Nat.ofDigits 256 (value.reverse.map UInt8.toNat) := by
  induction value using List.reverseRecOn with
  | nil => rfl
  | append_singleton value byte inductionHypothesis =>
    rw [List.reverse_append, List.reverse_singleton, List.singleton_append, List.map_cons, Nat.ofDigits_cons,
      ← inductionHypothesis]
    simp only [bigEndian, List.foldl_append, List.foldl_cons, List.foldl_nil]
    omega

/-- There is one value for each number. -/
theorem UintFormat.unique {number : Nat} {value other : List UInt8} (format : UintFormat number value)
    (otherFormat : UintFormat number other) : value = other := by
  have digits : ∀ bytes : List UInt8, UintFormat number bytes →
      Nat.digits 256 number = bytes.reverse.map UInt8.toNat := by
    intro bytes format
    rw [← format.number_eq, bigEndian_eq_ofDigits]
    apply Nat.digits_ofDigits 256 (by decide)
    · intro digit member
      obtain ⟨byte, _, rfl⟩ := List.mem_map.mp member
      exact byte.toNat_lt
    · intro some zero
      -- the highest digit is the byte in front
      apply format.shortest
      cases bytes with
      | nil => exact absurd rfl some
      | cons first rest =>
        simp only [List.reverse_cons, List.map_append, List.map_cons, List.map_nil, List.getLast_append_singleton] at zero
        have none : first = 0 := UInt8.toNat_inj.mp zero
        rw [List.head?_cons, none]
  have same := (digits value format).symm.trans (digits other otherFormat)
  exact List.reverse_inj.mp (List.map_injective_iff.mpr (fun _ _ => UInt8.toNat_inj.mp) same)

theorem uintFormat_zero : UintFormat 0 [] := ⟨rfl, nofun⟩

theorem uintFormat_one {byte : UInt8} {number : Nat} (number_eq : byte.toNat = number) (positive : 0 < number) :
    UintFormat number [byte] := by
  refine ⟨by simpa [bigEndian] using number_eq, ?_⟩
  rintro ⟨⟩
  simp at number_eq
  omega

theorem uintFormat_two {high low : UInt8} {number : Nat} (number_eq : high.toNat * 256 + low.toNat = number)
    (large : 256 ≤ number) : UintFormat number [high, low] := by
  have lowBound := low.toNat_lt
  refine ⟨by simpa [bigEndian] using number_eq, ?_⟩
  rintro ⟨⟩
  simp at number_eq
  omega

theorem uintFormat_three {top high low : UInt8} {number : Nat}
    (number_eq : (top.toNat * 256 + high.toNat) * 256 + low.toNat = number) (large : 65536 ≤ number) :
    UintFormat number [top, high, low] := by
  have highBound := high.toNat_lt
  have lowBound := low.toNat_lt
  refine ⟨by simpa [bigEndian] using number_eq, ?_⟩
  rintro ⟨⟩
  simp at number_eq
  omega

/-! ## The encoders -/

section

/-- `AddObserveOptionToMsg` keeps to the format. -/
theorem observeBytes_format {val : UInt32} (bound : val.toNat < 2 ^ 24) : UintFormat val.toNat (observeBytes val) := by
  have top := toUInt8_shiftRight val 16 (by decide)
  have high := toUInt8_shiftRight val 8 (by decide)
  have low : val.toUInt8.toNat = val.toNat % 256 := by simp
  simp only [UInt32.reduceToNat] at top high
  unfold observeBytes
  split
  next three =>
    have large : 0xFFFF < val.toNat := three
    exact uintFormat_three (by rw [top, high, low]; omega) (by omega)
  next atMostTwo =>
    have small : ¬ 0xFFFF < val.toNat := atMostTwo
    split
    next two =>
      have large : 0xFF < val.toNat := two
      exact uintFormat_two (by rw [high, low]; omega) (by omega)
    next atMostOne =>
      have small : ¬ 0xFF < val.toNat := atMostOne
      split
      next one =>
        have positive : 0 < val.toNat := one
        exact uintFormat_one (by rw [low]; omega) positive
      next zero =>
        have none : ¬ 0 < val.toNat := zero
        rw [Nat.eq_zero_of_not_pos none]
        exact uintFormat_zero

/-- `AddBlkOptionToMsg` keeps to the format. -/
theorem blockOptionBytes_format {blkOption : BlockOption} {szx : Nat} (size : szx ≤ 6)
    (blockSize : blkOption.blockSize = 2 ^ (szx + 4)) (bound : blkOption.blockNum.toNat < 2 ^ 20) :
    UintFormat (blkOption.blockNum.toNat * 16 + (if blkOption.moreFlag then 8 else 0) + szx)
      (blockOptionBytes blkOption) := by
  refine ⟨blockOptionBytes_number size blockSize bound, ?_⟩
  have number := blockOptionValue_toNat size blockSize bound
  have top := toUInt8_shiftRight (blockOptionValue blkOption) 16 (by decide)
  have high := toUInt8_shiftRight (blockOptionValue blkOption) 8 (by decide)
  have low : (blockOptionValue blkOption).toUInt8.toNat = (blockOptionValue blkOption).toNat % 256 := by simp
  simp only [UInt32.reduceToNat] at top high
  rw [number] at top high low
  have few : (if blkOption.moreFlag then 8 else 0) + szx < 16 := by split <;> omega
  simp only [blockOptionBytes]
  split
  next => exact uintFormat_zero.2
  next other =>
    split
    next one =>
      have small : blkOption.blockNum.toNat < 16 := one
      intro zero
      have first : (blockOptionValue blkOption).toUInt8 = 0 := by simpa using zero
      rw [first] at low
      have none : 0 = (blkOption.blockNum.toNat * 16 + (if blkOption.moreFlag then 8 else 0) + szx) % 256 := low
      -- number, flag and exponent are 0 then, for which nothing is written
      apply other
      refine ⟨UInt32.toNat_inj.mp (by show _ = 0; omega), ?_, ?_⟩
      · have smallest : szx = 0 := by omega
        rw [blockSize, smallest]
        rfl
      · by_contra flag
        rw [if_pos (by simpa using flag)] at none few
        omega
    next atLeastTwo =>
      have large : ¬ blkOption.blockNum.toNat < 16 := atLeastTwo
      split
      next two =>
        have small : blkOption.blockNum.toNat < 4096 := two
        intro zero
        have first : (blockOptionValue blkOption >>> 8).toUInt8 = 0 := by simpa using zero
        rw [first] at high
        have none : 0 = (blkOption.blockNum.toNat * 16 + (if blkOption.moreFlag then 8 else 0) + szx) / 2 ^ 8 % 256 := high
        omega
      next three =>
        have large : ¬ blkOption.blockNum.toNat < 4096 := three
        intro zero
        have first : (blockOptionValue blkOption >>> 16).toUInt8 = 0 := by simpa using zero
        rw [first] at top
        have none : 0 = (blkOption.blockNum.toNat * 16 + (if blkOption.moreFlag then 8 else 0) + szx) / 2 ^ 16 % 256 := top
        omega

/-- `AddCfOptionToMsg` keeps to the format where the order of the bytes does not matter. -/
theorem contentFormatBytes_format_iff (cf : UInt16) :
    UintFormat cf.toNat (contentFormatBytes cf) ↔ cf.toNat < 256 ∨ cf.toNat / 256 = cf.toNat % 256 := by
  have bound := cf.toNat_lt
  have low : (cf &&& 0xFF).toUInt8.toNat = cf.toNat % 256 := by
    rw [UInt16.toNat_toUInt8, UInt16.toNat_and, show (0xFF : UInt16).toNat = 2 ^ 8 - 1 from rfl,
      Nat.and_two_pow_sub_one_eq_mod]
    omega
  have high : (cf >>> 8).toUInt8.toNat = cf.toNat / 256 := by
    rw [UInt16.toNat_toUInt8, UInt16.toNat_shiftRight, Nat.shiftRight_eq_div_pow]
    show cf.toNat / 256 % 256 = _
    omega
  unfold contentFormatBytes
  split
  next zero =>
    rw [zero]
    exact ⟨fun _ => .inl (by decide), fun _ => uintFormat_zero⟩
  next some =>
    have positive : 0 < cf.toNat := Nat.pos_of_ne_zero fun none => some (UInt16.toNat_inj.mp none)
    split
    next one =>
      have small : cf.toNat ≤ 255 := one
      have byte : cf.toUInt8.toNat = cf.toNat := by
        rw [UInt16.toNat_toUInt8]
        omega
      exact ⟨fun _ => .inl (by omega), fun _ => uintFormat_one byte positive⟩
    next two =>
      have large : ¬ cf.toNat ≤ 255 := two
      constructor
      · intro format
        have number := format.number_eq
        simp only [bigEndian, List.foldl_cons, List.foldl_nil, low, high] at number
        omega
      · intro same
        exact uintFormat_two (by rw [low, high]; omega) (by omega)

/-- The client's encoder keeps to the format. -/
theorem contentFormatValue_format {format : Nat} (bound : format < 65536) :
    UintFormat format (CoapPDU.contentFormatValue format) := by
  unfold CoapPDU.contentFormatValue
  split
  next zero =>
    rw [zero]
    exact uintFormat_zero
  next some =>
    have positive : 0 < format := Nat.pos_of_ne_zero some
    have one : format < 256 → UintFormat format [UInt8.ofNat format] :=
      fun small => uintFormat_one (UInt8.toNat_ofNat_of_lt' small) positive
    split
    next named =>
      apply one
      simp only [CoapPDU.contentFormatAppJson, CoapPDU.contentFormatAppExi, CoapPDU.contentFormatAppXml,
        CoapPDU.contentFormatAppOctet, CoapPDU.contentFormatAppLink] at named
      omega
    next =>
      split
      next small => exact one (by omega)
      next large =>
        apply uintFormat_two
        · simp only [UInt8.toNat_ofNat', Nat.reducePow]
          omega
        · omega

end

/-! ## The decoders -/

/-- The options of a message that have some number. -/
def optionsOf (msg : CoapMessage) (number : Nat) : List Wire.Opt :=
  msg.options.filter fun option => option.number = number

/-- An option is added to those of a message that has none of its number. -/
theorem optionsOf_append {msg : CoapMessage} {number : Nat} (value : List UInt8) (none : optionsOf msg number = []) :
    optionsOf { msg with options := (appendOptionToList true msg.options ⟨number, value⟩).2 } number =
      [⟨number, value⟩] := by
  simp only [optionsOf, List.filter_eq_nil_iff] at none
  have before : (msg.options.takeWhile fun other => other.number ≤ number).filter
      (fun option => option.number = number) = [] :=
    List.filter_eq_nil_iff.mpr fun option member => none option ((List.takeWhile_prefix _).subset member)
  have behind : (msg.options.dropWhile fun other => other.number ≤ number).filter
      (fun option => option.number = number) = [] :=
    List.filter_eq_nil_iff.mpr fun option member => none option ((List.dropWhile_suffix _).subset member)
  simp [optionsOf, appendOptionToList, before, behind]

/-- `GetBlockOptionFromMsg` reads the option back. -/
theorem getBlockOptionFromMsg_written {msg : CoapMessage} {blkOption : BlockOption} {szx : Nat} (size : szx ≤ 6)
    (blockSize : blkOption.blockSize = 2 ^ (szx + 4)) (bound : blkOption.blockNum.toNat < 2 ^ 20)
    (only : optionsOf msg blkOption.type.toNat = [⟨blkOption.type.toNat, blockOptionBytes blkOption⟩]) :
    getBlockOptionFromMsg msg blkOption.type = .ok blkOption := by
  have found : (msg.options.find? fun option => option.number = blkOption.type.toNat) =
      some ⟨blkOption.type.toNat, blockOptionBytes blkOption⟩ := by
    rw [← List.head?_filter]
    exact congrArg List.head? only
  have short : (blockOptionBytes blkOption).length ≤ 3 := by
    simp only [blockOptionBytes]
    split
    next => decide
    next =>
      split
      next => simp
      next => split <;> simp
  rw [getBlockOptionFromMsg_ok found short (blockOptionBytes_number size blockSize bound) size bound, ← blockSize,
    UInt32.ofNat_toNat]

/-! ## The agreement -/

/-- The encoders write one format, the decoders read it back, and client and server write a content format the
same way. -/
structure OptionFormats (cf : UInt16) (val : UInt32) (blkOption : BlockOption) (szx : Nat) : Prop where
  contentFormat : UintFormat cf.toNat (contentFormatBytes cf)
  client : contentFormatBytes cf = CoapPDU.contentFormatValue cf.toNat
  observe : UintFormat val.toNat (observeBytes val)
  block : UintFormat (blkOption.blockNum.toNat * 16 + (if blkOption.moreFlag then 8 else 0) + szx)
    (blockOptionBytes blkOption)
  added : ∀ msg,
    (optionsOf msg optNumContentFormat = [] → optionsOf (addCfOptionToMsg true msg cf) optNumContentFormat =
      [⟨optNumContentFormat, contentFormatBytes cf⟩]) ∧
    (optionsOf msg optNumObserve = [] → optionsOf (addObserveOptionToMsg true msg val) optNumObserve =
      [⟨optNumObserve, observeBytes val⟩]) ∧
    (optionsOf msg blkOption.type.toNat = [] → optionsOf (addBlkOptionToMsg true msg blkOption) blkOption.type.toNat =
      [⟨blkOption.type.toNat, blockOptionBytes blkOption⟩])
  readObserve : ∀ msg, optionsOf msg optNumObserve = [⟨optNumObserve, observeBytes val⟩] →
    getObserveOptionFromMsg msg = some val.toNat
  readBlock : ∀ msg, optionsOf msg blkOption.type.toNat = [⟨blkOption.type.toNat, blockOptionBytes blkOption⟩] →
    getBlockOptionFromMsg msg blkOption.type = .ok blkOption

/-- The options with a number agree, if and only if the content format is one byte or twice the same. -/
theorem option_formats_iff (cf : UInt16) (val : UInt32) (blkOption : BlockOption) (szx : Nat)
    (valBound : val.toNat < 2 ^ 24) (numBound : blkOption.blockNum.toNat < 2 ^ 20) (size : szx ≤ 6)
    (blockSize : blkOption.blockSize = 2 ^ (szx + 4)) :
    OptionFormats cf val blkOption szx ↔ cf.toNat < 256 ∨ cf.toNat / 256 = cf.toNat % 256 := by
  rw [← contentFormatBytes_format_iff]
  constructor
  · exact OptionFormats.contentFormat
  · intro format
    refine ⟨format, ?_, observeBytes_format valBound, blockOptionBytes_format size blockSize numBound, ?_, ?_, ?_⟩
    · exact format.unique (contentFormatValue_format cf.toNat_lt)
    · intro msg
      exact ⟨optionsOf_append _, optionsOf_append _, optionsOf_append _⟩
    · intro msg only
      rw [getObserveOptionFromMsg_number only, observeNumber, Nat.mod_eq_of_lt valBound]
    · intro msg only
      exact getBlockOptionFromMsg_written size blockSize numBound only

/-- Values on both sides of a byte. -/
theorem option_formats_link : OptionFormats 40 256 ⟨.block2, 512, true, 16⟩ 5 :=
  (option_formats_iff 40 256 ⟨.block2, 512, true, 16⟩ 5 (by decide) (by decide) (by decide) rfl).mpr (.inl (by decide))

/-- The lower byte of 258 comes first. -/
theorem option_formats_swapped : ¬ ∀ (cf : UInt16) (val : UInt32) (blkOption : BlockOption) (szx : Nat),
    val.toNat < 2 ^ 24 → blkOption.blockNum.toNat < 2 ^ 20 → szx ≤ 6 → blkOption.blockSize = 2 ^ (szx + 4) →
      OptionFormats cf val blkOption szx := by
  intro agree
  have formats := agree 258 0 ⟨.block2, 16, false, 0⟩ 0 (by decide) (by decide) (by decide) rfl
  have number : bigEndian [2, 1] = 258 := formats.contentFormat.number_eq
  exact absurd number (by decide)

end SmingCoap
