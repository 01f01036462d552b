import SmingCoap.Server.WorkSteps

/-! # The value of the Observe option

A notification carries the update counter of its resource, cut off to 24 bits,
and the response to a registration carries 0.  Both are ordered as serial
numbers (RFC 7641, 4.4).  Options of other numbers, and what a message has
besides its options, leave the value alone.
-/

namespace SmingCoap.Server

open Wire (Opt)

/-- The order of serial numbers: `v1` is older than `v2`. -/
def Older (v1 v2 : Nat) : Prop := v1 < v2 ∧ v2 - v1 < 2 ^ 23 ∨ v2 < v1 ∧ 2 ^ 23 < v1 - v2

/-- The value that the Observe option has for an update counter. -/
def observeNumber (updateCnt : UInt32) : Nat := updateCnt.toNat % 2 ^ 24

/-- A notification is newer than the response to the registration for half of the counter's values. -/
theorem older_zero_iff (updateCnt : UInt32) :
    Older 0 (observeNumber updateCnt) ↔ 0 < observeNumber updateCnt ∧ observeNumber updateCnt < 2 ^ 23 := by
  unfold Older
  omega

/-! ## The Observe option of a message -/

/-- There is one at most in what the stack makes. -/
def observeOptions (msg : CoapMessage) : List Opt :=
  msg.options.filter fun option => option.number = optNumObserve

theorem getObserveOptionFromMsg_congr {msg other : CoapMessage} (same : observeOptions msg = observeOptions other) :
    getObserveOptionFromMsg msg = getObserveOptionFromMsg other := by
  have found : (msg.options.find? fun option => option.number = optNumObserve) =
      other.options.find? fun option => option.number = optNumObserve := by
    rw [← List.head?_filter, ← List.head?_filter]
    exact congrArg List.head? same
  rw [getObserveOptionFromMsg, found, getObserveOptionFromMsg]

theorem getObserveOptionFromMsg_none {msg : CoapMessage} (plain : observeOptions msg = []) :
    getObserveOptionFromMsg msg = none := by
  have found : (msg.options.find? fun option => option.number = optNumObserve) = none := by
    rw [← List.head?_filter]
    exact congrArg List.head? plain
  rw [getObserveOptionFromMsg, found]

/-- A byte of a number, cut out by a shift. -/
theorem toUInt8_shiftRight (val shift : UInt32) (small : shift.toNat < 32) :
    (val >>> shift).toUInt8.toNat = val.toNat / 2 ^ shift.toNat % 256 := by
  simp [UInt32.toNat_shiftRight, Nat.shiftRight_eq_div_pow, Nat.mod_eq_of_lt small]

/-- The bytes of the option are read back, but for the highest eight bits of the counter. -/
theorem getObserveOptionFromMsg_number {msg : CoapMessage} {updateCnt : UInt32}
    (only : observeOptions msg = [⟨optNumObserve, observeBytes updateCnt⟩]) :
    getObserveOptionFromMsg msg = some (observeNumber updateCnt) := by
  have found : (msg.options.find? fun option => option.number = optNumObserve) =
      some ⟨optNumObserve, observeBytes updateCnt⟩ := by
    rw [← List.head?_filter]
    exact congrArg List.head? only
  have top := toUInt8_shiftRight updateCnt 16 (by decide)
  have high := toUInt8_shiftRight updateCnt 8 (by decide)
  have low : updateCnt.toUInt8.toNat = updateCnt.toNat % 256 := by simp
  simp only [UInt32.reduceToNat] at top high
  have order : ∀ bound : UInt32, updateCnt > bound ↔ bound.toNat < updateCnt.toNat := fun bound => UInt32.lt_iff_toNat_lt
  have wide := order 0xFFFF
  have middle := order 0xFF
  have positive := order 0
  simp only [UInt32.reduceToNat] at wide middle positive
  rw [getObserveOptionFromMsg, found]
  simp only [observeBytes, observeNumber, wide, middle, positive]
  by_cases three : 65535 < updateCnt.toNat
  · simp only [three, if_true, top, high, low, Option.some.injEq]
    omega
  · by_cases two : 255 < updateCnt.toNat
    · simp only [three, two, if_true, if_false, high, low, Option.some.injEq]
      omega
    · by_cases one : 0 < updateCnt.toNat
      · simp only [three, two, one, if_true, if_false, low, Option.some.injEq]
        omega
      · simp only [three, two, one, if_false, Option.some.injEq]
        omega

/-- Another option. -/
theorem observeOptions_append (available : Bool) {msg : CoapMessage} (plain : observeOptions msg = []) {option : Opt}
    (other : option.number ≠ optNumObserve) :
    observeOptions { msg with options := (appendOptionToList available msg.options option).2 } = [] := by
  simp only [observeOptions, List.filter_eq_nil_iff] at plain ⊢
  intro kept member
  unfold appendOptionToList at member
  cases available with
  | true =>
    simp only [if_true, List.mem_append, List.mem_cons] at member
    rcases member with before | rfl | behind
    · exact plain kept ((List.takeWhile_prefix _).subset before)
    · simpa using other
    · exact plain kept ((List.dropWhile_suffix _).subset behind)
  | false =>
    simp only [Bool.false_eq_true, if_false] at member
    split at member
    next => cases member
    next => exact plain kept member

theorem observeOptions_add (available : Bool) {msg : CoapMessage} (plain : observeOptions msg = []) (val : UInt32) :
    observeOptions (addObserveOptionToMsg available msg val) =
      if available then [⟨optNumObserve, observeBytes val⟩] else [] := by
  simp only [observeOptions, List.filter_eq_nil_iff] at plain
  unfold addObserveOptionToMsg observeOptions appendOptionToList
  cases available with
  | true =>
    have before : (msg.options.takeWhile fun other => other.number ≤ optNumObserve).filter
        (fun option => option.number = optNumObserve) = [] :=
      List.filter_eq_nil_iff.mpr fun option member => plain option ((List.takeWhile_prefix _).subset member)
    have behind : (msg.options.dropWhile fun other => other.number ≤ optNumObserve).filter
        (fun option => option.number = optNumObserve) = [] :=
      List.filter_eq_nil_iff.mpr fun option member => plain option ((List.dropWhile_suffix _).subset member)
    simp only [if_true, List.filter_append, List.filter_cons, decide_true, before, behind, List.nil_append]
  | false =>
    simp only [Bool.false_eq_true, if_false]
    split
    next => rfl
    next => exact List.filter_eq_nil_iff.mpr plain

theorem observeOptions_update (available : Bool) {msg : CoapMessage} (few : (observeOptions msg).length ≤ 1) (val : UInt32) :
    observeOptions (updateObserveOptionInMsg available msg val) =
      if available then [⟨optNumObserve, observeBytes val⟩] else [] := by
  apply observeOptions_add
  unfold removeObserveOptionFromMsg observeOptions
  -- the first that is found is the only one
  have erased : (msg.options.eraseP fun option => option.number = optNumObserve).filter
      (fun option => option.number = optNumObserve) =
      (observeOptions msg).tail := by
    unfold observeOptions
    induction msg.options with
    | nil => rfl
    | cons option rest inductionHypothesis =>
      by_cases found : option.number = optNumObserve
      · simp [found]
      · simp [found, inductionHypothesis]
  rw [erased]
  exact List.eq_nil_of_length_eq_zero (by rw [List.length_tail]; omega)

@[simp] theorem observeOptions_transmitted (now : UInt32) (msg : CoapMessage) :
    observeOptions (CoapServer.transmitted now msg) = observeOptions msg := by
  rw [observeOptions, CoapServer.transmitted_options, observeOptions]

end SmingCoap.Server
