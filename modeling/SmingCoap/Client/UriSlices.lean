import SmingCoap.Client.RequestPdu

/-! # The slices of a URI

What `setURI(uri, urilen)` hands to `addOption` does not depend on the PDU but for the place where the first option
is refused: `uriSlices` are the slices of a PDU that refuses none, and a run hands them over up to the first refusal
(`addSlices`).  On a heap that grants everything the run shows all of them.
-/

namespace SmingCoap

open Wire (Memory)

namespace CoapPDU

/-! ## The slices of a PDU that refuses none -/

/-- The slices of `setURIUptoLoop` when `addOption` refuses none of them. -/
def uriSlices (endOfUri : List UInt8) : Nat → UInt8 → Nat → List UInt8 → Option (List UriSlice)
  | 0, _, _, _ => none
  | fuel + 1, splitChar, optionType, startP =>
    if startP.headD 0 = 0 ∨ startP.tail.headD 0 = 0 then some []
    else
      let (startP, endP, queryStageTriggered) := nextSegmentUpto endOfUri splitChar startP
      let behind :=
        if queryStageTriggered then uriSlices endOfUri fuel 0x26 optionUriQuery endP.tail
        else uriSlices endOfUri fuel splitChar optionType endP
      behind.map fun slices => ⟨optionType, startP, endP⟩ :: slices

/-- The slices handed to `addOption`, up to the first that it refuses. -/
def addSlices : CoapPDU → Heap → List UriSlice → UriRun
  | this, heap, [] => ⟨0, this, heap, []⟩
  | this, heap, slice :: slices =>
    let (failed, this) := this.addOption heap.next slice.option slice.valueLength slice.value
    if failed ≠ 0 then ⟨1, this, heap.rest, [slice]⟩
    else
      let run := addSlices this heap.rest slices
      { run with slices := slice :: run.slices }

section
variable {endOfUri startP : List UInt8} {fuel optionType : Nat} {splitChar : UInt8} {slices copies : List UriSlice}
  {this : CoapPDU} {heap : Heap}

theorem setURIUptoLoop_slices (result : uriSlices endOfUri fuel splitChar optionType startP = some slices) :
    setURIUptoLoop endOfUri fuel this heap splitChar optionType startP = some (addSlices this heap slices) := by
  induction fuel generalizing this heap splitChar optionType startP slices with
  | zero => cases result
  | succ fuel inductionHypothesis =>
    rw [uriSlices] at result
    rw [setURIUptoLoop]
    split at result
    next stops =>
      cases result
      rw [if_pos stops, addSlices]
    next goesOn =>
      obtain ⟨⟨segment, endP, query⟩, cut⟩ : ∃ cut, nextSegmentUpto endOfUri splitChar startP = cut :=
        ⟨_, rfl⟩
      rw [if_neg goesOn]
      simp only [cut] at result ⊢
      obtain ⟨later, behind, rfl⟩ := Option.map_eq_some_iff.mp result
      simp only [addSlices]
      split
      next refused => rfl
      next accepted =>
        cases query with
        | false =>
          rw [if_neg Bool.false_ne_true] at behind ⊢
          rw [inductionHypothesis behind, Option.map_some]
        | true =>
          rw [if_pos rfl] at behind ⊢
          rw [inductionHypothesis behind, Option.map_some]

/-- What `addOption` is called with. -/
def UriSlice.argument (slice : UriSlice) : Nat × Nat × List UInt8 := (slice.option, slice.valueLength, slice.value)

/-- The same calls have the same outcome. -/
theorem addSlices_same (this : CoapPDU) (heap : Heap)
    (same : slices.map UriSlice.argument = copies.map UriSlice.argument) :
    (addSlices this heap slices).code = (addSlices this heap copies).code ∧
      (addSlices this heap slices).this = (addSlices this heap copies).this ∧
      (addSlices this heap slices).slices.map UriSlice.argument =
        (addSlices this heap copies).slices.map UriSlice.argument := by
  induction slices generalizing this heap copies with
  | nil =>
    rw [List.map_nil] at same
    rw [List.map_eq_nil_iff.mp same.symm]
    exact ⟨rfl, rfl, rfl⟩
  | cons slice slices inductionHypothesis =>
    cases copies with
    | nil => cases same
    | cons copy copies =>
      simp only [List.map_cons, List.cons.injEq] at same
      obtain ⟨first, later⟩ := same
      have calls := first
      simp only [UriSlice.argument, Prod.mk.injEq] at calls
      obtain ⟨option, length, value⟩ := calls
      simp only [addSlices, option, length, value]
      split
      next refused => exact ⟨rfl, rfl, by simp [first]⟩
      next accepted =>
        obtain ⟨code, pdu, arguments⟩ := inductionHypothesis _ heap.rest later
        exact ⟨code, pdu, by simp [first, arguments]⟩

theorem addSlices_mem {slice : UriSlice} (member : slice ∈ (addSlices this heap slices).slices) :
    slice ∈ slices := by
  induction slices generalizing this heap with
  | nil => exact member
  | cons first slices inductionHypothesis =>
    simp only [addSlices] at member
    split at member
    next refused => exact List.mem_cons.mpr (Or.inl (List.mem_singleton.mp member))
    next accepted =>
      cases List.mem_cons.mp member with
      | inl same => exact List.mem_cons.mpr (Or.inl same)
      | inr later => exact List.mem_cons_of_mem _ (inductionHypothesis later)

/-! ## A heap that grants everything -/

/-- Every `realloc` succeeds. -/
def granting : Heap := fun _ => some ⟨0, fun _ => 0⟩

theorem reserve_granting (own : this.constructedFromBuffer = false) (pduLength : Nat) :
    ∃ reserved, this.reserve granting.next pduLength = some reserved ∧ reserved.constructedFromBuffer = false := by
  simp only [reserve, if_pos own, granting, Heap.next]
  exact ⟨_, rfl, own⟩

theorem openGap_granting (own : this.constructedFromBuffer = false) (number position previous length : Nat) :
    ∃ gap, this.openGap granting.next number position previous length = some gap ∧
      gap.constructedFromBuffer = false := by
  rw [openGap]
  split
  next atEnd => exact reserve_granting own _
  next inside =>
    obtain ⟨reserved, success, stillOwn⟩ := reserve_granting own (this.pduLength + (length +
      ((computeExtraBytes ((previous + getOptionDelta (this.pdu.offset position) + 65536 - number) % 65536) : Int) -
        computeExtraBytes (getOptionDelta (this.pdu.offset position))))).toNat
    simp only [success]
    refine ⟨_, rfl, ?_⟩
    rw [setOptionDelta_eq, shiftPDUUp_eq]
    exact stillOwn

theorem addOption_granting (own : this.constructedFromBuffer = false) (number length : Nat) (value : List UInt8) :
    ∃ next, this.addOption granting.next number length value = (0, next) ∧ next.constructedFromBuffer = false := by
  have noted : ∀ position, (this.noteMaximum position number).constructedFromBuffer = false := by
    intro position
    rw [noteMaximum]
    split <;> exact own
  cases place : this.findInsertionPosition number with
  | mk position previous =>
    obtain ⟨gap, success, stillOwn⟩ := openGap_granting (noted position) number position previous
      ((optionHdrByte + computeExtraBytes ((number + 65536 - previous) % 65536) + computeExtraBytes length +
        length) % 65536)
    rw [addOption, place]
    simp only [success]
    refine ⟨_, rfl, ?_⟩
    simp only
    rw [insertOption_constructedFromBuffer]
    exact stillOwn

/-- On such a heap a run shows all slices. -/
theorem slices_of_granting {run : UriRun} (own : this.constructedFromBuffer = false)
    (result : setURIUptoLoop endOfUri fuel this granting splitChar optionType startP = some run) :
    uriSlices endOfUri fuel splitChar optionType startP = some run.slices := by
  induction fuel generalizing this splitChar optionType startP run with
  | zero => cases result
  | succ fuel inductionHypothesis =>
    rw [setURIUptoLoop] at result
    rw [uriSlices]
    split at result
    next stops =>
      cases result
      rw [if_pos stops]
    next goesOn =>
      obtain ⟨⟨segment, endP, query⟩, cut⟩ : ∃ cut, nextSegmentUpto endOfUri splitChar startP = cut :=
        ⟨_, rfl⟩
      obtain ⟨next, added, stillOwn⟩ := addOption_granting own optionType
        (UriSlice.mk optionType segment endP).valueLength (UriSlice.mk optionType segment endP).value
      rw [if_neg goesOn]
      simp only [cut, added, if_neg (not_not.mpr rfl)] at result ⊢
      obtain ⟨later, behind, rfl⟩ := Option.map_eq_some_iff.mp result
      cases query with
      | false =>
        rw [if_neg Bool.false_ne_true] at behind ⊢
        rw [inductionHypothesis stillOwn behind, Option.map_some]
      | true =>
        rw [if_pos rfl] at behind ⊢
        rw [inductionHypothesis stillOwn behind, Option.map_some]

/-! ## Runs without a number of turns -/

/-- The loop comes to its end with these slices. -/
def Slices (endOfUri : List UInt8) (splitChar : UInt8) (optionType : Nat) (startP : List UInt8)
    (slices : List UriSlice) : Prop :=
  ∃ fuel, uriSlices endOfUri fuel splitChar optionType startP = some slices

theorem slices_stop (stops : startP.headD 0 = 0 ∨ startP.tail.headD 0 = 0) :
    Slices endOfUri splitChar optionType startP slices ↔ slices = [] := by
  constructor
  · rintro ⟨fuel, result⟩
    cases fuel with
    | zero => cases result
    | succ fuel =>
      rw [uriSlices, if_pos stops] at result
      exact (Option.some.inj result).symm
  · rintro rfl
    exact ⟨1, by rw [uriSlices, if_pos stops]⟩

theorem slices_cut {segment endP : List UInt8} {query : Bool}
    (goesOn : ¬ (startP.headD 0 = 0 ∨ startP.tail.headD 0 = 0))
    (cut : nextSegmentUpto endOfUri splitChar startP = (segment, endP, query)) :
    Slices endOfUri splitChar optionType startP slices ↔ ∃ later,
      slices = ⟨optionType, segment, endP⟩ :: later ∧
      if query then Slices endOfUri 0x26 optionUriQuery endP.tail later
      else Slices endOfUri splitChar optionType endP later := by
  constructor
  · rintro ⟨fuel, result⟩
    cases fuel with
    | zero => cases result
    | succ fuel =>
      rw [uriSlices, if_neg goesOn] at result
      simp only [cut] at result
      obtain ⟨later, behind, rfl⟩ := Option.map_eq_some_iff.mp result
      cases query with
      | false => exact ⟨later, rfl, fuel, behind⟩
      | true => exact ⟨later, rfl, fuel, behind⟩
  · rintro ⟨later, rfl, behind⟩
    cases query with
    | false =>
      obtain ⟨fuel, behind⟩ := behind
      exact ⟨fuel + 1, by rw [uriSlices, if_neg goesOn]; simp [cut, behind]⟩
    | true =>
      obtain ⟨fuel, behind⟩ := behind
      exact ⟨fuel + 1, by rw [uriSlices, if_neg goesOn]; simp [cut, behind]⟩

/-- Where the loop goes on there is a slice. -/
theorem slices_goes_on (goesOn : ¬ (startP.headD 0 = 0 ∨ startP.tail.headD 0 = 0))
    (result : Slices endOfUri splitChar optionType startP slices) : slices ≠ [] := by
  obtain ⟨later, rfl, _⟩ := (slices_cut goesOn rfl).mp result
  exact List.cons_ne_nil _ _

end

/-! ## Where the loop cuts -/

/-- The text behind a leading separator. -/
def skipLead (splitChar : UInt8) (text : List UInt8) : List UInt8 :=
  if text.headD 0 = splitChar then text.tail else text

section
variable {splitChar : UInt8} {optionType : Nat} {part rest behind before after : List UInt8}

theorem skipLead_split (splitChar : UInt8) (nonempty : part ≠ []) :
    ∃ lead, part = lead ++ skipLead splitChar part ∧ (lead = [] ∨ lead = [splitChar]) := by
  cases part with
  | nil => exact absurd rfl nonempty
  | cons first part =>
    by_cases leads : first = splitChar
    · exact ⟨[splitChar], by simp [skipLead, leads], Or.inr rfl⟩
    · exact ⟨[], by simp [skipLead, leads], Or.inl rfl⟩

theorem skipLead_ended (splitChar : UInt8) (ended : 0 ∉ part) : 0 ∉ skipLead splitChar part := by
  rw [skipLead]
  split
  · exact fun member => ended (List.mem_of_mem_tail member)
  · exact ended

theorem skipLead_nonempty (splitChar : UInt8) (two : 2 ≤ part.length) : skipLead splitChar part ≠ [] := by
  match part with
  | first :: second :: more =>
    rw [skipLead]
    split <;> simp

theorem ended_after {byte : UInt8} (ended : 0 ∉ part) (cut : skipLead splitChar part = before ++ byte :: after) :
    0 ∉ byte :: after := by
  have skippedEnded := skipLead_ended splitChar ended
  rw [cut] at skippedEnded
  exact fun member => skippedEnded (List.mem_append_right _ member)

theorem shorter_after {byte : UInt8} (cut : skipLead splitChar part = before ++ byte :: after) :
    after.length < part.length := by
  have length := congrArg List.length cut
  have skipped : (skipLead splitChar part).length ≤ part.length := by
    rw [skipLead]
    split <;> simp
  simp at length
  omega

/-- The part without its lead starts with no separator, or is shorter. -/
theorem skipLead_shorter (cut : skipLead splitChar part = before ++ splitChar :: after) (splitSome : splitChar ≠ 0) :
    (splitChar :: after).length < part.length := by
  rw [skipLead] at cut
  split at cut
  next leads =>
    cases part with
    | nil => exact absurd leads.symm splitSome
    | cons first part =>
      rw [List.tail_cons] at cut
      simp only [cut, List.length_cons, List.length_append]
      omega
  next other =>
    cases before with
    | nil =>
      rw [cut] at other
      exact absurd rfl other
    | cons first before =>
      simp only [cut, List.length_cons, List.length_append]
      omega

/-- The loop stops where at most one byte is left. -/
theorem stops_iff (ended : 0 ∉ part) (behind : List UInt8) :
    ((part ++ 0 :: behind).headD 0 = 0 ∨ (part ++ 0 :: behind).tail.headD 0 = 0) ↔ part.length ≤ 1 := by
  match part with
  | [] => simp
  | [first] => simp
  | first :: second :: more =>
    simp only [List.mem_cons, not_or] at ended
    simp [Ne.symm ended.1, Ne.symm ended.2.1]

theorem strchr_ended (other : splitChar ≠ 0) (absent : splitChar ∉ part) (ended : 0 ∉ part)
    (behind : List UInt8) :
    strchr splitChar (part ++ 0 :: behind) = none := by
  rw [strchr_append absent ended, strchr, if_neg other.symm, if_pos rfl]

theorem skipLead_append (nonempty : part ≠ []) (rest : List UInt8) :
    skipLead splitChar (part ++ rest) = skipLead splitChar part ++ rest := by
  cases part with
  | nil => exact absurd rfl nonempty
  | cons first part => by_cases leads : first = splitChar <;> simp [skipLead, leads]

theorem nextSegmentUpto_eq (endOfUri : List UInt8) (splitChar : UInt8) (startP : List UInt8) :
    nextSegmentUpto endOfUri splitChar startP =
      match strchr splitChar (skipLead splitChar startP) with
      | some endP => (skipLead splitChar startP, endP, false)
      | none =>
        match strchr 0x3F (skipLead splitChar startP) with
        | none => (skipLead splitChar startP, endOfUri, false)
        | some endP => (skipLead splitChar startP, endP, true) := rfl

theorem nextSegmentUpto_segment (endOfUri : List UInt8) (splitChar : UInt8) (startP : List UInt8) :
    (nextSegmentUpto endOfUri splitChar startP).1 = skipLead splitChar startP := by
  rw [nextSegmentUpto_eq]
  split
  next => rfl
  next => split <;> rfl

end

end CoapPDU

end SmingCoap
