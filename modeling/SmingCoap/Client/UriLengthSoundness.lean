import SmingCoap.Client.UriSlices
import Mathlib.Data.List.DropRight
import Mathlib.Data.List.Induction

/-! # A length handed to `setURI`

`setURI(uri, urilen)` searches the string to its end and comes back to `urilen` only where it finds neither a
separator nor a '?', so it keeps to a length short of the string only by luck (`LengthKept`).  Of the string up to
the length, the last segment and, in a query, its last argument decide, together with the one or two bytes behind.
The proof takes the loop on the string and the loop on a copy that ends at the length cut by cut (`Agrees`).
-/

namespace SmingCoap

namespace CoapPDU

/-! ## Two loops in step -/

/-- The slice ends at or before the end of the URI, and not before it starts. -/
def UriSlice.Fits (endOfUri : List UInt8) (slice : UriSlice) : Prop :=
  endOfUri.length ≤ slice.endP.length ∧ slice.endP.length ≤ slice.startP.length

/-- From here on the loop stays before `rest` and asks for the same options as on a string that ends there. -/
def Agrees (rest behind : List UInt8) (splitChar : UInt8) (optionType : Nat) (part : List UInt8) : Prop :=
  ∃ slices copies, Slices (rest ++ 0 :: behind) splitChar optionType (part ++ (rest ++ 0 :: behind)) slices ∧
    (∀ slice ∈ slices, slice.Fits (rest ++ 0 :: behind)) ∧
    Slices [0] splitChar optionType (part ++ [0]) copies ∧
    slices.map UriSlice.argument = copies.map UriSlice.argument

section
variable {splitChar : UInt8} {optionType : Nat} {part rest behind before after : List UInt8}

theorem argument_cut (option : Nat) (text rest : List UInt8) :
    (UriSlice.mk option (text ++ rest) rest).argument =
      (option, text.length % 65536, text.take (text.length % 65536)) := by
  have length : (UriSlice.mk option (text ++ rest) rest).valueLength = text.length % 65536 := by
    simp only [UriSlice.valueLength, UriSlice.oLen, List.length_append]
    omega
  rw [UriSlice.argument, length, UriSlice.value, length,
    List.take_append_of_le_length (Nat.mod_le _ _)]

theorem ended_append (ended : 0 ∉ part) (restEnded : 0 ∉ rest) : 0 ∉ part ++ rest :=
  fun member => (List.mem_append.mp member).elim ended restEnded

/-- Both loops cut the same text off. -/
theorem agrees_cut {splitNext : UInt8} {typeNext : Nat} (next : List UInt8) {text end_ copyEnd : List UInt8}
    (fits : (rest ++ 0 :: behind).length ≤ end_.length)
    (whole : ∀ slices, Slices (rest ++ 0 :: behind) splitChar optionType (part ++ (rest ++ 0 :: behind)) slices ↔
      ∃ later, slices = ⟨optionType, text ++ end_, end_⟩ :: later ∧
        Slices (rest ++ 0 :: behind) splitNext typeNext (next ++ (rest ++ 0 :: behind)) later)
    (copy : ∀ slices, Slices [0] splitChar optionType (part ++ [0]) slices ↔
      ∃ later, slices = ⟨optionType, text ++ copyEnd, copyEnd⟩ :: later ∧
        Slices [0] splitNext typeNext (next ++ [0]) later) :
    Agrees rest behind splitChar optionType part ↔ Agrees rest behind splitNext typeNext next := by
  constructor
  · rintro ⟨slices, copies, run, inside, copied, same⟩
    obtain ⟨later, rfl, runLater⟩ := (whole slices).mp run
    obtain ⟨copiesLater, rfl, copiedLater⟩ := (copy copies).mp copied
    exact ⟨later, copiesLater, runLater, fun slice member => inside slice (List.mem_cons_of_mem _ member),
      copiedLater, (List.cons.inj same).2⟩
  · rintro ⟨later, copiesLater, run, inside, copied, same⟩
    refine ⟨_ :: later, _ :: copiesLater, (whole _).mpr ⟨later, rfl, run⟩, ?_,
      (copy _).mpr ⟨copiesLater, rfl, copied⟩, ?_⟩
    · intro slice member
      cases List.mem_cons.mp member with
      | inl first =>
        rw [first]
        exact ⟨fits, by simp⟩
      | inr later => exact inside slice later
    · rw [List.map_cons, List.map_cons, argument_cut, argument_cut, same]

/-- At the end of the part the copy stops, and the loop has to as well. -/
theorem agrees_short (part : List UInt8) (short : part.length ≤ 1) (ended : 0 ∉ part) (restEnded : 0 ∉ rest) :
    Agrees rest behind splitChar optionType part ↔ (part ++ rest).length ≤ 1 := by
  have copyStops := (stops_iff ended []).mpr short
  have stops := stops_iff (ended_append ended restEnded) behind
  rw [List.append_assoc] at stops
  constructor
  · rintro ⟨slices, copies, run, _, copied, same⟩
    rw [(slices_stop copyStops).mp copied, List.map_nil, List.map_eq_nil_iff] at same
    by_contra long
    exact slices_goes_on (fun stopped => long (stops.mp stopped)) run same
  · intro short
    exact ⟨[], [], (slices_stop (stops.mpr short)).mpr rfl, by simp, (slices_stop copyStops).mpr rfl, rfl⟩

/-- A cut behind the end of the URI. -/
theorem not_agrees_beyond {segment endP : List UInt8} {query : Bool}
    (goesOn : ¬ ((part ++ (rest ++ 0 :: behind)).headD 0 = 0 ∨ (part ++ (rest ++ 0 :: behind)).tail.headD 0 = 0))
    (cut : nextSegmentUpto (rest ++ 0 :: behind) splitChar (part ++ (rest ++ 0 :: behind)) = (segment, endP, query))
    (beyond : endP.length < (rest ++ 0 :: behind).length) : ¬ Agrees rest behind splitChar optionType part := by
  rintro ⟨slices, copies, run, inside, _, _⟩
  obtain ⟨later, rfl, _⟩ := (slices_cut goesOn cut).mp run
  have first := (inside _ (List.mem_cons_self ..)).1
  exact absurd first (Nat.not_le.mpr beyond)

section
variable (two : 2 ≤ part.length) (ended : 0 ∉ part) (restEnded : 0 ∉ rest) (splitSome : splitChar ≠ 0)
include two ended restEnded

theorem goes_on_whole (behind : List UInt8) :
    ¬ ((part ++ (rest ++ 0 :: behind)).headD 0 = 0 ∨ (part ++ (rest ++ 0 :: behind)).tail.headD 0 = 0) := by
  rw [← List.append_assoc, stops_iff (ended_append ended restEnded), List.length_append]
  omega

omit restEnded in
theorem goes_on_copy : ¬ ((part ++ [0]).headD 0 = 0 ∨ (part ++ [0]).tail.headD 0 = 0) := by
  rw [stops_iff ended]
  omega

include splitSome

omit splitSome in
/-- A separator in the part. -/
theorem agrees_separator (cut : skipLead splitChar part = before ++ splitChar :: after)
    (absent : splitChar ∉ before) :
    Agrees rest behind splitChar optionType part ↔ Agrees rest behind splitChar optionType (splitChar :: after) := by
  have nonempty : part ≠ [] := List.ne_nil_of_length_pos (by omega)
  have beforeEnded : 0 ∉ before := by
    have skippedEnded := skipLead_ended splitChar ended
    rw [cut] at skippedEnded
    exact fun member => skippedEnded (List.mem_append_left _ member)
  have cuts : ∀ endOfUri, nextSegmentUpto endOfUri splitChar (part ++ endOfUri) =
      (before ++ (splitChar :: after ++ endOfUri), splitChar :: after ++ endOfUri, false) := by
    intro endOfUri
    have found : strchr splitChar (before ++ splitChar :: after ++ endOfUri) =
        some (splitChar :: after ++ endOfUri) := by
      rw [List.append_assoc, List.cons_append, strchr_found absent beforeEnded]
    rw [nextSegmentUpto_eq, skipLead_append nonempty, cut]
    simp only [found]
    rw [List.append_assoc]
  exact agrees_cut (splitChar :: after) (List.suffix_append _ _).length_le
    (fun _ => slices_cut (goes_on_whole two ended restEnded behind) (cuts _))
    (fun _ => slices_cut (goes_on_copy two ended) (cuts _))

theorem cut_question (cut : skipLead splitChar part = before ++ 0x3F :: after)
    (absent : splitChar ∉ skipLead splitChar part) (noQuestion : 0x3F ∉ before) (restAbsent : splitChar ∉ rest) :
    nextSegmentUpto (rest ++ 0 :: behind) splitChar (part ++ (rest ++ 0 :: behind)) =
      (before ++ (0x3F :: after ++ (rest ++ 0 :: behind)), 0x3F :: after ++ (rest ++ 0 :: behind), true) := by
  have nonempty : part ≠ [] := List.ne_nil_of_length_pos (by omega)
  have skippedEnded := skipLead_ended splitChar ended
  have beforeEnded : 0 ∉ before := by
    rw [cut] at skippedEnded
    exact fun member => skippedEnded (List.mem_append_left _ member)
  have noSeparator : strchr splitChar (skipLead splitChar part ++ (rest ++ 0 :: behind)) = none := by
    rw [strchr_append absent skippedEnded, strchr_ended splitSome restAbsent restEnded]
  have found : strchr 0x3F (skipLead splitChar part ++ (rest ++ 0 :: behind)) =
      some (0x3F :: after ++ (rest ++ 0 :: behind)) := by
    rw [cut, List.append_assoc, List.cons_append, strchr_found noQuestion beforeEnded]
  rw [nextSegmentUpto_eq, skipLead_append nonempty]
  simp only [noSeparator, found]
  rw [cut, List.append_assoc]

omit restEnded in
theorem cut_question_copy (cut : skipLead splitChar part = before ++ 0x3F :: after)
    (absent : splitChar ∉ skipLead splitChar part) (noQuestion : 0x3F ∉ before) :
    nextSegmentUpto [0] splitChar (part ++ [0]) = (before ++ (0x3F :: after ++ [0]), 0x3F :: after ++ [0], true) :=
  cut_question two ended (List.not_mem_nil : 0 ∉ ([] : List UInt8)) splitSome cut absent noQuestion List.not_mem_nil

/-- The question mark behind the last separator of the part. -/
theorem agrees_question (cut : skipLead splitChar part = before ++ 0x3F :: after)
    (absent : splitChar ∉ skipLead splitChar part) (noQuestion : 0x3F ∉ before) (restAbsent : splitChar ∉ rest) :
    Agrees rest behind splitChar optionType part ↔ Agrees rest behind 0x26 optionUriQuery after :=
  agrees_cut after (List.suffix_append _ _).length_le
    (fun _ => slices_cut (goes_on_whole two ended restEnded behind)
      (cut_question two ended restEnded splitSome cut absent noQuestion restAbsent))
    (fun _ => slices_cut (goes_on_copy two ended)
      (cut_question_copy two ended splitSome cut absent noQuestion))

omit splitSome in
/-- The separator is found behind the part. -/
theorem cut_late {early later : List UInt8} (absent : splitChar ∉ skipLead splitChar part)
    (late : rest = early ++ splitChar :: later) (earlyAbsent : splitChar ∉ early) :
    nextSegmentUpto (rest ++ 0 :: behind) splitChar (part ++ (rest ++ 0 :: behind)) =
      (skipLead splitChar part ++ (rest ++ 0 :: behind), splitChar :: later ++ 0 :: behind, false) := by
  have nonempty : part ≠ [] := List.ne_nil_of_length_pos (by omega)
  have earlyEnded : 0 ∉ early := by
    rw [late] at restEnded
    exact fun member => restEnded (List.mem_append_left _ member)
  have found : strchr splitChar (skipLead splitChar part ++ (rest ++ 0 :: behind)) =
      some (splitChar :: later ++ 0 :: behind) := by
    rw [strchr_append absent (skipLead_ended splitChar ended), late, List.append_assoc, List.cons_append,
      strchr_found earlyAbsent earlyEnded]
  rw [nextSegmentUpto_eq, skipLead_append nonempty]
  simp only [found]

/-- The separator is found behind the part, where the copy finds the question mark. -/
theorem not_agrees_late (cut : skipLead splitChar part = before ++ 0x3F :: after)
    (absent : splitChar ∉ skipLead splitChar part) (noQuestion : 0x3F ∉ before) (late : splitChar ∈ rest) :
    ¬ Agrees rest behind splitChar optionType part := by
  have goesOn := goes_on_whole two ended restEnded behind
  obtain ⟨early, later, restEq, earlyAbsent⟩ := List.eq_append_cons_of_mem late
  have whole : ∀ behind, nextSegmentUpto (rest ++ 0 :: behind) splitChar (part ++ (rest ++ 0 :: behind)) = _ :=
    fun _ => cut_late two ended restEnded absent restEq earlyAbsent
  cases early with
  | cons first early =>
    have beyond : (splitChar :: later ++ 0 :: behind).length < (rest ++ 0 :: behind).length := by
      simp only [restEq, List.length_cons, List.length_append]
      omega
    exact not_agrees_beyond goesOn (whole behind) beyond
  | nil =>
    rintro ⟨slices, copies, run, inside, copied, same⟩
    obtain ⟨more, rfl, runMore⟩ := (slices_cut goesOn (whole behind)).mp run
    obtain ⟨copiesMore, rfl, copiedMore⟩ := (slices_cut (goes_on_copy two ended)
      (cut_question_copy two ended splitSome cut absent noQuestion)).mp copied
    rw [List.map_cons, List.map_cons, List.cons.injEq] at same
    rw [List.nil_append] at restEq
    subst restEq
    cases later with
    | nil =>
      -- the loop stops at the one byte left, and the copy has the query to add
      have stops := (stops_iff restEnded behind).mpr (Nat.le_refl 1)
      rw [(slices_stop stops).mp runMore, List.map_nil] at same
      have stopped : after.length ≤ 1 := by
        by_contra long
        have afterEnded : 0 ∉ after := List.not_mem_of_not_mem_cons (ended_after ended cut)
        exact slices_goes_on (fun stopped => long ((stops_iff afterEnded []).mp stopped)) copiedMore
          (List.map_eq_nil_iff.mp same.2.symm)
      have lengths := same.1
      rw [argument_cut, argument_cut, Prod.mk.injEq, Prod.mk.injEq, cut, List.length_append,
        List.length_cons] at lengths
      omega
    | cons second later =>
      -- the next slice starts behind the end of the URI
      have goesOn : ¬ _ := fun stopped => absurd ((stops_iff restEnded behind).mp stopped) (by simp)
      obtain ⟨⟨segment, endP, query⟩, nextCut⟩ : ∃ nextCut, nextSegmentUpto
          (splitChar :: second :: later ++ 0 :: behind) splitChar (splitChar :: second :: later ++ 0 :: behind) =
            nextCut := ⟨_, rfl⟩
      have skipped : segment = second :: later ++ 0 :: behind := by
        have first := nextSegmentUpto_segment (splitChar :: second :: later ++ 0 :: behind) splitChar
          (splitChar :: second :: later ++ 0 :: behind)
        rw [nextCut] at first
        simpa [skipLead] using first
      obtain ⟨more, rfl, _⟩ := (slices_cut goesOn nextCut).mp runMore
      have fits := inside _ (List.mem_cons_of_mem _ (List.mem_cons_self ..))
      simp [UriSlice.Fits, skipped] at fits
      omega

theorem cut_end (absent : splitChar ∉ skipLead splitChar part) (noQuestion : 0x3F ∉ skipLead splitChar part)
    (restAbsent : splitChar ∉ rest) (restNoQuestion : 0x3F ∉ rest) :
    nextSegmentUpto (rest ++ 0 :: behind) splitChar (part ++ (rest ++ 0 :: behind)) =
      (skipLead splitChar part ++ (rest ++ 0 :: behind), rest ++ 0 :: behind, false) := by
  have nonempty : part ≠ [] := List.ne_nil_of_length_pos (by omega)
  have skippedEnded := skipLead_ended splitChar ended
  have noSeparator : strchr splitChar (skipLead splitChar part ++ (rest ++ 0 :: behind)) = none := by
    rw [strchr_append absent skippedEnded, strchr_ended splitSome restAbsent restEnded]
  have noQuery : strchr 0x3F (skipLead splitChar part ++ (rest ++ 0 :: behind)) = none := by
    rw [strchr_append noQuestion skippedEnded, strchr_ended (by decide) restNoQuestion restEnded]
  rw [nextSegmentUpto_eq, skipLead_append nonempty]
  simp only [noSeparator, noQuery]

omit restEnded in
theorem copy_end (absent : splitChar ∉ skipLead splitChar part) (noQuestion : 0x3F ∉ skipLead splitChar part)
    (slices : List UriSlice) :
    Slices [0] splitChar optionType (part ++ [0]) slices ↔ ∃ later,
      slices = ⟨optionType, skipLead splitChar part ++ [0], [0]⟩ :: later ∧
        Slices [0] splitChar optionType [0] later :=
  slices_cut (goes_on_copy two ended)
    (cut_end two ended (List.not_mem_nil : 0 ∉ ([] : List UInt8)) splitSome absent noQuestion List.not_mem_nil
      List.not_mem_nil)

/-- Where the cut is at the end of the URI, both loops come to an end there. -/
theorem agrees_atEnd (absent : splitChar ∉ skipLead splitChar part) (noQuestion : 0x3F ∉ skipLead splitChar part)
    (cut : nextSegmentUpto (rest ++ 0 :: behind) splitChar (part ++ (rest ++ 0 :: behind)) =
      (skipLead splitChar part ++ (rest ++ 0 :: behind), rest ++ 0 :: behind, false)) :
    Agrees rest behind splitChar optionType part ↔ rest.length ≤ 1 := by
  rw [agrees_cut [] (Nat.le_refl _) (fun _ => slices_cut (goes_on_whole two ended restEnded behind) cut)
      (copy_end two ended splitSome absent noQuestion),
    agrees_short [] (Nat.zero_le 1) List.not_mem_nil restEnded, List.nil_append]

/-- A question mark is found behind the part, and no separator. -/
theorem cut_late_question {early later : List UInt8} (absent : splitChar ∉ skipLead splitChar part)
    (noQuestion : 0x3F ∉ skipLead splitChar part) (restAbsent : splitChar ∉ rest)
    (late : rest = early ++ 0x3F :: later) (earlyAbsent : 0x3F ∉ early) :
    nextSegmentUpto (rest ++ 0 :: behind) splitChar (part ++ (rest ++ 0 :: behind)) =
      (skipLead splitChar part ++ (rest ++ 0 :: behind), 0x3F :: later ++ 0 :: behind, true) := by
  have nonempty : part ≠ [] := List.ne_nil_of_length_pos (by omega)
  have skippedEnded := skipLead_ended splitChar ended
  have noSeparator : strchr splitChar (skipLead splitChar part ++ (rest ++ 0 :: behind)) = none := by
    rw [strchr_append absent skippedEnded, strchr_ended splitSome restAbsent restEnded]
  have earlyEnded : 0 ∉ early := by
    rw [late] at restEnded
    exact fun member => restEnded (List.mem_append_left _ member)
  have found : strchr 0x3F (skipLead splitChar part ++ (rest ++ 0 :: behind)) =
      some (0x3F :: later ++ 0 :: behind) := by
    rw [strchr_append noQuestion skippedEnded, late, List.append_assoc, List.cons_append,
      strchr_found earlyAbsent earlyEnded]
  rw [nextSegmentUpto_eq, skipLead_append nonempty]
  simp only [noSeparator, found]

/-- With a question mark right behind the part the loop goes on to a query there, unless that is one byte. -/
theorem agrees_question_behind {later : List UInt8} (absent : splitChar ∉ skipLead splitChar part)
    (noQuestion : 0x3F ∉ skipLead splitChar part) (restAbsent : splitChar ∉ rest) (late : rest = 0x3F :: later) :
    Agrees rest behind splitChar optionType part ↔ later.length ≤ 1 := by
  have goesOn := goes_on_whole two ended restEnded behind
  have cut : nextSegmentUpto (rest ++ 0 :: behind) splitChar (part ++ (rest ++ 0 :: behind)) =
      (skipLead splitChar part ++ (rest ++ 0 :: behind), rest ++ 0 :: behind, true) := by
    rw [cut_late_question two ended restEnded splitSome absent noQuestion restAbsent
      (show rest = [] ++ 0x3F :: later from late) List.not_mem_nil, late]
  have laterEnded : 0 ∉ later := by
    rw [late] at restEnded
    exact List.not_mem_of_not_mem_cons restEnded
  have stops := stops_iff laterEnded behind
  have tail : (rest ++ 0 :: behind).tail = later ++ 0 :: behind := by
    rw [late, List.cons_append, List.tail_cons]
  -- the piece up to the question mark is the same, so the argument behind it decides
  constructor
  · rintro ⟨slices, copies, run, _, copied, same⟩
    obtain ⟨more, rfl, runMore⟩ := (slices_cut goesOn cut).mp run
    obtain ⟨copiesMore, rfl, copiedMore⟩ := (copy_end two ended splitSome absent noQuestion copies).mp copied
    rw [if_pos rfl, tail] at runMore
    rw [(slices_stop (Or.inl rfl)).mp copiedMore, List.map_cons, List.map_cons, List.cons.injEq, List.map_nil,
      List.map_eq_nil_iff] at same
    by_contra long
    exact slices_goes_on (fun stopped => long (stops.mp stopped)) runMore same.2
  · intro short
    have stopped : Slices (rest ++ 0 :: behind) 0x26 optionUriQuery (rest ++ 0 :: behind).tail [] := by
      rw [tail]
      exact (slices_stop (stops.mpr short)).mpr rfl
    refine ⟨_, _, (slices_cut goesOn cut).mpr ⟨[], rfl, stopped⟩, ?_,
      (copy_end two ended splitSome absent noQuestion _).mpr ⟨[], rfl, (slices_stop (Or.inl rfl)).mpr rfl⟩, ?_⟩
    · intro slice member
      rw [List.mem_singleton.mp member]
      exact ⟨Nat.le_refl _, by simp⟩
    · rw [List.map_cons, List.map_cons, argument_cut, argument_cut]

/-- No separator and no question mark is left in the part. -/
theorem agrees_end (question : splitChar ≠ 0x3F) (absent : splitChar ∉ skipLead splitChar part)
    (noQuestion : 0x3F ∉ skipLead splitChar part) (goesBeyond : rest ≠ []) :
    Agrees rest behind splitChar optionType part ↔
      rest.length = 1 ∨ ∃ byte, byte ≠ splitChar ∧ rest = [0x3F, byte] := by
  have goesOn := goes_on_whole two ended restEnded behind
  have positive := List.length_pos_of_ne_nil goesBeyond
  -- behind the length the string goes on with a separator, a question mark or neither
  by_cases late : splitChar ∈ rest
  · obtain ⟨early, later, restEq, earlyAbsent⟩ := List.eq_append_cons_of_mem late
    have cut := @cut_late _ _ _ behind two ended restEnded _ _ absent restEq earlyAbsent
    have noPair : ¬ ∃ byte, byte ≠ splitChar ∧ rest = [0x3F, byte] := by
      rintro ⟨byte, other, same⟩
      rw [same] at late
      simp [question, Ne.symm other] at late
    cases early with
    -- it comes at once, so the piece ends where the length ends
    | nil =>
      rw [agrees_atEnd two ended restEnded splitSome absent noQuestion (by rw [cut, restEq, List.nil_append])]
      simp only [noPair, or_false]
      omega
    | cons first early =>
      have beyond : (splitChar :: later ++ 0 :: behind).length < (rest ++ 0 :: behind).length := by
        simp only [restEq, List.length_cons, List.length_append]
        omega
      refine iff_of_false (not_agrees_beyond goesOn cut beyond) ?_
      rintro (one | pair)
      · simp [restEq] at one
      · exact noPair pair
  · by_cases query : 0x3F ∈ rest
    · obtain ⟨early, later, restEq, earlyAbsent⟩ := List.eq_append_cons_of_mem query
      have cut := @cut_late_question _ _ _ behind two ended restEnded splitSome _ _ absent noQuestion late
        restEq earlyAbsent
      cases early with
      | nil =>
        rw [agrees_question_behind two ended restEnded splitSome absent noQuestion late restEq]
        subst restEq
        match later with
        | [] => simp
        | [byte] =>
          simp only [List.nil_append, List.mem_cons, not_or] at late
          simp [Ne.symm late.2.1]
        | byte :: second :: later => simp
      | cons first early =>
        have beyond : (0x3F :: later ++ 0 :: behind).length < (rest ++ 0 :: behind).length := by
          simp only [restEq, List.length_cons, List.length_append]
          omega
        refine iff_of_false (not_agrees_beyond goesOn cut beyond) ?_
        rintro (one | ⟨byte, other, same⟩)
        · simp [restEq] at one
        · rw [restEq, List.cons_append, List.cons.injEq] at same
          exact earlyAbsent (List.mem_cons.mpr (Or.inl same.1.symm))
    · rw [agrees_atEnd two ended restEnded splitSome absent noQuestion
        (cut_end two ended restEnded splitSome absent noQuestion late query)]
      constructor
      · intro short
        exact Or.inl (by omega)
      · rintro (one | ⟨byte, other, rfl⟩)
        · omega
        · exact absurd (List.mem_cons_self ..) query

end

end

/-! ## The end of the part -/

/-- The text behind the last separator. -/
def lastPiece (separator : UInt8) (text : List UInt8) : List UInt8 := text.rtakeWhile (· != separator)

/-- A query that a length cuts, and the rest of the string: the cut leaves no single byte behind a '?', nothing
behind the last '&', and the rest is one byte, or a '?' and one byte. -/
def QueryKept (query rest : List UInt8) : Prop :=
  (∀ byte, ¬ [0x3F, byte] <:+ 0x3F :: query) ∧ ¬ [0x26] <:+ query ∧
    (0x3F ∈ lastPiece 0x26 query → 0x26 ∉ rest) ∧
    (rest.length = 1 ∨ ¬ [0x3F] <:+ 0x3F :: query ∧ ∃ byte, byte ≠ 0x26 ∧ rest = [0x3F, byte])

/-- `setURI` keeps to the length that cuts a URI into `part` and `rest`. -/
def LengthKept (part rest : List UInt8) : Prop :=
  part.length = 1 ∨ rest = [] ∨
    (lastPiece 0x2F part ≠ [] ∧
      if 0x3F ∈ lastPiece 0x2F part then
        0x2F ∉ rest ∧ QueryKept ((lastPiece 0x2F part).dropWhile (· != 0x3F)).tail rest
      else rest.length = 1 ∨ ∃ byte, byte ≠ 0x2F ∧ rest = [0x3F, byte])

section
variable {separator : UInt8} {text lead before after part rest behind : List UInt8}

theorem lastPiece_of_absent (absent : separator ∉ text) : lastPiece separator text = text := by
  rw [lastPiece, List.rtakeWhile_eq_self_iff]
  intro byte member
  have other : byte ≠ separator := fun same => absent (same ▸ member)
  simpa using other

theorem lastPiece_append (separator : UInt8) (before after : List UInt8) :
    lastPiece separator (before ++ separator :: after) = lastPiece separator after := by
  induction after using List.reverseRecOn with
  | nil => rw [lastPiece, List.rtakeWhile_concat_neg _ _ _ (by simp), lastPiece, List.rtakeWhile_nil]
  | append_singleton after byte inductionHypothesis =>
    rw [← List.cons_append, ← List.append_assoc, lastPiece, lastPiece, List.rtakeWhile_concat,
      List.rtakeWhile_concat, ← lastPiece, ← lastPiece, inductionHypothesis]

/-- What ends a text of at least its length ends all that the text ends. -/
theorem suffix_append_iff (ending : List UInt8) (short : ending.length ≤ after.length) :
    ending <:+ before ++ after ↔ ending <:+ after :=
  ⟨fun ends => List.suffix_of_suffix_length_le ends (List.suffix_append _ _) short,
    fun ends => ends.trans (List.suffix_append _ _)⟩

theorem suffix_behind (first : UInt8) (ending : List UInt8) (short : ending.length ≤ after.length) :
    ending <:+ first :: after ↔ ending <:+ after :=
  show ending <:+ [first] ++ after ↔ ending <:+ after from suffix_append_iff ending short

/-- Only what is behind the last '&' matters, and that there is one. -/
theorem queryKept_separator : QueryKept (before ++ 0x26 :: after) rest ↔ QueryKept (0x26 :: after) rest := by
  cases after with
  | nil =>
    exact iff_of_false (fun kept => kept.2.1 (List.suffix_append _ _)) fun kept => kept.2.1 (List.suffix_refl _)
  | cons byte after =>
    have endings : ∀ ending : List UInt8, ending.length ≤ 2 →
        (ending <:+ 0x3F :: (before ++ 0x26 :: byte :: after) ↔ ending <:+ 0x3F :: 0x26 :: byte :: after) := by
      intro ending short
      have long : ending.length ≤ (0x26 :: byte :: after).length :=
        Nat.le_trans short (Nat.succ_le_succ (Nat.succ_le_succ (Nat.zero_le _)))
      rw [← List.cons_append, suffix_append_iff _ long, suffix_behind 0x3F _ long]
    have last : [0x26] <:+ before ++ 0x26 :: byte :: after ↔ [0x26] <:+ 0x26 :: byte :: after :=
      suffix_append_iff _ (by simp)
    simp only [QueryKept, endings [0x3F, _] (by simp), endings [0x3F] (by simp), last, lastPiece_append]
    rw [show lastPiece 0x26 (0x26 :: byte :: after) = lastPiece 0x26 (byte :: after) from lastPiece_append 0x26 [] _]

theorem lastPiece_lead (leads : lead = [] ∨ lead = [separator]) (absent : separator ∉ text) :
    lastPiece separator (lead ++ text) = text := by
  cases leads with
  | inl none => rw [none, List.nil_append, lastPiece_of_absent absent]
  | inr one => rw [one, show [separator] ++ text = [] ++ separator :: text from rfl, lastPiece_append,
      lastPiece_of_absent absent]

theorem queryKept_nil : QueryKept [] rest ↔ rest.length = 1 := by
  have noPair : ∀ byte, ¬ [0x3F, byte] <:+ [(0x3F : UInt8)] := fun byte ends => absurd ends.length_le (by simp)
  simp [QueryKept, noPair, lastPiece]

/-- Behind the last '&' the first '?' starts the query anew. -/
theorem queryKept_question (leads : lead = [] ∨ lead = [0x26]) (absent : 0x26 ∉ before ++ 0x3F :: after)
    (noQuestion : 0x3F ∉ before) (two : 2 ≤ (lead ++ (before ++ 0x3F :: after)).length) :
    QueryKept (lead ++ (before ++ 0x3F :: after)) rest ↔ 0x26 ∉ rest ∧ QueryKept after rest := by
  have single : [0x3F] <:+ 0x3F :: (lead ++ (before ++ 0x3F :: after)) ↔ [0x3F] <:+ 0x3F :: after := by
    rw [← List.cons_append, ← List.append_assoc, suffix_append_iff _ (by simp)]
  have pair : (∀ byte, ¬ [0x3F, byte] <:+ 0x3F :: (lead ++ (before ++ 0x3F :: after))) ↔
      ∀ byte, ¬ [0x3F, byte] <:+ 0x3F :: after := by
    cases after with
    | nil =>
      -- the '?' is the last byte, and the byte in front of it is no '?'
      refine iff_of_true (fun byte ends => ?_) (fun byte ends => absurd ends.length_le (by simp))
      rw [← List.append_assoc] at ends two
      have inner : lead ++ before ≠ [] := by
        intro empty
        rw [empty] at two
        simp at two
      obtain ⟨front, last, ending⟩ : ∃ front last, lead ++ before = front ++ [last] :=
        ⟨_, _, (List.dropLast_append_getLast inner).symm⟩
      have lastOther : last ≠ 0x3F := by
        rintro rfl
        have member : 0x3F ∈ lead ++ before := by simp [ending]
        cases List.mem_append.mp member with
        | inl inLead => cases leads with
          | inl none => simp [none] at inLead
          | inr one => simp [one] at inLead
        | inr inBefore => exact noQuestion inBefore
      rw [ending, List.append_assoc, ← List.cons_append, suffix_append_iff _ (by simp)] at ends
      have same := ends.eq_of_length (by simp)
      simp at same
      exact lastOther same.1.symm
    | cons first after =>
      have cut : ∀ byte, [0x3F, byte] <:+ 0x3F :: (lead ++ (before ++ 0x3F :: first :: after)) ↔
          [0x3F, byte] <:+ 0x3F :: first :: after := by
        intro byte
        rw [← List.cons_append, ← List.append_assoc, suffix_append_iff _ (by simp)]
      simp only [cut]
  have noSeparator : 0x26 ∉ after := fun member =>
    absent (List.mem_append_right _ (List.mem_cons_of_mem _ member))
  have last : ¬ [0x26] <:+ lead ++ (before ++ 0x3F :: after) := by
    rw [← List.append_assoc, suffix_append_iff _ (by simp)]
    intro ends
    exact absent (List.mem_append_right _ (ends.subset (List.mem_singleton_self _)))
  have lastAfter : ¬ [0x26] <:+ after := fun ends => noSeparator (ends.subset (List.mem_singleton_self _))
  have piece : lastPiece 0x26 (lead ++ (before ++ 0x3F :: after)) = before ++ 0x3F :: after :=
    lastPiece_lead leads absent
  have pieceAfter := lastPiece_of_absent noSeparator
  have question : (0x3F : UInt8) ∈ before ++ 0x3F :: after := by simp
  simp only [QueryKept, single, pair, last, lastAfter, piece, pieceAfter, question]
  constructor
  · rintro ⟨noPair, unfinished, plain, ends⟩
    exact ⟨plain trivial, noPair, unfinished, fun _ => plain trivial, ends⟩
  · rintro ⟨plain, noPair, unfinished, -, ends⟩
    exact ⟨noPair, unfinished, fun _ => plain, ends⟩

theorem queryKept_plain (leads : lead = [] ∨ lead = [0x26]) (absent : 0x26 ∉ text) (noQuestion : 0x3F ∉ text)
    (nonempty : text ≠ []) (two : 2 ≤ (lead ++ text).length) :
    QueryKept (lead ++ text) rest ↔ rest.length = 1 ∨ ∃ byte, byte ≠ 0x26 ∧ rest = [0x3F, byte] := by
  have inside : 0x3F ∉ lead ++ text := by
    intro member
    cases List.mem_append.mp member with
    | inl inLead => cases leads with
      | inl none => simp [none] at inLead
      | inr one => simp [one] at inLead
    | inr inText => exact noQuestion inText
  have noPair : ∀ byte, ¬ [0x3F, byte] <:+ 0x3F :: (lead ++ text) := by
    intro byte ends
    rw [suffix_behind 0x3F [0x3F, byte] two] at ends
    exact inside (ends.subset (List.mem_cons_self ..))
  have noQuestionLast : ¬ [0x3F] <:+ 0x3F :: (lead ++ text) := by
    intro ends
    rw [suffix_behind 0x3F [0x3F] (Nat.le_of_succ_le two)] at ends
    exact inside (ends.subset (List.mem_cons_self ..))
  have last : ¬ [0x26] <:+ lead ++ text := by
    rw [suffix_append_iff [0x26] (List.length_pos_of_ne_nil nonempty)]
    exact fun ends => absent (ends.subset (List.mem_cons_self ..))
  simp [QueryKept, noPair, noQuestionLast, last, lastPiece_lead leads absent, noQuestion]

end

/-! ## The loops on the whole string -/

section
variable {part rest behind : List UInt8} (restEnded : 0 ∉ rest)
include restEnded

/-- The query stage. -/
theorem agrees_query (ended : 0 ∉ part) (goesBeyond : rest ≠ []) :
    Agrees rest behind 0x26 optionUriQuery part ↔ QueryKept part rest := by
  induction size : part.length using Nat.strong_induction_on generalizing part with
  | _ length inductionHypothesis =>
    subst size
    have positive := List.length_pos_of_ne_nil goesBeyond
    by_cases two : 2 ≤ part.length
    -- the first character is skipped when it separates; what follows decides, as in the code
    · obtain ⟨lead, split, leads⟩ := skipLead_split 0x26 (List.ne_nil_of_length_pos (by omega : 0 < part.length))
      by_cases separator : 0x26 ∈ skipLead 0x26 part
      · obtain ⟨before, after, cut, absent⟩ := List.eq_append_cons_of_mem separator
        rw [agrees_separator two ended restEnded cut absent,
          inductionHypothesis _ (skipLead_shorter cut (by decide)) (ended_after ended cut) rfl]
        rw [cut, ← List.append_assoc] at split
        rw [split, queryKept_separator]
      · by_cases question : 0x3F ∈ skipLead 0x26 part
        · obtain ⟨before, after, cut, noQuestion⟩ := List.eq_append_cons_of_mem question
          have afterEnded : 0 ∉ after := List.not_mem_of_not_mem_cons (ended_after ended cut)
          have kept : QueryKept part rest ↔ 0x26 ∉ rest ∧ QueryKept after rest := by
            have absent := separator
            rw [cut] at split absent
            rw [split]
            exact queryKept_question leads absent noQuestion (split ▸ two)
          rw [kept]
          -- an ampersand behind the question mark is looked for in the whole text, not in the part
          by_cases late : 0x26 ∈ rest
          · exact iff_of_false (not_agrees_late two ended restEnded (by decide) cut separator noQuestion late)
              fun kept => kept.1 late
          · rw [agrees_question two ended restEnded (by decide) cut separator noQuestion late,
              inductionHypothesis _ (shorter_after cut) afterEnded rfl]
            exact (and_iff_right late).symm
        · have kept : QueryKept part rest ↔ rest.length = 1 ∨ ∃ byte, byte ≠ 0x26 ∧ rest = [0x3F, byte] := by
            rw [split]
            exact queryKept_plain leads separator question (skipLead_nonempty 0x26 two) (split ▸ two)
          rw [agrees_end two ended restEnded (by decide) (by decide) separator question goesBeyond, kept]
    · rw [agrees_short part (by omega) ended restEnded]
      match part with
      | [] =>
        rw [queryKept_nil, List.nil_append]
        omega
      | [byte] =>
        refine iff_of_false (by simp; exact goesBeyond) fun kept => kept.1 byte (List.suffix_refl _)
      | _ :: _ :: _ => exact absurd (by simp) two

/-- The path stage, from the start or from a separator on. -/
theorem agrees_path (ended : 0 ∉ part) (goesBeyond : rest ≠ []) (start : 2 ≤ part.length ∨ part = [0x2F]) :
    Agrees rest behind 0x2F optionUriPath part ↔ lastPiece 0x2F part ≠ [] ∧
      if 0x3F ∈ lastPiece 0x2F part then
        0x2F ∉ rest ∧ QueryKept ((lastPiece 0x2F part).dropWhile (· != 0x3F)).tail rest
      else rest.length = 1 ∨ ∃ byte, byte ≠ 0x2F ∧ rest = [0x3F, byte] := by
  induction size : part.length using Nat.strong_induction_on generalizing part with
  | _ length inductionHypothesis =>
    subst size
    have positive := List.length_pos_of_ne_nil goesBeyond
    cases start with
    | inr one =>
      subst one
      rw [agrees_short [0x2F] (Nat.le_refl 1) ended restEnded]
      have empty : lastPiece 0x2F [0x2F] = [] := lastPiece_append 0x2F [] []
      exact iff_of_false (by simp; exact goesBeyond) fun kept => kept.1 empty
    | inl two =>
      obtain ⟨lead, split, leads⟩ := skipLead_split 0x2F (List.ne_nil_of_length_pos (by omega : 0 < part.length))
      by_cases separator : 0x2F ∈ skipLead 0x2F part
      -- a separator: one segment less
      · obtain ⟨before, after, cut, absent⟩ := List.eq_append_cons_of_mem separator
        have startAfter : 2 ≤ (0x2F :: after).length ∨ 0x2F :: after = [0x2F] := by
          cases after with
          | nil => exact Or.inr rfl
          | cons first after => exact Or.inl (by simp)
        have same : lastPiece 0x2F part = lastPiece 0x2F (0x2F :: after) := by
          rw [split, cut, ← List.append_assoc, lastPiece_append]
          exact (lastPiece_append 0x2F [] after).symm
        rw [agrees_separator two ended restEnded cut absent,
          inductionHypothesis _ (skipLead_shorter cut (by decide)) (ended_after ended cut) startAfter rfl, same]
      · have segment : lastPiece 0x2F part = skipLead 0x2F part := by
          have piece := lastPiece_lead leads separator
          rw [← split] at piece
          exact piece
        rw [segment, and_iff_right (skipLead_nonempty 0x2F two)]
        -- the last segment, with or without a query behind it
        by_cases question : 0x3F ∈ skipLead 0x2F part
        · obtain ⟨before, after, cut, noQuestion⟩ := List.eq_append_cons_of_mem question
          have afterEnded : 0 ∉ after := List.not_mem_of_not_mem_cons (ended_after ended cut)
          have query : ((skipLead 0x2F part).dropWhile (· != 0x3F)).tail = after := by
            rw [cut, List.dropWhile_append_of_pos]
            · simp
            · intro byte member
              have other : byte ≠ 0x3F := fun same => noQuestion (same ▸ member)
              simpa using other
          rw [if_pos question, query]
          by_cases late : 0x2F ∈ rest
          · exact iff_of_false (not_agrees_late two ended restEnded (by decide) cut separator noQuestion late)
              fun kept => kept.1 late
          · rw [agrees_question two ended restEnded (by decide) cut separator noQuestion late,
              agrees_query restEnded afterEnded goesBeyond]
            exact (and_iff_right late).symm
        · rw [if_neg question, agrees_end two ended restEnded (by decide) (by decide) separator question goesBeyond]

end

/-- A length that ends with the string is kept to. -/
theorem agrees_whole {splitChar : UInt8} {optionType : Nat} {part behind : List UInt8} (ended : 0 ∉ part)
    (splitSome : splitChar ≠ 0) : Agrees [] behind splitChar optionType part := by
  have none : (0 : UInt8) ∉ ([] : List UInt8) := List.not_mem_nil
  induction size : part.length using Nat.strong_induction_on generalizing splitChar optionType part with
  | _ length inductionHypothesis =>
    subst size
    by_cases two : 2 ≤ part.length
    · by_cases separator : splitChar ∈ skipLead splitChar part
      · obtain ⟨before, after, cut, absent⟩ := List.eq_append_cons_of_mem separator
        rw [agrees_separator two ended none cut absent]
        exact inductionHypothesis _ (skipLead_shorter cut splitSome) (ended_after ended cut) splitSome rfl
      · by_cases question : 0x3F ∈ skipLead splitChar part
        · obtain ⟨before, after, cut, noQuestion⟩ := List.eq_append_cons_of_mem question
          rw [agrees_question two ended none splitSome cut separator noQuestion List.not_mem_nil]
          exact inductionHypothesis _ (shorter_after cut)
            (List.not_mem_of_not_mem_cons (ended_after ended cut)) (by decide) rfl
        · rw [agrees_atEnd two ended none splitSome separator question
            (cut_end two ended none splitSome separator question List.not_mem_nil List.not_mem_nil)]
          exact Nat.zero_le 1
    · rw [agrees_short part (by omega) ended none, List.append_nil]
      omega

/-! ## The call -/

/-- Within the first `urilen` bytes of the buffer. -/
def UriSlice.Inside (uri : List UInt8) (urilen : Nat) (slice : UriSlice) : Prop :=
  0 ≤ slice.oLen ∧ (uri.length : Int) - slice.startP.length + slice.oLen ≤ urilen

/-- Whatever the PDU accepts, `setURI(uri, urilen)` comes to its end, reads its options from the first `urilen` bytes
and leaves what it leaves on a copy of them. -/
def KeepsToLength (uri : List UInt8) (urilen : Nat) : Prop :=
  ∀ (this : CoapPDU) (heap : Heap), ∃ fuel run, setURIUpto fuel this heap uri urilen = some run ∧
    (∀ slice ∈ run.slices, slice.Inside uri urilen) ∧
    ∃ copyFuel copy, setURIUpto copyFuel this heap (uri.take urilen ++ [0]) urilen = some copy ∧
      run.code = copy.code ∧ run.this = copy.this ∧
      run.slices.map UriSlice.argument = copy.slices.map UriSlice.argument

theorem setURIUpto_loop {part rest : List UInt8} (two : 2 ≤ part.length) (fuel : Nat) (this : CoapPDU) (heap : Heap) :
    setURIUpto fuel this heap (part ++ rest) part.length =
      setURIUptoLoop rest fuel this heap 0x2F optionUriPath (part ++ rest) := by
  rw [setURIUpto, if_neg (by omega), if_neg (by omega), List.drop_left]

/-! ## The length of the string -/

section
variable {splitChar : UInt8} {optionType : Nat} {text : List UInt8}

/-- What the loop cuts off does not depend on what is behind the string. -/
theorem nextSegment_cut (two : 2 ≤ text.length) (ended : 0 ∉ text) (splitSome : splitChar ≠ 0) :
    ∃ piece endP query next, nextSegment splitChar text = (piece ++ endP, endP, query) ∧
      (∀ behind, nextSegmentUpto (0 :: behind) splitChar (text ++ 0 :: behind) =
        (piece ++ (endP ++ 0 :: behind), endP ++ 0 :: behind, query)) ∧
      endP = (if query then 0x3F :: next else next) ∧ next.length < text.length ∧ 0 ∉ next := by
  have none : (0 : UInt8) ∉ ([] : List UInt8) := List.not_mem_nil
  have nonempty : text ≠ [] := List.ne_nil_of_length_pos (by omega)
  have skippedEnded := skipLead_ended splitChar ended
  have plain : ∀ splitChar, nextSegment splitChar text = nextSegmentUpto [] splitChar text := fun _ => rfl
  rw [plain, nextSegmentUpto_eq]
  -- the search stops at a separator, at a question mark or at the end
  by_cases separator : splitChar ∈ skipLead splitChar text
  · obtain ⟨before, after, cut, absent⟩ := List.eq_append_cons_of_mem separator
    have beforeEnded : 0 ∉ before := by
      rw [cut] at skippedEnded
      exact fun member => skippedEnded (List.mem_append_left _ member)
    refine ⟨before, splitChar :: after, false, splitChar :: after, ?_, ?_, rfl, skipLead_shorter cut splitSome,
      ended_after ended cut⟩
    · simp only [cut, strchr_found absent beforeEnded]
    · intro behind
      have found : strchr splitChar (skipLead splitChar text ++ 0 :: behind) =
          some (splitChar :: after ++ 0 :: behind) := by
        rw [cut, List.append_assoc, List.cons_append, strchr_found absent beforeEnded]
      rw [nextSegmentUpto_eq, skipLead_append nonempty]
      simp only [found]
      rw [cut, List.append_assoc]
  · by_cases question : 0x3F ∈ skipLead splitChar text
    · obtain ⟨before, after, cut, noQuestion⟩ := List.eq_append_cons_of_mem question
      refine ⟨before, 0x3F :: after, true, after, ?_, ?_, rfl, shorter_after cut,
        List.not_mem_of_not_mem_cons (ended_after ended cut)⟩
      · have beforeEnded : 0 ∉ before := by
          rw [cut] at skippedEnded
          exact fun member => skippedEnded (List.mem_append_left _ member)
        simp only [strchr_none separator skippedEnded]
        simp only [cut, strchr_found noQuestion beforeEnded]
      · intro behind
        exact cut_question two ended none splitSome cut separator noQuestion List.not_mem_nil
    · refine ⟨skipLead splitChar text, [], false, [], ?_, ?_, rfl, Nat.lt_of_lt_of_le Nat.zero_lt_two two, none⟩
      · simp only [strchr_none separator skippedEnded, strchr_none question skippedEnded, List.append_nil]
      · intro behind
        exact cut_end two ended none splitSome separator question List.not_mem_nil List.not_mem_nil

theorem setURILoop_upto {fuel : Nat} {this : CoapPDU} {heap : Heap} (ended : 0 ∉ text) (splitSome : splitChar ≠ 0)
    (enough : text.length ≤ fuel) (behind : List UInt8) :
    ∃ run, setURIUptoLoop (0 :: behind) (fuel + 1) this heap splitChar optionType (text ++ 0 :: behind) = some run ∧
      setURILoop fuel this heap splitChar optionType text = (run.code, run.this, run.heap) := by
  induction fuel generalizing this heap splitChar optionType text with
  | zero =>
    obtain rfl := List.length_eq_zero_iff.mp (Nat.le_zero.mp enough)
    exact ⟨_, rfl, rfl⟩
  | succ fuel inductionHypothesis =>
    rw [setURIUptoLoop, setURILoop]
    by_cases short : text.length ≤ 1
    · have stops := (stops_iff ended behind).mpr short
      have plainStops : text.headD 0 = 0 ∨ text.tail.headD 0 = 0 := by
        cases text with
        | nil => exact Or.inl rfl
        | cons first rest =>
          rw [List.length_cons] at short
          obtain rfl := List.length_eq_zero_iff.mp (Nat.le_zero.mp (Nat.le_of_succ_le_succ short))
          exact Or.inr rfl
      rw [if_pos stops, if_pos plainStops]
      exact ⟨_, rfl, rfl⟩
    -- a piece is cut off alike and handed to `addOption`
    · have goesOn := fun stops => short ((stops_iff ended behind).mp stops)
      have plainGoesOn : ¬ (text.headD 0 = 0 ∨ text.tail.headD 0 = 0) := by
        cases text with
        | nil => simp at short
        | cons first rest =>
          cases rest with
          | nil => simp at short
          | cons second _ =>
            simp only [List.mem_cons, not_or] at ended
            simp [Ne.symm ended.1, Ne.symm ended.2.1]
      obtain ⟨piece, endP, query, next, plain, cut, behindCut, shorter, nextEnded⟩ :=
        nextSegment_cut (by omega) ended splitSome
      have call := argument_cut optionType piece (endP ++ 0 :: behind)
      simp only [UriSlice.argument, Prod.mk.injEq, true_and] at call
      have length : (piece ++ endP).length - endP.length = piece.length := by
        rw [List.length_append]
        omega
      rw [if_neg goesOn, if_neg plainGoesOn]
      simp only [plain, cut, call.1, call.2, length, List.take_left]
      rw [← addOption_take this heap.next optionType (piece.length % 65536) piece]
      obtain ⟨⟨failed, added⟩, calls⟩ :
        ∃ result, this.addOption heap.next optionType (piece.length % 65536) piece = result := ⟨_, rfl⟩
      simp only [calls]
      split
      next refused => exact ⟨_, rfl, rfl⟩
      next accepted =>
        cases query with
        | false =>
          subst behindCut
          obtain ⟨run, result, same⟩ := inductionHypothesis nextEnded splitSome (by omega)
          exact ⟨_, Option.map_eq_some_iff.mpr ⟨run, result, rfl⟩, same⟩
        | true =>
          subst behindCut
          obtain ⟨run, result, same⟩ :=
            inductionHypothesis nextEnded (by decide : (0x26 : UInt8) ≠ 0) (by omega)
          exact ⟨_, Option.map_eq_some_iff.mpr ⟨run, result, rfl⟩, same⟩

/-- One byte is handed over as it is. -/
theorem argument_one (first : UInt8) (text : List UInt8) :
    (UriSlice.mk optionUriPath (first :: text) text).argument = (optionUriPath, 1, [first]) :=
  argument_cut optionUriPath [first] text

/-- `setURI(uri)` is `setURI(uri, strlen(uri))`. -/
theorem setURIUpto_strlen {uri : List UInt8} (ended : 0 ∉ uri) (this : CoapPDU) (heap : Heap) (behind : List UInt8) :
    ∃ fuel run, setURIUpto fuel this heap (uri ++ 0 :: behind) uri.length = some run ∧
      this.setURI heap uri = (run.code, run.this, run.heap) := by
  match uri with
  | [] => exact ⟨0, _, rfl, rfl⟩
  | [first] =>
    have value : (UriSlice.mk optionUriPath (first :: 0 :: behind) (0 :: behind)).value = [first] :=
      congrArg (fun call => call.2.2) (argument_one first (0 :: behind))
    exact ⟨0, _, rfl, by simp [setURI, value]⟩
  | first :: second :: more =>
    obtain ⟨run, result, same⟩ := setURILoop_upto ended (by decide : (0x2F : UInt8) ≠ 0) (Nat.le_refl _) behind
    exact ⟨_, run, by rw [setURIUpto_loop (by simp)]; exact result, same⟩

end

/-! ## The first bytes of the string -/

/-- The PDU has no part in it. -/
theorem keepsToLength_iff_agrees {part rest behind : List UInt8} (two : 2 ≤ part.length) :
    KeepsToLength (part ++ (rest ++ 0 :: behind)) part.length ↔ Agrees rest behind 0x2F optionUriPath part := by
  simp only [KeepsToLength, setURIUpto_loop two, List.take_left]
  constructor
  · intro keeps
    obtain ⟨fuel, run, result, inside, copyFuel, copy, copied, _, _, same⟩ :=
      keeps (new 0 fun _ => 0) granting
    refine ⟨run.slices, copy.slices, ⟨fuel, slices_of_granting rfl result⟩, ?_,
      ⟨copyFuel, slices_of_granting rfl copied⟩, same⟩
    intro slice member
    have within := inside slice member
    simp only [UriSlice.Inside, UriSlice.oLen, List.length_append] at within
    simp only [UriSlice.Fits, List.length_append]
    omega
  · rintro ⟨slices, copies, ⟨fuel, result⟩, fits, ⟨copyFuel, copied⟩, same⟩ this heap
    obtain ⟨code, pdu, arguments⟩ := addSlices_same this heap same
    refine ⟨fuel, _, setURIUptoLoop_slices result, ?_, copyFuel, _, setURIUptoLoop_slices copied, code, pdu,
      arguments⟩
    intro slice member
    have within := fits slice (addSlices_mem member)
    simp only [UriSlice.Fits, List.length_append] at within
    simp only [UriSlice.Inside, UriSlice.oLen, List.length_append]
    omega

theorem keepsToLength_one (first : UInt8) (rest : List UInt8) : KeepsToLength (first :: rest) 1 := by
  intro this heap
  have value : ∀ text, (UriSlice.mk optionUriPath (first :: text) text).value = [first] :=
    fun text => congrArg (fun call => call.2.2) (argument_one first text)
  refine ⟨0, _, rfl, ?_, 0, _, rfl, rfl, ?_, ?_⟩
  · intro slice member
    rw [List.mem_singleton.mp member]
    simp only [UriSlice.Inside, UriSlice.oLen, List.length_cons, List.tail_cons]
    omega
  · simp [value]
  · simp [argument_one]

/-- A length is kept to exactly when the cut leaves nothing for the loop to run into. -/
theorem setURI_keepsToLength_iff {uri : List UInt8} {urilen : Nat} (ended : 0 ∉ uri) (positive : 1 ≤ urilen)
    (inside : urilen ≤ uri.length) (behind : List UInt8) :
    KeepsToLength (uri ++ 0 :: behind) urilen ↔ LengthKept (uri.take urilen) (uri.drop urilen) := by
  obtain ⟨part, rest, rfl, size⟩ : ∃ part rest, uri = part ++ rest ∧ part.length = urilen :=
    ⟨_, _, (List.take_append_drop urilen uri).symm, List.length_take_of_le inside⟩
  subst size
  rw [List.take_left, List.drop_left, List.append_assoc]
  have partEnded : 0 ∉ part := fun member => ended (List.mem_append_left _ member)
  have restEnded : 0 ∉ rest := fun member => ended (List.mem_append_right _ member)
  by_cases one : part.length = 1
  · obtain ⟨first, rfl⟩ := List.length_eq_one_iff.mp one
    exact iff_of_true (keepsToLength_one first _) (Or.inl one)
  · have two : 2 ≤ part.length := by omega
    rw [keepsToLength_iff_agrees two]
    by_cases whole : rest = []
    · rw [whole]
      exact iff_of_true (agrees_whole partEnded (by decide)) (Or.inr (Or.inl rfl))
    · rw [agrees_path restEnded partEnded whole (Or.inl two), LengthKept, or_iff_right one, or_iff_right whole]

/-- "/a?bc" of "/a?bc&". -/
theorem setURI_keepsToLength_iff_query :
    KeepsToLength ([0x2F, 0x61, 0x3F, 0x62, 0x63, 0x26] ++ 0 :: []) 5 :=
  (setURI_keepsToLength_iff (by decide) (by decide) (by decide) []).mpr
    (Or.inr (Or.inr ⟨by decide, by
      rw [if_pos (by decide)]
      have query : QueryKept ([] ++ [0x62, 0x63]) [0x26] :=
        (queryKept_plain (Or.inl rfl) (by decide) (by decide) (by decide) (by decide)).mpr (Or.inl rfl)
      exact ⟨by decide, query⟩⟩))

/-- "/a/" of "/a/x": an empty option is added behind "a". -/
theorem setURI_passes_length :
    ¬ ∀ (uri : List UInt8) (urilen : Nat) (behind : List UInt8), 0 ∉ uri → 1 ≤ urilen →
      urilen ≤ uri.length → KeepsToLength (uri ++ 0 :: behind) urilen := by
  intro claim
  have ended : (0 : UInt8) ∉ [0x2F, 0x61, 0x2F] := by decide
  have restEnded : (0 : UInt8) ∉ [0x78] := by decide
  have cut : skipLead 0x2F [0x2F, 0x61, 0x2F] = [0x61] ++ 0x2F :: [] := rfl
  have keeps := claim ([0x2F, 0x61, 0x2F] ++ [0x78]) 3 [] (by decide) (by decide) (by decide)
  rw [List.append_assoc] at keeps
  have agrees := (keepsToLength_iff_agrees (by decide)).mp keeps
  rw [agrees_separator (by decide) ended restEnded cut (by decide),
    agrees_short _ (by decide) (by decide) restEnded] at agrees
  exact absurd agrees (by decide)

end CoapPDU

end SmingCoap
