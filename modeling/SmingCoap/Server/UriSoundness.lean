import Mathlib.Data.List.TakeWhile
import SmingCoap.Server.Resource
import SmingCoap.Wire.StableInsert

/-! # URI strings and the lookup of resources

The splitter counts characters and keeps a pointer to the first of them.  In every turn the counted characters are
those in front of the character it looks at, so what it appends are the maximal runs between the separators
(`appendUriOptionsFromString_runs`).  The comparison moves two cursors, each over the options that do not matter to
it; they stand on path options of the same index until one of them runs out (`findResourceByUri_first`).
-/

namespace SmingCoap.Server

open Wire (Opt insertBehind insertBehind_eq split_ordered)

/-! ## Runs between separators -/

/-- The maximal runs of characters that are no separators. -/
def runs (separator : UInt8 → Bool) (string : List UInt8) : List (List UInt8) :=
  (string.splitOnP separator).filter (· ≠ [])

section Runs

variable {separator : UInt8 → Bool} {piece : List UInt8}

@[simp] theorem runs_clean (clean : ∀ char ∈ piece, separator char = false) :
    runs separator piece = if piece = [] then [] else [piece] := by
  rw [runs, List.splitOnP_eq_singleton clean]
  split <;> simp [*]

theorem runs_separator (clean : ∀ char ∈ piece, separator char = false) {char : UInt8} (found : separator char = true)
    (rest : List UInt8) :
    runs separator (piece ++ char :: rest) = runs separator piece ++ runs separator rest := by
  rw [runs_clean clean, runs, List.splitOnP_append_cons_of_forall_mem clean char found, runs]
  split <;> simp [*]

end Runs

def isPathSeparator (char : UInt8) : Bool := char = 0x2F || char = 0x20 || char = 0x3F

def isQuerySeparator (char : UInt8) : Bool := char = 0x26

/-- Up to the first question mark. -/
def pathString (uriStr : List UInt8) : List UInt8 := uriStr.takeWhile (· ≠ 0x3F)

/-- Behind the first question mark. -/
def queryString (uriStr : List UInt8) : List UInt8 := (uriStr.dropWhile (· ≠ 0x3F)).tail

def pathOptions (uriStr : List UInt8) : List Opt :=
  (runs isPathSeparator (pathString uriStr)).map (⟨optNumUriPath, ·⟩)

def queryOptions (uriStr : List UInt8) : List Opt :=
  (runs isQuerySeparator (queryString uriStr)).map (⟨optNumUriQuery, ·⟩)

/-! ## The splitter -/

/-- One option after the other, each behind those of no larger number. -/
def insertAll (options added : List Opt) : List Opt :=
  added.foldl (fun sorted option => insertBehind Opt.number option sorted) options

@[simp] theorem insertAll_nil (options : List Opt) : insertAll options [] = options := rfl

@[simp] theorem insertAll_cons (options : List Opt) (option : Opt) (added : List Opt) :
    insertAll options (option :: added) = insertAll (insertBehind Opt.number option options) added := rfl

theorem insertAll_append (options first second : List Opt) :
    insertAll options (first ++ second) = insertAll (insertAll options first) second :=
  List.foldl_append

section Splitter

/-- What was counted up to a separator or the end becomes an option, unless it is nothing. -/
def OptionList.appendCounted (alloc : Nat → Bool) (list : OptionList) (number : Nat) (part : List UInt8) (cnt : Nat) :
    OptionList :=
  if cnt ≠ 0 then list.append alloc number part cnt else list

variable {alloc : Nat → Bool}

theorem appendCounted_options (list : OptionList) (available : ∀ i, alloc i = true) (number : Nat)
    (piece rest : List UInt8) (short : piece.length < 65536) :
    (list.appendCounted alloc number (piece ++ rest) piece.length).options =
      insertAll list.options ((if piece = [] then [] else [piece]).map (⟨number, ·⟩)) := by
  rw [OptionList.appendCounted]
  cases piece with
  | nil => simp
  | cons char piece =>
    rw [if_pos (by simp), OptionList.append, Nat.mod_eq_of_lt short, List.take_left]
    simp [appendOptionToList, available, insertBehind_eq]

theorem parseUriQuery_separator (list : OptionList) (piece queryStr : List UInt8) :
    parseUriQueryFromStringToOption alloc list (0x26 :: queryStr) (piece ++ 0x26 :: queryStr) piece.length =
      parseUriQueryFromStringToOption alloc
        (list.appendCounted alloc optNumUriQuery (piece ++ 0x26 :: queryStr) piece.length) queryStr queryStr 0 := by
  cases piece <;> simp [parseUriQueryFromStringToOption, OptionList.appendCounted]

/-- The counted characters are `piece`; induction on the string behind them. -/
theorem parseUriQuery_runs (list : OptionList) (available : ∀ i, alloc i = true) (piece queryStr : List UInt8)
    (clean : ∀ char ∈ piece, isQuerySeparator char = false) (short : (piece ++ queryStr).length < 65536) :
    (parseUriQueryFromStringToOption alloc list queryStr (piece ++ queryStr) piece.length).options =
      insertAll list.options ((runs isQuerySeparator (piece ++ queryStr)).map (⟨optNumUriQuery, ·⟩)) := by
  have pieceShort : piece.length < 65536 := by
    rw [List.length_append] at short
    omega
  induction queryStr generalizing list piece with
  | nil =>
    have appended := appendCounted_options list available optNumUriQuery piece [] pieceShort
    rw [List.append_nil] at appended ⊢
    rw [runs_clean clean, ← appended]
    rfl
  | cons char queryStr inductionHypothesis =>
    by_cases found : char = 0x26
    · subst found
      have next := fun list => inductionHypothesis list [] nofun (by simp at short ⊢; omega) (by decide)
      simp only [List.nil_append, List.length_nil] at next
      rw [parseUriQuery_separator, next, appendCounted_options _ available _ _ _ pieceShort,
        runs_separator clean rfl, runs_clean clean, List.map_append, ← insertAll_append]
    · -- one more character is counted
      have next := inductionHypothesis list (piece ++ [char])
        (by simpa [or_imp, forall_and, isQuerySeparator, found] using clean) (by simpa using short)
        (by simp at short ⊢; omega)
      simpa [parseUriQueryFromStringToOption, found] using next

theorem appendUriOptions_separator (list : OptionList) {char : UInt8} (found : char = 0x2F ∨ char = 0x20)
    (piece uriStr : List UInt8) :
    appendUriOptionsLoop alloc list (char :: uriStr) (piece ++ char :: uriStr) piece.length =
      appendUriOptionsLoop alloc
        (list.appendCounted alloc optNumUriPath (piece ++ char :: uriStr) piece.length) uriStr uriStr 0 := by
  rcases found with rfl | rfl <;> cases piece <;> simp [appendUriOptionsLoop, OptionList.appendCounted]

theorem appendUriOptions_question (list : OptionList) (piece uriStr : List UInt8) :
    appendUriOptionsLoop alloc list (0x3F :: uriStr) (piece ++ 0x3F :: uriStr) piece.length =
      parseUriQueryFromStringToOption alloc
        (list.appendCounted alloc optNumUriPath (piece ++ 0x3F :: uriStr) piece.length) uriStr uriStr 0 := by
  cases piece <;> simp [appendUriOptionsLoop, OptionList.appendCounted]

theorem no_question {piece : List UInt8} (clean : ∀ char ∈ piece, isPathSeparator char = false) :
    ∀ char ∈ piece, decide (char ≠ 0x3F) = true := by
  intro char member
  have separated := clean char member
  simp only [isPathSeparator, Bool.or_eq_false_iff] at separated
  simpa using separated.2

theorem split_end {piece : List UInt8} (clean : ∀ char ∈ piece, isPathSeparator char = false) :
    pathString piece = piece ∧ queryString piece = [] := by
  rw [pathString, queryString, List.takeWhile_eq_self_iff.mpr (no_question clean),
    List.dropWhile_eq_nil_iff.mpr (no_question clean)]
  exact ⟨rfl, rfl⟩

theorem split_question {piece : List UInt8} (clean : ∀ char ∈ piece, isPathSeparator char = false)
    (rest : List UInt8) :
    pathString (piece ++ 0x3F :: rest) = piece ∧ queryString (piece ++ 0x3F :: rest) = rest := by
  rw [pathString, queryString, List.takeWhile_append_of_pos (no_question clean),
    List.dropWhile_append_of_pos (no_question clean)]
  simp

theorem split_separator {piece : List UInt8} (clean : ∀ char ∈ piece, isPathSeparator char = false) {char : UInt8}
    (found : char = 0x2F ∨ char = 0x20) (rest : List UInt8) :
    pathString (piece ++ char :: rest) = piece ++ char :: pathString rest ∧
      queryString (piece ++ char :: rest) = queryString rest := by
  rw [pathString, queryString, List.takeWhile_append_of_pos (no_question clean),
    List.dropWhile_append_of_pos (no_question clean)]
  rcases found with rfl | rfl <;> simp [pathString, queryString]

/-- The counted characters are `piece`; induction on the string behind them. -/
theorem appendUriOptions_runs (list : OptionList) (available : ∀ i, alloc i = true) (piece uriStr : List UInt8)
    (clean : ∀ char ∈ piece, isPathSeparator char = false) (short : (piece ++ uriStr).length < 65536) :
    (appendUriOptionsLoop alloc list uriStr (piece ++ uriStr) piece.length).options =
      insertAll list.options (pathOptions (piece ++ uriStr) ++ queryOptions (piece ++ uriStr)) := by
  have pieceShort : piece.length < 65536 := by
    rw [List.length_append] at short
    omega
  rw [pathOptions, queryOptions]
  -- induction on the rest of the string; `piece` is what is counted since the last separator
  induction uriStr generalizing list piece with
  | nil =>
    have appended := appendCounted_options list available optNumUriPath piece [] pieceShort
    obtain ⟨path, query⟩ := split_end clean
    have counted : appendUriOptionsLoop alloc list [] piece piece.length =
        list.appendCounted alloc optNumUriPath piece piece.length := rfl
    rw [List.append_nil] at appended ⊢
    rw [path, query, runs_clean clean, counted, appended]
    simp [runs]
  | cons char uriStr inductionHypothesis =>
    by_cases question : char = 0x3F
    · subst question
      obtain ⟨path, query⟩ := split_question clean uriStr
      have next := parseUriQuery_runs
        (list.appendCounted alloc optNumUriPath (piece ++ 0x3F :: uriStr) piece.length) available [] uriStr nofun
        (by simp at short ⊢; omega)
      simp only [List.nil_append, List.length_nil] at next
      rw [appendUriOptions_question, next, appendCounted_options _ available _ _ _ pieceShort, path, query,
        runs_clean clean, ← insertAll_append]
    · by_cases found : char = 0x2F ∨ char = 0x20
      · obtain ⟨path, query⟩ := split_separator clean found uriStr
        have next := fun list => inductionHypothesis list [] nofun (by simp at short ⊢; omega) (by decide)
        simp only [List.nil_append, List.length_nil] at next
        have separator : isPathSeparator char = true := by
          rcases found with rfl | rfl <;> rfl
        rw [appendUriOptions_separator _ found, next, appendCounted_options _ available _ _ _ pieceShort, path, query,
          runs_separator clean separator, runs_clean clean, List.map_append, List.append_assoc, ← insertAll_append]
      · -- one more character is counted
        have next := inductionHypothesis list (piece ++ [char])
          (by
            rw [not_or] at found
            simpa [or_imp, forall_and, isPathSeparator, found, question] using clean)
          (by simpa using short) (by simp at short ⊢; omega)
        rw [not_or] at found
        simpa [appendUriOptionsLoop, found, question] using next

end Splitter

/-! ## In a sorted list -/

/-- Options of one number go behind those of no larger number, in their order; induction on the values. -/
theorem insertAll_same {front : List Opt} {number : Nat} (before : ∀ option ∈ front, option.number ≤ number)
    (behind : List Opt) (after : ∀ option ∈ behind, number < option.number) (values : List (List UInt8)) :
    insertAll (front ++ behind) (values.map (⟨number, ·⟩)) = front ++ values.map (⟨number, ·⟩) ++ behind := by
  induction values generalizing front with
  | nil => simp
  | cons value values inductionHypothesis =>
    have inserted : insertBehind Opt.number ⟨number, value⟩ (front ++ behind) =
        front ++ [⟨number, value⟩] ++ behind := by
      have head : ∀ option ∈ behind.head?, ¬ option.number ≤ number := fun option member =>
        Nat.not_le.mpr (after option (List.mem_of_mem_head? member))
      rw [insertBehind_eq, List.takeWhile_append_of_pos (by simpa using before),
        List.dropWhile_append_of_pos (by simpa using before)]
      cases behind with
      | nil => simp
      | cons first behind => simp [head first rfl]
    have still : ∀ option ∈ front ++ [⟨number, value⟩], option.number ≤ number := by
      intro option member
      cases List.mem_append.mp member with
      | inl old => exact before option old
      | inr new => rw [List.mem_singleton.mp new]
    rw [List.map_cons, insertAll_cons, inserted, inductionHypothesis still]
    simp

/-- A sorted list is what lies up to a number and what lies above. -/
theorem split_sorted {options : List Opt} (sorted : options.Pairwise fun a b => a.number ≤ b.number) (number : Nat) :
    options = options.filter (·.number ≤ number) ++ options.filter (number < ·.number) := by
  obtain ⟨front, behind⟩ := split_ordered Opt.number sorted number
  rw [← front, ← behind, List.takeWhile_append_dropWhile]

/-- With memory, `CoAP_AppendUriOptionsFromString` puts one path option for each run up to the first question mark and
then one query option for each run behind it into a sorted list, in their order and each behind the options of no
larger number that were there. -/
theorem appendUriOptionsFromString_runs {alloc : Nat → Bool} {list : OptionList} {uriStr : List UInt8}
    (available : ∀ i, alloc i = true) (short : uriStr.length < 65536)
    (sorted : list.options.Pairwise fun a b => a.number ≤ b.number) :
    (appendUriOptionsFromString alloc list uriStr).options =
      list.options.filter (·.number ≤ optNumUriPath) ++ pathOptions uriStr ++
      list.options.filter (fun option => optNumUriPath < option.number ∧ option.number ≤ optNumUriQuery) ++
      queryOptions uriStr ++ list.options.filter (optNumUriQuery < ·.number) := by
  have inserted := appendUriOptions_runs list available [] uriStr nofun short
  rw [List.nil_append] at inserted
  have upper := split_sorted (sorted.filter (optNumUriPath < ·.number)) optNumUriQuery
  have middle : (list.options.filter (optNumUriPath < ·.number)).filter (·.number ≤ optNumUriQuery) =
      list.options.filter fun option => optNumUriPath < option.number ∧ option.number ≤ optNumUriQuery := by
    rw [List.filter_filter]
    simp [and_comm]
  have last : (list.options.filter (optNumUriPath < ·.number)).filter (optNumUriQuery < ·.number) =
      list.options.filter (optNumUriQuery < ·.number) := by
    rw [List.filter_filter]
    congr
    funext option
    rw [← Bool.decide_and]
    congr 1
    simp only [optNumUriPath, optNumUriQuery, eq_iff_iff]
    omega
  -- the path goes behind all that is not greater, then the queries do
  have paths := insertAll_same (show ∀ option ∈ list.options.filter (·.number ≤ optNumUriPath),
    option.number ≤ optNumUriPath by simp) (list.options.filter (optNumUriPath < ·.number)) (by simp)
    (runs isPathSeparator (pathString uriStr))
  rw [← split_sorted sorted, upper, middle, last, ← List.append_assoc] at paths
  have low : ∀ option ∈ list.options.filter (·.number ≤ optNumUriPath) ++ pathOptions uriStr ++
      list.options.filter (fun option => optNumUriPath < option.number ∧ option.number ≤ optNumUriQuery),
      option.number ≤ optNumUriQuery := by
    intro option member
    simp only [pathOptions, List.mem_append, List.mem_filter, List.mem_map, decide_eq_true_eq] at member
    rcases member with (⟨_, bound⟩ | ⟨_, _, rfl⟩) | ⟨_, _, bound⟩
    · exact Nat.le_trans bound (by decide)
    · exact (by decide : optNumUriPath ≤ optNumUriQuery)
    · exact bound
  have queries := insertAll_same low (list.options.filter (optNumUriQuery < ·.number)) (by simp)
    (runs isQuerySeparator (queryString uriStr))
  rw [appendUriOptionsFromString, show appendUriOptionsLoop alloc list uriStr uriStr 0 =
    appendUriOptionsLoop alloc list uriStr uriStr [].length from rfl, inserted, insertAll_append, pathOptions, paths]
  exact queries

/-- "//a/b?x&&y" goes into a list with the options 6, 12 and 27. -/
theorem appendUriOptionsFromString_runs_separators :
    (appendUriOptionsFromString (fun _ => true) ⟨[⟨6, []⟩, ⟨12, [0]⟩, ⟨27, [6]⟩], 0⟩
      [0x2F, 0x2F, 0x61, 0x2F, 0x62, 0x3F, 0x78, 0x26, 0x26, 0x79]).options =
      [⟨6, []⟩, ⟨11, [0x61]⟩, ⟨11, [0x62]⟩, ⟨12, [0]⟩, ⟨15, [0x78]⟩, ⟨15, [0x79]⟩, ⟨27, [6]⟩] :=
  (appendUriOptionsFromString_runs (fun _ => rfl) (by decide) (by decide)).trans (by decide)

/-! ## Two cursors -/

/-- `CoAP_OptionsAreEqual` where the cursors stand; the end of a list is the null pointer. -/
def cursorsAreEqual : List Opt → List Opt → Bool
  | [], [] => true
  | [], _ :: _ => false
  | _ :: _, [] => false
  | optA :: _, optB :: _ => optionsAreEqual optA optB

theorem length_nextUriPath (options : List Opt) : (nextUriPath options).length ≤ options.length := by
  induction options with
  | nil => exact Nat.le_refl _
  | cons option rest inductionHypothesis =>
    rw [nextUriPath]
    split
    · exact Nat.le_refl _
    · exact Nat.le_succ_of_le inductionHypothesis

/-- The loop of `CoAP_UriOptionsAreEqual`. -/
def uriOptionsAreEqualLoop (curOptA curOptB : List Opt) : Bool :=
  if curOptA = [] ∧ curOptB = [] then true
  else if cursorsAreEqual (nextUriPath curOptA) (nextUriPath curOptB) then
    uriOptionsAreEqualLoop (nextUriPath curOptA).tail (nextUriPath curOptB).tail
  else false
termination_by curOptA.length + curOptB.length
decreasing_by
  have shorterA := length_nextUriPath curOptA
  have shorterB := length_nextUriPath curOptB
  rename_i running _
  rw [List.length_tail, List.length_tail]
  cases curOptA with
  | nil =>
    cases curOptB with
    | nil => simp at running
    | cons option rest => simp only [List.length_cons, List.length_nil] at *; omega
  | cons option rest => simp only [List.length_cons] at *; omega

/-- A cursor that has moved on stands at the first path option. -/
theorem head_uriPath (options : List Opt) : (uriPath options).head? = (nextUriPath options).head?.map Opt.value := by
  rw [← uriPath_nextUriPath]
  cases next : nextUriPath options with
  | nil => rfl
  | cons option rest => simp [uriPath_cons_path (nextUriPath_isPath next)]

theorem tail_uriPath (options : List Opt) : (uriPath options).tail = uriPath (nextUriPath options).tail := by
  rw [← uriPath_nextUriPath]
  cases next : nextUriPath options with
  | nil => rfl
  | cons option rest => simp [uriPath_cons_path (nextUriPath_isPath next)]

/-- The comparison is one of the next segments, of which there may be none. -/
theorem cursorsAreEqual_iff (curOptA curOptB : List Opt) :
    cursorsAreEqual (nextUriPath curOptA) (nextUriPath curOptB) = true ↔
      (uriPath curOptA).head? = (uriPath curOptB).head? := by
  rw [head_uriPath, head_uriPath]
  cases nextA : nextUriPath curOptA with
  | nil => cases nextUriPath curOptB <;> simp [cursorsAreEqual]
  | cons optA restA =>
    cases nextB : nextUriPath curOptB with
    | nil => simp [cursorsAreEqual]
    | cons optB restB =>
      simp [cursorsAreEqual, optionsAreEqual_iff (nextUriPath_isPath nextA) (nextUriPath_isPath nextB)]

theorem eq_iff_head_tail {α : Type} (first second : List α) :
    first = second ↔ first.head? = second.head? ∧ first.tail = second.tail := by
  cases first <;> cases second <;> simp

theorem uriOptionsAreEqualLoop_iff (optListA optListB : List Opt) :
    uriOptionsAreEqualLoop optListA optListB = true ↔ uriPath optListA = uriPath optListB := by
  fun_induction uriOptionsAreEqualLoop optListA optListB with
  | case1 optListA optListB ended => simp [ended]
  | case2 optListA optListB running equal inductionHypothesis =>
    rw [cursorsAreEqual_iff] at equal
    rw [inductionHypothesis, eq_iff_head_tail (uriPath optListA), tail_uriPath, tail_uriPath]
    simp [equal]
  | case3 optListA optListB running differ =>
    rw [cursorsAreEqual_iff] at differ
    simp [eq_iff_head_tail (uriPath optListA), differ]

/-! ## The lookup -/

/-- `CoAP_FindResourceByUri` with its two lists: the one of all resources is searched when no other is given. -/
def findResourceByUriIn (pResList pResListToSearchIn : List CoapResource) (uriToMatch : List Opt) : Option Nat :=
  let pList := if pResListToSearchIn.isEmpty then pResList else pResListToSearchIn
  pList.findIdx? fun resource => uriOptionsAreEqualLoop resource.uri uriToMatch

/-- A single walk finds what two cursors find. -/
theorem findResourceByUriIn_eq (pResList : List CoapResource) (uriToMatch : List Opt) :
    findResourceByUriIn pResList [] uriToMatch = findResourceByUri pResList uriToMatch := by
  have same : ∀ resource : CoapResource,
      uriOptionsAreEqualLoop resource.uri uriToMatch = uriOptionsAreEqual resource.uri uriToMatch := by
    intro resource
    rw [Bool.eq_iff_iff, uriOptionsAreEqualLoop_iff, uriOptionsAreEqual_iff]
  simp [findResourceByUriIn, findResourceByUri, same]

/-- Two option lists are equal when their path segments are.  So the lookup ends at the first resource with the
segments of the request, and at none when there is none. -/
theorem findResourceByUri_first (optListA optListB : List Opt) (pResList pResListToSearchIn : List CoapResource)
    (uriToMatch : List Opt) :
    (uriOptionsAreEqualLoop optListA optListB = true ↔ uriPath optListA = uriPath optListB) ∧
      let pList := if pResListToSearchIn.isEmpty then pResList else pResListToSearchIn
      (∀ pRes, findResourceByUriIn pResList pResListToSearchIn uriToMatch = some pRes ↔
        (∃ resource, pList[pRes]? = some resource ∧ uriPath resource.uri = uriPath uriToMatch) ∧
          ∀ before < pRes, ∀ other, pList[before]? = some other → uriPath other.uri ≠ uriPath uriToMatch) ∧
      (findResourceByUriIn pResList pResListToSearchIn uriToMatch = none ↔
        ∀ resource ∈ pList, uriPath resource.uri ≠ uriPath uriToMatch) := by
  refine ⟨uriOptionsAreEqualLoop_iff optListA optListB, ?_⟩
  intro pList
  constructor
  · intro pRes
    rw [findResourceByUriIn, List.findIdx?_eq_some_iff_getElem]
    simp only [uriOptionsAreEqualLoop_iff]
    constructor
    · rintro ⟨bound, equal, first⟩
      refine ⟨⟨_, List.getElem?_eq_getElem bound, equal⟩, fun before earlier other listed => ?_⟩
      obtain ⟨_, rfl⟩ := List.getElem?_eq_some_iff.mp listed
      exact first before earlier
    · rintro ⟨⟨resource, listed, equal⟩, first⟩
      obtain ⟨bound, rfl⟩ := List.getElem?_eq_some_iff.mp listed
      exact ⟨bound, equal, fun before earlier =>
        first before earlier _ (List.getElem?_eq_getElem (Nat.lt_trans earlier bound))⟩
  · simp [findResourceByUriIn, List.findIdx?_eq_none_iff, ← Bool.not_eq_true, uriOptionsAreEqualLoop_iff, pList]

end SmingCoap.Server
