import SmingCoap.Server.Options

/-! # URI options

`coap_option_uri.c`: splitting a URI string into path and query options, and the
comparison of two lists by their path options.  A string is the list of its
characters up to the terminating NUL.
-/

namespace SmingCoap.Server

open Wire (Opt)

def optNumEtag : Nat := 4
def optNumObserve : Nat := 6
def optNumUriPath : Nat := 11
def optNumContentFormat : Nat := 12
def optNumUriQuery : Nat := 15
def optBlock2 : Nat := 23
def optBlock1 : Nat := 27

/-! ## Splitting -/

/-- An allocation counter beside the options: an append asks for memory once. -/
structure OptionList where
  options : List Opt
  allocs : Nat

/-- `CoAP_AppendOptionToList` with a length parameter of 16 bits; the result is not looked at. -/
def OptionList.append (alloc : Nat → Bool) (list : OptionList) (number : Nat) (buf : List UInt8) (length : Nat) :
    OptionList where
  options := (appendOptionToList (alloc list.allocs) list.options ⟨number, buf.take (length % 65536)⟩).2
  allocs := list.allocs + 1

/-- `ParseUriQueryFromStringToOption`: `queryStr`, `pCurUriPartBegin` and `cnt`. -/
def parseUriQueryFromStringToOption (alloc : Nat → Bool) (list : OptionList) :
    List UInt8 → List UInt8 → Nat → OptionList
  | [], part, cnt => if cnt ≠ 0 then list.append alloc optNumUriQuery part cnt else list
  | char :: queryStr, part, cnt =>
    if char = 0x26 then
      if cnt = 0 then parseUriQueryFromStringToOption alloc list queryStr part.tail cnt
      else
        parseUriQueryFromStringToOption alloc (list.append alloc optNumUriQuery part cnt) queryStr
          (part.drop (cnt + 1)) 0
    else parseUriQueryFromStringToOption alloc list queryStr part (cnt + 1)

/-- The loop of `CoAP_AppendUriOptionsFromString`: `uriStr`, `pCurUriPartBegin` and `cnt`. -/
def appendUriOptionsLoop (alloc : Nat → Bool) (list : OptionList) :
    List UInt8 → List UInt8 → Nat → OptionList
  | [], part, cnt => if cnt ≠ 0 then list.append alloc optNumUriPath part cnt else list
  | char :: uriStr, part, cnt =>
    if char = 0x2F ∨ char = 0x20 ∨ char = 0x3F then
      if cnt = 0 then
        if char = 0x3F then parseUriQueryFromStringToOption alloc list uriStr uriStr 0
        else appendUriOptionsLoop alloc list uriStr part.tail cnt
      else
        let list := list.append alloc optNumUriPath part cnt
        if char = 0x3F then parseUriQueryFromStringToOption alloc list uriStr uriStr 0
        else appendUriOptionsLoop alloc list uriStr (part.drop (cnt + 1)) 0
    else appendUriOptionsLoop alloc list uriStr part (cnt + 1)

/-- `CoAP_AppendUriOptionsFromString`. -/
def appendUriOptionsFromString (alloc : Nat → Bool) (list : OptionList) (uriStr : List UInt8) : OptionList :=
  appendUriOptionsLoop alloc list uriStr uriStr 0

/-! ## Comparison -/

/-- The first path option of a list and what is behind it. -/
def nextUriPath : List Opt → List Opt
  | [] => []
  | option :: rest => if option.number = optNumUriPath then option :: rest else nextUriPath rest

/-- `CoAP_OptionsAreEqual` on two options. -/
def optionsAreEqual (optA optB : Opt) : Bool :=
  optA.value.length = optB.value.length && optA.number = optB.number && optA.value = optB.value

/-- `CoAP_UriOptionsAreEqual`; the walk over the first list is the recursion. -/
def uriOptionsAreEqual : List Opt → List Opt → Bool
  | [], optListB => nextUriPath optListB = []
  | optA :: optListA, optListB =>
    if optA.number ≠ optNumUriPath then uriOptionsAreEqual optListA optListB
    else
      match nextUriPath optListB with
      | [] => false
      | optB :: optListB => optionsAreEqual optA optB && uriOptionsAreEqual optListA optListB

/-- The path segments of a list. -/
def uriPath (options : List Opt) : List (List UInt8) :=
  (options.filter fun option => option.number = optNumUriPath).map Opt.value

@[simp] theorem uriPath_nil : uriPath [] = [] := rfl

theorem uriPath_cons_path {option : Opt} (isPath : option.number = optNumUriPath) (rest : List Opt) :
    uriPath (option :: rest) = option.value :: uriPath rest := by
  simp [uriPath, isPath]

theorem uriPath_cons_other {option : Opt} (other : option.number ≠ optNumUriPath) (rest : List Opt) :
    uriPath (option :: rest) = uriPath rest := by
  simp [uriPath, other]

theorem uriPath_nextUriPath (options : List Opt) : uriPath (nextUriPath options) = uriPath options := by
  induction options with
  | nil => rfl
  | cons option rest inductionHypothesis =>
    rw [nextUriPath]
    split
    next => rfl
    next other => rw [uriPath_cons_other other, inductionHypothesis]

theorem nextUriPath_isPath {options rest : List Opt} {option : Opt} (next : nextUriPath options = option :: rest) :
    option.number = optNumUriPath := by
  induction options with
  | nil => cases next
  | cons first behind inductionHypothesis =>
    rw [nextUriPath] at next
    split at next
    next isPath =>
      cases next
      exact isPath
    next => exact inductionHypothesis next

theorem optionsAreEqual_iff {optA optB : Opt} (pathA : optA.number = optNumUriPath)
    (pathB : optB.number = optNumUriPath) : optionsAreEqual optA optB = true ↔ optA.value = optB.value := by
  simp only [optionsAreEqual, pathA, pathB, Bool.and_eq_true, decide_eq_true_eq]
  constructor
  · exact fun same => same.2
  · exact fun same => ⟨⟨by rw [same], trivial⟩, same⟩

/-- Two lists are equal when their path segments are, all other options aside. -/
theorem uriOptionsAreEqual_iff (optListA optListB : List Opt) :
    uriOptionsAreEqual optListA optListB = true ↔ uriPath optListA = uriPath optListB := by
  induction optListA generalizing optListB with
  | nil =>
    rw [uriOptionsAreEqual, uriPath_nil, ← uriPath_nextUriPath optListB, decide_eq_true_eq]
    cases next : nextUriPath optListB with
    | nil => simp
    | cons option rest => simp [uriPath_cons_path (nextUriPath_isPath next)]
  | cons optA optListA inductionHypothesis =>
    rw [uriOptionsAreEqual]
    split
    next other => rw [inductionHypothesis, uriPath_cons_other other]
    next isPath =>
      have pathA := Decidable.not_not.mp isPath
      rw [uriPath_cons_path pathA, ← uriPath_nextUriPath optListB]
      cases next : nextUriPath optListB with
      | nil => simp
      | cons optB rest =>
        have pathB := nextUriPath_isPath next
        rw [uriPath_cons_path pathB, Bool.and_eq_true, optionsAreEqual_iff pathA pathB, inductionHypothesis,
          List.cons.injEq]

end SmingCoap.Server
