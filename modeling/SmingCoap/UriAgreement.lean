import Mathlib.Data.List.Infix
import SmingCoap.Client.RequestPdu
import SmingCoap.Server.UriOptions

/-! # Two splitters of a URI

`Uri` is a path and a query, and `render` its string.  The server counts
characters up to the next separator and splits every such string as it was put
together (`appendUriOptionsFromString_render`).  The client searches the string
for separators: in the path it looks for the next '/' before it looks for '?',
behind the last '&' it looks for a '?' again, and it stops in front of a single
character.  `ReadByClient` rules out the three.
-/

namespace SmingCoap

open Wire (Memory Opt)

/-! ## The string of a URI -/

structure Uri where
  leadingSlash : Bool
  segments : List (List UInt8)
  /-- No query when there are none. -/
  queries : List (List UInt8)
  deriving DecidableEq

namespace Uri

/-- Pieces that are not empty and do not contain their separators. -/
structure WellFormed (uri : Uri) : Prop where
  path : uri.segments ≠ []
  segment : ∀ segment ∈ uri.segments, segment ≠ [] ∧ segment.length < 269 ∧
    0 ∉ segment ∧ 0x2F ∉ segment ∧ 0x20 ∉ segment ∧ 0x3F ∉ segment
  query : ∀ query ∈ uri.queries, query ≠ [] ∧ query.length < 269 ∧ 0 ∉ query ∧ 0x26 ∉ query

def queryString (uri : Uri) : List UInt8 := List.intercalate [0x26] uri.queries

/-- "/a/b?x&y". -/
def render (uri : Uri) : List UInt8 :=
  (if uri.leadingSlash then [0x2F] else []) ++ List.intercalate [0x2F] uri.segments ++
    if uri.queries = [] then [] else 0x3F :: uri.queryString

/-- The options the string stands for. -/
def options (uri : Uri) : List Opt :=
  uri.segments.map (⟨11, ·⟩) ++ uri.queries.map (⟨15, ·⟩)

end Uri

/-- The pieces behind the first one, each with its separator. -/
def behindFirst (separator : UInt8) (pieces : List (List UInt8)) : List UInt8 :=
  pieces.flatMap (separator :: ·)

theorem intercalate_cons (separator : UInt8) (first : List UInt8) (rest : List (List UInt8)) :
    List.intercalate [separator] (first :: rest) = first ++ behindFirst separator rest := by
  induction rest generalizing first with
  | nil => simp [behindFirst]
  | cons second rest inductionHypothesis =>
    rw [List.intercalate_cons_cons, inductionHypothesis, behindFirst, behindFirst, List.flatMap_cons]
    simp

/-! ## The server -/

namespace Server

variable {alloc : Nat → Bool} {list : OptionList} {piece rest before : List UInt8}

/-- With memory an option goes behind those of no larger number. -/
theorem append_options (rest : List UInt8) (available : ∀ i, alloc i = true) {number : Nat}
    (below : ∀ option ∈ list.options, option.number ≤ number) (short : piece.length < 65536) :
    (list.append alloc number (piece ++ rest) piece.length).options = list.options ++ [⟨number, piece⟩] := by
  have all : list.options.takeWhile (fun other => other.number ≤ number) = list.options := by
    apply List.takeWhile_eq_self_iff.mpr
    simpa using below
  have none : list.options.dropWhile (fun other => other.number ≤ number) = [] := by
    rw [List.dropWhile_eq_nil_iff]
    simpa using below
  rw [OptionList.append, Nat.mod_eq_of_lt short, List.take_left]
  simp only [appendOptionToList, available, if_true, all, none]

/-- The next piece begins behind the separator. -/
theorem drop_piece (piece : List UInt8) (separator : UInt8) (rest : List UInt8) :
    (piece ++ separator :: rest).drop (0 + piece.length + 1) = rest := by
  rw [Nat.zero_add, List.drop_append, List.drop_eq_nil_of_le (Nat.le_succ _), Nat.add_sub_cancel_left]
  rfl

/-- Characters of a query argument are counted. -/
theorem parseUriQuery_count (list : OptionList) (piece rest part : List UInt8) (cnt : Nat) (clean : 0x26 ∉ piece) :
    parseUriQueryFromStringToOption alloc list (piece ++ rest) part cnt =
      parseUriQueryFromStringToOption alloc list rest part (cnt + piece.length) := by
  induction piece generalizing cnt with
  | nil => rfl
  | cons char piece inductionHypothesis =>
    simp only [List.mem_cons, not_or] at clean
    rw [List.cons_append, parseUriQueryFromStringToOption, if_neg (Ne.symm clean.1), inductionHypothesis _ clean.2,
      List.length_cons, Nat.add_assoc, Nat.add_comm 1]

/-- The query argument by argument; induction on the arguments still to come. -/
theorem parseUriQuery_pieces (available : ∀ i, alloc i = true) (first : List UInt8) (queries : List (List UInt8))
    (clean : ∀ query ∈ first :: queries, query ≠ [] ∧ query.length < 269 ∧ 0 ∉ query ∧ 0x26 ∉ query)
    (below : ∀ option ∈ list.options, option.number ≤ optNumUriQuery) :
    (parseUriQueryFromStringToOption alloc list (first ++ behindFirst 0x26 queries)
      (first ++ behindFirst 0x26 queries) 0).options =
      list.options ++ (first :: queries).map (⟨optNumUriQuery, ·⟩) := by
  induction queries generalizing list first with
  | nil =>
    obtain ⟨filled, short, _, bare⟩ := clean first (List.mem_cons_self ..)
    have some := List.length_pos_iff.mpr filled
    rw [parseUriQuery_count list first _ _ _ bare, behindFirst, List.flatMap_nil, parseUriQueryFromStringToOption,
      if_pos (by omega), Nat.zero_add, append_options _ available below (by omega)]
    rfl
  | cons second queries inductionHypothesis =>
    obtain ⟨filled, short, _, bare⟩ := clean first (List.mem_cons_self ..)
    have some := List.length_pos_iff.mpr filled
    have split : behindFirst 0x26 (second :: queries) = 0x26 :: (second ++ behindFirst 0x26 queries) := by
      simp [behindFirst]
    obtain ⟨rest, restEq⟩ : ∃ rest, rest = second ++ behindFirst 0x26 queries := ⟨_, rfl⟩
    have appended := append_options (0x26 :: rest) available below (show first.length < 65536 by omega)
    rw [split, ← restEq, parseUriQuery_count list first _ _ _ bare, parseUriQueryFromStringToOption, if_pos rfl,
      if_neg (by omega), drop_piece, restEq, inductionHypothesis second, Nat.zero_add, ← restEq, appended]
    · simp
    · exact fun query member => clean query (List.mem_cons_of_mem _ member)
    · rw [Nat.zero_add, ← restEq, appended]
      intro option member
      cases List.mem_append.mp member with
      | inl old => exact below option old
      | inr new => simp_all

/-- Characters of a path segment are counted. -/
theorem appendUriOptions_count (list : OptionList) (piece rest part : List UInt8) (cnt : Nat)
    (clean : 0x2F ∉ piece ∧ 0x20 ∉ piece ∧ 0x3F ∉ piece) :
    appendUriOptionsLoop alloc list (piece ++ rest) part cnt =
      appendUriOptionsLoop alloc list rest part (cnt + piece.length) := by
  induction piece generalizing cnt with
  | nil => rfl
  | cons char piece inductionHypothesis =>
    simp only [List.mem_cons, not_or] at clean
    obtain ⟨⟨slash, slashes⟩, ⟨blank, blanks⟩, question, questions⟩ := clean
    rw [List.cons_append, appendUriOptionsLoop, if_neg, inductionHypothesis _ ⟨slashes, blanks, questions⟩,
      List.length_cons, Nat.add_assoc, Nat.add_comm 1]
    rintro (same | same | same)
    · exact slash same.symm
    · exact blank same.symm
    · exact question same.symm

/-- The path segment by segment, and the query behind it; induction on the segments still to come. -/
theorem appendUriOptions_pieces (list : OptionList) (available : ∀ i, alloc i = true) (first : List UInt8)
    (segments queries : List (List UInt8))
    (clean : ∀ segment ∈ first :: segments, segment ≠ [] ∧ segment.length < 269 ∧
      0 ∉ segment ∧ 0x2F ∉ segment ∧ 0x20 ∉ segment ∧ 0x3F ∉ segment)
    (queryClean : ∀ query ∈ queries, query ≠ [] ∧ query.length < 269 ∧ 0 ∉ query ∧ 0x26 ∉ query)
    (below : ∀ option ∈ list.options, option.number ≤ optNumUriPath) :
    let query := if queries = [] then [] else 0x3F :: List.intercalate [0x26] queries
    (appendUriOptionsLoop alloc list (first ++ (behindFirst 0x2F segments ++ query))
      (first ++ (behindFirst 0x2F segments ++ query)) 0).options =
      list.options ++ (first :: segments).map (⟨optNumUriPath, ·⟩) ++ queries.map (⟨optNumUriQuery, ·⟩) := by
  intro query
  induction segments generalizing list first with
  -- the last segment ends with the string or with the question mark
  | nil =>
    obtain ⟨filled, short, _, bare⟩ := clean first (List.mem_cons_self ..)
    have some := List.length_pos_iff.mpr filled
    have appended := append_options query available below (show first.length < 65536 by omega)
    rw [behindFirst, List.flatMap_nil, List.nil_append, appendUriOptions_count list first _ _ _ bare]
    cases queries with
    | nil =>
      rw [show query = [] from rfl] at appended ⊢
      rw [appendUriOptionsLoop, if_pos (by omega), Nat.zero_add, appended]
      simp
    | cons firstQuery queries =>
      have queryEq : query = 0x3F :: (firstQuery ++ behindFirst 0x26 queries) := by
        rw [show query = 0x3F :: List.intercalate [0x26] (firstQuery :: queries) from rfl, intercalate_cons]
      rw [queryEq] at appended ⊢
      rw [appendUriOptionsLoop, if_pos (Or.inr (Or.inr rfl)), if_neg (by omega), if_pos rfl, Nat.zero_add,
        parseUriQuery_pieces available firstQuery queries queryClean, appended]
      · simp
      · rw [appended]
        intro option member
        cases List.mem_append.mp member with
        | inl old => exact Nat.le_trans (below option old) (by decide)
        | inr new =>
          rw [List.mem_singleton.mp new]
          exact show optNumUriPath ≤ optNumUriQuery by decide
  | cons second segments inductionHypothesis =>
    obtain ⟨filled, short, _, bare⟩ := clean first (List.mem_cons_self ..)
    have some := List.length_pos_iff.mpr filled
    have split : behindFirst 0x2F (second :: segments) ++ query =
        0x2F :: (second ++ (behindFirst 0x2F segments ++ query)) := by
      simp [behindFirst]
    obtain ⟨rest, restEq⟩ : ∃ rest, rest = second ++ (behindFirst 0x2F segments ++ query) := ⟨_, rfl⟩
    have appended := append_options (0x2F :: rest) available below (show first.length < 65536 by omega)
    rw [split, ← restEq, appendUriOptions_count list first _ _ _ bare, appendUriOptionsLoop, if_pos (Or.inl rfl),
      if_neg (by omega)]
    simp only
    rw [if_neg (by decide), drop_piece, restEq, inductionHypothesis _ second, Nat.zero_add, ← restEq, appended]
    · simp
    · exact fun segment member => clean segment (List.mem_cons_of_mem _ member)
    · rw [Nat.zero_add, ← restEq, appended]
      intro option member
      cases List.mem_append.mp member with
      | inl old => exact below option old
      | inr new => exact Nat.le_of_eq (congrArg Opt.number (List.mem_singleton.mp new))

/-- The server splits every URI as it was put together. -/
theorem appendUriOptionsFromString_render (available : ∀ i, alloc i = true) {uri : Uri} (formed : uri.WellFormed) :
    (appendUriOptionsFromString alloc ⟨[], 0⟩ uri.render).options = uri.options := by
  obtain ⟨leadingSlash, segments, queries⟩ := uri
  cases segments with
  | nil => exact absurd rfl formed.path
  | cons first segments =>
    have pieces := appendUriOptions_pieces ⟨[], 0⟩ available first segments queries formed.segment formed.query
      (fun _ member => nomatch member)
    have skipped : (appendUriOptionsFromString alloc ⟨[], 0⟩ (Uri.render ⟨leadingSlash, first :: segments, queries⟩)) =
        appendUriOptionsLoop alloc ⟨[], 0⟩ (first ++ (behindFirst 0x2F segments ++
          if queries = [] then [] else 0x3F :: List.intercalate [0x26] queries))
          (first ++ (behindFirst 0x2F segments ++
          if queries = [] then [] else 0x3F :: List.intercalate [0x26] queries)) 0 := by
      rw [appendUriOptionsFromString, Uri.render, Uri.queryString, intercalate_cons]
      cases leadingSlash with
      | false => simp
      | true => simp [appendUriOptionsLoop]
    rw [skipped, pieces]
    simp [Uri.options, optNumUriPath, optNumUriQuery]

end Server

/-! ## The client -/

namespace CoapPDU

/-- A separator in front of the text, or none. -/
def lead (separator : UInt8) (present : Bool) : List UInt8 := if present then [separator] else []

/-- The search starts where `startP` stands. -/
theorem nextSegment_search {separator : UInt8} {startP text : List UInt8}
    (skipped : (if startP.headD 0 = separator then startP.tail else startP) = text) :
    nextSegment separator startP =
      match strchr separator text with
      | some endP => (text, endP, false)
      | none =>
        match strchr 0x3F text with
        | none => (text, [], false)
        | some endP => (text, endP, true) := by
  subst skipped
  rfl

/-- Whether or not a separator is skipped, the search starts with the text. -/
theorem nextSegment_lead {separator : UInt8} {text : List UInt8} (present : Bool) (starts : text.headD 0 ≠ separator) :
    nextSegment separator (lead separator present ++ text) =
      match strchr separator text with
      | some endP => (text, endP, false)
      | none =>
        match strchr 0x3F text with
        | none => (text, [], false)
        | some endP => (text, endP, true) := by
  cases present with
  | false => exact nextSegment_search (if_neg starts)
  | true => exact nextSegment_search (if_pos rfl)

/-- The loop goes on while two characters are left. -/
theorem goes_on {text : List UInt8} (ended : 0 ∉ text) (two : 2 ≤ text.length) :
    ¬ (text.headD 0 = 0 ∨ text.tail.headD 0 = 0) := by
  match text, two with
  | first :: second :: rest, _ =>
    simp only [List.mem_cons, not_or] at ended
    rintro (zero | zero)
    · exact ended.1 zero.symm
    · exact ended.2.1 zero.symm

section
variable {separator : UInt8} {piece rest text : List UInt8} {present : Bool} {fuel optionType : Nat}

theorem starts_with (some : separator ≠ 0) (bare : separator ∉ text) : text.headD 0 ≠ separator := by
  cases text with
  | nil => exact some.symm
  | cons first text => exact fun same => bare (same ▸ List.mem_cons_self ..)

theorem ended_lead (some : separator ≠ 0) (ended : 0 ∉ text) : 0 ∉ lead separator present ++ text := by
  intro member
  cases List.mem_append.mp member with
  | inl inside =>
    cases present with
    | false => cases inside
    | true => exact some (List.mem_singleton.mp inside).symm
  | inr inside => exact ended inside

/-- What `addOption` is told to take of a piece is all of it. -/
theorem take_piece (rest : List UInt8) (short : piece.length < 65536) :
    ((piece ++ rest).take ((piece ++ rest).length - rest.length)).take
      (((piece ++ rest).length - rest.length) % 65536) = piece := by
  rw [List.length_append, Nat.add_sub_cancel, Nat.mod_eq_of_lt short, List.take_left, List.take_length]

/-- A piece in front of its separator. -/
theorem uriSegments_separated (some : separator ≠ 0) (filled : piece ≠ []) (bare : separator ∉ piece)
    (ended : 0 ∉ piece ++ separator :: rest) (short : piece.length < 65536) :
    uriSegments (fuel + 1) separator optionType (lead separator present ++ (piece ++ separator :: rest)) =
      ⟨optionType, piece⟩ :: uriSegments fuel separator optionType (separator :: rest) := by
  have pieceEnded : 0 ∉ piece := fun member => ended (List.mem_append_left _ member)
  have starts : (piece ++ separator :: rest).headD 0 ≠ separator := by
    obtain ⟨first, others, rfl⟩ := List.exists_cons_of_ne_nil filled
    exact fun same => bare (same ▸ List.mem_cons_self ..)
  have two : 2 ≤ (lead separator present ++ (piece ++ separator :: rest)).length := by
    have nonempty := List.length_pos_iff.mpr filled
    simp only [List.length_append, List.length_cons]
    omega
  rw [uriSegments, if_neg (goes_on (ended_lead some ended) two), nextSegment_lead present starts,
    strchr_found bare pieceEnded]
  simp only [take_piece _ short, Bool.false_eq_true, if_false]

/-- The last piece. -/
theorem uriSegments_last (some : separator ≠ 0) (bare : separator ∉ piece) (noQuestion : 0x3F ∉ piece)
    (ended : 0 ∉ piece) (short : piece.length < 65536) (two : 2 ≤ (lead separator present ++ piece).length) :
    uriSegments (fuel + 1) separator optionType (lead separator present ++ piece) = [⟨optionType, piece⟩] := by
  have none : ∀ fuel, uriSegments fuel separator optionType [] = [] := by
    intro fuel
    cases fuel with
    | zero => rfl
    | succ fuel => rfl
  have taken := take_piece [] short
  rw [List.append_nil] at taken
  rw [uriSegments, if_neg (goes_on (ended_lead some ended) two), nextSegment_lead present (starts_with some bare),
    strchr_none bare ended, strchr_none noQuestion ended]
  simp only [taken, Bool.false_eq_true, if_false, none]

/-- A single character is left out. -/
theorem uriSegments_single (single : text.length ≤ 1) : uriSegments fuel separator optionType text = [] := by
  have stops : text.headD 0 = 0 ∨ text.tail.headD 0 = 0 := by
    match text, single with
    | [], _ => exact Or.inl rfl
    | [_], _ => exact Or.inr rfl
  cases fuel with
  | zero => rfl
  | succ fuel => rw [uriSegments, if_pos stops]

/-- A '?' with no separator behind it begins a query. -/
theorem uriSegments_query (some : separator ≠ 0) (bare : separator ∉ piece ++ 0x3F :: rest) (noQuestion : 0x3F ∉ piece)
    (ended : 0 ∉ piece ++ 0x3F :: rest) (short : piece.length < 65536)
    (two : 2 ≤ (lead separator present ++ (piece ++ 0x3F :: rest)).length) :
    uriSegments (fuel + 1) separator optionType (lead separator present ++ (piece ++ 0x3F :: rest)) =
      ⟨optionType, piece⟩ :: uriSegments fuel 0x26 optionUriQuery rest := by
  have pieceEnded : 0 ∉ piece := fun member => ended (List.mem_append_left _ member)
  rw [uriSegments, if_neg (goes_on (ended_lead some ended) two), nextSegment_lead present (starts_with some bare),
    strchr_none bare ended, strchr_found noQuestion pieceEnded]
  simp only [take_piece _ short, if_true, List.tail_cons]

/-- All pieces but the last one; induction on them.  From the second one on the loop starts at a separator. -/
theorem uriSegments_front (optionType : Nat) (present : Bool) (some : separator ≠ 0) (front : List (List UInt8))
    (clean : ∀ piece ∈ front, piece ≠ [] ∧ piece.length < 65536 ∧ separator ∉ piece)
    (ended : 0 ∉ front.flatMap (· ++ [separator]) ++ text)
    (enough : (lead separator present ++ (front.flatMap (· ++ [separator]) ++ text)).length ≤ fuel) :
    ∃ fuel' present', (lead separator present' ++ text).length ≤ fuel' ∧ (front = [] → present' = present) ∧
      (front ≠ [] → present' = true) ∧
      uriSegments fuel separator optionType (lead separator present ++ (front.flatMap (· ++ [separator]) ++ text)) =
        front.map (⟨optionType, ·⟩) ++ uriSegments fuel' separator optionType (lead separator present' ++ text) := by
  -- induction on the segments, each of which takes one turn
  induction front generalizing fuel present with
  | nil => exact ⟨fuel, present, enough, fun _ => rfl, fun some => absurd rfl some, rfl⟩
  | cons piece front inductionHypothesis =>
    obtain ⟨filled, short, bare⟩ := clean piece (List.mem_cons_self ..)
    have split : (piece :: front).flatMap (· ++ [separator]) ++ text =
        piece ++ separator :: (front.flatMap (· ++ [separator]) ++ text) := by
      simp
    rw [split] at ended enough ⊢
    have restEnded : 0 ∉ front.flatMap (· ++ [separator]) ++ text :=
      fun member => ended (List.mem_append_right _ (List.mem_cons_of_mem _ member))
    have nonempty := List.length_pos_iff.mpr filled
    cases fuel with
    | zero =>
      simp only [List.length_append, List.length_cons] at enough
      omega
    | succ fuel =>
      have smaller : (lead separator true ++ (front.flatMap (· ++ [separator]) ++ text)).length ≤ fuel := by
        simp only [lead, if_true, List.length_append, List.length_cons, List.length_nil] at enough ⊢
        omega
      obtain ⟨fuel', present', room, none, more, same⟩ := inductionHypothesis true
        (fun other member => clean other (List.mem_cons_of_mem _ member)) restEnded smaller
      refine ⟨fuel', present', room, nofun, fun _ => ?_, ?_⟩
      · cases front with
        | nil => exact none rfl
        | cons second front => exact more nofun
      · rw [uriSegments_separated some filled bare ended short, List.map_cons, List.cons_append, ← same]
        rfl

end

end CoapPDU

/-! ## What the client makes of a URI -/

theorem intercalate_snoc (separator : UInt8) (front : List (List UInt8)) (last : List UInt8) :
    List.intercalate [separator] (front ++ [last]) = front.flatMap (· ++ [separator]) ++ last := by
  induction front with
  | nil => simp
  | cons first front inductionHypothesis =>
    have some : front ++ [last] ≠ [] := by simp
    obtain ⟨second, rest, split⟩ := List.exists_cons_of_ne_nil some
    rw [List.cons_append, split, List.intercalate_cons_cons, ← split, inductionHypothesis]
    simp

namespace Uri

/-- There is no query, or it has no '/', no '?' in its last argument, and more than one character. -/
def ReadByClient (uri : Uri) : Prop :=
  uri.queries = [] ∨ 0x2F ∉ uri.queryString ∧ (∀ last ∈ uri.queries.getLast?, 0x3F ∉ last) ∧
    2 ≤ uri.queryString.length

instance (uri : Uri) : Decidable uri.ReadByClient :=
  inferInstanceAs (Decidable (_ ∨ _))

end Uri

namespace CoapPDU

/-- The query as `setURI` splits it: a '?' in the last argument begins another query. -/
theorem uriSegments_queries {fuel : Nat} {front : List (List UInt8)} {last : List UInt8}
    (clean : ∀ query ∈ front ++ [last], query ≠ [] ∧ query.length < 269 ∧ 0 ∉ query ∧ 0x26 ∉ query)
    (ended : 0 ∉ front.flatMap (· ++ [0x26]) ++ last)
    (enough : (front.flatMap (· ++ [0x26]) ++ last).length ≤ fuel)
    (two : 2 ≤ (front.flatMap (· ++ [0x26]) ++ last).length) :
    ∃ piece more, uriSegments fuel 0x26 optionUriQuery (front.flatMap (· ++ [0x26]) ++ last) =
        front.map (⟨optionUriQuery, ·⟩) ++ ⟨optionUriQuery, piece⟩ :: more ∧
      (0x3F ∉ last → piece = last ∧ more = []) ∧ (0x3F ∈ last → piece.length < last.length) := by
  obtain ⟨filled, short, lastEnded, bare⟩ := clean last (List.mem_append_right _ (List.mem_singleton_self _))
  have nonempty := List.length_pos_iff.mpr filled
  have frontClean : ∀ query ∈ front, query ≠ [] ∧ query.length < 65536 ∧ 0x26 ∉ query := by
    intro query member
    obtain ⟨some, size, _, clear⟩ := clean query (List.mem_append_left _ member)
    exact ⟨some, by omega, clear⟩
  obtain ⟨fuel', present, room, first, later, same⟩ := uriSegments_front optionUriQuery false
    (show (0x26 : UInt8) ≠ 0 by decide) front frontClean ended enough
  have still : 2 ≤ (lead 0x26 present ++ last).length := by
    cases front with
    | nil =>
      rw [first rfl]
      exact two
    | cons piece front =>
      rw [later nofun]
      exact Nat.succ_le_succ nonempty
  obtain ⟨turns, turnsEq⟩ : ∃ turns, fuel' = turns + 1 := ⟨fuel' - 1, by omega⟩
  rw [turnsEq] at same
  rw [show uriSegments fuel 0x26 optionUriQuery (front.flatMap (· ++ [0x26]) ++ last) = _ from same]
  -- a question mark within the last query cuts it once more
  by_cases question : 0x3F ∈ last
  · obtain ⟨piece, rest, split, noQuestion⟩ := List.eq_append_cons_of_mem question
    subst split
    refine ⟨piece, uriSegments turns 0x26 optionUriQuery rest, ?_, fun absent => absurd question absent, fun _ => ?_⟩
    · rw [uriSegments_query (by decide) bare noQuestion lastEnded _ still]
      simp only [List.length_append, List.length_cons] at short
      omega
    · simp only [List.length_append, List.length_cons]
      omega
  · refine ⟨last, [], ?_, fun _ => ⟨rfl, rfl⟩, fun present => absurd present question⟩
    rw [uriSegments_last (by decide) bare question lastEnded (by omega) still]

end CoapPDU

namespace Uri

variable {leadingSlash : Bool} {front queries : List (List UInt8)} {last : List UInt8}

/-- The string from the last segment on. -/
def queryPart (queries : List (List UInt8)) : List UInt8 :=
  if queries = [] then [] else 0x3F :: List.intercalate [0x26] queries

theorem render_snoc (leadingSlash : Bool) (front queries : List (List UInt8)) (last : List UInt8) :
    render ⟨leadingSlash, front ++ [last], queries⟩ = CoapPDU.lead 0x2F leadingSlash ++
      (front.flatMap (· ++ [0x2F]) ++ (last ++ queryPart queries)) := by
  rw [render, intercalate_snoc]
  simp [CoapPDU.lead, queryPart, queryString]

/-- Pieces without a zero, joined by a separator. -/
theorem joined_ended {separator : UInt8} (some : separator ≠ 0) (clean : ∀ piece ∈ front ++ [last], 0 ∉ piece) :
    0 ∉ front.flatMap (· ++ [separator]) ++ last := by
  intro zero
  cases List.mem_append.mp zero with
  | inl inside =>
    obtain ⟨piece, member, zero⟩ := List.mem_flatMap.mp inside
    cases List.mem_append.mp zero with
    | inl inside => exact clean piece (List.mem_append_left _ member) inside
    | inr separated => exact some (List.mem_singleton.mp separated).symm
  | inr inside => exact clean last (List.mem_append_right _ (List.mem_singleton_self _)) inside

theorem queryPart_ended (clean : ∀ query ∈ queries, query ≠ [] ∧ query.length < 269 ∧ 0 ∉ query ∧ 0x26 ∉ query) :
    0 ∉ queryPart queries := by
  rw [queryPart]
  split
  next => exact List.not_mem_nil
  next filled =>
    obtain ⟨front, last, rfl⟩ := List.eq_nil_or_concat' queries |>.resolve_left filled
    have ended : 0 ∉ front.flatMap (· ++ [(0x26 : UInt8)]) ++ last :=
      joined_ended (by decide) fun query member => (clean query member).2.2.1
    rw [intercalate_snoc, List.mem_cons, not_or]
    exact ⟨by decide, ended⟩

/-- The segments in front of the last one are options of their own. -/
theorem uriOptions_front (formed : WellFormed ⟨leadingSlash, front ++ [last], queries⟩)
    (two : 2 ≤ (render ⟨leadingSlash, front ++ [last], queries⟩).length) :
    ∃ fuel present, (last ++ queryPart queries).length ≤ fuel + 1 ∧
      2 ≤ (CoapPDU.lead 0x2F present ++ (last ++ queryPart queries)).length ∧
      CoapPDU.uriOptions (render ⟨leadingSlash, front ++ [last], queries⟩) = front.map (⟨11, ·⟩) ++
        CoapPDU.uriSegments (fuel + 1) 0x2F 11 (CoapPDU.lead 0x2F present ++ (last ++ queryPart queries)) := by
  obtain ⟨filled, _⟩ := formed.segment last (List.mem_append_right _ (List.mem_singleton_self _))
  have nonempty := List.length_pos_iff.mpr filled
  have frontClean : ∀ segment ∈ front, segment ≠ [] ∧ segment.length < 65536 ∧ 0x2F ∉ segment := by
    intro segment member
    obtain ⟨some, size, _, bare, _⟩ := formed.segment segment (List.mem_append_left _ member)
    exact ⟨some, by omega, bare⟩
  have ended : 0 ∉ front.flatMap (· ++ [(0x2F : UInt8)]) ++ (last ++ queryPart queries) := by
    have path : 0 ∉ front.flatMap (· ++ [(0x2F : UInt8)]) ++ last :=
      joined_ended (by decide) fun segment member => (formed.segment segment member).2.2.1
    rw [← List.append_assoc, List.mem_append, not_or]
    exact ⟨path, queryPart_ended formed.query⟩
  rw [CoapPDU.uriOptions, if_neg (by omega), if_neg (by omega)]
  rw [render_snoc] at two ⊢
  -- the segments in front are cut off one by one; what is left is the last one and the queries
  obtain ⟨fuel, present, room, first, later, same⟩ := CoapPDU.uriSegments_front 11 leadingSlash
    (show (0x2F : UInt8) ≠ 0 by decide) front frontClean ended (Nat.le_refl _)
  have still : 2 ≤ (CoapPDU.lead 0x2F present ++ (last ++ queryPart queries)).length := by
    cases front with
    | nil =>
      rw [first rfl]
      exact two
    | cons piece front =>
      rw [later (List.cons_ne_nil _ _)]
      simp only [CoapPDU.lead, if_true, List.length_append, List.length_cons, List.length_nil]
      omega
  obtain ⟨turns, turnsEq⟩ : ∃ turns, fuel = turns + 1 := ⟨fuel - 1, by omega⟩
  rw [turnsEq] at same room
  refine ⟨turns, present, ?_, still, same⟩
  rw [List.length_append] at room
  omega

/-- With a query that has no '/', the path is split as it was put together. -/
theorem uriOptions_query (formed : WellFormed ⟨leadingSlash, front ++ [last], queries⟩) (filled : queries ≠ [])
    (noSlash : 0x2F ∉ List.intercalate [0x26] queries) :
    ∃ fuel, (List.intercalate [0x26] queries).length ≤ fuel ∧
      CoapPDU.uriOptions (render ⟨leadingSlash, front ++ [last], queries⟩) = (front ++ [last]).map (⟨11, ·⟩) ++
        CoapPDU.uriSegments fuel 0x26 15 (List.intercalate [0x26] queries) := by
  obtain ⟨_, short, lastEnded, bare, _, noQuestion⟩ :=
    formed.segment last (List.mem_append_right _ (List.mem_singleton_self _))
  have part : queryPart queries = 0x3F :: List.intercalate [0x26] queries := if_neg filled
  have several : 2 ≤ (render ⟨leadingSlash, front ++ [last], queries⟩).length := by
    obtain ⟨some, _⟩ := formed.segment last (List.mem_append_right _ (List.mem_singleton_self _))
    have nonempty := List.length_pos_iff.mpr some
    rw [render_snoc, part]
    simp only [List.length_append, List.length_cons]
    omega
  have queryEnded := queryPart_ended formed.query
  obtain ⟨fuel, present, room, still, same⟩ := uriOptions_front formed several
  rw [part] at room still same queryEnded
  refine ⟨fuel, ?_, ?_⟩
  · simp only [List.length_append, List.length_cons] at room
    omega
  · have bareAll : (0x2F : UInt8) ∉ last ++ 0x3F :: List.intercalate [0x26] queries := by
      simp only [List.mem_append, List.mem_cons, not_or]
      exact ⟨bare, by decide, noSlash⟩
    have endedAll : (0 : UInt8) ∉ last ++ 0x3F :: List.intercalate [0x26] queries := by
      rw [List.mem_append, not_or]
      exact ⟨lastEnded, queryEnded⟩
    rw [same, CoapPDU.uriSegments_query (by decide) bareAll noQuestion endedAll (by omega) still]
    simp [CoapPDU.optionUriQuery]

/-- Where the client can read it, it splits the string as it was put together. -/
theorem uriOptions_render (formed : WellFormed ⟨leadingSlash, front ++ [last], queries⟩)
    (read : ReadByClient ⟨leadingSlash, front ++ [last], queries⟩) :
    CoapPDU.uriOptions (render ⟨leadingSlash, front ++ [last], queries⟩) =
      options ⟨leadingSlash, front ++ [last], queries⟩ := by
  obtain ⟨filled, short, lastEnded, bare, _, noQuestion⟩ :=
    formed.segment last (List.mem_append_right _ (List.mem_singleton_self _))
  have nonempty := List.length_pos_iff.mpr filled
  by_cases none : queries = []
  · subst none
    by_cases two : 2 ≤ (render ⟨leadingSlash, front ++ [last], []⟩).length
    · obtain ⟨fuel, present, room, still, same⟩ := uriOptions_front formed two
      rw [same]
      simp only [queryPart, if_true, List.append_nil] at still ⊢
      rw [CoapPDU.uriSegments_last (by decide) bare noQuestion lastEnded (by omega) still]
      simp [options]
    · -- a single character is an option as it stands
      rw [render_snoc] at two ⊢
      simp only [queryPart, if_true, List.append_nil, List.length_append] at two ⊢
      have noFront : front = [] := by
        cases front with
        | nil => rfl
        | cons segment front =>
          simp only [List.flatMap_cons, List.length_append, List.length_cons, List.length_nil] at two
          omega
      have noSlash : CoapPDU.lead 0x2F leadingSlash = [] := List.eq_nil_of_length_eq_zero (by omega)
      subst noFront
      rw [noSlash] at two ⊢
      simp only [List.flatMap_nil, List.length_nil, List.nil_append] at two ⊢
      rw [CoapPDU.uriOptions, if_neg (by omega), if_pos (by omega)]
      simp [options, CoapPDU.optionUriPath]
  · obtain ⟨noSlash, lastClear, several⟩ := read.resolve_left none
    -- the client takes the queries up to the first question mark among them
    simp only [queryString] at noSlash lastClear several
    obtain ⟨fuel, enough, same⟩ := uriOptions_query formed none noSlash
    obtain ⟨queryFront, queryLast, rfl⟩ := (List.eq_nil_or_concat' queries).resolve_left none
    rw [intercalate_snoc] at enough same several
    have ended : 0 ∉ queryFront.flatMap (· ++ [(0x26 : UInt8)]) ++ queryLast :=
      joined_ended (by decide) fun query member => (formed.query query member).2.2.1
    obtain ⟨piece, more, split, whole, _⟩ := CoapPDU.uriSegments_queries formed.query ended enough several
    obtain ⟨pieceEq, moreEq⟩ := whole (lastClear queryLast (by simp))
    rw [same, show CoapPDU.uriSegments fuel 0x26 15 _ = _ from split, pieceEq, moreEq]
    simp [options, CoapPDU.optionUriQuery]

/-- A '/' in the query ends the last segment too late. -/
theorem noSlash_of_lengths (formed : WellFormed ⟨leadingSlash, front ++ [last], queries⟩) (some : queries ≠ [])
    (bound : (render ⟨leadingSlash, front ++ [last], queries⟩).length ≤ 65530)
    (lengths : (options ⟨leadingSlash, front ++ [last], queries⟩).map (fun option => option.value.length) <+:
      (CoapPDU.uriOptions (render ⟨leadingSlash, front ++ [last], queries⟩)).map (fun option => option.value.length)) :
    0x2F ∉ List.intercalate [0x26] queries := by
  obtain ⟨filled, _, lastEnded, bare, _⟩ :=
    formed.segment last (List.mem_append_right _ (List.mem_singleton_self _))
  have nonempty := List.length_pos_iff.mpr filled
  have queryEnded := queryPart_ended formed.query
  have part : queryPart queries = 0x3F :: List.intercalate [0x26] queries := if_neg some
  rw [part] at queryEnded
  intro slash
  obtain ⟨query, rest, split, noSlash⟩ := List.eq_append_cons_of_mem slash
  have several : 2 ≤ (render ⟨leadingSlash, front ++ [last], queries⟩).length := by
    rw [render_snoc, part]
    simp only [List.length_append, List.length_cons]
    omega
  obtain ⟨fuel, present, _, _, same⟩ := uriOptions_front formed several
  have inside : (last ++ 0x3F :: query).length ≤ (render ⟨leadingSlash, front ++ [last], queries⟩).length := by
    rw [render_snoc, part, split]
    simp only [List.length_append, List.length_cons]
    omega
  have text : last ++ queryPart queries = (last ++ 0x3F :: query) ++ 0x2F :: rest := by
    rw [part, split]
    simp
  have ended : 0 ∉ (last ++ 0x3F :: query) ++ 0x2F :: rest := by
    rw [← text, part, List.mem_append, not_or]
    exact ⟨lastEnded, queryEnded⟩
  have bareAll : (0x2F : UInt8) ∉ last ++ 0x3F :: query := by
    simp only [List.mem_append, List.mem_cons, not_or]
    exact ⟨bare, by decide, noSlash⟩
  rw [same, text, CoapPDU.uriSegments_separated (by decide) (by simp) bareAll ended (by omega)] at lengths
  simp only [options, List.map_append, List.map_cons, List.map_nil, List.append_assoc, List.map_map,
    Function.comp_def] at lengths
  rw [List.prefix_append_right_inj] at lengths
  simp at lengths

/-- A URI that the client cannot read is split into pieces of other lengths, or too few. -/
theorem read_of_lengths (formed : WellFormed ⟨leadingSlash, front ++ [last], queries⟩)
    (bound : (render ⟨leadingSlash, front ++ [last], queries⟩).length ≤ 65530)
    (lengths : (options ⟨leadingSlash, front ++ [last], queries⟩).map (fun option => option.value.length) <+:
      (CoapPDU.uriOptions (render ⟨leadingSlash, front ++ [last], queries⟩)).map (fun option => option.value.length)) :
    ReadByClient ⟨leadingSlash, front ++ [last], queries⟩ := by
  by_cases none : queries = []
  · exact Or.inl none
  · have noSlash := noSlash_of_lengths formed none bound lengths
    obtain ⟨fuel, enough, same⟩ := uriOptions_query formed none noSlash
    obtain ⟨queryFront, queryLast, rfl⟩ := (List.eq_nil_or_concat' queries).resolve_left none
    have ended : 0 ∉ queryFront.flatMap (· ++ [(0x26 : UInt8)]) ++ queryLast :=
      joined_ended (by decide) fun query member => (formed.query query member).2.2.1
    simp only [options] at lengths
    rw [same] at lengths
    generalize (front ++ [last]).map (Opt.mk 11) = path at lengths
    simp only [List.map_append, List.prefix_append_right_inj, intercalate_snoc] at lengths
    rw [intercalate_snoc] at enough noSlash
    have several : 2 ≤ (queryFront.flatMap (· ++ [(0x26 : UInt8)]) ++ queryLast).length := by
      by_contra single
      rw [CoapPDU.uriSegments_single (by omega), List.map_nil, List.prefix_nil] at lengths
      simp at lengths
    refine Or.inr ⟨?_, ?_, ?_⟩
    · simpa only [queryString, intercalate_snoc] using noSlash
    · intro last' isLast question
      simp only [List.getLast?_concat, Option.mem_def, Option.some.injEq] at isLast
      subst isLast
      obtain ⟨piece, more, split, _, shorter⟩ := CoapPDU.uriSegments_queries formed.query ended enough several
      rw [show CoapPDU.uriSegments fuel 0x26 15 _ = _ from split] at lengths
      simp only [List.map_append, List.map_cons, List.map_nil, List.map_map, Function.comp_def] at lengths
      rw [List.prefix_append_right_inj, List.cons_prefix_cons] at lengths
      have size := shorter question
      omega
    · simpa only [queryString, intercalate_snoc] using several

end Uri

/-! ## The options of the PDU -/

namespace CoapPDU

/-- The option in the PDU has the number and the length that were asked for, and a short value is whole. -/
structure StoredAs (asked stored : Opt) : Prop where
  number : stored.number = asked.number
  length : stored.value.length = asked.value.length
  whole : asked.value.length < 269 → stored = asked

/-- There is memory for every call, or the buffer has room for `size` bytes of options. -/
def RoomFor (this : CoapPDU) (heap : Heap) (size : Nat) : Prop :=
  this.constructedFromBuffer = false ∧ (∀ i, heap i ≠ none) ∨
    this.constructedFromBuffer = true ∧ 4 + this.getTokenLength + size ≤ this.bufferLength

section
variable {this next : CoapPDU} {options : List Opt} {grant : Option Realloc} {number : Nat} {value : List UInt8}

/-- A number that is not smaller goes to the end. -/
theorem place_atEnd (represents : this.Represents options) (last : Wire.lastNumber 0 options ≤ number) :
    this.findInsertionPosition number = (this.pduLength, Wire.lastNumber 0 options) := by
  rw [findInsertionPosition, represents.maximum, if_pos (Or.inl last)]

/-- The options are read off the bytes and their number alone. -/
theorem readOptions_congr (pdu : next.pdu = this.pdu) (count : next.numOptions = this.numOptions) :
    next.readOptions = this.readOptions := by
  have walk : ∀ remaining optionPos optionNumber,
      getOptionsLoop next remaining optionPos optionNumber = getOptionsLoop this remaining optionPos optionNumber := by
    intro remaining
    induction remaining with
    | zero => exact fun _ _ => rfl
    | succ remaining inductionHypothesis =>
      intro optionPos optionNumber
      simp only [getOptionsLoop, pdu, inductionHypothesis]
  have same : next.optionOf = this.optionOf := by
    funext option
    rw [optionOf, optionOf, pdu]
  rw [readOptions, readOptions, getOptions, getOptions, count, getTokenLength, getTokenLength, pdu, walk, same]

/-- A call that fails changes no option. -/
theorem addOption_failed {failed : Nat} (result : this.addOption grant number value.length value = (failed, next))
    (nonzero : failed ≠ 0) : next.readOptions = this.readOptions := by
  simp only [addOption] at result
  split at result
  next =>
    obtain ⟨pdu, _, count, _⟩ := this.noteMaximum_facts (this.findInsertionPosition number).1 number
    rw [show this.noteMaximum _ number = next from congrArg Prod.snd result] at pdu count
    exact readOptions_congr pdu count
  next => exact absurd (congrArg Prod.fst result).symm nonzero

/-- No number of the list is larger. -/
theorem insertBehind_last {option : Opt} (ascending : Wire.Ascending 0 options)
    (last : Wire.lastNumber 0 options ≤ option.number) :
    Wire.insertBehind Opt.number option options = options ++ [option] := by
  have none : beyond option.number options = [] := by
    rw [beyond, List.dropWhile_eq_nil_iff]
    intro other member
    simpa using Nat.le_trans (ascending.le_lastNumber member) last
  have whole := upTo_append_beyond option.number options
  rw [none, List.append_nil] at whole
  rw [insertBehind_upTo, none, whole]

theorem totalLength_fits (this : CoapPDU) (number : Nat) (size : value.length ≤ 65530) :
    this.TotalLengthFits number value := by
  have deltaExtra := Wire.extra_le ((number + 65536 - (this.findInsertionPosition number).2) % 65536)
  have lengthExtra := Wire.extra_le value.length
  rw [TotalLengthFits, computeExtraBytes_eq, computeExtraBytes_eq, optionHdrByte]
  omega

/-- A call that succeeds appends the option. -/
theorem addOption_appended (represents : this.Represents options) (last : Wire.lastNumber 0 options ≤ number)
    (bound : number ≤ 65535) (size : value.length ≤ 65530)
    (success : this.addOption grant number value.length value = (0, next)) :
    ∃ stored, StoredAs ⟨number, value⟩ stored ∧ next.Represents (options ++ [stored]) ∧
      next.getTokenLength = this.getTokenLength := by
  obtain ⟨stored, nextRepresents, frame, length, whole⟩ :=
    addOption_spec represents bound (this.totalLength_fits number size) success
  rw [insertBehind_last represents.ascending last] at nextRepresents
  refine ⟨⟨number, stored⟩, ⟨rfl, length, ?_⟩, nextRepresents, ?_⟩
  · intro short
    rw [whole.mpr (Or.inl short)]
  · rw [getTokenLength, getTokenLength, frame 0 (by omega)]

/-- Room is enough for a call, and what is left of it for the calls to come. -/
theorem RoomFor.addOption {heap : Heap} (represents : this.Represents options)
    (last : Wire.lastNumber 0 options ≤ number) (bound : number ≤ 65535) (size : value.length < 269)
    {rest : List Opt} (room : this.RoomFor heap (Wire.encodeOptions 0 (options ++ ⟨number, value⟩ :: rest)).length) :
    ∃ next, this.addOption heap.next number value.length value = (0, next) ∧
      next.RoomFor heap.rest (Wire.encodeOptions 0 (options ++ ⟨number, value⟩ :: rest)).length := by
  cases room with
  | inl dynamic =>
    obtain ⟨dynamic, granted⟩ := dynamic
    obtain ⟨memory, memoryEq⟩ : ∃ memory, heap.next = some memory := Option.ne_none_iff_exists'.mp (granted 0)
    obtain ⟨next, success, still⟩ := addOption_dynamic dynamic memory number value.length value
    exact ⟨next, memoryEq ▸ success, Or.inl ⟨still, fun i => granted (i + 1)⟩⟩
  | inr buffer =>
    obtain ⟨external, room⟩ := buffer
    have lengthEq := represents.length_eq
    have fits := this.totalLength_fits number (show value.length ≤ 65530 by omega)
    rw [TotalLengthFits, place_atEnd represents last] at fits
    have needed := room
    rw [Wire.encodeOptions_append, Wire.encodeOptions, List.length_append, List.length_append,
      Wire.length_encodeOption, show number - Wire.lastNumber 0 options =
        (number + 65536 - Wire.lastNumber 0 options) % 65536 by omega] at needed
    simp only at needed
    simp only [computeExtraBytes_eq, optionHdrByte] at fits
    -- a buffer from outside has room for all options, and so for this one
    obtain ⟨next, success, sameLength, sameBuffer⟩ : ∃ next,
        this.addOption heap.next number value.length value = (0, next) ∧
          next.constructedFromBuffer = true ∧ next.bufferLength = this.bufferLength := by
      have noted : this.noteMaximum this.pduLength number = { this with maxAddedOptionNumber := number } := if_pos rfl
      simp only [CoapPDU.addOption, place_atEnd represents last, noted, openGap, reserve, external, Bool.true_eq_false,
        if_true, if_false, computeExtraBytes_eq, optionHdrByte, Nat.mod_eq_of_lt fits]
      rw [if_neg (by omega)]
      exact ⟨_, rfl, rfl, rfl⟩
    obtain ⟨_, _, _, tokenLength⟩ := addOption_appended represents last bound (by omega) success
    rw [← tokenLength, ← sameBuffer] at room
    exact ⟨next, success, Or.inr ⟨sameLength, room⟩⟩

/-- The loop of `setURI` appends what it asks for until a call fails, and with room no call fails; induction on
its turns. -/
theorem setURILoop_appends (fuel : Nat) {this : CoapPDU} {options : List Opt} {heap : Heap} {splitChar : UInt8}
    {optionType : Nat} {startP : List UInt8} (represents : this.Represents options)
    (last : Wire.lastNumber 0 options ≤ optionType) (bound : optionType ≤ optionUriQuery)
    (size : ∀ option ∈ uriSegments fuel splitChar optionType startP, option.value.length ≤ 65530) :
    ∃ stored count, (setURILoop fuel this heap splitChar optionType startP).2.1.readOptions = options ++ stored ∧
      List.Forall₂ StoredAs ((uriSegments fuel splitChar optionType startP).take count) stored ∧
      ((∀ option ∈ uriSegments fuel splitChar optionType startP, option.value.length < 269) →
        this.RoomFor heap (Wire.encodeOptions 0 (options ++ uriSegments fuel splitChar optionType startP)).length →
        stored = uriSegments fuel splitChar optionType startP) := by
  induction fuel generalizing this options heap splitChar optionType startP with
  | zero => exact ⟨[], 0, by rw [List.append_nil]; exact represents.readOptions_eq, .nil, fun _ _ => rfl⟩
  | succ fuel inductionHypothesis =>
    rw [CoapPDU.setURILoop]
    rw [uriSegments] at size ⊢
    split
    next => exact ⟨[], 0, by rw [List.append_nil]; exact represents.readOptions_eq, .nil, fun _ _ => rfl⟩
    next goesOn =>
      rw [if_neg goesOn] at size
      obtain ⟨⟨segment, endP, query⟩, cut⟩ : ∃ cut, nextSegment splitChar startP = cut := ⟨_, rfl⟩
      simp only [cut, List.forall_mem_cons] at size ⊢
      obtain ⟨piece, pieceEq⟩ : ∃ piece, piece = (segment.take (segment.length - endP.length)).take
        ((segment.length - endP.length) % 65536) := ⟨_, rfl⟩
      have length : (segment.length - endP.length) % 65536 = piece.length := by
        rw [pieceEq, List.length_take, List.length_take]
        have small := Nat.mod_le (segment.length - endP.length) 65536
        omega
      rw [addOption_take, ← pieceEq, length]
      rw [← pieceEq] at size
      obtain ⟨⟨failed, next⟩, result⟩ : ∃ result, this.addOption heap.next optionType piece.length piece = result :=
        ⟨_, rfl⟩
      simp only [result]
      by_cases nonzero : failed ≠ 0
      · simp only [if_pos nonzero]
        refine ⟨[], 0, ?_, .nil, fun short room => ?_⟩
        · rw [List.append_nil, addOption_failed result nonzero, represents.readOptions_eq]
        · obtain ⟨_, success, _⟩ := room.addOption represents last (Nat.le_trans bound (by decide)) short.1
          rw [result] at success
          exact absurd (congrArg Prod.fst success) nonzero
      · simp only [if_neg nonzero]
        rw [not_not.mp nonzero] at result
        obtain ⟨first, storedAs, nextRepresents, _⟩ :=
          addOption_appended represents last (Nat.le_trans bound (by decide)) size.1 result
        have nextLast : Wire.lastNumber 0 (options ++ [first]) = optionType := by
          rw [Wire.lastNumber_append]
          exact storedAs.number
        -- the turns to come, with whatever separator and number
        have goesOn : ∀ splitChar number startP, optionType ≤ number → number ≤ optionUriQuery →
            (∀ option ∈ uriSegments fuel splitChar number startP, option.value.length ≤ 65530) →
            ∃ stored count, (setURILoop fuel next heap.rest splitChar number startP).2.1.readOptions = options ++ stored ∧
              List.Forall₂ StoredAs ((⟨optionType, piece⟩ :: uriSegments fuel splitChar number startP).take count) stored ∧
              (piece.length < 269 ∧ (∀ option ∈ uriSegments fuel splitChar number startP, option.value.length < 269) →
                this.RoomFor heap (Wire.encodeOptions 0
                  (options ++ ⟨optionType, piece⟩ :: uriSegments fuel splitChar number startP)).length →
                stored = ⟨optionType, piece⟩ :: uriSegments fuel splitChar number startP) := by
          intro splitChar number startP low high sizes
          obtain ⟨stored, count, read, kept, whole⟩ :=
            inductionHypothesis nextRepresents (nextLast ▸ low) high sizes
          refine ⟨first :: stored, count + 1, ?_, ?_, ?_⟩
          · rw [read, List.append_assoc]
            rfl
          · exact .cons storedAs kept
          · intro short room
            have firstEq := storedAs.whole short.1
            obtain ⟨other, success, nextRoom⟩ :=
              room.addOption represents last (Nat.le_trans bound (by decide)) short.1
            rw [result] at success
            rw [show other = next from (congrArg Prod.snd success).symm] at nextRoom
            rw [firstEq] at whole
            rw [firstEq, whole short.2 (by rw [List.append_assoc]; exact nextRoom)]
        cases query with
        | true => exact goesOn 0x26 optionUriQuery endP.tail bound (Nat.le_refl _) size.2
        | false => exact goesOn splitChar optionType endP (Nat.le_refl _) bound size.2

theorem setURI_appends (heap : Heap) {uri : List UInt8} (represents : this.Represents []) (filled : uri ≠ [])
    (size : ∀ option ∈ uriOptions uri, option.value.length ≤ 65530) :
    ∃ stored count, (this.setURI heap uri).2.1.readOptions = stored ∧
      List.Forall₂ StoredAs ((uriOptions uri).take count) stored ∧
      ((∀ option ∈ uriOptions uri, option.value.length < 269) →
        this.RoomFor heap (Wire.encodeOptions 0 (uriOptions uri)).length → stored = uriOptions uri) := by
  have nonempty := List.length_pos_iff.mpr filled
  rw [setURI, if_neg (by omega)]
  rw [uriOptions, if_neg (show ¬ uri.length = 0 by omega)] at size ⊢
  have low : Wire.lastNumber 0 [] ≤ optionUriPath := Nat.zero_le _
  split
  next single =>
    rw [if_pos single] at size
    obtain ⟨⟨failed, next⟩, result⟩ : ∃ result, this.addOption heap.next optionUriPath uri.length uri = result :=
      ⟨_, rfl⟩
    rw [single] at result
    simp only [result]
    rw [← single] at result
    -- a single character is one option as it stands
    by_cases nonzero : failed ≠ 0
    · refine ⟨[], 0, ?_, .nil, fun short room => ?_⟩
      · rw [addOption_failed result nonzero, represents.readOptions_eq]
      · obtain ⟨_, success, _⟩ := room.addOption represents low (by decide) (short _ (List.mem_singleton_self _))
        rw [result] at success
        exact absurd (congrArg Prod.fst success) nonzero
    · rw [not_not.mp nonzero] at result
      obtain ⟨stored, storedAs, nextRepresents, _⟩ :=
        addOption_appended represents low (by decide) (size _ (List.mem_singleton_self _)) result
      refine ⟨[stored], 1, nextRepresents.readOptions_eq, .cons storedAs .nil, fun short _ => ?_⟩
      rw [storedAs.whole (short _ (List.mem_singleton_self _))]
  next several =>
    rw [if_neg several] at size
    exact setURILoop_appends uri.length represents low (by decide) size

/-- No piece is longer than the string. -/
theorem length_strchr {byte : UInt8} {text found : List UInt8} (result : strchr byte text = some found) :
    found.length ≤ text.length := by
  induction text with
  | nil => cases result
  | cons char text inductionHypothesis =>
    rw [strchr] at result
    split at result
    next =>
      cases result
      exact Nat.le_refl _
    next =>
      split at result
      next => cases result
      next => exact Nat.le_succ_of_le (inductionHypothesis result)

theorem length_nextSegment (splitChar : UInt8) (startP : List UInt8) :
    (nextSegment splitChar startP).1.length ≤ startP.length ∧
      (nextSegment splitChar startP).2.1.length ≤ startP.length := by
  have start : (if startP.headD 0 = splitChar then startP.tail else startP).length ≤ startP.length := by
    split
    next =>
      rw [List.length_tail]
      omega
    next => exact Nat.le_refl _
  simp only [nextSegment]
  split
  next found => exact ⟨start, Nat.le_trans (length_strchr found) start⟩
  next =>
    split
    next => exact ⟨start, Nat.zero_le _⟩
    next found => exact ⟨start, Nat.le_trans (length_strchr found) start⟩

theorem length_uriSegments (fuel : Nat) (splitChar : UInt8) (optionType : Nat) (startP : List UInt8) :
    ∀ option ∈ uriSegments fuel splitChar optionType startP, option.value.length ≤ startP.length := by
  induction fuel generalizing splitChar optionType startP with
  | zero => exact List.forall_mem_nil _
  | succ fuel inductionHypothesis =>
    obtain ⟨segment, behind⟩ := length_nextSegment splitChar startP
    rw [uriSegments]
    obtain ⟨⟨text, endP, query⟩, cut⟩ : ∃ cut, nextSegment splitChar startP = cut := ⟨_, rfl⟩
    simp only [cut] at segment behind ⊢
    split
    next => exact List.forall_mem_nil _
    next =>
      intro option member
      cases List.mem_cons.mp member with
      | inl first =>
        rw [first, List.length_take, List.length_take]
        omega
      | inr later =>
        split at later
        next =>
          have rest := inductionHypothesis _ _ _ option later
          rw [List.length_tail] at rest
          omega
        next => exact Nat.le_trans (inductionHypothesis _ _ _ option later) behind

theorem length_uriOptions (uri : List UInt8) : ∀ option ∈ uriOptions uri, option.value.length ≤ uri.length := by
  rw [uriOptions]
  split
  next => exact List.forall_mem_nil _
  next =>
    split
    next =>
      intro option member
      rw [List.mem_singleton.mp member]
    next => exact fun option member => length_uriSegments _ _ _ _ option member

/-- The lengths in the PDU are those that were asked for. -/
theorem lengths_storedAs {asked stored : List Opt} (kept : List.Forall₂ StoredAs asked stored) :
    asked.map (fun option => option.value.length) = stored.map (fun option => option.value.length) := by
  induction kept with
  | nil => rfl
  | cons first _ rest => simp [first.length, rest]

end

end CoapPDU

/-! ## Agreement -/

/-- Client and server split a URI alike, and as it was put together, when the client can read it; and only then,
unless the string is so long that an option length of 16 bits wraps. -/
theorem setURI_agrees {this : CoapPDU} {heap : Heap} {alloc : Nat → Bool} {uri : Uri} (fresh : this.Fresh)
    (formed : uri.WellFormed) (available : ∀ i, alloc i = true)
    (room : this.RoomFor heap (Wire.encodeOptions 0 uri.options).length) :
    let client := (this.setURI heap uri.render).2.1.readOptions
    let server := (Server.appendUriOptionsFromString alloc ⟨[], 0⟩ uri.render).options
    (uri.ReadByClient → client = uri.options ∧ server = uri.options) ∧
      (uri.render.length ≤ 65530 → client = uri.options ∧ server = uri.options → uri.ReadByClient) := by
  intro client server
  have split : server = uri.options := Server.appendUriOptionsFromString_render available formed
  obtain ⟨represents, _⟩ := fresh.represents
  obtain ⟨leadingSlash, segments, queries⟩ := uri
  obtain ⟨front, last, rfl⟩ := (List.eq_nil_or_concat' segments).resolve_left formed.path
  have filled : Uri.render ⟨leadingSlash, front ++ [last], queries⟩ ≠ [] := by
    obtain ⟨some, _⟩ := formed.segment last (List.mem_append_right _ (List.mem_singleton_self _))
    rw [Uri.render_snoc]
    simp [some]
  have short : ∀ option ∈ Uri.options ⟨leadingSlash, front ++ [last], queries⟩, option.value.length < 269 := by
    intro option member
    cases List.mem_append.mp member with
    | inl path =>
      obtain ⟨segment, inside, rfl⟩ := List.mem_map.mp path
      exact (formed.segment segment inside).2.1
    | inr query =>
      obtain ⟨argument, inside, rfl⟩ := List.mem_map.mp query
      exact (formed.query argument inside).2.1
  constructor
  · intro read
    have asked := Uri.uriOptions_render formed read
    rw [← asked] at short room
    obtain ⟨stored, _, stores, _, whole⟩ :=
      CoapPDU.setURI_appends heap represents filled fun option member =>
        Nat.le_of_lt (Nat.lt_of_lt_of_le (short option member) (by decide))
    exact ⟨stores.trans ((whole short room).trans asked), split⟩
  -- the lengths of the values show where the client cuts them
  · rintro bound ⟨same, _⟩
    obtain ⟨stored, count, stores, kept, _⟩ :=
      CoapPDU.setURI_appends heap represents filled fun option member =>
        Nat.le_trans (CoapPDU.length_uriOptions _ option member) bound
    apply Uri.read_of_lengths formed bound
    rw [← same, show client = stored from stores, ← CoapPDU.lengths_storedAs kept, List.map_take]
    exact List.take_prefix _ _

/-- "/a/b?x=1&y" on a PDU of its own. -/
theorem setURI_agrees_query :
    let uri : Uri := ⟨true, [[0x61], [0x62]], [[0x78, 0x3D, 0x31], [0x79]]⟩
    ((CoapPDU.new 0 fun _ => 0).setURI (fun _ => some ⟨1, fun _ => 0⟩) uri.render).2.1.readOptions = uri.options ∧
      (Server.appendUriOptionsFromString (fun _ => true) ⟨[], 0⟩ uri.render).options = uri.options := by
  intro uri
  have formed : uri.WellFormed := ⟨by decide, by decide, by decide⟩
  have room : (CoapPDU.new 0 fun _ => 0).RoomFor (fun _ => some ⟨1, fun _ => 0⟩)
      (Wire.encodeOptions 0 uri.options).length :=
    Or.inl ⟨rfl, fun _ => Option.some_ne_none _⟩
  exact (setURI_agrees (.new 0 _) formed (fun _ => rfl) room).1 (by decide)

/-- The client splits "/a?b=/c" into the path segments "a?b=" and "c". -/
theorem setURI_splits_query : ¬ ∀ (this : CoapPDU) (heap : Heap) (alloc : Nat → Bool) (uri : Uri), this.Fresh →
    uri.WellFormed → (∀ i, alloc i = true) → this.RoomFor heap (Wire.encodeOptions 0 uri.options).length →
    (this.setURI heap uri.render).2.1.readOptions = uri.options ∧
      (Server.appendUriOptionsFromString alloc ⟨[], 0⟩ uri.render).options = uri.options := by
  intro claimed
  obtain ⟨uri, uriEq⟩ : ∃ uri : Uri, uri = ⟨true, [[0x61]], [[0x62, 0x3D, 0x2F, 0x63]]⟩ := ⟨_, rfl⟩
  have formed : uri.WellFormed := uriEq ▸ ⟨by decide, by decide, by decide⟩
  have split := (claimed (.new 0 fun _ => 0) (fun _ => some ⟨1, fun _ => 0⟩) (fun _ => true) uri (.new 0 _) formed
    (fun _ => rfl) (Or.inl ⟨rfl, fun _ => Option.some_ne_none _⟩)).1
  rw [uriEq] at split
  exact absurd split (by decide)

end SmingCoap
