import SmingCoap.Client.GetUri
import SmingCoap.Wire.Options

/-! # The text `getURI` writes

Between two options the array holds the text so far and one separator behind it, so each value takes a byte more
than it has.  `uriText` is the text without the last separator; it is the URI (`uriOf`) when the paths come before
the queries (`uriText_eq_iff`).  The room for the last separator is asked for although it is taken back, which makes
the array one byte too short where it fits exactly, and a value that is a single '/' ends the loop, be it a path or
a query.
-/

namespace SmingCoap

open Wire (Memory Opt)

namespace CoapPDU

/-! ## The text -/

/-- The options that `getURI` looks at. -/
def isComponent (option : Opt) : Bool := option.number = optionUriPath || option.number = optionUriQuery

def isQuery (option : Opt) : Bool := option.number = optionUriQuery

/-- The values with a separator in front of each: '/' up to the first query, '?' there, and '&' from then on. -/
def uriText : Bool → List Opt → List UInt8
  | _, [] => []
  | firstQuery, option :: rest =>
    (if firstQuery then (if isQuery option then 0x3F else 0x2F) else 0x26) ::
      (option.value ++ uriText (firstQuery && !isQuery option) rest)

/-- '/p1/.../pn?q1&...&qm'. -/
def uriOf (paths queries : List Opt) : List UInt8 :=
  paths.flatMap (fun path => 0x2F :: path.value) ++
    match queries with
    | [] => []
    | query :: rest => 0x3F :: (query.value ++ rest.flatMap fun other => 0x26 :: other.value)

/-- The URI of a list of paths and queries. -/
def uri (options : List Opt) : List UInt8 :=
  uriOf (options.filter fun option => !isQuery option) (options.filter isQuery)

/-- No path comes behind a query. -/
def Ordered (options : List Opt) : Prop := options.Pairwise fun first second => isQuery first → isQuery second

theorem uriText_false (options : List Opt) :
    uriText false options = options.flatMap fun other => 0x26 :: other.value := by
  induction options with
  | nil => rfl
  | cons option rest inductionHypothesis => simp [uriText, inductionHypothesis]

/-- What the loop puts together is the URI exactly when the paths come first. -/
theorem uriText_eq_iff (options : List Opt) : uriText true options = uri options ↔ Ordered options := by
  induction options with
  | nil => simp [uriText, uri, uriOf, Ordered]
  | cons option rest inductionHypothesis =>
    cases query : isQuery option with
    | false =>
      have text : uriText true (option :: rest) = 0x2F :: (option.value ++ uriText true rest) := by
        simp [uriText, query]
      have whole : uri (option :: rest) = 0x2F :: (option.value ++ uri rest) := by
        simp [uri, uriOf, query]
      rw [text, whole, List.cons_inj_right, List.append_right_inj, inductionHypothesis]
      simp [Ordered, query]
    | true =>
      have text : uriText true (option :: rest) = 0x3F :: (option.value ++ uriText false rest) := by
        simp [uriText, query]
      -- the text puts '&' in front of all that follows a query, so nothing but queries may
      by_cases all : ∀ other ∈ rest, isQuery other = true
      · have paths : rest.filter (fun other => !isQuery other) = [] := by
          simpa using all
        have queries : rest.filter isQuery = rest := List.filter_eq_self.mpr all
        have ordered : Ordered rest :=
          List.pairwise_of_forall_mem_list fun _ _ second member _ => all second member
        constructor
        · intro _
          exact List.pairwise_cons.mpr ⟨fun other member _ => all other member, ordered⟩
        · intro _
          rw [text, uriText_false, uri, List.filter_cons_of_neg (by simp [query]), paths,
            List.filter_cons_of_pos query, queries]
          rfl
      · -- a path behind the query: the text starts with '?', the URI with '/'
        obtain ⟨path, member, notQuery⟩ : ∃ path ∈ rest, isQuery path = false := by
          simpa using all
        have paths : path ∈ rest.filter fun other => !isQuery other := by
          simp [member, notQuery]
        obtain ⟨first, others, listed⟩ := List.exists_cons_of_ne_nil (List.ne_nil_of_mem paths)
        constructor
        · intro same
          rw [text, uri, List.filter_cons_of_neg (by simp [query]), listed] at same
          simp [uriOf] at same
        · intro ordered
          have late := (List.pairwise_cons.mp ordered).1 path member query
          rw [notQuery] at late
          cases late

/-- What the values take with a separator for each. -/
def uriSize (options : List Opt) : Nat := (options.map fun option => option.value.length + 1).sum

@[simp] theorem uriSize_nil : uriSize [] = 0 := rfl

@[simp] theorem uriSize_cons (option : Opt) (rest : List Opt) :
    uriSize (option :: rest) = option.value.length + 1 + uriSize rest := rfl

theorem length_uriText (firstQuery : Bool) (options : List Opt) :
    (uriText firstQuery options).length = uriSize options := by
  induction options generalizing firstQuery with
  | nil => rfl
  | cons option rest inductionHypothesis =>
    rw [uriText, List.length_cons, List.length_append, inductionHypothesis, uriSize_cons]
    omega

theorem length_separated (separator : UInt8) (options : List Opt) :
    (options.flatMap fun option => separator :: option.value).length = uriSize options := by
  induction options with
  | nil => rfl
  | cons option rest inductionHypothesis =>
    rw [List.flatMap_cons, List.length_append, inductionHypothesis, List.length_cons, uriSize_cons]

theorem length_uriOf (paths queries : List Opt) : (uriOf paths queries).length = uriSize paths + uriSize queries := by
  cases queries with
  | nil =>
    simp only [uriOf, List.length_append, length_separated, List.length_nil, uriSize_nil]
  | cons query rest =>
    simp only [uriOf, List.length_append, List.length_cons, length_separated, uriSize_cons]
    omega

/-- The URI takes a byte for each value and its separator, in whatever order they come. -/
theorem length_uri (options : List Opt) : (uri options).length = uriSize options := by
  rw [uri, length_uriOf]
  induction options with
  | nil => rfl
  | cons option rest inductionHypothesis =>
    cases query : isQuery option with
    | false =>
      simp only [List.filter_cons, query, Bool.not_false, if_true, Bool.false_eq_true, if_false, uriSize_cons]
      omega
    | true =>
      simp only [List.filter_cons, query, Bool.not_true, if_true, Bool.false_eq_true, if_false, uriSize_cons]
      omega

/-! ## Room for it -/

/-- The byte that is put behind a value. -/
def separatorOf (firstQuery : Bool) : UInt8 := if firstQuery then 0x2F else 0x26

/-- The loop comes to a value that is a single '/', with room for it. -/
def SlashReached (bytesLeft : Int) (options : List Opt) : Prop :=
  ∃ before slash after, options = before ++ slash :: after ∧ slash.value = [0x2F] ∧
    (uriSize before : Int) + 1 ≤ bytesLeft

theorem slashReached_cons {bytesLeft : Int} {option : Opt} {rest : List Opt} :
    SlashReached bytesLeft (option :: rest) ↔
      (option.value = [0x2F] ∧ 1 ≤ bytesLeft) ∨ SlashReached (bytesLeft - (option.value.length + 1)) rest := by
  constructor
  · rintro ⟨before, slash, after, split, value, room⟩
    cases before with
    | nil =>
      cases split
      exact .inl ⟨value, by simpa using room⟩
    | cons first before =>
      cases split
      refine .inr ⟨before, slash, after, rfl, value, ?_⟩
      rw [uriSize_cons] at room
      omega
  · rintro (⟨value, room⟩ | ⟨before, slash, after, rfl, value, room⟩)
    · exact ⟨[], option, rest, rfl, value, by simpa using room⟩
    · refine ⟨option :: before, slash, after, rfl, value, ?_⟩
      rw [uriSize_cons]
      omega

theorem not_slashReached_nil (bytesLeft : Int) : ¬ SlashReached bytesLeft [] := by
  rintro ⟨before, slash, after, split, _⟩
  cases before <;> cases split

/-- Without room for a value and its separator no later one is come to. -/
theorem SlashReached.room {bytesLeft : Int} {options : List Opt} (reached : SlashReached bytesLeft options) :
    1 ≤ bytesLeft := by
  obtain ⟨before, _, _, _, _, room⟩ := reached
  omega

end CoapPDU

/-! ## The array -/

namespace Destination

/-- Nothing was written from `dstlen` on. -/
def Inside (dst : Destination) (dstlen : Int) : Prop := ∀ i ∈ dst.written, (i : Int) < dstlen

variable {dst : Destination} {text value : List UInt8} {dstlen : Int}

theorem Inside.put (inside : dst.Inside dstlen) {i : Nat} (byte : UInt8) (room : (i : Int) < dstlen) :
    (dst.put i byte).Inside dstlen := by
  intro position member
  rcases List.mem_cons.mp member with rfl | old
  · exact room
  · exact inside position old

theorem Inside.copy (inside : dst.Inside dstlen) {i : Nat} (room : ((i + value.length : Nat) : Int) ≤ dstlen) :
    (dst.copy i value).Inside dstlen := by
  intro position member
  rcases List.mem_append.mp member with new | old
  · have range := List.mem_range'_1.mp new
    omega
  · exact inside position old

theorem holds_put (holds : dst.bytes.Holds 0 text) (byte : UInt8) :
    (dst.put text.length byte).bytes.Holds 0 (text ++ [byte]) := by
  rw [Memory.holds_append, Nat.zero_add, Memory.holds_cons]
  refine ⟨?_, Memory.store_same .., Memory.holds_nil ..⟩
  apply holds.congr
  intro i _ inside
  exact Memory.store_other _ _ (by omega)

theorem holds_copy (holds : dst.bytes.Holds 0 text) (value : List UInt8) :
    (dst.copy text.length value).bytes.Holds 0 (text ++ value) := by
  rw [Memory.holds_append, Nat.zero_add]
  refine ⟨?_, Memory.copy_holds ..⟩
  apply holds.congr
  intro i _ inside
  exact Memory.copy_outside _ (by omega)

end Destination

namespace CoapPDU

section Loop

variable {this : CoapPDU} {dst : Destination} {text : List UInt8} {dstlen : Int} {firstQuery : Bool}

/-- Between two options: the text so far with a separator behind it. -/
structure Stands (dst : Destination) (dstlen : Int) (text : List UInt8) (firstQuery : Bool) : Prop where
  inside : dst.Inside dstlen
  holds : dst.bytes.Holds 0 (text ++ [separatorOf firstQuery])
  room : (text.length : Int) + 2 ≤ dstlen

/-- What the loop does with the options from here on. -/
structure Continues (result : UriResult) (dstlen : Int) (text : List UInt8) (firstQuery : Bool) (options : List Opt) :
    Prop where
  inside : result.dst.Inside dstlen
  slash : SlashReached (dstlen - 2 - text.length) options → result.code = 0 ∧ result.outLen = some 1
  short : ¬ SlashReached (dstlen - 2 - text.length) options →
    dstlen < (text ++ uriText firstQuery options).length + 2 → result.code = 1
  fits : ¬ SlashReached (dstlen - 2 - text.length) options →
    ((text ++ uriText firstQuery options).length : Int) + 2 ≤ dstlen →
      result.code = 0 ∧ result.outLen = some ((text ++ uriText firstQuery options).length : Int) ∧
        result.dst.bytes.Holds 0 (text ++ uriText firstQuery options ++ [0x00])

/-- At the end the last separator is overwritten. -/
theorem getURILoop_nil (stands : Stands dst dstlen text firstQuery) (separator : UInt8) :
    Continues (this.getURILoop dstlen [] dst (text.length + 1) (dstlen - 2 - text.length) separator firstQuery)
      dstlen text firstQuery [] := by
  have room := stands.room
  have holds := (Memory.holds_append.mp stands.holds).1
  rw [getURILoop, Nat.add_sub_cancel]
  constructor
  · exact stands.inside.put _ (by omega)
  · intro reached
    exact absurd reached (not_slashReached_nil _)
  · intro _ short
    simp only [uriText, List.append_nil] at short
    omega
  · intro _ _
    simp only [uriText, List.append_nil]
    refine ⟨trivial, ?_, Destination.holds_put holds _⟩
    congr 1
    omega

/-- The separator in front of a value is '?' at the first query. -/
theorem Stands.separator (stands : Stands dst dstlen text firstQuery) (query : Bool) :
    (if query && firstQuery then dst.put text.length 0x3F else dst).Inside dstlen ∧
      (if query && firstQuery then dst.put text.length 0x3F else dst).bytes.Holds 0
        (text ++ [if firstQuery then (if query then 0x3F else 0x2F) else 0x26]) := by
  have room := stands.room
  have holds := stands.holds
  cases firstQuery with
  | false => simpa using ⟨stands.inside, holds⟩
  | true =>
    cases query with
    | false => simpa using ⟨stands.inside, holds⟩
    | true => exact ⟨stands.inside.put _ (by omega), Destination.holds_put (Memory.holds_append.mp holds).1 _⟩

/-- Behind a value and its separator the loop is where it would be with the longer text. -/
theorem length_next (text : List UInt8) (firstQuery : Bool) (option : Opt) :
    (text ++ uriText firstQuery [option]).length = text.length + option.value.length + 1 := by
  rw [List.length_append, length_uriText, uriSize_cons, uriSize_nil]
  omega

/-- The array behind a value: the next separator stands there. -/
theorem Stands.next {option : Opt} {separated : Destination} (inside : separated.Inside dstlen)
    (holds : separated.bytes.Holds 0
      (text ++ [if firstQuery then (if isQuery option then 0x3F else 0x2F) else 0x26]))
    (room : (text.length : Int) + option.value.length + 3 ≤ dstlen) :
    Stands ((separated.copy (text.length + 1) option.value).put (text.length + 1 + option.value.length)
      (separatorOf (firstQuery && !isQuery option))) dstlen (text ++ uriText firstQuery [option])
      (firstQuery && !isQuery option) := by
  have copied := Destination.holds_copy holds option.value
  have put := Destination.holds_put copied (separatorOf (firstQuery && !isQuery option))
  simp only [List.length_append, List.length_singleton] at put copied
  constructor
  · exact (inside.copy (by omega)).put _ (by omega)
  · have same : text ++ uriText firstQuery [option] =
        text ++ [if firstQuery then (if isQuery option then 0x3F else 0x2F) else 0x26] ++ option.value := by
      simp [uriText]
    rw [same]
    exact put
  · rw [length_next]
    omega

/-- Failure for want of room is right when the value and its separator do not fit. -/
theorem Continues.of_full {option : Opt} {others : List Opt} (inside : dst.Inside dstlen)
    (full : dstlen - 2 - text.length < option.value.length + 1)
    (some : option.value = [0x2F] → dstlen - 2 - text.length < 1) :
    Continues ⟨1, none, dst⟩ dstlen text firstQuery (option :: others) := by
  have unreached : ¬ SlashReached (dstlen - 2 - text.length) (option :: others) := by
    rw [slashReached_cons]
    rintro (⟨value, room⟩ | later)
    · have none := some value
      omega
    · have room := later.room
      omega
  constructor
  · exact inside
  · exact fun reached => absurd reached unreached
  · exact fun _ _ => rfl
  · intro _ fits
    rw [List.length_append, length_uriText, uriSize_cons] at fits
    omega

/-- What is right behind a value is right in front of it. -/
theorem Continues.front {result : UriResult} {option : Opt} {others : List Opt} (value : option.value ≠ [0x2F])
    (continues : Continues result dstlen (text ++ uriText firstQuery [option]) (firstQuery && !isQuery option) others) :
    Continues result dstlen text firstQuery (option :: others) := by
  have whole : text ++ uriText firstQuery [option] ++ uriText (firstQuery && !isQuery option) others =
      text ++ uriText firstQuery (option :: others) := by
    simp [uriText]
  have left : dstlen - 2 - (text ++ uriText firstQuery [option]).length =
      dstlen - 2 - text.length - (option.value.length + 1) := by
    rw [length_next]
    omega
  have reached : SlashReached (dstlen - 2 - text.length) (option :: others) ↔
      SlashReached (dstlen - 2 - (text ++ uriText firstQuery [option]).length) others := by
    rw [slashReached_cons, left]
    simp [value]
  obtain ⟨inside, slash, short, fits⟩ := continues
  rw [whole] at short fits
  rw [← reached] at slash short fits
  exact ⟨inside, slash, short, fits⟩

theorem isComponent_optionOf {option : CoapOption} : isComponent (this.optionOf option) = true ↔
    option.optionNumber = optionUriPath ∨ option.optionNumber = optionUriQuery := by
  rw [isComponent, Bool.or_eq_true, decide_eq_true_eq, decide_eq_true_eq]
  rfl

theorem isSlash_optionOf {option : CoapOption} :
    (option.optionValueLength = 1 ∧ this.pdu option.optionValuePointer = 0x2F) ↔
      (this.optionOf option).value = [0x2F] := by
  rw [optionOf]
  constructor
  · rintro ⟨one, slash⟩
    simp only [one, Memory.bytes, slash]
  · intro value
    have one := congrArg List.length value
    simp only [Memory.length_bytes, List.length_singleton] at one
    simp only [one, Memory.bytes, List.cons.injEq, and_true] at value
    exact ⟨one, value⟩

/-- From the first query on the separator is '&'. -/
theorem separator_next (firstQuery : Bool) (option : Opt) :
    (if isQuery option = true then 0x26 else separatorOf firstQuery) = separatorOf (firstQuery && !isQuery option) := by
  cases firstQuery <;> cases isQuery option <;> rfl

/-- One option that is part of the URI. -/
theorem getURILoop_component {option : CoapOption} {rest : List CoapOption} {others : List Opt}
    (stands : Stands dst dstlen text firstQuery)
    (component : isComponent (this.optionOf option) = true)
    (behind : ∀ {dst : Destination} {text : List UInt8} {firstQuery : Bool}, Stands dst dstlen text firstQuery →
      Continues (this.getURILoop dstlen rest dst (text.length + 1) (dstlen - 2 - text.length)
        (separatorOf firstQuery) firstQuery) dstlen text firstQuery others) :
    Continues (this.getURILoop dstlen (option :: rest) dst (text.length + 1) (dstlen - 2 - text.length)
      (separatorOf firstQuery) firstQuery) dstlen text firstQuery (this.optionOf option :: others) := by
  have some := isComponent_optionOf.mp component
  have length : (this.optionOf option).value.length = option.optionValueLength := Memory.length_bytes ..
  have query : decide (option.optionNumber = optionUriQuery) = isQuery (this.optionOf option) := rfl
  have room := stands.room
  obtain ⟨inside, holds⟩ := stands.separator (isQuery (this.optionOf option))
  rw [getURILoop, if_pos some]
  simp only [query, Nat.add_sub_cancel, isSlash_optionOf, separator_next]
  split
  -- no room for the value
  next full =>
    have one : (this.optionOf option).value = [0x2F] → dstlen - 2 - text.length < 1 := by
      intro value
      rw [value, List.length_singleton] at length
      omega
    have size : dstlen - 2 - text.length < (this.optionOf option).value.length + 1 := by
      rw [length]
      omega
    exact .of_full inside size one
  next enough =>
    split
    -- a value that is a single slash is taken for the whole URI
    next slash =>
      have reached : SlashReached (dstlen - 2 - text.length) (this.optionOf option :: others) := by
        rw [slash, List.length_singleton] at length
        exact slashReached_cons.mpr (.inl ⟨slash, by omega⟩)
      have left := reached.room
      constructor
      · exact inside.put _ (by omega)
      · exact fun _ => ⟨rfl, rfl⟩
      · exact fun unreached => absurd reached unreached
      · exact fun unreached => absurd reached unreached
    next value =>
      split
      -- the value and its separator are behind, the loop goes on
      next goesOn =>
        have position : text.length + 1 + option.optionValueLength + 1 =
            (text ++ uriText firstQuery [this.optionOf option]).length + 1 := by
          rw [length_next, length]
          omega
        have left : dstlen - 2 - text.length - option.optionValueLength - 1 =
            dstlen - 2 - (text ++ uriText firstQuery [this.optionOf option]).length := by
          rw [length_next, length]
          omega
        have continues := behind (Stands.next inside holds (by rw [length]; omega))
        rw [← left, ← position, length] at continues
        exact continues.front value
      -- the value fits, the separator behind it does not
      next full =>
        have size : dstlen - 2 - text.length < (this.optionOf option).value.length + 1 := by
          rw [length]
          omega
        have copied : ((text.length + 1 + (this.optionOf option).value.length : Nat) : Int) ≤ dstlen := by
          rw [length]
          omega
        exact .of_full (inside.copy copied) size (fun slash => absurd slash value)

/-- The loop over all options. -/
theorem getURILoop_continues (options : List CoapOption) (stands : Stands dst dstlen text firstQuery) :
    Continues (this.getURILoop dstlen options dst (text.length + 1) (dstlen - 2 - text.length)
      (separatorOf firstQuery) firstQuery) dstlen text firstQuery ((options.map this.optionOf).filter isComponent) := by
  induction options generalizing dst text firstQuery with
  | nil => exact getURILoop_nil stands _
  | cons option rest inductionHypothesis =>
    cases component : isComponent (this.optionOf option) with
    | true =>
      rw [List.map_cons, List.filter_cons_of_pos component]
      exact getURILoop_component stands component fun stands => inductionHypothesis stands
    | false =>
      have other : ¬ (option.optionNumber = optionUriPath ∨ option.optionNumber = optionUriQuery) := by
        rw [← isComponent_optionOf, component]
        exact Bool.false_ne_true
      rw [List.map_cons, List.filter_cons_of_neg (by simp [component]), getURILoop, if_neg other]
      exact inductionHypothesis stands

end Loop

/-- The options of the PDU that make up its URI. -/
def components (this : CoapPDU) : List Opt := this.readOptions.filter isComponent

/-- `getURI` stays in the array, gives the URI and its length when they fit with a terminating zero, and reports
failure otherwise. -/
structure GetsUri (this : CoapPDU) (alloc : Bool) (dst : Memory) (dstlen : Int) : Prop where
  inside : (this.getURI alloc ⟨dst, []⟩ dstlen).dst.Inside dstlen
  fits : ((uri this.components).length : Int) + 1 ≤ dstlen →
    let result := this.getURI alloc ⟨dst, []⟩ dstlen
    result.code = 0 ∧ result.outLen = some ((uri this.components).length : Int) ∧
      result.dst.bytes.Holds 0 (uri this.components ++ [0x00])
  short : dstlen < (uri this.components).length + 1 → (this.getURI alloc ⟨dst, []⟩ dstlen).code = 1

section

variable {this : CoapPDU} {dstlen : Int}

theorem numOptions_ne_zero {option : Opt} (listed : option ∈ this.readOptions) : this.numOptions ≠ 0 := by
  intro none
  rw [readOptions, getOptions, none] at listed
  cases listed

theorem length_text (this : CoapPDU) : (uriText true this.components).length = (uri this.components).length := by
  rw [length_uriText, length_uri]

/-- The array has two bytes at least: the slash is written, and the loop does the rest. -/
theorem getURI_continues (dst : Memory) (some : this.numOptions ≠ 0) (room : 2 ≤ dstlen) :
    let result := this.getURI true ⟨dst, []⟩ dstlen
    result.dst.Inside dstlen ∧
      (SlashReached (dstlen - 2) this.components → result.code = 0 ∧ result.outLen = Option.some 1) ∧
      (¬ SlashReached (dstlen - 2) this.components →
        (dstlen < (uri this.components).length + 2 → result.code = 1) ∧
        (((uri this.components).length : Int) + 2 ≤ dstlen →
          result.code = 0 ∧ result.outLen = Option.some ((uri this.components).length : Int) ∧
            result.dst.bytes.Holds 0 (uriText true this.components ++ [0x00]))) := by
  have stands : Stands (Destination.put ⟨dst, []⟩ 0 0x2F) dstlen [] true := by
    constructor
    · intro i member
      rw [List.mem_singleton.mp member]
      omega
    · exact Memory.holds_cons.mpr ⟨Memory.store_same dst 0 0x2F, Memory.holds_nil ..⟩
    · simpa using room
  have continues : Continues (this.getURI true ⟨dst, []⟩ dstlen) dstlen [] true this.components := by
    have left : dstlen - 2 - ([] : List UInt8).length = dstlen - 2 := by simp
    have loop := @getURILoop_continues this _ _ _ _ this.getOptions stands
    rw [left] at loop
    rw [getURI, if_neg (by omega), if_neg some, if_neg (by decide), if_pos (by omega)]
    exact loop
  obtain ⟨inside, slash, short, fits⟩ := continues
  simp only [List.nil_append, List.length_nil, length_text] at slash short fits
  have left : dstlen - 2 - ((0 : Nat) : Int) = dstlen - 2 := by omega
  rw [left] at slash short fits
  exact ⟨inside, slash, fun unreached => ⟨short unreached, fits unreached⟩⟩

theorem getURI_slash (this : CoapPDU) (dst : Memory) :
    this.numOptions ≠ 0 → this.getURI true ⟨dst, []⟩ 1 = ⟨1, none, ⟨dst, []⟩⟩ := by
  intro some
  rw [getURI, if_neg (by omega), if_neg some, if_neg (by decide), if_neg (by omega)]

theorem uri_positive {option : Opt} (listed : option ∈ this.readOptions) (number : option.number = optionUriPath) :
    1 ≤ (uri this.components).length := by
  have component : option ∈ this.components := List.mem_filter.mpr ⟨listed, by simp [isComponent, number]⟩
  obtain ⟨first, others, split⟩ := List.exists_cons_of_ne_nil (List.ne_nil_of_mem component)
  rw [length_uri, split, uriSize_cons]
  omega

/-- A query that is a single '/' makes a URI of two bytes at least. -/
theorem SlashReached.uri_two {left : Int} (reached : SlashReached left this.components) :
    2 ≤ (uri this.components).length := by
  obtain ⟨before, slash, after, split, value, _⟩ := reached
  rw [length_uri, split]
  simp only [uriSize, List.map_append, List.sum_append, List.map_cons, List.sum_cons, value, List.length_singleton]
  omega

theorem GetsUri.byte {alloc : Bool} {dst : Memory} (gets : this.GetsUri alloc dst dstlen) : 1 ≤ dstlen := by
  have inside := gets.inside
  by_contra none
  rw [getURI, if_pos (by omega)] at inside
  have first := inside 0 (List.mem_singleton.mpr rfl)
  omega

/-- Without memory for the options the URI is said to be empty. -/
theorem GetsUri.available {alloc : Bool} {dst : Memory} (gets : this.GetsUri alloc dst dstlen)
    (some : this.numOptions ≠ 0) (positive : 1 ≤ (uri this.components).length) : alloc = true := by
  have byte := gets.byte
  obtain ⟨_, fits, short⟩ := gets
  cases alloc with
  | true => rfl
  | false =>
    rw [getURI, if_neg (by omega), if_neg some, if_pos rfl] at fits short
    by_cases room : ((uri this.components).length : Int) + 1 ≤ dstlen
    · have outLen := Option.some.inj (fits room).2.1
      omega
    · cases short (by omega)

/-- In an array of one byte there is no room for the slash. -/
theorem getsUri_one (dst : Memory) (some : this.numOptions ≠ 0) (positive : 1 ≤ (uri this.components).length) :
    this.GetsUri true dst 1 := by
  have result := getURI_slash this dst some
  constructor
  · rw [result]
    intro i member
    cases member
  · intro room
    omega
  · intro _
    rw [result]

/-- The bytes that are written are those of the URI exactly when no path comes behind a query. -/
theorem holds_uri_iff {dst : Memory} (written : dst.Holds 0 (uriText true this.components ++ [0x00])) :
    dst.Holds 0 (uri this.components ++ [0x00]) ↔ Ordered this.components := by
  rw [← uriText_eq_iff]
  constructor
  · intro whole
    -- the same bytes of the array are both
    have size : (uriText true this.components ++ [0x00]).length = (uri this.components ++ [0x00]).length := by
      rw [List.length_append, List.length_append, length_text]
    rw [Memory.Holds, size, whole] at written
    exact (List.append_cancel_right written).symm
  · intro same
    rwa [← same]

theorem GetsUri.unreached {dst : Memory} (gets : this.GetsUri true dst dstlen) (some : this.numOptions ≠ 0)
    (two : 2 ≤ dstlen) : ¬ SlashReached (dstlen - 2) this.components := by
  intro reached
  obtain ⟨code, outLen⟩ := (getURI_continues dst some two).2.1 reached
  by_cases room : ((uri this.components).length : Int) + 1 ≤ dstlen
  · have same := Option.some.inj ((gets.fits room).2.1.symm.trans outLen)
    have size := reached.uri_two
    omega
  · rw [gets.short (by omega)] at code
    cases code

theorem getsUri_iff_of_two (dst : Memory) (some : this.numOptions ≠ 0) (two : 2 ≤ dstlen) :
    this.GetsUri true dst dstlen ↔
      ¬ SlashReached (dstlen - 2) this.components ∧ dstlen ≠ (uri this.components).length + 1 ∧
        ((uri this.components).length + 2 ≤ dstlen → Ordered this.components) := by
  obtain ⟨inside, _, ends⟩ := getURI_continues dst some two
  constructor
  · intro gets
    have unreached := gets.unreached some two
    obtain ⟨tooSmall, written⟩ := ends unreached
    refine ⟨unreached, ?_, fun room => ?_⟩
    · intro exact
      have code := (gets.fits (by omega)).1
      rw [tooSmall (by omega)] at code
      cases code
    · exact (holds_uri_iff (written room).2.2).mp (gets.fits (by omega)).2.2
  · rintro ⟨unreached, notExact, ordered⟩
    obtain ⟨tooSmall, written⟩ := ends unreached
    refine ⟨inside, fun room => ?_, fun small => tooSmall (by omega)⟩
    have more : ((uri this.components).length : Int) + 2 ≤ dstlen := by omega
    obtain ⟨code, outLen, text⟩ := written more
    exact ⟨code, outLen, (holds_uri_iff text).mpr (ordered more)⟩

end

/-- `getURI` is right exactly when the array has a byte at least and there is memory for the options, no query that
is a single '/' is come to, the array is not just one byte longer than the URI, and, where it is longer than that, no
path comes behind a query. -/
theorem getURI_iff (this : CoapPDU) (path : ∃ option ∈ this.readOptions, option.number = optionUriPath)
    (alloc : Bool) (dst : Memory) (dstlen : Int) :
    this.GetsUri alloc dst dstlen ↔
      1 ≤ dstlen ∧ alloc = true ∧ ¬ SlashReached (dstlen - 2) this.components ∧
        dstlen ≠ (uri this.components).length + 1 ∧
        ((uri this.components).length + 2 ≤ dstlen → Ordered this.components) := by
  obtain ⟨option, listed, number⟩ := path
  have some := numOptions_ne_zero listed
  have positive := uri_positive listed number
  constructor
  · intro gets
    have byte := gets.byte
    obtain rfl := gets.available some positive
    refine ⟨byte, rfl, ?_⟩
    by_cases two : 2 ≤ dstlen
    · exact (getsUri_iff_of_two dst some two).mp gets
    · refine ⟨fun reached => ?_, by omega, by omega⟩
      have room := reached.room
      omega
  · rintro ⟨byte, rfl, right⟩
    by_cases two : 2 ≤ dstlen
    · exact (getsUri_iff_of_two dst some two).mpr right
    · obtain rfl : dstlen = 1 := by omega
      exact getsUri_one dst some positive

/-- A GET with the path 'a', as it is read after `validate`. -/
def pathA : CoapPDU := (ofBytes 0 (Memory.copy (fun _ => 0) 0 [0x40, 1, 0, 0, 0xB1, 0x61]) 6).validate.2

/-- "/a" and its zero, and a byte to spare. -/
theorem getURI_iff_pathA : pathA.GetsUri true (fun _ => 0) 4 := by
  have options : pathA.readOptions = [⟨11, [0x61]⟩] := rfl
  have components : pathA.components = [⟨11, [0x61]⟩] := rfl
  apply (getURI_iff pathA ⟨⟨11, [0x61]⟩, by simp [options], rfl⟩ true (fun _ => 0) 4).mpr
  rw [components]
  refine ⟨by decide, rfl, ?_, by decide, ?_⟩
  · rw [slashReached_cons]
    rintro (⟨value, _⟩ | later)
    · cases value
    · exact not_slashReached_nil _ later
  · intro _
    exact List.pairwise_singleton _ _

/-- "/a" and its zero fill the array, and 1 is returned. -/
theorem getURI_exact : ¬ ∀ this : CoapPDU, (∃ option ∈ this.readOptions, option.number = optionUriPath) →
    (∀ option ∈ this.readOptions, option.number = optionUriPath → option.value ≠ [0x2F]) →
      ∀ (alloc : Bool) (dst : Memory) (dstlen : Int), this.GetsUri alloc dst dstlen := by
  intro all
  have options : pathA.readOptions = [⟨11, [0x61]⟩] := rfl
  have gets := all pathA ⟨⟨11, [0x61]⟩, by simp [options], rfl⟩ (by simp [options]) true (fun _ => 0) 3
  have code := (gets.fits (by decide)).1
  cases code

end CoapPDU

end SmingCoap
