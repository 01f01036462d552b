import SmingCoap.Server.SavedRecords

/-! # Restored records

The parser takes the options of a record off the page, up to its marker; the observer that `CoAP_NVloadObservers` makes
of them is the one that was saved where the URI in the record has no query.
-/

namespace SmingCoap.Server

open Wire (Memory Opt insertBehind)

/-! ## Parsing a record -/

section
variable {alloc : Nat → Bool} {layout : NetEpLayout} {record : SavedRecord} {srcArr : Memory}

theorem holds_record : srcArr.Holds 0 (record.bytes layout) ↔
    srcArr.Holds 0 (Wire.encodeOptions 0 (record.options layout)) ∧
      srcArr (Wire.encodeOptions 0 (record.options layout)).length = 0xFF := by
  rw [SavedRecord.bytes, Memory.holds_append, Memory.holds_cons, Nat.zero_add]
  exact ⟨fun holds => ⟨holds.1, holds.2.1⟩, fun holds => ⟨holds.1, holds.2, Memory.holds_nil ..⟩⟩

/-- The options of a record fit a page with something behind the marker, and no value is longer than the parser
takes. -/
structure SavedRecord.Readable (layout : NetEpLayout) (record : SavedRecord) : Prop where
  short : ∀ option ∈ record.options layout, option.value.length ≤ maxOptionValueSize
  below : record.size layout < tempPageSize

theorem parse_readable (available : ∀ i, alloc i = true) (regular : record.Regular)
    (readable : record.Readable layout) (holds : srcArr.Holds 0 (record.bytes layout)) :
    parseOptionsFromRaw alloc srcArr tempPageSize = some (.ok, record.options layout, some (record.size layout)) := by
  have below := readable.below
  rw [SavedRecord.size, tempPageSize] at below
  obtain ⟨optionsHold, marker⟩ := holds_record.mp holds
  rw [parseOptionsFromRaw_of_holds available (by decide) options_ascending (options_representable regular)
    readable.short options_ne_nil optionsHold (Or.inr ⟨marker, by rw [tempPageSize]; omega⟩), SavedRecord.size,
    if_neg (by rw [tempPageSize]; omega)]

/-- A record that fills the page ends in a marker with nothing behind it. -/
theorem parse_full (available : ∀ i, alloc i = true) (regular : record.Regular)
    (short : ∀ option ∈ record.options layout, option.value.length ≤ maxOptionValueSize)
    (full : record.size layout = tempPageSize) (holds : srcArr.Holds 0 (record.bytes layout)) :
    ∃ options, parseOptionsFromRaw alloc srcArr tempPageSize = some (.parseMessageFormatError, options, none) := by
  rw [SavedRecord.size] at full
  obtain ⟨optionsHold, marker⟩ := holds_record.mp holds
  have first : srcArr 0 ≠ 0xFF := by
    obtain ⟨option, rest, listed⟩ := List.exists_cons_of_ne_nil (@options_ne_nil layout record)
    have representable : Wire.Representable (record.options layout) := options_representable regular
    rw [listed] at optionsHold representable
    exact (Wire.holds_cons_options representable optionsHold).1.not_marker
  have count := Wire.length_le_encodeOptions 0 (record.options layout)
  rw [tempPageSize] at full ⊢
  obtain ⟨fuel, fuelEq⟩ : ∃ fuel, 65536 = fuel + 1 + (record.options layout).length :=
    ⟨65535 - (record.options layout).length, by omega⟩
  rw [parseOptionsFromRaw, if_neg (by decide), if_neg first, fuelEq,
    parseOptionsLoop_options available (fuel + 1) (record.options layout) [] 0 0 (by decide) options_ascending
      (options_representable regular) short (List.forall_mem_nil _) optionsHold (by omega),
    List.nil_append, Nat.zero_add, parseOptionsLoop, if_pos (by omega), if_pos marker, if_pos (by omega)]
  exact ⟨_, rfl⟩

/-- A value that is too long ends the parser. -/
theorem parse_long (available : ∀ i, alloc i = true) (regular : record.Regular)
    (long : ¬ ∀ option ∈ record.options layout, option.value.length ≤ maxOptionValueSize)
    (within : record.size layout ≤ tempPageSize) (holds : srcArr.Holds 0 (record.bytes layout)) :
    ∃ options, parseOptionsFromRaw alloc srcArr tempPageSize = some (.parseMessageFormatError, options, none) := by
  have representable : Wire.Representable (record.options layout) := options_representable regular
  have ascending := @options_ascending layout record
  obtain ⟨optionsHold, _⟩ := holds_record.mp holds
  rw [SavedRecord.size, tempPageSize] at within
  -- the first option that is too long
  obtain ⟨option, found⟩ : ∃ option, (record.options layout).find?
      (fun option => maxOptionValueSize < option.value.length) = some option := by
    rw [← Option.isSome_iff_exists, List.find?_isSome]
    simpa using long
  obtain ⟨tooLong, front, rest, listed, shortFront⟩ := List.find?_eq_some_iff_append.mp found
  have tooLong : maxOptionValueSize < option.value.length := by simpa using tooLong
  have shortFront : ∀ other ∈ front, other.value.length ≤ maxOptionValueSize := by
    intro other member
    simpa using shortFront other member
  have bound : option.value.length ≤ 65535 :=
    length_le regular (listed ▸ List.mem_append_right _ (List.mem_cons_self ..))
  have first : srcArr 0 ≠ 0xFF := by
    obtain ⟨head, others, listedHead⟩ := List.exists_cons_of_ne_nil (@options_ne_nil layout record)
    rw [listedHead] at optionsHold representable
    exact (Wire.holds_cons_options representable optionsHold).1.not_marker
  rw [listed] at optionsHold representable ascending within
  rw [Wire.encodeOptions_append, Memory.holds_append, Nat.zero_add] at optionsHold
  rw [Wire.encodeOptions_append, List.length_append] at within
  obtain ⟨frontHold, restHold⟩ := optionsHold
  obtain ⟨frontAscending, restAscending⟩ := Wire.ascending_append.mp ascending
  have restRepresentable : Wire.Representable (option :: rest) :=
    fun other member => representable other (List.mem_append_right _ member)
  have written := (Wire.holds_cons_options restRepresentable restHold).1
  have count := Wire.length_le_encodeOptions 0 front
  have restCount : 1 ≤ (Wire.encodeOptions (Wire.lastNumber 0 front) (option :: rest)).length :=
    Nat.le_trans (by simp) (Wire.length_le_encodeOptions _ (option :: rest))
  obtain ⟨fuel, fuelEq⟩ : ∃ fuel, 65536 = fuel + 1 + front.length := ⟨65535 - front.length, by omega⟩
  have frontDone : parseOptionsLoop alloc srcArr 2048 (fuel + 1 + front.length) 0 0 [] = _ :=
    parseOptionsLoop_options available (fuel + 1) front [] 0 0 (by decide)
      frontAscending (fun other member => representable other (List.mem_append_left _ member)) shortFront
      (List.forall_mem_nil _) frontHold (by omega)
  have header := Wire.extra_le (option.number - Wire.lastNumber 0 front)
  have lengthHeader := Wire.extra_le option.value.length
  have size := written.size_eq
  have stuck : parseOptionsLoop alloc srcArr 2048 (fuel + 1) (Wire.encodeOptions 0 front).length
      (Wire.lastNumber 0 front) front = _ :=
    parseOptionsLoop_fields alloc fuel ⟨(Wire.encodeOptions 0 front).length, Wire.lastNumber 0 front⟩ front
      (by simp only [size]; omega) (by simp only; omega) (written.upper ▸ Wire.nibble_le _)
      (written.lower ▸ Wire.nibble_le _)
  simp only [written.length_eq, Nat.mod_eq_of_lt (show option.value.length < 65536 by omega), if_pos tooLong] at stuck
  rw [List.nil_append, Nat.zero_add] at frontDone
  rw [tempPageSize, parseOptionsFromRaw, if_neg (by decide), if_neg first, fuelEq, frontDone, stuck]
  exact ⟨front, rfl⟩

/-- The loop only adds options. -/
theorem parseOptionsLoop_keeps {srcLength fuel offset number : Nat} {options parsed : List Opt}
    {payload : Option Nat} (result : parseOptionsLoop alloc srcArr srcLength fuel offset number options =
      some (.ok, parsed, payload)) {option : Opt} (member : option ∈ options) : option ∈ parsed := by
  induction fuel generalizing offset number options with
  | zero => cases result
  | succ fuel inductionHypothesis =>
    have kept : ∀ available other, option ∈ options → (appendOptionToList available options other).1 = .ok →
        option ∈ (appendOptionToList available options other).2 := by
      intro available other member success
      rw [appendOptionToList] at success ⊢
      cases available with
      | false => cases success
      | true =>
        rw [if_pos rfl, ← Wire.insertBehind_eq, Wire.mem_insertBehind]
        exact Or.inr member
    rw [parseOptionsLoop] at result
    split at result
    next inside =>
      split at result
      next marker =>
        split at result
        next => cases result
        next =>
          cases result
          exact member
      next notMarker =>
        simp only at result
        split at result
        next => cases result
        next =>
          split at result
          next => cases result
          next =>
            split at result
            next => cases result
            next =>
              split at result
              next => cases result
              next =>
                split at result
                -- every error leaves; only an option that was appended goes on
                next appended =>
                  exact inductionHypothesis result (by
                    have still := kept _ _ member (congrArg Prod.fst appended)
                    rw [appended] at still
                    exact still)
                next failed _ notOk _ =>
                  simp only [Option.some.injEq, Prod.mk.injEq] at result
                  exact absurd result.1 notOk
    next atEnd =>
      cases result
      exact member

/-- Over a list that begins with a zero byte the parser gives an option of number 0, if it gives a list. -/
theorem parse_zero (available : ∀ i, alloc i = true) (zero : srcArr 0 = 0) {options : List Opt}
    {payload : Option Nat} (result : parseOptionsFromRaw alloc srcArr tempPageSize = some (.ok, options, payload)) :
    ⟨0, []⟩ ∈ options := by
  have field : ∀ place, parseField srcArr place 0 = some (0, place) := fun _ => rfl
  have header : ((0 : UInt8) >>> 4).toNat = 0 ∧ ((0 : UInt8) &&& 0x0F).toNat = 0 := ⟨rfl, rfl⟩
  rw [parseOptionsFromRaw, if_neg (by decide), zero, if_neg (by decide), parseOptionsLoop, if_pos (by decide), zero,
    if_neg (by decide)] at result
  simp only [header, field, available, appendOptionToList, if_true, Nat.add_zero] at result
  rw [if_neg (Nat.not_lt_zero _), if_neg (by decide)] at result
  exact parseOptionsLoop_keeps result (List.mem_singleton_self _)

/-! ## Restoring an observer -/

/-- What is saved of an observer. -/
def CoapObserver.content (observer : CoapObserver) : NetEp × UInt8 × UInt64 × List Opt :=
  (observer.ep, observer.ifID, observer.token, observer.options)

/-- The options that go into the new observer. -/
def isKept (option : Opt) : Bool :=
  option.number ≠ optNumUriHost && option.number ≠ optNumUriPort && option.number ≠ optNumUriPath &&
    option.number ≠ optNumLobaroTokenSave

theorem bytes_value {value : List UInt8} {count : Nat} (length : value.length = count) (behind : Memory) :
    Memory.bytes (fun i => value.getD i (behind i)) 0 count = value := by
  apply List.ext_getElem
  · rw [Memory.length_bytes, length]
  · intro i inside other
    rw [Memory.getElem_bytes]
    simp [other]

section
variable (behind : Memory) (options : List Opt) (state : CoapObserver × Nat)

theorem restore_ep : (options.foldl (restoreOption alloc layout behind) state).1.ep =
    (options.filter (·.number = optNumUriHost)).foldl
      (fun _ option => layout.read (Memory.bytes (fun i => option.value.getD i (behind i)) 0 layout.size))
      state.1.ep := by
  induction options generalizing state with
  | nil => rfl
  | cons option rest inductionHypothesis =>
    rw [List.foldl_cons, inductionHypothesis]
    by_cases host : option.number = optNumUriHost
    · simp [restoreOption, host]
    · have same : (restoreOption alloc layout behind state option).1.ep = state.1.ep := by
        simp only [restoreOption, if_neg host]
        split_ifs <;> rfl
      simp [host, same]

theorem restore_ifID : (options.foldl (restoreOption alloc layout behind) state).1.ifID =
    (options.filter (·.number = optNumUriPort)).foldl (fun _ option => option.value.getD 0 (behind 0))
      state.1.ifID := by
  induction options generalizing state with
  | nil => rfl
  | cons option rest inductionHypothesis =>
    rw [List.foldl_cons, inductionHypothesis]
    by_cases port : option.number = optNumUriPort
    · have notHost : optNumUriPort ≠ optNumUriHost := by decide
      simp [restoreOption, port, notHost]
    · have same : (restoreOption alloc layout behind state option).1.ifID = state.1.ifID := by
        simp only [restoreOption, if_neg port]
        split_ifs <;> rfl
      simp [port, same]

theorem restore_token : (options.foldl (restoreOption alloc layout behind) state).1.token =
    (options.filter (·.number = optNumLobaroTokenSave)).foldl
      (fun _ option => UInt64.ofNat
        (Wire.littleEndian (Memory.bytes (fun i => option.value.getD i (behind i)) 0 8)))
      state.1.token := by
  induction options generalizing state with
  | nil => rfl
  | cons option rest inductionHypothesis =>
    rw [List.foldl_cons, inductionHypothesis]
    by_cases save : option.number = optNumLobaroTokenSave
    · have other : optNumLobaroTokenSave ≠ optNumUriHost ∧ optNumLobaroTokenSave ≠ optNumUriPort ∧
          optNumLobaroTokenSave ≠ optNumUriPath := by decide
      simp [restoreOption, save, other]
    · have same : (restoreOption alloc layout behind state option).1.token = state.1.token := by
        simp only [restoreOption, if_neg save]
        split_ifs <;> rfl
      simp [save, same]

theorem restore_options (available : ∀ i, alloc i = true)
    (short : ∀ option ∈ options, option.value.length ≤ 65535) : (options.foldl (restoreOption alloc layout behind) state).1.options =
      insertAll state.1.options (options.filter isKept) := by
  induction options generalizing state with
  | nil => rfl
  | cons option rest inductionHypothesis =>
    rw [List.foldl_cons, inductionHypothesis _ fun other member => short other (List.mem_cons_of_mem _ member)]
    cases kept : isKept option with
    | true =>
      have numbers := kept
      simp only [isKept, Bool.and_eq_true, decide_eq_true_eq] at numbers
      have stored : (restoreOption alloc layout behind state option).1.options =
          insertBehind Opt.number option state.1.options := by
        simp only [restoreOption, if_neg numbers.1.1.1, if_neg numbers.1.1.2, if_neg numbers.1.2, if_neg numbers.2]
        rw [append_available available _ rfl (short option (List.mem_cons_self ..))]
      rw [List.filter_cons_of_pos kept, insertAll_cons, stored]
    | false =>
      have same : (restoreOption alloc layout behind state option).1.options = state.1.options := by
        simp only [restoreOption]
        split_ifs with host port path save
        · rfl
        · rfl
        · rfl
        · rfl
        · simp [isKept, host, port, path, save] at kept
      rw [List.filter_cons_of_neg (by simp [kept]), same]

/-- A kept option is among those of the observer. -/
theorem mem_restored (available : ∀ i, alloc i = true) {option : Opt} (kept : isKept option = true)
    (short : option.value.length ≤ 65535) (member : option ∈ options ∨ option ∈ state.1.options) :
    option ∈ (options.foldl (restoreOption alloc layout behind) state).1.options := by
  induction options generalizing state with
  | nil => exact member.resolve_left List.not_mem_nil
  | cons first rest inductionHypothesis =>
    rw [List.foldl_cons]
    apply inductionHypothesis
    have stays : option ∈ state.1.options → option ∈ (restoreOption alloc layout behind state first).1.options := by
      intro inside
      simp only [restoreOption]
      split_ifs
      · exact inside
      · exact inside
      · exact inside
      · exact inside
      · rw [OptionList.append, available, appendOptionToList, if_pos rfl, ← Wire.insertBehind_eq, Wire.mem_insertBehind]
        exact Or.inr inside
    rcases member with inside | inside
    · rcases List.mem_cons.mp inside with rfl | later
      · refine Or.inr ?_
        simp only [isKept, Bool.and_eq_true, decide_eq_true_eq] at kept
        simp only [restoreOption, if_neg kept.1.1.1, if_neg kept.1.1.2, if_neg kept.1.2, if_neg kept.2]
        rw [append_available available _ rfl short, Wire.mem_insertBehind]
        exact Or.inl rfl
      · exact Or.inl later
    · exact Or.inr (stays inside)

end

end

/-! ## What a record restores -/

section
variable {alloc : Nat → Bool} {layout : NetEpLayout} {record : SavedRecord}

/-- Options of other numbers than those of the URI and the observer. -/
theorem filter_numbered (regular : record.Regular) {number : Nat} (notPath : number ≠ optNumUriPath)
    (notQuery : number ≠ optNumUriQuery) (notObserve : number ≠ optNumObserve) :
    (record.appended layout).filter (·.number = number) =
      [⟨optNumUriHost, layout.bytes record.observer.ep⟩, ⟨optNumUriPort, [record.observer.ifID]⟩,
        ⟨optNumLobaroTokenSave, Wire.digits record.observer.token.toNat 8⟩].filter (·.number = number) := by
  have uri : record.uri.filter (·.number = number) = [] := by
    rw [List.filter_eq_nil_iff]
    intro option member
    rcases (regular.uri option member).1 with path | query
    · simp [path, Ne.symm notPath]
    · simp [query, Ne.symm notQuery]
  have options : record.observer.options.filter (·.number = number) = [] := by
    rw [List.filter_eq_nil_iff]
    intro option member
    rcases (regular.options option member).1 with observe | query
    · simp [observe, Ne.symm notObserve]
    · simp [query, Ne.symm notQuery]
  simp only [SavedRecord.appended, List.filter_cons, List.filter_append, uri, options, List.nil_append]

theorem filter_host (regular : record.Regular) : (record.options layout).filter (·.number = optNumUriHost) =
    [⟨optNumUriHost, layout.bytes record.observer.ep⟩] := by
  have listed : (record.appended layout).filter (·.number = optNumUriHost) = _ :=
    filter_numbered regular (by decide) (by decide) (by decide)
  rw [filter_options _ (by rw [listed]; exact List.pairwise_singleton ..), listed]
  rfl

theorem filter_port (regular : record.Regular) : (record.options layout).filter (·.number = optNumUriPort) =
    [⟨optNumUriPort, [record.observer.ifID]⟩] := by
  have listed : (record.appended layout).filter (·.number = optNumUriPort) = _ :=
    filter_numbered regular (by decide) (by decide) (by decide)
  rw [filter_options _ (by rw [listed]; exact List.pairwise_singleton ..), listed]
  rfl

theorem filter_token (regular : record.Regular) : (record.options layout).filter (·.number = optNumLobaroTokenSave) =
    [⟨optNumLobaroTokenSave, Wire.digits record.observer.token.toNat 8⟩] := by
  have listed : (record.appended layout).filter (·.number = optNumLobaroTokenSave) = _ :=
    filter_numbered regular (by decide) (by decide) (by decide)
  rw [filter_options _ (by rw [listed]; exact List.pairwise_singleton ..), listed]
  rfl

/-- The path in a record is that of the URI it was written with. -/
theorem uriPath_record (regular : record.Regular) : uriPath (record.options layout) = uriPath record.uri := by
  have options : record.observer.options.filter (·.number = optNumUriPath) = [] := by
    rw [List.filter_eq_nil_iff]
    intro option member
    rcases (regular.options option member).1 with number | number <;> simp [number, optNumObserve, optNumUriPath,
      optNumUriQuery]
  have listed : (record.appended layout).filter (·.number = optNumUriPath) =
      record.uri.filter (·.number = optNumUriPath) := by
    have others : optNumUriHost ≠ optNumUriPath ∧ optNumUriPort ≠ optNumUriPath ∧
        optNumLobaroTokenSave ≠ optNumUriPath := by decide
    simp only [SavedRecord.appended, List.filter_cons, List.filter_append, options, others, List.filter_nil,
      decide_false, Bool.false_eq_true, if_false, List.append_nil]
  have same : (record.uri.filter (·.number = optNumUriPath)).Pairwise fun left right => left.number ≤ right.number :=
    regular.uriSorted.filter _
  rw [uriPath, filter_options _ (by rw [listed]; exact same), listed, uriPath]

theorem isKept_uri (regular : record.Regular) {option : Opt} (member : option ∈ record.uri) :
    isKept option = true ↔ option.number ≠ optNumUriPath := by
  rcases (regular.uri option member).1 with path | query
  · simp [isKept, path]
  · simp [isKept, query, optNumUriHost, optNumUriPort, optNumUriPath, optNumUriQuery, optNumLobaroTokenSave]

theorem filter_kept (regular : record.Regular) :
    (record.appended layout).filter isKept = record.uri.filter isKept ++ record.observer.options := by
  have options : record.observer.options.filter isKept = record.observer.options := by
    rw [List.filter_eq_self]
    intro option member
    rcases (regular.options option member).1 with number | number <;>
      simp [isKept, number, optNumUriHost, optNumUriPort, optNumUriPath, optNumUriQuery, optNumObserve,
        optNumLobaroTokenSave]
  simp [SavedRecord.appended, options, isKept]

/-- The observer that is made of a record. -/
def restoredObserver (alloc : Nat → Bool) (layout : NetEpLayout) (behind : Memory) (origin : NetPacket)
    (allocs ref : Nat) (record : SavedRecord) : CoapObserver × Nat :=
  (record.options layout).foldl (restoreOption alloc layout behind) (newObserver layout ref origin, allocs)

/-- It is the one that was saved when the URI in the record has no query. -/
theorem restored_content_iff (available : ∀ i, alloc i = true) (regular : record.Regular) (behind : Memory)
    (origin : NetPacket) (allocs ref : Nat) :
    (restoredObserver alloc layout behind origin allocs ref record).1.content = record.observer.content ↔
      ∀ option ∈ record.uri, option.number = optNumUriPath := by
  have ep : (restoredObserver alloc layout behind origin allocs ref record).1.ep = record.observer.ep := by
    rw [restoredObserver, restore_ep, filter_host regular]
    simp only [List.foldl_cons, List.foldl_nil, bytes_value (layout.length_bytes _), layout.read_bytes]
  have ifID : (restoredObserver alloc layout behind origin allocs ref record).1.ifID = record.observer.ifID := by
    rw [restoredObserver, restore_ifID, filter_port regular]
    rfl
  have token : (restoredObserver alloc layout behind origin allocs ref record).1.token = record.observer.token := by
    have bound := record.observer.token.toNat_lt
    rw [restoredObserver, restore_token, filter_token regular]
    simp only [List.foldl_cons, List.foldl_nil, bytes_value (Wire.length_digits ..)]
    rw [Wire.littleEndian_digits (by omega), UInt64.ofNat_toNat]
  have options : (restoredObserver alloc layout behind origin allocs ref record).1.options =
      insertAll [] ((record.options layout).filter isKept) :=
    restore_options behind _ _ available fun option member => length_le regular member
  simp only [CoapObserver.content, ep, ifID, token, options, Prod.mk.injEq, true_and]
  constructor
  · intro same option member
    by_contra other
    -- the query of the URI makes the list longer
    have count := congrArg List.length same
    have perm : ((record.options layout).filter isKept).length = ((record.appended layout).filter isKept).length := by
      rw [SavedRecord.options, insertAll, Wire.foldl_insertBehind]
      exact ((List.perm_insertionSort _ _).filter isKept).length_eq
    rw [insertAll, Wire.foldl_insertBehind, List.length_insertionSort, perm, filter_kept regular,
      List.length_append] at count
    have positive : 0 < (record.uri.filter isKept).length :=
      List.length_pos_of_mem (List.mem_filter.mpr ⟨member, (isKept_uri regular member).mpr other⟩)
    omega
  · intro plain
    have none : record.uri.filter isKept = [] := by
      rw [List.filter_eq_nil_iff]
      intro option member kept
      exact (isKept_uri regular member).mp kept (plain option member)
    have listed : (record.appended layout).filter isKept = _ := filter_kept regular
    rw [none, List.nil_append] at listed
    rw [filter_options _ (by rw [listed]; exact regular.optionsSorted), listed, insertAll,
      Wire.foldl_insertBehind_sorted Opt.number regular.optionsSorted]

end

end SmingCoap.Server
