import SmingCoap.Server.RoundTrip
import SmingCoap.Server.Storage
import SmingCoap.Server.UriSoundness

/-! # Saved records

`CoAP_NVsaveObservers` writes one record for each observer (`savedRecords`): the first record of a resource has its
URI.  The pointer moves by the bytes of all records so far, so the third record and those behind it are not where the
records before them end.
-/

namespace SmingCoap.Server

open Wire (Memory Opt insertBehind)

/-! ## Records -/

/-- What is saved for an observer: the place of its resource, and the part of the URI that goes with it. -/
structure SavedRecord where
  index : Nat
  uri : List Opt
  observer : CoapObserver

/-- The records in the order in which they are written; `index` is the place of the first resource. -/
def savedRecords (index : Nat) : List CoapResource → List SavedRecord
  | [] => []
  | resource :: rest =>
    (match resource.observers with
      | [] => []
      | first :: others => ⟨index, resource.uri, first⟩ :: others.map (⟨index, [], ·⟩)) ++
      savedRecords (index + 1) rest

/-- The options of a record in the order in which they are appended. -/
def SavedRecord.appended (layout : NetEpLayout) (record : SavedRecord) : List Opt :=
  ⟨optNumUriHost, layout.bytes record.observer.ep⟩ :: ⟨optNumUriPort, [record.observer.ifID]⟩ ::
    (record.uri ++ (record.observer.options ++
      [⟨optNumLobaroTokenSave, Wire.digits record.observer.token.toNat 8⟩]))

/-- The options of a record as they are packed. -/
def SavedRecord.options (layout : NetEpLayout) (record : SavedRecord) : List Opt :=
  insertAll [] (record.appended layout)

/-- The bytes a record takes, with its marker. -/
def SavedRecord.size (layout : NetEpLayout) (record : SavedRecord) : Nat :=
  (Wire.encodeOptions 0 (record.options layout)).length + 1

/-- The options of the URI are path and query options, those of the observer are Observe and query options, and the
lengths are 16 bit variables. -/
structure SavedRecord.Regular (record : SavedRecord) : Prop where
  uri : ∀ option ∈ record.uri, (option.number = optNumUriPath ∨ option.number = optNumUriQuery) ∧
    option.value.length ≤ 65535
  uriSorted : record.uri.Pairwise fun left right => left.number ≤ right.number
  options : ∀ option ∈ record.observer.options,
    (option.number = optNumObserve ∨ option.number = optNumUriQuery) ∧ option.value.length ≤ 65535
  optionsSorted : record.observer.options.Pairwise fun left right => left.number ≤ right.number

section
variable {alloc : Nat → Bool} {layout : NetEpLayout} {record : SavedRecord}

theorem append_available (available : ∀ i, alloc i = true) (list : OptionList) {number : Nat} {buf : List UInt8}
    {length : Nat} (size : buf.length = length) (short : length ≤ 65535) :
    list.append alloc number buf length = ⟨insertBehind Opt.number ⟨number, buf⟩ list.options, list.allocs + 1⟩ := by
  rw [OptionList.append, available, appendOptionToList, Wire.insertBehind_eq, Nat.mod_eq_of_lt (by omega), ← size,
    List.take_length]
  simp

theorem copy_available (available : ∀ i, alloc i = true) (list : OptionList) {options : List Opt}
    (short : ∀ option ∈ options, option.value.length ≤ 65535) :
    list.copy alloc options = ⟨insertAll list.options options, list.allocs + options.length⟩ := by
  induction options generalizing list with
  | nil => rfl
  | cons option rest inductionHypothesis =>
    rw [OptionList.copy, List.foldl_cons, append_available available list rfl (short option (List.mem_cons_self ..)),
      ← OptionList.copy, inductionHypothesis _ fun other member => short other (List.mem_cons_of_mem _ member)]
    simp only [insertAll_cons, List.length_cons, OptionList.mk.injEq, true_and]
    omega

theorem savedOptions_options (available : ∀ i, alloc i = true) (regular : record.Regular) (allocs : Nat) :
    (savedOptions alloc layout allocs record.uri record.observer).options = record.options layout := by
  have host := layout.length_bytes record.observer.ep
  have hostShort := layout.short
  rw [maxOptionValueSize] at hostShort
  simp only [savedOptions]
  have port : [record.observer.ifID].length = 1 := rfl
  rw [append_available available _ host (by omega), append_available available _ port (by decide),
    copy_available available _ fun option member => (regular.uri option member).2,
    copy_available available _ fun option member => (regular.options option member).2,
    append_available available _ (Wire.length_digits ..) (by decide), SavedRecord.options, SavedRecord.appended]
  simp only [insertAll_cons, insertAll_append, insertAll_nil]

theorem mem_options {option : Opt} : option ∈ record.options layout ↔ option ∈ record.appended layout := by
  rw [SavedRecord.options, insertAll, Wire.foldl_insertBehind]
  exact List.mem_insertionSort _

theorem options_ascending : Wire.Ascending 0 (record.options layout) := by
  rw [Wire.ascending_zero_iff, SavedRecord.options, insertAll, Wire.foldl_insertBehind]
  exact List.pairwise_insertionSort _ _

theorem number_le (regular : record.Regular) {option : Opt} (member : option ∈ record.options layout) :
    option.number ≤ 65535 := by
  rw [mem_options, SavedRecord.appended] at member
  simp only [List.mem_cons, List.mem_append, List.not_mem_nil, or_false] at member
  rcases member with rfl | rfl | inUri | inOptions | rfl
  · exact (by decide : optNumUriHost ≤ 65535)
  · exact (by decide : optNumUriPort ≤ 65535)
  · rcases (regular.uri option inUri).1 with number | number <;> rw [number] <;> decide
  · rcases (regular.options option inOptions).1 with number | number <;> rw [number] <;> decide
  · exact (by decide : optNumLobaroTokenSave ≤ 65535)

theorem length_le (regular : record.Regular) {option : Opt} (member : option ∈ record.options layout) :
    option.value.length ≤ 65535 := by
  have hostShort := layout.short
  rw [maxOptionValueSize] at hostShort
  rw [mem_options, SavedRecord.appended] at member
  simp only [List.mem_cons, List.mem_append, List.not_mem_nil, or_false] at member
  rcases member with rfl | rfl | inUri | inOptions | rfl
  · rw [layout.length_bytes]
    omega
  · exact Nat.le_add_left ..
  · exact (regular.uri option inUri).2
  · exact (regular.options option inOptions).2
  · rw [Wire.length_digits]
    decide

theorem options_representable (regular : record.Regular) : Wire.Representable (record.options layout) := by
  intro option member
  have length := length_le regular member
  exact ⟨number_le regular member, by omega⟩

theorem options_ne_nil : record.options layout ≠ [] := by
  have member : ⟨optNumUriPort, [record.observer.ifID]⟩ ∈ record.options layout :=
    mem_options.mpr (List.mem_cons_of_mem _ (List.mem_cons_self ..))
  exact List.ne_nil_of_mem member

/-- The options of some numbers keep their order when that is in order. -/
theorem filter_options (part : Opt → Bool)
    (sorted : ((record.appended layout).filter part).Pairwise fun left right => left.number ≤ right.number) :
    (record.options layout).filter part = (record.appended layout).filter part := by
  rw [SavedRecord.options, insertAll, Wire.foldl_insertBehind]
  exact Wire.filter_insertionSort Opt.number part sorted

end

/-! ## The page -/

/-- The bytes of a record: its options and the marker. -/
def SavedRecord.bytes (layout : NetEpLayout) (record : SavedRecord) : List UInt8 :=
  Wire.encodeOptions 0 (record.options layout) ++ [0xFF]

/-- The bytes of all records. -/
def pageBytes (layout : NetEpLayout) (records : List SavedRecord) : Nat :=
  (records.map (SavedRecord.size layout)).sum

section
variable {alloc : Nat → Bool} {layout : NetEpLayout} {record : SavedRecord} {records : List SavedRecord}

@[simp] theorem pageBytes_cons (record : SavedRecord) (records : List SavedRecord) :
    pageBytes layout (record :: records) = record.size layout + pageBytes layout records := rfl

theorem saveObserver_spec (available : ∀ i, alloc i = true) (regular : record.Regular) (page : TempPage)
    (room : page.totalPageBytes.toNat + record.size layout ≤ tempPageSize) :
    (page.saveObserver alloc layout record.uri record.observer).totalPageBytes.toNat =
        page.totalPageBytes.toNat + record.size layout ∧
      (page.saveObserver alloc layout record.uri record.observer).pTempPage =
        page.pTempPage + (page.totalPageBytes.toNat + record.size layout) ∧
      (page.saveObserver alloc layout record.uri record.observer).tempPage.Holds page.pTempPage
        (record.bytes layout) ∧
      ∀ i, i < page.pTempPage ∨ page.pTempPage + record.size layout ≤ i →
        (page.saveObserver alloc layout record.uri record.observer).tempPage i = page.tempPage i := by
  rw [tempPageSize] at room
  rw [SavedRecord.size] at room ⊢
  obtain ⟨written, holds, kept⟩ := packOptionsFromList_spec (record.options layout)
    (page.tempPage.offset page.pTempPage) 0 0 options_ascending (options_representable regular)
    (by omega)
  rw [Nat.zero_add] at written kept
  have total : (page.totalPageBytes +
      UInt32.ofNat ((Wire.encodeOptions 0 (record.options layout)).length + 1)).toNat =
        page.totalPageBytes.toNat + ((Wire.encodeOptions 0 (record.options layout)).length + 1) := by
    rw [UInt32.toNat_add, UInt32.toNat_ofNat', Nat.mod_eq_of_lt (by omega), Nat.mod_eq_of_lt (by omega)]
  simp only [TempPage.saveObserver, savedOptions_options available regular, written, total, true_and]
  refine ⟨?_, ?_⟩
  · rw [SavedRecord.bytes, Memory.holds_append, Memory.holds_cons]
    refine ⟨?_, ?_, Memory.holds_nil ..⟩
    · apply holds.move
      intro i inside
      rw [Memory.store_other _ _ (by omega), if_neg (by omega), Nat.add_sub_cancel_left, Nat.zero_add]
    · exact Memory.store_same ..
  · intro i outside
    rw [Memory.store_other _ _ (by omega)]
    split
    next before => rfl
    next behind =>
      rw [kept _ (by omega), Memory.offset_apply]
      congr 1
      omega

/-- The records of a list, one after the other. -/
def saveRecords (alloc : Nat → Bool) (layout : NetEpLayout) (page : TempPage) (records : List SavedRecord) :
    TempPage :=
  records.foldl (fun page record => page.saveObserver alloc layout record.uri record.observer) page

theorem nvSaveObservers_eq (tempPage : Memory) (resources : List CoapResource) :
    nvSaveObservers alloc layout tempPage resources =
      saveRecords alloc layout ⟨tempPage, 0, 0, 0⟩ (savedRecords 0 resources) := by
  have later : ∀ (uri : List Opt) (index : Nat) (others : List CoapObserver) (page : TempPage),
      page.saveObservers alloc layout uri true others =
        saveRecords alloc layout page (others.map (⟨index, [], ·⟩)) := by
    intro uri index others
    induction others with
    | nil => intro page; rfl
    | cons observer others inductionHypothesis =>
      intro page
      rw [TempPage.saveObservers, inductionHypothesis]
      rfl
  rw [nvSaveObservers]
  generalize (⟨tempPage, 0, 0, 0⟩ : TempPage) = page
  generalize (0 : Nat) = index
  induction resources generalizing page index with
  | nil => rfl
  | cons resource rest inductionHypothesis =>
    rw [List.foldl_cons, inductionHypothesis _ (index + 1), savedRecords, saveRecords, saveRecords, List.foldl_append]
    congr 1
    cases resource.observers with
    | nil => rfl
    | cons first others =>
      rw [TempPage.saveObservers, later resource.uri index]
      rfl

/-- Records that are saved later are written behind the pointer. -/
theorem saveRecords_keeps (available : ∀ i, alloc i = true) (regular : ∀ record ∈ records, record.Regular)
    (page : TempPage) (room : page.totalPageBytes.toNat + pageBytes layout records ≤ tempPageSize) :
    (saveRecords alloc layout page records).totalPageBytes.toNat =
        page.totalPageBytes.toNat + pageBytes layout records ∧
      ∀ i, i < page.pTempPage → (saveRecords alloc layout page records).tempPage i = page.tempPage i := by
  induction records generalizing page with
  | nil => exact ⟨rfl, fun _ _ => rfl⟩
  | cons record records inductionHypothesis =>
    rw [pageBytes_cons] at room
    obtain ⟨total, pointer, _, kept⟩ := saveObserver_spec available (regular record (List.mem_cons_self ..)) page
      (show page.totalPageBytes.toNat + record.size layout ≤ tempPageSize by omega)
    obtain ⟨totalRest, keptRest⟩ := inductionHypothesis
      (fun other member => regular other (List.mem_cons_of_mem _ member))
      (page.saveObserver alloc layout record.uri record.observer) (by omega)
    rw [saveRecords, List.foldl_cons, ← saveRecords, pageBytes_cons]
    refine ⟨by omega, ?_⟩
    intro i before
    rw [keptRest i (by omega), kept i (Or.inl before)]

end

/-! ## What the storage returns -/

section
variable {alloc : Nat → Bool} {layout : NetEpLayout} {first second : SavedRecord} {records : List SavedRecord}
  {page : TempPage}

theorem length_bytes (record : SavedRecord) : (record.bytes layout).length = record.size layout := by
  rw [SavedRecord.bytes, List.length_append, SavedRecord.size]
  rfl

/-- The next record is at the pointer; between its end and the next place of the pointer nothing is written. -/
theorem saveRecords_next (available : ∀ i, alloc i = true) (regular : ∀ record ∈ first :: records, record.Regular)
    (room : page.totalPageBytes.toNat + pageBytes layout (first :: records) ≤ tempPageSize) :
    (saveRecords alloc layout page (first :: records)).tempPage.Holds page.pTempPage (first.bytes layout) ∧
      ∀ i, page.pTempPage + first.size layout ≤ i →
        i < page.pTempPage + (page.totalPageBytes.toNat + first.size layout) →
        (saveRecords alloc layout page (first :: records)).tempPage i = page.tempPage i := by
  rw [pageBytes_cons] at room
  obtain ⟨total, pointer, holds, unchanged⟩ := saveObserver_spec available (regular first (List.mem_cons_self ..)) page
    (show page.totalPageBytes.toNat + first.size layout ≤ tempPageSize by omega)
  obtain ⟨_, kept⟩ := saveRecords_keeps available (fun other member => regular other (List.mem_cons_of_mem _ member))
    (page.saveObserver alloc layout first.uri first.observer)
    (show _ + pageBytes layout records ≤ tempPageSize by omega)
  rw [saveRecords, List.foldl_cons, ← saveRecords]
  constructor
  · apply holds.congr
    intro i _ inside
    rw [length_bytes] at inside
    exact kept i (by omega)
  · intro i behind before
    rw [kept i (by omega), unchanged i (Or.inr behind)]

/-- Bytes that were written come back. -/
theorem stored_written (available : ∀ i, alloc i = true) (regular : ∀ record ∈ records, record.Regular)
    (empty : page.totalPageBytes.toNat = 0) (room : pageBytes layout records ≤ tempPageSize) (i : Nat) :
    (saveRecords alloc layout page records).stored i =
      if i < pageBytes layout records then (saveRecords alloc layout page records).tempPage i else 0xFF := by
  obtain ⟨total, _⟩ := saveRecords_keeps available regular page
    (show page.totalPageBytes.toNat + pageBytes layout records ≤ tempPageSize by omega)
  rw [TempPage.stored, total, empty, Nat.zero_add]

theorem stored_behind (available : ∀ i, alloc i = true) (regular : ∀ record ∈ records, record.Regular)
    (empty : page.totalPageBytes.toNat = 0) (room : pageBytes layout records ≤ tempPageSize) {i : Nat}
    (behind : pageBytes layout records ≤ i) : (saveRecords alloc layout page records).stored i = 0xFF := by
  rw [stored_written available regular empty room, if_neg (Nat.not_lt.mpr behind)]

theorem stored_first (available : ∀ i, alloc i = true) (regular : ∀ record ∈ first :: records, record.Regular)
    (start : page.pTempPage = 0) (empty : page.totalPageBytes.toNat = 0)
    (room : pageBytes layout (first :: records) ≤ tempPageSize) :
    (saveRecords alloc layout page (first :: records)).stored.Holds 0 (first.bytes layout) := by
  obtain ⟨holds, _⟩ := saveRecords_next available regular (by omega : page.totalPageBytes.toNat +
    pageBytes layout (first :: records) ≤ tempPageSize)
  rw [start] at holds
  apply holds.congr
  intro i _ inside
  rw [length_bytes] at inside
  rw [stored_written available regular empty room, if_pos (by rw [pageBytes_cons]; omega)]

/-- The second record is right behind the first, and as many bytes as the first has stay as they were behind it. -/
theorem stored_second (available : ∀ i, alloc i = true)
    (regular : ∀ record ∈ first :: second :: records, record.Regular) (start : page.pTempPage = 0) (empty : page.totalPageBytes.toNat = 0)
    (room : pageBytes layout (first :: second :: records) ≤ tempPageSize) :
    (saveRecords alloc layout page (first :: second :: records)).stored.Holds (first.size layout)
        (second.bytes layout) ∧
      ∀ i, first.size layout + second.size layout ≤ i → i < pageBytes layout (first :: second :: records) →
        i < first.size layout + second.size layout + first.size layout →
        (saveRecords alloc layout page (first :: second :: records)).stored i = page.tempPage i := by
  have restRegular : ∀ record ∈ second :: records, record.Regular :=
    fun other member => regular other (List.mem_cons_of_mem _ member)
  have sizes : pageBytes layout (first :: second :: records) =
      first.size layout + (second.size layout + pageBytes layout records) := rfl
  obtain ⟨total, pointer, _, unchanged⟩ := saveObserver_spec available (regular first (List.mem_cons_self ..)) page
    (show page.totalPageBytes.toNat + first.size layout ≤ tempPageSize by omega)
  rw [start, empty, Nat.zero_add, Nat.zero_add] at pointer
  rw [empty, Nat.zero_add] at total
  have roomRest : (page.saveObserver alloc layout first.uri first.observer).totalPageBytes.toNat +
      pageBytes layout (second :: records) ≤ tempPageSize := by
    rw [total, pageBytes_cons]
    omega
  obtain ⟨holds, gap⟩ := saveRecords_next available restRegular roomRest
  rw [pointer, total] at gap
  rw [pointer] at holds
  -- the second record is written where the pointer stands behind the first
  have written := stored_written available regular empty room
  constructor
  · apply holds.congr
    intro i _ inside
    rw [length_bytes] at inside
    rw [written, if_pos (by omega)]
    rfl
  · intro i behind within before
    rw [written, if_pos within, ← unchanged i (Or.inr (by omega))]
    exact gap i (by omega) (by omega)

end

/-! ## Where the records come from -/

theorem savedRecords_located {resources : List CoapResource} {record : SavedRecord}
    (member : record ∈ savedRecords 0 resources) : ∃ resource, resources[record.index]? = some resource := by
  -- stated for any resources in front, whose number the records count from
  have later : ∀ front : List CoapResource, record ∈ savedRecords front.length resources →
      ∃ resource, (front ++ resources)[record.index]? = some resource := by
    clear member
    induction resources with
    | nil =>
      intro front member
      cases member
    | cons resource rest inductionHypothesis =>
      intro front member
      have here : (front ++ resource :: rest)[front.length]? = some resource := by simp
      rw [savedRecords] at member
      cases List.mem_append.mp member with
      | inl own =>
        cases listed : resource.observers with
        | nil =>
          rw [listed] at own
          cases own
        | cons observer others =>
          rw [listed] at own
          have index : record.index = front.length := by
            cases List.mem_cons.mp own with
            | inl same => rw [same]
            | inr other =>
              obtain ⟨_, _, same⟩ := List.mem_map.mp other
              rw [← same]
          exact ⟨resource, by rw [index, here]⟩
      | inr behind =>
        have next := inductionHypothesis (front ++ [resource]) (by simpa using behind)
        rwa [List.append_assoc] at next
  exact later [] member

/-- The first record has the URI of its resource. -/
theorem savedRecords_first {resources : List CoapResource} {first : SavedRecord} {records : List SavedRecord}
    (listed : savedRecords 0 resources = first :: records) :
    ∃ resource, resources[first.index]? = some resource ∧ first.uri = resource.uri := by
  have later : ∀ front : List CoapResource, savedRecords front.length resources = first :: records →
      ∃ resource, (front ++ resources)[first.index]? = some resource ∧ first.uri = resource.uri := by
    clear listed
    induction resources with
    | nil =>
      intro front listed
      cases listed
    | cons resource rest inductionHypothesis =>
      intro front listed
      rw [savedRecords] at listed
      cases own : resource.observers with
      | nil =>
        rw [own] at listed
        have next := inductionHypothesis (front ++ [resource]) (by simpa using listed)
        rwa [List.append_assoc] at next
      | cons observer others =>
        rw [own] at listed
        obtain ⟨rfl, _⟩ := List.cons.inj listed
        exact ⟨resource, by simp, rfl⟩
  exact later [] listed

theorem savedRecords_observer {resources : List CoapResource} {resource : CoapResource} {observer : CoapObserver}
    (member : resource ∈ resources) (own : observer ∈ resource.observers) (index : Nat) :
    ∃ record ∈ savedRecords index resources, record.observer = observer := by
  induction resources generalizing index with
  | nil => cases member
  | cons first rest inductionHypothesis =>
    rw [savedRecords]
    cases List.mem_cons.mp member with
    | inl same =>
      subst same
      cases listed : resource.observers with
      | nil =>
        rw [listed] at own
        cases own
      | cons head others =>
        rw [listed] at own
        cases List.mem_cons.mp own with
        | inl same => exact ⟨_, List.mem_append_left _ (List.mem_cons_self ..), same.symm⟩
        | inr other =>
          exact ⟨_, List.mem_append_left _ (List.mem_cons_of_mem _ (List.mem_map_of_mem other)), rfl⟩
    | inr later =>
      obtain ⟨record, inside, same⟩ := inductionHypothesis later (index + 1)
      exact ⟨record, List.mem_append_right _ inside, same⟩

end SmingCoap.Server
