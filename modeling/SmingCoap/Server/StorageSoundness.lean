import SmingCoap.Server.RestoredRecords

/-! # Observers that come back

The loader finds the first two records; what is behind them is not where it looks.  Only the first record of a resource
has the URI that leads to the resource again.  What is restored is therefore decided by the first two records
(`Storable`).
-/

namespace SmingCoap.Server

open Wire (Memory Opt)

/-! ## The loader -/

abbrev Content := NetEp × UInt8 × UInt64 × List Opt

/-- The observers of each resource. -/
def contents (resources : List CoapResource) : List (List Content) :=
  resources.map fun resource => resource.observers.map CoapObserver.content

/-- One observer more at the end of a list. -/
def attach (contents : List (List Content)) (index : Nat) (content : Content) : List (List Content) :=
  contents.modify index (· ++ [content])

/-- The resources as they are created again. -/
def withoutObservers (resources : List CoapResource) : List CoapResource :=
  resources.map fun resource => { resource with observers := [] }

theorem contents_append (resources : List CoapResource) (index : Nat) (observer : CoapObserver) :
    contents (resources.modify index fun resource => resource.appendObserver observer) =
      attach (contents resources) index observer.content := by
  apply List.ext_getElem?
  intro i
  simp only [contents, attach, List.getElem?_map, List.getElem?_modify]
  cases resources[i]? with
  | none => rfl
  | some resource =>
    by_cases here : index = i
    · simp [here, CoapResource.appendObserver]
    · simp [here]

theorem contents_withoutObservers (resources : List CoapResource) :
    contents (withoutObservers resources) = List.replicate resources.length [] := by
  rw [contents, withoutObservers, List.map_map, List.eq_replicate_iff]
  simp

theorem attach_at (front : List (List Content)) (before : List Content) (behind : List (List Content))
    (content : Content) :
    attach (front ++ before :: behind) front.length content = front ++ (before ++ [content]) :: behind := by
  induction front with
  | nil => rfl
  | cons head front inductionHypothesis => exact congrArg (head :: ·) inductionHypothesis

/-- The observers are those of the records. -/
theorem contents_records (resources : List CoapResource) :
    contents resources = (savedRecords 0 resources).foldl
      (fun contents record => attach contents record.index record.observer.content)
      (List.replicate resources.length []) := by
  -- stated for any contents in front, whose number the records count from
  have later : ∀ front : List (List Content), (savedRecords front.length resources).foldl
      (fun contents record => attach contents record.index record.observer.content)
      (front ++ List.replicate resources.length []) = front ++ contents resources := by
    induction resources with
    | nil => intro front; simp [contents, savedRecords]
    | cons resource rest inductionHypothesis =>
      intro front
      have here : ∀ (others : List CoapObserver) (before : List Content),
          (others.map fun observer => SavedRecord.mk front.length [] observer).foldl
            (fun contents record => attach contents record.index record.observer.content)
            (front ++ before :: List.replicate rest.length []) =
          front ++ (before ++ others.map CoapObserver.content) :: List.replicate rest.length [] := by
        intro others
        induction others with
        | nil => intro before; simp
        | cons observer others inductionHypothesis =>
          intro before
          rw [List.map_cons, List.foldl_cons, attach_at, inductionHypothesis]
          simp
      have next := inductionHypothesis (front ++ [resource.observers.map CoapObserver.content])
      rw [List.length_append, List.length_singleton, List.append_assoc, List.append_assoc] at next
      rw [savedRecords, List.foldl_append, List.length_cons, List.replicate_succ, contents, List.map_cons]
      cases listed : resource.observers with
      | nil =>
        rw [listed] at next
        exact next
      | cons first others =>
        rw [listed] at next
        simp only [List.foldl_cons]
        rw [attach_at, here]
        exact next
  exact (later []).symm

theorem attach_grows (contents : List (List Content)) (index : Nat) (content : Content) :
    List.Forall₂ (· <+: ·) contents (attach contents index content) := by
  induction contents generalizing index with
  | nil =>
    rw [attach, List.modify_nil]
    exact .nil
  | cons head rest inductionHypothesis =>
    cases index with
    | zero => exact .cons (List.prefix_append ..) (List.forall₂_same.mpr fun other _ => List.prefix_refl other)
    | succ index => exact .cons (List.prefix_refl _) (inductionHypothesis index)

theorem grows_trans {first second third : List (List Content)} (left : List.Forall₂ (· <+: ·) first second)
    (right : List.Forall₂ (· <+: ·) second third) : List.Forall₂ (· <+: ·) first third := by
  induction left generalizing third with
  | nil => exact right
  | cons head _ inductionHypothesis =>
    cases right with
    | cons next rest => exact .cons (head.trans next) (inductionHypothesis rest)

section
variable {alloc : Nat → Bool} {layout : NetEpLayout} {behind : Memory} {origin : NetPacket} {page : Memory}

theorem nvLoad_refused {fuel allocs ref pRawPage : Nat} {resources : List CoapResource} {result : CoapResult}
    {options : List Opt} {payload : Option Nat} (failed : result ≠ .ok)
    (parsed : parseOptionsFromRaw (fun i => alloc (allocs + i)) (page.offset pRawPage) tempPageSize =
      some (result, options, payload)) :
    nvLoadLoop alloc layout behind origin page (fuel + 1) allocs ref (some pRawPage) [] resources = some resources := by
  rw [nvLoadLoop, if_neg (not_not.mpr rfl), parsed]
  cases result with
  | ok => exact absurd rfl failed
  | _ => rfl

/-- A list that was not used ends the loop. -/
theorem nvLoad_unknown {fuel allocs ref pRawPage : Nat} {resources loaded : List CoapResource}
    {options : List Opt} {payload : Option Nat}
    (parsed : parseOptionsFromRaw (fun i => alloc (allocs + i)) (page.offset pRawPage) tempPageSize =
      some (.ok, options, payload)) (filled : options ≠ []) (unknown : findResourceByUri resources options = none)
    (result : nvLoadLoop alloc layout behind origin page fuel allocs ref (some pRawPage) [] resources = some loaded) :
    loaded = resources := by
  cases fuel with
  | zero => cases result
  | succ fuel =>
    rw [nvLoadLoop, if_neg (not_not.mpr rfl), parsed] at result
    simp only [unknown] at result
    cases fuel with
    | zero => cases result
    | succ fuel =>
      cases payload with
      | none => cases result
      | some position =>
        rw [Option.map_some, nvLoadLoop, if_pos filled] at result
        exact (Option.some.inj result).symm

theorem nvLoad_found (available : ∀ i, alloc i = true) {fuel allocs ref pRawPage index : Nat}
    {resources : List CoapResource} {options : List Opt} {payload : Option Nat}
    (parsed : parseOptionsFromRaw (fun i => alloc (allocs + i)) (page.offset pRawPage) tempPageSize =
      some (.ok, options, payload)) (found : findResourceByUri resources options = some index) :
    nvLoadLoop alloc layout behind origin page (fuel + 1) allocs ref (some pRawPage) [] resources =
      let (observer, allocs) := options.foldl (restoreOption alloc layout behind)
        (newObserver layout ref origin, allocs + options.length + 1)
      nvLoadLoop alloc layout behind origin page fuel allocs (ref + 1) (payload.map (pRawPage + ·)) []
        (resources.modify index fun resource => resource.appendObserver observer) := by
  rw [nvLoadLoop, if_neg (not_not.mpr rfl), parsed]
  simp only [found, available, if_true]

/-- Whatever is loaded, the observers that are there stay in front. -/
theorem nvLoadLoop_grows {fuel allocs ref : Nat} {pRawPage : Option Nat} {pOptList : List Opt}
    {resources loaded : List CoapResource}
    (result : nvLoadLoop alloc layout behind origin page fuel allocs ref pRawPage pOptList resources = some loaded) :
    List.Forall₂ (· <+: ·) (contents resources) (contents loaded) := by
  have same : ∀ resources : List CoapResource, List.Forall₂ (· <+: ·) (contents resources) (contents resources) :=
    fun resources => List.forall₂_same.mpr fun other _ => List.prefix_refl other
  induction fuel generalizing allocs ref pRawPage pOptList resources with
  | zero => cases result
  | succ fuel inductionHypothesis =>
    cases pRawPage with
    | none => cases result
    | some position =>
      rw [nvLoadLoop] at result
      split at result
      next unused =>
        cases result
        exact same _
      next used =>
        split at result
        next => cases result
        next =>
          simp only at result
          split at result
          -- a path that is not found, or an observer that is not made, leaves the lists alone
          next => exact inductionHypothesis result
          next found =>
            split at result
            next =>
              have grown := inductionHypothesis result
              rw [contents_append] at grown
              exact grows_trans (attach_grows _ _ _) grown
            next => exact inductionHypothesis result
        next =>
          cases result
          exact same _

end

/-! ## One record after the other -/

theorem findResourceByUri_uris (resources : List CoapResource) (uriToMatch : List Opt) :
    findResourceByUri resources uriToMatch =
      (resources.map CoapResource.uri).findIdx? (uriOptionsAreEqual · uriToMatch) := by
  rw [findResourceByUri, List.findIdx?_map]
  rfl

theorem find_some {resources : List CoapResource} {uriToMatch : List Opt} {index : Nat}
    (found : findResourceByUri resources uriToMatch = some index) :
    ∃ resource, resources[index]? = some resource ∧ uriPath resource.uri = uriPath uriToMatch := by
  obtain ⟨inside, same, _⟩ := List.findIdx?_eq_some_iff_getElem.mp found
  exact ⟨_, List.getElem?_eq_getElem inside, (uriOptionsAreEqual_iff _ _).mp same⟩

/-- Where the paths differ, the resource is the one with the path. -/
theorem find_path {resources : List CoapResource} (paths : (resources.map fun resource => uriPath resource.uri).Nodup)
    {uriToMatch : List Opt} {index : Nat} {resource : CoapResource} (located : resources[index]? = some resource)
    (same : uriPath resource.uri = uriPath uriToMatch) : findResourceByUri resources uriToMatch = some index := by
  cases found : findResourceByUri resources uriToMatch with
  | none =>
    have other := List.findIdx?_eq_none_iff.mp found resource (List.mem_of_getElem? located)
    rw [(uriOptionsAreEqual_iff _ _).mpr same] at other
    cases other
  | some earlier =>
    obtain ⟨match_, locatedMatch, sameMatch⟩ := find_some found
    obtain ⟨inside, _⟩ := List.getElem?_eq_some_iff.mp locatedMatch
    have equal : (resources.map fun resource => uriPath resource.uri)[earlier]? =
        (resources.map fun resource => uriPath resource.uri)[index]? := by
      rw [List.getElem?_map, List.getElem?_map, locatedMatch, located, Option.map_some, Option.map_some, sameMatch,
        same]
    rw [(List.getElem?_inj (by simpa using inside) paths).mp equal]

theorem uris_withoutObservers (resources : List CoapResource) :
    (withoutObservers resources).map CoapResource.uri = resources.map CoapResource.uri := by
  rw [withoutObservers, List.map_map]
  rfl

theorem uris_append (resources : List CoapResource) (index : Nat) (observer : CoapObserver) :
    (resources.modify index fun resource => resource.appendObserver observer).map CoapResource.uri =
      resources.map CoapResource.uri := by
  apply List.ext_getElem?
  intro i
  simp only [List.getElem?_map, List.getElem?_modify]
  cases resources[i]? with
  | none => rfl
  | some resource => by_cases here : index = i <;> simp [here, CoapResource.appendObserver]

section
variable {alloc : Nat → Bool} {layout : NetEpLayout} {behind : Memory} {origin : NetPacket} {page : Memory}
  {record : SavedRecord} {fuel allocs ref pRawPage index : Nat} {resources : List CoapResource}

theorem nvLoad_record (fuel allocs ref : Nat) (available : ∀ i, alloc i = true) (regular : record.Regular)
    (readable : record.Readable layout) (holds : page.Holds pRawPage (record.bytes layout))
    (found : findResourceByUri resources (record.options layout) = some index) :
    ∃ observer allocsNext,
      nvLoadLoop alloc layout behind origin page (fuel + 1) allocs ref (some pRawPage) [] resources =
        nvLoadLoop alloc layout behind origin page fuel allocsNext (ref + 1) (some (pRawPage + record.size layout)) []
          (resources.modify index fun resource => resource.appendObserver observer) ∧
      (observer.content = record.observer.content ↔ ∀ option ∈ record.uri, option.number = optNumUriPath) := by
  have holdsHere : (page.offset pRawPage).Holds 0 (record.bytes layout) := Memory.Holds.offset holds
  have parsed : parseOptionsFromRaw (fun i => alloc (allocs + i)) (page.offset pRawPage) tempPageSize = _ :=
    parse_readable (fun _ => available _) regular readable holdsHere
  have content := @restored_content_iff alloc layout record available regular behind origin
    (allocs + (record.options layout).length + 1) ref
  refine ⟨_, (restoredObserver alloc layout behind origin (allocs + (record.options layout).length + 1) ref record).2,
    ?_, content⟩
  rw [nvLoad_found available parsed found]
  rfl

theorem nvLoad_unreadable (available : ∀ i, alloc i = true) (regular : record.Regular)
    (unreadable : ¬ record.Readable layout) (within : record.size layout ≤ tempPageSize)
    (holds : page.Holds pRawPage (record.bytes layout)) :
    nvLoadLoop alloc layout behind origin page (fuel + 1) allocs ref (some pRawPage) [] resources = some resources := by
  have holdsHere : (page.offset pRawPage).Holds 0 (record.bytes layout) := Memory.Holds.offset holds
  have availableHere : ∀ i, (fun i => alloc (allocs + i)) i = true := fun _ => available _
  by_cases short : ∀ option ∈ record.options layout, option.value.length ≤ maxOptionValueSize
  · have full : record.size layout = tempPageSize := by
      by_contra other
      exact unreadable ⟨short, by omega⟩
    obtain ⟨options, parsed⟩ := parse_full availableHere regular short full holdsHere
    exact nvLoad_refused (by decide) parsed
  · obtain ⟨options, parsed⟩ := parse_long availableHere regular short within holdsHere
    exact nvLoad_refused (by decide) parsed

/-- Erased bytes end the loop. -/
theorem nvLoad_erased (erased : page pRawPage = 0xFF) :
    nvLoadLoop alloc layout behind origin page (fuel + 1) allocs ref (some pRawPage) [] resources = some resources := by
  have parsed : parseOptionsFromRaw (fun i => alloc (allocs + i)) (page.offset pRawPage) tempPageSize =
      some (.parseMessageFormatError, [], none) := by
    rw [parseOptionsFromRaw, if_neg (by decide), if_pos (by simpa using erased)]
  exact nvLoad_refused (by decide) parsed

end

/-! ## Counting -/

/-- How many observers there are. -/
def count (contents : List (List Content)) : Nat := (contents.map List.length).sum

theorem count_attach {contents : List (List Content)} {index : Nat} (inside : index < contents.length)
    (content : Content) : count (attach contents index content) = count contents + 1 := by
  obtain ⟨front, before, rest, rfl, rfl⟩ : ∃ front before rest, contents = front ++ before :: rest ∧
      front.length = index :=
    ⟨contents.take index, contents[index], contents.drop (index + 1), by simp, by simp; omega⟩
  rw [attach_at]
  simp [count]
  omega

theorem length_attach (contents : List (List Content)) (index : Nat) (content : Content) :
    (attach contents index content).length = contents.length := by
  rw [attach, List.length_modify]

/-- One place is told from the other. -/
theorem attach_inj {contents : List (List Content)} {left right : Nat} (insideLeft : left < contents.length)
    {first second : Content} (same : attach contents left first = attach contents right second) :
    left = right ∧ first = second := by
  have here := congrArg (fun contents => contents[left]?) same
  simp only [attach, List.getElem?_modify, List.getElem?_eq_getElem insideLeft] at here
  by_cases equal : right = left
  · simp [equal] at here
    exact ⟨equal.symm, here⟩
  · simp [equal] at here

/-- The records of a list, each at the place of its resource. -/
def attachAll (contents : List (List Content)) (records : List SavedRecord) : List (List Content) :=
  records.foldl (fun contents record => attach contents record.index record.observer.content) contents

theorem attachAll_grows (contents : List (List Content)) (records : List SavedRecord) :
    List.Forall₂ (· <+: ·) contents (attachAll contents records) := by
  induction records generalizing contents with
  | nil => exact List.forall₂_same.mpr fun other _ => List.prefix_refl other
  | cons record records inductionHypothesis => exact grows_trans (attach_grows ..) (inductionHypothesis _)

theorem count_attachAll {contents : List (List Content)} {records : List SavedRecord}
    (inside : ∀ record ∈ records, record.index < contents.length) :
    count (attachAll contents records) = count contents + records.length := by
  induction records generalizing contents with
  | nil => rfl
  | cons record records inductionHypothesis =>
    have insideRest : ∀ other ∈ records,
        other.index < (attach contents record.index record.observer.content).length := by
      intro other member
      rw [length_attach]
      exact inside other (List.mem_cons_of_mem _ member)
    rw [attachAll, List.foldl_cons, ← attachAll, inductionHypothesis insideRest,
      count_attach (inside record (List.mem_cons_self ..)), List.length_cons]
    omega

/-- What stands first in a list that was empty stays first. -/
theorem first_attached {length index : Nat} (inside : index < length) {content other : Content}
    {grown : List (List Content)}
    (left : List.Forall₂ (· <+: ·) (attach (List.replicate length []) index content) grown)
    (right : List.Forall₂ (· <+: ·) (attach (List.replicate length []) index other) grown) : content = other := by
  have starts : ∀ content, List.Forall₂ (· <+: ·) (attach (List.replicate length []) index content) grown →
      ∃ list, grown[index]? = some list ∧ [content] <+: list := by
    intro content grows
    clear left right
    induction index generalizing length grown with
    | zero =>
      cases length with
      | zero => exact absurd inside (Nat.lt_irrefl 0)
      | succ length =>
        cases grows with
        | cons starts _ => exact ⟨_, rfl, starts⟩
    | succ index inductionHypothesis =>
      cases length with
      | zero => exact absurd inside (Nat.not_lt_zero _)
      | succ length =>
        cases grows with
        | cons _ rest => exact inductionHypothesis (Nat.lt_of_succ_lt_succ inside) rest
  obtain ⟨list, found, leftStarts⟩ := starts content left
  obtain ⟨same, foundSame, rightStarts⟩ := starts other right
  rw [found] at foundSame
  cases foundSame
  obtain ⟨leftRest, rfl⟩ := leftStarts
  obtain ⟨rightRest, equal⟩ := rightStarts
  simp at equal
  exact equal.1.symm

/-! ## The restored observers -/

/-- The resources have different paths, their URIs and their observers have the options they are made with, and the
records fit the page. -/
structure Savable (layout : NetEpLayout) (resources : List CoapResource) : Prop where
  paths : (resources.map fun resource => uriPath resource.uri).Nodup
  regular : ∀ record ∈ savedRecords 0 resources, record.Regular
  room : pageBytes layout (savedRecords 0 resources) ≤ tempPageSize

/-- Loading after saving gives each resource the observers it had, in their order. -/
def Restores (alloc : Nat → Bool) (layout : NetEpLayout) (behind : Memory) (ref : Nat) (origin : NetPacket)
    (tempPage : Memory) (resources : List CoapResource) : Prop :=
  ∃ loaded, nvLoadObservers alloc layout behind ref origin (nvSaveObservers alloc layout tempPage resources).stored
    (withoutObservers resources) = some loaded ∧ contents loaded = contents resources

/-- A record that the parser takes, that leads to its resource and that has nothing else for the observer. -/
structure SavedRecord.Restorable (layout : NetEpLayout) (resources : List CoapResource) (record : SavedRecord) :
    Prop where
  readable : record.Readable layout
  plain : ∀ option ∈ record.uri, option.number = optNumUriPath
  located : ∀ resource, resources[record.index]? = some resource → uriPath record.uri = uriPath resource.uri

/-- There are at most two observers, and both records are restorable. -/
structure Storable (layout : NetEpLayout) (resources : List CoapResource) : Prop where
  two : (savedRecords 0 resources).length ≤ 2
  restorable : ∀ record ∈ savedRecords 0 resources, record.Restorable layout resources

section
variable {alloc : Nat → Bool} {layout : NetEpLayout} {behind : Memory} {origin : NetPacket} {ref : Nat}
  {resources : List CoapResource}

/-- A record that leads to its resource does so while others are filled. -/
theorem find_restorable (savable : Savable layout resources) {record : SavedRecord}
    (member : record ∈ savedRecords 0 resources) (restorable : record.Restorable layout resources)
    {others : List CoapResource} (uris : others.map CoapResource.uri = resources.map CoapResource.uri) :
    findResourceByUri others (record.options layout) = some record.index := by
  obtain ⟨resource, located⟩ := savedRecords_located member
  rw [findResourceByUri_uris, uris, ← findResourceByUri_uris]
  apply find_path savable.paths located
  rw [uriPath_record (savable.regular record member), restorable.located resource located]

theorem restores_of_storable (available : ∀ i, alloc i = true) (savable : Savable layout resources)
    (storable : Storable layout resources) (tempPage : Memory) :
    Restores alloc layout behind ref origin tempPage resources := by
  have regular := savable.regular
  have room := savable.room
  have restorable := storable.restorable
  have found : ∀ record ∈ savedRecords 0 resources, ∀ others : List CoapResource,
      others.map CoapResource.uri = resources.map CoapResource.uri →
      findResourceByUri others (record.options layout) = some record.index :=
    fun record member _ uris => find_restorable savable member (restorable record member) uris
  rw [Restores, nvSaveObservers_eq, nvLoadObservers, contents_records, tempPageSize]
  have two := storable.two
  have start : (TempPage.mk tempPage 0 0 0).pTempPage = 0 := rfl
  have empty : (TempPage.mk tempPage 0 0 0).totalPageBytes.toNat = 0 := rfl
  -- no record, one, or two: a third would not be read
  cases records : savedRecords 0 resources with
  | nil =>
    rw [records] at regular room
    refine ⟨_, nvLoad_erased (stored_behind available regular empty room (Nat.le_refl 0)), ?_⟩
    rw [contents_withoutObservers, List.foldl_nil]
  | cons first rest =>
    cases rest with
    | nil =>
      rw [records] at regular room restorable found
      have firstHere : first ∈ [first] := List.mem_singleton_self _
      obtain ⟨observer, allocs, turn, content⟩ := nvLoad_record 2047 0 ref available (regular first firstHere)
        (restorable first firstHere).readable (stored_first available regular start empty room)
        (found first firstHere _ (uris_withoutObservers resources))
      refine ⟨_, turn.trans (nvLoad_erased (stored_behind available regular empty room ?_)), ?_⟩
      · exact (Nat.zero_add _).symm.le
      · rw [contents_append, contents_withoutObservers, content.mpr (restorable first firstHere).plain]
        rfl
    | cons second rest =>
      cases rest with
      | nil =>
        rw [records] at regular room restorable found
        have firstHere : first ∈ [first, second] := List.mem_cons_self ..
        have secondHere : second ∈ [first, second] := List.mem_cons_of_mem _ (List.mem_singleton_self _)
        obtain ⟨observer, allocs, turn, content⟩ := nvLoad_record 2047 0 ref available (regular first firstHere)
          (restorable first firstHere).readable (stored_first available regular start empty room)
          (found first firstHere _ (uris_withoutObservers resources))
        rw [Nat.zero_add] at turn
        obtain ⟨other, allocsOther, turnOther, contentOther⟩ := nvLoad_record 2046 allocs (ref + 1) available
          (regular second secondHere) (restorable second secondHere).readable (stored_second available regular start empty room).1
          (found second secondHere _ ((uris_append _ _ _).trans (uris_withoutObservers resources)))
        refine ⟨_, turn.trans (turnOther.trans (nvLoad_erased (stored_behind available regular empty room ?_))), ?_⟩
        · exact (Nat.add_zero _).le
        · rw [contents_append, contents_append, contents_withoutObservers,
            content.mpr (restorable first firstHere).plain, contentOther.mpr (restorable second secondHere).plain]
          rfl
      | cons third rest =>
        rw [records] at two
        simp at two

/-- What was attached is found among the observers in the end. -/
theorem mem_grown {grown contents : List (List Content)} {index : Nat} {content : Content}
    (inside : index < contents.length) (grows : List.Forall₂ (· <+: ·) (attach contents index content) grown) :
    ∃ list ∈ grown, content ∈ list := by
  induction contents generalizing index grown with
  | nil => exact absurd inside (Nat.not_lt_zero _)
  | cons head rest inductionHypothesis =>
    cases index with
    | zero =>
      cases grows with
      | cons starts _ => exact ⟨_, List.mem_cons_self .., starts.subset (by simp)⟩
    | succ index =>
      cases grows with
      | cons _ restGrows =>
        obtain ⟨list, member, own⟩ := inductionHypothesis (Nat.lt_of_succ_lt_succ inside) restGrows
        exact ⟨list, List.mem_cons_of_mem _ member, own⟩

/-- A record that was written is used, or nothing is loaded from it on. -/
theorem nvLoad_written {page : Memory} {record : SavedRecord} {fuel allocs pRawPage : Nat}
    {loaded : List CoapResource} (available : ∀ i, alloc i = true) (regular : record.Regular)
    (within : record.size layout ≤ tempPageSize) (holds : page.Holds pRawPage (record.bytes layout))
    (result : nvLoadLoop alloc layout behind origin page (fuel + 1) allocs ref (some pRawPage) [] resources =
      some loaded) :
    loaded = resources ∨ record.Readable layout ∧ ∃ index observer allocsNext,
      findResourceByUri resources (record.options layout) = some index ∧
      nvLoadLoop alloc layout behind origin page fuel allocsNext (ref + 1) (some (pRawPage + record.size layout)) []
        (resources.modify index fun resource => resource.appendObserver observer) = some loaded ∧
      (observer.content = record.observer.content ↔ ∀ option ∈ record.uri, option.number = optNumUriPath) := by
  by_cases readable : record.Readable layout
  · cases found : findResourceByUri resources (record.options layout) with
    | none =>
      have parsed : parseOptionsFromRaw (fun i => alloc (allocs + i)) (page.offset pRawPage) tempPageSize = _ :=
        parse_readable (fun _ => available _) regular readable (Memory.Holds.offset holds)
      exact Or.inl (nvLoad_unknown parsed options_ne_nil found result)
    | some index =>
      obtain ⟨observer, allocsNext, turn, content⟩ := @nvLoad_record alloc layout behind origin page record pRawPage index
        resources fuel allocs ref available regular readable holds found
      exact Or.inr ⟨readable, index, observer, allocsNext, rfl, turn ▸ result, content⟩
  · rw [nvLoad_unreadable available regular readable within holds] at result
    exact Or.inl (Option.some.inj result).symm

/-- From a byte that is zero no observer with saved options is made. -/
theorem nvLoad_zero {page : Memory} {fuel allocs pRawPage : Nat} {loaded : List CoapResource}
    (available : ∀ i, alloc i = true) (zero : page pRawPage = 0)
    (result : nvLoadLoop alloc layout behind origin page (fuel + 1) allocs ref (some pRawPage) [] resources =
      some loaded) :
    loaded = resources ∨ ∃ list ∈ contents loaded, ∃ content ∈ list, ⟨0, []⟩ ∈ content.2.2.2 := by
  have availableHere : ∀ i, (fun i => alloc (allocs + i)) i = true := fun _ => available _
  cases parsed : parseOptionsFromRaw (fun i => alloc (allocs + i)) (page.offset pRawPage) tempPageSize with
  | none =>
    rw [nvLoadLoop, if_neg (not_not.mpr rfl), parsed] at result
    cases result
  | some answer =>
    obtain ⟨success, options, payload⟩ := answer
    -- an option with number 0 is no path, so it ends up among those of the observer
    by_cases ok : success = .ok
    · subst ok
      have member : ⟨0, []⟩ ∈ options := parse_zero availableHere zero parsed
      cases found : findResourceByUri resources options with
      | none => exact Or.inl (nvLoad_unknown parsed (List.ne_nil_of_mem member) found result)
      | some index =>
        obtain ⟨resource, located, _⟩ := find_some found
        rw [nvLoad_found available parsed found] at result
        have grown := nvLoadLoop_grows result
        rw [contents_append] at grown
        have inside : index < (contents resources).length := by
          rw [contents, List.length_map]
          exact (List.getElem?_eq_some_iff.mp located).1
        obtain ⟨list, listed, own⟩ := mem_grown inside grown
        refine Or.inr ⟨list, listed, _, own, ?_⟩
        exact mem_restored behind options _ available rfl (Nat.zero_le _) (Or.inl member)
    · rw [nvLoad_refused ok parsed] at result
      exact Or.inl (Option.some.inj result).symm

/-- No saved observer has an option of number zero. -/
theorem no_zero (savable : Savable layout resources) :
    ¬ ∃ list ∈ contents resources, ∃ content ∈ list, ⟨0, []⟩ ∈ content.2.2.2 := by
  rintro ⟨list, listed, content, own, member⟩
  obtain ⟨resource, inside, rfl⟩ := List.mem_map.mp listed
  obtain ⟨observer, observed, rfl⟩ := List.mem_map.mp own
  obtain ⟨record, saved, rfl⟩ := savedRecords_observer inside observed 0
  rcases ((savable.regular record saved).options _ member).1 with number | number <;> cases number

theorem index_records {record : SavedRecord} (member : record ∈ savedRecords 0 resources) :
    record.index < resources.length := by
  obtain ⟨resource, found⟩ := savedRecords_located member
  exact (List.getElem?_eq_some_iff.mp found).1

theorem count_records (resources : List CoapResource) :
    count (contents resources) = (savedRecords 0 resources).length := by
  have inside : ∀ record ∈ savedRecords 0 resources,
      record.index < (List.replicate resources.length ([] : List Content)).length := by
    intro record member
    rw [List.length_replicate]
    exact index_records member
  rw [contents_records, ← attachAll, count_attachAll inside]
  simp [count]

theorem count_first {first : SavedRecord} (inside : first.index < resources.length) :
    count (attach (List.replicate resources.length []) first.index first.observer.content) = 1 := by
  rw [count_attach (by simpa using inside)]
  simp [count]

section
variable {page : Memory} {fuel allocs pRawPage : Nat} {loaded filled : List CoapResource} {first second : SavedRecord}
  {others : List SavedRecord}

/-- Where everything comes back the first record is restorable, and its observer is the first to be there. -/
theorem first_restorable (available : ∀ i, alloc i = true) (savable : Savable layout resources)
    (records : savedRecords 0 resources = first :: others) (holds : page.Holds pRawPage (first.bytes layout))
    (result : nvLoadLoop alloc layout behind origin page (fuel + 1) allocs ref (some pRawPage) []
      (withoutObservers resources) = some loaded) (same : contents loaded = contents resources) :
    first.Restorable layout resources ∧ ∃ observer allocsNext,
      nvLoadLoop alloc layout behind origin page fuel allocsNext (ref + 1) (some (pRawPage + first.size layout)) []
        ((withoutObservers resources).modify first.index fun resource => resource.appendObserver observer) =
          some loaded ∧ observer.content = first.observer.content := by
  have here : first ∈ savedRecords 0 resources := records ▸ List.mem_cons_self ..
  have regular := savable.regular first here
  have room := savable.room
  obtain ⟨resource, located, uri⟩ := savedRecords_first records
  have own : findResourceByUri (withoutObservers resources) (first.options layout) = some first.index := by
    rw [findResourceByUri_uris, uris_withoutObservers, ← findResourceByUri_uris]
    apply find_path savable.paths located
    rw [uriPath_record regular, uri]
  rw [records, pageBytes_cons] at room
  rcases nvLoad_written available regular (by omega) holds result with
    nothing | ⟨readable, index, observer, allocsNext, found, result, plain⟩
  · -- no observer is loaded
    have total := count_records resources
    rw [← same, nothing, contents_withoutObservers, records] at total
    simp [count] at total
  rw [own] at found
  obtain rfl := Option.some.inj found
  have grown := nvLoadLoop_grows result
  rw [contents_append, contents_withoutObservers, same, contents_records, ← attachAll, records] at grown
  have content : observer.content = first.observer.content :=
    first_attached (index_records here) grown (attachAll_grows _ others)
  refine ⟨⟨readable, plain.mp content, fun other otherLocated => ?_⟩, observer, allocsNext, result, content⟩
  rw [located] at otherLocated
  rw [uri, Option.some.inj otherLocated]

/-- Behind the first observer the second record is used. -/
theorem second_loaded (available : ∀ i, alloc i = true) (savable : Savable layout resources)
    (records : savedRecords 0 resources = first :: second :: others)
    (one : contents filled = attach (List.replicate resources.length []) first.index first.observer.content)
    (holds : page.Holds pRawPage (second.bytes layout))
    (result : nvLoadLoop alloc layout behind origin page (fuel + 1) allocs ref (some pRawPage) [] filled = some loaded)
    (same : contents loaded = contents resources) :
    second.Readable layout ∧ ∃ index observer allocsNext,
      findResourceByUri filled (second.options layout) = some index ∧
      nvLoadLoop alloc layout behind origin page fuel allocsNext (ref + 1) (some (pRawPage + second.size layout)) []
        (filled.modify index fun resource => resource.appendObserver observer) = some loaded ∧
      (observer.content = second.observer.content ↔ ∀ option ∈ second.uri, option.number = optNumUriPath) := by
  have here : second ∈ savedRecords 0 resources := by simp [records]
  have firstHere : first ∈ savedRecords 0 resources := by simp [records]
  have room := savable.room
  rw [records, pageBytes_cons, pageBytes_cons] at room
  rcases nvLoad_written available (savable.regular second here) (by omega) holds result with nothing | used
  · -- the first is all that is loaded
    have total := count_records resources
    rw [← same, nothing, one, count_first (index_records firstHere), records] at total
    simp at total
  · exact used

/-- The second record of two is restorable as well. -/
theorem second_restorable (available : ∀ i, alloc i = true) (savable : Savable layout resources)
    (records : savedRecords 0 resources = [first, second])
    (one : contents filled = attach (List.replicate resources.length []) first.index first.observer.content)
    (uris : filled.map CoapResource.uri = resources.map CoapResource.uri)
    (holds : page.Holds pRawPage (second.bytes layout)) (erased : page (pRawPage + second.size layout) = 0xFF)
    (result : nvLoadLoop alloc layout behind origin page (fuel + 2) allocs ref (some pRawPage) [] filled = some loaded)
    (same : contents loaded = contents resources) : second.Restorable layout resources := by
  have here : second ∈ savedRecords 0 resources := by simp [records]
  obtain ⟨readable, index, observer, allocsNext, found, result, plain⟩ :=
    second_loaded available savable records one holds result same
  obtain ⟨resource, located, path⟩ := find_some found
  have inside : index < (contents filled).length := by
    rw [contents, List.length_map]
    exact (List.getElem?_eq_some_iff.mp located).1
  rw [nvLoad_erased erased] at result
  obtain rfl := Option.some.inj result
  have both : contents resources = attach (contents filled) second.index second.observer.content := by
    rw [contents_records, records, one]
    rfl
  rw [contents_append, both] at same
  obtain ⟨rfl, content⟩ := attach_inj inside same
  refine ⟨readable, plain.mp content, fun owner ownerLocated => ?_⟩
  have uri := congrArg (·[second.index]?) uris
  simp only [List.getElem?_map, located, ownerLocated, Option.map_some, Option.some.injEq] at uri
  rw [← uri, path, uriPath_record (savable.regular second here)]

/-- A third record is farther behind than the loader looks. -/
theorem third_lost {third : SavedRecord} (available : ∀ i, alloc i = true) (savable : Savable layout resources)
    (records : savedRecords 0 resources = first :: second :: third :: others)
    (one : contents filled = attach (List.replicate resources.length []) first.index first.observer.content)
    (holds : page.Holds pRawPage (second.bytes layout)) (zero : page (pRawPage + second.size layout) = 0)
    (result : nvLoadLoop alloc layout behind origin page (fuel + 2) allocs ref (some pRawPage) [] filled = some loaded)
    (same : contents loaded = contents resources) : False := by
  have firstHere : first ∈ savedRecords 0 resources := by simp [records]
  obtain ⟨_, index, observer, allocsNext, found, result, _⟩ :=
    second_loaded available savable records one holds result same
  obtain ⟨resource, located, _⟩ := find_some found
  have inside : index < (contents filled).length := by
    rw [contents, List.length_map]
    exact (List.getElem?_eq_some_iff.mp located).1
  rcases nvLoad_zero available zero result with nothing | wrong
  · -- the first two are all that is loaded
    have total := count_records resources
    rw [← same, nothing, contents_append, count_attach inside, one, count_first (index_records firstHere),
      records] at total
    simp at total
  · rw [same] at wrong
    exact no_zero savable wrong

end

theorem storable_of_restores (available : ∀ i, alloc i = true) (savable : Savable layout resources)
    (restores : Restores alloc layout behind ref origin (fun _ => 0) resources) : Storable layout resources := by
  have regular := savable.regular
  have room := savable.room
  have start : (TempPage.mk (fun _ => 0) 0 0 0).pTempPage = 0 := rfl
  have empty : (TempPage.mk (fun _ => 0) 0 0 0).totalPageBytes.toNat = 0 := rfl
  obtain ⟨loaded, result, same⟩ := restores
  rw [nvSaveObservers_eq, nvLoadObservers, tempPageSize] at result
  cases records : savedRecords 0 resources with
  | nil => exact ⟨by simp [records], by simp [records]⟩
  | cons first rest =>
    rw [records] at regular room result
    obtain ⟨firstRestorable, observer, allocs, result, content⟩ := first_restorable available savable records
      (stored_first available regular start empty room) result same
    cases rest with
    | nil => exact ⟨by simp [records], by simpa [records] using firstRestorable⟩
    | cons second others =>
      have one : contents ((withoutObservers resources).modify first.index fun resource =>
          resource.appendObserver observer) =
            attach (List.replicate resources.length []) first.index first.observer.content := by
        rw [contents_append, contents_withoutObservers, content]
      have secondHolds := stored_second available regular start empty room
      rw [Nat.zero_add] at result
      cases others with
      | nil =>
        have secondRestorable := second_restorable available savable records one
          ((uris_append _ first.index observer).trans (uris_withoutObservers resources)) secondHolds.1
          (stored_behind available regular empty room (Nat.add_zero _).le) result same
        exact ⟨by simp [records], by simpa [records] using ⟨firstRestorable, secondRestorable⟩⟩
      | cons third more =>
        have firstSize : 1 ≤ first.size layout := Nat.le_add_left ..
        have thirdSize : 1 ≤ third.size layout := Nat.le_add_left ..
        have zero := secondHolds.2 _ (Nat.le_refl _) (by simp only [pageBytes_cons]; omega) (by omega)
        exact (third_lost available savable records one secondHolds.1 zero result same).elim

/-- What is saved comes back from any page, and from the one that the program starts with, where at most two observers
are saved and the parser takes both records and leads them to their resources. -/
theorem nvLoadObservers_restores_iff (available : ∀ i, alloc i = true) (savable : Savable layout resources) :
    ((∀ tempPage, Restores alloc layout behind ref origin tempPage resources) ↔ Storable layout resources) ∧
      (Restores alloc layout behind ref origin (fun _ => 0) resources ↔ Storable layout resources) := by
  have enough : Storable layout resources → ∀ tempPage, Restores alloc layout behind ref origin tempPage resources :=
    fun storable tempPage => restores_of_storable available savable storable tempPage
  have needed : Restores alloc layout behind ref origin (fun _ => 0) resources → Storable layout resources :=
    storable_of_restores available savable
  exact ⟨⟨fun restores => needed (restores _), enough⟩, needed, fun storable => enough storable _⟩

end

/-! ## One resource -/

/-- An observer at an unspecified IPv4 address, with an Observe option. -/
def clockObserver (netPort : UInt16) (token : UInt64) : CoapObserver :=
  let ep : NetEp := ⟨.ipv4, List.replicate 16 0, netPort, rfl⟩
  { ref := 0, ep, ifID := 0, token, options := [⟨optNumObserve, []⟩], origin := ⟨0, fun _ => 0, 0, ep, .none⟩ }

/-- The resource `clock` with some observers. -/
def clockResource (observers : List CoapObserver) : CoapResource :=
  { updateCnt := 0, flags := 0, uri := [⟨optNumUriPath, [99, 108, 111, 99, 107]⟩], observers, handler := true,
    notifier := true }

theorem clock_savable {observers : List CoapObserver}
    (room : pageBytes netEpLayout (savedRecords 0 [clockResource observers]) ≤ tempPageSize)
    (observing : ∀ observer ∈ observers, observer.options = [⟨optNumObserve, []⟩]) :
    Savable netEpLayout [clockResource observers] := by
  have uri : ∀ option ∈ (clockResource observers).uri,
      (option.number = optNumUriPath ∨ option.number = optNumUriQuery) ∧ option.value.length ≤ 65535 := by
    intro option member
    rw [List.mem_singleton.mp member]
    exact ⟨Or.inl rfl, Nat.le_of_ble_eq_true rfl⟩
  refine ⟨List.nodup_singleton _, ?_, room⟩
  intro record saved
  -- only the first record of a resource has its path
  have own : (record.uri = (clockResource observers).uri ∨ record.uri = []) ∧ record.observer ∈ observers := by
    simp only [savedRecords, clockResource, List.append_nil] at saved
    cases observers with
    | nil => cases saved
    | cons first others =>
      rcases List.mem_cons.mp saved with rfl | later
      · exact ⟨Or.inl rfl, List.mem_cons_self ..⟩
      · obtain ⟨observer, member, rfl⟩ := List.mem_map.mp later
        exact ⟨Or.inr rfl, List.mem_cons_of_mem _ member⟩
  have options := observing record.observer own.2
  constructor
  · rcases own.1 with full | empty
    · rw [full]
      exact uri
    · simp [empty]
  · rcases own.1 with full | empty
    · rw [full]
      exact List.pairwise_singleton ..
    · simp [empty]
  · simp [options]
  · simp [options]

/-- One observer comes back. -/
theorem nvLoadObservers_restores_clock : Restores (fun _ => true) netEpLayout (fun _ => 0) 1
    (clockObserver 5683 7).origin (fun _ => 0) [clockResource [clockObserver 5683 7]] := by
  have savable : Savable netEpLayout [clockResource [clockObserver 5683 7]] :=
    clock_savable (by decide) (by simp [clockObserver])
  apply (nvLoadObservers_restores_iff (fun _ => rfl) savable).2.mpr
  refine ⟨by decide, ?_⟩
  intro record saved
  obtain rfl := List.mem_singleton.mp saved
  constructor
  · exact ⟨by decide, by decide⟩
  · intro option member
    rw [List.mem_singleton.mp member]
  · intro resource located
    obtain rfl := Option.some.inj located
    rfl

/-- Of two observers of one resource the second does not, since its record has no path. -/
theorem nvLoadObservers_loses_second :
    Savable netEpLayout [clockResource [clockObserver 5683 7, clockObserver 5684 8]] ∧
      ¬ Restores (fun _ => true) netEpLayout (fun _ => 0) 1 (clockObserver 5683 7).origin (fun _ => 0)
        [clockResource [clockObserver 5683 7, clockObserver 5684 8]] := by
  have savable : Savable netEpLayout [clockResource [clockObserver 5683 7, clockObserver 5684 8]] :=
    clock_savable (by decide) (by simp [clockObserver])
  refine ⟨savable, ?_⟩
  intro restores
  have storable := storable_of_restores (fun _ => rfl) savable restores
  have saved : ⟨0, [], clockObserver 5684 8⟩ ∈
      savedRecords 0 [clockResource [clockObserver 5683 7, clockObserver 5684 8]] := by
    simp [savedRecords, clockResource]
  cases (storable.restorable _ saved).located _ rfl

end SmingCoap.Server
