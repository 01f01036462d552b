import SmingCoap.Server.DividedStore

/-! # Option lists on the allocator

`Shared` is a message's option list on the bytes of memory, beside everything
else that the stack keeps there.  Whatever is appended, removed and freed, and
whatever the others do in between, the list holds the options that a plain list
would hold, and the others find what they wrote.  An append that fails loses the
list if the option would have come first: those nodes are never released.
-/

namespace SmingCoap.Server.Bget

open Wire (Memory Opt int16 int16_eq)
open LinkedList (Segment)
open Ownership (Buffer Store)
open Transition (Run)

/-! ## One message -/

/-- The memory with one option list in it, and what there should be: the options of the list, how many were lost, and
the buffers of the others. -/
structure Shared where
  allocator : Allocator
  start : Option Nat
  options : List Opt
  lost : Nat
  store : Store

inductive ShareCall where
  | append (option : Opt)
  /-- The option at some place of the list, if there is one. -/
  | remove (index : Nat)
  | free
  | other (call : MemCall)

/-- The node at some place of a list. -/
def nodeAt (memory : Memory) : Nat → Option Nat → Option Nat
  | _, none => none
  | 0, some pOption => some pOption
  | index + 1, some pOption => nodeAt memory index (loadPointer memory pOption)

/-- The options that are read off a list. -/
def readOptions (memory : Memory) : Nat → Option Nat → Option (List Opt)
  | 0, _ => none
  | _ + 1, none => some []
  | fuel + 1, some pOption =>
    (readOptions memory fuel (loadPointer memory pOption)).map ((readOption memory pOption).entry :: ·)

namespace Shared

def list (shared : Shared) : OptionHeap := ⟨shared.allocator, shared.start⟩

def step (freelist fuel : Nat) (shared : Shared) : ShareCall → Option Shared
  | .append option => (shared.list.appendOptionToList freelist fuel option).map fun (result, list) =>
    let options := (Server.appendOptionToList (decide (result = .ok)) shared.options option).2
    { shared with
      allocator := list.allocator, start := list.start, options
      lost := shared.lost + (shared.options.length - options.length) }
  | .remove index =>
    let pOption := nodeAt shared.allocator.memory index shared.start
    (shared.list.removeOptionFromList freelist fuel pOption).map fun (_, list) =>
      { shared with
        allocator := list.allocator, start := list.start, options := shared.options.eraseIdx index }
  | .free => (shared.list.freeOptionList freelist fuel).map fun (_, list) =>
    { shared with allocator := list.allocator, start := list.start, options := [] }
  | .other call => (Tracked.step freelist fuel ⟨shared.allocator, shared.store⟩ call).map fun tracked =>
    { shared with allocator := tracked.allocator, store := tracked.store }

/-- An option fits in a buffer with its node, and its number in two bytes. -/
def Legal (shared : Shared) : ShareCall → Prop
  | .append option => option.number < 65536 ∧ option.value.length ≤ 32748
  | .remove _ => True
  | .free => True
  | .other call => Bget.Legal ⟨shared.allocator, shared.store⟩ call

/-- The nodes of the list lie in buffers of its own. -/
structure Sound (site : Site) (shared : Shared) (blocks : List Block) (ring : List Nat) (own : List (Nat × Nat))
    (heap : LinkedList.Heap Opt) (nodes : List (Nat × Opt)) : Prop where
  divided : Divided site shared.allocator shared.store own blocks ring
  carries : Carries own shared.allocator.memory heap
  lists : Segment heap shared.start nodes none
  options : nodes.map Prod.snd = shared.options
  count : own.length = shared.options.length + shared.lost

end Shared

/-! ## Reading -/

section
variable {own : List (Nat × Nat)} {memory : Memory} {heap : LinkedList.Heap Opt} {start : Option Nat}
  {nodes front behind : List (Nat × Opt)} {node : Nat × Opt} {fuel : Nat}

theorem Carries.next (carries : Carries own memory heap) {p : Nat} {found : LinkedList.Node Opt}
    (there : heap p = some found) : loadPointer memory p = found.next := by
  rw [← (carries p found there).1, readOption]

theorem readOptions_eq (carries : Carries own memory heap) (lists : Segment heap start nodes none)
    (enough : nodes.length < fuel) : readOptions memory fuel start = some (nodes.map Prod.snd) := by
  induction nodes generalizing start fuel with
  | nil =>
    obtain ⟨fuel, rfl⟩ := Nat.exists_eq_succ_of_ne_zero (Nat.ne_of_gt enough)
    obtain rfl : start = none := lists
    rfl
  | cons node rest inductionHypothesis =>
    obtain ⟨fuel, rfl⟩ := Nat.exists_eq_succ_of_ne_zero (Nat.ne_of_gt (Nat.zero_lt_of_lt enough))
    obtain ⟨rfl, next, found, later⟩ := lists
    rw [List.length_cons] at enough
    rw [readOptions, carries.next found, inductionHypothesis later (by omega), (carries _ _ found).1]
    rfl

theorem nodeAt_eq (carries : Carries own memory heap) (lists : Segment heap start (front ++ node :: behind) none) :
    nodeAt memory front.length start = some node.1 := by
  induction front generalizing start with
  | nil =>
    obtain ⟨rfl, _⟩ := lists
    rfl
  | cons first rest inductionHypothesis =>
    obtain ⟨rfl, next, found, later⟩ := lists
    rw [List.length_cons, nodeAt, carries.next found]
    exact inductionHypothesis later

theorem nodeAt_none (carries : Carries own memory heap) (lists : Segment heap start nodes none) {index : Nat}
    (beyond : nodes.length ≤ index) : nodeAt memory index start = none := by
  induction nodes generalizing start index with
  | nil =>
    obtain rfl : start = none := lists
    cases index <;> rfl
  | cons first rest inductionHypothesis =>
    obtain ⟨rfl, next, found, later⟩ := lists
    rw [List.length_cons] at beyond
    obtain ⟨index, rfl⟩ := Nat.exists_eq_succ_of_ne_zero (show index ≠ 0 by omega)
    rw [nodeAt, carries.next found]
    exact inductionHypothesis later (by omega)

end

/-! ## Appending -/

section
variable {site : Site} {shared : Shared} {blocks : List Block} {ring : List Nat} {own : List (Nat × Nat)}
  {heap : LinkedList.Heap Opt} {nodes : List (Nat × Opt)} {fuel : Nat}

/-- There are fewer buffers than blocks. -/
theorem Row.live_length (row : Row site blocks ring) : (liveBuffers site.base blocks).length < blocks.length := by
  obtain ⟨front, rfl, _⟩ := row.exists_front
  have places : ∀ base, (liveBuffers base front).length ≤ front.length := by
    intro base
    rw [liveBuffers]
    refine Nat.le_trans (List.length_filterMap_le ..) (Nat.le_of_eq ?_)
    rw [← List.length_map Prod.snd, Tiling.map_snd_place]
  rw [liveBuffers_append, List.length_append, List.length_append]
  have last : liveBuffers (site.base + Tiling.total Block.size front) [.dummy] = [] := rfl
  have within := places site.base
  rw [last, List.length_nil, List.length_singleton]
  omega

/-- The loops over the list have enough turns. -/
theorem Shared.Sound.enough (sound : shared.Sound site blocks ring own heap nodes) (enough : site.size < 12 * fuel) :
    nodes.length < fuel := by
  have row := sound.divided.ready.toPool.toRow
  have live := row.live_length
  have blocksEnough := (row.enough enough).2
  have owned := sound.divided.owned.length_eq
  have count := sound.count
  have options := congrArg List.length sound.options
  rw [List.length_map] at options
  rw [List.length_append] at owned
  clear row
  omega

theorem memGet_eq {freelist length : Nat} (short : length ≤ 32748) (allocator : Allocator) :
    OptionHeap.memGet freelist fuel length allocator = coapMemGet freelist fuel (12 + length : Nat) allocator := by
  have twelve : optionSize = 12 := rfl
  have request : int16 ((optionSize : Int) + length) = ((12 + length : Nat) : Int) := by
    rw [twelve, int16_eq (by omega) (by omega)]
    omega
  rw [OptionHeap.memGet, request]

theorem appendOptionToList_fst (available : Bool) (options : List Opt) (option : Opt) :
    (Server.appendOptionToList available options option).1 = if available then .ok else .errOutOfMemory := by
  cases available <;> rfl

/-- An option more, or as many or none. -/
theorem appendOptionToList_length (available : Bool) (options : List Opt) (option : Opt) :
    if available = true then (Server.appendOptionToList available options option).2.length = options.length + 1
    else (Server.appendOptionToList available options option).2.length ≤ options.length := by
  cases available with
  | false =>
    simp only [Server.appendOptionToList, Bool.false_eq_true, if_false]
    split <;> simp
  | true =>
    have split := congrArg List.length
      (List.takeWhile_append_dropWhile (p := fun other : Opt => decide (other.number ≤ option.number)) (l := options))
    rw [List.length_append] at split
    simp only [Server.appendOptionToList, if_true, List.length_append, List.length_cons]
    omega

/-- The list on pointers, with what the append got. -/
theorem Shared.Sound.appended (sound : shared.Sound site blocks ring own heap nodes) {option : Opt}
    (legal : option.number < 65536 ∧ option.value.length ≤ 32748) (enough : site.size < 12 * fuel)
    {got : Option Nat} {allocated : Allocator} {nextOwn : List (Nat × Nat)} {nextBlocks : List Block}
    {nextRing : List Nat}
    (obtained : OptionHeap.memGet site.freelist fuel option.value.length shared.allocator = some (got, allocated))
    (divided : Divided site allocated shared.store nextOwn nextBlocks nextRing)
    (kept : Carries nextOwn allocated.memory heap) (fresh : ∀ new ∈ got, heap new = none)
    (listed : ∀ new ∈ got, ∃ capacity, (new, capacity) ∈ nextOwn ∧ optionSize + option.value.length ≤ capacity)
    (length : nextOwn.length = own.length + if got.isSome then 1 else 0) :
    ∃ after blocks ring heap nodes, shared.step site.freelist fuel (.append option) = some after ∧
      after.Sound site blocks ring nextOwn heap nodes ∧ after.store = shared.store := by
  have short : option.value.length < 65536 := by omega
  have lists : (OptionMemory.mk heap shared.start).Lists nodes := sound.lists
  have start : shared.list.start = (OptionMemory.mk heap shared.start).start := rfl
  have agree : ∀ p node, heap p = some node → readOption shared.list.allocator.memory p = node :=
    fun p node found => (sound.carries p node found).1
  obtain ⟨code, pointers, after, result, listsAfter, same⟩ :=
    OptionMemory.appendOptionToList_refines lists (sound.enough enough) option got fresh
  obtain ⟨final, performed, edits⟩ := appendOptionToList_simulates start agree obtained result
  obtain ⟨carries, outside⟩ := edits.carries kept divided.places legal.1 short listed
  rw [sound.options] at same
  have codeEq : code = (Server.appendOptionToList got.isSome shared.options option).1 := congrArg Prod.fst same
  have optionsEq : after.map Prod.snd = (Server.appendOptionToList got.isSome shared.options option).2 :=
    congrArg Prod.snd same
  have available : decide (code = .ok) = got.isSome := by
    rw [codeEq, appendOptionToList_fst]
    cases got <;> rfl
  refine ⟨_, nextBlocks, nextRing, pointers.heap, after, Option.map_eq_some_iff.mpr ⟨_, performed, rfl⟩,
    ⟨divided.update outside, carries, listsAfter, ?_, ?_⟩, rfl⟩
  · simp only [available]
    exact optionsEq
  · simp only [available, length, sound.count]
    have sizes := appendOptionToList_length got.isSome shared.options option
    clear enough legal short sound
    split at sizes
    next some =>
      rw [if_pos some]
      omega
    next none =>
      rw [if_neg none]
      omega

/-- Some nodes and some blocks fit. -/
def Shared.Steady (site : Site) (shared : Shared) : Prop :=
  ∃ blocks ring own heap nodes, shared.Sound site blocks ring own heap nodes

theorem Shared.Sound.append (sound : shared.Sound site blocks ring own heap nodes) {option : Opt}
    (legal : option.number < 65536 ∧ option.value.length ≤ 32748) (enough : site.size < 12 * fuel) :
    ∃ after, shared.step site.freelist fuel (.append option) = some after ∧ after.Steady site := by
  have twelve : optionSize = 12 := rfl
  have request : OptionHeap.memGet site.freelist fuel option.value.length shared.allocator =
      coapMemGet site.freelist fuel (12 + option.value.length : Nat) shared.allocator := memGet_eq legal.2 _
  have positive : (0 : Int) < (12 + option.value.length : Nat) := by omega
  rcases sound.divided.get positive (by omega) enough with
    refused | ⟨new, capacity, nextBlocks, nextRing, allocated, obtained, large, divided, kept, apart⟩
  · rw [refused] at request
    obtain ⟨after, _, _, _, _, performed, soundAfter, _⟩ := sound.appended legal enough request sound.divided sound.carries
      (by simp) (by simp) rfl
    exact ⟨after, performed, _, _, _, _, _, soundAfter⟩
  · rw [obtained] at request
    have carried : Carries ((new, capacity) :: own) allocated.memory heap :=
      sound.carries.congr fun p size node found listed => ⟨List.mem_cons_of_mem _ listed, kept _ listed⟩
    have fresh : heap new = none := by
      cases there : heap new with
      | none => rfl
      | some node =>
        obtain ⟨_, _, size, listed, _⟩ := sound.carries new node there
        exact absurd rfl (apart _ listed)
    obtain ⟨after, _, _, _, _, performed, soundAfter, _⟩ := sound.appended legal enough request divided carried
      (by simpa using fresh) (fun other same => by
        cases same
        exact ⟨capacity, List.mem_cons_self, by omega⟩) rfl
    exact ⟨after, performed, _, _, _, _, _, soundAfter⟩

/-! ## Removing -/

/-- A node is released. -/
theorem Carries.release {allocator : Allocator} {store : Store} (carries : Carries own allocator.memory heap)
    (divided : Divided site allocator store own blocks ring) {p : Nat} {node : LinkedList.Node Opt}
    (found : heap p = some node) (enough : site.size < 12 * fuel) :
    ∃ after blocks ring left, brel site.freelist p allocator = some after ∧ Divided site after store left blocks ring ∧
      Carries left after.memory (heap.free p) ∧ left.length + 1 = own.length := by
  obtain ⟨_, _, capacity, listed, _⟩ := carries p node found
  obtain ⟨nextBlocks, nextRing, after, released, dividedAfter, length, kept⟩ := divided.release listed enough
  refine ⟨after, nextBlocks, nextRing, _, released, dividedAfter, ?_, length⟩
  have others : Carries own allocator.memory (heap.free p) := by
    intro q other there
    by_cases same : q = p
    · rw [same, LinkedList.Heap.free_same] at there
      cases there
    · rw [LinkedList.Heap.free_other _ same] at there
      exact carries q other there
  refine others.congr fun q size other there member => ?_
  have different : q ≠ p := by
    rintro rfl
    rw [LinkedList.Heap.free_same] at there
    cases there
  exact ⟨List.mem_filter.mpr ⟨member, decide_eq_true different⟩, kept _ member different⟩

/-- A node is linked out and released. -/
theorem Carries.unlink {allocator : Allocator} {store : Store} (carries : Carries own allocator.memory heap)
    (divided : Divided site allocator store own blocks ring) {previous p : Nat} {kept node : LinkedList.Node Opt}
    (before : heap previous = some kept) (found : heap p = some node) (different : p ≠ previous)
    (known : Storable node.next) (enough : site.size < 12 * fuel) :
    ∃ after blocks ring left, brel site.freelist p
        { allocator with memory := Bget.setNext allocator.memory previous (loadPointer allocator.memory p) } = some after ∧
      Divided site after store left blocks ring ∧ Carries left after.memory ((heap.setNext previous node.next).free p) ∧
      left.length + 1 = own.length := by
  have linked := carries.setNext divided.places before known
  have there : heap.setNext previous node.next p = some node :=
    (LinkedList.Heap.setNext_other _ _ different).trans found
  rw [carries.next found]
  refine Carries.release ?_ (divided.update (carries.setNext_outside before)) there enough
  exact linked

/-- The first pointer of a list is null, or a node lies there. -/
theorem start_known {start : Option Nat} (lists : Segment heap start nodes none) :
    ∀ q ∈ start, ∃ node, heap q = some node := by
  intro q there
  cases nodes with
  | nil =>
    obtain rfl : start = none := lists
    cases there
  | cons node rest =>
    obtain ⟨rfl, next, found, _⟩ := lists
    cases there
    exact ⟨_, found⟩

theorem next_known {start : Option Nat} {front behind : List (Nat × Opt)} {node : Nat × Opt} {next : Option Nat}
    (lists : Segment heap start (front ++ node :: behind) none) (found : heap node.1 = some ⟨next, node.2⟩) :
    ∀ q ∈ next, ∃ node, heap q = some node := by
  obtain ⟨_, _, _, other, there, rest⟩ := LinkedList.segment_append.mp lists
  rw [found] at there
  cases there
  exact start_known rest

theorem removeLoop_finds {list : OptionHeap} (carries : Carries own list.allocator.memory heap) {freelist : Nat}
    {front behind : List (Nat × Opt)} {node : Nat × Opt} {currP : Option Nat}
    (segment : Segment heap currP (front ++ node :: behind) none) (enough : front.length < fuel) (prevP : Option Nat) :
    list.removeLoop freelist (some node.1) fuel prevP currP =
      list.linkOut freelist ((front.getLast?.map Prod.fst).or prevP) node.1 := by
  induction front generalizing currP prevP fuel with
  | nil =>
    obtain ⟨fuel, rfl⟩ := Nat.exists_eq_succ_of_ne_zero (Nat.ne_of_gt enough)
    obtain ⟨rfl, _⟩ := segment
    rw [OptionHeap.removeLoop, if_pos rfl]
    rfl
  | cons first front inductionHypothesis =>
    obtain ⟨fuel, rfl⟩ := Nat.exists_eq_succ_of_ne_zero (Nat.ne_of_gt (Nat.zero_lt_of_lt enough))
    have other := segment.apart.1 first List.mem_cons_self
    obtain ⟨rfl, next, found, rest⟩ := segment
    rw [List.length_cons] at enough
    have last : ((first :: front).getLast?.map Prod.fst).or prevP =
        (front.getLast?.map Prod.fst).or (some first.1) := by
      rw [List.getLast?_cons]
      cases front.getLast? <;> rfl
    rw [OptionHeap.removeLoop, if_neg (by simpa using other), carries.next found, last]
    exact inductionHypothesis rest (by omega) (some first.1)

/-- Without a node to remove, the loop ends behind the last one. -/
theorem removeLoop_misses {list : OptionHeap} (carries : Carries own list.allocator.memory heap) {freelist : Nat}
    {currP : Option Nat} (segment : Segment heap currP nodes none) (enough : nodes.length < fuel) (prevP : Option Nat) :
    list.removeLoop freelist none fuel prevP currP = some list := by
  induction nodes generalizing currP prevP fuel with
  | nil =>
    obtain ⟨fuel, rfl⟩ := Nat.exists_eq_succ_of_ne_zero (Nat.ne_of_gt enough)
    obtain rfl : currP = none := segment
    rfl
  | cons first rest inductionHypothesis =>
    obtain ⟨fuel, rfl⟩ := Nat.exists_eq_succ_of_ne_zero (Nat.ne_of_gt (Nat.zero_lt_of_lt enough))
    obtain ⟨rfl, next, found, behind⟩ := segment
    rw [List.length_cons] at enough
    rw [OptionHeap.removeLoop, if_neg (by simp), carries.next found]
    exact inductionHypothesis behind (by omega) (some first.1)

/-- The node goes, and its buffer with it. -/
theorem removeOptionFromList_links {list : OptionHeap} {store : Store} {front behind : List (Nat × Opt)}
    {node : Nat × Opt} (divided : Divided site list.allocator store own blocks ring)
    (carries : Carries own list.allocator.memory heap)
    (lists : Segment heap list.start (front ++ node :: behind) none) (turns : front.length < fuel)
    (enough : site.size < 12 * fuel) :
    ∃ after blocks ring left heap, list.removeOptionFromList site.freelist fuel (some node.1) = some (.ok, after) ∧
      Divided site after.allocator store left blocks ring ∧ Carries left after.allocator.memory heap ∧
      Segment heap after.start (front ++ behind) none ∧ left.length + 1 = own.length := by
  rw [OptionHeap.removeOptionFromList, removeLoop_finds carries lists turns]
  cases front using List.reverseRecOn with
  | nil =>
    obtain ⟨next, found, listed⟩ := lists.removeFront
    obtain ⟨after, nextBlocks, nextRing, left, released, dividedAfter, kept, fewer⟩ :=
      carries.release divided found enough
    refine ⟨⟨after, next⟩, nextBlocks, nextRing, left, _, ?_, dividedAfter, kept, listed, fewer⟩
    rw [← show loadPointer list.allocator.memory node.1 = next from carries.next found]
    exact Option.map_eq_some_iff.mpr ⟨_, Option.bind_eq_some_iff.mpr ⟨after, released, rfl⟩, rfl⟩
  | append_singleton early previous =>
    rw [List.append_assoc] at lists
    obtain ⟨next, found, listed⟩ := lists.removeBehind
    obtain ⟨later, there⟩ := lists.found (List.mem_append_right _ List.mem_cons_self)
    have different : node.1 ≠ previous.1 := lists.apart.2.1 node List.mem_cons_self
    have whole : Segment heap list.start ((early ++ [previous]) ++ node :: behind) none := by
      rw [List.append_assoc]
      exact lists
    have known := carries.storable divided.places (next_known whole found)
    obtain ⟨after, nextBlocks, nextRing, left, released, dividedAfter, kept, fewer⟩ :=
      carries.unlink divided there found different known enough
    refine ⟨⟨after, list.start⟩, nextBlocks, nextRing, left, _, ?_, dividedAfter, kept, ?_, fewer⟩
    · rw [List.getLast?_concat, Option.map_some, Option.some_or]
      exact Option.map_eq_some_iff.mpr ⟨_, Option.bind_eq_some_iff.mpr ⟨after, released, rfl⟩, rfl⟩
    · rw [List.append_assoc]
      exact listed

theorem Shared.Sound.remove (sound : shared.Sound site blocks ring own heap nodes) (index : Nat)
    (enough : site.size < 12 * fuel) :
    ∃ after, shared.step site.freelist fuel (.remove index) = some after ∧ after.Steady site := by
  have turns := sound.enough enough
  have carries : Carries own shared.list.allocator.memory heap := sound.carries
  have count := sound.count
  have options := sound.options
  rw [Shared.step]
  by_cases beyond : nodes.length ≤ index
  · have short : shared.options.length ≤ index := by rwa [← options, List.length_map]
    have lists : Segment heap shared.list.start nodes none := sound.lists
    rw [nodeAt_none sound.carries sound.lists beyond, OptionHeap.removeOptionFromList,
      removeLoop_misses carries lists turns]
    refine ⟨_, rfl, blocks, ring, own, heap, nodes, ?_⟩
    rw [List.eraseIdx_of_length_le short]
    exact sound
  · have inside : index < nodes.length := Nat.not_le.mp beyond
    obtain ⟨front, node, behind, rfl, rfl⟩ : ∃ front node behind, nodes = front ++ node :: behind ∧ front.length = index :=
      ⟨nodes.take index, nodes[index], nodes.drop (index + 1), by simp, List.length_take_of_le (Nat.le_of_lt inside)⟩
    have lists : Segment heap shared.list.start (front ++ node :: behind) none := sound.lists
    rw [List.length_append] at turns
    have left : shared.options.eraseIdx front.length = (front ++ behind).map Prod.snd := by
      rw [← options, List.map_append, List.map_append, List.eraseIdx_append_of_length_le (by simp)]
      simp
    have length : (shared.options.eraseIdx front.length).length + 1 = shared.options.length := by
      rw [left, ← options]
      simp
      omega
    obtain ⟨after, nextBlocks, nextRing, rest, nextHeap, removed, divided, kept, listed, fewer⟩ :=
      removeOptionFromList_links sound.divided carries lists (by omega) enough
    rw [nodeAt_eq sound.carries sound.lists]
    refine ⟨_, Option.map_eq_some_iff.mpr ⟨_, removed, rfl⟩, nextBlocks, nextRing, rest, nextHeap, _, divided, kept,
      listed, left.symm, ?_⟩
    simp only
    omega

/-! ## Freeing -/

/-- The nodes behind the first one go, one after the other. -/
theorem freeLoop_spec {allocator : Allocator} {store : Store} {first : Nat × Opt} {rest : List (Nat × Opt)}
    (divided : Divided site allocator store own blocks ring) (carries : Carries own allocator.memory heap)
    (lists : Segment heap (some first.1) (first :: rest) none) (enough : site.size < 12 * fuel) {turns : Nat}
    (more : rest.length < turns) :
    ∃ after blocks ring left heap, OptionHeap.freeLoop site.freelist first.1 turns allocator = some after ∧
      Divided site after store left blocks ring ∧ Carries left after.memory heap ∧
      Segment heap (some first.1) [first] none ∧ left.length + rest.length = own.length := by
  induction rest generalizing allocator own heap blocks ring turns with
  | nil =>
    obtain ⟨turns, rfl⟩ := Nat.exists_eq_succ_of_ne_zero (Nat.ne_of_gt more)
    obtain ⟨_, next, found, behind⟩ := id lists
    obtain rfl : next = none := behind
    refine ⟨allocator, blocks, ring, own, heap, ?_, divided, carries, lists, rfl⟩
    rw [OptionHeap.freeLoop, carries.next found]
  | cons second rest inductionHypothesis =>
    obtain ⟨turns, rfl⟩ := Nat.exists_eq_succ_of_ne_zero (Nat.ne_of_gt (Nat.zero_lt_of_lt more))
    rw [List.length_cons] at more
    have whole : Segment heap (some first.1) ([] ++ first :: second :: rest) none := lists
    have different : second.1 ≠ first.1 := whole.apart.2.1 second List.mem_cons_self
    obtain ⟨next, found, listed⟩ := whole.removeBehind
    have split : Segment heap (some first.1) ([first] ++ second :: rest) none := lists
    have known := carries.storable divided.places (next_known split found)
    obtain ⟨_, _, there, rfl, _⟩ := lists
    obtain ⟨after, nextBlocks, nextRing, left, released, dividedAfter, kept, fewer⟩ :=
      carries.unlink divided there found different known enough
    obtain ⟨final, lastBlocks, lastRing, last, lastHeap, freed, dividedLast, keptLast, listedLast, length⟩ :=
      inductionHypothesis dividedAfter kept listed (show rest.length < turns by omega)
    refine ⟨final, lastBlocks, lastRing, last, lastHeap, ?_, dividedLast, keptLast, listedLast, ?_⟩
    · rw [OptionHeap.freeLoop, carries.next there]
      exact Option.bind_eq_some_iff.mpr ⟨after, released, freed⟩
    · rw [List.length_cons]
      omega

theorem Shared.Sound.free (sound : shared.Sound site blocks ring own heap nodes) (enough : site.size < 12 * fuel) :
    ∃ after, shared.step site.freelist fuel .free = some after ∧ after.Steady site := by
  have turns := sound.enough enough
  have count := sound.count
  have options := congrArg List.length sound.options
  have lists := sound.lists
  rw [Shared.step, OptionHeap.freeOptionList]
  cases nodes with
  | nil =>
    have null : shared.list.start = none := lists
    rw [List.map_nil] at options
    rw [null]
    refine ⟨_, rfl, blocks, ring, own, heap, [], sound.divided, sound.carries, null, rfl, ?_⟩
    rw [count, ← options]
  | cons first rest =>
    rw [List.length_cons] at turns
    rw [List.length_map, List.length_cons] at options
    have start : shared.list.start = some first.1 := lists.1
    rw [show shared.start = some first.1 from start] at lists
    obtain ⟨emptied, _, _, left, heapLeft, freed, divided, carries, single, length⟩ :=
      freeLoop_spec sound.divided sound.carries lists enough (show rest.length < fuel by omega)
    obtain ⟨_, next, found, _⟩ := single
    obtain ⟨after, nextBlocks, nextRing, last, released, dividedAfter, kept, fewer⟩ :=
      carries.release divided found enough
    rw [start]
    refine ⟨_, Option.map_eq_some_iff.mpr ⟨_, Option.bind_eq_some_iff.mpr ⟨emptied, freed,
      Option.bind_eq_some_iff.mpr ⟨after, released, rfl⟩⟩, rfl⟩, nextBlocks, nextRing, last, _, [], dividedAfter, kept,
      rfl, rfl, ?_⟩
    simp only [List.length_nil]
    omega

/-! ## Runs -/

theorem Shared.Sound.other (sound : shared.Sound site blocks ring own heap nodes) {call : MemCall}
    (legal : Bget.Legal ⟨shared.allocator, shared.store⟩ call) (enough : site.size < 12 * fuel) :
    ∃ after, shared.step site.freelist fuel (.other call) = some after ∧ after.Steady site := by
  obtain ⟨after, nextBlocks, nextRing, taken, divided, kept⟩ := sound.divided.call legal enough
  refine ⟨_, Option.map_eq_some_iff.mpr ⟨after, taken, rfl⟩, nextBlocks, nextRing, own, heap, nodes, divided,
    sound.carries.congr fun p size node found listed => ⟨listed, kept _ listed⟩, sound.lists, sound.options, sound.count⟩

/-- Each legal call goes through. -/
theorem Shared.Steady.step (steady : shared.Steady site) {call : ShareCall} (legal : shared.Legal call)
    (enough : site.size < 12 * fuel) :
    ∃ after, shared.step site.freelist fuel call = some after ∧ after.Steady site := by
  obtain ⟨blocks, ring, own, heap, nodes, sound⟩ := steady
  cases call with
  | append option => exact sound.append legal enough
  | remove index => exact sound.remove index enough
  | free => exact sound.free enough
  | other call => exact sound.other legal enough

/-- What the calls lead to from an empty list in a new pool. -/
def Shared.Reached (site : Site) (len : Int) (fuel : Nat) (initial : Allocator) (shared : Shared) : Prop :=
  ∃ began, coapMemInit site.freelist (some site.base) len initial = some began ∧
    Run (Shared.step site.freelist fuel) Shared.Legal ⟨began, none, [], 0, []⟩ shared

theorem Shared.Reached.steady {len : Int} {initial : Allocator} (fresh : Fresh site.freelist initial)
    (area : Area site len) (enough : site.size < 12 * fuel) (reached : Shared.Reached site len fuel initial shared) :
    shared.Steady site := by
  obtain ⟨began, initialised, run⟩ := reached
  obtain ⟨same, result, sound⟩ := coapMemInit_spec fresh area
  obtain rfl : same = began := Option.some.inj (result.symm.trans initialised)
  have nowhere : Carries [] same.memory fun _ => none := by
    intro p node found
    cases found
  have initially : Shared.Steady site ⟨same, none, [], 0, []⟩ :=
    ⟨_, _, [], fun _ => none, [], Bget.Sound.undivided sound, nowhere, rfl, rfl, rfl⟩
  refine run.invariant initially fun before call after steady legal taken => ?_
  obtain ⟨other, stepped, kept⟩ := steady.step legal enough
  obtain rfl : other = after := Option.some.inj (stepped.symm.trans taken)
  exact kept

/-- However an option list and the rest of the stack take turns at the allocator, the list in memory holds the options
that it should, the others find what they wrote, and each buffer that is not released belongs to an option of the list,
to one that an append lost, or to the others; no call fails an assertion or does not end. -/
theorem shared_reached_lists {len : Int} {initial : Allocator} (fresh : Fresh site.freelist initial)
    (area : Area site len) (enough : site.size < 12 * fuel) (reached : Shared.Reached site len fuel initial shared) :
    readOptions shared.allocator.memory fuel shared.start = some shared.options ∧
      shared.store.Disjoint ∧ shared.store.Held shared.allocator.memory ∧
      shared.allocator.numget = shared.allocator.numrel +
        UInt32.ofNat (shared.store.length + (shared.options.length + shared.lost)) ∧
      ∀ call, shared.Legal call → ∃ after, shared.step site.freelist fuel call = some after := by
  have steady := reached.steady fresh area enough
  obtain ⟨blocks, ring, own, heap, nodes, sound⟩ := id steady
  have together := sound.divided.sound.disjoint
  refine ⟨?_, (List.pairwise_append.mp together).1, sound.divided.held, ?_, fun call legal => ?_⟩
  · rw [← sound.options]
    exact readOptions_eq sound.carries sound.lists (sound.enough enough)
  · rw [← sound.count]
    exact sound.divided.calls
  · obtain ⟨after, taken, _⟩ := steady.step legal enough
    exact ⟨after, taken⟩

/-- One option is in the list. -/
theorem exists_shared_reached : ∃ shared : Shared, Shared.Reached workMemory 4096 400 unused shared ∧
    shared.options = [⟨12, [0]⟩] ∧ shared.store = [] ∧ shared.lost = 0 := by
  obtain ⟨began, initialised, sound⟩ := coapMemInit_spec unused_fresh workMemory_area
  have positive : (0 : Int) < 13 := by decide
  rcases coapMemGet_obtains sound.ready positive (by decide) (show [workMemory.base].length < 400 by decide) with
    ⟨_, small⟩ | ⟨buf, _, _, _, allocated, result, _⟩
  · exact absurd (small 4092 List.mem_cons_self) (by decide)
  · have legal : Shared.Legal ⟨began, none, [], 0, []⟩ (.append ⟨12, [0]⟩) := ⟨by decide, by decide⟩
    have obtained : OptionHeap.memGet workMemory.freelist 400 1 began = some (some buf, allocated) := result
    have taken : Shared.step workMemory.freelist 400 ⟨began, none, [], 0, []⟩ (.append ⟨12, [0]⟩) =
        some ⟨(OptionHeap.write ⟨allocated, some buf⟩ buf none ⟨12, [0]⟩).allocator, some buf, [⟨12, [0]⟩], 0, []⟩ := by
      refine Option.map_eq_some_iff.mpr ⟨(.ok, OptionHeap.write ⟨allocated, some buf⟩ buf none ⟨12, [0]⟩), ?_, rfl⟩
      exact Option.bind_eq_some_iff.mpr ⟨_, obtained, rfl⟩
    exact ⟨_, ⟨began, initialised, Run.next .refl _ legal taken⟩, rfl, rfl, rfl⟩

theorem shared_reached_lists_workMemory : ∃ (shared : Shared),
    readOptions shared.allocator.memory 400 shared.start = some [⟨12, [0]⟩] ∧
    shared.allocator.numget = shared.allocator.numrel + 1 ∧
    ∃ after, shared.step 4096 400 .free = some after := by
  obtain ⟨shared, reached, options, store, lost⟩ := exists_shared_reached
  obtain ⟨read, _, _, calls, goes⟩ := shared_reached_lists unused_fresh workMemory_area (by decide) reached
  rw [options] at read
  rw [options, store, lost] at calls
  exact ⟨shared, read, calls, goes .free trivial⟩

end

end SmingCoap.Server.Bget
