import SmingCoap.Server.OptionList
import SmingCoap.Server.UriSoundness

/-! # Linking options in and out

An append puts its option behind those of no larger number, wherever that is in the list, and touches no other option
(`appendOptionToList_inserts`); appends from the empty list on sort stably, and a removal takes out one node
(`option_list_operations`).  Without memory an append leaves the list as it was unless the option would have come
first: there the null pointer overwrites the start of the list (`append_fails_iff`).
-/

namespace SmingCoap.Server

open Wire (Opt insertBehind)
open LinkedList (Node Segment walk walk_stops walk_ends segment_append)

namespace OptionMemory

variable {memory : OptionMemory} {nodes : List (Nat × Opt)} {fuel : Nat}

/-! ## Where an option goes -/

/-- The nodes that an option of this number goes behind. -/
def frontOf (number : Nat) (nodes : List (Nat × Opt)) : List (Nat × Opt) :=
  nodes.takeWhile fun node => node.2.number ≤ number

def behindOf (number : Nat) (nodes : List (Nat × Opt)) : List (Nat × Opt) :=
  nodes.dropWhile fun node => node.2.number ≤ number

theorem frontOf_append_behindOf (number : Nat) (nodes : List (Nat × Opt)) :
    frontOf number nodes ++ behindOf number nodes = nodes := List.takeWhile_append_dropWhile

theorem frontOf_le {number : Nat} {node : Nat × Opt} (member : node ∈ frontOf number nodes) :
    node.2.number ≤ number := by
  simpa using List.mem_takeWhile_imp member

theorem behindOf_head {number : Nat} {node : Nat × Opt} {rest : List (Nat × Opt)}
    (behind : behindOf number nodes = node :: rest) : number < node.2.number := by
  have stops := List.head?_dropWhile_not (fun node : Nat × Opt => node.2.number ≤ number) nodes
  rw [show nodes.dropWhile (fun node : Nat × Opt => node.2.number ≤ number) = node :: rest from behind] at stops
  simpa using stops

/-- The result of an append: with memory the new node is linked in, without the start may be lost. -/
def Appends (memory : OptionMemory) (nodes : List (Nat × Opt)) (option : Opt) :
    Option Nat → Option (CoapResult × OptionMemory) → Prop
  | none, result =>
    result = some (.errOutOfMemory, if frontOf option.number nodes = [] then { memory with start := none } else memory)
  | some new, result =>
    ∃ after, result = some (.ok, after) ∧
      after.Lists (frontOf option.number nodes ++ (new, option) :: behindOf option.number nodes) ∧
      ∀ other, other ≠ new → other ∉ nodes.map Prod.fst → after.heap other = memory.heap other

theorem appendOptionToListEnd_links {front : List (Nat × Opt)} {last : Nat × Opt}
    (lists : memory.Lists (front ++ [last])) (enough : front.length < fuel) (option : Opt) :
    memory.appendOptionToListEnd fuel none option = some (.errOutOfMemory, memory) ∧
      ∀ new, memory.heap new = none → ∃ after, memory.appendOptionToListEnd fuel (some new) option = some (.ok, after) ∧
        after.Lists (front ++ [last, (new, option)]) ∧
        ∀ other, other ≠ new → other ∉ (front ++ [last]).map Prod.fst → after.heap other = memory.heap other := by
  obtain ⟨first, firstEq⟩ : ∃ first, memory.start = some first := by
    cases front with
    | nil => exact ⟨_, lists.1⟩
    | cons node rest => exact ⟨_, lists.1⟩
  obtain ⟨middle, before, reached, next, found, ends⟩ := segment_append.mp lists
  obtain rfl : next = none := ends
  rw [reached] at before
  have stops : walk memory.heap (fun node => node.next.isSome) fuel (some first) = some (some last.1) := by
    rw [← firstEq]
    refine walk_stops before (fun node member next nodeFound => ?_) found rfl enough
    obtain ⟨later, nextEq, _⟩ := before.next (List.mem_map_of_mem member) nodeFound
    simp only at nextEq
    simp [nextEq]
  simp only [appendOptionToListEnd, firstEq, stops, Option.bind_eq_bind, Option.bind_some]
  constructor
  · rw [show memory.heap.setNext last.1 none = memory.heap from LinkedList.Heap.setNext_self found, ← firstEq]
  · intro new fresh
    refine ⟨_, rfl, ?_, fun other different outside => ?_⟩
    · have linked := Segment.insertBehind lists (show Segment memory.heap none [] none from rfl) fresh option
      rwa [firstEq] at linked
    · simp only [List.map_append, List.map_cons, List.mem_append, List.mem_cons, not_or] at outside
      exact (LinkedList.Heap.store_other _ _ different).trans (LinkedList.Heap.setNext_other _ _ outside.2.1)

/-- The search for the place goes past the options of no larger number. -/
theorem walk_numbers (lists : memory.Lists nodes) (enough : nodes.length < fuel) (number : Nat) :
    walk memory.heap (fun node => node.entry.number ≤ number) fuel memory.start =
      some ((behindOf number nodes).head?.map Prod.fst) := by
  have split := frontOf_append_behindOf number nodes
  have passes : ∀ node ∈ frontOf number nodes, ∀ next, memory.heap node.1 = some ⟨next, node.2⟩ →
      decide (node.2.number ≤ number) = true := fun node member _ _ => by simpa using frontOf_le member
  cases behind : behindOf number nodes with
  | nil =>
    rw [behind, List.append_nil] at split
    rw [split] at passes
    exact walk_ends lists passes enough
  | cons node rest =>
    rw [behind] at split
    obtain ⟨middle, toNode, reached, next, found, _⟩ := segment_append.mp (split ▸ lists)
    rw [reached] at toNode
    refine walk_stops toNode passes found (by simpa using behindOf_head behind) ?_
    rw [← split, List.length_append] at enough
    omega

theorem appendOptionToList_empty (bare : memory.start = none) (option : Opt) (memGet : Option Nat) :
    memory.Appends [] option memGet (memory.appendOptionToList fuel memGet option) := by
  rw [appendOptionToList, bare]
  simp only [appendOptionToListEnd, bare]
  cases memGet with
  | none => rfl
  | some new =>
    exact ⟨_, rfl, ⟨rfl, none, LinkedList.Heap.store_same .., rfl⟩,
      fun other different _ => LinkedList.Heap.store_other _ _ different⟩

/-- No number is larger: the option comes last. -/
theorem appendOptionToList_last {early : List (Nat × Opt)} {last : Nat × Opt}
    (lists : memory.Lists (early ++ [last])) (enough : (early ++ [last]).length < fuel) {option : Opt}
    (noneLarger : behindOf option.number (early ++ [last]) = []) (memGet : Option Nat)
    (fresh : ∀ new ∈ memGet, memory.heap new = none) :
    memory.Appends (early ++ [last]) option memGet (memory.appendOptionToList fuel memGet option) := by
  have front := frontOf_append_behindOf option.number (early ++ [last])
  rw [noneLarger, List.append_nil] at front
  have ends := walk_numbers lists enough option.number
  rw [noneLarger] at ends
  rw [List.length_append] at enough
  obtain ⟨failed, linked⟩ := appendOptionToListEnd_links lists (Nat.lt_of_le_of_lt (Nat.le_add_right ..) enough) option
  cases startEq : memory.start with
  | none => exact absurd startEq (by cases early <;> simp [lists.1])
  | some first =>
    rw [startEq] at ends
    simp only [appendOptionToList, startEq, ends, Option.bind_eq_bind, Option.bind_some]
    cases memGet with
    | none =>
      rw [Appends, front, if_neg (by simp)]
      exact failed
    | some new =>
      obtain ⟨after, appended, listed, frame⟩ := linked new (fresh new rfl)
      refine ⟨after, appended, ?_, frame⟩
      rw [front, noneLarger]
      simpa using listed

/-- All numbers are larger: the option comes first, and the list starts with what the allocation gave. -/
theorem appendOptionToList_first {node : Nat × Opt} {behind : List (Nat × Opt)} (lists : memory.Lists (node :: behind))
    (enough : (node :: behind).length < fuel) {option : Opt} (allLarger : frontOf option.number (node :: behind) = [])
    (memGet : Option Nat) (fresh : ∀ new ∈ memGet, memory.heap new = none) :
    memory.Appends (node :: behind) option memGet (memory.appendOptionToList fuel memGet option) := by
  have rest := frontOf_append_behindOf option.number (node :: behind)
  rw [allLarger, List.nil_append] at rest
  have stops := walk_numbers lists enough option.number
  rw [rest] at stops
  have startEq : memory.start = some node.1 := lists.1
  rw [startEq] at stops
  simp only [appendOptionToList, startEq, stops, List.head?_cons, Option.map_some, Option.bind_eq_bind,
    Option.bind_some, if_true]
  cases memGet with
  | none => rw [Appends, allLarger, if_pos rfl]
  | some new =>
    refine ⟨_, rfl, ?_, fun other different _ => LinkedList.Heap.store_other _ _ different⟩
    rw [allLarger, rest]
    exact (show Segment memory.heap (some node.1) (node :: behind) none from startEq ▸ lists).insertFront
      (fresh new rfl) option

/-- Some numbers are larger and some are not: the predecessor is searched for. -/
theorem appendOptionToList_between {early behind : List (Nat × Opt)} {previous node : Nat × Opt}
    (lists : memory.Lists (early ++ previous :: node :: behind))
    (enough : (early ++ previous :: node :: behind).length < fuel) {option : Opt}
    (front : frontOf option.number (early ++ previous :: node :: behind) = early ++ [previous])
    (larger : behindOf option.number (early ++ previous :: node :: behind) = node :: behind)
    (memGet : Option Nat) (fresh : ∀ new ∈ memGet, memory.heap new = none) :
    memory.Appends (early ++ previous :: node :: behind) option memGet
      (memory.appendOptionToList fuel memGet option) := by
  have stops := walk_numbers lists enough option.number
  rw [larger] at stops
  have predecessor := LinkedList.walk_predecessor lists (show early.length < fuel by
    rw [List.length_append] at enough
    omega)
  have split : early ++ previous :: node :: behind = (early ++ [previous]) ++ node :: behind := by simp
  have whole : Segment memory.heap memory.start ((early ++ [previous]) ++ node :: behind) none := split ▸ lists
  obtain ⟨apart, _⟩ := whole.apart
  obtain ⟨middle, toNode, reached, next, found, toEnd⟩ := segment_append.mp whole
  rw [reached] at toNode
  cases startEq : memory.start with
  | none => exact absurd startEq (by cases early <;> simp [lists.1])
  | some first =>
    have notFirst : node.1 ≠ first := by
      intro same
      obtain ⟨head, tail, shape⟩ := List.exists_cons_of_ne_nil (show early ++ [previous] ≠ [] by simp)
      rw [shape] at toNode apart
      have headEq : head.1 = first := Option.some.inj (toNode.1.symm.trans startEq)
      exact apart head (List.mem_cons_self ..) (headEq.trans same.symm)
    rw [startEq] at stops predecessor
    simp only [appendOptionToList, startEq, stops, predecessor, List.head?_cons, Option.map_some,
      Option.bind_eq_bind, Option.bind_some, if_neg notFirst]
    cases memGet with
    | none => rw [Appends, front, if_neg (by simp)]
    | some new =>
      refine ⟨_, rfl, ?_, fun other different outside => ?_⟩
      · rw [front, larger]
        have linked := Segment.insertBehind toNode (show Segment memory.heap (some node.1) (node :: behind) none from
          ⟨rfl, next, found, toEnd⟩) (fresh new rfl) option
        simpa [Lists, startEq] using linked
      · simp only [List.map_append, List.map_cons, List.mem_append, List.mem_cons, not_or] at outside
        exact (LinkedList.Heap.store_other _ _ different).trans (LinkedList.Heap.setNext_other _ _ outside.2.1)

/-- The four places of a new option: in an empty list, at the end, in front, and behind a predecessor. -/
theorem appendOptionToList_spec (lists : memory.Lists nodes) (enough : nodes.length < fuel) (option : Opt)
    (memGet : Option Nat) (fresh : ∀ new ∈ memGet, memory.heap new = none) :
    memory.Appends nodes option memGet (memory.appendOptionToList fuel memGet option) := by
  have split := frontOf_append_behindOf option.number nodes
  cases larger : behindOf option.number nodes with
  | nil =>
    cases nodes using List.reverseRecOn with
    | nil => exact appendOptionToList_empty lists option memGet
    | append_singleton early last => exact appendOptionToList_last lists enough larger memGet fresh
  | cons node behind =>
    rw [larger] at split
    cases front : frontOf option.number nodes using List.reverseRecOn with
    | nil =>
      rw [front, List.nil_append] at split
      subst split
      exact appendOptionToList_first lists enough front memGet fresh
    | append_singleton early previous =>
      rw [front, List.append_assoc, List.singleton_append] at split
      subst split
      exact appendOptionToList_between lists enough front larger memGet fresh

/-- What the append does to the options alone is what it does to a plain list of them. -/
theorem appendOptionToList_refines (lists : memory.Lists nodes) (enough : nodes.length < fuel) (option : Opt)
    (memGet : Option Nat) (fresh : ∀ new ∈ memGet, memory.heap new = none) :
    ∃ result after nodesAfter, memory.appendOptionToList fuel memGet option = some (result, after) ∧
      after.Lists nodesAfter ∧
      (result, nodesAfter.map Prod.snd) =
        Server.appendOptionToList memGet.isSome (nodes.map Prod.snd) option := by
  have spec := appendOptionToList_spec lists enough option memGet fresh
  have takes : (nodes.map Prod.snd).takeWhile (fun other => other.number ≤ option.number) =
      (frontOf option.number nodes).map Prod.snd := List.takeWhile_map ..
  have drops : (nodes.map Prod.snd).dropWhile (fun other => other.number ≤ option.number) =
      (behindOf option.number nodes).map Prod.snd := List.dropWhile_map ..
  cases memGet with
  | none =>
    refine ⟨_, _, if frontOf option.number nodes = [] then [] else nodes, spec, ?_, ?_⟩
    · split
      · exact (rfl : (none : Option Nat) = none)
      · exact lists
    · simp only [Server.appendOptionToList, takes, Option.isSome_none, List.map_eq_nil_iff]
      split <;> simp
  | some new =>
    obtain ⟨after, appended, listed, _⟩ := spec
    refine ⟨_, after, _, appended, listed, ?_⟩
    simp [Server.appendOptionToList, takes, drops]

/-! ## Sequences of appends -/

/-- Appends that succeed, each with memory that is not in use. -/
inductive AppendRun (fuel : Nat) : OptionMemory → List (Nat × Opt) → OptionMemory → Prop where
  | nil (memory : OptionMemory) : AppendRun fuel memory [] memory
  | cons {memory next last : OptionMemory} {new : Nat} {option : Opt} {added : List (Nat × Opt)} :
      memory.heap new = none → memory.appendOptionToList fuel (some new) option = some (.ok, next) →
      AppendRun fuel next added last → AppendRun fuel memory ((new, option) :: added) last

theorem AppendRun.lists {last : OptionMemory} {added : List (Nat × Opt)} (run : AppendRun fuel memory added last)
    (lists : memory.Lists nodes) (enough : nodes.length + added.length < fuel) :
    last.Lists (added.foldl (fun sorted node => insertBehind (fun node => node.2.number) node sorted) nodes) := by
  induction run generalizing nodes with
  | nil memory => exact lists
  | cons fresh appended rest inductionHypothesis =>
    rename_i memory next last new option added
    rw [List.length_cons] at enough
    obtain ⟨after, same, listed, _⟩ :=
      appendOptionToList_spec lists (show nodes.length < fuel by omega) option (some new) (by simpa using fresh)
    rw [appended, Option.some.injEq, Prod.mk.injEq] at same
    obtain rfl := same.2
    have inserted := Wire.insertBehind_eq (fun node : Nat × Opt => node.2.number) (new, option) nodes
    have grown := Wire.length_insertBehind (fun node : Nat × Opt => node.2.number) (new, option) nodes
    rw [List.foldl_cons]
    apply inductionHypothesis
    · rw [inserted]
      exact listed
    · omega

/-! ## Removing -/

/-- A node linked out behind `prevP`, or in front, and released. -/
def unlinked (memory : OptionMemory) (prevP : Option Nat) (currP : Nat) (next : Option Nat) : OptionMemory :=
  match prevP with
  | none => { heap := memory.heap.free currP, start := next }
  | some prevP => { memory with heap := (memory.heap.setNext prevP next).free currP }

/-- The loop ends at the node with the one in front of it at hand; induction on the nodes in between. -/
theorem removeLoop_finds {front behind : List (Nat × Opt)} {node : Nat × Opt} {currP : Option Nat}
    (segment : Segment memory.heap currP (front ++ node :: behind) none) (enough : front.length < fuel)
    (prevP : Option Nat) :
    ∃ next, memory.heap node.1 = some ⟨next, node.2⟩ ∧
      memory.removeLoop (some node.1) fuel prevP currP =
        some (memory.unlinked ((front.getLast?.map Prod.fst).or prevP) node.1 next) := by
  induction front generalizing currP prevP fuel with
  | nil =>
    obtain ⟨rfl, next, found, _⟩ := segment
    obtain ⟨turns, rfl⟩ : ∃ turns, fuel = turns + 1 := ⟨fuel - 1, by omega⟩
    refine ⟨next, found, ?_⟩
    cases prevP <;> simp [removeLoop, found, unlinked]
  | cons first front inductionHypothesis =>
    have other := segment.apart.1 first (List.mem_cons_self ..)
    obtain ⟨rfl, firstNext, firstFound, rest⟩ := segment
    rw [List.length_cons] at enough
    obtain ⟨turns, rfl⟩ : ∃ turns, fuel = turns + 1 := ⟨fuel - 1, by omega⟩
    obtain ⟨next, found, removed⟩ :=
      inductionHypothesis (show Segment memory.heap firstNext (front ++ node :: behind) none from rest)
        (show front.length < turns by omega) (some first.1)
    refine ⟨next, found, ?_⟩
    have last : ((first :: front).getLast?.map Prod.fst).or prevP =
        (front.getLast?.map Prod.fst).or (some first.1) := by
      rw [List.getLast?_cons]
      cases front.getLast? <;> rfl
    simp [removeLoop, firstFound, other, removed, last]

theorem removeLoop_misses {currP pOptionToRemove : Option Nat} (segment : Segment memory.heap currP nodes none)
    (enough : nodes.length < fuel) (absent : ∀ node ∈ nodes, some node.1 ≠ pOptionToRemove) (prevP : Option Nat) :
    memory.removeLoop pOptionToRemove fuel prevP currP = some memory := by
  induction nodes generalizing currP prevP fuel with
  | nil =>
    obtain rfl : currP = none := segment
    obtain ⟨turns, rfl⟩ : ∃ turns, fuel = turns + 1 := ⟨fuel - 1, by omega⟩
    rfl
  | cons first rest inductionHypothesis =>
    obtain ⟨rfl, next, found, behind⟩ := segment
    rw [List.length_cons] at enough
    obtain ⟨turns, rfl⟩ : ∃ turns, fuel = turns + 1 := ⟨fuel - 1, by omega⟩
    have other := absent first (List.mem_cons_self ..)
    have later := inductionHypothesis behind (show rest.length < turns by omega)
      (fun node member => absent node (List.mem_cons_of_mem _ member)) (some first.1)
    simp [removeLoop, found, other, later]

theorem removeOptionFromList_links {front behind : List (Nat × Opt)} {node : Nat × Opt}
    (lists : memory.Lists (front ++ node :: behind)) (enough : front.length < fuel) :
    ∃ after, memory.removeOptionFromList fuel (some node.1) = some (.ok, after) ∧ after.Lists (front ++ behind) ∧
      ∀ other, other ∉ front.map Prod.fst → other ≠ node.1 → after.heap other = memory.heap other := by
  obtain ⟨next, found, removed⟩ := removeLoop_finds lists enough none
  refine ⟨_, by rw [removeOptionFromList, removed]; rfl, ?_⟩
  cases front using List.reverseRecOn with
  | nil =>
    obtain ⟨otherNext, same, listed⟩ := lists.removeFront
    rw [found] at same
    cases same
    exact ⟨listed, fun other _ different => LinkedList.Heap.free_other _ different⟩
  | append_singleton early previous =>
    rw [Lists, List.append_assoc] at lists
    obtain ⟨otherNext, same, listed⟩ := lists.removeBehind
    rw [found] at same
    cases same
    refine ⟨?_, fun other outside different => ?_⟩
    · simpa [unlinked, Lists] using listed
    · simp only [List.map_append, List.mem_append, List.map_cons, List.mem_cons, not_or] at outside
      simp only [unlinked, List.getLast?_concat, Option.map_some, Option.some_or]
      exact (LinkedList.Heap.free_other _ different).trans (LinkedList.Heap.setNext_other _ _ outside.2.1)

/-! ## The operations together -/

/-- Ascending by number. -/
def Sorted (nodes : List (Nat × Opt)) : Prop := nodes.Pairwise fun left right => left.2.number ≤ right.2.number

/-- An append that succeeds puts its option behind those of a smaller or equal number and in front of the larger ones,
every node and its option as they were; appends from the empty list on sort stably; and a removal takes out its node
only, or nothing. -/
theorem option_list_operations (fuel : Nat) :
    (∀ (memory : OptionMemory) (nodes : List (Nat × Opt)) (option : Opt) (memGet : Option Nat),
      memory.Lists nodes → Sorted nodes → nodes.length < fuel → (∀ new ∈ memGet, memory.heap new = none) →
      ∃ result after, memory.appendOptionToList fuel memGet option = some (result, after) ∧
        (result = .ok → ∃ new, memGet = some new ∧
          after.Lists (nodes.filter (·.2.number ≤ option.number) ++
            (new, option) :: nodes.filter (option.number < ·.2.number)) ∧
          ∀ other, other ≠ new → other ∉ nodes.map Prod.fst → after.heap other = memory.heap other)) ∧
    (∀ (memory last : OptionMemory) (added : List (Nat × Opt)), memory.Lists [] → added.length < fuel →
      AppendRun fuel memory added last →
      last.Lists (added.insertionSort fun left right => left.2.number ≤ right.2.number)) ∧
    (∀ (memory : OptionMemory) (front behind : List (Nat × Opt)) (node : Nat × Opt),
      memory.Lists (front ++ node :: behind) → (front ++ node :: behind).length < fuel →
      ∃ after, memory.removeOptionFromList fuel (some node.1) = some (.ok, after) ∧ after.Lists (front ++ behind) ∧
        ∀ other, other ∉ front.map Prod.fst → other ≠ node.1 → after.heap other = memory.heap other) ∧
    ∀ (memory : OptionMemory) (nodes : List (Nat × Opt)) (pOptionToRemove : Option Nat), memory.Lists nodes →
      nodes.length < fuel → (∀ node ∈ nodes, some node.1 ≠ pOptionToRemove) →
      memory.removeOptionFromList fuel pOptionToRemove = some (.ok, memory) := by
  refine ⟨?_, ?_, ?_, ?_⟩
  · intro memory nodes option memGet lists sorted enough fresh
    have spec := appendOptionToList_spec lists enough option memGet fresh
    obtain ⟨front, behind⟩ := Wire.split_ordered (fun node : Nat × Opt => node.2.number) sorted option.number
    cases memGet with
    | none => exact ⟨_, _, spec, nofun⟩
    | some new =>
      obtain ⟨after, appended, listed, frame⟩ := spec
      refine ⟨_, after, appended, fun _ => ⟨new, rfl, ?_, frame⟩⟩
      rwa [frontOf, behindOf, front, behind] at listed
  · intro memory last added lists enough run
    have inserted := run.lists lists (show 0 + added.length < fuel by omega)
    rwa [Wire.foldl_insertBehind] at inserted
  · intro memory front behind node lists enough
    rw [List.length_append] at enough
    exact removeOptionFromList_links lists (by omega)
  · intro memory nodes pOptionToRemove lists enough absent
    rw [removeOptionFromList, removeLoop_misses lists enough absent]
    rfl

/-- Content-Format, Observe and a second Content-Format; then the first node goes. -/
theorem option_list_operations_three :
    ∃ last after : OptionMemory, last.Lists [(2, ⟨6, [1]⟩), (1, ⟨12, [0]⟩), (3, ⟨12, [4]⟩)] ∧
      last.removeOptionFromList 4 (some 2) = some (.ok, after) ∧
      after.Lists [(1, ⟨12, [0]⟩), (3, ⟨12, [4]⟩)] := by
  obtain ⟨_, appends, removes, _⟩ := option_list_operations 4
  have run : ∃ last, AppendRun 4 ⟨fun _ => none, none⟩ [(1, ⟨12, [0]⟩), (2, ⟨6, [1]⟩), (3, ⟨12, [4]⟩)] last :=
    ⟨_, .cons rfl rfl (.cons rfl rfl (.cons rfl rfl (.nil _)))⟩
  obtain ⟨last, run⟩ := run
  have lists := appends ⟨fun _ => none, none⟩ last _ rfl (by decide) run
  obtain ⟨after, removed, kept, _⟩ := removes last [] [(1, ⟨12, [0]⟩), (3, ⟨12, [4]⟩)] (2, ⟨6, [1]⟩) lists (by decide)
  exact ⟨last, after, lists, removed, kept⟩

/-! ## Without memory -/

/-- The functions that append one option. -/
inductive AppendCall where
  | appendOptionToList (option : Opt)
  | copyOptionToList (optToCopy : Opt)
  | addObserveOption (val : UInt32)
  | addBlkOption (blkOption : BlockOption)

def AppendCall.number : AppendCall → Nat
  | .appendOptionToList option => option.number
  | .copyOptionToList optToCopy => optToCopy.number
  | .addObserveOption _ => optNumObserve
  | .addBlkOption blkOption => blkOption.type.toNat

def AppendCall.perform (memory : OptionMemory) (fuel : Nat) (memGet : Option Nat) :
    AppendCall → Option (CoapResult × OptionMemory)
  | .appendOptionToList option => memory.appendOptionToList fuel memGet option
  | .copyOptionToList optToCopy => memory.copyOptionToList fuel memGet optToCopy
  | .addObserveOption val => memory.addObserveOption fuel memGet val
  | .addBlkOption blkOption => memory.addBlkOption fuel memGet blkOption

/-- Each of them is one append. -/
theorem AppendCall.perform_eq (call : AppendCall) (memory : OptionMemory) (fuel : Nat) (memGet : Option Nat) :
    ∃ value, call.perform memory fuel memGet = memory.appendOptionToList fuel memGet ⟨call.number, value⟩ := by
  cases call <;> exact ⟨_, rfl⟩

/-- Without memory an append, made directly or by one of its callers, always says so, and it leaves list and memory as
they were exactly when the list is empty or its first option has no larger number. -/
theorem append_fails_iff (memory : OptionMemory) {nodes : List (Nat × Opt)} {fuel : Nat} (call : AppendCall)
    (lists : memory.Lists nodes) (enough : nodes.length < fuel) :
    (∃ after, call.perform memory fuel none = some (.errOutOfMemory, after)) ∧
      (call.perform memory fuel none = some (.errOutOfMemory, memory) ↔
        ∀ first ∈ nodes.head?, first.2.number ≤ call.number) := by
  obtain ⟨value, performed⟩ := call.perform_eq memory fuel none
  have spec := appendOptionToList_spec lists enough ⟨call.number, value⟩ none nofun
  rw [performed, show memory.appendOptionToList fuel none ⟨call.number, value⟩ = _ from spec]
  refine ⟨⟨_, rfl⟩, ?_⟩
  rw [Option.some.injEq, Prod.mk.injEq, and_iff_right rfl]
  cases nodes with
  | nil =>
    obtain ⟨heap, start⟩ := memory
    obtain rfl : start = none := lists
    simp [frontOf]
  | cons first rest =>
    by_cases low : first.2.number ≤ call.number
    · simp [frontOf, low]
    · -- the start pointed to the first node
      have started : memory.start = some first.1 := lists.1
      have lost : { memory with start := none } ≠ memory := by
        intro same
        have starts := congrArg OptionMemory.start same
        rw [started] at starts
        cases starts
      simp [frontOf, low, lost]

/-- A response with a Content-Format, to which a notification adds Observe. -/
theorem append_fails_iff_observe :
    let memory : OptionMemory := ⟨fun pointer => if pointer = 1 then some ⟨none, ⟨12, [0]⟩⟩ else none, some 1⟩
    (∃ after, (AppendCall.addObserveOption 7).perform memory 2 none = some (.errOutOfMemory, after)) ∧
      ¬ (AppendCall.addObserveOption 7).perform memory 2 none = some (.errOutOfMemory, memory) := by
  intro memory
  have lists : memory.Lists [(1, ⟨12, [0]⟩)] := ⟨rfl, none, rfl, rfl⟩
  obtain ⟨reported, kept⟩ := append_fails_iff memory (.addObserveOption 7) lists (show 1 < 2 by decide)
  refine ⟨reported, ?_⟩
  rw [kept]
  decide

/-- The Content-Format is lost with it. -/
theorem append_loses_list : ¬ ∀ (memory : OptionMemory) (nodes : List (Nat × Opt)) (fuel : Nat) (call : AppendCall),
    memory.Lists nodes → nodes.length < fuel →
    call.perform memory fuel none = some (.errOutOfMemory, memory) := by
  intro claimed
  have kept := claimed ⟨fun pointer => if pointer = 1 then some ⟨none, ⟨12, [0]⟩⟩ else none, some 1⟩
    [(1, ⟨12, [0]⟩)] 2 (.addObserveOption 7) ⟨rfl, none, rfl, rfl⟩ (by decide)
  have starts := congrArg (Option.map fun result => result.2.start) kept
  exact absurd starts (by decide)

end OptionMemory

end SmingCoap.Server
