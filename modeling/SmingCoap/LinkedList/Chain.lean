import Mathlib.Data.List.Nodup

/-! # Null-terminated lists in memory

A memory maps pointers to nodes.  `Segment` says which nodes the `next` pointers lead through from a pointer to another
one; a list is a segment that ends with the null pointer, and it comes through no node twice (`Segment.nodup`).  So a
node can be linked in or out with one `next` field set (`Segment.insertBehind`, `Segment.removeBehind`), and a loop
over the list stops where the first node stops it (`walk_passes`).
-/

namespace LinkedList

/-- `next` is the null pointer in the last node. -/
structure Node (α : Type) where
  next : Option Nat
  entry : α

/-- Memory of nodes; nothing where none is allocated. -/
abbrev Heap (α : Type) := Nat → Option (Node α)

variable {α : Type}

namespace Heap

def store (heap : Heap α) (pointer : Nat) (node : Node α) : Heap α := fun other =>
  if other = pointer then some node else heap other

def free (heap : Heap α) (pointer : Nat) : Heap α := fun other =>
  if other = pointer then none else heap other

/-- `pointer->next = next`. -/
def setNext (heap : Heap α) (pointer : Nat) (next : Option Nat) : Heap α := fun other =>
  if other = pointer then (heap other).map fun node => { node with next } else heap other

variable (heap : Heap α) {pointer other : Nat}

@[simp] theorem store_same (node : Node α) : heap.store pointer node pointer = some node := if_pos rfl

theorem store_other (node : Node α) (different : other ≠ pointer) : heap.store pointer node other = heap other :=
  if_neg different

@[simp] theorem free_same : heap.free pointer pointer = none := if_pos rfl

theorem free_other (different : other ≠ pointer) : heap.free pointer other = heap other := if_neg different

theorem setNext_other (next : Option Nat) (different : other ≠ pointer) :
    heap.setNext pointer next other = heap other := if_neg different

theorem setNext_same {heap : Heap α} {node : Node α} (found : heap pointer = some node) (next : Option Nat) :
    heap.setNext pointer next pointer = some { node with next } := by
  simp [setNext, found]

/-- A `next` field that is set to what it was. -/
theorem setNext_self {heap : Heap α} {node : Node α} (found : heap pointer = some node) :
    heap.setNext pointer node.next = heap := by
  funext other
  by_cases same : other = pointer
  · rw [same, setNext_same found, found]
  · rw [setNext_other heap _ same]

end Heap

/-! ## Segments -/

/-- The pointers from `start` to `stop` lead through these nodes. -/
def Segment (heap : Heap α) : Option Nat → List (Nat × α) → Option Nat → Prop
  | start, [], stop => start = stop
  | start, (pointer, entry) :: rest, stop =>
    start = some pointer ∧ ∃ next, heap pointer = some ⟨next, entry⟩ ∧ Segment heap next rest stop

section Segments

variable {heap : Heap α} {start stop : Option Nat} {nodes front behind : List (Nat × α)} {pointer : Nat} {entry : α}

theorem segment_append :
    Segment heap start (front ++ behind) stop ↔
      ∃ middle, Segment heap start front middle ∧ Segment heap middle behind stop := by
  induction front generalizing start with
  | nil => simp [Segment]
  | cons node rest inductionHypothesis =>
    simp only [List.cons_append, Segment, inductionHypothesis]
    constructor
    · rintro ⟨first, next, found, middle, before, after⟩
      exact ⟨middle, ⟨first, next, found, before⟩, after⟩
    · rintro ⟨middle, ⟨first, next, found, before⟩, after⟩
      exact ⟨first, next, found, middle, before, after⟩

/-- Only the nodes of a segment matter to it. -/
theorem Segment.congr {other : Heap α} (segment : Segment heap start nodes stop)
    (same : ∀ node ∈ nodes, other node.1 = heap node.1) : Segment other start nodes stop := by
  induction nodes generalizing start with
  | nil => exact segment
  | cons node rest inductionHypothesis =>
    obtain ⟨first, next, found, behind⟩ := segment
    exact ⟨first, next, (same node (List.mem_cons_self ..)).trans found,
      inductionHypothesis behind fun later member => same later (List.mem_cons_of_mem _ member)⟩

theorem Segment.found (segment : Segment heap start nodes stop) (member : (pointer, entry) ∈ nodes) :
    ∃ next, heap pointer = some ⟨next, entry⟩ := by
  induction nodes generalizing start with
  | nil => cases member
  | cons node rest inductionHypothesis =>
    obtain ⟨_, next, found, behind⟩ := segment
    cases member with
    | head => exact ⟨next, found⟩
    | tail _ later => exact inductionHypothesis behind later

/-- A pointer that nothing is allocated at is not in a segment. -/
theorem Segment.fresh (segment : Segment heap start nodes stop) (fresh : heap pointer = none) :
    ∀ node ∈ nodes, node.1 ≠ pointer := by
  intro node member same
  obtain ⟨next, found⟩ := segment.found member
  rw [same, fresh] at found
  cases found

theorem Segment.unique {others : List (Nat × α)} (first : Segment heap start nodes none)
    (second : Segment heap start others none) : nodes = others := by
  induction nodes generalizing start others with
  | nil =>
    cases others with
    | nil => rfl
    | cons node rest => cases first.symm.trans second.1
  | cons node rest inductionHypothesis =>
    obtain ⟨startEq, next, found, behind⟩ := first
    cases others with
    | nil => cases startEq.symm.trans second
    | cons other others =>
      obtain ⟨otherEq, otherNext, otherFound, otherBehind⟩ := second
      have pointers : node.1 = other.1 := Option.some.inj (startEq.symm.trans otherEq)
      rw [pointers, otherFound, Option.some.injEq, Node.mk.injEq] at found
      rw [← found.1] at behind
      rw [inductionHypothesis behind otherBehind, Prod.ext pointers found.2.symm]

/-- A list comes through no node twice: what lies behind a node determines the length of the rest. -/
theorem Segment.nodup (segment : Segment heap start nodes none) : (nodes.map Prod.fst).Nodup := by
  induction nodes generalizing start with
  | nil => exact List.nodup_nil
  | cons node rest inductionHypothesis =>
    obtain ⟨_, next, found, behind⟩ := segment
    rw [List.map_cons, List.nodup_cons]
    refine ⟨fun again => ?_, inductionHypothesis behind⟩
    obtain ⟨other, member, same⟩ := List.mem_map.mp again
    obtain ⟨front, back, rfl⟩ := List.append_of_mem member
    obtain ⟨middle, _, later⟩ := segment_append.mp behind
    have returns : Segment heap middle (node :: (front ++ other :: back)) none :=
      ⟨later.1.trans (congrArg some same), next, found, behind⟩
    have lengths := congrArg List.length (returns.unique later)
    simp only [List.length_cons, List.length_append] at lengths
    omega

/-- In front of `pointer`, the next node is that one or another of those in front. -/
theorem Segment.next {node : Node α} (segment : Segment heap start nodes (some pointer)) {other : Nat}
    (member : other ∈ nodes.map Prod.fst) (found : heap other = some node) :
    ∃ later, node.next = some later ∧ (later = pointer ∨ later ∈ nodes.map Prod.fst) := by
  induction nodes generalizing start with
  | nil => cases member
  | cons first rest inductionHypothesis =>
    obtain ⟨_, next, firstFound, behind⟩ := segment
    cases List.mem_cons.mp member with
    | inl same =>
      rw [same, firstFound] at found
      cases found
      cases rest with
      | nil => exact ⟨pointer, behind, Or.inl rfl⟩
      | cons second rest => exact ⟨second.1, behind.1, Or.inr (by simp)⟩
    | inr later =>
      obtain ⟨after, nextEq, place⟩ := inductionHypothesis behind later
      exact ⟨after, nextEq, place.imp id (List.mem_cons_of_mem _)⟩

/-! ## Links -/

/-- The last node of a segment is made to point elsewhere. -/
theorem Segment.relink (segment : Segment heap start (front ++ [(pointer, entry)]) stop)
    (apart : ∀ node ∈ front, node.1 ≠ pointer) (target : Option Nat) :
    Segment (heap.setNext pointer target) start (front ++ [(pointer, entry)]) target := by
  obtain ⟨middle, before, reached, next, found, _⟩ := segment_append.mp segment
  refine segment_append.mpr ⟨middle, before.congr fun node member => ?_, reached, target, ?_, rfl⟩
  · exact Heap.setNext_other heap target (apart node member)
  · rw [Heap.setNext_same found]

/-- The nodes in front of a node of a list, and those behind it, are others. -/
theorem Segment.apart (segment : Segment heap start (front ++ (pointer, entry) :: behind) none) :
    (∀ node ∈ front, node.1 ≠ pointer) ∧ (∀ node ∈ behind, node.1 ≠ pointer) ∧
      ∀ node ∈ front, ∀ later ∈ behind, node.1 ≠ later.1 := by
  have distinct := segment.nodup
  rw [List.map_append, List.map_cons, List.nodup_append, List.nodup_cons] at distinct
  obtain ⟨_, ⟨once, _⟩, disjoint⟩ := distinct
  refine ⟨fun node member same => ?_, fun node member same => ?_, fun node member later laterMember same => ?_⟩
  · exact disjoint _ (List.mem_map_of_mem member) _ (List.mem_cons_self ..) same
  · exact once (List.mem_map.mpr ⟨node, member, same⟩)
  · exact disjoint _ (List.mem_map_of_mem member) _ (List.mem_cons_of_mem _ (List.mem_map_of_mem laterMember)) same

/-- A new node in front of a list. -/
theorem Segment.insertFront (segment : Segment heap start nodes none) {new : Nat} (fresh : heap new = none)
    (added : α) : Segment (heap.store new ⟨start, added⟩) (some new) ((new, added) :: nodes) none :=
  ⟨rfl, start, Heap.store_same .., segment.congr fun node member =>
    Heap.store_other heap _ (segment.fresh fresh node member)⟩

/-- A new node behind one of a list. -/
theorem Segment.insertBehind {middle : Option Nat} (before : Segment heap start (front ++ [(pointer, entry)]) middle)
    (after : Segment heap middle behind none) {new : Nat} (fresh : heap new = none) (added : α) :
    Segment ((heap.setNext pointer (some new)).store new ⟨middle, added⟩) start
      (front ++ (pointer, entry) :: (new, added) :: behind) none := by
  have whole : Segment heap start (front ++ (pointer, entry) :: behind) none := by
    have joined := segment_append.mpr ⟨middle, before, after⟩
    rwa [List.append_assoc] at joined
  obtain ⟨apartFront, apartBehind, _⟩ := whole.apart
  have unused := whole.fresh fresh
  have linked := before.relink apartFront (some new)
  have split : front ++ (pointer, entry) :: (new, added) :: behind =
      (front ++ [(pointer, entry)]) ++ (new, added) :: behind := by simp
  rw [split]
  refine segment_append.mpr ⟨some new, linked.congr fun node member => ?_, rfl, middle, Heap.store_same .., ?_⟩
  · apply Heap.store_other
    exact unused node (by simp at member ⊢; tauto)
  · refine after.congr fun node member => ?_
    rw [Heap.store_other _ _ (unused node (by simp [member])), Heap.setNext_other _ _ (apartBehind node member)]

/-- The first node is taken out. -/
theorem Segment.removeFront (segment : Segment heap start ((pointer, entry) :: nodes) none) :
    ∃ next, heap pointer = some ⟨next, entry⟩ ∧ Segment (heap.free pointer) next nodes none := by
  obtain ⟨_, apartBehind, _⟩ := Segment.apart (show Segment heap start ([] ++ (pointer, entry) :: nodes) none from segment)
  obtain ⟨_, next, found, behind⟩ := segment
  exact ⟨next, found, behind.congr fun node member => Heap.free_other heap (apartBehind node member)⟩

/-- A node behind another one is taken out. -/
theorem Segment.removeBehind {previous : Nat} {kept : α}
    (segment : Segment heap start (front ++ (previous, kept) :: (pointer, entry) :: behind) none) :
    ∃ next, heap pointer = some ⟨next, entry⟩ ∧
      Segment ((heap.setNext previous next).free pointer) start (front ++ (previous, kept) :: behind) none := by
  obtain ⟨apartFront, apartBehind, _⟩ := segment.apart
  have split : front ++ (previous, kept) :: (pointer, entry) :: behind =
      (front ++ [(previous, kept)]) ++ (pointer, entry) :: behind := by simp
  rw [split] at segment
  obtain ⟨beforeApart, afterApart, _⟩ := segment.apart
  obtain ⟨middle, before, reached, next, found, after⟩ := segment_append.mp segment
  have linked := before.relink apartFront next
  refine ⟨next, found, ?_⟩
  have joined : front ++ (previous, kept) :: behind = (front ++ [(previous, kept)]) ++ behind := by simp
  rw [joined]
  refine segment_append.mpr ⟨next, linked.congr fun node member => ?_, after.congr fun node member => ?_⟩
  · exact Heap.free_other _ (beforeApart node member)
  · rw [Heap.free_other _ (afterApart node member),
      Heap.setNext_other _ _ (apartBehind node (List.mem_cons_of_mem _ member))]

end Segments

/-! ## Loops -/

/-- `while (p != NULL && goesOn(p)) p = p->next;` with so many turns at most; no result where it reads a node that is
not there, or does not end. -/
def walk (heap : Heap α) (goesOn : Node α → Bool) : Nat → Option Nat → Option (Option Nat)
  | 0, _ => none
  | _ + 1, none => some none
  | fuel + 1, some pointer => do
    let node ← heap pointer
    if goesOn node then walk heap goesOn fuel node.next else some (some pointer)

section Loops

variable {heap : Heap α} {start stop : Option Nat} {nodes : List (Nat × α)} {goesOn : Node α → Bool}

/-- The loop goes over nodes that do not stop it. -/
theorem walk_passes (segment : Segment heap start nodes stop)
    (passes : ∀ node ∈ nodes, ∀ next, heap node.1 = some ⟨next, node.2⟩ → goesOn ⟨next, node.2⟩ = true) (fuel : Nat) :
    walk heap goesOn (nodes.length + fuel) start = walk heap goesOn fuel stop := by
  induction nodes generalizing start with
  | nil => rw [List.length_nil, Nat.zero_add, segment]
  | cons node rest inductionHypothesis =>
    obtain ⟨first, next, found, behind⟩ := segment
    have goes := passes node (List.mem_cons_self ..) next found
    rw [List.length_cons, Nat.add_right_comm, first, walk]
    simp only [found, Option.bind_eq_bind, Option.bind_some, goes, if_true]
    exact inductionHypothesis behind fun later member => passes later (List.mem_cons_of_mem _ member)

/-- It stops at the first node that stops it. -/
theorem walk_stops {pointer : Nat} {node : Node α} (segment : Segment heap start nodes (some pointer))
    (passes : ∀ node ∈ nodes, ∀ next, heap node.1 = some ⟨next, node.2⟩ → goesOn ⟨next, node.2⟩ = true)
    (found : heap pointer = some node) (stops : goesOn node = false) {fuel : Nat} (enough : nodes.length < fuel) :
    walk heap goesOn fuel start = some (some pointer) := by
  obtain ⟨rest, restEq⟩ : ∃ rest, fuel = nodes.length + (rest + 1) := ⟨fuel - nodes.length - 1, by omega⟩
  rw [restEq, walk_passes segment passes, walk]
  simp [found, stops]

/-- With none it ends at the null pointer. -/
theorem walk_ends (segment : Segment heap start nodes none)
    (passes : ∀ node ∈ nodes, ∀ next, heap node.1 = some ⟨next, node.2⟩ → goesOn ⟨next, node.2⟩ = true) {fuel : Nat}
    (enough : nodes.length < fuel) : walk heap goesOn fuel start = some none := by
  obtain ⟨rest, restEq⟩ : ∃ rest, fuel = nodes.length + (rest + 1) := ⟨fuel - nodes.length - 1, by omega⟩
  rw [restEq, walk_passes segment passes, walk]

/-- The loop takes the same way where there is more than it reads. -/
theorem walk_extends {other : Heap α} (agree : ∀ pointer node, heap pointer = some node → other pointer = some node)
    {fuel : Nat} {result : Option Nat} (walked : walk heap goesOn fuel start = some result) :
    walk other goesOn fuel start = some result := by
  induction fuel generalizing start with
  | zero => cases walked
  | succ fuel inductionHypothesis =>
    cases start with
    | none => exact walked
    | some pointer =>
      rw [walk, Option.bind_eq_bind] at walked ⊢
      obtain ⟨node, found, walked⟩ := Option.bind_eq_some_iff.mp walked
      rw [agree pointer node found, Option.bind_some]
      split at walked
      next goes =>
        rw [if_pos goes]
        exact inductionHypothesis walked
      next stops =>
        rw [if_neg stops]
        exact walked

/-- Where the loop stops there is a node. -/
theorem walk_found {fuel pointer : Nat} (walked : walk heap goesOn fuel start = some (some pointer)) :
    ∃ node, heap pointer = some node := by
  induction fuel generalizing start with
  | zero => cases walked
  | succ fuel inductionHypothesis =>
    cases start with
    | none => cases walked
    | some first =>
      rw [walk, Option.bind_eq_bind] at walked
      obtain ⟨node, found, walked⟩ := Option.bind_eq_some_iff.mp walked
      split at walked
      next goes => exact inductionHypothesis walked
      next stops =>
        cases walked
        exact ⟨node, found⟩

/-- The search for the predecessor of a node finds the one in front of it. -/
theorem walk_predecessor {previous pointer : Nat} {kept entry : α} {behind : List (Nat × α)}
    (segment : Segment heap start (nodes ++ (previous, kept) :: (pointer, entry) :: behind) none) {fuel : Nat}
    (enough : nodes.length < fuel) : walk heap (fun other => other.next ≠ some pointer) fuel start = some (some previous) := by
  have split : nodes ++ (previous, kept) :: (pointer, entry) :: behind =
      (nodes ++ [(previous, kept)]) ++ (pointer, entry) :: behind := by simp
  obtain ⟨apart, _⟩ := Segment.apart (split ▸ segment)
  obtain ⟨middle, toPrevious, reached, next, found, atNode, _⟩ := segment_append.mp segment
  rw [reached] at toPrevious
  refine walk_stops toPrevious (fun other member next otherFound => ?_) found (by simpa using atNode) enough
  -- a node further in front links to one that is still in front of the node
  obtain ⟨later, nextEq, place⟩ := toPrevious.next (List.mem_map_of_mem member) otherFound
  simp only at nextEq
  have different : later ≠ pointer := by
    cases place with
    | inl same => exact same ▸ apart (previous, kept) (by simp)
    | inr among =>
      obtain ⟨earlier, inside, rfl⟩ := List.mem_map.mp among
      exact apart earlier (by simp [inside])
  simp [nextEq, different]

end Loops

end LinkedList
