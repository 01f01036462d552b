import SmingCoap.LinkedList.Chain

/-! # Operations on null-terminated lists

A list in memory with a variable that points to its first node, and three loops
over it: a node is put at the end (`append`), taken out (`unlink`), or taken out
and put at the end (`moveToEnd`).  Each of them ends with the list that it should,
in memory that is otherwise what it was.
-/

namespace LinkedList

/-- The memory, and the variable that points to the first node. -/
structure Chained (α : Type) where
  heap : Heap α
  start : Option Nat

namespace Chained

variable {α : Type}

def empty : Chained α := ⟨fun _ => none, none⟩

/-- The list is followed by a node that is there. -/
def append (this : Chained α) (fuel new : Nat) : Option (Chained α) := do
  let _ ← this.heap new
  match this.start with
  | none => some { heap := this.heap.setNext new none, start := some new }
  | some first =>
    let last ← (← walk this.heap (fun node => node.next.isSome) fuel (some first))
    some { this with heap := (this.heap.setNext last (some new)).setNext new none }

/-- What lies behind `previous`, or the first node, is skipped. -/
def skip (this : Chained α) (previous next : Option Nat) : Chained α :=
  match previous with
  | none => { this with start := next }
  | some previous => { this with heap := this.heap.setNext previous next }

/-- Visits the nodes up to one, which is taken out. -/
def unlinkLoop (this : Chained α) (target : Nat) (freeUnlinked : Bool) :
    Nat → Option Nat → Option Nat → Option (Chained α)
  | 0, _, _ => none
  | _ + 1, _, none => some this
  | fuel + 1, previous, some current => do
    let node ← this.heap current
    if current = target then
      let this := this.skip previous node.next
      some (if freeUnlinked then { this with heap := this.heap.free current } else this)
    else unlinkLoop this target freeUnlinked fuel (some current) node.next

def unlink (this : Chained α) (fuel target : Nat) (freeUnlinked : Bool) : Option (Chained α) :=
  this.unlinkLoop target freeUnlinked fuel none this.start

/-- Visits all nodes, and takes out one. -/
def moveLoop (target : Nat) : Nat → Chained α → Option Nat → Option Nat → Option (Chained α)
  | 0, _, _, _ => none
  | _ + 1, this, _, none => some this
  | fuel + 1, this, previous, some current => do
    let node ← this.heap current
    let this := if current = target then this.skip previous node.next else this
    let node ← this.heap current
    moveLoop target fuel this (some current) node.next

def moveToEnd (this : Chained α) (fuel target : Nat) : Option (Chained α) := do
  let this ← moveLoop target fuel this none this.start
  this.append fuel target

/-- What a node holds is written. -/
def write (this : Chained α) (target : Nat) (entry : α) : Option (Chained α) := do
  let node ← this.heap target
  some { this with heap := this.heap.store target { node with entry } }

/-! ## What they leave -/

/-- The list goes through these nodes. -/
def Lists (this : Chained α) (nodes : List (Nat × α)) : Prop := Segment this.heap this.start nodes none

/-- Nothing is allocated but the nodes of the list. -/
def Exact (this : Chained α) (nodes : List (Nat × α)) : Prop :=
  this.Lists nodes ∧ ∀ pointer, this.heap pointer ≠ none → pointer ∈ nodes.map Prod.fst

section
variable {this : Chained α} {nodes front behind : List (Nat × α)} {pointer new fuel : Nat} {entry added : α}
  {next : Option Nat} {freeUnlinked : Bool}

theorem setNext_isNone (heap : Heap α) (target : Nat) (next : Option Nat) (other : Nat) :
    heap.setNext target next other = none ↔ heap other = none := by
  by_cases same : other = target
  · rw [Heap.setNext, if_pos same, Option.map_eq_none_iff]
  · rw [Heap.setNext_other _ _ same]

/-- The last node is found, and linked to the new one. -/
theorem append_spec (lists : this.Lists nodes) (found : this.heap new = some ⟨next, added⟩)
    (apart : ∀ node ∈ nodes, node.1 ≠ new) (enough : nodes.length < fuel) :
    ∃ after, this.append fuel new = some after ∧ after.Lists (nodes ++ [(new, added)]) ∧
      ∀ other, after.heap other = none ↔ this.heap other = none := by
  rcases List.eq_nil_or_concat nodes with rfl | ⟨front, ⟨last, kept⟩, rfl⟩
  · have start : this.start = none := lists
    refine ⟨⟨this.heap.setNext new none, some new⟩, ?_, ⟨rfl, none, Heap.setNext_same found none, rfl⟩, setNext_isNone _ _ _⟩
    simp only [append, found, start, Option.bind_eq_bind, Option.bind_some]
  · rw [List.concat_eq_append] at lists apart enough ⊢
    obtain ⟨middle, before, reached, _, lastFound, atEnd⟩ := segment_append.mp lists
    obtain rfl : _ = none := atEnd
    obtain ⟨first, start⟩ : ∃ first, this.start = some first := by
      cases front with
      | nil => exact ⟨last, before.trans reached⟩
      | cons node rest => exact ⟨_, before.1⟩
    have passes : ∀ node ∈ front, ∀ following, this.heap node.1 = some ⟨following, node.2⟩ →
        (⟨following, node.2⟩ : Node α).next.isSome = true := by
      intro node member following there
      rw [reached] at before
      obtain ⟨later, same, _⟩ := before.next (List.mem_map_of_mem member) there
      rw [same]
      rfl
    have short : front.length < fuel := by
      rw [List.length_append, List.length_singleton] at enough
      omega
    have walked : walk this.heap (fun node => node.next.isSome) fuel this.start = some (some last) :=
      walk_stops (reached ▸ before) passes lastFound rfl short
    have different : last ≠ new := apart (last, kept) (by simp)
    have stays : (this.heap.setNext last (some new)) new = some ⟨next, added⟩ := by
      rw [Heap.setNext_other _ _ different.symm, found]
    refine ⟨⟨(this.heap.setNext last (some new)).setNext new none, this.start⟩, ?_, ?_, fun other => ?_⟩
    · rw [start] at walked ⊢
      simp only [append, found, start, walked, Option.bind_eq_bind, Option.bind_some]
    · have linked := lists.relink (lists.apart.1) (some new)
      refine segment_append.mpr ⟨some new, linked.congr fun node member => ?_, rfl, none, Heap.setNext_same stays none, rfl⟩
      exact Heap.setNext_other _ _ (apart node member)
    · rw [setNext_isNone, setNext_isNone]

/-- A node that is taken out, wherever it is in the list. -/
theorem skip_spec {previous : Option Nat} (lists : this.Lists (front ++ (pointer, entry) :: behind))
    (found : this.heap pointer = some ⟨next, entry⟩) (before : previous = (front.getLast?.map Prod.fst)) :
    (this.skip previous next).Lists (front ++ behind) ∧ Segment (this.skip previous next).heap next behind none ∧
      (∀ other, (this.skip previous next).heap other = none ↔ this.heap other = none) ∧
      (this.skip previous next).heap pointer = this.heap pointer := by
  obtain ⟨apartFront, apartBehind, _⟩ := Segment.apart lists
  obtain ⟨middle, toPointer, reached, following, there, rest⟩ := segment_append.mp lists
  obtain rfl : following = next := by
    rw [there] at found
    cases found
    rfl
  rcases List.eq_nil_or_concat front with rfl | ⟨init, ⟨last, kept⟩, rfl⟩
  · obtain rfl : previous = none := before
    exact ⟨rest, rest, fun other => Iff.rfl, rfl⟩
  · rw [List.concat_eq_append] at lists apartFront toPointer before ⊢
    obtain rfl : previous = some last := by simpa using before
    have different : last ≠ pointer := apartFront (last, kept) (by simp)
    have whole : Segment this.heap this.start (init ++ (last, kept) :: (pointer, entry) :: behind) none := by
      rwa [List.append_assoc] at lists
    have linked := toPointer.relink whole.apart.1 following
    have after := rest.congr fun node member =>
      Heap.setNext_other this.heap following (whole.apart.2.1 node (List.mem_cons_of_mem _ member))
    exact ⟨segment_append.mpr ⟨following, linked, after⟩, after, setNext_isNone _ _ _, Heap.setNext_other _ _ different.symm⟩

/-- The list without a node; the node itself is freed, or stays as it is. -/
def Without (this after : Chained α) (nodes : List (Nat × α)) (pointer : Nat) (freed : Bool) : Prop :=
  after.Lists nodes ∧ (∀ other, other ≠ pointer → (after.heap other = none ↔ this.heap other = none)) ∧
    after.heap pointer = if freed then none else this.heap pointer

/-- The loop has visited the nodes of `visited`. -/
theorem unlinkLoop_spec (visited : List (Nat × α)) {previous current : Option Nat}
    (lists : this.Lists (visited ++ (front ++ (pointer, entry) :: behind)))
    (before : previous = visited.getLast?.map Prod.fst)
    (ahead : Segment this.heap current (front ++ (pointer, entry) :: behind) none) (enough : front.length < fuel) :
    ∃ after, this.unlinkLoop pointer freeUnlinked fuel previous current = some after ∧
      this.Without after (visited ++ (front ++ behind)) pointer freeUnlinked := by
  induction front generalizing visited previous current fuel with
  | nil =>
    obtain ⟨fuel, rfl⟩ := Nat.exists_eq_succ_of_ne_zero (Nat.ne_of_gt enough)
    obtain ⟨rfl, following, found, _⟩ := ahead
    obtain ⟨left, _, same, stays⟩ := skip_spec lists found before
    cases freeUnlinked with
    | false =>
      refine ⟨this.skip previous following, ?_, left, fun other _ => same other, stays⟩
      simp [unlinkLoop, found]
    | true =>
      refine ⟨{ this.skip previous following with heap := (this.skip previous following).heap.free pointer }, ?_, ?_,
        fun other different => ?_, Heap.free_same _⟩
      · simp [unlinkLoop, found]
      · refine left.congr fun node member => Heap.free_other _ ?_
        obtain ⟨apartFront, apartBehind, _⟩ := Segment.apart lists
        rcases List.mem_append.mp member with inFront | inBehind
        · exact apartFront node inFront
        · exact apartBehind node inBehind
      · rw [← same other]
        exact iff_of_eq (congrArg (· = none) (Heap.free_other _ different))
  | cons node rest inductionHypothesis =>
    obtain ⟨fuel, rfl⟩ := Nat.exists_eq_succ_of_ne_zero (Nat.ne_of_gt (Nat.zero_lt_of_lt enough))
    obtain ⟨rfl, following, found, later⟩ := ahead
    have split : visited ++ (node :: rest ++ (pointer, entry) :: behind) =
        (visited ++ [node]) ++ (rest ++ (pointer, entry) :: behind) := by simp
    have whole : this.Lists ((visited ++ node :: rest) ++ (pointer, entry) :: behind) := by
      simpa using lists
    have different : ¬ node.1 = pointer := whole.apart.1 node (by simp)
    rw [split] at lists
    have last : some node.1 = (visited ++ [node]).getLast?.map Prod.fst := by simp
    obtain ⟨after, result, without⟩ := inductionHypothesis _ lists last later (Nat.lt_of_succ_lt_succ enough)
    refine ⟨after, ?_, ?_⟩
    · rw [unlinkLoop, found, Option.bind_eq_bind, Option.bind_some, if_neg different]
      exact result
    · simpa using without

theorem unlink_spec (lists : this.Lists (front ++ (pointer, entry) :: behind)) (enough : front.length < fuel) :
    ∃ after, this.unlink fuel pointer freeUnlinked = some after ∧
      this.Without after (front ++ behind) pointer freeUnlinked :=
  unlinkLoop_spec [] lists rfl lists enough

/-- Behind the node that was taken out the loop only goes on to the end. -/
theorem moveLoop_passes {previous current : Option Nat} (ahead : Segment this.heap current nodes none)
    (apart : ∀ node ∈ nodes, node.1 ≠ pointer) (enough : nodes.length < fuel) :
    moveLoop pointer fuel this previous current = some this := by
  induction nodes generalizing previous current fuel with
  | nil =>
    obtain ⟨fuel, rfl⟩ := Nat.exists_eq_succ_of_ne_zero (Nat.ne_of_gt enough)
    obtain rfl : current = none := ahead
    rfl
  | cons node rest inductionHypothesis =>
    obtain ⟨fuel, rfl⟩ := Nat.exists_eq_succ_of_ne_zero (Nat.ne_of_gt (Nat.zero_lt_of_lt enough))
    obtain ⟨rfl, following, found, later⟩ := ahead
    have different : ¬ node.1 = pointer := apart node List.mem_cons_self
    simp only [moveLoop, found, Option.bind_eq_bind, Option.bind_some, if_neg different]
    exact inductionHypothesis later (fun other member => apart other (List.mem_cons_of_mem _ member))
      (Nat.lt_of_succ_lt_succ enough)

theorem moveLoop_spec (visited : List (Nat × α)) {previous current : Option Nat}
    (lists : this.Lists (visited ++ (front ++ (pointer, entry) :: behind)))
    (before : previous = visited.getLast?.map Prod.fst)
    (ahead : Segment this.heap current (front ++ (pointer, entry) :: behind) none)
    (enough : front.length + behind.length + 1 < fuel) :
    ∃ after, moveLoop pointer fuel this previous current = some after ∧
      this.Without after (visited ++ (front ++ behind)) pointer false := by
  induction front generalizing visited previous current fuel with
  | nil =>
    obtain ⟨fuel, rfl⟩ := Nat.exists_eq_succ_of_ne_zero (Nat.ne_of_gt (Nat.zero_lt_of_lt enough))
    obtain ⟨rfl, following, found, _⟩ := ahead
    obtain ⟨left, rest, same, stays⟩ := skip_spec lists found before
    refine ⟨this.skip previous following, ?_, left, fun other _ => same other, stays⟩
    simp only [moveLoop, found, Option.bind_eq_bind, Option.bind_some, if_true, stays]
    rw [List.length_nil, Nat.zero_add] at enough
    exact moveLoop_passes rest (Segment.apart lists).2.1 (Nat.lt_of_succ_lt_succ enough)
  | cons node rest inductionHypothesis =>
    obtain ⟨fuel, rfl⟩ := Nat.exists_eq_succ_of_ne_zero (Nat.ne_of_gt (Nat.zero_lt_of_lt enough))
    obtain ⟨rfl, following, found, later⟩ := ahead
    have split : visited ++ (node :: rest ++ (pointer, entry) :: behind) =
        (visited ++ [node]) ++ (rest ++ (pointer, entry) :: behind) := by simp
    have whole : this.Lists ((visited ++ node :: rest) ++ (pointer, entry) :: behind) := by
      simpa using lists
    have different : ¬ node.1 = pointer := whole.apart.1 node (by simp)
    rw [split] at lists
    rw [List.length_cons] at enough
    have last : some node.1 = (visited ++ [node]).getLast?.map Prod.fst := by simp
    obtain ⟨after, result, without⟩ := inductionHypothesis _ lists last later (show _ < fuel by omega)
    refine ⟨after, ?_, ?_⟩
    · simp only [moveLoop, found, Option.bind_eq_bind, Option.bind_some, if_neg different]
      exact result
    · simpa using without

/-- A node that is taken out is put at the end, with what it holds. -/
theorem moveToEnd_spec (lists : this.Lists (front ++ (pointer, entry) :: behind))
    (enough : front.length + behind.length + 1 < fuel) :
    ∃ after, this.moveToEnd fuel pointer = some after ∧ after.Lists (front ++ behind ++ [(pointer, entry)]) ∧
      ∀ other, after.heap other = none ↔ this.heap other = none := by
  obtain ⟨middle, result, left, same, stays⟩ := moveLoop_spec [] lists rfl lists enough
  obtain ⟨apartFront, apartBehind, _⟩ := Segment.apart lists
  obtain ⟨_, found⟩ := lists.found (List.mem_append_right _ List.mem_cons_self)
  rw [List.nil_append] at left
  have apart : ∀ node ∈ front ++ behind, node.1 ≠ pointer := by
    intro node member
    rcases List.mem_append.mp member with inFront | inBehind
    · exact apartFront node inFront
    · exact apartBehind node inBehind
  have short : (front ++ behind).length < fuel := by
    rw [List.length_append]
    omega
  obtain ⟨after, appended, listed, kept⟩ := append_spec left (stays.trans found) apart short
  refine ⟨after, Option.bind_eq_some_iff.mpr ⟨middle, result, appended⟩, listed, fun other => (kept other).trans ?_⟩
  by_cases here : other = pointer
  · rw [here, stays]
    exact Iff.rfl
  · exact same other here

/-- What a node of the list holds is replaced. -/
theorem write_spec (lists : this.Lists (front ++ (pointer, entry) :: behind)) (added : α) :
    ∃ after, this.write pointer added = some after ∧ after.Lists (front ++ (pointer, added) :: behind) ∧
      ∀ other, after.heap other = none ↔ this.heap other = none := by
  obtain ⟨apartFront, apartBehind, _⟩ := Segment.apart lists
  obtain ⟨middle, before, reached, following, found, rest⟩ := segment_append.mp lists
  refine ⟨{ this with heap := this.heap.store pointer ⟨following, added⟩ }, ?_, ?_, fun other => ?_⟩
  · simp only [write, found, Option.bind_eq_bind, Option.bind_some]
  · refine segment_append.mpr ⟨middle, before.congr fun node member => Heap.store_other _ _ (apartFront node member),
      reached, following, Heap.store_same .., rest.congr fun node member => Heap.store_other _ _ (apartBehind node member)⟩
  · by_cases here : other = pointer
    · simp only [here, Heap.store_same, found, reduceCtorEq]
    · simp only [Heap.store_other _ _ here]

/-! ## Lists that are all there is -/

theorem empty_exact : (empty : Chained α).Exact [] := ⟨rfl, fun _ allocated => absurd rfl allocated⟩

/-- A new node at the end. -/
theorem Exact.append (exact : this.Exact nodes) (fresh : this.heap new = none) (added : α) (enough : nodes.length < fuel) :
    ∃ after, Chained.append { this with heap := this.heap.store new ⟨none, added⟩ } fuel new = some after ∧
      after.Exact (nodes ++ [(new, added)]) := by
  obtain ⟨lists, all⟩ := exact
  have apart := lists.fresh fresh
  have stored : Chained.Lists { this with heap := this.heap.store new ⟨none, added⟩ } nodes :=
    lists.congr fun node member => Heap.store_other _ _ (apart node member)
  obtain ⟨after, result, listed, same⟩ := append_spec stored (Heap.store_same ..) apart enough
  refine ⟨after, result, listed, fun pointer allocated => ?_⟩
  rw [List.map_append, List.mem_append]
  by_cases here : pointer = new
  · exact .inr (List.mem_singleton.mpr here)
  · have before := (not_congr (same pointer)).mp allocated
    simp only [Heap.store_other _ _ here] at before
    exact .inl (all pointer before)

/-- A node that is taken out and freed. -/
theorem Exact.unlink (exact : this.Exact (front ++ (pointer, entry) :: behind)) (enough : front.length < fuel) :
    ∃ after, this.unlink fuel pointer true = some after ∧ after.Exact (front ++ behind) := by
  obtain ⟨lists, all⟩ := exact
  obtain ⟨after, result, listed, same, gone⟩ := unlink_spec lists enough
  refine ⟨after, result, listed, fun other allocated => ?_⟩
  have different : other ≠ pointer := fun here => allocated (here ▸ gone)
  have known := all other ((not_congr (same other different)).mp allocated)
  rw [List.map_append, List.map_cons, List.mem_append, List.mem_cons] at known
  rw [List.map_append, List.mem_append]
  exact known.imp id fun later => later.resolve_left different

/-- A node that goes to the end. -/
theorem Exact.moveToEnd (exact : this.Exact (front ++ (pointer, entry) :: behind))
    (enough : front.length + behind.length + 1 < fuel) :
    ∃ after, this.moveToEnd fuel pointer = some after ∧ after.Exact (front ++ behind ++ [(pointer, entry)]) := by
  obtain ⟨lists, all⟩ := exact
  obtain ⟨after, result, listed, same⟩ := moveToEnd_spec lists enough
  refine ⟨after, result, listed, fun other allocated => ?_⟩
  have known := all other ((not_congr (same other)).mp allocated)
  have rotated : (front ++ (pointer, entry) :: behind).Perm (front ++ behind ++ [(pointer, entry)]) :=
    List.perm_middle.trans (List.perm_append_singleton _ _).symm
  exact (rotated.map Prod.fst).subset known

/-- A node that holds something else. -/
theorem Exact.write (exact : this.Exact (front ++ (pointer, entry) :: behind)) (added : α) :
    ∃ after, this.write pointer added = some after ∧ after.Exact (front ++ (pointer, added) :: behind) := by
  obtain ⟨lists, all⟩ := exact
  obtain ⟨after, result, listed, same⟩ := write_spec lists added
  refine ⟨after, result, listed, fun other allocated => ?_⟩
  have known := all other ((not_congr (same other)).mp allocated)
  rwa [List.map_append, List.map_cons] at known ⊢

end

end Chained

/-! ## Allocators -/

theorem le_foldr_add (used : List Nat) : ∀ address ∈ used, address ≤ used.foldr Nat.add 0 := by
  induction used with
  | nil => exact fun _ member => absurd member List.not_mem_nil
  | cons first rest inductionHypothesis =>
    intro address member
    rw [List.foldr_cons]
    cases List.mem_cons.mp member with
    | inl same =>
      rw [same]
      exact Nat.le_add_right first _
    | inr later => exact Nat.le_trans (inductionHypothesis address later) (Nat.le_add_left _ first)

/-- More than the sum of the addresses in use is not in use. -/
theorem sum_fresh (used : List Nat) : used.foldr Nat.add 0 + 1 ∉ used := by
  intro member
  have bound := le_foldr_add used _ member
  omega

end LinkedList
