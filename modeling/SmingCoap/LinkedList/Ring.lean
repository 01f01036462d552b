import Mathlib.Data.List.Chain
import Mathlib.Data.List.Nodup

/-! # Rings of nodes linked both ways

A ring starts at a head and leads through its nodes back to it, forward and
backward.  `Ring.unlink` takes a node out and `Ring.append` links one in at the
end: each sets the two links beside the node and leaves the others, and the rules
say what the new links are by the old ones.  A loop from the head on visits each
node once, in order (`Ring.visits`).
-/

namespace LinkedList

universe u v

variable {α : Type u}

/-- The links of two neighbours lead to each other. -/
def Linked (forward backward : α → α) (first second : α) : Prop :=
  forward first = second ∧ backward second = first

/-- From the head on the links lead through the nodes and back. -/
structure Ring (forward backward : α → α) (head : α) (nodes : List α) : Prop where
  linked : (head :: (nodes ++ [head])).IsChain (Linked forward backward)
  nodup : (head :: nodes).Nodup

section
variable {forward backward next previous : α → α} {head node : α} {nodes front back : List α}

theorem ring_nil : Ring forward backward head [] ↔ forward head = head ∧ backward head = head := by
  constructor
  · intro ring
    exact (List.isChain_cons_cons.mp ring.linked).1
  · intro alone
    exact ⟨List.isChain_cons_cons.mpr ⟨alone, List.isChain_singleton _⟩, List.nodup_singleton _⟩

/-- The nodes on both sides of a place in the ring. -/
theorem chain_at {relation : α → α → Prop} {first second : α} :
    (front ++ first :: second :: back).IsChain relation ↔
      (front ++ [first]).IsChain relation ∧ relation first second ∧ (second :: back).IsChain relation := by
  rw [List.isChain_split, List.isChain_cons_cons]

/-- The list in front of a node with the head, by its last node. -/
theorem exists_before (head : α) (front : List α) : ∃ before, head :: front = before ++ [front.getLastD head] := by
  cases front using List.reverseRecOn with
  | nil => exact ⟨[], rfl⟩
  | append_singleton front last => exact ⟨head :: front, by simp⟩

theorem exists_behind (head : α) (back : List α) : ∃ behind, back ++ [head] = back.headD head :: behind := by
  cases back with
  | nil => exact ⟨[], rfl⟩
  | cons first back => exact ⟨back ++ [head], rfl⟩

/-- The links of a node lead to its neighbours, and theirs to it. -/
theorem Ring.links (ring : Ring forward backward head (front ++ node :: back)) :
    forward node = back.headD head ∧ backward node = front.getLastD head ∧
      forward (front.getLastD head) = node ∧ backward (back.headD head) = node := by
  obtain ⟨before, here⟩ := exists_before head front
  obtain ⟨behind, there⟩ := exists_behind head back
  have linked := ring.linked
  rw [List.append_assoc, List.cons_append, ← List.cons_append, here, there, List.append_assoc, List.singleton_append,
    chain_at, List.isChain_cons_cons] at linked
  obtain ⟨_, before, behind, _⟩ := linked
  exact ⟨behind.1, before.2, before.1, behind.2⟩

theorem Ring.forward_head (ring : Ring forward backward head nodes) : forward head = nodes.headD head := by
  cases nodes with
  | nil => exact (ring_nil.mp ring).1
  | cons node back => exact (Ring.links (show Ring forward backward head ([] ++ node :: back) from ring)).2.2.1

theorem Ring.backward_head (ring : Ring forward backward head nodes) : backward head = nodes.getLastD head := by
  cases nodes using List.reverseRecOn with
  | nil => exact (ring_nil.mp ring).2
  | append_singleton front node =>
    rw [List.getLastD_concat]
    exact ring.links.2.2.2

/-- Only the links from a node to the next one and back matter. -/
theorem chain_congr {list : List α} (linked : list.IsChain (Linked forward backward))
    (forward_eq : ∀ node ∈ list.dropLast, next node = forward node)
    (backward_eq : ∀ node ∈ list.tail, previous node = backward node) : list.IsChain (Linked next previous) := by
  induction list with
  | nil => exact List.isChain_nil
  | cons first rest inductionHypothesis =>
    cases rest with
    | nil => exact List.isChain_singleton first
    | cons second rest =>
      obtain ⟨⟨ahead, back⟩, linked⟩ := List.isChain_cons_cons.mp linked
      have there := (forward_eq first List.mem_cons_self).trans ahead
      have here := (backward_eq second List.mem_cons_self).trans back
      exact List.isChain_cons_cons.mpr ⟨⟨there, here⟩, inductionHypothesis linked
        (fun node member => forward_eq node (List.mem_cons_of_mem _ member))
        (fun node member => backward_eq node (List.mem_cons_of_mem _ member))⟩

/-- Only the links of its nodes matter to a ring. -/
theorem Ring.congr (ring : Ring forward backward head nodes)
    (forward_eq : ∀ node ∈ head :: nodes, next node = forward node)
    (backward_eq : ∀ node ∈ head :: nodes, previous node = backward node) : Ring next previous head nodes where
  linked := by
    refine chain_congr ring.linked ?_ ?_
    · rw [← List.cons_append, List.dropLast_concat]
      exact forward_eq
    · intro node member
      exact backward_eq node ((List.perm_append_singleton head nodes).subset member)
  nodup := ring.nodup

/-- A node taken out: its neighbours lead to each other. -/
theorem Ring.unlink (ring : Ring forward backward head (front ++ node :: back))
    (forward_eq : ∀ other ∈ head :: (front ++ back),
      (other = backward node → next other = forward node) ∧ (other ≠ backward node → next other = forward other))
    (backward_eq : ∀ other ∈ head :: (front ++ back),
      (other = forward node → previous other = backward node) ∧ (other ≠ forward node → previous other = backward other)) :
    Ring next previous head (front ++ back) := by
  obtain ⟨before, here⟩ := exists_before head front
  obtain ⟨behind, there⟩ := exists_behind head back
  obtain ⟨ahead, behindhand, _, _⟩ := ring.links
  have linked := ring.linked
  have nodup := ring.nodup
  rw [ahead, behindhand] at forward_eq backward_eq
  generalize front.getLastD head = first at *
  generalize back.headD head = second at *
  have firstNodup : (before ++ [first]).Nodup := by
    rw [← here]
    exact nodup.sublist (List.Sublist.cons_cons _ (List.sublist_append_left ..))
  have secondNodup : (second :: behind).Nodup := by
    rw [← there]
    refine (List.perm_append_singleton head back).nodup_iff.mpr (nodup.sublist (List.Sublist.cons_cons _ ?_))
    exact (List.sublist_cons_self node back).trans (List.sublist_append_right ..)
  have apart : ∀ left ∈ head :: front, ∀ right ∈ back, left ≠ right := by
    intro left member right other same
    rw [← List.cons_append] at nodup
    exact List.disjoint_of_nodup_append nodup member (by rw [same]; exact List.mem_cons_of_mem _ other)
  have kept : (head :: (front ++ back)).Nodup :=
    nodup.sublist (List.Sublist.cons_cons _ ((List.Sublist.refl front).append (List.sublist_cons_self node back)))
  have firstMember : first ∈ head :: front := by
    rw [here]
    exact List.mem_append_right _ List.mem_cons_self
  have secondMember : second ∈ back ++ [head] := by
    rw [there]
    exact List.mem_cons_self
  refine ⟨?_, kept⟩
  rw [List.append_assoc, List.cons_append, ← List.cons_append, here, there, List.append_assoc,
    List.singleton_append, chain_at, List.isChain_cons_cons] at linked
  obtain ⟨frontLinked, _, _, backLinked⟩ := linked
  rw [List.append_assoc, ← List.cons_append, here, there, List.append_assoc, List.singleton_append, chain_at]
  have inFront : ∀ other ∈ head :: front, other ∈ head :: (front ++ back) := by
    intro other member
    rw [← List.cons_append]
    exact List.mem_append_left _ member
  have inBack : ∀ other ∈ back ++ [head], other ∈ head :: (front ++ back) := by
    intro other member
    rcases List.mem_append.mp member with member | alone
    · exact List.mem_cons_of_mem _ (List.mem_append_right _ member)
    · rw [List.mem_singleton.mp alone]
      exact List.mem_cons_self
  have leads := (forward_eq first (inFront first firstMember)).1 rfl
  have returns := (backward_eq second (inBack second secondMember)).1 rfl
  refine ⟨chain_congr frontLinked ?_ ?_, ⟨leads, returns⟩, chain_congr backLinked ?_ ?_⟩
  · intro other member
    rw [List.dropLast_concat] at member
    have listed : other ∈ head :: front := by
      rw [here]
      exact List.mem_append_left _ member
    refine (forward_eq other (inFront other listed)).2 fun same => ?_
    exact List.disjoint_of_nodup_append firstNodup member (List.mem_singleton.mpr same)
  · intro other member
    rw [← here, List.tail_cons] at member
    have listed := List.mem_cons_of_mem head member
    refine (backward_eq other (inFront other listed)).2 fun same => ?_
    rcases List.mem_append.mp secondMember with later | last
    · exact apart other listed second later same
    · rw [← List.mem_singleton.mp last, ← same] at kept
      exact (List.nodup_cons.mp kept).1 (List.mem_append_left _ member)
  · intro other member
    rw [← there, List.dropLast_concat] at member
    refine (forward_eq other (inBack other (List.mem_append_left _ member))).2 fun same => ?_
    exact apart first firstMember other member same.symm
  · intro other member
    have listed : other ∈ back ++ [head] := by
      rw [there]
      exact List.mem_cons_of_mem _ member
    refine (backward_eq other (inBack other listed)).2 fun same => ?_
    exact (List.nodup_cons.mp secondNodup).1 (by rwa [same] at member)

/-- A node linked in behind the last one. -/
theorem Ring.append (ring : Ring forward backward head nodes) (fresh : node ∉ head :: nodes)
    (leads : next node = head) (returns : previous node = backward head)
    (forward_eq : ∀ other ∈ head :: nodes,
      (other = backward head → next other = node) ∧ (other ≠ backward head → next other = forward other))
    (backward_eq : ∀ other ∈ head :: nodes,
      (other = head → previous other = node) ∧ (other ≠ head → previous other = backward other)) :
    Ring next previous head (nodes ++ [node]) := by
  obtain ⟨before, here⟩ := exists_before head nodes
  have linked := ring.linked
  have nodup := ring.nodup
  rw [ring.backward_head] at forward_eq returns
  generalize nodes.getLastD head = last at *
  have lastMember : last ∈ head :: nodes := by
    rw [here]
    exact List.mem_append_right _ List.mem_cons_self
  have extended : (head :: (nodes ++ [node])).Nodup := by
    rw [← List.cons_append]
    exact (List.perm_append_singleton node _).nodup_iff.mpr (List.nodup_cons.mpr ⟨fresh, nodup⟩)
  refine ⟨?_, extended⟩
  rw [← List.cons_append, here, List.append_assoc, List.singleton_append, chain_at] at linked
  rw [List.append_assoc, List.singleton_append, ← List.cons_append, here, List.append_assoc, List.singleton_append,
    chain_at]
  have ahead := (forward_eq last lastMember).1 rfl
  have back := (backward_eq head List.mem_cons_self).1 rfl
  refine ⟨chain_congr linked.1 ?_ ?_, ⟨ahead, returns⟩,
    List.isChain_cons_cons.mpr ⟨⟨leads, back⟩, List.isChain_singleton head⟩⟩
  · intro other member
    rw [List.dropLast_concat] at member
    have listed : other ∈ head :: nodes := by
      rw [here]
      exact List.mem_append_left _ member
    refine (forward_eq other listed).2 fun same => ?_
    rw [here] at nodup
    exact List.disjoint_of_nodup_append nodup member (List.mem_singleton.mpr same)
  · intro other member
    rw [← here, List.tail_cons] at member
    refine (backward_eq other (List.mem_cons_of_mem _ member)).2 fun same => ?_
    exact (List.nodup_cons.mp nodup).1 (by rwa [same] at member)

end

/-! ## Loops over a ring -/

/-- `for (node = head->next; node != head; node = node->next)`, if it ends within `fuel` tests. -/
def visitRing {β : Type v} [DecidableEq α] (forward : α → α) (head : α) (visit : β → α → β) : Nat → α → β → Option β
  | 0, _, _ => none
  | fuel + 1, node, value =>
    if node = head then some value else visitRing forward head visit fuel (forward node) (visit value node)

section
variable {β : Type v} [DecidableEq α] {forward backward : α → α} {head : α} {nodes : List α} (visit : β → α → β)

theorem visitRing_chain (nodes : List α) {fuel : Nat} (value : β) (outside : head ∉ nodes)
    (linked : (nodes ++ [head]).IsChain (Linked forward backward)) (enough : nodes.length < fuel) :
    visitRing forward head visit fuel (nodes.headD head) value = some (nodes.foldl visit value) := by
  induction nodes generalizing fuel value with
  | nil =>
    obtain ⟨fuel, rfl⟩ := Nat.exists_eq_succ_of_ne_zero (Nat.ne_of_gt enough)
    exact if_pos rfl
  | cons node rest inductionHypothesis =>
    obtain ⟨fuel, rfl⟩ := Nat.exists_eq_succ_of_ne_zero (Nat.ne_of_gt (Nat.zero_lt_of_lt enough))
    have apart : node ≠ head := fun same => outside (by rw [same]; exact List.mem_cons_self)
    have next : forward node = rest.headD head := by
      cases rest with
      | nil => exact (List.isChain_cons_cons.mp linked).1.1
      | cons second rest => exact (List.isChain_cons_cons.mp linked).1.1
    rw [List.headD_cons, visitRing, if_neg apart, next, List.foldl_cons]
    exact inductionHypothesis _ (fun member => outside (List.mem_cons_of_mem _ member)) linked.tail
      (Nat.lt_of_succ_lt_succ enough)

/-- The loop visits each node once, in order. -/
theorem Ring.visits (ring : Ring forward backward head nodes) {fuel : Nat} (value : β) (enough : nodes.length < fuel) :
    visitRing forward head visit fuel (forward head) value = some (nodes.foldl visit value) := by
  rw [ring.forward_head]
  exact visitRing_chain visit nodes value (List.nodup_cons.mp ring.nodup).1 ring.linked.tail enough

end

end LinkedList
