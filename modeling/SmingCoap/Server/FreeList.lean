import SmingCoap.Server.Bget

/-! # The list of free blocks in memory

The links of the free blocks and of `freelist` are eight bytes behind their
headers.  Where these nodes do not overlap (`Spaced`), the list is a ring and
the allocator's two operations on it are those of rings (`unlink_ring`,
`linkLast_ring`); they write to links of nodes and nowhere else.
-/

namespace SmingCoap.Server.Bget

open Wire (Memory int16)
open LinkedList (Ring)

/-! ## Fields -/

section
variable {memory : Memory} {x y target : Nat} {value : Int}

/-- Two nodes do not overlap. -/
def NodesApart (x y : Nat) : Prop := x + 12 ≤ y ∨ y + 12 ≤ x

theorem flink_setFlink_same (fits : target < addressSpace) : flink (setFlink memory x target) x = target :=
  Memory.load_put fits

theorem flink_setFlink_apart (apart : NodesApart x y) : flink (setFlink memory x target) y = flink memory y := by
  unfold NodesApart at apart
  exact Memory.load_put_apart (by omega)

theorem blink_setFlink (apart : x = y ∨ NodesApart x y) : blink (setFlink memory x target) y = blink memory y := by
  unfold NodesApart at apart
  exact Memory.load_put_apart (by omega)

theorem blink_setBlink_same (fits : target < addressSpace) : blink (setBlink memory x target) x = target :=
  Memory.load_put fits

theorem blink_setBlink_apart (apart : NodesApart x y) : blink (setBlink memory x target) y = blink memory y := by
  unfold NodesApart at apart
  exact Memory.load_put_apart (by omega)

theorem flink_setBlink (apart : x = y ∨ NodesApart x y) : flink (setBlink memory x target) y = flink memory y := by
  unfold NodesApart at apart
  exact Memory.load_put_apart (by omega)

theorem setFlink_outside {i : Nat} (outside : i < x + 4 ∨ x + 12 ≤ i) : setFlink memory x target i = memory i :=
  Memory.put_outside (by omega)

theorem setBlink_outside {i : Nat} (outside : i < x + 4 ∨ x + 12 ≤ i) : setBlink memory x target i = memory i :=
  Memory.put_outside (by omega)

theorem setPrevfree_outside {i : Nat} (outside : i < x ∨ x + 4 ≤ i) : setPrevfree memory x value i = memory i :=
  Memory.putInt16_outside (by omega)

theorem setBlockSize_outside {i : Nat} (outside : i < x ∨ x + 4 ≤ i) : setBlockSize memory x value i = memory i :=
  Memory.putInt16_outside (by omega)

theorem prevfree_setPrevfree_same : prevfree (setPrevfree memory x value) x = int16 value :=
  Memory.loadInt16_putInt16 value

theorem blockSize_setBlockSize_same : blockSize (setBlockSize memory x value) x = int16 value :=
  Memory.loadInt16_putInt16 value

theorem prevfree_setPrevfree_apart (apart : x + 4 ≤ y ∨ y + 4 ≤ x) :
    prevfree (setPrevfree memory x value) y = prevfree memory y :=
  Memory.loadInt16_putInt16_apart (by omega)

theorem blockSize_setPrevfree (apart : x = y ∨ x + 4 ≤ y ∨ y + 4 ≤ x) :
    blockSize (setPrevfree memory x value) y = blockSize memory y :=
  Memory.loadInt16_putInt16_apart (by omega)

theorem prevfree_setBlockSize (apart : x = y ∨ x + 4 ≤ y ∨ y + 4 ≤ x) :
    prevfree (setBlockSize memory x value) y = prevfree memory y :=
  Memory.loadInt16_putInt16_apart (by omega)

theorem blockSize_setBlockSize_apart (apart : x + 4 ≤ y ∨ y + 4 ≤ x) :
    blockSize (setBlockSize memory x value) y = blockSize memory y :=
  Memory.loadInt16_putInt16_apart (by omega)

/-- A header is read from its four bytes. -/
theorem header_congr {other : Memory} (agree : ∀ i, x ≤ i → i < x + 4 → other i = memory i) :
    prevfree other x = prevfree memory x ∧ blockSize other x = blockSize memory x :=
  ⟨Memory.loadInt16_congr fun i low high => agree i low (by omega),
    Memory.loadInt16_congr fun i low high => agree i (by omega) (by omega)⟩

/-- The links of a node are read from the eight bytes behind its header. -/
theorem links_congr {other : Memory} (agree : ∀ i, x + 4 ≤ i → i < x + 12 → other i = memory i) :
    flink other x = flink memory x ∧ blink other x = blink memory x :=
  ⟨Memory.load_congr fun i low high => agree i low (by omega),
    Memory.load_congr fun i low high => agree i (by omega) (by omega)⟩

end

/-! ## Nodes -/

/-- Nodes that do not overlap, at addresses that a pointer can hold. -/
structure Spaced (nodes : List Nat) : Prop where
  fits : ∀ node ∈ nodes, node < addressSpace
  apart : ∀ node ∈ nodes, ∀ other ∈ nodes, node ≠ other → NodesApart node other

/-- The links of these nodes may differ, and nothing else. -/
def LinksOnly (nodes : List Nat) (memory other : Memory) : Prop :=
  ∀ i, (∀ node ∈ nodes, i < node + 4 ∨ node + 12 ≤ i) → other i = memory i

section
variable {memory : Memory} {freelist b : Nat} {ring front back nodes : List Nat}

theorem Spaced.same_or_apart (spaced : Spaced nodes) {x y : Nat} (first : x ∈ nodes) (second : y ∈ nodes) :
    x = y ∨ NodesApart x y := by
  by_cases same : x = y
  · exact .inl same
  · exact .inr (spaced.apart x first y second same)

theorem mem_headD (list : List Nat) (default : Nat) : list.headD default ∈ default :: list := by
  cases list with
  | nil => exact List.mem_cons_self
  | cons first rest => exact List.mem_cons_of_mem _ List.mem_cons_self

theorem mem_getLastD (list : List Nat) (default : Nat) : list.getLastD default ∈ default :: list := by
  obtain ⟨before, here⟩ := LinkedList.exists_before default list
  rw [here]
  exact List.mem_append_right _ List.mem_cons_self

/-- The neighbours of a free block. -/
theorem Ring.neighbours (ring : Ring (flink memory) (blink memory) freelist (front ++ b :: back)) :
    blink memory b ∈ freelist :: front ∧ flink memory b ∈ freelist :: back ∧
      blink memory b ≠ b ∧ flink memory b ≠ b := by
  obtain ⟨ahead, behind, _, _⟩ := ring.links
  have before := mem_getLastD front freelist
  have after := mem_headD back freelist
  rw [← behind] at before
  rw [← ahead] at after
  have nodup := ring.nodup
  refine ⟨before, after, ?_, ?_⟩
  · intro same
    rw [same] at before
    rw [← List.cons_append] at nodup
    exact List.disjoint_of_nodup_append nodup before List.mem_cons_self
  · intro same
    rw [same] at after
    have rotated := (List.perm_middle : (freelist :: front ++ b :: back).Perm _).nodup_iff.mp nodup
    refine (List.nodup_cons.mp rotated).1 ?_
    rcases List.mem_cons.mp after with same | member
    · rw [same]
      exact List.mem_cons_self
    · exact List.mem_append_right _ member

theorem Ring.blockLinked (ring : Ring (flink memory) (blink memory) freelist (front ++ b :: back)) :
    BlockLinked b memory := by
  obtain ⟨ahead, behind, there, here⟩ := ring.links
  rw [BlockLinked, ahead, behind]
  exact ⟨there, here⟩

theorem Ring.listLinked (ring : Ring (flink memory) (blink memory) freelist nodes) : ListLinked freelist memory := by
  rw [ListLinked, ring.forward_head, ring.backward_head]
  constructor
  · cases nodes using List.reverseRecOn with
    | nil => exact (LinkedList.ring_nil.mp ring).1
    | append_singleton front last =>
      rw [List.getLastD_concat]
      exact ring.links.1
  · cases nodes with
    | nil => exact (LinkedList.ring_nil.mp ring).2
    | cons first back => exact (Ring.links (show Ring (flink memory) (blink memory) freelist ([] ++ first :: back) from ring)).2.1

/-! ## Operations -/

/-- A free block is taken out of the list. -/
theorem unlink_ring (ring : Ring (flink memory) (blink memory) freelist (front ++ b :: back))
    (spaced : Spaced (freelist :: (front ++ b :: back))) :
    Ring (flink (unlink b memory)) (blink (unlink b memory)) freelist (front ++ back) ∧
      LinksOnly (freelist :: (front ++ back)) memory (unlink b memory) := by
  obtain ⟨before, after, previousApart, nextApart⟩ := Ring.neighbours ring
  have sub : ∀ node ∈ freelist :: (front ++ back), node ∈ freelist :: (front ++ b :: back) :=
    List.cons_subset_cons _ (((List.Sublist.refl front).append (List.sublist_cons_self b back)).subset)
  have here : b ∈ freelist :: (front ++ b :: back) := List.mem_cons_of_mem _ (List.mem_append_right _ List.mem_cons_self)
  have previousKept : blink memory b ∈ freelist :: (front ++ back) := by
    rw [← List.cons_append]
    exact List.mem_append_left _ before
  have nextKept : flink memory b ∈ freelist :: (front ++ back) :=
    List.cons_subset_cons _ (List.subset_append_right front back) after
  have previousIn := sub _ previousKept
  have nextIn := sub _ nextKept
  have previousFits := spaced.fits _ previousIn
  have nextFits := spaced.fits _ nextIn
  have unlink_eq : unlink b memory = setBlink (setFlink memory (blink memory b) (flink memory b)) (flink memory b)
      (blink memory b) := by
    have ahead : flink (setFlink memory (blink memory b) (flink memory b)) b = flink memory b :=
      flink_setFlink_apart (spaced.apart _ previousIn _ here previousApart)
    have behind : blink (setFlink memory (blink memory b) (flink memory b)) b = blink memory b :=
      blink_setFlink (.inr (spaced.apart _ previousIn _ here previousApart))
    rw [unlink, ahead, behind]
  rw [unlink_eq]
  refine ⟨Ring.unlink ring ?_ ?_, ?_⟩
  · intro other member
    rw [flink_setBlink (spaced.same_or_apart nextIn (sub other member))]
    constructor
    · intro same
      rw [same, flink_setFlink_same nextFits]
    · intro differs
      exact flink_setFlink_apart (spaced.apart _ previousIn _ (sub other member) differs.symm)
  · intro other member
    constructor
    · intro same
      rw [same, blink_setBlink_same previousFits]
    · intro differs
      rw [blink_setBlink_apart (spaced.apart _ nextIn _ (sub other member) differs.symm)]
      exact blink_setFlink (spaced.same_or_apart previousIn (sub other member))
  · intro i outside
    rw [setBlink_outside (outside _ nextKept), setFlink_outside (outside _ previousKept)]

/-- A block goes to the end of the list. -/
theorem linkLast_ring (ring : Ring (flink memory) (blink memory) freelist nodes) (fresh : b ∉ freelist :: nodes)
    (spaced : Spaced (b :: freelist :: nodes)) :
    Ring (flink (linkLast freelist b memory)) (blink (linkLast freelist b memory)) freelist (nodes ++ [b]) ∧
      LinksOnly (b :: freelist :: nodes) memory (linkLast freelist b memory) := by
  have here : b ∈ b :: freelist :: nodes := List.mem_cons_self
  have top : freelist ∈ b :: freelist :: nodes := List.mem_cons_of_mem _ List.mem_cons_self
  have lastMember : blink memory freelist ∈ freelist :: nodes := by
    rw [ring.backward_head]
    exact mem_getLastD nodes freelist
  have last := List.mem_cons_of_mem b lastMember
  have topApart : b ≠ freelist := fun same => fresh (by rw [same]; exact List.mem_cons_self)
  have lastApart : b ≠ blink memory freelist := fun same => fresh (by rwa [same])
  have linkLast_eq : linkLast freelist b memory =
      setFlink (setBlink (setBlink (setFlink memory b freelist) b (blink memory freelist)) freelist b)
        (blink memory freelist) b := by
    have tail : blink (setFlink memory b freelist) freelist = blink memory freelist :=
      blink_setFlink (.inr (spaced.apart _ here _ top topApart))
    have behind : blink (setBlink (setBlink (setFlink memory b freelist) b (blink memory freelist)) freelist b) b =
        blink memory freelist := by
      rw [blink_setBlink_apart (spaced.apart _ top _ here topApart.symm), blink_setBlink_same (spaced.fits _ last)]
    rw [linkLast, tail, behind]
  rw [linkLast_eq]
  refine ⟨Ring.append ring fresh ?_ ?_ ?_ ?_, ?_⟩
  · rw [flink_setFlink_apart (spaced.apart _ last _ here lastApart.symm),
      flink_setBlink (.inr (spaced.apart _ top _ here topApart.symm)), flink_setBlink (.inl rfl),
      flink_setFlink_same (spaced.fits _ top)]
  · rw [blink_setFlink (.inr (spaced.apart _ last _ here lastApart.symm)),
      blink_setBlink_apart (spaced.apart _ top _ here topApart.symm), blink_setBlink_same (spaced.fits _ last)]
  · intro other member
    have listed := List.mem_cons_of_mem b member
    have otherApart : b ≠ other := fun same => fresh (by rwa [same])
    constructor
    · intro same
      rw [same, flink_setFlink_same (spaced.fits _ here)]
    · intro differs
      rw [flink_setFlink_apart (spaced.apart _ last _ listed differs.symm),
        flink_setBlink (spaced.same_or_apart top listed), flink_setBlink (spaced.same_or_apart here listed),
        flink_setFlink_apart (spaced.apart _ here _ listed otherApart)]
  · intro other member
    have listed := List.mem_cons_of_mem b member
    have otherApart : b ≠ other := fun same => fresh (by rwa [same])
    rw [blink_setFlink (spaced.same_or_apart last listed)]
    constructor
    · intro same
      rw [same, blink_setBlink_same (spaced.fits _ here)]
    · intro differs
      rw [blink_setBlink_apart (spaced.apart _ top _ listed differs.symm),
        blink_setBlink_apart (spaced.apart _ here _ listed otherApart),
        blink_setFlink (spaced.same_or_apart here listed)]
  · intro i outside
    rw [setFlink_outside (outside _ last), setBlink_outside (outside _ top), setBlink_outside (outside _ here),
      setFlink_outside (outside _ here)]

end

end SmingCoap.Server.Bget
