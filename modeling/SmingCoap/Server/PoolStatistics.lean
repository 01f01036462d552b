import Mathlib.Algebra.Order.BigOperators.Group.List
import SmingCoap.Server.AllocatorSoundness

/-! # What the allocator reports

`bstats` goes through the list of free blocks, and `bpoolv` through the pool.
Both come to an end and fail no assertion, and what they report is true: every
byte of the pool but the dummy at its end is handed out or free, and a pool in
which nothing is handed out is one free block.
-/

namespace SmingCoap.Server.Bget

open Wire (Memory int16 int16_eq)
open LinkedList (Ring)
open Ownership (Buffer Store)
open Tiling (place total mem_place_iff place_mem)

/-! ## Free blocks -/

/-- The bytes of the pool that are free. -/
def Block.spare : Block → Nat
  | free size => size
  | live _ => 0
  | dummy => 0

section
variable {site : Site} {memory : Memory} {blocks front back : List Block} {ring nodes : List Nat} {totfree : Int}
  {allocator : Allocator} {fuel base : Nat}

/-- The loop of `bstats` adds up the sizes, and keeps the largest one. -/
theorem countFree_foldl (maxfree : Int) (positive : ∀ x ∈ nodes, 0 < blockSize memory x) (low : 0 ≤ totfree)
    (bound : totfree + (nodes.map (blockSize memory)).sum < 32768) :
    ∃ most, nodes.foldl (countFree memory) (some (totfree, maxfree)) =
        some (totfree + (nodes.map (blockSize memory)).sum, most) ∧ maxfree ≤ most ∧
      (∀ x ∈ nodes, blockSize memory x ≤ most) ∧ (most = maxfree ∨ ∃ x ∈ nodes, blockSize memory x = most) := by
  induction nodes generalizing totfree maxfree with
  | nil => exact ⟨maxfree, by simp, Int.le_refl _, List.forall_mem_nil _, .inl rfl⟩
  | cons node rest inductionHypothesis =>
    have here := positive node List.mem_cons_self
    have later : ∀ x ∈ rest, 0 < blockSize memory x := fun x member => positive x (List.mem_cons_of_mem _ member)
    have sum_nonneg : 0 ≤ (rest.map (blockSize memory)).sum := by
      refine List.sum_nonneg fun value member => ?_
      obtain ⟨x, listed, rfl⟩ := List.mem_map.mp member
      exact Int.le_of_lt (later x listed)
    rw [List.map_cons, List.sum_cons] at bound ⊢
    have counted : countFree memory (some (totfree, maxfree)) node =
        some (totfree + blockSize memory node,
          if blockSize memory node > maxfree then blockSize memory node else maxfree) := by
      simp only [countFree, Option.bind_eq_bind, Option.bind_some, assert_bind here]
      rw [int16_eq (by omega) (by omega)]
    rw [List.foldl_cons, counted]
    obtain ⟨most, result, above, largest, found⟩ :=
      inductionHypothesis (if blockSize memory node > maxfree then blockSize memory node else maxfree) later
        (Int.add_nonneg low (Int.le_of_lt here)) (by omega)
    rw [result, Int.add_assoc]
    refine ⟨most, rfl, ?_, ?_, ?_⟩
    · split at above <;> omega
    · intro x member
      rcases List.mem_cons.mp member with rfl | after
      · split at above <;> omega
      · exact largest x after
    · rcases found with same | ⟨x, listed, same⟩
      · split at same
        next => exact .inr ⟨node, List.mem_cons_self, same.symm⟩
        next => exact .inl same
      · exact .inr ⟨x, List.mem_cons_of_mem _ listed, same⟩

/-- The sizes in the headers of the free blocks. -/
theorem sum_freeAddresses
    (stored : ∀ x size, (x, Block.free size) ∈ place Block.size base blocks → blockSize memory x = size) :
    ((freeAddresses base blocks).map (blockSize memory)).sum = total Block.spare blocks := by
  induction blocks generalizing base with
  | nil => rfl
  | cons block rest inductionHypothesis =>
    have later := inductionHypothesis fun x size member => stored x size (List.mem_cons_of_mem _ member)
    rw [Tiling.total_cons]
    cases block with
    | free size =>
      have here := stored base size List.mem_cons_self
      rw [Block.size] at later
      rw [freeAddresses_free, List.map_cons, List.sum_cons, here, later, Block.spare, Int.natCast_add]
    | live size =>
      rw [Block.size] at later
      rw [freeAddresses_live, later, Block.spare, Nat.zero_add]
    | dummy =>
      rw [Block.spare, Nat.zero_add]
      exact later

/-- Every byte is handed out, or free, or belongs to a dummy. -/
theorem total_parts (real : .dummy ∉ blocks) :
    total Block.taken blocks + total Block.spare blocks = total Block.size blocks := by
  induction blocks with
  | nil => rfl
  | cons block rest inductionHypothesis =>
    rw [List.mem_cons, not_or] at real
    have later := inductionHypothesis real.2
    simp only [Tiling.total_cons]
    cases block with
    | free size =>
      simp only [Block.taken, Block.spare, Block.size]
      omega
    | live size =>
      simp only [Block.taken, Block.spare, Block.size]
      omega
    | dummy => exact absurd rfl real.1

/-- A free block is among what is free. -/
theorem spare_le {size : Nat} (member : Block.free size ∈ blocks) : size ≤ total Block.spare blocks :=
  List.le_sum_of_mem (List.mem_map_of_mem member)

/-- The row is what stands in front of the dummy. -/
theorem Row.exists_front (row : Row site blocks ring) : ∃ front, blocks = front ++ [.dummy] ∧ .dummy ∉ front := by
  obtain ⟨front, rfl⟩ := List.getLast?_eq_some_iff.mp row.last
  have real := row.real
  rw [List.dropLast_concat] at real
  exact ⟨front, rfl, real⟩

theorem Row.taken_spare (row : Row site blocks ring) :
    total Block.taken blocks + total Block.spare blocks + 4 = site.size := by
  obtain ⟨front, rfl, real⟩ := row.exists_front
  have parts := total_parts real
  have filled := row.filled
  rw [Tiling.total_append] at filled ⊢
  rw [Tiling.total_append, ← filled, ← parts]
  simp only [Tiling.total_cons, Tiling.total_nil, Block.taken, Block.spare, Block.size]
  rfl

/-- What `bstats` reports. -/
theorem bstats_spec (ready : Ready site allocator blocks ring) (enough : ring.length < fuel) :
    ∃ stats, bstats site.freelist fuel allocator = some stats ∧ stats.curalloc = total Block.taken blocks ∧
      stats.totfree = total Block.spare blocks ∧ stats.nget = allocator.numget ∧ stats.nrel = allocator.numrel ∧
      (∀ size, Block.free size ∈ blocks → size ≤ stats.maxfree) ∧
      (stats.maxfree = -1 ∨ ∃ size, Block.free size ∈ blocks ∧ stats.maxfree = size) := by
  have pool := ready.toPool
  have row := pool.toRow
  have walked := ready.linked.visits (countFree allocator.memory) (some (0, -1)) enough
  have sum : (ring.map (blockSize allocator.memory)).sum = total Block.spare blocks := by
    rw [(row.frees.map _).sum_eq, sum_freeAddresses fun x size placed => pool.free_size placed]
  have positive : ∀ x ∈ ring, 0 < blockSize allocator.memory x := by
    intro x member
    obtain ⟨size, placed⟩ := row.ring_mem.mp member
    have room : 12 ≤ size := (row.sound _ (place_mem placed)).1
    rw [pool.free_size placed]
    omega
  have bound : 0 + (ring.map (blockSize allocator.memory)).sum < 32768 := by
    have parts := row.taken_spare
    have short := site.short
    omega
  obtain ⟨most, counted, _, largest, found⟩ := countFree_foldl (-1) positive (Int.le_refl 0) bound
  rw [counted, sum, Int.zero_add] at walked
  refine ⟨⟨allocator.totalloc, total Block.spare blocks, most, allocator.numget, allocator.numrel⟩, ?_, ready.counted,
    rfl, rfl, rfl, ?_, ?_⟩
  · simp only [bstats, Option.bind_eq_bind, walked, Option.bind_some]
  · intro size member
    obtain ⟨x, listed, stored⟩ := pool.listed member
    rw [← stored]
    exact largest x listed
  · rcases found with none | ⟨x, listed, stored⟩
    · exact .inl none
    · obtain ⟨size, placed⟩ := row.ring_mem.mp listed
      exact .inr ⟨size, place_mem placed, stored.symm.trans (pool.free_size placed)⟩

/-! ## The walk through the pool -/

theorem bpoolv_suffix (pool : Pool site memory (front ++ back) ring) (more : back ≠ []) (enough : back.length ≤ fuel) :
    bpoolv memory fuel (site.base + total Block.size front) = some true := by
  induction back generalizing front fuel with
  | nil => exact absurd rfl more
  | cons block rest inductionHypothesis =>
    obtain ⟨fuel, rfl⟩ := Nat.exists_eq_succ_of_ne_zero (Nat.ne_of_gt (Nat.zero_lt_of_lt enough))
    have header : Header memory _ _ block := pool.headers.at
    have placed := place_at site front block rest
    cases rest with
    | nil =>
      have last := pool.last
      rw [List.getLast?_concat] at last
      rw [bpoolv, header.2, Option.some.inj last]
      exact if_pos rfl
    | cons next rest =>
      have onPool : Pool site memory ((front ++ [block]) ++ next :: rest) ring := by
        rwa [List.append_assoc, List.singleton_append]
      have later := inductionHypothesis onPool (List.cons_ne_nil _ _) (Nat.le_of_succ_le_succ enough)
      rw [Tiling.total_append, Tiling.total_cons, Tiling.total_nil, Nat.add_zero, ← Nat.add_assoc] at later
      have fits := pool.toRow.header_fits (place_following site front block next rest)
      have short := pool.toRow.size_le placed
      have onward : pointer (((site.base + total Block.size front : Nat) : Int) + (block.size : Int)) =
          site.base + total Block.size front + block.size := pointer_add (by omega)
      have sound := pool.sound block (place_mem placed)
      cases block with
      | free size =>
        have room : 12 ≤ size := sound.1
        have most : size ≤ 32764 := short
        have linked : BlockLinked (site.base + total Block.size front) memory := by
          obtain ⟨before, behind, split⟩ := List.append_of_mem (pool.toRow.ring_mem.mpr ⟨size, placed⟩)
          have ring := pool.linked
          rw [split] at ring
          exact Ring.blockLinked ring
        have stored : blockSize memory (site.base + total Block.size front) = size := header.2
        have notLast : ¬ (size : Int) = eSent := by
          have sentinel : eSent = -32768 := rfl
          omega
        have positive : 0 < (size : Int) := by omega
        rw [bpoolv, stored, if_neg notLast]
        simp only [if_neg (Int.not_lt.mpr (Int.le_of_lt positive)), Option.bind_eq_bind, assert_bind positive,
          assert_bind linked]
        rw [Block.size] at onward later
        rw [onward]
        exact later
      | live size =>
        have room : 12 ≤ size := sound.1
        have most : size ≤ 32764 := short
        have stored : blockSize memory (site.base + total Block.size front) = -(size : Int) := header.2
        have notLast : ¬ -(size : Int) = eSent := by
          have sentinel : eSent = -32768 := rfl
          omega
        have negative : -(size : Int) < 0 := by omega
        have turned : int16 (- -(size : Int)) = size := by rw [Int.neg_neg, int16_eq (by omega) (by omega)]
        rw [bpoolv, stored, if_neg notLast]
        simp only [if_pos negative, turned]
        rw [Block.size] at onward later
        rw [onward]
        exact later
      | dummy =>
        have real := pool.real
        rw [List.dropLast_append_cons, List.dropLast_cons_cons] at real
        exact absurd (List.mem_append_right _ List.mem_cons_self) real

/-- A pool has no more blocks than fit in it. -/
theorem Row.length_le (row : Row site blocks ring) : 12 * blocks.length ≤ site.size + 8 := by
  obtain ⟨front, rfl, real⟩ := row.exists_front
  have filled := row.filled
  have sound : ∀ block ∈ front, block.Sound := fun block member => row.sound block (List.mem_append_left _ member)
  rw [Tiling.total_append, Tiling.total_cons, Tiling.total_nil, Nat.add_zero, Block.size] at filled
  rw [List.length_append, List.length_singleton]
  have count : 12 * front.length ≤ total Block.size front := by
    clear filled row
    induction front with
    | nil => exact Nat.zero_le _
    | cons block rest inductionHypothesis =>
      rw [List.mem_cons, not_or] at real
      have later := inductionHypothesis real.2 fun other member => sound other (List.mem_cons_of_mem _ member)
      have here := sound block List.mem_cons_self
      rw [Tiling.total_cons, List.length_cons]
      cases block with
      | free size =>
        have room : 12 ≤ size := here.1
        rw [Block.size]
        omega
      | live size =>
        have room : 12 ≤ size := here.1
        rw [Block.size]
        omega
      | dummy => exact absurd rfl real.1
  omega

/-! ## What is handed out -/

theorem taken_liveBuffers (sound : ∀ block ∈ blocks, block.Sound) :
    total Block.taken blocks = ((liveBuffers base blocks).map fun extent => extent.2 + 4).sum := by
  induction blocks generalizing base with
  | nil => rfl
  | cons block rest inductionHypothesis =>
    have later := @inductionHypothesis (base + block.size) fun other member =>
      sound other (List.mem_cons_of_mem _ member)
    have here := (sound block List.mem_cons_self).four_le
    rw [Tiling.total_cons, later]
    cases block with
    | free size => rw [liveBuffers_free, Block.taken, Nat.zero_add, Block.size]
    | live size =>
      rw [Block.size] at here
      rw [liveBuffers_live, List.map_cons, List.sum_cons, Block.taken, Block.size, Nat.sub_add_cancel here]
    | dummy => exact Nat.zero_add _

/-- A pool in which nothing is handed out is one free block. -/
theorem Pool.idle (pool : Pool site memory blocks ring) (none : liveBuffers site.base blocks = [])
    (room : 16 ≤ site.size) : blocks = [.free (site.size - 4), .dummy] := by
  obtain ⟨front, rfl, real⟩ := pool.toRow.exists_front
  have filled := pool.filled
  have separated := pool.separated
  rw [Tiling.total_append, Tiling.total_cons, Tiling.total_nil, Nat.add_zero, Block.size] at filled
  cases front with
  | nil =>
    rw [Tiling.total_nil] at filled
    omega
  | cons first rest =>
    cases first with
    | live size => cases none
    | dummy => exact absurd List.mem_cons_self real
    | free size =>
      cases rest with
      | nil =>
        rw [Tiling.total_cons, Tiling.total_nil, Block.size] at filled
        obtain rfl : size = site.size - 4 := by omega
        rfl
      | cons second rest =>
        cases second with
        | live size => cases none
        | dummy => exact absurd (List.mem_cons_of_mem _ List.mem_cons_self) real
        | free size => cases (List.isChain_cons_cons.mp separated).1 rfl

end

end SmingCoap.Server.Bget
