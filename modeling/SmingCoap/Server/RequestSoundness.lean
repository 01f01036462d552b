import SmingCoap.Server.ReleaseSteps

/-! # Requests

`bget` goes through the list of free blocks and takes the smallest one that is
large enough, the first of them if there are several (`bestFit_spec`); a request
fails if and only if there is none (`bget_spec`).
-/

namespace SmingCoap.Server.Bget

open Wire (Memory int16 int16_eq)
open LinkedList (Ring)
open Tiling (place total place_append mem_place_iff place_within place_apart place_mem)

/-! ## The search -/

section
variable {memory : Memory} {freelist : Nat} {nodes ring : List Nat}

/-- The first of the smallest blocks that are large enough; `freelist` if there is none. -/
theorem better_foldl (memory : Memory) (need : Int) (outside : freelist ∉ nodes) :
    (nodes.foldl (better freelist memory need) freelist = freelist ∧ ∀ x ∈ nodes, blockSize memory x < need) ∨
      ∃ best before later, nodes.foldl (better freelist memory need) freelist = best ∧ nodes = before ++ best :: later ∧
        need ≤ blockSize memory best ∧
        (∀ x ∈ before, need ≤ blockSize memory x → blockSize memory best < blockSize memory x) ∧
        ∀ x ∈ later, need ≤ blockSize memory x → blockSize memory best ≤ blockSize memory x := by
  induction nodes using List.reverseRecOn with
  | nil => exact .inl ⟨rfl, List.forall_mem_nil _⟩
  | append_singleton nodes node inductionHypothesis =>
    rw [List.mem_append, List.mem_singleton, not_or] at outside
    rw [List.foldl_append, List.foldl_cons, List.foldl_nil]
    rcases inductionHypothesis outside.1 with ⟨found, small⟩ | ⟨best, before, later, found, rfl, fits, first, least⟩
    · rw [found, better]
      by_cases large : need ≤ blockSize memory node
      · rw [if_pos ⟨large, .inl rfl⟩]
        refine .inr ⟨node, nodes, [], rfl, rfl, large, fun x member fits => ?_, List.forall_mem_nil _⟩
        exact absurd (small x member) (by omega)
      · rw [if_neg fun holds => large holds.1]
        refine .inl ⟨rfl, fun x member => ?_⟩
        rcases List.mem_append.mp member with earlier | last
        · exact small x earlier
        · rw [List.mem_singleton.mp last]
          omega
    · have known : best ≠ freelist := by
        intro same
        rw [same] at outside
        exact outside.1 (List.mem_append_right _ List.mem_cons_self)
      rw [found, better]
      by_cases closer : need ≤ blockSize memory node ∧ blockSize memory node < blockSize memory best
      · rw [if_pos ⟨closer.1, .inr closer.2⟩]
        refine .inr ⟨node, before ++ best :: later, [], rfl, rfl, closer.1, fun x member large => ?_,
          List.forall_mem_nil _⟩
        rcases List.mem_append.mp member with earlier | member
        · have further := first x earlier large
          omega
        · rcases List.mem_cons.mp member with rfl | after
          · exact closer.2
          · have further := least x after large
            omega
      · rw [if_neg fun holds => closer ⟨holds.1, holds.2.resolve_left known⟩]
        refine .inr ⟨best, before, later ++ [node], rfl, by rw [List.append_assoc]; rfl, fits, first, fun x member large => ?_⟩
        rcases List.mem_append.mp member with after | last
        · exact least x after large
        · rw [List.mem_singleton.mp last] at large ⊢
          omega

/-- The search ends, and what it finds the second search keeps. -/
theorem search_spec (need : Int) (linked : Ring (flink memory) (blink memory) freelist ring) {fuel : Nat}
    (enough : ring.length < fuel) :
    (bestFit freelist memory need fuel = some freelist ∧ firstFit freelist memory need fuel freelist = some freelist ∧
        ∀ x ∈ ring, blockSize memory x < need) ∨
      ∃ best before later, bestFit freelist memory need fuel = some best ∧
        firstFit freelist memory need fuel best = some best ∧ best ≠ freelist ∧ ring = before ++ best :: later ∧
        need ≤ blockSize memory best ∧
        (∀ x ∈ before, need ≤ blockSize memory x → blockSize memory best < blockSize memory x) ∧
        ∀ x ∈ later, need ≤ blockSize memory x → blockSize memory best ≤ blockSize memory x := by
  have outside := (List.nodup_cons.mp linked.nodup).1
  have walked := linked.visits (better freelist memory need) freelist enough
  obtain ⟨fuel, rfl⟩ := Nat.exists_eq_succ_of_ne_zero (Nat.ne_of_gt (Nat.zero_lt_of_lt enough))
  rcases better_foldl memory need outside with ⟨found, small⟩ | ⟨best, before, later, found, rfl, fits, first, least⟩
  · rw [found] at walked
    exact .inl ⟨walked, if_pos rfl, small⟩
  · rw [found] at walked
    have known : best ≠ freelist := by
      intro same
      rw [same] at outside
      exact outside (List.mem_append_right _ List.mem_cons_self)
    refine .inr ⟨best, before, later, walked, ?_, known, rfl, fits, first, least⟩
    rw [firstFit, if_neg known, if_pos fits]

end

/-! ## The request -/

/-- What a request takes from the pool, rounded and with a header. -/
def needed (requested : Int) : Nat := (max requested.toNat 8 + 3) / 4 * 4 + 4

theorem blockRequest_eq {requested : Int} (positive : 0 < requested) (short : requested ≤ 32760) :
    blockRequest requested = needed requested := by
  have sizes : (if requested < sizeQ then sizeQ else requested) = ((max requested.toNat 8 : Nat) : Int) := by
    have eight : sizeQ = 8 := rfl
    rw [eight]
    split <;> omega
  rw [blockRequest, sizes, needed]
  generalize max_eq : max requested.toNat 8 = size
  have bound : size ≤ 32760 := by omega
  have rounded : int16 (roundDown ((size : Int) + (sizeQuant - 1))) = (((size + 3) / 4 * 4 : Nat) : Int) := by
    unfold roundDown sizeQuant
    rw [int16_eq (by omega) (by omega)]
    omega
  simp only [rounded]
  unfold bheadSize
  rw [int16_eq (by omega) (by omega)]
  omega

/-- A request gets a block that its rounded size fits in. -/
theorem needed_bounds {requested : Int} (positive : 0 < requested) (short : requested ≤ 32760) :
    12 ≤ needed requested ∧ needed requested % 4 = 0 ∧ needed requested ≤ 32764 ∧
      requested + 4 ≤ needed requested ∧ (needed requested : Int) ≤ max requested 8 + 7 := by
  unfold needed
  refine ⟨?_, ?_, ?_, ?_, ?_⟩ <;> omega

/-- The bytes of the pool that are handed out. -/
def Block.taken : Block → Nat
  | free _ => 0
  | live size => size
  | dummy => 0

/-- The pool together with the count of what is handed out. -/
structure Ready (site : Site) (allocator : Allocator) (blocks : List Block) (ring : List Nat) : Prop
    extends Pool site allocator.memory blocks ring where
  counted : allocator.totalloc = total Block.taken blocks

/-- How a free block answers a request: its end is split off, or it is handed out as a whole. -/
inductive Grant (base need : Nat) (front : List Block) (size : Nat) (back : List Block) : Nat → List Block → Prop
  | split (room : need + 12 < size) : Grant base need front size back (base + total Block.size front + (size - need) + 4)
      (front ++ .free (size - need) :: .live need :: back)
  | whole (fits : need ≤ size) (tight : size ≤ need + 12) :
      Grant base need front size back (base + total Block.size front + 4) (front ++ .live size :: back)

theorem Grant.need_le {base need size buf : Nat} {front back granted : List Block}
    (grant : Grant base need front size back buf granted) : need ≤ size := by
  cases grant with
  | split room => omega
  | whole fits tight => exact fits

section
variable {site : Site} {allocator : Allocator} {blocks : List Block} {ring : List Nat} {requested : Int} {fuel : Nat}

theorem taken_le : total Block.taken blocks ≤ total Block.size blocks := by
  induction blocks with
  | nil => exact Nat.le_refl _
  | cons block rest inductionHypothesis =>
    rw [Tiling.total_cons, Tiling.total_cons]
    have here : block.taken ≤ block.size := by
      cases block with
      | free size => exact Nat.zero_le _
      | live size => exact Nat.le_refl _
      | dummy => exact Nat.zero_le _
    omega

theorem Row.taken_le_size (row : Row site blocks ring) : total Block.taken blocks ≤ site.size := by
  rw [← row.filled]
  exact taken_le

/-- The size in the header of a free block. -/
theorem Pool.free_size {memory : Memory} (pool : Pool site memory blocks ring) {x size : Nat}
    (placed : (x, Block.free size) ∈ place Block.size site.base blocks) : blockSize memory x = size := by
  obtain ⟨front, back, rfl, rfl⟩ := mem_place_iff.mp placed
  exact pool.headers.at.2

/-- A free block is in the list, with its size in its header. -/
theorem Pool.listed {memory : Memory} (pool : Pool site memory blocks ring) {size : Nat}
    (member : Block.free size ∈ blocks) : ∃ x ∈ ring, blockSize memory x = size := by
  obtain ⟨front, back, split⟩ := List.append_of_mem member
  have placed : (site.base + total Block.size front, Block.free size) ∈ place Block.size site.base blocks :=
    mem_place_iff.mpr ⟨front, back, split, rfl⟩
  exact ⟨_, pool.toRow.ring_mem.mpr ⟨size, placed⟩, pool.free_size placed⟩

/-- A request fails if and only if no free block is large enough; otherwise it gets the smallest one that is, or the
end of it. -/
theorem bget_spec (ready : Ready site allocator blocks ring) (positive : 0 < requested) (short : requested ≤ 32760)
    (enough : ring.length < fuel) :
    ((∀ size, Block.free size ∈ blocks → size < needed requested) ∧
        bget site.freelist fuel requested allocator = some (none, allocator)) ∨
      ∃ front size back buf granted left after, blocks = front ++ .free size :: back ∧
        (∀ other, Block.free other ∈ blocks → needed requested ≤ other → size ≤ other) ∧
        Grant site.base (needed requested) front size back buf granted ∧
        bget site.freelist fuel requested allocator = some (some buf, after) ∧ Ready site after granted left ∧
        Keeps site blocks allocator.memory after.memory ∧ after.numget = allocator.numget + 1 ∧
        after.numrel = allocator.numrel := by
  have pool := ready.toPool
  obtain ⟨large, aligned, _, _, _⟩ := needed_bounds positive short
  have request := blockRequest_eq positive short
  rcases search_spec (needed requested) pool.linked enough with
    ⟨found, kept, small⟩ | ⟨best, before, later, found, kept, known, split, fits, first, least⟩
  · left
    constructor
    · intro size member
      obtain ⟨x, listed, stored⟩ := pool.listed member
      have less := small x listed
      rw [stored] at less
      omega
    · simp only [bget, request, Option.bind_eq_bind, assert_bind positive, found, kept, Option.bind_some, if_true]
  · right
    have listed : best ∈ ring := by
      rw [split]
      exact List.mem_append_right _ List.mem_cons_self
    obtain ⟨size, placed⟩ := pool.toRow.ring_mem.mp listed
    have stored := pool.free_size placed
    have smallest : ∀ other, Block.free other ∈ blocks → needed requested ≤ other → size ≤ other := by
      intro other member large
      obtain ⟨x, among, stores⟩ := pool.listed member
      rw [split] at among
      have enough : (needed requested : Int) ≤ blockSize allocator.memory x := by
        rw [stores]
        exact Int.ofNat_le.mpr large
      have least : blockSize allocator.memory best ≤ blockSize allocator.memory x := by
        rcases List.mem_append.mp among with earlier | among
        · exact Int.le_of_lt (first x earlier enough)
        · rcases List.mem_cons.mp among with rfl | after
          · exact Int.le_refl _
          · exact least x after enough
      rw [stored, stores] at least
      exact Int.ofNat_le.mp least
    rw [stored] at fits
    obtain ⟨front, back, rfl, rfl⟩ := mem_place_iff.mp placed
    obtain ⟨next, rest, rfl⟩ := pool.toRow.following (Block.noConfusion)
    have enoughRoom : needed requested ≤ size := Int.ofNat_le.mp fits
    have counted := ready.counted
    have short := site.short
    by_cases room : needed requested + 12 < size
    · obtain ⟨after, result, poolAfter, keeps⟩ := splitBlock_spec pool large aligned room
      have branch : sizeQ + bheadSize < blockSize allocator.memory (site.base + total Block.size front) -
          needed requested := by
        rw [stored]
        have twelve : sizeQ + bheadSize = 12 := rfl
        omega
      refine ⟨front, size, next :: rest, _, _, ring, { allocator with
        memory := after, totalloc := int16 (allocator.totalloc + needed requested), numget := allocator.numget + 1 },
        rfl, smallest, .split room, ?_, ⟨poolAfter, ?_⟩, keeps, rfl, rfl⟩
      · simp only [bget, request, Option.bind_eq_bind, assert_bind positive, found, kept, Option.bind_some, if_neg known,
          if_pos branch, result]
      · have bound := poolAfter.toRow.taken_le_size
        simp only [Tiling.total_append, Tiling.total_cons, Block.taken] at counted bound ⊢
        rw [counted, int16_eq (by omega) (by omega)]
        omega
    · obtain ⟨after, result, poolAfter, keeps⟩ := takeBlock_spec pool
      have branch : ¬ sizeQ + bheadSize < blockSize allocator.memory (site.base + total Block.size front) -
          needed requested := by
        rw [stored]
        have twelve : sizeQ + bheadSize = 12 := rfl
        omega
      refine ⟨front, size, next :: rest, _, _, _, { allocator with
        memory := after, totalloc := int16 (allocator.totalloc + size), numget := allocator.numget + 1 },
        rfl, smallest, .whole enoughRoom (by omega), ?_, ⟨poolAfter, ?_⟩, keeps, rfl, rfl⟩
      · simp only [bget, request, Option.bind_eq_bind, assert_bind positive, found, kept, Option.bind_some, if_neg known,
          if_neg branch, result]
      · have bound := poolAfter.toRow.taken_le_size
        simp only [Tiling.total_append, Tiling.total_cons, Block.taken] at counted bound ⊢
        rw [counted, int16_eq (by omega) (by omega)]
        omega

end

end SmingCoap.Server.Bget
