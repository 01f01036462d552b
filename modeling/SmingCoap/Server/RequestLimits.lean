import SmingCoap.Server.AllocatorRuns

/-! # Requests that are too large

A `bufsize` has no room for a request of more than 32760 bytes once it is
rounded and has its header: the sum is a negative number.  Any free block is
large enough for that, and what is split off it begins behind the pool.
-/

namespace SmingCoap.Server.Bget

open Wire (Memory int16 int16_eq)
open Tiling (place total mem_place_iff place_mem)

/-- An address of the pool. -/
def Site.Inside (site : Site) (address : Nat) : Prop := site.base ≤ address ∧ address < site.base + site.size

section
variable {site : Site} {allocator : Allocator} {blocks : List Block} {ring : List Nat} {size : Int} {fuel : Nat}

/-- The sum of a request that is too large. -/
theorem blockRequest_large (large : 32760 < size) (short : size < 32768) :
    -32768 ≤ blockRequest size ∧ blockRequest size ≤ -32764 := by
  have sizes : (if size < sizeQ then sizeQ else size) = size := by
    have eight : sizeQ = 8 := rfl
    rw [eight, if_neg (by omega)]
  rw [blockRequest, sizes]
  unfold roundDown sizeQuant bheadSize int16
  omega

/-- The end of a block that is split off for less than nothing lies behind the pool. -/
theorem splitBlock_negative {b free : Nat} {request : Int} (stored : blockSize allocator.memory b = free)
    (behind : prevfree allocator.memory (b + free) = free) (low : -32768 ≤ request) (high : request ≤ -32764)
    (first : site.base ≤ b) (last : b + free < site.base + site.size) :
    ∃ address after, splitBlock b request allocator = some (address, after) ∧ ¬ site.Inside address := by
  have fits := site.fits
  have short := site.short
  have onward : pointer ((pointer ((b : Int) + ((free : Int) - request)) : Int) + request) = b + free := by
    unfold pointer addressSpace at *
    omega
  have taken : ∃ after, splitBlock b request allocator =
      some (pointer ((pointer ((b : Int) + ((free : Int) - request)) : Int) + bheadSize), after) := by
    simp only [splitBlock, stored, onward, Option.bind_eq_bind, assert_bind behind]
    exact ⟨_, rfl⟩
  obtain ⟨after, taken⟩ := taken
  refine ⟨_, after, taken, ?_⟩
  unfold Site.Inside pointer bheadSize addressSpace at *
  omega

/-- A request that is too large fails only if there is no free block at all. -/
theorem bget_large (ready : Ready site allocator blocks ring) (large : 32760 < size) (short : size < 32768)
    (enough : ring.length < fuel) :
    bget site.freelist fuel size allocator = some (none, allocator) ∨
      ∃ address after, bget site.freelist fuel size allocator = some (some address, after) ∧ ¬ site.Inside address := by
  have pool := ready.toPool
  obtain ⟨low, high⟩ := blockRequest_large large short
  have positive : 0 < size := by omega
  rcases search_spec (blockRequest size) pool.linked enough with
    ⟨found, kept, small⟩ | ⟨best, before, later, found, kept, known, split, fits, first, least⟩
  · left
    rw [bget, Option.bind_eq_bind, assert_bind positive]
    simp only [Option.bind_eq_bind, found, kept, Option.bind_some, if_true]
  · right
    have listed : best ∈ ring := by
      rw [split]
      exact List.mem_append_right _ List.mem_cons_self
    obtain ⟨free, placed⟩ := pool.toRow.ring_mem.mp listed
    have stored := pool.free_size placed
    obtain ⟨front, back, rfl, rfl⟩ := mem_place_iff.mp placed
    obtain ⟨next, rest, rfl⟩ := pool.toRow.following Block.noConfusion
    have behind : Header allocator.memory _ _ next := pool.headers.following
    have following := place_following site front (.free free) next rest
    have within := (pool.toRow.within following).2
    have four := (pool.toRow.sound next (place_mem following)).four_le
    have last : site.base + total Block.size front + free < site.base + site.size := by
      rw [Block.size] at within
      omega
    obtain ⟨address, after, taken, outside⟩ := splitBlock_negative stored behind.1 low high (Nat.le_add_right _ _) last
    have branch : sizeQ + bheadSize < blockSize allocator.memory (site.base + total Block.size front) -
        blockRequest size := by
      have twelve : sizeQ + bheadSize = 12 := rfl
      rw [stored, twelve]
      omega
    refine ⟨address, after, ?_, outside⟩
    rw [bget, Option.bind_eq_bind, assert_bind positive]
    simp only [Option.bind_eq_bind, found, kept, Option.bind_some, if_neg known, if_pos branch]
    rw [taken, Option.bind_some]

end

section
variable {site : Site} {len : Int} {fuel : Nat} {initial : Allocator} {tracked : Tracked}

/-- Every request ends, and what it hands out lies in the pool if and only if no more than 32760 bytes were asked for. -/
theorem reached_inside_iff (fresh : Fresh site.freelist initial) (area : Area site len) (enough : site.size < 12 * fuel)
    (reached : Reached site len fuel initial tracked) {size : Int} (positive : 0 < size) (short : size < 32768) :
    ∃ buf after, coapMemGet site.freelist fuel size tracked.allocator = some (buf, after) ∧
      ∀ address, buf = some address → (site.Inside address ↔ size ≤ 32760) := by
  obtain ⟨blocks, ring, sound⟩ := reached.steady fresh area enough
  have steps := (sound.ready.toPool.toRow.enough enough).1
  by_cases legal : size ≤ 32760
  · rcases coapMemGet_obtains sound.ready positive legal steps with
      ⟨refused, _⟩ | ⟨buf, capacity, granted, left, after, result, _, _, ready, buffers, _⟩
    · refine ⟨none, _, refused, fun address found => ?_⟩
      cases found
    · refine ⟨some buf, after, result, ?_⟩
      rintro address ⟨rfl⟩
      obtain ⟨_, low, high⟩ := ready.toPool.toRow.buffer_inside (buffers.symm.subset List.mem_cons_self)
      refine iff_of_true ⟨?_, ?_⟩ legal <;> omega
  · rcases bget_large sound.ready (Int.not_le.mp legal) short steps with refused | ⟨address, after, result, outside⟩
    · refine ⟨none, _, refused, fun address found => ?_⟩
      cases found
    · refine ⟨some address, after, result, ?_⟩
      rintro other ⟨rfl⟩
      exact iff_of_false outside legal

theorem reached_inside_workMemory : ∃ (tracked : Tracked) (buf : Option Nat) (after : Allocator), tracked.store ≠ [] ∧
    coapMemGet 4096 400 32761 tracked.allocator = some (buf, after) ∧
    ∀ address, buf = some address → ¬ workMemory.Inside address := by
  obtain ⟨tracked, buffer, reached, store⟩ := exists_reached
  have positive : (0 : Int) < 32761 := by decide
  obtain ⟨buf, after, result, inside⟩ :=
    reached_inside_iff unused_fresh workMemory_area (by decide) reached positive (by decide)
  refine ⟨tracked, buf, after, ?_, result, fun address found within => ?_⟩
  · rw [store]
    exact List.cons_ne_nil _ _
  · exact absurd ((inside address found).mp within) (by decide)

end

end SmingCoap.Server.Bget
