import SmingCoap.Server.AllocatorRuns

/-! # Buffers of another size

`bgetr` gets a new buffer, copies what fits of the old one and releases that.
The contents come through since the two do not overlap; when there is no memory
the old buffer is kept as it is.
-/

namespace SmingCoap.Server.Bget

open Wire (Memory int16 int16_eq)
open Ownership (Buffer Store)
open Tiling (place total mem_place_iff place_mem)

/-- A buffer is exchanged for one of another size. -/
def Tracked.resized (tracked : Tracked) (buf : Nat) : Option Nat × Allocator → Tracked
  | (none, allocator) => { tracked with allocator }
  | (some nbuf, allocator) =>
    { allocator
      store := ⟨nbuf, allocator.memory.bytes nbuf (bsize allocator.memory nbuf).toNat⟩ :: tracked.store.release buf }

section
variable {site : Site} {allocator after middle : Allocator} {store : Store} {blocks : List Block} {ring : List Nat}
  {nbuf buf capacity freelist fuel : Nat} {bytes : List UInt8} {size : Int}

/-- A user fills the buffer that was handed out last. -/
theorem Sound.fill (sound : Sound site ⟨allocator, ⟨nbuf, bytes⟩ :: store⟩ blocks ring) {other : Memory}
    (same : ∀ i, i < nbuf ∨ nbuf + bytes.length ≤ i → other i = allocator.memory i) :
    Sound site ⟨{ allocator with memory := other }, ⟨nbuf, other.bytes nbuf bytes.length⟩ :: store⟩ blocks ring := by
  have row := sound.ready.toPool.toRow
  have extent := sound.extent_mem List.mem_cons_self
  refine ⟨⟨sound.ready.toPool.congr fun i own => same i ?_, sound.ready.counted⟩, ?_, ?_, ?_⟩
  · by_contra inside
    rw [not_or, Nat.not_lt, Nat.not_le] at inside
    exact (row.buffer extent).2.2.2 i inside.1 inside.2 own
  · have owned := sound.owned
    rw [List.map_cons, Buffer.extent] at owned ⊢
    simp only [Memory.length_bytes]
    exact owned
  · rintro buffer (_ | ⟨_, member⟩)
    · exact Memory.Holds.congr (Memory.holds_bytes ..) fun _ _ _ => rfl
    · have apart : ExtentsApart buffer.extent (nbuf, bytes.length) :=
        ((List.pairwise_cons.mp (Store.disjoint_iff_extent.mp sound.disjoint)).1 _ (List.mem_map_of_mem member)).symm
      refine (sound.held buffer (List.mem_cons_of_mem _ member)).congr fun i low high => same i ?_
      exact ExtentsApart.outside (Or.symm apart) low high
  · exact sound.calls

/-- `bgetr` when there is memory for the new buffer. -/
theorem bgetr_eq (result : bget freelist fuel size allocator = some (some nbuf, middle))
    (stored : blockSize middle.memory (pointer ((buf : Int) - bheadSize)) = -((capacity + 4 : Nat) : Int))
    (room : 8 ≤ capacity) (short : capacity + 4 ≤ 32764)
    (released : brel freelist buf { middle with
      memory := middle.memory.copy nbuf (middle.memory.bytes buf (min size.toNat capacity)) } = some after) :
    bgetr freelist fuel (some buf) size allocator = some (some nbuf, after) := by
  obtain ⟨whole, usable⟩ := rsize_eq (Nat.add_le_add_right room 4) short
  have positive : (0 : Int) < ((capacity : Nat) : Int) := Int.natCast_pos.mpr (Nat.lt_of_lt_of_le (by decide) room)
  have most : (if size < (capacity : Int) then size else (capacity : Int)).toNat = min size.toNat capacity := by
    split <;> omega
  rw [Nat.add_sub_cancel] at usable
  rw [bgetr, result, Option.bind_eq_bind, Option.bind_some]
  simp only [stored, whole, usable, Option.bind_eq_bind, assert_bind positive, most]
  rw [released, Option.bind_some]

end

section
variable {site : Site} {len : Int} {fuel : Nat} {initial : Allocator} {tracked : Tracked}

/-- Of a buffer that is not empty and lies apart from the others a release takes nothing away. -/
theorem release_cons {fresh buffer : Buffer} {store : Store} (apart : fresh.Apart buffer) (filled : fresh.bytes ≠ [])
    (too : buffer.bytes ≠ []) :
    Store.release (fresh :: store) buffer.address = fresh :: Store.release store buffer.address := by
  have length := List.length_pos_iff.mpr filled
  have another := List.length_pos_iff.mpr too
  unfold Buffer.Apart at apart
  rw [Store.release, List.filter_cons_of_pos]
  · rfl
  · exact decide_eq_true (by omega)

/-- The old contents go to the new buffer, and the old buffer is released. -/
theorem Sound.exchange {middle : Allocator} {store : Store} {nbuf n : Nat} {bytes : List UInt8} {blocks : List Block}
    {ring : List Nat} (sound : Sound site ⟨middle, ⟨nbuf, bytes⟩ :: store⟩ blocks ring) {buffer : Buffer}
    (member : buffer ∈ store) (fits : n ≤ bytes.length) (within : n ≤ buffer.bytes.length)
    (enough : site.size < 12 * fuel) :
    ∃ after, brel site.freelist buffer.address
        { middle with memory := middle.memory.copy nbuf (middle.memory.bytes buffer.address n) } = some after ∧
      Steady site ⟨after, ⟨nbuf, after.memory.bytes nbuf bytes.length⟩ :: store.release buffer.address⟩ ∧
      bsize after.memory nbuf = bytes.length ∧ after.memory.bytes nbuf n = buffer.bytes.take n := by
  have listed : buffer ∈ (Tracked.mk middle (⟨nbuf, bytes⟩ :: store)).store := List.mem_cons_of_mem _ member
  have copied : middle.memory.bytes buffer.address n = buffer.bytes.take n := (sound.held buffer listed).take within
  generalize source_eq : middle.memory.bytes buffer.address n = source at *
  have length : source.length = n := by rw [← source_eq, Memory.length_bytes]
  have outside : ∀ i, i < nbuf ∨ nbuf + bytes.length ≤ i → middle.memory.copy nbuf source i = middle.memory i :=
    fun i outside => Memory.copy_outside _ (by omega)
  have filled := sound.fill outside
  have apart := (List.pairwise_cons.mp sound.disjoint).1 buffer member
  have first := sound.filled _ List.mem_cons_self
  have second := sound.filled buffer listed
  have legal : Legal ⟨{ middle with memory := middle.memory.copy nbuf source },
      ⟨nbuf, (middle.memory.copy nbuf source).bytes nbuf bytes.length⟩ :: store⟩ (.release buffer.address) :=
    ⟨buffer, List.mem_cons_of_mem _ member, rfl⟩
  obtain ⟨final, left, nodes, _, taken, soundAfter, _⟩ :=
    filled.step legal (filled.ready.toPool.toRow.enough enough).1
  obtain ⟨after, released, rfl⟩ := Option.map_eq_some_iff.mp taken
  have kept : (Store.release (⟨nbuf, (middle.memory.copy nbuf source).bytes nbuf bytes.length⟩ :: store) buffer.address) =
      ⟨nbuf, (middle.memory.copy nbuf source).bytes nbuf bytes.length⟩ :: store.release buffer.address := by
    refine release_cons ?_ ?_ second
    · rw [Buffer.Apart] at apart ⊢
      rwa [Memory.length_bytes]
    · rw [← List.length_pos_iff, Memory.length_bytes]
      exact List.length_pos_iff.mpr first
  simp only [kept] at soundAfter
  have held := soundAfter.held _ List.mem_cons_self
  have usable := soundAfter.ready.toPool.bsize_eq (soundAfter.extent_mem List.mem_cons_self)
  have contents : after.memory.bytes nbuf bytes.length = (middle.memory.copy nbuf source).bytes nbuf bytes.length :=
    held.eq_bytes (Memory.length_bytes ..)
  rw [Memory.length_bytes] at usable
  refine ⟨after, released, ?_, usable, ?_⟩
  · rw [contents]
    exact ⟨_, _, soundAfter⟩
  · have first := (Memory.copy_holds middle.memory nbuf source).eq_bytes length
    have front := Memory.Holds.take held (show n ≤ _ by rwa [Memory.length_bytes])
    rw [front, ← (Memory.holds_bytes _ _ _).take (by rwa [Memory.length_bytes]), first, copied]

/-- What `bgetr` comes to. -/
theorem Sound.resize {blocks : List Block} {ring : List Nat} (sound : Sound site tracked blocks ring) {buffer : Buffer}
    (member : buffer ∈ tracked.store) {size : Int} (positive : 0 < size) (short : size ≤ 32760)
    (enough : site.size < 12 * fuel) :
    (bgetr site.freelist fuel (some buffer.address) size tracked.allocator = some (none, tracked.allocator)) ∨
      ∃ nbuf after, bgetr site.freelist fuel (some buffer.address) size tracked.allocator = some (some nbuf, after) ∧
        Steady site (tracked.resized buffer.address (some nbuf, after)) ∧ size ≤ bsize after.memory nbuf ∧
        after.memory.bytes nbuf (min size.toNat buffer.bytes.length) =
          buffer.bytes.take (min size.toNat buffer.bytes.length) := by
  have steps := (sound.ready.toPool.toRow.enough enough).1
  rcases coapMemGet_obtains sound.ready positive short steps with
    ⟨refused, _⟩ | ⟨nbuf, capacity, granted, left, middle, result, large, _, ready, buffers, kept, gets, releases⟩
  · left
    rw [bgetr, show bget site.freelist fuel size tracked.allocator = _ from refused]
    rfl
  · right
    have keptHere : ∀ buffer ∈ tracked.store, ∀ i, buffer.address ≤ i → i < buffer.address + buffer.bytes.length →
        middle.memory i = tracked.allocator.memory i :=
      fun buffer member i low high => kept _ (sound.extent_mem member) i low high
    obtain ⟨soundMiddle, length⟩ := sound.grant ready buffers keptHere gets releases
    -- The old buffer is still there, with its header.
    obtain ⟨address, whole, placed, same⟩ :=
      mem_liveBuffers.mp (buffers.symm.subset (List.mem_cons_of_mem _ (sound.extent_mem member)))
    obtain ⟨header, stored⟩ := ready.toPool.liveHeader placed
    have sizes : 12 ≤ whole ∧ whole % 4 = 0 := ready.toPool.sound _ (place_mem placed)
    have most : whole ≤ 32764 := ready.toPool.toRow.size_le placed
    obtain ⟨here, there⟩ := Prod.mk.inj same
    have room : 8 ≤ buffer.bytes.length := by omega
    have whole_eq : buffer.bytes.length + 4 = whole := by omega
    rw [← here] at header
    rw [← header, ← whole_eq] at stored
    rw [← whole_eq] at most
    have fits : min size.toNat buffer.bytes.length ≤
        (middle.memory.bytes nbuf (bsize middle.memory nbuf).toNat).length := by
      rw [length]
      omega
    obtain ⟨after, released, steady, usable, contents⟩ :=
      soundMiddle.exchange member fits (Nat.min_le_right ..) enough
    rw [length] at steady usable
    refine ⟨nbuf, after, bgetr_eq result stored room most released, ?_, ?_, contents⟩
    · rw [Tracked.resized, usable, Int.toNat_natCast]
      exact steady
    · rw [usable]
      exact large

/-- In every state a buffer can be exchanged for one of another size: it keeps its contents as far as they fit, all
other buffers are kept, and without memory nothing changes. -/
theorem reached_resize (fresh : Fresh site.freelist initial) (area : Area site len) (enough : site.size < 12 * fuel)
    (reached : Reached site len fuel initial tracked) {buffer : Buffer} (member : buffer ∈ tracked.store) {size : Int}
    (positive : 0 < size) (short : size ≤ 32760) :
    ∃ result, bgetr site.freelist fuel (some buffer.address) size tracked.allocator = some result ∧
      Steady site (tracked.resized buffer.address result) ∧ (result.1 = none → result.2 = tracked.allocator) ∧
      ∀ nbuf, result.1 = some nbuf → size ≤ bsize result.2.memory nbuf ∧
        result.2.memory.bytes nbuf (min size.toNat buffer.bytes.length) =
          buffer.bytes.take (min size.toNat buffer.bytes.length) := by
  have steady := reached.steady fresh area enough
  obtain ⟨blocks, ring, sound⟩ := steady
  rcases sound.resize member positive short enough with refused | ⟨nbuf, after, result, steadyAfter, large, contents⟩
  · refine ⟨_, refused, ⟨blocks, ring, sound⟩, fun _ => rfl, fun nbuf found => ?_⟩
    cases found
  · refine ⟨_, result, steadyAfter, fun missing => ?_, ?_⟩
    · cases missing
    · rintro other ⟨rfl⟩
      exact ⟨large, contents⟩

theorem reached_resize_workMemory : ∃ (tracked : Tracked) (buffer : Buffer) (result : Option Nat × Allocator),
    tracked.store = [buffer] ∧ bgetr 4096 400 (some buffer.address) 100 tracked.allocator = some result ∧
    Steady workMemory (tracked.resized buffer.address result) := by
  obtain ⟨tracked, buffer, reached, store⟩ := exists_reached
  have member : buffer ∈ tracked.store := by
    rw [store]
    exact List.mem_cons_self
  have positive : (0 : Int) < 100 := by decide
  obtain ⟨result, taken, steady, _⟩ :=
    reached_resize unused_fresh workMemory_area (by decide) reached member positive (by decide)
  exact ⟨tracked, buffer, result, store, taken, steady⟩

end

end SmingCoap.Server.Bget
