import SmingCoap.Server.AllocatorRuns
import SmingCoap.Server.OptionNodes

/-! # Two users of the allocator

`Divided` says that the buffers that are out are those of a store and some more,
which belong to someone else, here to an option list.  The calls of the users of
the store leave those alone, and what the other one does to its own buffers does
not touch the store.
-/

namespace SmingCoap.Server.Bget

open Wire (Memory int16 int16_eq)
open Ownership (Buffer Store)
open Tiling (place total mem_place_iff place_mem)

/-- The live buffers are those of the store and `own`. -/
structure Divided (site : Site) (allocator : Allocator) (store : Store) (own : List (Nat × Nat)) (blocks : List Block)
    (ring : List Nat) : Prop where
  ready : Ready site allocator blocks ring
  owned : (store.map Buffer.extent ++ own).Perm (liveBuffers site.base blocks)
  held : store.Held allocator.memory
  calls : allocator.numget = allocator.numrel + UInt32.ofNat (store.length + own.length)

/-- The buffers with what lies in them. -/
def snapshot (memory : Memory) (own : List (Nat × Nat)) : Store :=
  own.map fun extent => ⟨extent.1, memory.bytes extent.1 extent.2⟩

section
variable {site : Site} {allocator : Allocator} {store kept : Store} {own : List (Nat × Nat)} {blocks : List Block}
  {ring : List Nat} {memory other : Memory} {address : Nat}

theorem map_extent_snapshot : (snapshot memory own).map Buffer.extent = own := by
  rw [snapshot, List.map_map]
  conv_rhs => rw [← List.map_id own]
  refine List.map_congr_left fun extent _ => ?_
  simp only [Function.comp_apply, Buffer.extent, Memory.length_bytes, id]

theorem snapshot_held : (snapshot memory own).Held memory := by
  intro buffer member
  obtain ⟨extent, _, rfl⟩ := List.mem_map.mp member
  exact Memory.holds_bytes ..

theorem Divided.sound (divided : Divided site allocator store own blocks ring) :
    Sound site ⟨allocator, store ++ snapshot allocator.memory own⟩ blocks ring where
  ready := divided.ready
  owned := by
    rw [List.map_append, map_extent_snapshot]
    exact divided.owned
  held buffer member := by
    rcases List.mem_append.mp member with users | others
    · exact divided.held buffer users
    · exact snapshot_held buffer others
  calls := by
    rw [List.length_append, snapshot, List.length_map]
    exact divided.calls

theorem Sound.divided (sound : Sound site ⟨allocator, store ++ kept⟩ blocks ring) :
    Divided site allocator store (kept.map Buffer.extent) blocks ring where
  ready := sound.ready
  owned := by
    rw [← List.map_append]
    exact sound.owned
  held buffer member := sound.held buffer (List.mem_append_left _ member)
  calls := by
    rw [List.length_map, ← List.length_append]
    exact sound.calls

/-- All of them are those of the store. -/
theorem Sound.undivided (sound : Sound site ⟨allocator, store⟩ blocks ring) :
    Divided site allocator store [] blocks ring where
  ready := sound.ready
  owned := by
    rw [List.append_nil]
    exact sound.owned
  held := sound.held
  calls := sound.calls

/-! ## What belongs to whom -/

theorem Divided.places (divided : Divided site allocator store own blocks ring) : Places own where
  apart := by
    have apart := (divided.owned.pairwise_iff Or.symm).mpr divided.ready.toPool.toRow.buffers_apart
    exact (List.pairwise_append.mp apart).2.1
  storable extent member := by
    have listed := divided.owned.subset (List.mem_append_right _ member)
    have row := divided.ready.toPool.toRow
    obtain ⟨room, low, _, _⟩ := row.buffer listed
    obtain ⟨_, _, high⟩ := row.buffer_inside listed
    have positive := site.basePositive
    have fits := site.fits
    clear row listed divided
    refine ⟨?_, ?_, ?_⟩ <;> omega

/-- The buffers of the store lie apart from the others. -/
theorem Divided.apart (divided : Divided site allocator store own blocks ring) {buffer : Buffer} (member : buffer ∈ store)
    {extent : Nat × Nat} (other : extent ∈ own) : ExtentsApart buffer.extent extent := by
  have apart := (divided.owned.pairwise_iff Or.symm).mpr divided.ready.toPool.toRow.buffers_apart
  exact (List.pairwise_append.mp apart).2.2 _ (List.mem_map_of_mem member) _ other

/-- The other one writes to its own buffers. -/
theorem Divided.update (divided : Divided site allocator store own blocks ring)
    (outside : Outside own allocator.memory other) :
    Divided site { allocator with memory := other } store own blocks ring where
  ready := by
    refine ⟨divided.ready.toPool.congr fun i inside => outside i fun extent member => ?_, divided.ready.counted⟩
    have listed := divided.owned.subset (List.mem_append_right _ member)
    by_contra within
    rw [not_or, Nat.not_lt, Nat.not_le] at within
    exact (divided.ready.toPool.toRow.buffer listed).2.2.2 i within.1 within.2 inside
  owned := divided.owned
  held := divided.held.congr fun buffer member i low high => outside i fun extent listed =>
    ExtentsApart.outside (Or.symm (divided.apart member listed)) low high
  calls := divided.calls

/-! ## Calls -/

/-- What a snapshot holds is what the memory holds there. -/
theorem held_snapshot_agree (held : (snapshot memory own).Held other) {extent : Nat × Nat} (member : extent ∈ own)
    {i : Nat} (low : extent.1 ≤ i) (high : i < extent.1 + extent.2) : other i = memory i := by
  have there : other.Holds extent.1 (memory.bytes extent.1 extent.2) := held _ (List.mem_map_of_mem member)
  have here := Memory.holds_bytes memory extent.1 extent.2
  have agree := here.agree there (show i - extent.1 < _ by rw [Memory.length_bytes]; omega)
  rwa [Nat.add_sub_cancel' low] at agree

/-- No buffer of the store begins where one of the others does. -/
theorem Divided.address_ne (divided : Divided site allocator store own blocks ring) {buffer : Buffer}
    (member : buffer ∈ store) {extent : Nat × Nat} (other : extent ∈ own) : buffer.address ≠ extent.1 := by
  intro same
  have apart := divided.apart member other
  have filled := List.length_pos_iff.mpr (divided.sound.filled buffer (List.mem_append_left _ member))
  have room := (divided.places.storable extent other).2.1
  unfold ExtentsApart Buffer.extent at apart
  omega

theorem release_of_ne (different : ∀ buffer ∈ store, buffer.address ≠ address) : store.release address = store :=
  List.filter_eq_self.mpr fun buffer member => decide_eq_true (different buffer member)

theorem write_of_ne {offset : Nat} {byte : UInt8} (different : ∀ buffer ∈ store, buffer.address ≠ address) :
    store.write address offset byte = store := by
  rw [Store.write]
  conv_rhs => rw [← List.map_id store]
  exact List.map_congr_left fun buffer member => if_neg (different buffer member)

theorem mem_snapshot {buffer : Buffer} (member : buffer ∈ snapshot memory own) :
    ∃ extent ∈ own, extent.1 = buffer.address := by
  obtain ⟨extent, listed, rfl⟩ := List.mem_map.mp member
  exact ⟨extent, listed, rfl⟩

variable {fuel : Nat}

/-- The users of the store make a call. -/
theorem Divided.call (divided : Divided site allocator store own blocks ring) {call : MemCall}
    (legal : Legal ⟨allocator, store⟩ call) (enough : site.size < 12 * fuel) :
    ∃ after blocks ring, Tracked.step site.freelist fuel ⟨allocator, store⟩ call = some after ∧
      Divided site after.allocator after.store own blocks ring ∧
      ∀ extent ∈ own, ∀ i, extent.1 ≤ i → i < extent.1 + extent.2 → after.allocator.memory i = allocator.memory i := by
  have sound := divided.sound
  have different : ∀ buffer ∈ store, ∀ other ∈ snapshot allocator.memory own, other.address ≠ buffer.address := by
    intro buffer member other listed
    obtain ⟨extent, among, same⟩ := mem_snapshot listed
    rw [← same]
    exact (divided.address_ne member among).symm
  have legalBoth : Legal ⟨allocator, store ++ snapshot allocator.memory own⟩ call := by
    cases call with
    | get size => exact legal
    | get0 size => exact legal
    | write buf offset byte =>
      obtain ⟨buffer, member, same, inside⟩ := legal
      exact ⟨buffer, List.mem_append_left _ member, same, inside⟩
    | release buf =>
      obtain ⟨buffer, member, same⟩ := legal
      exact ⟨buffer, List.mem_append_left _ member, same⟩
  obtain ⟨final, nextBlocks, nextRing, _, taken, soundAfter, _⟩ :=
    sound.step legalBoth (sound.ready.toPool.toRow.enough enough).1
  have alone : ∃ after, Tracked.step site.freelist fuel ⟨allocator, store⟩ call = some after ∧
      final = ⟨after.allocator, after.store ++ snapshot allocator.memory own⟩ := by
    cases call with
    | get size =>
      obtain ⟨⟨buf, allocated⟩, result, rfl⟩ := Option.map_eq_some_iff.mp taken
      refine ⟨_, Option.map_eq_some_iff.mpr ⟨_, result, rfl⟩, ?_⟩
      cases buf <;> rfl
    | get0 size =>
      obtain ⟨⟨buf, allocated⟩, result, rfl⟩ := Option.map_eq_some_iff.mp taken
      refine ⟨_, Option.map_eq_some_iff.mpr ⟨_, result, rfl⟩, ?_⟩
      cases buf <;> rfl
    | write buf offset byte =>
      obtain ⟨buffer, member, rfl, _⟩ := legal
      obtain rfl := Option.some.inj taken
      refine ⟨_, rfl, ?_⟩
      rw [Store.write, List.map_append, ← Store.write, ← Store.write, write_of_ne (different buffer member)]
    | release buf =>
      obtain ⟨buffer, member, rfl⟩ := legal
      obtain ⟨released, result, rfl⟩ := Option.map_eq_some_iff.mp taken
      refine ⟨_, Option.map_eq_some_iff.mpr ⟨_, result, rfl⟩, ?_⟩
      rw [Store.release, List.filter_append, ← Store.release, ← Store.release, release_of_ne (different buffer member)]
  obtain ⟨after, result, rfl⟩ := alone
  refine ⟨after, nextBlocks, nextRing, result, ?_, fun extent member i low high => ?_⟩
  · have divided := soundAfter.divided
    rwa [map_extent_snapshot] at divided
  · exact held_snapshot_agree (fun buffer listed => soundAfter.held buffer (List.mem_append_right _ listed)) member low high

/-- What the other one obtains is apart from all that there is. -/
theorem Divided.obtains (divided : Divided site allocator store own blocks ring) {size : Int}
    {result : Option (Option Nat × Allocator)} (obtains : Obtains site blocks allocator size result) :
    (result = some (none, allocator) ∧ ∀ free, Block.free free ∈ blocks → free < needed size) ∨
      ∃ new capacity blocks ring after, result = some (some new, after) ∧
        size ≤ (capacity : Nat) ∧ Divided site after store ((new, capacity) :: own) blocks ring ∧
        (∀ extent ∈ own, ∀ i, extent.1 ≤ i → i < extent.1 + extent.2 → after.memory i = allocator.memory i) ∧
        ∀ extent ∈ own, extent.1 ≠ new := by
  rcases obtains with
    refused | ⟨new, capacity, granted, left, after, result, large, _, ready, buffers, kept, gets, releases⟩
  · exact .inl refused
  · right
    have keptHere : ∀ extent ∈ store.map Buffer.extent ++ own, ∀ i, extent.1 ≤ i → i < extent.1 + extent.2 →
        after.memory i = allocator.memory i := fun extent member => kept extent (divided.owned.subset member)
    have dividedAfter : Divided site after store ((new, capacity) :: own) granted left := by
      refine ⟨ready, ?_, divided.held.congr fun buffer member => ?_, ?_⟩
      · exact List.perm_middle.trans ((divided.owned.cons _).trans buffers.symm)
      · exact keptHere buffer.extent (List.mem_append_left _ (List.mem_map_of_mem member))
      · rw [gets, releases, divided.calls, List.length_cons, ← Nat.add_assoc, UInt32.ofNat_add _ 1, UInt32.add_assoc]
        rfl
    refine ⟨new, capacity, granted, left, after, result, large, dividedAfter, fun extent member =>
      keptHere extent (List.mem_append_right _ member), fun extent member same => ?_⟩
    have places := dividedAfter.places
    have apart := (List.pairwise_cons.mp places.apart).1 extent member
    have room := (places.storable _ List.mem_cons_self).2.1
    have too := (places.storable extent (List.mem_cons_of_mem _ member)).2.1
    unfold ExtentsApart at apart
    simp only at apart room
    omega

/-- The other one asks for a buffer. -/
theorem Divided.get (divided : Divided site allocator store own blocks ring) {size : Int} (positive : 0 < size)
    (short : size ≤ 32760) (enough : site.size < 12 * fuel) :
    coapMemGet site.freelist fuel size allocator = some (none, allocator) ∨
      ∃ new capacity blocks ring after, coapMemGet site.freelist fuel size allocator = some (some new, after) ∧
        size ≤ (capacity : Nat) ∧ Divided site after store ((new, capacity) :: own) blocks ring ∧
        (∀ extent ∈ own, ∀ i, extent.1 ≤ i → i < extent.1 + extent.2 → after.memory i = allocator.memory i) ∧
        ∀ extent ∈ own, extent.1 ≠ new := by
  have steps := (divided.ready.toPool.toRow.enough enough).1
  exact (divided.obtains (coapMemGet_obtains divided.ready positive short steps)).imp_left And.left

/-- The other one releases a buffer of its own. -/
theorem Divided.release (divided : Divided site allocator store own blocks ring) {capacity : Nat}
    (member : (address, capacity) ∈ own) (enough : site.size < 12 * fuel) :
    ∃ blocks ring after, brel site.freelist address allocator = some after ∧
      Divided site after store (own.filter fun extent => extent.1 ≠ address) blocks ring ∧
      (own.filter fun extent => extent.1 ≠ address).length + 1 = own.length ∧
      ∀ extent ∈ own, extent.1 ≠ address → ∀ i, extent.1 ≤ i → i < extent.1 + extent.2 →
        after.memory i = allocator.memory i := by
  have sound := divided.sound
  have legal : Legal ⟨allocator, store ++ snapshot allocator.memory own⟩ (.release address) :=
    ⟨_, List.mem_append_right _ (List.mem_map_of_mem member), rfl⟩
  obtain ⟨final, nextBlocks, nextRing, _, taken, soundAfter, _⟩ :=
    sound.step legal (sound.ready.toPool.toRow.enough enough).1
  obtain ⟨after, result, rfl⟩ := Option.map_eq_some_iff.mp taken
  have different : ∀ buffer ∈ store, buffer.address ≠ address := fun buffer listed => divided.address_ne listed member
  have others : (snapshot allocator.memory own).release address =
      snapshot allocator.memory (own.filter fun extent => extent.1 ≠ address) := by
    rw [Store.release, snapshot, List.filter_map, snapshot]
    rfl
  have left : (store ++ snapshot allocator.memory own).release address =
      store ++ snapshot allocator.memory (own.filter fun extent => extent.1 ≠ address) := by
    rw [← others, Store.release, List.filter_append, ← Store.release, ← Store.release, release_of_ne different]
  have listed : (Buffer.mk address (allocator.memory.bytes address capacity)) ∈ store ++ snapshot allocator.memory own :=
    List.mem_append_right _ (List.mem_map_of_mem member)
  have parted := (Store.release_perm sound.disjoint sound.filled listed).length_eq
  rw [left] at parted soundAfter
  simp only [List.length_cons, List.length_append, snapshot, List.length_map] at parted
  refine ⟨nextBlocks, nextRing, after, result, ?_, by omega, fun extent listed differ i low high => ?_⟩
  · have dividedAfter := soundAfter.divided
    rwa [map_extent_snapshot] at dividedAfter
  · refine held_snapshot_agree (fun buffer known => soundAfter.held buffer (List.mem_append_right _ known)) ?_ low high
    exact List.mem_filter.mpr ⟨listed, decide_eq_true differ⟩

end

end SmingCoap.Server.Bget
