import SmingCoap.Ownership.Buffers
import SmingCoap.Server.RequestSoundness
import SmingCoap.Transition.Runs

/-! # The allocator as a store of buffers

`Tracked` is the allocator together with what its users know: the buffers they
were handed and what they wrote to them.  From `coap_mem_init` on, whatever is
asked for, written and released, no assertion fails, and each step of the
allocator is one of the store.
-/

namespace SmingCoap.Server.Bget

open Wire (Memory int16 int16_eq)
open LinkedList (Ring)
open Ownership (Buffer Store)
open Tiling (place total place_append mem_place_iff place_within place_apart place_mem)

/-! ## Live buffers -/

/-- The buffers that are handed out: the bytes behind the headers of the live blocks. -/
def liveBuffers (base : Nat) (blocks : List Block) : List (Nat × Nat) :=
  (place Block.size base blocks).filterMap fun placed =>
    match placed.2 with
    | .live size => some (placed.1 + 4, size - 4)
    | .free _ => none
    | .dummy => none

section
variable {base : Nat} {blocks front back : List Block} {size need buf : Nat} {granted : List Block}

theorem liveBuffers_append : liveBuffers base (front ++ back) =
    liveBuffers base front ++ liveBuffers (base + total Block.size front) back := by
  rw [liveBuffers, place_append, List.filterMap_append]
  rfl

@[simp] theorem liveBuffers_free : liveBuffers base (.free size :: back) = liveBuffers (base + size) back := rfl

@[simp] theorem liveBuffers_live : liveBuffers base (.live size :: back) =
    (base + 4, size - 4) :: liveBuffers (base + size) back := rfl

theorem mem_liveBuffers {extent : Nat × Nat} : extent ∈ liveBuffers base blocks ↔
    ∃ address size, (address, Block.live size) ∈ place Block.size base blocks ∧ extent = (address + 4, size - 4) := by
  rw [liveBuffers, List.mem_filterMap]
  constructor
  · rintro ⟨⟨address, block⟩, placed, found⟩
    cases block with
    | free size => cases found
    | live size => exact ⟨address, size, placed, (Option.some.inj found).symm⟩
    | dummy => cases found
  · rintro ⟨address, size, placed, rfl⟩
    exact ⟨(address, .live size), placed, rfl⟩

/-- What is handed out is one more buffer, large enough and not much larger. -/
theorem Grant.liveBuffers (grant : Grant base need front size back buf granted) :
    ∃ capacity, need ≤ capacity ∧ capacity ≤ need + 12 ∧ (buf - 4, Block.live capacity) ∈ place Block.size base granted ∧ 4 ≤ buf ∧
      (liveBuffers base granted).Perm ((buf, capacity - 4) :: Bget.liveBuffers base (front ++ .free size :: back)) := by
  cases grant with
  | split room =>
    refine ⟨need, Nat.le_refl _, Nat.le_add_right _ _, ?_, by omega, ?_⟩
    · refine mem_place_iff.mpr ⟨front ++ [.free (size - need)], back, ?_, ?_⟩
      · rw [List.append_assoc, List.singleton_append]
      · rw [Tiling.total_append, Nat.add_sub_cancel, ← Nat.add_assoc]
        rfl
    · rw [liveBuffers_append, liveBuffers_free, liveBuffers_live, liveBuffers_append, liveBuffers_free,
        Nat.add_assoc _ (size - need) need, Nat.sub_add_cancel (by omega)]
      exact List.perm_middle
  | whole fits tight =>
    refine ⟨size, fits, tight, ?_, by omega, ?_⟩
    · rw [Nat.add_sub_cancel]
      exact mem_place_iff.mpr ⟨front, back, rfl, rfl⟩
    · rw [liveBuffers_append, liveBuffers_live, liveBuffers_append, liveBuffers_free]
      exact List.perm_middle

/-- The usable part of what is handed out. -/
theorem capacity_bounds {request : Int} {capacity : Nat} (positive : 0 < request) (short : request ≤ 32760)
    (large : needed request ≤ capacity) (tight : capacity ≤ needed request + 12) :
    request + 4 ≤ (capacity : Int) ∧ request ≤ ((capacity - 4 : Nat) : Int) ∧ capacity - 4 ≤ needed request + 8 := by
  have bound := (needed_bounds positive short).2.2.2.1
  refine ⟨?_, ?_, ?_⟩ <;> omega

/-- What a released block is joined with in front is free and as long. -/
theorem mergeFront_spec (base : Nat) (front : List Block) (size : Nat) :
    total Block.size (mergeFront front size).1 + (mergeFront front size).2 = total Block.size front + size ∧
      liveBuffers base (mergeFront front size).1 = liveBuffers base front ∧
      total Block.taken (mergeFront front size).1 = total Block.taken front := by
  rcases last_cases front with ⟨init, previous, rfl⟩ | solid
  · rw [mergeFront_free]
    refine ⟨?_, ?_, ?_⟩
    · rw [Tiling.total_append, Nat.add_assoc]
      rfl
    · rw [liveBuffers_append, liveBuffers_free]
      exact (List.append_nil _).symm
    · rw [Tiling.total_append]
      rfl
  · rw [mergeFront_solid solid]
    exact ⟨rfl, rfl, rfl⟩

theorem mergeBack_spec (base size : Nat) (back : List Block) :
    liveBuffers (base + (mergeBack size back).1) (mergeBack size back).2 = liveBuffers (base + size) back ∧
      total Block.taken (mergeBack size back).2 = total Block.taken back := by
  cases back with
  | nil => exact ⟨rfl, rfl⟩
  | cons next rest =>
    cases next with
    | free more =>
      simp only [mergeBack, liveBuffers_free, Nat.add_assoc, Tiling.total_cons, Block.taken, Nat.zero_add, and_self]
    | live size => exact ⟨rfl, rfl⟩
    | dummy => exact ⟨rfl, rfl⟩

/-- A release takes one buffer away. -/
theorem liveBuffers_release : liveBuffers base (releaseBlock front size back) =
    liveBuffers base front ++ liveBuffers (base + total Block.size front + size) back := by
  obtain ⟨distance, same, _⟩ := mergeFront_spec base front size
  rw [releaseBlock, liveBuffers_append, liveBuffers_free, (mergeBack_spec _ _ back).1, same, Nat.add_assoc, distance,
    Nat.add_assoc]

theorem taken_release : total Block.taken (releaseBlock front size back) =
    total Block.taken front + total Block.taken back := by
  rw [releaseBlock, Tiling.total_append, Tiling.total_cons, (mergeBack_spec 0 _ back).2,
    (mergeFront_spec 0 front size).2.2, Block.taken, Nat.zero_add]

end

/-! ## Calls -/

section
variable {site : Site} {memory other : Memory} {blocks front back : List Block} {ring : List Nat} {size : Nat}
  {allocator : Allocator}

/-- Only the allocator's own bytes matter to the pool. -/
theorem Pool.congr (pool : Pool site memory blocks ring) (agree : ∀ i, Private site blocks i → other i = memory i) :
    Pool site other blocks ring where
  toRow := pool.toRow
  headers := by
    refine pool.headers.congr ?_
    rintro ⟨address, block⟩ member i low high
    exact agree i (pool.toRow.private_header member low high)
  linked := by
    have same : ∀ node ∈ site.freelist :: ring, ∀ i, node + 4 ≤ i → i < node + 12 → other i = memory i :=
      fun node member i low high => agree i (pool.toRow.private_links member low high)
    exact pool.linked.congr (fun node member => (links_congr (same node member)).1)
      (fun node member => (links_congr (same node member)).2)
  separated := pool.separated

/-- A release, with the count. -/
theorem Ready.release (ready : Ready site allocator (front ++ .live size :: back) ring) :
    ∃ after nodes, brel site.freelist (site.base + total Block.size front + 4) allocator = some after ∧
      Ready site after (releaseBlock front size back) nodes ∧
      Keeps site (releaseBlock front size back) allocator.memory after.memory ∧ after.numget = allocator.numget ∧
      after.numrel = allocator.numrel + 1 := by
  have counted := ready.counted
  have bound := ready.toPool.toRow.taken_le_size
  have short := site.short
  rw [Tiling.total_append, Tiling.total_cons] at counted bound
  simp only [Block.taken] at counted bound
  obtain ⟨after, nodes, result, pool, keeps⟩ := brel_spec ready.toPool ⟨by omega, by omega⟩
  refine ⟨_, nodes, result, ⟨pool, ?_⟩, keeps, rfl, rfl⟩
  rw [taken_release]
  simp only
  omega

/-- A live buffer is in the pool and belongs to no one else. -/
theorem Row.buffer (row : Row site blocks ring) {buf capacity : Nat} (member : (buf, capacity) ∈ liveBuffers site.base blocks) :
    8 ≤ capacity ∧ site.base + 4 ≤ buf ∧ buf + capacity ≤ site.base + site.size ∧
      ∀ i, buf ≤ i → i < buf + capacity → ¬ Private site blocks i := by
  obtain ⟨address, size, placed, same⟩ := mem_liveBuffers.mp member
  cases same
  have sound : 12 ≤ size ∧ size % 4 = 0 := row.sound _ (place_mem placed)
  have within : site.base ≤ address ∧ address + size ≤ site.base + site.size := row.within placed
  refine ⟨by omega, by omega, by omega, fun i low high => ?_⟩
  exact row.not_private placed low (by omega)

/-- The header in front of a live buffer. -/
theorem Pool.liveHeader (pool : Pool site memory blocks ring) {address size : Nat}
    (placed : (address, Block.live size) ∈ place Block.size site.base blocks) :
    pointer (((address + 4 : Nat) : Int) - bheadSize) = address ∧ blockSize memory address = -(size : Int) := by
  have fits := pool.toRow.header_fits placed
  refine ⟨pointer_eq (by unfold bheadSize; omega) (by omega), ?_⟩
  obtain ⟨front, back, rfl, rfl⟩ := mem_place_iff.mp placed
  exact pool.headers.at.2

/-- `bsize` tells how much of a buffer can be used. -/
theorem Pool.bsize_eq (pool : Pool site memory blocks ring) {buf capacity : Nat}
    (member : (buf, capacity) ∈ liveBuffers site.base blocks) : bsize memory buf = capacity := by
  obtain ⟨address, size, placed, same⟩ := mem_liveBuffers.mp member
  cases same
  obtain ⟨header, stored⟩ := pool.liveHeader placed
  have room : 12 ≤ size := (pool.sound _ (place_mem placed)).1
  have negative : -(size : Int) < 0 := by omega
  have four : bheadSize = 4 := rfl
  rw [bsize, if_neg (Nat.succ_ne_zero _), header, stored, if_pos negative]
  omega

/-- The sizes that `bgetz` finds. -/
theorem rsize_eq {capacity : Nat} (room : 12 ≤ capacity) (short : capacity ≤ 32764) :
    int16 (- -(capacity : Int)) = capacity ∧ int16 ((capacity : Int) - bheadSize) = ((capacity - 4 : Nat) : Int) := by
  have header : bheadSize = 4 := rfl
  constructor
  · rw [Int.neg_neg, int16_eq (by omega) (by omega)]
  · rw [int16_eq (by omega) (by omega)]
    omega

/-- `bgetz` clears what `bget` hands out. -/
theorem bgetz_eq {freelist fuel buf capacity : Nat} {request : Int} {after : Allocator}
    (result : bget freelist fuel request allocator = some (some buf, after))
    (stored : blockSize after.memory (pointer ((buf : Int) - bheadSize)) = -(capacity : Int)) (room : 12 ≤ capacity)
    (short : capacity ≤ 32764) (enough : request + 4 ≤ capacity) :
    bgetz freelist fuel request allocator =
      some (some buf, { after with memory := after.memory.copy buf (List.replicate (capacity - 4) 0) }) := by
  obtain ⟨whole, usable⟩ := rsize_eq room short
  have filled : ¬ (capacity : Int) = 0 := by omega
  have large : request ≤ ((capacity - 4 : Nat) : Int) := by omega
  rw [bgetz, result, Option.bind_eq_bind, Option.bind_some]
  simp only [stored, whole, if_neg filled, usable, Option.bind_eq_bind, assert_bind large, Int.toNat_natCast]

end

/-! ## What the users know -/

/-- The allocator, and the buffers that are out with what was last written to them. -/
structure Tracked where
  allocator : Allocator
  store : Store

/-- What the stack does with memory. -/
inductive MemCall where
  | get (size : Int)
  | get0 (size : Int)
  | write (buf offset : Nat) (byte : UInt8)
  | release (buf : Nat)

/-- A buffer is handed out with whatever it holds. -/
def Tracked.granted (tracked : Tracked) : Option Nat × Allocator → Tracked
  | (none, allocator) => { tracked with allocator }
  | (some buf, allocator) =>
    { allocator, store := ⟨buf, allocator.memory.bytes buf (bsize allocator.memory buf).toNat⟩ :: tracked.store }

def Tracked.step (freelist fuel : Nat) (tracked : Tracked) : MemCall → Option Tracked
  | .get size => (coapMemGet freelist fuel size tracked.allocator).map tracked.granted
  | .get0 size => (coapMemGet0 freelist fuel size tracked.allocator).map tracked.granted
  | .write buf offset byte => some
    { allocator := { tracked.allocator with memory := tracked.allocator.memory.store (buf + offset) byte }
      store := tracked.store.write buf offset byte }
  | .release buf => (coapMemRelease freelist (some buf) tracked.allocator).map fun allocator =>
    { allocator, store := tracked.store.release buf }

/-- Requests that have room for the header in a `bufsize`, and buffers that are out. -/
def Legal (tracked : Tracked) : MemCall → Prop
  | .get size => 0 < size ∧ size ≤ 32760
  | .get0 size => 0 < size ∧ size ≤ 32760
  | .write buf offset _ => ∃ buffer ∈ tracked.store, buffer.address = buf ∧ offset < buffer.bytes.length
  | .release buf => ∃ buffer ∈ tracked.store, buffer.address = buf

/-- The call as its user sees it, with the buffer that was handed out. -/
def MemCall.seen (granted : Option Nat) : MemCall → Ownership.Call
  | .get size => .get size.toNat granted
  | .get0 size => .get size.toNat granted
  | .write buf offset byte => .write buf offset byte
  | .release buf => .release buf

/-- The store is that of the live blocks, and memory has its contents. -/
structure Sound (site : Site) (tracked : Tracked) (blocks : List Block) (ring : List Nat) : Prop where
  ready : Ready site tracked.allocator blocks ring
  owned : (tracked.store.map Buffer.extent).Perm (liveBuffers site.base blocks)
  held : tracked.store.Held tracked.allocator.memory
  calls : tracked.allocator.numget = tracked.allocator.numrel + UInt32.ofNat tracked.store.length

/-! ## One call -/

/-- Two extents do not overlap. -/
def ExtentsApart (first second : Nat × Nat) : Prop :=
  first.1 + first.2 ≤ second.1 ∨ second.1 + second.2 ≤ first.1

/-- The second one begins behind a header that is behind the first one, or the other way round. -/
def HeaderBetween (first second : Nat × Nat) : Prop :=
  first.1 + first.2 + 4 ≤ second.1 ∨ second.1 + second.2 + 4 ≤ first.1

theorem HeaderBetween.apart {first second : Nat × Nat} (between : HeaderBetween first second) :
    ExtentsApart first second := by
  unfold HeaderBetween at between
  unfold ExtentsApart
  omega

theorem ExtentsApart.outside {first second : Nat × Nat} (apart : ExtentsApart first second) {i : Nat}
    (low : second.1 ≤ i) (high : i < second.1 + second.2) : i < first.1 ∨ first.1 + first.2 ≤ i := by
  unfold ExtentsApart at apart
  omega

section
variable {site : Site} {tracked : Tracked} {blocks granted : List Block} {ring left : List Nat} {after : Allocator}
  {buf capacity fuel : Nat} {size : Int} {memory : Memory}

/-- There is a header between two buffers. -/
theorem Row.buffers_spaced (row : Row site blocks ring) : (liveBuffers site.base blocks).Pairwise HeaderBetween := by
  refine List.pairwise_filterMap.mpr ((Tiling.place_pairwise site.base blocks).imp_of_mem ?_)
  rintro ⟨address, block⟩ ⟨other, second⟩ member _ before extent found another too
  have sound := row.sound block (place_mem member)
  cases block with
  | free size => cases found
  | dummy => cases found
  | live size =>
    cases second with
    | free size => cases too
    | dummy => cases too
    | live second =>
      cases found
      cases too
      have room : 12 ≤ size := sound.1
      simp only [Block.size] at before
      exact .inl (by simp only; omega)

theorem Row.buffers_apart (row : Row site blocks ring) : (liveBuffers site.base blocks).Pairwise ExtentsApart :=
  row.buffers_spaced.imp HeaderBetween.apart

/-- A pool has no more free blocks than fit in it. -/
theorem Row.ring_length (row : Row site blocks ring) : 12 * ring.length ≤ site.size := by
  have count : ∀ base, 12 * (freeAddresses base blocks).length ≤ total Block.size blocks := by
    intro base
    have sound := row.sound
    clear row
    induction blocks generalizing base with
    | nil => exact Nat.zero_le _
    | cons block rest inductionHypothesis =>
      have later := inductionHypothesis (base + block.size) fun other member => sound other (List.mem_cons_of_mem _ member)
      rw [Tiling.total_cons]
      cases block with
      | free size =>
        have room : 12 ≤ size := (sound _ List.mem_cons_self).1
        rw [freeAddresses_free, List.length_cons]
        simp only [Block.size] at later ⊢
        omega
      | live size =>
        rw [freeAddresses_live]
        simp only [Block.size] at later ⊢
        omega
      | dummy => exact Nat.le_trans later (Nat.le_add_left _ _)
  rw [row.frees.length_eq, ← row.filled]
  exact count site.base

theorem Sound.extent_mem (sound : Sound site tracked blocks ring) {buffer : Buffer} (member : buffer ∈ tracked.store) :
    (buffer.address, buffer.bytes.length) ∈ liveBuffers site.base blocks :=
  sound.owned.subset (List.mem_map_of_mem member)

/-- There is a header between two buffers of the store. -/
theorem Sound.between (sound : Sound site tracked blocks ring) {first second : Buffer} (one : first ∈ tracked.store)
    (another : second ∈ tracked.store) (differ : first.address ≠ second.address) :
    HeaderBetween first.extent second.extent := by
  have symmetric : Std.Symm HeaderBetween := ⟨fun _ _ => Or.symm⟩
  have spaced : (tracked.store.map Buffer.extent).Pairwise HeaderBetween :=
    (sound.owned.pairwise_iff Or.symm).mpr sound.ready.toPool.toRow.buffers_spaced
  exact spaced.forall (List.mem_map_of_mem one) (List.mem_map_of_mem another) fun same => differ (Prod.mk.inj same).1

theorem Sound.disjoint (sound : Sound site tracked blocks ring) : tracked.store.Disjoint := by
  rw [Store.disjoint_iff_extent]
  have symmetric : ∀ {first second : Nat × Nat}, ExtentsApart first second → ExtentsApart second first := Or.symm
  exact (sound.owned.pairwise_iff symmetric).mpr sound.ready.toPool.toRow.buffers_apart

theorem Sound.filled (sound : Sound site tracked blocks ring) : ∀ buffer ∈ tracked.store, buffer.bytes ≠ [] := by
  intro buffer member
  have room := (sound.ready.toPool.toRow.buffer (sound.extent_mem member)).1
  intro empty
  rw [empty] at room
  exact absurd room (by decide)

/-- A buffer more. -/
theorem Sound.grant (sound : Sound site tracked blocks ring) (ready : Ready site after granted left)
    (buffers : (liveBuffers site.base granted).Perm ((buf, capacity) :: liveBuffers site.base blocks))
    (kept : ∀ buffer ∈ tracked.store, ∀ i, buffer.address ≤ i → i < buffer.address + buffer.bytes.length →
      after.memory i = tracked.allocator.memory i)
    (gets : after.numget = tracked.allocator.numget + 1) (releases : after.numrel = tracked.allocator.numrel) :
    Sound site (tracked.granted (some buf, after)) granted left ∧
      (after.memory.bytes buf (bsize after.memory buf).toNat).length = capacity := by
  have usable := ready.toPool.bsize_eq (buffers.symm.subset List.mem_cons_self)
  have length : (after.memory.bytes buf (bsize after.memory buf).toNat).length = capacity := by
    rw [Memory.length_bytes, usable, Int.toNat_natCast]
  refine ⟨⟨ready, ?_, ?_, ?_⟩, length⟩
  · have extents : ((tracked.granted (some buf, after)).store.map Buffer.extent) =
        (buf, capacity) :: tracked.store.map Buffer.extent := by
      rw [Tracked.granted, List.map_cons, Buffer.extent, length]
    rw [extents]
    exact (sound.owned.cons _).trans buffers.symm
  · rintro buffer (_ | ⟨_, member⟩)
    · exact Memory.Holds.congr (Memory.holds_bytes ..) fun _ _ _ => rfl
    · exact sound.held.congr kept buffer member
  · simp only [Tracked.granted, List.length_cons]
    rw [gets, releases, sound.calls, UInt32.ofNat_add, UInt32.add_assoc]
    rfl

/-- What a request may come to: the allocator has no block that is large enough and stays as it is, or there is one
buffer more, and the bytes of the others are what they were. -/
def Obtains (site : Site) (blocks : List Block) (allocator : Allocator) (size : Int)
    (result : Option (Option Nat × Allocator)) : Prop :=
  (result = some (none, allocator) ∧ ∀ free, Block.free free ∈ blocks → free < needed size) ∨
    ∃ buf capacity granted left after, result = some (some buf, after) ∧ size ≤ (capacity : Nat) ∧
      capacity ≤ needed size + 8 ∧ Ready site after granted left ∧ (liveBuffers site.base granted).Perm ((buf, capacity) :: liveBuffers site.base blocks) ∧
      (∀ extent ∈ liveBuffers site.base blocks, ∀ i, extent.1 ≤ i → i < extent.1 + extent.2 →
        after.memory i = allocator.memory i) ∧
      after.numget = allocator.numget + 1 ∧ after.numrel = allocator.numrel

theorem coapMemGet_obtains {allocator : Allocator} (ready : Ready site allocator blocks ring) (positive : 0 < size)
    (short : size ≤ 32760) (enough : ring.length < fuel) :
    Obtains site blocks allocator size (coapMemGet site.freelist fuel size allocator) := by
  rcases bget_spec ready positive short enough with ⟨small, refused⟩ |
    ⟨front, free, back, buf, granted, left, after, rfl, _, grant, result, readyAfter, keeps, gets, releases⟩
  · exact .inl ⟨refused, small⟩
  · obtain ⟨capacity, large, tight, _, _, buffers⟩ := grant.liveBuffers
    obtain ⟨_, usable, most⟩ := capacity_bounds positive short large tight
    refine .inr ⟨buf, capacity - 4, granted, left, after, result, usable, most, readyAfter, buffers, ?_, gets, releases⟩
    intro extent member i low high
    exact keeps i ((ready.toPool.toRow.buffer member).2.2.2 i low high)

theorem coapMemGet0_obtains {allocator : Allocator} (ready : Ready site allocator blocks ring) (positive : 0 < size)
    (short : size ≤ 32760) (enough : ring.length < fuel) :
    Obtains site blocks allocator size (coapMemGet0 site.freelist fuel size allocator) ∧
      ∀ buf after, coapMemGet0 site.freelist fuel size allocator = some (some buf, after) →
        after.memory.bytes buf (bsize after.memory buf).toNat = List.replicate (bsize after.memory buf).toNat 0 := by
  rcases bget_spec ready positive short enough with ⟨small, refused⟩ |
    ⟨front, free, back, buf, granted, left, after, rfl, _, grant, result, readyAfter, keeps, gets, releases⟩
  · have none : coapMemGet0 site.freelist fuel size allocator = some (none, allocator) := by
      rw [coapMemGet0, bgetz, refused]
      rfl
    refine ⟨.inl ⟨none, small⟩, fun buf after obtained => ?_⟩
    rw [none] at obtained
    cases obtained
  · obtain ⟨capacity, large, tight, placed, four, buffers⟩ := grant.liveBuffers
    obtain ⟨whole, usable, most⟩ := capacity_bounds positive short large tight
    have row := readyAfter.toPool.toRow
    have member := buffers.symm.subset (List.mem_cons_self (a := (buf, capacity - 4)))
    have room : 12 ≤ capacity := (row.sound _ (place_mem placed)).1
    obtain ⟨header, stored⟩ := readyAfter.toPool.liveHeader placed
    rw [Nat.sub_add_cancel four] at header
    rw [← header] at stored
    have cleared := bgetz_eq result stored room (row.size_le placed) whole
    have elsewhere : ∀ i, (i < buf ∨ buf + (capacity - 4) ≤ i) →
        after.memory.copy buf (List.replicate (capacity - 4) 0) i = after.memory i := by
      intro i outside
      exact Memory.copy_outside _ (by rwa [List.length_replicate])
    have readyCleared : Ready site { after with memory := after.memory.copy buf (List.replicate (capacity - 4) 0) }
        granted left := by
      refine ⟨readyAfter.toPool.congr fun i inside => elsewhere i ?_, readyAfter.counted⟩
      by_contra within
      rw [not_or, Nat.not_lt, Nat.not_le] at within
      exact (row.buffer member).2.2.2 i within.1 within.2 inside
    constructor
    · refine .inr ⟨buf, capacity - 4, granted, left, _, cleared, usable, most, readyCleared, buffers, ?_, gets, releases⟩
      intro extent listed i low high
      have apart := List.rel_of_pairwise_cons ((buffers.pairwise_iff Or.symm).mp row.buffers_apart) listed
      exact (elsewhere i (ExtentsApart.outside apart low high)).trans (keeps i ((ready.toPool.toRow.buffer listed).2.2.2 i low high))
    · intro other final obtained
      rw [coapMemGet0, cleared] at obtained
      cases obtained
      rw [readyCleared.toPool.bsize_eq member, Int.toNat_natCast]
      exact (Memory.copy_holds after.memory buf (List.replicate (capacity - 4) 0)).eq_bytes List.length_replicate

theorem Sound.obtains (sound : Sound site tracked blocks ring) {result : Option (Option Nat × Allocator)}
    (obtains : Obtains site blocks tracked.allocator size result) :
    ∃ granted after blocks ring, result.map tracked.granted = some after ∧ Sound site after blocks ring ∧
      Store.Step tracked.store (.get size.toNat granted) after.store := by
  rcases obtains with ⟨refused, _⟩ |
    ⟨buf, capacity, granted, left, after, obtained, large, _, ready, buffers, kept, gets, releases⟩
  · rw [refused]
    exact ⟨none, tracked, blocks, ring, rfl, sound, .refused⟩
  · have keptHere : ∀ buffer ∈ tracked.store, ∀ i, buffer.address ≤ i → i < buffer.address + buffer.bytes.length →
        after.memory i = tracked.allocator.memory i :=
      fun buffer member i low high => kept _ (sound.extent_mem member) i low high
    obtain ⟨soundAfter, length⟩ := sound.grant ready buffers keptHere gets releases
    rw [obtained]
    refine ⟨some buf, _, granted, left, rfl, soundAfter, Store.Step.granted ⟨buf, _⟩ ?_ ?_⟩
    · simp only [length]
      omega
    · exact (List.pairwise_cons.mp soundAfter.disjoint).1

/-- A call that the users may make goes through, as a call to the store. -/
theorem Sound.step (sound : Sound site tracked blocks ring) {call : MemCall} (legal : Legal tracked call)
    (enough : ring.length < fuel) :
    ∃ after blocks ring granted, tracked.step site.freelist fuel call = some after ∧ Sound site after blocks ring ∧
      Store.Step tracked.store (call.seen granted) after.store := by
  cases call with
  | get size =>
    obtain ⟨granted, after, blocks, ring, taken, soundAfter, step⟩ :=
      sound.obtains (coapMemGet_obtains sound.ready legal.1 legal.2 enough)
    exact ⟨after, blocks, ring, granted, taken, soundAfter, step⟩
  | get0 size =>
    obtain ⟨granted, after, blocks, ring, taken, soundAfter, step⟩ :=
      sound.obtains (coapMemGet0_obtains sound.ready legal.1 legal.2 enough).1
    exact ⟨after, blocks, ring, granted, taken, soundAfter, step⟩
  | write buf offset byte =>
    obtain ⟨buffer, member, rfl, inside⟩ := legal
    have row := sound.ready.toPool.toRow
    refine ⟨_, blocks, ring, none, rfl, ⟨⟨sound.ready.toPool.congr ?_, sound.ready.counted⟩, ?_, ?_, ?_⟩,
      .written buffer member inside⟩
    · intro i own
      refine Memory.store_other _ _ fun same => ?_
      exact (row.buffer (sound.extent_mem member)).2.2.2 i (by omega) (by omega) own
    · rw [Store.map_extent_write]
      exact sound.owned
    · exact sound.held.write sound.disjoint sound.filled member inside
    · rw [Store.write, List.length_map]
      exact sound.calls
  | release buf =>
    obtain ⟨buffer, member, rfl⟩ := legal
    obtain ⟨address, size, placed, same⟩ := mem_liveBuffers.mp (sound.extent_mem member)
    obtain ⟨front, back, rfl, rfl⟩ := mem_place_iff.mp placed
    obtain ⟨after, nodes, released, ready, keeps, gets, releases⟩ := sound.ready.release
    have parted := Store.release_perm sound.disjoint sound.filled member
    have owned := (parted.map Buffer.extent).symm.trans sound.owned
    rw [liveBuffers_append, liveBuffers_live, ← same] at owned
    have left := (owned.trans List.perm_middle).cons_inv
    have owns : ((tracked.store.release buffer.address).map Buffer.extent).Perm
        (liveBuffers site.base (releaseBlock front size back)) := by
      rw [liveBuffers_release]
      exact left
    have here : buffer.address = site.base + total Block.size front + 4 := (Prod.mk.inj same).1
    refine ⟨⟨after, tracked.store.release buffer.address⟩, _, nodes, none, ?_, ⟨ready, owns, ?_, ?_⟩,
      .released buffer member⟩
    · rw [Tracked.step, coapMemRelease, here, released]
      rfl
    · refine sound.held.release.congr fun other listed i low high => keeps i ?_
      exact (ready.toPool.toRow.buffer (owns.subset (List.mem_map_of_mem listed))).2.2.2 i low high
    · rw [gets, releases, sound.calls, parted.length_eq, List.length_cons, UInt32.ofNat_add, UInt32.add_assoc,
        UInt32.add_comm 1]
      rfl

end

end SmingCoap.Server.Bget
