import SmingCoap.Server.PoolStatistics

/-! # Runs of the allocator

`coap_mem_init` makes the pool one free block.  From then on every state that
the calls of the stack lead to is `Sound`, for some row of blocks: buffers do
not overlap and keep what was written to them, no call fails an assertion, and
when all buffers are released the pool is one free block again.
-/

namespace SmingCoap.Server.Bget

open Wire (Memory int16 int16_eq)
open LinkedList (Ring)
open Ownership (Buffer Store)
open Tiling (place total place_append mem_place_iff place_within place_apart place_mem)
open Transition (Run)

/-! ## The start -/

/-- The static variables as the compiler initialises them. -/
structure Fresh (freelist : Nat) (allocator : Allocator) : Prop where
  flink : flink allocator.memory freelist = freelist
  blink : blink allocator.memory freelist = freelist
  totalloc : allocator.totalloc = 0
  numget : allocator.numget = 0
  numrel : allocator.numrel = 0

/-- The pool that `coap_mem_init` makes of a memory area. -/
structure Area (site : Site) (len : Int) : Prop where
  rounded : (site.size : Int) = roundDown len
  len_lt : len < 32768
  room : 16 ≤ site.size
  area : site.base + len ≤ addressSpace

section
variable {site : Site} {freelist base size : Nat} {len : Int} {memory : Memory}

/-- What `bpool` writes when the block is in the list. -/
def poolMemory (base size : Nat) (memory : Memory) : Memory :=
  let memory := setBlockSize memory base (size - 4 : Nat)
  let memory := setPrevfree memory (base + (size - 4)) (size - 4 : Nat)
  setBlockSize memory (base + (size - 4)) eSent

theorem bpool_eq (rounded : int16 (roundDown len) = size) (room : 16 ≤ size) (short : size ≤ 32764)
    (fits : base + size ≤ addressSpace) (linked : ListLinked freelist (setPrevfree memory base 0)) :
    bpool freelist base len memory =
      some (poolMemory base size (linkLast freelist base (setPrevfree memory base 0))) := by
  have bound : ((size : Int) - bheadSize) % (addressSpace : Int) ≤ -(eSent + 1) := by
    have sentinel : -(eSent + 1) = 32767 := rfl
    have header : bheadSize = 4 := rfl
    have space : (addressSpace : Int) = 4294967296 := rfl
    rw [sentinel, header, space]
    omega
  have left : int16 ((size : Int) - bheadSize) = ((size - 4 : Nat) : Int) := by
    have header : bheadSize = 4 := rfl
    rw [int16_eq (by omega) (by omega)]
    omega
  have target := pointer_add (show base + (size - 4) < addressSpace by omega)
  simp only [bpool, rounded, Option.bind_eq_bind, assert_bind bound, assert_bind linked, left, target]
  rfl

theorem poolMemory_edited (base size : Nat) (memory : Memory) :
    Edited [] [base, base + (size - 4)] memory (poolMemory base size memory) := by
  intro i _ outside
  have here := outside base (by simp)
  have behind := outside (base + (size - 4)) (by simp)
  rw [poolMemory, setBlockSize_outside behind, setPrevfree_outside behind, setBlockSize_outside here]

theorem poolMemory_headers (clear : prevfree memory base = 0) (room : 16 ≤ size) (short : size ≤ 32764) :
    Headers (poolMemory base size memory) base 0 [.free (size - 4), .dummy] := by
  have sizeKept : int16 ((size - 4 : Nat) : Int) = ((size - 4 : Nat) : Int) := int16_eq (by omega) (by omega)
  refine ⟨⟨?_, ?_⟩, ⟨?_, ?_⟩, trivial⟩
  · rw [poolMemory, prevfree_setBlockSize (by omega), prevfree_setPrevfree_apart (by omega),
      prevfree_setBlockSize (.inl rfl)]
    exact clear
  · rw [poolMemory, blockSize_setBlockSize_apart (by omega), blockSize_setPrevfree (by omega),
      blockSize_setBlockSize_same, sizeKept]
    rfl
  · rw [Block.size, poolMemory, prevfree_setBlockSize (.inl rfl), prevfree_setPrevfree_same, sizeKept]
    rfl
  · rw [Block.size, poolMemory, blockSize_setBlockSize_same]
    rfl

/-- The pool and the head of the list do not overlap. -/
theorem Site.nodesApart (site : Site) (room : 16 ≤ site.size) : NodesApart site.base site.freelist := by
  have apart := site.apart
  unfold NodesApart
  omega

theorem Site.spaced (site : Site) (room : 16 ≤ site.size) : Spaced [site.base, site.freelist] where
  fits node member := by
    have fits := site.fits
    have freelistFits := site.freelistFits
    rcases List.mem_pair.mp member with rfl | rfl <;> omega
  apart node member other second differ := by
    have apart := site.nodesApart room
    rcases List.mem_pair.mp member with rfl | rfl <;> rcases List.mem_pair.mp second with rfl | rfl
    · exact absurd rfl differ
    · exact apart
    · exact Or.symm apart
    · exact absurd rfl differ

/-- The rounded area is one free block, and the only one in the list. -/
theorem bpool_spec (area : Area site len)
    (linked : Ring (flink memory) (blink memory) site.freelist []) :
    ∃ after, bpool site.freelist site.base len memory = some after ∧
      Pool site after [.free (site.size - 4), .dummy] [site.base] := by
  have short := site.short
  have room := area.room
  have apart := site.nodesApart room
  have rounded : int16 (roundDown len) = site.size := by rw [← area.rounded, int16_eq (by omega) (by omega)]
  have cleared : Ring (flink (setPrevfree memory site.base 0)) (blink (setPrevfree memory site.base 0)) site.freelist [] := by
    refine (setPrevfree_edited memory site.base 0).linked linked fun node member header listed => ?_
    rw [List.mem_singleton.mp member, List.mem_singleton.mp listed]
    unfold NodesApart at apart
    omega
  have fresh : site.base ∉ [site.freelist] := by
    rw [List.mem_singleton]
    unfold NodesApart at apart
    omega
  obtain ⟨appended, links⟩ := linkLast_ring cleared fresh (site.spaced room)
  have sameHere : SameHeader (setPrevfree memory site.base 0)
      (linkLast site.freelist site.base (setPrevfree memory site.base 0)) site.base := by
    intro i low high
    refine links i fun node member => ?_
    unfold NodesApart at apart
    rcases List.mem_pair.mp member with rfl | rfl <;> omega
  have noGap : prevfree (linkLast site.freelist site.base (setPrevfree memory site.base 0)) site.base = 0 := by
    rw [(header_congr sameHere).1, prevfree_setPrevfree_same]
    rfl
  refine ⟨_, bpool_eq rounded room short site.fits (Ring.listLinked cleared), ?_⟩
  refine
    { frees := List.Perm.refl _
      sound := ?_
      last := rfl
      real := by simp
      filled := ?_
      headers := poolMemory_headers noGap room short
      linked := Edited.linked (poolMemory_edited site.base site.size _) appended ?_
      separated := List.isChain_cons_cons.mpr ⟨fun _ => rfl, List.isChain_singleton _⟩ }
  · intro block member
    rcases List.mem_pair.mp member with rfl | rfl
    · have multiple := area.rounded
      unfold roundDown sizeQuant at multiple
      exact ⟨by omega, by omega⟩
    · trivial
  · simp only [Tiling.total_cons, Tiling.total_nil, Block.size]
    omega
  · intro node member header listed
    have outside := site.apart
    clear rounded cleared fresh appended links sameHere noGap linked area
    rcases List.mem_pair.mp member with rfl | rfl <;> rcases List.mem_pair.mp listed with rfl | rfl <;> omega

/-- `coap_mem_init` makes the area a pool of one free block. -/
theorem coapMemInit_spec {allocator : Allocator} (fresh : Fresh site.freelist allocator) (area : Area site len) :
    ∃ began, coapMemInit site.freelist (some site.base) len allocator = some began ∧
      Sound site ⟨began, []⟩ [.free (site.size - 4), .dummy] [site.base] := by
  obtain ⟨after, result, pool⟩ := bpool_spec area (LinkedList.ring_nil.mpr ⟨fresh.flink, fresh.blink⟩)
  refine ⟨{ allocator with memory := after, pMemArea := site.base, totalBufBytes := len }, ?_,
    ⟨⟨pool, fresh.totalloc⟩, List.Perm.refl _, List.forall_mem_nil _, ?_⟩⟩
  · rw [coapMemInit, result]
    rfl
  · simp only [fresh.numget, fresh.numrel]
    rfl

end

/-! ## Every state -/

/-- The memory holds a pool of some blocks, and the store is that of the live ones. -/
def Steady (site : Site) (tracked : Tracked) : Prop := ∃ blocks ring, Sound site tracked blocks ring

/-- What the calls of the stack lead to after `coap_mem_init`. -/
def Reached (site : Site) (len : Int) (fuel : Nat) (initial : Allocator) (tracked : Tracked) : Prop :=
  ∃ began, coapMemInit site.freelist (some site.base) len initial = some began ∧
    Run (Tracked.step site.freelist fuel) Legal ⟨began, []⟩ tracked

section
variable {site : Site} {len : Int} {fuel : Nat} {initial : Allocator} {tracked : Tracked}

/-- The blocks keep the alignment of the pool. -/
theorem total_aligned {blocks : List Block} (sound : ∀ block ∈ blocks, block.Sound) : total Block.size blocks % 4 = 0 := by
  induction blocks with
  | nil => rfl
  | cons block rest inductionHypothesis =>
    have later := inductionHypothesis fun other member => sound other (List.mem_cons_of_mem _ member)
    have here := sound block List.mem_cons_self
    rw [Tiling.total_cons, Nat.add_mod, later]
    cases block with
    | free size =>
      rw [Block.size, here.2]
    | live size =>
      rw [Block.size, here.2]
    | dummy => rfl

/-- A live buffer is aligned, and ends in front of the last header. -/
theorem Row.buffer_inside {blocks : List Block} {ring : List Nat} (row : Row site blocks ring) {buf capacity : Nat}
    (member : (buf, capacity) ∈ liveBuffers site.base blocks) :
    buf % 4 = site.base % 4 ∧ site.base + 4 ≤ buf ∧ buf + capacity + 4 ≤ site.base + site.size := by
  obtain ⟨address, size, placed, same⟩ := mem_liveBuffers.mp member
  cases same
  have room : 12 ≤ size := (row.sound _ (place_mem placed)).1
  obtain ⟨front, back, rfl, rfl⟩ := mem_place_iff.mp placed
  have aligned := total_aligned fun block member => row.sound block (List.mem_append_left _ member)
  obtain ⟨next, rest, rfl⟩ := row.following Block.noConfusion
  have following := place_following site front (.live size) next rest
  have behind := (row.within following).2
  have four := (row.sound next (place_mem following)).four_le
  rw [Block.size] at behind
  clear row placed following member
  refine ⟨?_, ?_, ?_⟩ <;> omega

/-- The searches have enough steps. -/
theorem Row.enough {blocks : List Block} {ring : List Nat} (row : Row site blocks ring) (enough : site.size < 12 * fuel) :
    ring.length < fuel ∧ blocks.length ≤ fuel := by
  have nodes := row.ring_length
  have length := row.length_le
  omega

theorem Steady.step (enough : site.size < 12 * fuel) {before after : Tracked} {call : MemCall} (steady : Steady site before)
    (legal : Legal before call) (taken : before.step site.freelist fuel call = some after) : Steady site after := by
  obtain ⟨blocks, ring, sound⟩ := steady
  obtain ⟨other, nextBlocks, nextRing, _, stepped, soundAfter, _⟩ :=
    sound.step legal (sound.ready.toPool.toRow.enough enough).1
  obtain rfl : other = after := Option.some.inj (stepped.symm.trans taken)
  exact ⟨nextBlocks, nextRing, soundAfter⟩

theorem Reached.steady (fresh : Fresh site.freelist initial) (area : Area site len) (enough : site.size < 12 * fuel)
    (reached : Reached site len fuel initial tracked) : Steady site tracked := by
  obtain ⟨began, initialised, run⟩ := reached
  obtain ⟨same, result, sound⟩ := coapMemInit_spec fresh area
  obtain rfl : same = began := Option.some.inj (result.symm.trans initialised)
  have initially : Steady site ⟨same, []⟩ := ⟨_, _, sound⟩
  exact run.invariant initially fun _ _ _ => Steady.step enough

/-- The working memory of the server. -/
def workMemory : Site where
  freelist := 4096
  base := 8192
  size := 4096
  freelistFits := by decide
  basePositive := by decide
  fits := by decide
  short := by decide
  apart := by decide

/-- The allocator before `coap_mem_init`: nothing is set but the head of the list. -/
def unused : Allocator where
  memory := setFlink (setBlink (fun _ => 0) 4096 4096) 4096 4096
  totalloc := 0
  numget := 0
  numrel := 0
  pMemArea := 0
  totalBufBytes := 0
  staticAllocation := 0

theorem unused_fresh : Fresh workMemory.freelist unused where
  flink := flink_setFlink_same (by decide)
  blink := (blink_setFlink (.inl rfl)).trans (blink_setBlink_same (by decide))
  totalloc := rfl
  numget := rfl
  numrel := rfl

theorem workMemory_area : Area workMemory 4096 where
  rounded := rfl
  len_lt := by decide
  room := by decide
  area := by decide

/-- A buffer of ten bytes is out. -/
theorem exists_reached : ∃ tracked buffer, Reached workMemory 4096 400 unused tracked ∧ tracked.store = [buffer] := by
  obtain ⟨began, initialised, sound⟩ := coapMemInit_spec unused_fresh workMemory_area
  have steps : [workMemory.base].length < 400 := by decide
  have positive : (0 : Int) < 10 := by decide
  rcases coapMemGet_obtains sound.ready positive (by decide) steps with
    ⟨_, small⟩ | ⟨buf, _, _, _, after, result, _⟩
  · exact absurd (small 4092 List.mem_cons_self) (by decide)
  · have taken : Tracked.step workMemory.freelist 400 ⟨began, []⟩ (.get 10) =
        some (Tracked.granted ⟨began, []⟩ (some buf, after)) := by
      rw [Tracked.step, result]
      rfl
    have legal : Legal ⟨began, []⟩ (.get 10) := ⟨by decide, by decide⟩
    exact ⟨_, _, ⟨began, initialised, Run.next .refl _ legal taken⟩, rfl⟩

/-- In every state the buffers that are out lie in the pool, aligned, do not overlap, and hold what was last written to
them. -/
theorem reached_separate (fresh : Fresh site.freelist initial) (area : Area site len) (enough : site.size < 12 * fuel)
    (reached : Reached site len fuel initial tracked) :
    tracked.store.Disjoint ∧ tracked.store.Held tracked.allocator.memory ∧
      ∀ buffer ∈ tracked.store, buffer.address % 4 = site.base % 4 ∧ site.base + 4 ≤ buffer.address ∧
        buffer.address + buffer.bytes.length + 4 ≤ site.base + site.size ∧
        bsize tracked.allocator.memory buffer.address = buffer.bytes.length := by
  obtain ⟨blocks, ring, sound⟩ := reached.steady fresh area enough
  refine ⟨sound.disjoint, sound.held, fun buffer member => ?_⟩
  have extent := sound.extent_mem member
  obtain ⟨aligned, low, high⟩ := sound.ready.toPool.toRow.buffer_inside extent
  exact ⟨aligned, low, high, sound.ready.toPool.bsize_eq extent⟩

theorem reached_separate_workMemory : ∃ (tracked : Tracked) (buffer : Buffer), tracked.store = [buffer] ∧
    tracked.store.Held tracked.allocator.memory ∧ 8196 ≤ buffer.address ∧
    buffer.address + buffer.bytes.length + 4 ≤ 12288 := by
  obtain ⟨tracked, buffer, reached, store⟩ := exists_reached
  obtain ⟨_, held, inside⟩ := reached_separate unused_fresh workMemory_area (by decide) reached
  obtain ⟨_, low, high, _⟩ := inside buffer (by rw [store]; exact List.mem_cons_self)
  exact ⟨tracked, buffer, store, held, low, high⟩

/-- Whatever the users may ask for goes through, and is a step of the store. -/
theorem reached_refines (fresh : Fresh site.freelist initial) (area : Area site len) (enough : site.size < 12 * fuel)
    (reached : Reached site len fuel initial tracked) (call : MemCall) (legal : Legal tracked call) :
    ∃ after granted, tracked.step site.freelist fuel call = some after ∧
      Store.Step tracked.store (call.seen granted) after.store := by
  obtain ⟨blocks, ring, sound⟩ := reached.steady fresh area enough
  obtain ⟨after, _, _, granted, stepped, _, step⟩ := sound.step legal (sound.ready.toPool.toRow.enough enough).1
  exact ⟨after, granted, stepped, step⟩

theorem reached_refines_workMemory : ∃ (tracked after : Tracked) (buffer : Buffer), tracked.store = [buffer] ∧
    tracked.step 4096 400 (.release buffer.address) = some after ∧
    Store.Step tracked.store (.release buffer.address) after.store := by
  obtain ⟨tracked, buffer, reached, store⟩ := exists_reached
  have legal : Legal tracked (.release buffer.address) := ⟨buffer, by rw [store]; exact List.mem_cons_self, rfl⟩
  obtain ⟨after, _, taken, step⟩ :=
    reached_refines unused_fresh workMemory_area (by decide) reached (.release buffer.address) legal
  exact ⟨tracked, after, buffer, store, taken, step⟩

/-- The counts are right: what is out has a header each, the rest of the pool but the dummy is free, and the calls
that handed out a buffer exceed the releases by the buffers that are out. -/
theorem reached_accounts (fresh : Fresh site.freelist initial) (area : Area site len) (enough : site.size < 12 * fuel)
    (reached : Reached site len fuel initial tracked) :
    ∃ stats, bstats site.freelist fuel tracked.allocator = some stats ∧
      stats.curalloc = ((tracked.store.map fun buffer => buffer.bytes.length + 4).sum : Nat) ∧
      stats.curalloc + stats.totfree + 4 = site.size ∧ stats.maxfree ≤ stats.totfree ∧
      stats.nget = stats.nrel + UInt32.ofNat tracked.store.length ∧
      (tracked.store = [] → stats.totfree = site.size - 4 ∧ stats.maxfree = site.size - 4) := by
  obtain ⟨blocks, ring, sound⟩ := reached.steady fresh area enough
  have row := sound.ready.toPool.toRow
  obtain ⟨stats, result, curalloc, totfree, nget, nrel, largest, found⟩ := bstats_spec sound.ready (row.enough enough).1
  have parts := row.taken_spare
  refine ⟨stats, result, ?_, by omega, ?_, ?_, ?_⟩
  · rw [curalloc, taken_liveBuffers row.sound, ← (sound.owned.map _).sum_eq, List.map_map]
    rfl
  · rcases found with none | ⟨size, member, most⟩
    · omega
    · have within := spare_le member
      omega
  · rw [nget, nrel, sound.calls]
  · intro released
    have owned := sound.owned
    rw [released] at owned
    obtain rfl := sound.ready.toPool.idle (List.nil_perm.mp owned) area.room
    have room := area.room
    have above := largest _ List.mem_cons_self
    have below : stats.maxfree = -1 ∨ stats.maxfree = ((site.size - 4 : Nat) : Int) := by
      rcases found with none | ⟨size, member, most⟩
      · exact .inl none
      · simp only [List.mem_cons, Block.free.injEq, reduceCtorEq, List.not_mem_nil, or_false] at member
        rw [member] at most
        exact .inr most
    simp only [Tiling.total_cons, Tiling.total_nil, Block.spare] at totfree
    constructor <;> omega

theorem reached_accounts_workMemory : ∃ (tracked : Tracked) (buffer : Buffer) (stats : Stats), tracked.store = [buffer] ∧
    bstats 4096 400 tracked.allocator = some stats ∧ stats.curalloc = (buffer.bytes.length + 4 : Nat) ∧
    stats.nget = stats.nrel + 1 := by
  obtain ⟨tracked, buffer, reached, store⟩ := exists_reached
  obtain ⟨stats, result, curalloc, _, _, calls, _⟩ :=
    reached_accounts unused_fresh workMemory_area (by decide) reached
  rw [store] at curalloc calls
  exact ⟨tracked, buffer, stats, store, result, curalloc, calls⟩

/-- A request fails if and only if it needs more than the largest free block, and no buffer is much larger than what was
asked for. -/
theorem reached_get (fresh : Fresh site.freelist initial) (area : Area site len) (enough : site.size < 12 * fuel)
    (reached : Reached site len fuel initial tracked) {size : Int} (positive : 0 < size) (short : size ≤ 32760) :
    ∃ stats buf after, bstats site.freelist fuel tracked.allocator = some stats ∧
      coapMemGet site.freelist fuel size tracked.allocator = some (buf, after) ∧
      (buf = none ↔ stats.maxfree < needed size) ∧
      ∀ address, buf = some address → size ≤ bsize after.memory address ∧ bsize after.memory address ≤ max size 8 + 15 := by
  obtain ⟨blocks, ring, sound⟩ := reached.steady fresh area enough
  have steps := (sound.ready.toPool.toRow.enough enough).1
  obtain ⟨stats, reported, _, _, _, _, largest, found⟩ := bstats_spec sound.ready steps
  rcases bget_spec sound.ready positive short steps with ⟨small, refused⟩ |
    ⟨front, free, back, buf, granted, left, after, rfl, _, grant, result, ready, _, _, _⟩
  · have less : stats.maxfree < needed size := by
      rcases found with none | ⟨free, member, most⟩
      · omega
      · have bound := small free member
        omega
    refine ⟨stats, none, _, reported, refused, iff_of_true rfl less, fun address some => ?_⟩
    cases some
  · obtain ⟨capacity, large, tight, _, _, buffers⟩ := grant.liveBuffers
    obtain ⟨_, usable, most⟩ := capacity_bounds positive short large tight
    have length := ready.toPool.bsize_eq (buffers.symm.subset List.mem_cons_self)
    have bound := (needed_bounds positive short).2.2.2.2
    have listed := largest free (List.mem_append_right _ List.mem_cons_self)
    have fits := grant.need_le
    refine ⟨stats, some buf, after, reported, result, iff_of_false (Option.some_ne_none buf) ?_, ?_⟩
    · clear length bound usable
      omega
    · rintro address ⟨rfl⟩
      rw [length]
      clear listed fits
      constructor <;> omega

theorem reached_get_workMemory : ∃ (tracked : Tracked) (stats : Stats) (buf : Option Nat) (after : Allocator),
    tracked.store ≠ [] ∧ bstats 4096 400 tracked.allocator = some stats ∧
    coapMemGet 4096 400 100 tracked.allocator = some (buf, after) ∧ (buf = none ↔ stats.maxfree < 104) := by
  obtain ⟨tracked, buffer, reached, store⟩ := exists_reached
  have positive : (0 : Int) < 100 := by decide
  obtain ⟨stats, buf, after, reported, result, fails, _⟩ :=
    reached_get unused_fresh workMemory_area (by decide) reached positive (by decide)
  exact ⟨tracked, stats, buf, after, by rw [store]; exact List.cons_ne_nil _ _, reported, result, fails⟩

/-- The buffer that `coap_mem_get0` hands out is all zero. -/
theorem reached_get0 (fresh : Fresh site.freelist initial) (area : Area site len) (enough : site.size < 12 * fuel)
    (reached : Reached site len fuel initial tracked) {size : Int} (positive : 0 < size) (short : size ≤ 32760)
    {after : Tracked} (taken : tracked.step site.freelist fuel (.get0 size) = some after) :
    after.store = tracked.store ∨ ∃ buf capacity, size ≤ (capacity : Nat) ∧
      after.store = ⟨buf, List.replicate capacity 0⟩ :: tracked.store := by
  obtain ⟨blocks, ring, sound⟩ := reached.steady fresh area enough
  have steps := (sound.ready.toPool.toRow.enough enough).1
  obtain ⟨obtains, zero⟩ := coapMemGet0_obtains sound.ready positive short steps
  rw [Tracked.step] at taken
  rcases obtains with ⟨refused, _⟩ | ⟨buf, capacity, granted, left, final, obtained, large, _, ready, buffers, _⟩
  · rw [refused] at taken
    cases taken
    exact .inl rfl
  · have length := ready.toPool.bsize_eq (buffers.symm.subset List.mem_cons_self)
    have contents := zero buf final obtained
    rw [obtained] at taken
    cases taken
    refine .inr ⟨buf, capacity, large, ?_⟩
    rw [Tracked.granted, contents, length, Int.toNat_natCast]

theorem reached_get0_workMemory : ∃ (tracked after : Tracked), tracked.store ≠ [] ∧
    tracked.step 4096 400 (.get0 100) = some after ∧ (after.store = tracked.store ∨ ∃ buf capacity,
      100 ≤ ((capacity : Nat) : Int) ∧ after.store = ⟨buf, List.replicate capacity 0⟩ :: tracked.store) := by
  obtain ⟨tracked, buffer, reached, store⟩ := exists_reached
  obtain ⟨blocks, ring, sound⟩ := reached.steady unused_fresh workMemory_area (by decide)
  have legal : Legal tracked (.get0 100) := ⟨by decide, by decide⟩
  have enough : workMemory.size < 12 * 400 := by decide
  obtain ⟨after, _, _, _, taken, _, _⟩ := sound.step legal (sound.ready.toPool.toRow.enough enough).1
  exact ⟨tracked, after, by rw [store]; exact List.cons_ne_nil _ _, taken,
    reached_get0 unused_fresh workMemory_area (by decide) reached (by decide) (by decide) taken⟩

/-- The pool passes its own check. -/
theorem reached_valid (fresh : Fresh site.freelist initial) (area : Area site len) (enough : site.size < 12 * fuel)
    (reached : Reached site len fuel initial tracked) :
    bpoolv tracked.allocator.memory fuel site.base = some true := by
  obtain ⟨blocks, ring, sound⟩ := reached.steady fresh area enough
  have pool := sound.ready.toPool
  have more : blocks ≠ [] := by
    intro empty
    have last := pool.last
    rw [empty] at last
    cases last
  have suffix : Pool site tracked.allocator.memory ([] ++ blocks) ring := pool
  exact bpoolv_suffix suffix more (pool.toRow.enough enough).2

theorem reached_valid_workMemory : ∃ tracked : Tracked, tracked.store ≠ [] ∧
    bpoolv tracked.allocator.memory 400 8192 = some true := by
  obtain ⟨tracked, buffer, reached, store⟩ := exists_reached
  have valid : bpoolv tracked.allocator.memory 400 workMemory.base = some true :=
    reached_valid unused_fresh workMemory_area (by decide) reached
  exact ⟨tracked, by rw [store]; exact List.cons_ne_nil _ _, valid⟩

end

end SmingCoap.Server.Bget
