import SmingCoap.Server.FreeList
import SmingCoap.Tiling.Placement

/-! # The pool as a list of blocks

The pool is a row of blocks without gaps, free ones and live ones, and a dummy
block at its end.  `Pool` says that the memory holds such a row: each header has
the size of its block and of a free block in front, the list of free blocks is a
ring through exactly these, and no two of them are neighbours.  `Private` are
the bytes that belong to the allocator; it writes to no others.
-/

namespace SmingCoap.Server.Bget

open Wire (Memory int16)
open LinkedList (Ring)
open Tiling (place total place_append mem_place_iff place_within place_apart place_mem)

/-! ## Blocks -/

/-- A block with the size of it, header included. -/
inductive Block where
  | free (size : Nat)
  | live (size : Nat)
  | dummy
  deriving DecidableEq, Repr

namespace Block

def size : Block → Nat
  | free size => size
  | live size => size
  | dummy => 4

/-- The size in the header. -/
def stored : Block → Int
  | free size => size
  | live size => -size
  | dummy => eSent

/-- What the header behind a block says of it. -/
def gap : Block → Int
  | free size => size
  | live _ => 0
  | dummy => 0

def isFree : Block → Bool
  | free _ => true
  | live _ => false
  | dummy => false

/-- A block that is not free is said to be of a negative size. -/
theorem stored_nonpos {block : Block} (solid : block.isFree = false) : ¬ 0 < block.stored := by
  cases block with
  | free size => cases solid
  | live size =>
    simp only [stored]
    omega
  | dummy => decide

/-- How much of a block the allocator keeps for itself. -/
def kept : Block → Nat
  | free size => size
  | live _ => 4
  | dummy => 4

/-- There is room for the links, and the next block is aligned. -/
def Sound : Block → Prop
  | free size => 12 ≤ size ∧ size % 4 = 0
  | live size => 12 ≤ size ∧ size % 4 = 0
  | dummy => True

theorem Sound.four_le {block : Block} (sound : block.Sound) : 4 ≤ block.size := by
  cases block with
  | free size => exact Nat.le_trans (by decide) sound.1
  | live size => exact Nat.le_trans (by decide) sound.1
  | dummy => exact Nat.le_refl _

theorem Sound.four_le_kept {block : Block} (sound : block.Sound) : 4 ≤ block.kept := by
  cases block with
  | free size => exact sound.four_le
  | live size => exact Nat.le_refl _
  | dummy => exact Nat.le_refl _

theorem Sound.kept_le {block : Block} (sound : block.Sound) : block.kept ≤ block.size := by
  cases block with
  | free size => exact Nat.le_refl _
  | live size => exact sound.four_le
  | dummy => exact Nat.le_refl _

theorem Sound.stored_neg {block : Block} (sound : block.Sound) (solid : block.isFree = false) : block.stored < 0 := by
  cases block with
  | free size => cases solid
  | live size =>
    have room := sound.1
    simp only [stored]
    omega
  | dummy => decide

end Block

/-- Where the pool and the variable `freelist` lie. -/
structure Site where
  freelist : Nat
  base : Nat
  size : Nat
  freelistFits : freelist + 12 ≤ addressSpace
  basePositive : 0 < base
  fits : base + size ≤ addressSpace
  short : size ≤ 32764
  apart : freelist + 12 ≤ base ∨ base + size ≤ freelist

/-- The addresses of the free blocks. -/
def freeAddresses (base : Nat) (blocks : List Block) : List Nat :=
  ((place Block.size base blocks).filter fun placed => placed.2.isFree).map Prod.fst

section
variable {base address : Nat} {blocks front back : List Block}

theorem freeAddresses_append : freeAddresses base (front ++ back) =
    freeAddresses base front ++ freeAddresses (base + total Block.size front) back := by
  rw [freeAddresses, place_append, List.filter_append, List.map_append]
  rfl

@[simp] theorem freeAddresses_free {size : Nat} : freeAddresses base (.free size :: back) =
    base :: freeAddresses (base + size) back := rfl

@[simp] theorem freeAddresses_live {size : Nat} : freeAddresses base (.live size :: back) =
    freeAddresses (base + size) back := rfl

theorem mem_freeAddresses : address ∈ freeAddresses base blocks ↔
    ∃ size, (address, Block.free size) ∈ place Block.size base blocks := by
  constructor
  · intro member
    obtain ⟨⟨_, block⟩, listed, rfl⟩ := List.mem_map.mp member
    obtain ⟨placed, isFree⟩ := List.mem_filter.mp listed
    cases block with
    | free size => exact ⟨size, placed⟩
    | live size => cases isFree
    | dummy => cases isFree
  · rintro ⟨size, placed⟩
    exact List.mem_map.mpr ⟨(address, .free size), List.mem_filter.mpr ⟨placed, rfl⟩, rfl⟩

end

/-! ## Headers -/

/-- The header of a block behind a free block of that size, or behind none. -/
def Header (memory : Memory) (address : Nat) (previous : Int) (block : Block) : Prop :=
  prevfree memory address = previous ∧ blockSize memory address = block.stored

/-- The headers of blocks one behind the other. -/
def Headers (memory : Memory) : Nat → Int → List Block → Prop
  | _, _, [] => True
  | address, previous, block :: rest =>
    Header memory address previous block ∧ Headers memory (address + block.size) block.gap rest

/-- The size of the last block if it is free. -/
def lastGap (previous : Int) (blocks : List Block) : Int := blocks.foldl (fun _ block => block.gap) previous

/-- The header of a block has not changed. -/
def SameHeader (memory other : Memory) (address : Nat) : Prop :=
  ∀ i, address ≤ i → i < address + 4 → other i = memory i

section
variable {memory other : Memory} {address base : Nat} {previous : Int} {block next : Block}
  {blocks front back rest : List Block}

theorem Header.congr (header : Header memory address previous block) (same : SameHeader memory other address) :
    Header other address previous block := by
  obtain ⟨prevfree_eq, blockSize_eq⟩ := header_congr same
  exact ⟨prevfree_eq.trans header.1, blockSize_eq.trans header.2⟩

theorem headers_append : Headers memory address previous (front ++ back) ↔ Headers memory address previous front ∧
    Headers memory (address + total Block.size front) (lastGap previous front) back := by
  induction front generalizing address previous with
  | nil => exact (and_iff_right trivial).symm
  | cons block rest inductionHypothesis =>
    rw [List.cons_append, Headers, inductionHypothesis, Headers, Tiling.total_cons, and_assoc, Nat.add_assoc]
    rfl

theorem Headers.congr (headers : Headers memory address previous blocks)
    (same : ∀ placed ∈ place Block.size address blocks, SameHeader memory other placed.1) :
    Headers other address previous blocks := by
  induction blocks generalizing address previous with
  | nil => trivial
  | cons block rest inductionHypothesis =>
    exact ⟨headers.1.congr (same _ List.mem_cons_self),
      inductionHypothesis headers.2 fun placed member => same placed (List.mem_cons_of_mem _ member)⟩

/-- A part of the row is replaced by another one of the same length. -/
theorem Headers.replace (old new : List Block) (headers : Headers memory base previous (front ++ (old ++ next :: rest)))
    (same : total Block.size new = total Block.size old)
    (before : ∀ placed ∈ place Block.size base front, SameHeader memory other placed.1)
    (inner : Headers other (base + total Block.size front) (lastGap previous front) new)
    (behind : Header other (base + total Block.size front + total Block.size old)
      (lastGap (lastGap previous front) new) next)
    (after : ∀ placed ∈ place Block.size (base + total Block.size front + total Block.size old + next.size) rest,
      SameHeader memory other placed.1) :
    Headers other base previous (front ++ (new ++ next :: rest)) := by
  rw [headers_append, headers_append] at headers ⊢
  rw [same]
  exact ⟨headers.1.congr before, inner, behind, headers.2.2.2.congr after⟩

/-- The header of a block in the row. -/
theorem Headers.at (headers : Headers memory base previous (front ++ block :: back)) :
    Header memory (base + total Block.size front) (lastGap previous front) block :=
  (headers_append.mp headers).2.1

theorem Headers.following (headers : Headers memory base previous (front ++ block :: next :: rest)) :
    Header memory (base + total Block.size front + block.size) block.gap next :=
  (headers_append.mp headers).2.2.1

end

/-! ## The invariant -/

/-- The blocks fill the pool up to the dummy, and the free ones are listed in some order. -/
structure Row (site : Site) (blocks : List Block) (ring : List Nat) : Prop where
  frees : ring.Perm (freeAddresses site.base blocks)
  sound : ∀ block ∈ blocks, block.Sound
  last : blocks.getLast? = some .dummy
  real : .dummy ∉ blocks.dropLast
  filled : total Block.size blocks = site.size

/-- No two free blocks are neighbours. -/
def Separated (first second : Block) : Prop := first.isFree = true → second.isFree = false

/-- The memory holds a pool of these blocks, with the free ones listed in this order. -/
structure Pool (site : Site) (memory : Memory) (blocks : List Block) (ring : List Nat) : Prop
    extends Row site blocks ring where
  headers : Headers memory site.base 0 blocks
  linked : Ring (flink memory) (blink memory) site.freelist ring
  separated : blocks.IsChain Separated

/-- The bytes that belong to the allocator. -/
def Private (site : Site) (blocks : List Block) (i : Nat) : Prop :=
  (site.freelist ≤ i ∧ i < site.freelist + 12) ∨
    ∃ placed ∈ place Block.size site.base blocks,
      placed.1 ≤ i ∧ i < placed.1 + placed.2.kept

/-- What the allocator keeps for its users. -/
def Keeps (site : Site) (blocks : List Block) (memory other : Memory) : Prop :=
  ∀ i, ¬ Private site blocks i → other i = memory i

section
variable {site : Site} {memory other : Memory} {blocks front back rest : List Block} {ring nodes : List Nat}
  {block next : Block} {address x size : Nat}

theorem Keeps.refl (site : Site) (blocks : List Block) (memory : Memory) : Keeps site blocks memory memory :=
  fun _ _ => rfl

theorem Keeps.trans {third : Memory} (first : Keeps site blocks memory other) (second : Keeps site blocks other third) :
    Keeps site blocks memory third :=
  fun i outside => (second i outside).trans (first i outside)

/-! ### Where the nodes lie -/

theorem Row.ring_mem (row : Row site blocks ring) :
    x ∈ ring ↔ ∃ size, (x, Block.free size) ∈ place Block.size site.base blocks :=
  row.frees.mem_iff.trans mem_freeAddresses

/-- A block lies in the row. -/
theorem Row.within (row : Row site blocks ring) (member : (address, block) ∈ place Block.size site.base blocks) :
    site.base ≤ address ∧ address + block.size ≤ site.base + site.size := by
  have within := place_within member
  rwa [row.filled] at within

theorem Row.size_le (row : Row site blocks ring) (member : (address, block) ∈ place Block.size site.base blocks) :
    block.size ≤ 32764 := by
  have within := row.within member
  have short := site.short
  omega

theorem Row.header_fits (row : Row site blocks ring) (member : (address, block) ∈ place Block.size site.base blocks) :
    address + 4 ≤ addressSpace := by
  have within := row.within member
  have filled := (row.sound block (place_mem member)).four_le
  have fits := site.fits
  omega

/-- `freelist`, or a block with room for links. -/
def Node (site : Site) (blocks : List Block) (x : Nat) : Prop :=
  x = site.freelist ∨ ∃ block, (x, block) ∈ place Block.size site.base blocks ∧ 12 ≤ block.size

theorem Row.node (row : Row site blocks ring) (member : x ∈ site.freelist :: ring) : Node site blocks x := by
  rcases List.mem_cons.mp member with same | listed
  · exact .inl same
  · obtain ⟨size, placed⟩ := row.ring_mem.mp listed
    exact .inr ⟨_, placed, (row.sound _ (place_mem placed)).1⟩

/-- A node begins at a header or does not overlap the block behind it. -/
theorem Row.node_header (row : Row site blocks ring) (node : Node site blocks x)
    (member : (address, block) ∈ place Block.size site.base blocks) :
    x = address ∨ x + 12 ≤ address ∨ address + block.size ≤ x := by
  rcases node with rfl | ⟨other, placed, room⟩
  · have within := row.within member
    have apart := site.apart
    omega
  · rcases place_apart placed member with ⟨same, _⟩ | before | behind
    · exact .inl same
    · exact .inr (.inl (by omega))
    · exact .inr (.inr behind)

theorem Row.spaced (row : Row site blocks ring) (nodes_eq : ∀ node ∈ nodes, Node site blocks node) : Spaced nodes where
  fits node member := by
    have freelistFits := site.freelistFits
    have fits := site.fits
    rcases nodes_eq node member with rfl | ⟨block, placed, room⟩
    · omega
    · have within := (row.within placed).2
      omega
  apart node member another second differ := by
    rcases nodes_eq another second with rfl | ⟨block, placed, room⟩
    · rcases nodes_eq node member with rfl | ⟨block, placed, room⟩
      · exact absurd rfl differ
      · have apart := row.node_header (.inl rfl) placed
        unfold NodesApart
        omega
    · have apart := row.node_header (nodes_eq node member) placed
      unfold NodesApart
      omega

/-- Only the links of some nodes and some headers may differ. -/
def Edited (nodes headers : List Nat) (memory other : Memory) : Prop :=
  ∀ i, (∀ node ∈ nodes, i < node + 4 ∨ node + 12 ≤ i) → (∀ header ∈ headers, i < header ∨ header + 4 ≤ i) →
    other i = memory i

theorem Edited.trans {third : Memory} {headers : List Nat} (first : Edited nodes headers memory other)
    (second : Edited nodes headers other third) : Edited nodes headers memory third :=
  fun i apart outside => (second i apart outside).trans (first i apart outside)

theorem Edited.mono {more headers others : List Nat} (edited : Edited nodes headers memory other)
    (sub : nodes ⊆ more) (too : headers ⊆ others) : Edited more others memory other :=
  fun i apart outside => edited i (fun node member => apart node (sub member))
    fun header member => outside header (too member)

theorem LinksOnly.edited {headers : List Nat} (links : LinksOnly nodes memory other) :
    Edited nodes headers memory other :=
  fun i apart _ => links i apart

/-- The header of a block that is not among the edited ones. -/
theorem Row.sameHeader (row : Row site blocks ring) {headers : List Nat} (edited : Edited nodes headers memory other)
    (nodes_eq : ∀ node ∈ nodes, Node site blocks node) (member : (address, block) ∈ place Block.size site.base blocks)
    (apart : ∀ header ∈ headers, address + 4 ≤ header ∨ header + 4 ≤ address) : SameHeader memory other address := by
  intro i low high
  refine edited i (fun node listed => ?_) fun header listed => ?_
  · have filled := (row.sound _ (place_mem member)).four_le
    have outside := row.node_header (nodes_eq node listed) member
    omega
  · have outside := apart header listed
    omega

/-- The list of free blocks is what it was if the edited headers are not among its links. -/
theorem Edited.linked {headers : List Nat} {freelist : Nat} (edited : Edited [] headers memory other)
    (linked : Ring (flink memory) (blink memory) freelist ring)
    (apart : ∀ node ∈ freelist :: ring, ∀ header ∈ headers, header ≤ node ∨ node + 12 ≤ header) :
    Ring (flink other) (blink other) freelist ring := by
  have agree : ∀ node ∈ freelist :: ring, ∀ i, node + 4 ≤ i → i < node + 12 → other i = memory i := by
    intro node member i low high
    refine edited i (List.forall_mem_nil _) fun header listed => ?_
    have outside := apart node member header listed
    omega
  exact linked.congr (fun node member => (links_congr (agree node member)).1)
    (fun node member => (links_congr (agree node member)).2)

/-- What was edited belongs to the allocator. -/
theorem Edited.keeps {headers : List Nat} (edited : Edited nodes headers memory other)
    (links : ∀ node ∈ nodes, ∀ i, node + 4 ≤ i → i < node + 12 → Private site blocks i)
    (own : ∀ header ∈ headers, ∀ i, header ≤ i → i < header + 4 → Private site blocks i) :
    Keeps site blocks memory other := by
  intro i outside
  refine edited i (fun node listed => ?_) fun header listed => ?_
  · by_contra inside
    exact outside (links node listed i (by omega) (by omega))
  · by_contra inside
    exact outside (own header listed i (by omega) (by omega))

/-- The links of `freelist` and of the free blocks. -/
theorem Row.private_links (row : Row site blocks ring) (member : x ∈ site.freelist :: ring) {i : Nat}
    (low : x + 4 ≤ i) (high : i < x + 12) : Private site blocks i := by
  rcases List.mem_cons.mp member with rfl | free
  · exact .inl (by omega)
  · obtain ⟨size, placed⟩ := row.ring_mem.mp free
    have room := (row.sound _ (place_mem placed)).1
    refine .inr ⟨_, placed, ?_⟩
    simp only [Block.kept]
    omega

theorem Row.private_header (row : Row site blocks ring)
    (member : (address, block) ∈ place Block.size site.base blocks) {i : Nat} (low : address ≤ i)
    (high : i < address + 4) : Private site blocks i := by
  have filled := (row.sound _ (place_mem member)).four_le_kept
  exact .inr ⟨_, member, low, by simp only; omega⟩

/-! ### What belongs to a block -/

/-- Behind every block but the dummy there is another one. -/
theorem Row.following (row : Row site (front ++ block :: back) ring) (real : block ≠ .dummy) :
    ∃ next rest, back = next :: rest := by
  cases back with
  | nil =>
    have last := row.last
    rw [List.getLast?_concat] at last
    exact absurd (Option.some.inj last) real
  | cons next rest => exact ⟨next, rest, rfl⟩

/-- The bytes of a live buffer belong to no header and to no free block. -/
theorem Row.not_private (row : Row site blocks ring)
    (live : (address, Block.live size) ∈ place Block.size site.base blocks) {i : Nat} (low : address + 4 ≤ i)
    (high : i < address + size) : ¬ Private site blocks i := by
  have within := row.within live
  have apart := site.apart
  have span : Block.size (.live size) = size := rfl
  rintro (inside | ⟨⟨target, block⟩, placed, inside⟩)
  · omega
  · have bound := (row.sound _ (place_mem placed)).kept_le
    simp only at inside
    rcases place_apart live placed with ⟨rfl, rfl⟩ | before | behind
    · simp only [Block.kept] at inside
      omega
    · omega
    · omega

/-- Bytes outside the pool and its list are no one's concern. -/
theorem Row.not_private_outside (row : Row site blocks ring) {i : Nat}
    (variable_apart : i < site.freelist ∨ site.freelist + 12 ≤ i)
    (outside : i < site.base ∨ site.base + site.size ≤ i) : ¬ Private site blocks i := by
  rintro (inside | ⟨⟨target, block⟩, placed, inside⟩)
  · omega
  · have within := row.within placed
    have bound := (row.sound _ (place_mem placed)).kept_le
    simp only at inside
    omega

end

end SmingCoap.Server.Bget
