import SmingCoap.Server.PoolSteps

/-! # What a release does to the pool

A released block goes to the free block in front of it (`joinPrevious_free`) or
to the list (`joinPrevious_solid`), takes in a free block behind it
(`joinNext_free`), and is a free block then (`brel_spec`).  In between it is a
`Hole`: the header behind does not know of it yet, and the block there may be
free too.
-/

namespace SmingCoap.Server.Bget

open Wire (Memory int16 int16_eq)
open LinkedList (Ring)
open Tiling (place total place_append mem_place_iff place_within place_apart place_mem)

/-- The blocks in front of a released one, and how much there is to release with a free one among them. -/
def mergeFront (front : List Block) (size : Nat) : List Block × Nat :=
  match front.getLast? with
  | some (.free previous) => (front.dropLast, previous + size)
  | _ => (front, size)

/-- The same for the blocks behind. -/
def mergeBack (size : Nat) : List Block → Nat × List Block
  | .free next :: rest => (size + next, rest)
  | back => (size, back)

/-- The row after a release: the block is joined with the free ones beside it. -/
def releaseBlock (front : List Block) (size : Nat) (back : List Block) : List Block :=
  let merged := mergeFront front size
  let joined := mergeBack merged.2 back
  merged.1 ++ .free joined.1 :: joined.2

/-- A release on the way: the free block is there, but the header behind it does not know of it.  The blocks were
others, and only the links of some nodes and the header of the block have changed. -/
structure Hole (site : Site) (blocks : List Block) (links : List Nat) (memory after : Memory) (front : List Block)
    (size : Nat) (back : List Block) (ring : List Nat) : Prop where
  part : ∃ old, blocks = front ++ (old ++ back) ∧ total Block.size old = size
  sound : (Block.free size).Sound
  solid : ∀ block ∈ front.getLast?, block.isFree = false
  here : Header after (site.base + total Block.size front) (lastGap 0 front) (.free size)
  linked : Ring (flink after) (blink after) site.freelist ring
  frees : ring.Perm (freeAddresses site.base (front ++ .free size :: back))
  sub : ∀ node ∈ site.freelist :: ring, node ∈ links
  edited : Edited links [site.base + total Block.size front] memory after
  own : ∀ node ∈ links, ∀ i, node + 4 ≤ i → i < node + 12 → Private site (front ++ .free size :: back) i

section
variable {site : Site} {blocks front back rest : List Block} {links ring nodes : List Nat} {memory after : Memory}
  {next : Block} {size : Nat}

/-- The headers behind the hole are those from before the release. -/
theorem Hole.behind (hole : Hole site blocks links memory after front size back nodes) (pool : Pool site memory blocks ring)
    (nodes_eq : ∀ node ∈ links, Node site blocks node) :
    ∃ previous, Headers after (site.base + total Block.size front + size) previous back := by
  obtain ⟨old, rfl, same⟩ := hole.part
  have headers := pool.headers
  rw [headers_append, headers_append, same] at headers
  refine ⟨_, headers.2.2.congr ?_⟩
  rintro ⟨address, block⟩ member
  have placed : (address, block) ∈ place Block.size site.base (front ++ (old ++ back)) := by
    rw [place_append, place_append, same]
    exact List.mem_append_right _ (List.mem_append_right _ member)
  refine pool.sameHeader hole.edited nodes_eq placed fun header listed => .inr ?_
  have within := (place_within member).1
  have room := hole.sound.1
  rw [List.mem_singleton.mp listed]
  simp only
  omega

theorem lastGap_concat (previous : Int) (front : List Block) (block : Block) :
    lastGap previous (front ++ [block]) = block.gap := by
  rw [lastGap, List.foldl_append]
  rfl

theorem lastGap_solid (solid : ∀ block ∈ front.getLast?, block.isFree = false) : lastGap 0 front = 0 := by
  cases front using List.reverseRecOn with
  | nil => rfl
  | append_singleton front block =>
    have last := solid block (by rw [List.getLast?_concat]; rfl)
    rw [lastGap_concat]
    cases block with
    | free size => cases last
    | live size => rfl
    | dummy => rfl

/-- What blocks have become one free block belongs to the allocator. -/
theorem private_merge (old : List Block) (sound : ∀ block ∈ old, block.Sound) {i : Nat}
    (before : Private site (front ++ (old ++ back)) i ∨
      (site.base + total Block.size front ≤ i ∧ i < site.base + total Block.size front + total Block.size old)) :
    Private site (front ++ .free (total Block.size old) :: back) i := by
  have merged := place_at site front (.free (total Block.size old)) back
  rcases before with (inside | ⟨⟨address, block⟩, placed, inside⟩) | inside
  · exact .inl inside
  · rw [place_append, place_append] at placed
    rcases List.mem_append.mp placed with member | placed
    · exact .inr ⟨_, place_front member, inside⟩
    · rcases List.mem_append.mp placed with member | member
      · have within := place_within member
        have kept := (sound block (place_mem member)).kept_le
        have bounds : site.base + total Block.size front ≤ i ∧
            i < site.base + total Block.size front + total Block.size old := by
          simp only at inside
          omega
        exact .inr ⟨_, merged, bounds⟩
      · refine .inr ⟨_, ?_, inside⟩
        rw [place_append]
        exact List.mem_append_right _ (List.mem_cons_of_mem _ member)
  · exact .inr ⟨_, merged, inside⟩

/-- A released block goes to the free block in front of it. -/
theorem joinPrevious_free {previous : Nat}
    (pool : Pool site memory (front ++ .free previous :: .live size :: back) ring) :
    ∃ after, joinPrevious site.freelist (site.base + total Block.size front + previous) memory =
        some (site.base + total Block.size front, after) ∧
      Hole site (front ++ .free previous :: .live size :: back)
        ((site.base + total Block.size front + previous) :: site.freelist :: ring) memory after front (previous + size)
        back ring := by
  have here : Header memory _ _ (.free previous) := pool.headers.at
  have behind : Header memory _ _ (.live size) := pool.headers.following
  have hereMem := place_at site front (.free previous) (.live size :: back)
  have nextMem := place_following site front (.free previous) (.live size) back
  have row := pool.toRow
  have previousSound : 12 ≤ previous ∧ previous % 4 = 0 := pool.sound _ (place_mem hereMem)
  have sizeSound : 12 ≤ size ∧ size % 4 = 0 := pool.sound _ (place_mem nextMem)
  have within : site.base + total Block.size front + previous + size ≤ site.base + site.size := (row.within nextMem).2
  have bound := site.short
  have short : previous + size ≤ 32764 := by omega
  have fits := row.header_fits nextMem
  have joined : int16 (previous - -(size : Int)) = ((previous + size : Nat) : Int) := by
    rw [int16_eq (by omega) (by omega)]
    omega
  have previousEq : pointer (((site.base + total Block.size front + previous : Nat) : Int) - previous) =
      site.base + total Block.size front := pointer_eq (by omega) (by omega)
  have linked := pool.linked
  have result : joinPrevious site.freelist (site.base + total Block.size front + previous) memory =
      some (site.base + total Block.size front,
        setBlockSize memory (site.base + total Block.size front) (previous + size : Nat)) := by
    have behindStored : blockSize memory (site.base + total Block.size front + previous) = -(size : Int) := behind.2
    have behindGap : prevfree memory (site.base + total Block.size front + previous) = previous := behind.1
    have stored : blockSize memory (site.base + total Block.size front) = previous := here.2
    have filled : (previous : Int) ≠ 0 := by omega
    simp only [joinPrevious, behindStored, behindGap, stored, if_pos filled, previousEq, joined, Option.bind_eq_bind,
      assert_bind]
  have edited := setBlockSize_edited memory (site.base + total Block.size front) (previous + size : Nat)
  have totals : total Block.size [.free previous, .live size] = previous + size := rfl
  have beforeSolid := (separated_free.mp pool.separated).2.2.1
  refine ⟨_, result,
    { part := ⟨[.free previous, .live size], rfl, totals⟩
      sound := ⟨by omega, by omega⟩
      solid := beforeSolid
      here := ⟨?_, ?_⟩
      linked := edited.linked linked ?_
      frees := ?_
      sub := fun node member => List.mem_cons_of_mem _ member
      edited := edited.mono (List.nil_subset _) (List.Subset.refl _)
      own := ?_ }⟩
  · rw [prevfree_setBlockSize (.inl rfl)]
    exact here.1
  · rw [blockSize_setBlockSize_same, int16_eq (by omega) (by omega)]
    rfl
  · intro node member header listed
    have apart := row.node_header (row.node member) hereMem
    rw [List.mem_singleton.mp listed]
    simp only [Block.size] at apart
    omega
  · have frees := pool.frees
    rw [freeAddresses_append, freeAddresses_free, freeAddresses_live, Nat.add_assoc _ previous size] at frees
    rw [freeAddresses_append, freeAddresses_free]
    exact frees
  · intro node member i low high
    rw [← totals]
    refine private_merge [.free previous, .live size] ?_ ?_
    · intro block listed
      exact pool.sound block (List.mem_append_right _ (List.mem_append_left back listed))
    · rcases List.mem_cons.mp member with rfl | member
      · right
        omega
      · exact .inl (row.private_links member low high)

/-- Two blocks do not begin at one address. -/
theorem Row.unique (row : Row site blocks ring) {address : Nat} {first second : Block}
    (here : (address, first) ∈ place Block.size site.base blocks)
    (there : (address, second) ∈ place Block.size site.base blocks) : first = second :=
  Tiling.place_inj (fun block member => Nat.lt_of_lt_of_le (by decide) (row.sound block member).four_le) here there

/-- A live block is not in the list. -/
theorem Row.fresh (row : Row site blocks ring) {address : Nat}
    (live : (address, Block.live size) ∈ place Block.size site.base blocks) : address ∉ site.freelist :: ring := by
  intro member
  rcases List.mem_cons.mp member with rfl | listed
  · have within := row.within live
    have sound := row.sound _ (place_mem live)
    have apart := site.apart
    have room := sound.1
    simp only [Block.size] at within
    omega
  · obtain ⟨free, placed⟩ := row.ring_mem.mp listed
    cases row.unique live placed

/-- A released block that no free one is in front of goes to the list. -/
theorem joinPrevious_solid (pool : Pool site memory (front ++ .live size :: back) ring)
    (solid : ∀ block ∈ front.getLast?, block.isFree = false) :
    ∃ after, joinPrevious site.freelist (site.base + total Block.size front) memory =
        some (site.base + total Block.size front, after) ∧
      Hole site (front ++ .live size :: back) ((site.base + total Block.size front) :: site.freelist :: ring) memory after
        front size back (ring ++ [site.base + total Block.size front]) := by
  have here : Header memory _ _ (.live size) := pool.headers.at
  have hereMem := place_at site front (.live size) back
  have row := pool.toRow
  have sizeSound : 12 ≤ size ∧ size % 4 = 0 := pool.sound _ (place_mem hereMem)
  have short : size ≤ 32764 := row.size_le hereMem
  have nodes_eq : ∀ node ∈ (site.base + total Block.size front) :: site.freelist :: ring,
      Node site (front ++ .live size :: back) node := by
    intro node member
    rcases List.mem_cons.mp member with rfl | member
    · exact .inr ⟨_, hereMem, sizeSound.1⟩
    · exact row.node member
  obtain ⟨appended, links⟩ := linkLast_ring pool.linked (row.fresh hereMem) (row.spaced nodes_eq)
  have linkEdits : Edited ((site.base + total Block.size front) :: site.freelist :: ring) [] memory _ := links.edited
  have sameHere := row.sameHeader linkEdits nodes_eq hereMem (List.forall_mem_nil _)
  have linkedHere := here.congr sameHere
  have noGap : lastGap 0 front = 0 := lastGap_solid solid
  have stored : int16 (- -(size : Int)) = size := by
    rw [Int.neg_neg, int16_eq (by omega) (by omega)]
  have result : joinPrevious site.freelist (site.base + total Block.size front) memory =
      some (site.base + total Block.size front,
        setBlockSize (linkLast site.freelist (site.base + total Block.size front) memory)
          (site.base + total Block.size front) size) := by
    have gap : prevfree memory (site.base + total Block.size front) = 0 := here.1.trans noGap
    have live : blockSize (linkLast site.freelist (site.base + total Block.size front) memory)
        (site.base + total Block.size front) = -(size : Int) := linkedHere.2
    simp only [joinPrevious, gap, ne_eq, not_true_eq_false, if_false, live, stored, Option.bind_eq_bind,
      assert_bind (Ring.listLinked pool.linked)]
  have headerEdits := setBlockSize_edited (linkLast site.freelist (site.base + total Block.size front) memory)
    (site.base + total Block.size front) size
  have totals : total Block.size [.live size] = size := rfl
  refine ⟨_, result,
    { part := ⟨[.live size], rfl, totals⟩
      sound := sizeSound
      solid := solid
      here := ⟨?_, ?_⟩
      linked := headerEdits.linked appended ?_
      frees := ?_
      sub := fun node member => ?_
      edited := (linkEdits.mono (List.Subset.refl _) (List.nil_subset _)).trans
        (headerEdits.mono (List.nil_subset _) (List.Subset.refl _))
      own := ?_ }⟩
  · rw [prevfree_setBlockSize (.inl rfl)]
    exact linkedHere.1
  · rw [blockSize_setBlockSize_same, int16_eq (by omega) (by omega)]
    rfl
  · intro node member header listed
    have known : node ∈ (site.base + total Block.size front) :: site.freelist :: ring := by
      rw [← List.cons_append] at member
      exact (List.perm_append_singleton _ _).subset member
    have apart := row.node_header (nodes_eq node known) hereMem
    rw [List.mem_singleton.mp listed]
    simp only [Block.size] at apart
    omega
  · have frees := pool.frees
    rw [freeAddresses_append, freeAddresses_live] at frees
    rw [freeAddresses_append, freeAddresses_free]
    exact ((List.perm_append_singleton _ _).trans (frees.cons _)).trans List.perm_middle.symm
  · rw [← List.cons_append] at member
    exact (List.perm_append_singleton _ _).subset member
  · intro node member i low high
    rw [← totals]
    refine private_merge [.live size] ?_ ?_
    · intro block listed
      exact pool.sound block (List.mem_append_right _ (List.mem_append_left back listed))
    · rcases List.mem_cons.mp member with rfl | member
      · right
        omega
      · exact .inl (row.private_links member low high)

/-- With the free block that is on the way the blocks are a row again. -/
theorem Hole.row (hole : Hole site blocks links memory after front size (next :: rest) nodes)
    (row : Row site blocks ring) : Row site (front ++ .free size :: next :: rest) nodes := by
  obtain ⟨old, rfl, same⟩ := hole.part
  refine row.replace old [.free size] ?_ (by simp) ?_ hole.frees
  · intro block member
    rw [List.mem_singleton.mp member]
    exact hole.sound
  · rw [same]
    rfl

/-- A free block behind a released one becomes part of it. -/
theorem joinNext_free {second : Block} {more : Nat} (pool : Pool site memory blocks ring)
    (nodes_eq : ∀ node ∈ links, Node site blocks node)
    (hole : Hole site blocks links memory after front size (.free more :: second :: rest) nodes) :
    ∃ joined, joinNext (site.base + total Block.size front) after = some joined ∧
      Hole site blocks links memory joined front (size + more) (second :: rest)
        (nodes.erase (site.base + total Block.size front + size)) := by
  have row := hole.row pool.toRow
  obtain ⟨previous, headers⟩ := hole.behind pool nodes_eq
  have here := hole.here
  have hereMem := place_at site front (.free size) (.free more :: second :: rest)
  have nextMem := place_following site front (.free size) (.free more) (second :: rest)
  have secondMem : (site.base + total Block.size front + size + more, second) ∈
      place Block.size site.base (front ++ .free size :: .free more :: second :: rest) := by
    rw [place_append]
    exact List.mem_append_right _ (List.mem_cons_of_mem _ (List.mem_cons_of_mem _ List.mem_cons_self))
  have nextHeader : Header after (site.base + total Block.size front + size) previous (.free more) := headers.1
  have secondHeader : Header after (site.base + total Block.size front + size + more) more second := headers.2.1
  have sizeSound : 12 ≤ size ∧ size % 4 = 0 := hole.sound
  have moreSound : 12 ≤ more ∧ more % 4 = 0 := row.sound _ (place_mem nextMem)
  have fits := row.header_fits secondMem
  have listed : site.base + total Block.size front + size ∈ nodes := row.ring_mem.mpr ⟨more, nextMem⟩
  have short : size + more ≤ 32764 := by
    have within : site.base + total Block.size front + size + more ≤ site.base + site.size := (row.within nextMem).2
    have bound := site.short
    omega
  obtain ⟨unlinked, linkEdits, beside⟩ := row.unlink hole.linked listed
  have nodes_eq' : ∀ node ∈ site.freelist :: nodes.erase (site.base + total Block.size front + size),
      Node site (front ++ .free size :: .free more :: second :: rest) node :=
    fun node member => row.node (mem_of_erase member)
  have sameHere := row.sameHeader linkEdits nodes_eq' hereMem (List.forall_mem_nil _)
  have sameNext := row.sameHeader linkEdits nodes_eq' nextMem (List.forall_mem_nil _)
  have joined : int16 ((size : Int) + more) = ((size + more : Nat) : Int) := by
    rw [int16_eq (by omega) (by omega)]
    omega
  have result : joinNext (site.base + total Block.size front) after =
      some (setBlockSize (unlink (site.base + total Block.size front + size) after) (site.base + total Block.size front)
        (size + more : Nat)) := by
    have stored : blockSize after (site.base + total Block.size front) = size := here.2
    have nextStored : blockSize after (site.base + total Block.size front + size) = more := nextHeader.2
    have storedAfter := (here.congr sameHere).2
    have nextAfter := (nextHeader.congr sameNext).2
    have known : prevfree after (site.base + total Block.size front + size + more) = more := secondHeader.1
    have positive : (0 : Int) < more := by omega
    have bnEq := pointer_add (show site.base + total Block.size front + size < addressSpace by omega)
    have behindEq := pointer_add (show site.base + total Block.size front + size + more < addressSpace by omega)
    simp only [Block.stored] at storedAfter nextAfter
    simp only [joinNext, stored, bnEq, nextStored, if_pos positive, behindEq, Option.bind_eq_bind, assert_bind known,
      assert_bind beside, storedAfter, nextAfter, joined]
  have headerEdits := setBlockSize_edited (unlink (site.base + total Block.size front + size) after)
    (site.base + total Block.size front) (size + more : Nat)
  have sub : ∀ node ∈ site.freelist :: nodes.erase (site.base + total Block.size front + size), node ∈ links :=
    fun node member => hole.sub node (mem_of_erase member)
  obtain ⟨old, rfl, same⟩ := hole.part
  refine ⟨_, result,
    { part := ⟨old ++ [.free more], ?_, ?_⟩
      sound := ⟨by omega, by omega⟩
      solid := hole.solid
      here := ⟨?_, ?_⟩
      linked := headerEdits.linked unlinked ?_
      frees := ?_
      sub := sub
      edited := hole.edited.trans ((linkEdits.mono sub (List.nil_subset _)).trans
        (headerEdits.mono (List.nil_subset _) (List.Subset.refl _)))
      own := ?_ }⟩
  · rw [List.append_assoc, List.singleton_append]
  · rw [Tiling.total_append, same]
    rfl
  · rw [prevfree_setBlockSize (.inl rfl)]
    exact (here.congr sameHere).1
  · rw [blockSize_setBlockSize_same, int16_eq (by omega) (by omega)]
    rfl
  · intro node member header listed
    have apart := row.node_header (nodes_eq' node member) hereMem
    rw [List.mem_singleton.mp listed]
    simp only [Block.size] at apart
    omega
  · have frees := (List.perm_cons_erase listed).symm.trans hole.frees
    rw [freeAddresses_append, freeAddresses_free, freeAddresses_free] at frees
    rw [freeAddresses_append, freeAddresses_free, ← Nat.add_assoc]
    refine (frees.trans ?_).cons_inv
    exact ((List.Perm.swap ..).append_left _).trans List.perm_middle
  · intro node member i low high
    have totals : total Block.size [.free size, .free more] = size + more := rfl
    rw [← totals]
    refine private_merge [.free size, .free more] ?_ (.inl (hole.own node member i low high))
    intro block inside
    exact row.sound block (List.mem_append_right _ (List.mem_append_left (second :: rest) inside))

/-- The header behind the hole is told of it. -/
theorem Hole.close (pool : Pool site memory blocks ring) (nodes_eq : ∀ node ∈ links, Node site blocks node)
    (hole : Hole site blocks links memory after front size (next :: rest) nodes) (solid : next.isFree = false)
    (separated : front.IsChain Separated ∧ (next :: rest).IsChain Separated) :
    Pool site (setPrevfree after (site.base + total Block.size front + size) size)
        (front ++ .free size :: next :: rest) nodes ∧
      Keeps site (front ++ .free size :: next :: rest) memory
        (setPrevfree after (site.base + total Block.size front + size) size) := by
  have row := hole.row pool.toRow
  obtain ⟨previous, headers⟩ := hole.behind pool nodes_eq
  have here := hole.here
  have hereMem := place_at site front (.free size) (next :: rest)
  have nextMem := place_following site front (.free size) next rest
  have nextHeader : Header after (site.base + total Block.size front + size) previous next := headers.1
  have room : 12 ≤ size := hole.sound.1
  have short : size ≤ 32764 := row.size_le hereMem
  have headerEdits := setPrevfree_edited after (site.base + total Block.size front + size) size
  have edited : Edited links [site.base + total Block.size front, site.base + total Block.size front + size] memory _ :=
    (hole.edited.mono (List.Subset.refl _) (by simp)).trans (headerEdits.mono (List.nil_subset _) (by simp))
  constructor
  · obtain ⟨old, rfl, same⟩ := hole.part
    refine pool.toRow.rebuild old [.free size] row ?_ pool.headers edited nodes_eq ?_ ⟨⟨?_, ?_⟩, trivial⟩ ⟨?_, ?_⟩ ?_ ?_
    · rw [same]
      rfl
    · intro header member
      rw [same]
      simp only [List.mem_cons, List.not_mem_nil, or_false] at member
      omega
    · rw [prevfree_setPrevfree_apart (by omega)]
      exact here.1
    · rw [blockSize_setPrevfree (by omega)]
      exact here.2
    · rw [same, prevfree_setPrevfree_same, int16_eq (by omega) (by omega)]
      rfl
    · rw [same, blockSize_setPrevfree (.inl rfl)]
      exact nextHeader.2
    · refine headerEdits.linked hole.linked fun node member header listed => ?_
      have apart := row.node_header (row.node member) nextMem
      have filled := (row.sound next (place_mem nextMem)).four_le
      rw [List.mem_singleton.mp listed]
      simp only [Block.size] at apart
      omega
    · refine separated_free.mpr ⟨separated.1, separated.2, hole.solid, fun block head => ?_⟩
      cases head
      exact solid
  · refine edited.keeps hole.own fun header member i low high => ?_
    simp only [List.mem_cons, List.not_mem_nil, or_false] at member
    rcases member with rfl | rfl
    · exact row.private_header hereMem low high
    · exact row.private_header nextMem low high

/-! ## The whole release -/

theorem mergeFront_free {previous : Nat} : mergeFront (front ++ [.free previous]) size = (front, previous + size) := by
  rw [mergeFront, List.getLast?_concat, List.dropLast_concat]

theorem mergeFront_solid (solid : ∀ block ∈ front.getLast?, block.isFree = false) :
    mergeFront front size = (front, size) := by
  rw [mergeFront]
  split
  next previous last => cases solid _ last
  next => rfl

theorem mergeBack_solid (solid : next.isFree = false) : mergeBack size (next :: rest) = (size, next :: rest) := by
  cases next with
  | free more => cases solid
  | live size => rfl
  | dummy => rfl

/-- The last block is free, or there is no free one at the end. -/
theorem last_cases (front : List Block) : (∃ init previous, front = init ++ [.free previous]) ∨
    ∀ block ∈ front.getLast?, block.isFree = false := by
  cases front using List.reverseRecOn with
  | nil =>
    right
    intro block last
    cases last
  | append_singleton init block =>
    rw [List.getLast?_concat]
    cases block with
    | free previous => exact .inl ⟨init, previous, rfl⟩
    | live size =>
      right
      rintro _ ⟨⟩
      rfl
    | dummy =>
      right
      rintro _ ⟨⟩
      rfl

/-- The released block with the free one in front of it. -/
theorem joinPrevious_spec (pool : Pool site memory (front ++ .live size :: back) ring) :
    ∃ init sum after nodes, mergeFront front size = (init, sum) ∧
      joinPrevious site.freelist (site.base + total Block.size front) memory =
        some (site.base + total Block.size init, after) ∧
      Hole site (front ++ .live size :: back) ((site.base + total Block.size front) :: site.freelist :: ring) memory after
        init sum back nodes ∧
      init.IsChain Separated := by
  rcases last_cases front with ⟨init, previous, rfl⟩ | solid
  · rw [List.append_assoc, List.singleton_append] at pool ⊢
    have distance : site.base + total Block.size (init ++ [.free previous]) =
        site.base + total Block.size init + previous := by
      rw [Tiling.total_append, ← Nat.add_assoc]
      rfl
    rw [distance]
    obtain ⟨after, result, hole⟩ := joinPrevious_free pool
    exact ⟨init, _, after, ring, mergeFront_free, result, hole, (separated_free.mp pool.separated).1⟩
  · obtain ⟨after, result, hole⟩ := joinPrevious_solid pool solid
    exact ⟨front, _, after, _, mergeFront_solid solid, result, hole, ((separated_solid rfl).mp pool.separated).1⟩

/-- The released block with the free one behind it. -/
theorem joinNext_spec (pool : Pool site memory blocks ring) (nodes_eq : ∀ node ∈ links, Node site blocks node)
    (hole : Hole site blocks links memory after front size (next :: rest) nodes)
    (separated : (next :: rest).IsChain Separated) :
    ∃ sum joined left second more, mergeBack size (next :: rest) = (sum, second :: more) ∧
      joinNext (site.base + total Block.size front) after = some joined ∧
      Hole site blocks links memory joined front sum (second :: more) left ∧
      second.isFree = false ∧ (second :: more).IsChain Separated := by
  cases free : next.isFree with
  | false =>
    obtain ⟨previous, headers⟩ := hole.behind pool nodes_eq
    have fits := (hole.row pool.toRow).header_fits (place_following site front (.free size) next rest)
    have nextHeader : Header after (site.base + total Block.size front + size) previous next := headers.1
    have stored : blockSize after (site.base + total Block.size front) = size := hole.here.2
    have bnEq := pointer_add (show site.base + total Block.size front + size < addressSpace by
      simp only [Block.size] at fits
      omega)
    have negative : ¬ 0 < blockSize after (site.base + total Block.size front + size) := by
      rw [nextHeader.2]
      exact Block.stored_nonpos free
    refine ⟨size, after, nodes, next, rest, mergeBack_solid free, ?_, hole, free, separated⟩
    simp only [joinNext, stored, bnEq, if_neg negative]
  | true =>
    cases next with
    | free more =>
      have row := hole.row pool.toRow
      have split : Row site ((front ++ [.free size]) ++ .free more :: rest) nodes := by
        rw [List.append_assoc, List.singleton_append]
        exact row
      obtain ⟨second, rest, rfl⟩ := split.following (Block.noConfusion)
      obtain ⟨joined, result, hole⟩ := joinNext_free pool nodes_eq hole
      have apart := List.isChain_cons_cons.mp separated
      exact ⟨_, joined, _, second, rest, rfl, result, hole, apart.1 rfl, apart.2⟩
    | live size => cases free
    | dummy => cases free

/-- `brel` when the block has been joined with its neighbours. -/
theorem brel_eq {freelist b init size sum : Nat} {allocator : Allocator} {joined after : Memory}
    (live : blockSize allocator.memory b = -(size : Int)) (gap : prevfree allocator.memory (b + size) = 0)
    (joinedPrevious : joinPrevious freelist b allocator.memory = some (init, joined))
    (joinedNext : joinNext init joined = some after) (stored : blockSize after init = sum)
    (solid : blockSize after (init + sum) < 0) (room : 4 ≤ size) (fits : b + size < addressSpace)
    (lastFits : init + sum < addressSpace)
    (counted : (size : Int) ≤ allocator.totalloc ∧ allocator.totalloc < 32768) :
    brel freelist (b + 4) allocator = some { allocator with
      memory := setPrevfree after (init + sum) sum, totalloc := allocator.totalloc - size
      numrel := allocator.numrel + 1 } := by
  have header : pointer (((b + 4 : Nat) : Int) - bheadSize) = b := pointer_eq (by unfold bheadSize; omega) (by omega)
  have behind := pointer_add fits
  have last := pointer_add lastFits
  have negative : -(size : Int) < 0 := by omega
  have counts : int16 (allocator.totalloc + -(size : Int)) = allocator.totalloc - size := by
    rw [int16_eq (by omega) (by omega)]
    omega
  have remains : (0 : Int) ≤ allocator.totalloc - size := by omega
  have filled : b + 4 ≠ 0 := Nat.succ_ne_zero _
  rw [brel, header]
  simp only [live, Int.sub_neg, behind, Option.bind_eq_bind, assert_bind filled, assert_bind negative, assert_bind gap,
    counts, assert_bind remains]
  rw [joinedPrevious, Option.bind_some, joinedNext, Option.bind_some, stored, last, assert_bind solid]

/-- A live block is released. -/
theorem brel_spec {allocator : Allocator} (pool : Pool site allocator.memory (front ++ .live size :: back) ring)
    (counted : (size : Int) ≤ allocator.totalloc ∧ allocator.totalloc < 32768) :
    ∃ after nodes, brel site.freelist (site.base + total Block.size front + 4) allocator =
        some { allocator with
          memory := after, totalloc := allocator.totalloc - size, numrel := allocator.numrel + 1 } ∧
      Pool site after (releaseBlock front size back) nodes ∧
      Keeps site (releaseBlock front size back) allocator.memory after := by
  obtain ⟨next, rest, rfl⟩ := pool.toRow.following (Block.noConfusion)
  have here : Header allocator.memory _ _ (.live size) := pool.headers.at
  have behind : Header allocator.memory _ _ next := pool.headers.following
  have hereMem := place_at site front (.live size) (next :: rest)
  have row := pool.toRow
  have fits := row.header_fits (place_following site front (.live size) next rest)
  have sizeSound : 12 ≤ size ∧ size % 4 = 0 := pool.sound _ (place_mem hereMem)
  have nodes_eq : ∀ node ∈ (site.base + total Block.size front) :: site.freelist :: ring,
      Node site (front ++ .live size :: next :: rest) node := by
    intro node member
    rcases List.mem_cons.mp member with rfl | member
    · exact .inr ⟨_, hereMem, sizeSound.1⟩
    · exact row.node member
  obtain ⟨init, first, joined, nodes, mergedFront, joinedPrevious, hole, frontSeparated⟩ := joinPrevious_spec pool
  obtain ⟨sum, after, left, second, more, mergedBack, joinedNext, hole, solid, backSeparated⟩ :=
    joinNext_spec pool nodes_eq hole ((separated_solid rfl).mp pool.separated).2
  obtain ⟨closed, keeps⟩ := hole.close pool nodes_eq solid ⟨frontSeparated, backSeparated⟩
  have released : releaseBlock front size (next :: rest) = init ++ .free sum :: second :: more := by
    simp only [releaseBlock, mergedFront, mergedBack]
  rw [released]
  refine ⟨_, left, ?_, closed, keeps⟩
  obtain ⟨previous, headers⟩ := hole.behind pool nodes_eq
  have secondMem := place_following site init (.free sum) second more
  have lastFits := (hole.row row).header_fits secondMem
  have stored : blockSize after (site.base + total Block.size init) = sum := hole.here.2
  have secondNegative : blockSize after (site.base + total Block.size init + sum) < 0 := by
    rw [headers.1.2]
    exact ((hole.row row).sound second (place_mem secondMem)).stored_neg solid
  simp only [Block.size] at fits lastFits
  exact brel_eq here.2 behind.1 joinedPrevious joinedNext stored secondNegative (Nat.le_trans (by decide) sizeSound.1)
    (Nat.lt_of_lt_of_le (Nat.lt_add_of_pos_right (by decide)) fits)
    (Nat.lt_of_lt_of_le (Nat.lt_add_of_pos_right (by decide)) lastFits) counted

end

end SmingCoap.Server.Bget
