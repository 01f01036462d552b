import SmingCoap.Server.Pool

/-! # What a request does to the pool

A free block is split (`splitBlock_spec`) or handed out as a whole
(`takeBlock_spec`).  `Row.rebuild` gives the invariant for a row in which some
blocks were replaced, from what was edited and what the new headers are.
-/

namespace SmingCoap.Server.Bget

open Wire (Memory int16 int16_eq)
open LinkedList (Ring)
open Tiling (place total place_append mem_place_iff place_within place_apart place_mem)

theorem pointer_eq {address : Int} {target : Nat} (same : address = target) (fits : target < addressSpace) :
    pointer address = target := by
  unfold pointer addressSpace at *
  omega

theorem pointer_add {b distance : Nat} (fits : b + distance < addressSpace) :
    pointer (b + distance) = b + distance :=
  pointer_eq (by omega) fits

theorem pointer_header {b : Nat} (fits : b + 4 < addressSpace) : pointer (b + bheadSize) = b + 4 :=
  pointer_eq (by unfold bheadSize; omega) fits

theorem assert_bind {α : Type} {condition : Prop} [Decidable condition] (holds : condition) (rest : Unit → Option α) :
    (assert condition).bind rest = rest () := by
  rw [assert, if_pos holds]
  rfl

/-! ## Rows -/

section
variable {site : Site} {front back new rest : List Block} {ring nodes : List Nat} {block next : Block}
  {base address size : Nat}

theorem total_following : total Block.size (front ++ block :: back) =
    total Block.size front + (block.size + total Block.size back) := by
  rw [Tiling.total_append, Tiling.total_cons]

theorem freeAddresses_part : freeAddresses base (front ++ (new ++ back)) =
    freeAddresses base front ++ (freeAddresses (base + total Block.size front) new ++
      freeAddresses (base + total Block.size front + total Block.size new) back) := by
  rw [freeAddresses_append, freeAddresses_append]

/-- A part of the row is replaced by blocks of the same length. -/
theorem Row.replace (old new : List Block) (row : Row site (front ++ (old ++ next :: rest)) ring) (sound : ∀ block ∈ new, block.Sound)
    (real : .dummy ∉ new) (same : total Block.size new = total Block.size old)
    (frees : nodes.Perm (freeAddresses site.base (front ++ (new ++ next :: rest)))) :
    Row site (front ++ (new ++ next :: rest)) nodes where
  frees := frees
  sound block member := by
    rcases List.mem_append.mp member with before | member
    · exact row.sound block (List.mem_append_left _ before)
    · rcases List.mem_append.mp member with inside | behind
      · exact sound block inside
      · exact row.sound block (List.mem_append_right _ (List.mem_append_right _ behind))
  last := by
    have last := row.last
    rw [← List.append_assoc, List.getLast?_append_cons] at last ⊢
    exact last
  real := by
    have kept := row.real
    rw [← List.append_assoc, List.dropLast_append_of_ne_nil (List.cons_ne_nil next rest)] at kept ⊢
    intro member
    rcases List.mem_append.mp member with inside | behind
    · rcases List.mem_append.mp inside with before | inside
      · exact kept (List.mem_append_left _ (List.mem_append_left _ before))
      · exact real inside
    · exact kept (List.mem_append_right _ behind)
  filled := by
    have all := row.filled
    rw [Tiling.total_append, Tiling.total_append] at all ⊢
    rw [same]
    exact all

/-- A block that is not free may stand anywhere. -/
theorem separated_solid (solid : block.isFree = false) : (front ++ block :: back).IsChain Separated ↔
    front.IsChain Separated ∧ back.IsChain Separated := by
  rw [List.isChain_append, List.isChain_cons]
  constructor
  · rintro ⟨before, ⟨_, behind⟩, _⟩
    exact ⟨before, behind⟩
  · rintro ⟨before, behind⟩
    refine ⟨before, ⟨fun other _ free => ?_, behind⟩, fun first _ second head _ => ?_⟩
    · rw [solid] at free
      cases free
    · rw [List.head?_cons, Option.mem_some_iff] at head
      rwa [← head]

theorem chain_cons_solid (chain : back.IsChain Separated) (solid : block.isFree = false) :
    (block :: back).IsChain Separated := by
  refine List.isChain_cons.mpr ⟨fun _ _ free => ?_, chain⟩
  rw [solid] at free
  cases free

/-- A free block stands between blocks that are not free. -/
theorem separated_free : (front ++ .free size :: back).IsChain Separated ↔
    front.IsChain Separated ∧ back.IsChain Separated ∧ (∀ block ∈ front.getLast?, block.isFree = false) ∧
      ∀ block ∈ back.head?, block.isFree = false := by
  rw [List.isChain_append, List.isChain_cons]
  constructor
  · rintro ⟨before, ⟨apart, behind⟩, beside⟩
    refine ⟨before, behind, fun block last => ?_, fun block head => apart block head rfl⟩
    cases free : block.isFree with
    | false => rfl
    | true => cases beside block last (.free size) rfl free
  · rintro ⟨before, behind, solid, next⟩
    refine ⟨before, ⟨fun block head _ => next block head, behind⟩, fun block last other _ free => ?_⟩
    rw [solid block last] at free
    cases free

end

/-! ## Blocks of the row -/

section
variable {site : Site} {memory after : Memory} {front back new rest : List Block} {ring nodes headers : List Nat}
  {block next : Block} {address : Nat}

theorem place_at (site : Site) (front : List Block) (block : Block) (back : List Block) :
    (site.base + total Block.size front, block) ∈ place Block.size site.base (front ++ block :: back) :=
  mem_place_iff.mpr ⟨front, back, rfl, rfl⟩

theorem place_following (site : Site) (front : List Block) (block next : Block) (rest : List Block) :
    (site.base + total Block.size front + block.size, next) ∈
      place Block.size site.base (front ++ block :: next :: rest) := by
  refine mem_place_iff.mpr ⟨front ++ [block], rest, ?_, ?_⟩
  · rw [List.append_assoc, List.singleton_append]
  · rw [Tiling.total_append, Tiling.total_cons, Tiling.total_nil, Nat.add_zero, Nat.add_assoc]

theorem place_front (member : (address, block) ∈ place Block.size site.base front) :
    (address, block) ∈ place Block.size site.base (front ++ back) := by
  rw [place_append]
  exact List.mem_append_left _ member

theorem place_rest (old : List Block)
    (member : (address, block) ∈ place Block.size (site.base + total Block.size front + total Block.size old + next.size)
      rest) : (address, block) ∈ place Block.size site.base (front ++ (old ++ next :: rest)) := by
  rw [place_append, place_append]
  exact List.mem_append_right _ (List.mem_append_right _ (List.mem_cons_of_mem _ member))

/-- A part of the row was replaced, and no other headers edited than those there and the next one. -/
theorem Row.rebuild (old new : List Block) (row : Row site (front ++ (old ++ next :: rest)) ring)
    (built : Row site (front ++ (new ++ next :: rest)) nodes) (same : total Block.size new = total Block.size old)
    (headersOld : Headers memory site.base 0 (front ++ (old ++ next :: rest)))
    {links : List Nat} (edited : Edited links headers memory after)
    (nodes_eq : ∀ node ∈ links, Node site (front ++ (old ++ next :: rest)) node)
    (inside : ∀ header ∈ headers, site.base + total Block.size front ≤ header ∧
      header ≤ site.base + total Block.size front + total Block.size old)
    (inner : Headers after (site.base + total Block.size front) (lastGap 0 front) new)
    (behind : Header after (site.base + total Block.size front + total Block.size old)
      (lastGap (lastGap 0 front) new) next)
    (linked : Ring (flink after) (blink after) site.freelist nodes)
    (separated : (front ++ (new ++ next :: rest)).IsChain Separated) :
    Pool site after (front ++ (new ++ next :: rest)) nodes where
  toRow := built
  headers := by
    refine headersOld.replace old new same ?_ inner behind ?_
    · rintro ⟨address, block⟩ member
      refine row.sameHeader edited nodes_eq (place_front member) fun header listed => .inl ?_
      have filled := (row.sound block (List.mem_append_left _ (place_mem member))).four_le
      have within := (place_within member).2
      have bound := (inside header listed).1
      simp only
      omega
    · rintro ⟨address, block⟩ member
      refine row.sameHeader edited nodes_eq (place_rest old member) fun header listed => .inr ?_
      have filled := (row.sound next (List.mem_append_right _ (List.mem_append_right _ List.mem_cons_self))).four_le
      have within := (place_within member).1
      have bound := (inside header listed).2
      simp only
      omega
  linked := linked
  separated := separated

end

/-- A free block is taken out of the list. -/
theorem Row.unlink {blocks : List Block} {b : Nat} (row : Row site blocks ring)
    (linked : Ring (flink memory) (blink memory) site.freelist ring) (listed : b ∈ ring) :
    Ring (flink (unlink b memory)) (blink (unlink b memory)) site.freelist (ring.erase b) ∧
      Edited (site.freelist :: ring.erase b) [] memory (unlink b memory) ∧ BlockLinked b memory := by
  obtain ⟨before, later, rfl⟩ := List.append_of_mem listed
  have outside : b ∉ before := fun member =>
    List.disjoint_of_nodup_append (List.nodup_cons.mp linked.nodup).2 member List.mem_cons_self
  rw [List.erase_append_right _ outside, List.erase_cons_head]
  obtain ⟨unlinked, links⟩ := unlink_ring linked (row.spaced fun node member => row.node member)
  exact ⟨unlinked, links.edited, Ring.blockLinked linked⟩

theorem mem_of_erase {b x : Nat} {freelist : Nat} (member : x ∈ freelist :: ring.erase b) : x ∈ freelist :: ring :=
  List.cons_subset_cons _ List.erase_subset member

theorem setBlockSize_edited (memory : Memory) (b : Nat) (size : Int) :
    Edited [] [b] memory (setBlockSize memory b size) :=
  fun _ _ outside => setBlockSize_outside (outside b List.mem_cons_self)

theorem setPrevfree_edited (memory : Memory) (b : Nat) (previous : Int) :
    Edited [] [b] memory (setPrevfree memory b previous) :=
  fun _ _ outside => setPrevfree_outside (outside b List.mem_cons_self)

/-! ## A request -/

section
variable {memory : Memory} {allocator : Allocator} {next : Block} {b size need : Nat} {previous : Int}

/-- The memory after a free block was split. -/
def splitMemory (b size need : Nat) (memory : Memory) : Memory :=
  let memory := setBlockSize memory b (size - need : Nat)
  let memory := setPrevfree memory (b + (size - need)) (size - need : Nat)
  let memory := setBlockSize memory (b + (size - need)) (-need)
  setPrevfree memory (b + size) 0

theorem splitBlock_eq (here : Header allocator.memory b previous (.free size))
    (behind : Header allocator.memory (b + size) size next) (positive : 0 < need) (room : need + 12 < size)
    (short : size ≤ 32764) (fits : b + size + 4 ≤ addressSpace) :
    splitBlock b need allocator = some (b + (size - need) + 4, { allocator with
      memory := splitMemory b size need allocator.memory
      totalloc := int16 (allocator.totalloc + need), numget := allocator.numget + 1 }) := by
  have shrunk : int16 ((size - need : Nat) : Int) = ((size - need : Nat) : Int) := int16_eq (by omega) (by omega)
  have taken : int16 (-(need : Int)) = -need := int16_eq (by omega) (by omega)
  have bufEq := pointer_header (show b + (size - need) + 4 < addressSpace by omega)
  have baEq := pointer_add (show b + (size - need) < addressSpace by omega)
  have bnEq : pointer ((b + (size - need) : Nat) + need) = b + size := by
    rw [pointer_add (by omega), Nat.add_assoc, Nat.sub_add_cancel (by omega)]
  have known : prevfree allocator.memory (b + size) = blockSize allocator.memory b := behind.1.trans here.2.symm
  have left : blockSize allocator.memory b - need = ((size - need : Nat) : Int) := by
    rw [here.2, Int.ofNat_sub (by omega)]
    rfl
  simp only [splitBlock, splitMemory, left, baEq, bnEq, Option.bind_eq_bind, assert_bind known, shrunk, taken, bufEq,
    blockSize_setBlockSize_same]

theorem splitMemory_edited (b size need : Nat) (memory : Memory) :
    Edited [] [b, b + (size - need), b + size] memory (splitMemory b size need memory) := by
  intro i _ outside
  have here := outside b (by simp)
  have taken := outside (b + (size - need)) (by simp)
  have behind := outside (b + size) (by simp)
  rw [splitMemory, setPrevfree_outside behind, setBlockSize_outside taken, setPrevfree_outside taken,
    setBlockSize_outside here]

/-- The headers of the two parts and behind them. -/
theorem splitMemory_headers (here : Header memory b previous (.free size))
    (behind : Header memory (b + size) size next) (room : need + 12 < size) (large : 12 ≤ need) (short : size ≤ 32764) :
    Headers (splitMemory b size need memory) b previous [.free (size - need), .live need] ∧
      Header (splitMemory b size need memory) (b + size) 0 next := by
  have shrunk : int16 ((size - need : Nat) : Int) = ((size - need : Nat) : Int) := int16_eq (by omega) (by omega)
  have taken : int16 (-(need : Int)) = -need := int16_eq (by omega) (by omega)
  refine ⟨⟨⟨?_, ?_⟩, ⟨?_, ?_⟩, trivial⟩, ⟨?_, ?_⟩⟩
  · rw [splitMemory, prevfree_setPrevfree_apart (by omega), prevfree_setBlockSize (by omega),
      prevfree_setPrevfree_apart (by omega), prevfree_setBlockSize (.inl rfl)]
    exact here.1
  · rw [splitMemory, blockSize_setPrevfree (by omega), blockSize_setBlockSize_apart (by omega),
      blockSize_setPrevfree (by omega), blockSize_setBlockSize_same, shrunk]
    rfl
  · rw [Block.size, splitMemory, prevfree_setPrevfree_apart (by omega), prevfree_setBlockSize (.inl rfl),
      prevfree_setPrevfree_same, shrunk]
    rfl
  · rw [Block.size, splitMemory, blockSize_setPrevfree (by omega), blockSize_setBlockSize_same, taken]
    rfl
  · rw [splitMemory, prevfree_setPrevfree_same]
    rfl
  · rw [splitMemory, blockSize_setPrevfree (.inl rfl), blockSize_setBlockSize_apart (by omega),
      blockSize_setPrevfree (by omega), blockSize_setBlockSize_apart (by omega)]
    exact behind.2

/-- The memory after a free block was handed out as a whole. -/
def takeMemory (b size : Nat) (memory : Memory) : Memory :=
  setPrevfree (setBlockSize (unlink b memory) b (-size)) (b + size) 0

theorem takeBlock_eq (here : Header allocator.memory b previous (.free size))
    (behind : Header allocator.memory (b + size) size next) (beside : BlockLinked b allocator.memory)
    (same : SameHeader allocator.memory (unlink b allocator.memory) b) (large : 12 ≤ size) (short : size ≤ 32764)
    (fits : b + size + 4 ≤ addressSpace) :
    takeBlock b allocator = some (b + 4, { allocator with
      memory := takeMemory b size allocator.memory
      totalloc := int16 (allocator.totalloc + size), numget := allocator.numget + 1 }) := by
  have stored : blockSize allocator.memory b = size := here.2
  have storedAfter : blockSize (unlink b allocator.memory) b = size := (here.congr same).2
  have taken : int16 (-(size : Int)) = -size := int16_eq (by omega) (by omega)
  have baEq := pointer_add (show b + size < addressSpace by omega)
  have bufEq := pointer_header (show b + 4 < addressSpace by omega)
  have known : prevfree allocator.memory (b + size) = size := behind.1
  simp only [takeBlock, takeMemory, stored, storedAfter, baEq, bufEq, taken, Option.bind_eq_bind, assert_bind known,
    assert_bind beside]

theorem takeMemory_edited (b size : Nat) (memory : Memory) :
    Edited [] [b, b + size] (unlink b memory) (takeMemory b size memory) := by
  intro i _ outside
  have here := outside b (by simp)
  have behind := outside (b + size) (by simp)
  rw [takeMemory, setPrevfree_outside behind, setBlockSize_outside here]

theorem takeMemory_headers (here : Header (unlink b memory) b previous (.free size))
    (behind : Header (unlink b memory) (b + size) size next) (large : 12 ≤ size) (short : size ≤ 32764) :
    Header (takeMemory b size memory) b previous (.live size) ∧ Header (takeMemory b size memory) (b + size) 0 next := by
  have taken : int16 (-(size : Int)) = -size := int16_eq (by omega) (by omega)
  refine ⟨⟨?_, ?_⟩, ⟨?_, ?_⟩⟩
  · rw [takeMemory, prevfree_setPrevfree_apart (by omega), prevfree_setBlockSize (.inl rfl)]
    exact here.1
  · rw [takeMemory, blockSize_setPrevfree (by omega), blockSize_setBlockSize_same, taken]
    rfl
  · rw [takeMemory, prevfree_setPrevfree_same]
    rfl
  · rw [takeMemory, blockSize_setPrevfree (.inl rfl), blockSize_setBlockSize_apart (by omega)]
    exact behind.2

end

section
variable {site : Site} {front rest : List Block} {ring : List Nat} {next : Block} {size need : Nat} {allocator : Allocator}

/-- A free block is split, and its end handed out. -/
theorem splitBlock_spec (pool : Pool site allocator.memory (front ++ .free size :: next :: rest) ring)
    (large : 12 ≤ need) (aligned : need % 4 = 0) (room : need + 12 < size) :
    ∃ after, splitBlock (site.base + total Block.size front) need allocator =
        some (site.base + total Block.size front + (size - need) + 4,
          { allocator with
            memory := after, totalloc := int16 (allocator.totalloc + need), numget := allocator.numget + 1 }) ∧
      Pool site after (front ++ .free (size - need) :: .live need :: next :: rest) ring ∧
      Keeps site (front ++ .free size :: next :: rest) allocator.memory after := by
  have here : Header allocator.memory _ _ (.free size) := pool.headers.at
  have behind : Header allocator.memory _ _ next := pool.headers.following
  have hereMem := place_at site front (.free size) (next :: rest)
  have nextMem := place_following site front (.free size) next rest
  have row := pool.toRow
  have sizeSound : 12 ≤ size ∧ size % 4 = 0 := pool.sound _ (place_mem hereMem)
  have short : size ≤ 32764 := row.size_le hereMem
  have fits := row.header_fits nextMem
  have totals : total Block.size [.free (size - need), .live need] = total Block.size [.free size] := by
    simp only [Tiling.total_cons, Tiling.total_nil, Block.size]
    omega
  have edited := splitMemory_edited (site.base + total Block.size front) size need allocator.memory
  have parts := splitMemory_headers here behind room large short
  have span : site.base + total Block.size front + total Block.size [.free size] =
      site.base + total Block.size front + size := rfl
  refine ⟨_, splitBlock_eq here behind (by omega) room short fits, ?_, ?_⟩
  · have built : Row site (front ++ ([.free (size - need), .live need] ++ next :: rest)) ring := by
      refine row.replace [.free size] _ ?_ (by simp) totals ?_
      · intro block member
        rcases List.mem_pair.mp member with rfl | rfl
        · exact ⟨by omega, by omega⟩
        · exact ⟨large, aligned⟩
      · have frees := pool.frees
        rw [freeAddresses_append, freeAddresses_free] at frees
        rw [freeAddresses_append, List.cons_append, List.singleton_append, freeAddresses_free, freeAddresses_live,
          Nat.add_assoc _ (size - need) need, Nat.sub_add_cancel (by omega)]
        exact frees
    refine row.rebuild [.free size] _ built totals pool.headers edited (List.forall_mem_nil _) ?_ parts.1 parts.2 ?_ ?_
    · intro header member
      rw [span]
      simp only [List.mem_cons, List.not_mem_nil, or_false] at member
      omega
    · refine edited.linked pool.linked fun node member header listed => ?_
      have apartHere := row.node_header (row.node member) hereMem
      have apartNext := row.node_header (row.node member) nextMem
      simp only [List.mem_cons, List.not_mem_nil, or_false, Block.size] at listed apartHere apartNext
      generalize site.base + total Block.size front = b at *
      clear row pool fits totals
      omega
    · obtain ⟨before, behind, solid, _⟩ := separated_free.mp pool.separated
      refine separated_free.mpr ⟨before, chain_cons_solid behind rfl, solid, fun block head => ?_⟩
      cases head
      rfl
  · refine edited.keeps (List.forall_mem_nil _) fun header listed i low high => ?_
    simp only [List.mem_cons, List.not_mem_nil, or_false] at listed
    rcases listed with rfl | rfl | rfl
    · exact row.private_header hereMem low high
    · refine .inr ⟨_, hereMem, ?_⟩
      simp only [Block.kept]
      omega
    · exact row.private_header nextMem low high

/-- A free block is handed out as a whole. -/
theorem takeBlock_spec (pool : Pool site allocator.memory (front ++ .free size :: next :: rest) ring) :
    ∃ after, takeBlock (site.base + total Block.size front) allocator =
        some (site.base + total Block.size front + 4,
          { allocator with
            memory := after, totalloc := int16 (allocator.totalloc + size), numget := allocator.numget + 1 }) ∧
      Pool site after (front ++ .live size :: next :: rest) (ring.erase (site.base + total Block.size front)) ∧
      Keeps site (front ++ .free size :: next :: rest) allocator.memory after := by
  have here : Header allocator.memory _ _ (.free size) := pool.headers.at
  have behind : Header allocator.memory _ _ next := pool.headers.following
  have hereMem := place_at site front (.free size) (next :: rest)
  have nextMem := place_following site front (.free size) next rest
  have row := pool.toRow
  have sizeSound : 12 ≤ size ∧ size % 4 = 0 := pool.sound _ (place_mem hereMem)
  have short : size ≤ 32764 := row.size_le hereMem
  have fits := row.header_fits nextMem
  have listed : site.base + total Block.size front ∈ ring := row.ring_mem.mpr ⟨size, hereMem⟩
  obtain ⟨unlinked, linkEdits, beside⟩ := row.unlink pool.linked listed
  have nodes_eq : ∀ node ∈ site.freelist :: ring.erase (site.base + total Block.size front),
      Node site (front ++ .free size :: next :: rest) node := fun node member => row.node (mem_of_erase member)
  have sameHere := row.sameHeader linkEdits nodes_eq hereMem (List.forall_mem_nil _)
  have sameNext := row.sameHeader linkEdits nodes_eq nextMem (List.forall_mem_nil _)
  have headerEdits := takeMemory_edited (site.base + total Block.size front) size allocator.memory
  have edited : Edited (site.freelist :: ring.erase (site.base + total Block.size front))
      [site.base + total Block.size front, site.base + total Block.size front + size] allocator.memory _ :=
    (linkEdits.mono (List.Subset.refl _) (List.nil_subset _)).trans
      (headerEdits.mono (List.nil_subset _) (List.Subset.refl _))
  have parts := takeMemory_headers (here.congr sameHere) (behind.congr sameNext) sizeSound.1 short
  refine ⟨_, takeBlock_eq here behind beside sameHere sizeSound.1 short fits, ?_, ?_⟩
  · have built : Row site (front ++ ([.live size] ++ next :: rest)) (ring.erase (site.base + total Block.size front)) := by
      refine row.replace [.free size] _ ?_ (by simp) rfl ?_
      · intro block member
        rw [List.mem_singleton.mp member]
        exact sizeSound
      · have frees := (List.perm_cons_erase listed).symm.trans pool.frees
        rw [freeAddresses_append, freeAddresses_free] at frees
        rw [freeAddresses_append, List.singleton_append, freeAddresses_live]
        exact (frees.trans List.perm_middle).cons_inv
    refine row.rebuild [.free size] _ built rfl pool.headers edited nodes_eq ?_ ⟨parts.1, trivial⟩ parts.2 ?_ ?_
    · intro header member
      have span : site.base + total Block.size front + total Block.size [.free size] =
          site.base + total Block.size front + size := rfl
      rw [span]
      simp only [List.mem_cons, List.not_mem_nil, or_false] at member
      omega
    · refine headerEdits.linked unlinked fun node member header listed => ?_
      have apartHere := row.node_header (nodes_eq node member) hereMem
      have apartNext := row.node_header (nodes_eq node member) nextMem
      simp only [List.mem_cons, List.not_mem_nil, or_false, Block.size] at listed apartHere apartNext
      generalize site.base + total Block.size front = b at *
      clear row pool fits
      omega
    · obtain ⟨before, behind, _, _⟩ := separated_free.mp pool.separated
      exact (separated_solid rfl).mpr ⟨before, behind⟩
  · refine edited.keeps (fun node member i low high => row.private_links (mem_of_erase member) low high)
      fun header member i low high => ?_
    simp only [List.mem_cons, List.not_mem_nil, or_false] at member
    rcases member with rfl | rfl
    · exact row.private_header hereMem low high
    · exact row.private_header nextMem low high

end

end SmingCoap.Server.Bget
