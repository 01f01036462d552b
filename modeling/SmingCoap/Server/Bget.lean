import SmingCoap.LinkedList.Ring
import SmingCoap.Wire.Words

/-! # The memory allocator

`coap_mem.c`: the BGET allocator and the functions by which the stack uses it.
Its whole state but a few counters lies in memory: each block of the pool begins
with a header, a free one goes on with its links in the list of free blocks, and
the head of that list is the variable `freelist`.  A `bufsize` is a 16 bit
number with a sign, and a pointer has four bytes.

A function without a result fails an assertion, or follows links that do not
lead back to `freelist` within the given number of steps.
-/

namespace SmingCoap.Server.Bget

open Wire (Memory int16)

/-- `SizeQuant`. -/
def sizeQuant : Int := 4

/-- `sizeof(struct bhead)`. -/
def bheadSize : Int := 4

/-- `sizeof(struct bdhead)`. -/
def bdheadSize : Int := 6

/-- `QLSize`. -/
def qlSize : Int := 8

/-- `SizeQ`. -/
def sizeQ : Int := if sizeQuant > qlSize then sizeQuant else qlSize

/-- `ESent`. -/
def eSent : Int := int16 (-(((1 <<< 14) - 1) * 2) - 2)

/-- `size & ~(SizeQuant - 1)`. -/
def roundDown (size : Int) : Int := size / sizeQuant * sizeQuant

/-- How many addresses there are. -/
def addressSpace : Nat := 0x100000000

/-- Where a pointer points after an addition. -/
def pointer (address : Int) : Nat := (address % addressSpace).toNat

/-! ## Headers -/

/-- `b->bh.prevfree`. -/
def prevfree (memory : Memory) (b : Nat) : Int := memory.loadInt16 b

/-- `b->bh.bsize`. -/
def blockSize (memory : Memory) (b : Nat) : Int := memory.loadInt16 (b + 2)

/-- `b->ql.flink`. -/
def flink (memory : Memory) (b : Nat) : Nat := memory.load 4 (b + 4)

/-- `b->ql.blink`. -/
def blink (memory : Memory) (b : Nat) : Nat := memory.load 4 (b + 8)

def setPrevfree (memory : Memory) (b : Nat) (prevfree : Int) : Memory := memory.putInt16 b prevfree

def setBlockSize (memory : Memory) (b : Nat) (size : Int) : Memory := memory.putInt16 (b + 2) size

def setFlink (memory : Memory) (b target : Nat) : Memory := memory.put 4 (b + 4) target

def setBlink (memory : Memory) (b target : Nat) : Memory := memory.put 4 (b + 8) target

/-! ## The list of free blocks -/

/-- The last block is followed by `b`. -/
def linkLast (freelist b : Nat) (memory : Memory) : Memory :=
  let memory := setFlink memory b freelist
  let memory := setBlink memory b (blink memory freelist)
  let memory := setBlink memory freelist b
  setFlink memory (blink memory b) b

/-- The blocks beside `b` lead to each other. -/
def unlink (b : Nat) (memory : Memory) : Memory :=
  let memory := setFlink memory (blink memory b) (flink memory b)
  setBlink memory (flink memory b) (blink memory b)

/-- The head of the list is linked to its ends both ways. -/
def ListLinked (freelist : Nat) (memory : Memory) : Prop :=
  flink memory (blink memory freelist) = freelist ∧ blink memory (flink memory freelist) = freelist

instance (freelist : Nat) (memory : Memory) : Decidable (ListLinked freelist memory) :=
  inferInstanceAs (Decidable (_ ∧ _))

/-- A block is linked to its neighbours both ways. -/
def BlockLinked (b : Nat) (memory : Memory) : Prop :=
  flink memory (blink memory b) = b ∧ blink memory (flink memory b) = b

instance (b : Nat) (memory : Memory) : Decidable (BlockLinked b memory) := inferInstanceAs (Decidable (_ ∧ _))

/-- `assert`. -/
def assert (condition : Prop) [Decidable condition] : Option Unit := if condition then some () else none

/-! ## Requests -/

/-- The memory, and the variables of the file; the counters of calls have 32 bits. -/
structure Allocator where
  memory : Memory
  totalloc : Int
  numget : UInt32
  numrel : UInt32
  pMemArea : Nat
  totalBufBytes : Int
  staticAllocation : Int

/-- How much of the pool `bget` looks for. -/
def blockRequest (requestedSize : Int) : Int :=
  let size := if requestedSize < sizeQ then sizeQ else requestedSize
  let size := int16 (roundDown (size + (sizeQuant - 1)))
  int16 (size + bheadSize)

/-- One turn of the search for the smallest block that is large enough. -/
def better (freelist : Nat) (memory : Memory) (size : Int) (best b : Nat) : Nat :=
  if size ≤ blockSize memory b ∧ (best = freelist ∨ blockSize memory b < blockSize memory best) then b else best

/-- The first search of `bget`. -/
def bestFit (freelist : Nat) (memory : Memory) (size : Int) (fuel : Nat) : Option Nat :=
  LinkedList.visitRing (flink memory) freelist (better freelist memory size) fuel (flink memory freelist) freelist

/-- The second search of `bget`, for the next block that is large enough. -/
def firstFit (freelist : Nat) (memory : Memory) (size : Int) : Nat → Nat → Option Nat
  | 0, _ => none
  | fuel + 1, b =>
    if b = freelist then some freelist
    else if size ≤ blockSize memory b then some b
    else firstFit freelist memory size fuel (flink memory b)

/-- The end of a free block becomes a block of its own. -/
def splitBlock (b : Nat) (size : Int) (allocator : Allocator) : Option (Nat × Allocator) := do
  let memory := allocator.memory
  let ba := pointer (b + (blockSize memory b - size))
  let bn := pointer (ba + size)
  assert (prevfree memory bn = blockSize memory b)
  let memory := setBlockSize memory b (int16 (blockSize memory b - size))
  let memory := setPrevfree memory ba (blockSize memory b)
  let memory := setBlockSize memory ba (int16 (-size))
  let memory := setPrevfree memory bn 0
  some (pointer (ba + bheadSize),
    { allocator with memory, totalloc := int16 (allocator.totalloc + size), numget := allocator.numget + 1 })

/-- A free block is handed out as a whole. -/
def takeBlock (b : Nat) (allocator : Allocator) : Option (Nat × Allocator) := do
  let memory := allocator.memory
  let ba := pointer (b + blockSize memory b)
  assert (prevfree memory ba = blockSize memory b)
  assert (BlockLinked b memory)
  let memory := unlink b memory
  let totalloc := int16 (allocator.totalloc + blockSize memory b)
  let memory := setBlockSize memory b (int16 (-blockSize memory b))
  let memory := setPrevfree memory ba 0
  some (pointer (b + bheadSize), { allocator with memory, totalloc, numget := allocator.numget + 1 })

/-- `bget`: the buffer, or the null pointer. -/
def bget (freelist fuel : Nat) (requestedSize : Int) (allocator : Allocator) : Option (Option Nat × Allocator) := do
  assert (0 < requestedSize)
  let size := blockRequest requestedSize
  let best ← bestFit freelist allocator.memory size fuel
  let b ← firstFit freelist allocator.memory size fuel best
  if b = freelist then some (none, allocator)
  else
    let (buf, allocator) ←
      if sizeQ + bheadSize < blockSize allocator.memory b - size then splitBlock b size allocator
      else takeBlock b allocator
    some (some buf, allocator)

/-- `bsize`: how many bytes of a buffer can be used. -/
def bsize (memory : Memory) (buf : Nat) : Int :=
  if buf = 0 then 0
  else
    let size := blockSize memory (pointer (buf - bheadSize))
    if size < 0 then -size - bheadSize else 0

/-- `bgetz`. -/
def bgetz (freelist fuel : Nat) (size : Int) (allocator : Allocator) : Option (Option Nat × Allocator) := do
  let (buf, allocator) ← bget freelist fuel size allocator
  match buf with
  | none => some (none, allocator)
  | some buf =>
    let rsize := int16 (-blockSize allocator.memory (pointer (buf - bheadSize)))
    let rsize :=
      if rsize = 0 then int16 (allocator.memory.loadInt16 (pointer (buf - bdheadSize)) - bdheadSize)
      else int16 (rsize - bheadSize)
    assert (size ≤ rsize)
    some (some buf, { allocator with memory := allocator.memory.copy buf (List.replicate rsize.toNat 0) })

/-! ## Releases -/

/-- The block goes to the free block in front of it, or to the end of the list.  The block that it is now part of. -/
def joinPrevious (freelist b : Nat) (memory : Memory) : Option (Nat × Memory) :=
  if prevfree memory b ≠ 0 then do
    let size := blockSize memory b
    let previous := pointer (b - prevfree memory b)
    assert (blockSize memory previous = prevfree memory b)
    some (previous, setBlockSize memory previous (int16 (blockSize memory previous - size)))
  else do
    assert (ListLinked freelist memory)
    let memory := linkLast freelist b memory
    some (b, setBlockSize memory b (int16 (-blockSize memory b)))

/-- A free block behind `b` is taken out of the list and becomes part of it. -/
def joinNext (b : Nat) (memory : Memory) : Option Memory :=
  let bn := pointer (b + blockSize memory b)
  if 0 < blockSize memory bn then do
    assert (prevfree memory (pointer (bn + blockSize memory bn)) = blockSize memory bn)
    assert (BlockLinked bn memory)
    let memory := unlink bn memory
    some (setBlockSize memory b (int16 (blockSize memory b + blockSize memory bn)))
  else some memory

/-- `brel`. -/
def brel (freelist buf : Nat) (allocator : Allocator) : Option Allocator := do
  let b := pointer (buf - bheadSize)
  let memory := allocator.memory
  assert (buf ≠ 0)
  assert (blockSize memory b < 0)
  assert (prevfree memory (pointer (b - blockSize memory b)) = 0)
  let totalloc := int16 (allocator.totalloc + blockSize memory b)
  assert (0 ≤ totalloc)
  let (b, memory) ← joinPrevious freelist b memory
  let memory ← joinNext b memory
  let bn := pointer (b + blockSize memory b)
  assert (blockSize memory bn < 0)
  let memory := setPrevfree memory bn (blockSize memory b)
  some { allocator with memory, totalloc, numrel := allocator.numrel + 1 }

/-- `bgetr`. -/
def bgetr (freelist fuel : Nat) (buf : Option Nat) (size : Int) (allocator : Allocator) :
    Option (Option Nat × Allocator) := do
  let (nbuf, allocator) ← bget freelist fuel size allocator
  match nbuf, buf with
  | none, _ => some (none, allocator)
  | some nbuf, none => some (some nbuf, allocator)
  | some nbuf, some buf =>
    let osize := int16 (int16 (-blockSize allocator.memory (pointer (buf - bheadSize))) - bheadSize)
    assert (0 < osize)
    let copied := allocator.memory.bytes buf (if size < osize then size else osize).toNat
    let allocator ← brel freelist buf { allocator with memory := allocator.memory.copy nbuf copied }
    some (some nbuf, allocator)

/-! ## The pool -/

/-- `bpool`. -/
def bpool (freelist buf : Nat) (len : Int) (memory : Memory) : Option Memory := do
  let len := int16 (roundDown len)
  assert ((len - bheadSize) % addressSpace ≤ -(eSent + 1))
  let memory := setPrevfree memory buf 0
  assert (ListLinked freelist memory)
  let memory := linkLast freelist buf memory
  let len := int16 (len - bheadSize)
  let memory := setBlockSize memory buf len
  let bn := pointer (buf + len)
  let memory := setPrevfree memory bn len
  some (setBlockSize memory bn eSent)

/-- What `bstats` reports. -/
structure Stats where
  curalloc : Int
  totfree : Int
  maxfree : Int
  nget : UInt32
  nrel : UInt32
  deriving DecidableEq, Repr

/-- One turn of the loop of `bstats`. -/
def countFree (memory : Memory) (counted : Option (Int × Int)) (b : Nat) : Option (Int × Int) := do
  let (totfree, maxfree) ← counted
  assert (0 < blockSize memory b)
  some (int16 (totfree + blockSize memory b), if blockSize memory b > maxfree then blockSize memory b else maxfree)

/-- `bstats`. -/
def bstats (freelist fuel : Nat) (allocator : Allocator) : Option Stats := do
  let memory := allocator.memory
  let counted ← LinkedList.visitRing (flink memory) freelist (countFree memory) fuel (flink memory freelist) (some (0, -1))
  let (totfree, maxfree) ← counted
  some { curalloc := allocator.totalloc, totfree, maxfree, nget := allocator.numget, nrel := allocator.numrel }

/-- `bpoolv`. -/
def bpoolv (memory : Memory) : Nat → Nat → Option Bool
  | 0, _ => none
  | fuel + 1, b =>
    if blockSize memory b = eSent then some true
    else
      let bs := blockSize memory b
      if bs < 0 then bpoolv memory fuel (pointer (b + int16 (-bs)))
      else do
        assert (0 < bs)
        assert (BlockLinked b memory)
        bpoolv memory fuel (pointer (b + bs))

/-! ## What the stack uses -/

/-- `coap_mem_init`. -/
def coapMemInit (freelist : Nat) (pMemoryArea : Option Nat) (size : Int) (allocator : Allocator) : Option Allocator :=
  match pMemoryArea with
  | none => some allocator
  | some pMemArea => do
    let memory ← bpool freelist pMemArea size allocator.memory
    some { allocator with memory, pMemArea, totalBufBytes := size }

def coapMemGet (freelist fuel : Nat) (size : Int) (allocator : Allocator) : Option (Option Nat × Allocator) :=
  bget freelist fuel size allocator

def coapMemGet0 (freelist fuel : Nat) (size : Int) (allocator : Allocator) : Option (Option Nat × Allocator) :=
  bgetz freelist fuel size allocator

def coapMemRelease (freelist : Nat) (buf : Option Nat) (allocator : Allocator) : Option Allocator :=
  match buf with
  | none => some allocator
  | some buf => brel freelist buf allocator

/-- `coap_mem_determinateStaticMem`. -/
def coapMemDeterminateStaticMem (freelist fuel : Nat) (allocator : Allocator) : Option Allocator := do
  let stats ← bstats freelist fuel allocator
  some { allocator with staticAllocation := stats.curalloc }

/-- `coap_mem_buf_lowEnd`. -/
def coapMemBufLowEnd (allocator : Allocator) : Nat := allocator.pMemArea

/-- `coap_mem_buf_highEnd`. -/
def coapMemBufHighEnd (allocator : Allocator) : Nat := pointer (allocator.pMemArea + (allocator.totalBufBytes - 1))

end SmingCoap.Server.Bget
