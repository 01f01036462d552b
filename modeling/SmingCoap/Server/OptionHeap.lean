import SmingCoap.Server.Bget
import SmingCoap.Server.OptionList

/-! # Option lists in the bytes of memory

The functions of `coap_options.c` that link options into a list and out of one,
once more: here on the bytes that the allocator hands out.  A node has its
`next` pointer, number, length and value pointer in twelve bytes, and the value
lies behind them.  The loops read whatever the memory holds at a pointer; a
function without a result does not end, or the allocator fails an assertion.
-/

namespace SmingCoap.Server.Bget

open Wire (Memory Opt int16)
open LinkedList (Node walk)

/-- `sizeof(CoAP_option_t)`. -/
def optionSize : Nat := 12

/-- A pointer that lies at an address. -/
def loadPointer (memory : Memory) (address : Nat) : Option Nat :=
  if memory.load 4 address = 0 then none else some (memory.load 4 address)

/-- `pOption->Value`. -/
def optionValue (memory : Memory) (pOption : Nat) : Nat := memory.load 4 (pOption + 8)

/-- The node at an address. -/
def readOption (memory : Memory) (pOption : Nat) : Node Opt where
  next := loadPointer memory pOption
  entry := ⟨memory.load 2 (pOption + 4), memory.bytes (optionValue memory pOption) (memory.load 2 (pOption + 6))⟩

/-- What can be read through any pointer but the null pointer. -/
def optionHeap (memory : Memory) : LinkedList.Heap Opt := fun pOption => some (readOption memory pOption)

/-- `pOption->next = next`. -/
def setNext (memory : Memory) (pOption : Nat) (next : Option Nat) : Memory := memory.put 4 pOption (next.getD 0)

/-- The fields of a new option. -/
def fillOption (memory : Memory) (pOption : Nat) (option : Opt) : Memory :=
  let memory := memory.put 2 (pOption + 6) option.value.length
  let memory := memory.put 2 (pOption + 4) option.number
  let memory := memory.put 4 (pOption + 8) (pointer (pOption + optionSize))
  memory.copy (optionValue memory pOption) option.value

/-- The allocator, and what `pOptionsListBegin` points to. -/
structure OptionHeap where
  allocator : Allocator
  start : Option Nat

namespace OptionHeap

/-- `coap_mem_get(sizeof(CoAP_option_t) + length)`. -/
def memGet (freelist fuel length : Nat) (allocator : Allocator) : Option (Option Nat × Allocator) :=
  coapMemGet freelist fuel (int16 (optionSize + length)) allocator

/-- A new node with its fields. -/
def write (list : OptionHeap) (new : Nat) (next : Option Nat) (option : Opt) : OptionHeap :=
  { list with allocator := { list.allocator with
      memory := fillOption (setNext list.allocator.memory new next) new option } }

/-! ## Appending -/

/-- `append_OptionToListEnd`. -/
def appendOptionToListEnd (list : OptionHeap) (freelist fuel : Nat) (option : Opt) : Option (CoapResult × OptionHeap) :=
  match list.start with
  | none => do
    let (new, allocator) ← memGet freelist fuel option.value.length list.allocator
    let list : OptionHeap := { allocator, start := new }
    match new with
    | none => some (.errOutOfMemory, list)
    | some new => some (.ok, list.write new none option)
  | some pOption => do
    let pOption ← (← walk (optionHeap list.allocator.memory) (fun node => node.next.isSome) fuel (some pOption))
    let (new, allocator) ← memGet freelist fuel option.value.length list.allocator
    let list : OptionHeap :=
      { list with allocator := { allocator with memory := setNext allocator.memory pOption new } }
    match new with
    | none => some (.errOutOfMemory, list)
    | some new => some (.ok, list.write new none option)

/-- `CoAP_AppendOptionToList`. -/
def appendOptionToList (list : OptionHeap) (freelist fuel : Nat) (option : Opt) : Option (CoapResult × OptionHeap) :=
  match list.start with
  | none => list.appendOptionToListEnd freelist fuel option
  | some first => do
    match ← walk (optionHeap list.allocator.memory) (fun node => node.entry.number ≤ option.number) fuel (some first) with
    | none => list.appendOptionToListEnd freelist fuel option
    | some pOption =>
      if pOption = first then do
        let (new, allocator) ← memGet freelist fuel option.value.length list.allocator
        let list : OptionHeap := { allocator, start := new }
        match new with
        | none => some (.errOutOfMemory, list)
        | some new => some (.ok, list.write new (some pOption) option)
      else do
        let pPrevOption ← (← walk (optionHeap list.allocator.memory) (fun node => node.next ≠ some pOption) fuel (some first))
        let (new, allocator) ← memGet freelist fuel option.value.length list.allocator
        match new with
        | none => some (.errOutOfMemory, { list with allocator })
        | some new =>
          let list : OptionHeap :=
            { list with allocator := { allocator with memory := setNext allocator.memory pPrevOption (some new) } }
          some (.ok, list.write new (some pOption) option)

/-! ## Removing -/

/-- The node behind `prevP`, or the first one, is linked out and released. -/
def linkOut (list : OptionHeap) (freelist : Nat) (prevP : Option Nat) (currP : Nat) : Option OptionHeap := do
  let next := loadPointer list.allocator.memory currP
  let list : OptionHeap := match prevP with
    | none => { list with start := next }
    | some prevP =>
      { list with allocator := { list.allocator with memory := setNext list.allocator.memory prevP next } }
  let allocator ← coapMemRelease freelist (some currP) list.allocator
  some { list with allocator }

/-- The loop of `CoAP_RemoveOptionFromList`: `prevP` and `currP`. -/
def removeLoop (list : OptionHeap) (freelist : Nat) (pOptionToRemove : Option Nat) :
    Nat → Option Nat → Option Nat → Option OptionHeap
  | 0, _, _ => none
  | _ + 1, _, none => some list
  | fuel + 1, prevP, some currP =>
    if some currP = pOptionToRemove then list.linkOut freelist prevP currP
    else list.removeLoop freelist pOptionToRemove fuel (some currP) (loadPointer list.allocator.memory currP)

/-- `CoAP_RemoveOptionFromList`. -/
def removeOptionFromList (list : OptionHeap) (freelist fuel : Nat) (pOptionToRemove : Option Nat) :
    Option (CoapResult × OptionHeap) :=
  (list.removeLoop freelist pOptionToRemove fuel none list.start).map (CoapResult.ok, ·)

/-- The loop of `CoAP_FreeOptionList`: the node behind the first one is linked out and released. -/
def freeLoop (freelist first : Nat) : Nat → Allocator → Option Allocator
  | 0, _ => none
  | fuel + 1, allocator =>
    match loadPointer allocator.memory first with
    | none => some allocator
    | some pOption1 => do
      let memory := setNext allocator.memory first (loadPointer allocator.memory pOption1)
      let allocator ← coapMemRelease freelist (some pOption1) { allocator with memory }
      freeLoop freelist first fuel allocator

/-- `CoAP_FreeOptionList`. -/
def freeOptionList (list : OptionHeap) (freelist fuel : Nat) : Option (CoapResult × OptionHeap) :=
  match list.start with
  | none => some (.ok, list)
  | some first => do
    let allocator ← freeLoop freelist first fuel list.allocator
    let allocator ← coapMemRelease freelist (some first) allocator
    some (.ok, { allocator, start := none })

end OptionHeap

end SmingCoap.Server.Bget
