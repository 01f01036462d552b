import SmingCoap.LinkedList.Chain
import SmingCoap.Server.Payload
import SmingCoap.Server.Resource

/-! # Option lists in memory

The functions of `coap_options.c` that link options into a list and out of one, on the nodes and pointers of the
source.  An option is one block of memory, its value behind the node.  `memGet` is the outcome of the one allocation
an append makes: the null pointer, or memory that is not in use.  The loops get `fuel` turns; a function without a
result reads through a null or dangling pointer, or does not end.
-/

namespace SmingCoap.Server

open Wire (Opt)
open LinkedList (Node Segment walk)

/-- The memory, and what `pOptionsListBegin` points to: the start of a list. -/
structure OptionMemory where
  heap : LinkedList.Heap Opt
  start : Option Nat

namespace OptionMemory

/-- The options of the list, each with its node. -/
def Lists (memory : OptionMemory) (nodes : List (Nat × Opt)) : Prop :=
  Segment memory.heap memory.start nodes none

/-! ## Appending -/

/-- `append_OptionToListEnd`. -/
def appendOptionToListEnd (memory : OptionMemory) (fuel : Nat) (memGet : Option Nat) (option : Opt) :
    Option (CoapResult × OptionMemory) :=
  match memory.start with
  | none =>
    let memory := { memory with start := memGet }
    match memGet with
    | none => some (.errOutOfMemory, memory)
    | some new => some (.ok, { memory with heap := memory.heap.store new ⟨none, option⟩ })
  | some pOption => do
    let pOption ← (← walk memory.heap (fun node => node.next.isSome) fuel (some pOption))
    let memory := { memory with heap := memory.heap.setNext pOption memGet }
    match memGet with
    | none => some (.errOutOfMemory, memory)
    | some new => some (.ok, { memory with heap := memory.heap.store new ⟨none, option⟩ })

/-- `CoAP_AppendOptionToList`. -/
def appendOptionToList (memory : OptionMemory) (fuel : Nat) (memGet : Option Nat) (option : Opt) :
    Option (CoapResult × OptionMemory) :=
  match memory.start with
  | none => memory.appendOptionToListEnd fuel memGet option
  | some first => do
    match ← walk memory.heap (fun node => node.entry.number ≤ option.number) fuel (some first) with
    | none => memory.appendOptionToListEnd fuel memGet option
    | some pOption =>
      if pOption = first then
        -- the list start takes the result of the allocation before it is looked at
        let memory := { memory with start := memGet }
        match memGet with
        | none => some (.errOutOfMemory, memory)
        | some new => some (.ok, { memory with heap := memory.heap.store new ⟨some pOption, option⟩ })
      else
        let pPrevOption ← (← walk memory.heap (fun node => node.next ≠ some pOption) fuel (some first))
        match memGet with
        | none => some (.errOutOfMemory, memory)
        | some new =>
          some (.ok, { memory with
            heap := (memory.heap.setNext pPrevOption (some new)).store new ⟨some pOption, option⟩ })

/-- `CoAP_CopyOptionToList`. -/
def copyOptionToList (memory : OptionMemory) (fuel : Nat) (memGet : Option Nat) (optToCopy : Opt) :
    Option (CoapResult × OptionMemory) :=
  memory.appendOptionToList fuel memGet ⟨optToCopy.number, optToCopy.value⟩

/-- `AddObserveOptionToMsg` on the options of a message. -/
def addObserveOption (memory : OptionMemory) (fuel : Nat) (memGet : Option Nat) (val : UInt32) :
    Option (CoapResult × OptionMemory) :=
  memory.appendOptionToList fuel memGet ⟨optNumObserve, observeBytes val⟩

/-- `AddBlkOptionToMsg` on the options of a message. -/
def addBlkOption (memory : OptionMemory) (fuel : Nat) (memGet : Option Nat) (blkOption : BlockOption) :
    Option (CoapResult × OptionMemory) :=
  memory.appendOptionToList fuel memGet ⟨blkOption.type.toNat, blockOptionBytes blkOption⟩

/-! ## Removing -/

/-- The loop of `CoAP_RemoveOptionFromList`: `prevP` and `currP`. -/
def removeLoop (memory : OptionMemory) (pOptionToRemove : Option Nat) :
    Nat → Option Nat → Option Nat → Option OptionMemory
  | 0, _, _ => none
  | _ + 1, _, none => some memory
  | fuel + 1, prevP, some currP => do
    let node ← memory.heap currP
    if some currP = pOptionToRemove then
      match prevP with
      | none => some { heap := memory.heap.free currP, start := node.next }
      | some prevP => some { memory with heap := (memory.heap.setNext prevP node.next).free currP }
    else removeLoop memory pOptionToRemove fuel (some currP) node.next

/-- `CoAP_RemoveOptionFromList`. -/
def removeOptionFromList (memory : OptionMemory) (fuel : Nat) (pOptionToRemove : Option Nat) :
    Option (CoapResult × OptionMemory) :=
  (memory.removeLoop pOptionToRemove fuel none memory.start).map (CoapResult.ok, ·)

end OptionMemory

end SmingCoap.Server
