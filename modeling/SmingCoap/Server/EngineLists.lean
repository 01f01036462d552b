import SmingCoap.LinkedList.Chained
import SmingCoap.Server.Interaction

/-! # The lists of the engine in memory

The functions of `coap_interaction.c`, `coap_option_observe.c` and
`coap_resource.c` that link interactions and observers, on the nodes and pointers
of the source.  The loops get `fuel` turns; a function without a result reads or
writes through a null or dangling pointer, or does not end.
-/

namespace SmingCoap.Server

open LinkedList (Chained walk)

/-- The memory, and `CoAP.pInteractions`. -/
abbrev InteractionMemory := Chained CoapInteraction

namespace InteractionMemory

/-- `CoAP_AppendInteractionToList`. -/
def appendInteractionToList (this : InteractionMemory) (fuel : Nat) (pInteractionToAdd : Option Nat) :
    Option (CoapResult × InteractionMemory) :=
  match pInteractionToAdd with
  | none => some (.errArgument, this)
  | some pInteractionToAdd => (this.append fuel pInteractionToAdd).map (CoapResult.ok, ·)

/-- `CoAP_UnlinkInteractionFromList`. -/
def unlinkInteractionFromList (this : InteractionMemory) (fuel pInteractionToRemove : Nat) (freeUnlinked : Bool) :
    Option (CoapResult × InteractionMemory) :=
  (this.unlink fuel pInteractionToRemove freeUnlinked).map (CoapResult.ok, ·)

/-- `CoAP_MoveInteractionToListEnd`. -/
def moveInteractionToListEnd (this : InteractionMemory) (fuel pInteractionToMove : Nat) :
    Option (CoapResult × InteractionMemory) :=
  (this.moveToEnd fuel pInteractionToMove).map (CoapResult.ok, ·)

/-- `CoAP_GetLongestPendingInteraction`. -/
def getLongestPendingInteraction (this : InteractionMemory) : Option Nat := this.start

/-- `CoAP_DeleteInteraction`. -/
def deleteInteraction (this : InteractionMemory) (fuel pInteractionToDelete : Nat) :
    Option (CoapResult × InteractionMemory) :=
  this.unlinkInteractionFromList fuel pInteractionToDelete true

/-- `CoAP_EnqueueLastInteraction`. -/
def enqueueLastInteraction (this : InteractionMemory) (fuel pInteractionToEnqueue : Nat) :
    Option (CoapResult × InteractionMemory) :=
  this.moveInteractionToListEnd fuel pInteractionToEnqueue

/-- `CoAP_AllocNewInteraction` with what is written to the fields, and `CoAP_AppendInteractionToList`; `newIA` is the
memory that was obtained. -/
def startInteraction (this : InteractionMemory) (fuel newIA : Nat) (pIA : CoapInteraction) :
    Option (CoapResult × InteractionMemory) :=
  appendInteractionToList { this with heap := this.heap.store newIA ⟨none, pIA⟩ } fuel (some newIA)

end InteractionMemory

/-- The memory, and `pListObservers` of a resource. -/
abbrev ObserverMemory := Chained CoapObserver

namespace ObserverMemory

/-- `CoAP_AppendObserverToList`. -/
def appendObserverToList (this : ObserverMemory) (fuel : Nat) (pObserverToAdd : Option Nat) :
    Option (CoapResult × ObserverMemory) :=
  match pObserverToAdd with
  | none => some (.errArgument, this)
  | some pObserverToAdd => (this.append fuel pObserverToAdd).map (CoapResult.ok, ·)

/-- `CoAP_UnlinkObserverFromList`. -/
def unlinkObserverFromList (this : ObserverMemory) (fuel pObserverToRemove : Nat) (freeUnlinked : Bool) :
    Option (CoapResult × ObserverMemory) :=
  (this.unlink fuel pObserverToRemove freeUnlinked).map (CoapResult.ok, ·)

/-- `CoAP_RemoveObserverFromResource`. -/
def removeObserverFromResource (this : ObserverMemory) (fuel : Nat) (ifID : UInt8) (pRemoteEP : NetEp) (token : UInt64) :
    Option (CoapResult × ObserverMemory) := do
  match ← walk this.heap (fun node => ! node.entry.matches ifID pRemoteEP token) fuel this.start with
  | none => some (.errNotFound, this)
  | some pObserver =>
    let (_, this) ← this.unlinkObserverFromList fuel pObserver true
    some (.removed, this)

/-- `CoAP_AllocNewObserver` with what is written to the fields, and `CoAP_AppendObserverToList`. -/
def addObserver (this : ObserverMemory) (fuel newObserver : Nat) (observer : CoapObserver) :
    Option (CoapResult × ObserverMemory) :=
  appendObserverToList { this with heap := this.heap.store newObserver ⟨none, observer⟩ } fuel (some newObserver)

end ObserverMemory

end SmingCoap.Server
