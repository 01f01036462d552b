import SmingCoap.Server.Endpoint
import SmingCoap.Server.Message
import SmingCoap.Server.UriOptions

/-! # Resources and observers

`coap_resource.c`, `coap_option_observe.c` and the scan for critical options.
Observers are heap objects that interactions point to, so each has a number; the
stack never frees a resource, which is its place in the list.  Handlers and
notifiers are user code; a resource says whether it has them.
-/

namespace SmingCoap.Server

open Wire (Opt)

def reqPost : UInt8 := 0x02
def reqPut : UInt8 := 0x03

/-- `CoAP_Observer_t`.  `origin` is the packet that registered it, which no function looks at. -/
structure CoapObserver where
  ref : Nat
  ep : NetEp
  ifID : UInt8
  token : UInt64
  options : List Opt
  origin : NetPacket

/-- `CoAP_Res_t`; `handler` and `notifier` say that the function pointers are set. -/
structure CoapResource where
  updateCnt : UInt32
  flags : UInt16
  uri : List Opt
  observers : List CoapObserver
  handler : Bool
  notifier : Bool

/-- `CoAP_FindResourceByUri` in the list of all resources. -/
def findResourceByUri (resources : List CoapResource) (uriToMatch : List Opt) : Option Nat :=
  resources.findIdx? fun resource => uriOptionsAreEqual resource.uri uriToMatch

/-! ## Critical options -/

def knownOptions : List Nat :=
  [optNumUriPath, optBlock2, optBlock1, optNumEtag, optNumContentFormat, optNumUriQuery]

def optFlagCritical : Nat := 1

/-- `CoAP_CheckForUnknownCriticalOption`: the number of the first one, 0 if there is none. -/
def checkForUnknownCriticalOption : List Opt → Nat
  | [] => 0
  | option :: rest =>
    if option.number ∉ knownOptions ∧ option.number &&& optFlagCritical ≠ 0 then option.number
    else checkForUnknownCriticalOption rest

/-! ## The Observe option -/

def observeOptRegister : Nat := 0
def observeOptDeregister : Nat := 1

/-- The value bytes `AddObserveOptionToMsg` writes: three at most, the highest first. -/
def observeBytes (val : UInt32) : List UInt8 :=
  if val > 0xFFFF then [(val >>> 16).toUInt8, (val >>> 8).toUInt8, val.toUInt8]
  else if val > 0xFF then [(val >>> 8).toUInt8, val.toUInt8]
  else if val > 0 then [val.toUInt8]
  else []

/-- `AddObserveOptionToMsg`; its result is not looked at anywhere. -/
def addObserveOptionToMsg (available : Bool) (msg : CoapMessage) (val : UInt32) : CoapMessage :=
  { msg with options := (appendOptionToList available msg.options ⟨optNumObserve, observeBytes val⟩).2 }

/-- `RemoveObserveOptionFromMsg`. -/
def removeObserveOptionFromMsg (msg : CoapMessage) : CoapMessage :=
  { msg with options := msg.options.eraseP fun option => option.number = optNumObserve }

/-- `UpdateObserveOptionInMsg`. -/
def updateObserveOptionInMsg (available : Bool) (msg : CoapMessage) (val : UInt32) : CoapMessage :=
  addObserveOptionToMsg available (removeObserveOptionFromMsg msg) val

/-- `GetObserveOptionFromMsg`: no value for `COAP_NOT_FOUND` and `COAP_BAD_OPTION_VAL`. -/
def getObserveOptionFromMsg (msg : CoapMessage) : Option Nat :=
  match msg.options.find? fun option => option.number = optNumObserve with
  | none => none
  | some option =>
    match option.value with
    | [] => some 0
    | [low] => some low.toNat
    | [high, low] => some (high.toNat * 256 + low.toNat)
    | [top, high, low] => some (top.toNat * 65536 + high.toNat * 256 + low.toNat)
    | _ => none

/-! ## The list of observers -/

/-- The key under which observers are found. -/
def CoapObserver.matches (observer : CoapObserver) (ifID : UInt8) (ep : NetEp) (token : UInt64) : Bool :=
  token = observer.token && ifID = observer.ifID && epAreEqual ep observer.ep

/-- `CoAP_RemoveObserverFromResource`: the first match is unlinked and freed. -/
def CoapResource.removeObserver (resource : CoapResource) (ifID : UInt8) (ep : NetEp) (token : UInt64) :
    CoapResource :=
  { resource with observers := resource.observers.eraseP fun observer => observer.matches ifID ep token }

/-- `CoAP_AppendObserverToList`. -/
def CoapResource.appendObserver (resource : CoapResource) (observer : CoapObserver) : CoapResource :=
  { resource with observers := resource.observers ++ [observer] }

end SmingCoap.Server
