import SmingCoap.Wire.LittleEndian
import SmingCoap.Server.Resource

/-! # Saved observers

`CoAP_NVsaveObservers` and `CoAP_NVloadObservers` of `coap_resource.c`.  Each
observer becomes a list of options, packed at a pointer into a page and followed
by a payload marker; the page goes to the storage and is parsed again, record by
record, when the server starts.
-/

namespace SmingCoap.Server

open Wire (Memory Opt)

def optNumUriHost : Nat := 3
def optNumUriPort : Nat := 7
def optNumLobaroTokenSave : Nat := 350

/-- `sizeof(TempPage)`. -/
def tempPageSize : Nat := 2048

/-- How the compiler lays out `NetEp_t`: its size, the bytes of an endpoint, and the endpoint that
bytes stand for. -/
structure NetEpLayout where
  size : Nat
  bytes : NetEp → List UInt8
  read : List UInt8 → NetEp
  length_bytes : ∀ ep, (bytes ep).length = size
  read_bytes : ∀ ep, read (bytes ep) = ep
  short : size ≤ maxOptionValueSize

/-- The number that stands for an interface type. -/
def NetInterfaceType.code : NetInterfaceType → Nat
  | .ipv6 => 0
  | .ipv4 => 1
  | .btle => 2
  | .uart => 3

def NetInterfaceType.ofCode : Nat → NetInterfaceType
  | 0 => .ipv6
  | 1 => .ipv4
  | 2 => .btle
  | _ => .uart

/-- With four bytes for the enumeration, and two behind the port that align it. -/
def netEpLayout : NetEpLayout where
  size := 24
  bytes ep := Wire.digits ep.netType.code 4 ++ (ep.netAddr ++ (Wire.digits ep.netPort.toNat 2 ++ [0, 0]))
  read bytes :=
    { netType := .ofCode (Wire.littleEndian (bytes.take 4))
      netAddr := List.ofFn fun i : Fin netAddrMaxLength => bytes.getD (4 + i) 0
      netPort := UInt16.ofNat (Wire.littleEndian ((bytes.drop 20).take 2))
      sized := List.length_ofFn }
  length_bytes ep := by
    simp only [List.length_append, Wire.length_digits, ep.sized]
    rfl
  read_bytes ep := by
    obtain ⟨netType, netAddr, netPort, sized⟩ := ep
    have typeRead : NetInterfaceType.ofCode (Wire.littleEndian (Wire.digits netType.code 4)) = netType := by
      cases netType <;> decide
    have portRead : UInt16.ofNat (Wire.littleEndian (Wire.digits netPort.toNat 2)) = netPort := by
      rw [Wire.littleEndian_digits netPort.toNat_lt, UInt16.ofNat_toNat]
    have typeBytes : (Wire.digits netType.code 4).length = 4 := Wire.length_digits ..
    have portBytes : (Wire.digits netPort.toNat 2).length = 2 := Wire.length_digits ..
    have addrRead : (List.ofFn fun i : Fin netAddrMaxLength => (Wire.digits netType.code 4 ++
        (netAddr ++ (Wire.digits netPort.toNat 2 ++ [0, 0]))).getD (4 + i) 0) = netAddr := by
      apply List.ext_getElem
      · rw [List.length_ofFn, sized]
      · intro i _ inside
        rw [List.getElem_ofFn, List.getD_eq_getElem?_getD, List.getElem?_append_right (by omega),
          List.getElem?_append_left (by omega), typeBytes, Nat.add_sub_cancel_left, List.getElem?_eq_getElem inside,
          Option.getD_some]
    have typeTaken : (Wire.digits netType.code 4 ++ (netAddr ++ (Wire.digits netPort.toNat 2 ++ [0, 0]))).take 4 =
        Wire.digits netType.code 4 := List.take_left' typeBytes
    have portTaken : ((Wire.digits netType.code 4 ++ (netAddr ++ (Wire.digits netPort.toNat 2 ++ [0, 0]))).drop 20).take
        2 = Wire.digits netPort.toNat 2 := by
      rw [← List.append_assoc, List.drop_left' (by rw [List.length_append, typeBytes, sized]; rfl),
        List.take_left' portBytes]
    simp only [typeTaken, portTaken, addrRead, typeRead, portRead]
  short := by decide

/-! ## Saving -/

/-- The variables of `CoAP_NVsaveObservers`, and the allocations so far. -/
structure TempPage where
  tempPage : Memory
  pTempPage : Nat
  totalPageBytes : UInt32
  allocs : Nat

/-- `CoAP_CopyOptionToList` for each of the options. -/
def OptionList.copy (alloc : Nat → Bool) (list : OptionList) (options : List Opt) : OptionList :=
  options.foldl (fun list option => list.append alloc option.number option.value option.value.length) list

/-- The option list of an observer; `uri` are the options of the resource that are still to be encoded. -/
def savedOptions (alloc : Nat → Bool) (layout : NetEpLayout) (allocs : Nat) (uri : List Opt)
    (observer : CoapObserver) : OptionList :=
  let list := OptionList.append alloc ⟨[], allocs⟩ optNumUriHost (layout.bytes observer.ep) layout.size
  let list := list.append alloc optNumUriPort [observer.ifID] 1
  let list := list.copy alloc uri
  let list := list.copy alloc observer.options
  list.append alloc optNumLobaroTokenSave (Wire.digits observer.token.toNat 8) 8

/-- One turn of the inner loop: a record at the pointer, with a marker behind it. -/
def TempPage.saveObserver (alloc : Nat → Bool) (layout : NetEpLayout) (this : TempPage) (uri : List Opt)
    (observer : CoapObserver) : TempPage :=
  let list := savedOptions alloc layout this.allocs uri observer
  let (packed, bytesWritten) := packOptionsFromList (this.tempPage.offset this.pTempPage) 0 0 list.options
  let tempPage : Memory := fun i => if i < this.pTempPage then this.tempPage i else packed (i - this.pTempPage)
  let totalPageBytes := this.totalPageBytes + UInt32.ofNat (bytesWritten + 1)
  { tempPage := tempPage.store (this.pTempPage + bytesWritten) 0xFF
    pTempPage := this.pTempPage + totalPageBytes.toNat
    totalPageBytes
    allocs := list.allocs }

/-- The inner loop; the URI of the resource goes into its first record. -/
def TempPage.saveObservers (alloc : Nat → Bool) (layout : NetEpLayout) (uri : List Opt) :
    TempPage → (uriPathHasBeenEncoded : Bool) → List CoapObserver → TempPage
  | this, _, [] => this
  | this, uriPathHasBeenEncoded, observer :: rest =>
    saveObservers alloc layout uri
      (this.saveObserver alloc layout (if uriPathHasBeenEncoded then [] else uri) observer) true rest

/-- `CoAP_NVsaveObservers`, up to the call of `hal_nonVolatile_WriteBuf`. -/
def nvSaveObservers (alloc : Nat → Bool) (layout : NetEpLayout) (tempPage : Memory)
    (resources : List CoapResource) : TempPage :=
  resources.foldl (fun page resource => page.saveObservers alloc layout resource.uri false resource.observers)
    ⟨tempPage, 0, 0, 0⟩

/-- What the storage returns: the bytes that were written, erased ones behind them. -/
def TempPage.stored (this : TempPage) : Memory :=
  fun i => if i < this.totalPageBytes.toNat then this.tempPage i else 0xFF

/-! ## Loading -/

/-- A saved option goes into the new observer.  A value that is too short is read beyond its end, where
memory holds `behind`. -/
def restoreOption (alloc : Nat → Bool) (layout : NetEpLayout) (behind : Memory) (state : CoapObserver × Nat)
    (option : Opt) : CoapObserver × Nat :=
  let (observer, allocs) := state
  let value : Memory := fun i => option.value.getD i (behind i)
  if option.number = optNumUriHost then ({ observer with ep := layout.read (value.bytes 0 layout.size) }, allocs)
  else if option.number = optNumUriPort then ({ observer with ifID := value 0 }, allocs)
  else if option.number = optNumUriPath then (observer, allocs)
  else if option.number = optNumLobaroTokenSave then
    ({ observer with token := UInt64.ofNat (Wire.littleEndian (value.bytes 0 8)) }, allocs)
  else
    let list := OptionList.append alloc ⟨observer.options, allocs⟩ option.number option.value option.value.length
    ({ observer with options := list.options }, list.allocs)

/-- `CoAP_AllocNewObserver`: the memory is cleared. -/
def newObserver (layout : NetEpLayout) (ref : Nat) (origin : NetPacket) : CoapObserver :=
  { ref, ep := layout.read (List.replicate layout.size 0), ifID := 0, token := 0, options := [], origin }

/-- The loop of `CoAP_NVloadObservers`; it goes on with the list of a record that was not used.  Without a
result a null pointer is read, or the loop never ends: it moves forward in the page, and what is behind the
page ends it. -/
def nvLoadLoop (alloc : Nat → Bool) (layout : NetEpLayout) (behind : Memory) (origin : NetPacket)
    (page : Memory) : (fuel allocs ref : Nat) → (pRawPage : Option Nat) → (pOptList : List Opt) →
      List CoapResource → Option (List CoapResource)
  | 0, _, _, _, _, _ => none
  | _ + 1, _, _, none, _, _ => none
  | fuel + 1, allocs, ref, some pRawPage, pOptList, resources =>
    -- the parser refuses a list that is not empty
    if pOptList ≠ [] then some resources
    else
      match parseOptionsFromRaw (fun i => alloc (allocs + i)) (page.offset pRawPage) tempPageSize with
      | none => none
      | some (.ok, pOptList, payloadBegin) =>
        let allocs := allocs + pOptList.length
        let pRawPage := payloadBegin.map (pRawPage + ·)
        match findResourceByUri resources pOptList with
        | none => nvLoadLoop alloc layout behind origin page fuel allocs ref pRawPage pOptList resources
        | some pRes =>
          if alloc allocs then
            let (observer, allocs) :=
              pOptList.foldl (restoreOption alloc layout behind) (newObserver layout ref origin, allocs + 1)
            nvLoadLoop alloc layout behind origin page fuel allocs (ref + 1) pRawPage []
              (resources.modify pRes fun resource => resource.appendObserver observer)
          else nvLoadLoop alloc layout behind origin page fuel (allocs + 1) ref pRawPage pOptList resources
      | some _ => some resources

/-- `CoAP_NVloadObservers`.  `ref` is the number of the next observer and `origin` the packet it is ascribed
to. -/
def nvLoadObservers (alloc : Nat → Bool) (layout : NetEpLayout) (behind : Memory) (ref : Nat) (origin : NetPacket)
    (page : Memory) (resources : List CoapResource) : Option (List CoapResource) :=
  nvLoadLoop alloc layout behind origin page tempPageSize 0 ref (some 0) [] resources

end SmingCoap.Server
