import SmingCoap.Server.Handlers
import SmingCoap.Server.PayloadPointers

/-! # The scan for networks

`wifi_scan_res.c` on the bytes of the pool: a request starts a scan and waits,
the callback of the scan writes the stations as text into a buffer of the pool,
and the next request takes that buffer as the payload of its response.

A function without a result fails an assertion of the allocator, writes through
a null pointer or beyond its local text buffer, or finds no end of a string.
-/

namespace SmingCoap.Server.WifiScanRes

open Wire (Memory int16)
open Bget (Allocator PayloadPointer)

/-! ## The text of a station -/

/-- `struct bss_info`; `ssid` is the string at the array. -/
structure BssInfo where
  authmode : UInt8
  ssid : List UInt8
  rssi : Int8
  bssid : Fin 6 → UInt8
  channel : UInt8

/-- `%d`. -/
def decimalInt (number : Int) : List UInt8 :=
  if number < 0 then cString "-" ++ decimal number.natAbs else decimal number.toNat

/-- `%02x`. -/
def hexadecimal (byte : UInt8) : List UInt8 :=
  [Nat.digitChar (byte.toNat / 16), Nat.digitChar (byte.toNat % 16)].map fun char => UInt8.ofNat char.toNat

/-- `MACSTR` of `MAC2STR`. -/
def macText (bssid : Fin 6 → UInt8) : List UInt8 :=
  hexadecimal (bssid 0) ++ cString ":" ++ hexadecimal (bssid 1) ++ cString ":" ++ hexadecimal (bssid 2) ++ cString ":" ++
    hexadecimal (bssid 3) ++ cString ":" ++ hexadecimal (bssid 4) ++ cString ":" ++ hexadecimal (bssid 5)

/-- What `coap_sprintf` prints of a station, with 32 characters of its name at most. -/
def stationText (bss : BssInfo) : List UInt8 :=
  cString "(" ++ decimal bss.authmode.toNat ++ cString ",\"" ++ bss.ssid.take 32 ++ cString "\"," ++
    decimalInt bss.rssi.toInt ++ cString ",\"" ++ macText bss.bssid ++ cString "\"," ++ decimal bss.channel.toNat ++
    cString ")\r\n"

/-! ## The callback -/

/-- `ScanState`. -/
inductive ScanState where
  | idle
  | running
  | doneOk
  | doneFail
  deriving DecidableEq, Repr

/-- The variables of the file. -/
structure ScanResource where
  scanState : ScanState
  lastScanResultLen : Nat
  pScanResultStr : Option Nat
  deriving DecidableEq, Repr

/-- `STATUS` of the SDK. -/
inductive Status where
  | ok
  | fail
  | pending
  | busy
  | cancel
  deriving DecidableEq, Repr

/-- `sizeof(temp)`. -/
def tempSize : Nat := 128

/-- The first loop of `scan_done`: the length of the text, each line of which is printed to `temp`. -/
def dryRun : List BssInfo → Option Nat
  | [] => some 0
  | bss :: rest => do
    if (stationText bss).length < tempSize then some () else none
    let length ← dryRun rest
    some ((stationText bss).length + length)

/-- `coap_sprintf`: the text with a NUL behind it. -/
def sprintf (memory : Memory) (pointer : Option Nat) (text : List UInt8) : Option Memory :=
  pointer.map fun address => memory.copy address (text ++ [0])

/-- The second loop of `scan_done`, which moves `pStrWorking` to the NUL. -/
def writeStations (memory : Memory) (pStrWorking : Option Nat) : List BssInfo → Option Memory
  | [] => some memory
  | bss :: rest => do
    let memory ← sprintf memory pStrWorking (stationText bss)
    writeStations memory (pStrWorking.map (· + (stationText bss).length)) rest

/-- `scan_done`; the first one of the stations is ignored. -/
def scanDone (freelist fuel : Nat) (arg : List BssInfo) (status : Status) (resource : ScanResource)
    (allocator : Allocator) : Option (ScanResource × Allocator) :=
  match status with
  | .ok =>
    match arg with
    | [] => none
    | _ :: stations => do
      let lastScanResultLen ← dryRun stations
      let (pScanResultStr, allocator) ← Bget.coapMemGet0 freelist fuel (int16 lastScanResultLen) allocator
      let memory ← writeStations allocator.memory pScanResultStr stations
      some ({ scanState := .doneOk, lastScanResultLen, pScanResultStr }, { allocator with memory })
  | .fail => some ({ resource with scanState := .doneFail }, allocator)
  | .cancel => some ({ resource with scanState := .doneFail }, allocator)
  | .pending => some (resource, allocator)
  | .busy => some (resource, allocator)

/-! ## The handler -/

/-- What a handler sets of a response. -/
structure ScanReply extends PayloadPointer where
  payloadLength : UInt16
  code : UInt8
  deriving DecidableEq, Repr

/-- `coap_strlen`, of a string that fits in `PayloadLength`. -/
def strlen (memory : Memory) (address : Nat) : Nat → Option Nat
  | 0 => none
  | fuel + 1 => if memory address = 0 then some 0 else (strlen memory (address + 1) fuel).map (· + 1)

/-- What the client is told that wants smaller blocks than the text. -/
def notAvailable (lastScanResultLen : Nat) : List UInt8 :=
  cString "blk2 n/a [" ++ decimal lastScanResultLen ++ cString "]"

/-- The outcome of the handler; `scans` says that it called `wifi_station_scan`. -/
structure Handled where
  result : HandlerResult
  resource : ScanResource
  pResp : ScanReply
  memory : Memory
  scans : Bool

/-- A result is there: the response takes it. -/
def takeResult (pReq : CoapMessage) (pResp : ScanReply) (resource : ScanResource) (memory : Memory) :
    Option (ScanReply × Memory) :=
  let pResp := { pResp with
    payload := resource.pScanResultStr, payloadLength := UInt16.ofNat resource.lastScanResultLen }
  match getBlockOptionFromMsg pReq .block2 with
  | .error _ => some (pResp, memory)
  | .ok b2opt =>
    if b2opt.blockSize < resource.lastScanResultLen then
      let pResp := { pResp with code := respBadOption }
      if pResp.payloadBufSize > 16 then do
        let memory ← sprintf memory pResp.payload (notAvailable resource.lastScanResultLen)
        let payload ← pResp.payload
        let length ← strlen memory payload 65536
        some ({ pResp with payloadLength := UInt16.ofNat length }, memory)
      else some (pResp, memory)
    else some (pResp, memory)

/-- `Res_ReqHandler`. -/
def resReqHandler (pReq : CoapMessage) (pResp : ScanReply) (resource : ScanResource) (memory : Memory) :
    Option Handled :=
  if pReq.code = reqGet then
    match resource.scanState with
    | .idle => some ⟨.postpone, { resource with scanState := .running }, pResp, memory, true⟩
    | .running => some ⟨.postpone, resource, pResp, memory, false⟩
    | .doneOk => (takeResult pReq pResp resource memory).map fun (pResp, memory) =>
        ⟨.ok, { resource with scanState := .idle }, pResp, memory, false⟩
    | .doneFail => some ⟨.error, { resource with scanState := .idle }, pResp, memory, false⟩
  else some ⟨.error, resource, pResp, memory, false⟩

end SmingCoap.Server.WifiScanRes
