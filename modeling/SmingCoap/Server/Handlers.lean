import SmingCoap.Server.Engine
import SmingCoap.Server.Payload

/-! # Handlers of resources

The handlers of `.well-known/core` (`coap_resource.c`), `wifi/config`
(`wifi_cfg_res.c`) and `esp8266/led_gpio12` (`led_res.c`), with what they use: the
content format option, the values of query options, and the list that resources
are registered in.

What a handler prints with `sprintf` is the text of its format; the bytes
behind the text are a NUL.
-/

namespace SmingCoap.Server

open Wire (Opt)

def respUnauthorized : UInt8 := 0x81
def respChanged : UInt8 := 0x44

/-- The characters of a string. -/
def cString (text : String) : List UInt8 := text.toList.map fun char => UInt8.ofNat char.toNat

/-- `%d` of a number that is not negative. -/
def decimal (number : Nat) : List UInt8 := (Nat.toDigits 10 number).map fun char => UInt8.ofNat char.toNat

/-- The string in an array, up to its NUL. -/
def stringIn (bytes : List UInt8) : List UInt8 := bytes.takeWhile fun byte => byte ≠ 0

/-! ## The content format -/

/-- The value bytes that `AddCfOptionToMsg` writes. -/
def contentFormatBytes (cf : UInt16) : List UInt8 :=
  if cf = 0 then []
  else if cf ≤ 0xFF then [cf.toUInt8]
  else [(cf &&& 0xFF).toUInt8, (cf >>> 8).toUInt8]

/-- `AddCfOptionToMsg`, whose result is `COAP_OK` in any case. -/
def addCfOptionToMsg (available : Bool) (msg : CoapMessage) (cf : UInt16) : CoapMessage :=
  { msg with options := (appendOptionToList available msg.options ⟨optNumContentFormat, contentFormatBytes cf⟩).2 }

/-! ## Query values -/

/-- `CoAP_GetUriQueryVal`: what stands behind the prefix, one byte at least. -/
def getUriQueryVal (pUriOpt : Opt) (prefixStr : List UInt8) : Option (List UInt8) :=
  if pUriOpt.number ≠ optNumUriQuery then none
  else if pUriOpt.value.length = 0 ∨ pUriOpt.value.length > 255 then none
  else if prefixStr.length ≥ pUriOpt.value.length then none
  else if pUriOpt.value.take prefixStr.length ≠ prefixStr then none
  else some (pUriOpt.value.drop prefixStr.length)

/-- `CoAP_FindUriQueryVal`: which of the strings the value is, counted from 1; 0 for none. -/
def findUriQueryVal (pUriOpt : Opt) (prefixStr : List UInt8) (cmpStrs : List (List UInt8)) : Nat :=
  match getUriQueryVal pUriOpt prefixStr with
  | none => 0
  | some value =>
    match cmpStrs.findIdx? fun pStr => pStr = value with
    | some i => i + 1
    | none => 0

/-! ## Registered resources -/

/-- `CoAP_Res_t` with what only the link format needs. -/
structure ListedResource extends CoapResource where
  pDescription : Option (List UInt8)
  cf : UInt16

/-- `pResList` and `ResListMembers`. -/
structure ResourceList where
  pResList : List ListedResource
  resListMembers : UInt32

/-- The arguments of `CoAP_CreateResource`. -/
structure Registration where
  uri : List UInt8
  descr : List UInt8
  cf : UInt16
  flags : UInt16
  handler : Bool
  notifier : Bool

/-- `CoAP_CreateResource`.  `resourceMem`, `descrMem` and `optionMem` say whether there is memory for the resource,
its description and the options of its URI; without memory for a description it is copied to a null pointer. -/
def createResource (resourceMem descrMem : Bool) (optionMem : Nat → Bool) (this : ResourceList)
    (registration : Registration) : Option ResourceList :=
  if resourceMem = false then some this
  else if registration.descr ≠ [] ∧ descrMem = false then none
  else
    some {
      pResList := this.pResList ++ [{
        updateCnt := 0
        flags := registration.flags
        uri := (appendUriOptionsFromString optionMem ⟨[], 0⟩ registration.uri).options
        observers := []
        handler := registration.handler
        notifier := registration.notifier
        pDescription := if registration.descr = [] then none else some registration.descr
        cf := registration.cf }]
      resListMembers := this.resListMembers + 1 }

/-! ## `.well-known/core` -/

def coapCfLinkFormat : UInt16 := 40

/-- The text that has been written, from the start of the buffer to `pStr`, and the end of the bytes that have been
written to. -/
structure LinkWriter where
  text : List UInt8
  extent : Nat

/-- Bytes go to `pStr`, which moves behind them. -/
def LinkWriter.put (this : LinkWriter) (bytes : List UInt8) : LinkWriter where
  text := this.text ++ bytes
  extent := max this.extent (this.text.length + bytes.length)

/-- `coap_sprintf` to `pStr`, which moves to the NUL. -/
def LinkWriter.sprintf (this : LinkWriter) (bytes : List UInt8) : LinkWriter where
  text := this.text ++ bytes
  extent := max this.extent (this.text.length + bytes.length + 1)

/-- The segments of a URI, each with a slash behind it. -/
def LinkWriter.putUri (this : LinkWriter) (pUri : List Opt) : LinkWriter :=
  pUri.foldl (fun this pUriOpt => (this.put pUriOpt.value).put (cString "/")) this

/-- One resource in `WellKnown_GetHandler`; `nullText` is what `%s` prints for a null pointer. -/
def LinkWriter.putResource (nullText : List UInt8) (this : LinkWriter) (pList : ListedResource) : LinkWriter :=
  let this := (this.put (cString "<")).putUri pList.uri
  if pList.cf = coapCfLinkFormat then this.sprintf (cString ">,")
  else
    let this := this.sprintf (cString ">;title=\"" ++ pList.pDescription.getD nullText ++ cString "\";cf=" ++
      decimal pList.cf.toNat)
    if pList.notifier then this.sprintf (cString ";obs,") else this.sprintf (cString ",")

/-- The loop of `WellKnown_GetHandler` over all resources. -/
def wellKnownText (nullText : List UInt8) (pResList : List ListedResource) : LinkWriter :=
  pResList.foldl (LinkWriter.putResource nullText) ⟨[], 0⟩

/-- The bytes that `WellKnown_GetHandler` allocates. -/
def wellKnownBytes (this : ResourceList) : Nat := requestedBytes ((this.resListMembers + 1) * 64).toNat

/-- `WellKnown_GetHandler`, where the text fits.  `textMem`, `optionMem`, `bufferMem` and `cfMem` say whether there
is memory for the text, for the Block2 option, for the payload and for the content format. -/
def wellKnownGetHandler (nullText : List UInt8) (textMem optionMem bufferMem cfMem : Bool) (this : ResourceList)
    (pReq : CoapMessage) (pResp : PayloadMessage) : Option (HandlerResult × PayloadMessage) :=
  if pReq.code ≠ reqGet then do
    let errMsg := cString "CoAP GET only!"
    let (_, pResp) ← setPayload optionMem bufferMem (some pReq) { pResp with code := respErrorBadRequest }
      (.external errMsg true) (UInt16.ofNat errMsg.length)
    some (.error, pResp)
  else if textMem = false then some (.error, pResp)
  else do
    let text := (wellKnownText nullText this.pResList).text ++ [0]
    let (_, pResp) ← setPayload optionMem bufferMem (some pReq) pResp (.external text true)
      (UInt16.ofNat (stringIn text).length)
    some (.ok, setOptions pResp (addCfOptionToMsg cfMem pResp.toCoapMessage coapCfLinkFormat).options)

/-! ## `wifi/config` -/

/-- The station configuration with its two strings. -/
structure StationConfig where
  ssid : List UInt8
  password : List UInt8
  ssidSized : ssid.length = 32
  passwordSized : password.length = 64

inductive StationCall where
  | disconnect
  | setConfig (cfg : StationConfig)
  | connect

/-- The station as it is stored, and what was called on its connection, the latest call first. -/
structure Station where
  config : StationConfig
  calls : List StationCall

/-- Which calls succeed for a request to `wifi/config`; `memGet` gives the block of memory for a size. -/
structure WifiEnv where
  getConfig : Bool
  setConfig : Bool
  memGet : Nat → Option (List UInt8)
  optionMem : Bool
  bufferMem : Bool

def wifiResKey : List UInt8 := cString "123"
def keyQueryPrefix : List UInt8 := cString "key="
def ssidQueryPrefix : List UInt8 := cString "ssid="
def pwQueryPrefix : List UInt8 := cString "pw="

/-- `infoStr`, the help text. -/
def wifiUsage : List UInt8 :=
  cString "Usage: coap://[host:port]/[...]/?key=KEY&" ++ ssidQueryPrefix ++ cString "WIFI-SSID&" ++ pwQueryPrefix ++
    cString "WIFI-PASSWORD" ++ cString "\r\nUse only over softAP connection!"

/-- The check for `?key=xyz`. -/
def wifiKeyOk (pOptionsList : List Opt) : Bool :=
  pOptionsList.any fun pOpt => findUriQueryVal pOpt keyQueryPrefix [wifiResKey] ≠ 0

/-- A value and its NUL go to the start of an array. -/
def StationConfig.withSsid (cfg : StationConfig) (value : List UInt8) (short : value.length < 32) : StationConfig :=
  { cfg with
    ssid := value ++ 0 :: cfg.ssid.drop (value.length + 1)
    ssidSized := by
      have size := cfg.ssidSized
      simp only [List.length_append, List.length_cons, List.length_drop]
      omega }

def StationConfig.withPassword (cfg : StationConfig) (value : List UInt8) (short : value.length < 64) : StationConfig :=
  { cfg with
    password := value ++ 0 :: cfg.password.drop (value.length + 1)
    passwordSized := by
      have size := cfg.passwordSized
      simp only [List.length_append, List.length_cons, List.length_drop]
      omega }

/-- The local variables of the loop over the options of a PUT. -/
structure WifiScan where
  cfg : StationConfig
  ssidFound : Bool
  pwFound : Bool

/-- The first half of the loop body, which goes on with the next option when it finds the ssid. -/
def WifiScan.takeSsid (this : WifiScan) (pOpt : Opt) : Option WifiScan :=
  if this.ssidFound then none
  else
    match getUriQueryVal pOpt ssidQueryPrefix with
    | none => none
    | some value =>
      if short : value.length < 32 then some { this with cfg := this.cfg.withSsid value short, ssidFound := true }
      else none

def WifiScan.takePassword (this : WifiScan) (pOpt : Opt) : Option WifiScan :=
  if this.pwFound then none
  else
    match getUriQueryVal pOpt pwQueryPrefix with
    | none => none
    | some value =>
      if short : value.length < 64 then some { this with cfg := this.cfg.withPassword value short, pwFound := true }
      else none

def WifiScan.next (this : WifiScan) (pOpt : Opt) : WifiScan :=
  match this.takeSsid pOpt with
  | some found => found
  | none => (this.takePassword pOpt).getD this

/-- The text that a GET prints. -/
def wifiText (cfg : StationConfig) : List UInt8 :=
  ssidQueryPrefix ++ stringIn cfg.ssid ++ cString "," ++ pwQueryPrefix ++ stringIn cfg.password

/-- `TotalLength`. -/
def wifiTotalLength (cfg : StationConfig) : Nat :=
  (stringIn cfg.ssid).length + (stringIn cfg.password).length + ssidQueryPrefix.length + pwQueryPrefix.length + 1

/-- The payload buffer for a GET: the one of the response if it is large enough, or else a greater one. -/
def wifiBuffer (env : WifiEnv) (cfg : StationConfig) (pResp : PayloadMessage) : Option PayloadMessage :=
  if pResp.payloadBufSize < wifiTotalLength cfg then
    (env.memGet (wifiTotalLength cfg)).map fun pGreaterPayload =>
      { pResp with location := .heap, buffer := pGreaterPayload, writable := fun _ => .inr rfl }
  else some pResp

/-- `os_sprintf` to the payload pointer: the text and its NUL, as far as the buffer goes. -/
def printPayload (pResp : PayloadMessage) (text : List UInt8) : PayloadMessage :=
  { pResp with buffer := (text ++ 0 :: pResp.buffer.drop (text.length + 1)).take pResp.buffer.length }

/-- `ResWifi_ReqHandler`. -/
def resWifiReqHandler (env : WifiEnv) (station : Station) (pReq : CoapMessage) (pResp : PayloadMessage) :
    Option (HandlerResult × PayloadMessage × Station) :=
  let usage (code : UInt8) : Option (HandlerResult × PayloadMessage × Station) := do
    let (_, pResp) ← setPayload env.optionMem env.bufferMem (some pReq) pResp (.external wifiUsage true)
      (UInt16.ofNat wifiUsage.length)
    some (.ok, { pResp with code }, station)
  if env.getConfig = false then some (.error, pResp, station)
  else if wifiKeyOk pReq.options = false then usage respUnauthorized
  else if pReq.code = reqGet then
    match wifiBuffer env station.config pResp with
    | none => some (.error, pResp, station)
    | some pResp => do
      let (_, pResp) ← setPayload env.optionMem env.bufferMem (some pReq)
        (printPayload pResp (wifiText station.config)) .own (UInt16.ofNat (wifiTotalLength station.config))
      some (.ok, pResp, station)
  else if pReq.code = reqPut then
    let scan := pReq.options.foldl WifiScan.next ⟨station.config, false, false⟩
    if scan.pwFound ∧ scan.ssidFound then
      let calls := .setConfig scan.cfg :: .disconnect :: station.calls
      if env.setConfig then
        some (.ok, { pResp with code := respChanged }, ⟨scan.cfg, .connect :: calls⟩)
      else some (.error, pResp, ⟨station.config, calls⟩)
    else usage respErrorBadRequest
  else some (.ok, pResp, station)

/-! ## `esp8266/led_gpio12` -/

/-- The resource as `Create_Led_Resource` makes it. -/
def ledResource : CoapResource where
  updateCnt := 0
  flags := CoapServer.resOptPost ||| CoapServer.resOptGet
  uri := (appendUriOptionsFromString (fun _ => true) ⟨[], 0⟩ (cString "esp8266/led_gpio12")).options
  observers := []
  handler := true
  notifier := true

def ledText (ledState : Bool) : List UInt8 := if ledState then cString "Led is on!" else cString "Led is off!"

/-- `info`, the help text. -/
def ledUsage : List UInt8 := cString "usage: coap://.../led_gpio12?on (or \"off\", \"tgl\")"

/-- `SetLedstatePayload`.  There is memory for the text, which is else copied to a null pointer. -/
def setLedstatePayload (optionMem ledState : Bool) (pReq : Option CoapMessage) (pResp : PayloadMessage) :
    Option PayloadMessage :=
  (setPayload optionMem true pReq pResp (.external (ledText ledState) true)
    (UInt16.ofNat (ledText ledState).length)).map Prod.snd

/-- What the loop of `Res_ReqHandler` over the options calls `led` with. -/
def ledCommand (ledState : Bool) : List Opt → Option Bool
  | [] => none
  | pOpt :: rest =>
    match findUriQueryVal pOpt [] [cString "on", cString "off", cString "tgl"] with
    | 1 => some true
    | 2 => some false
    | 3 => some (!ledState)
    | _ => ledCommand ledState rest

/-- `LedState` behind `Res_ReqHandler`. -/
def ledHandled (ledState : Bool) (pReq : CoapMessage) : Bool :=
  if pReq.code = reqPost then (ledCommand ledState pReq.options).getD ledState else ledState

/-- What `led` calls in the stack, before it sets `LedState`. -/
def ledCalls (pLed_Res : Nat) (ledState onOff : Bool) : List Call :=
  if ledState ≠ onOff then [.notify pLed_Res] else []

/-- The response of `Res_ReqHandler`. -/
def ledResponse (optionMem ledState : Bool) (pReq : CoapMessage) (pResp : PayloadMessage) : Option PayloadMessage :=
  if pReq.code = reqPost then
    match ledCommand ledState pReq.options with
    | some onOff => setLedstatePayload optionMem onOff (some pReq) pResp
    | none => do
      let (_, pResp) ← setPayload optionMem true (some pReq) pResp (.external ledUsage true)
        (UInt16.ofNat ledUsage.length)
      some { pResp with code := respErrorBadRequest }
  else if pReq.code = reqGet then setLedstatePayload optionMem ledState (some pReq) pResp
  else some pResp

/-- A message whose payload is in its own memory. -/
def inOwnMemory (msg : CoapMessage) : PayloadMessage :=
  { msg with
    location := .message
    buffer := msg.payload ++ List.replicate (msg.payloadBufSize - msg.payload.length) 0
    writable := fun _ => .inl rfl }

/-- `Res_ReqHandler` at a `LedState`. -/
def ledReqHandler (optionMem : Bool) (pLed_Res : Nat) (ledState : Bool) (pReq : CoapMessage)
    (pResp : Option CoapMessage) : Handled where
  result := .ok
  resp :=
    match pResp with
    | some pResp => ((ledResponse optionMem ledState pReq (inOwnMemory pResp)).map (·.toCoapMessage)).getD pResp
    | none => coapInitToEmptyResetMsg
  calls := ledCalls pLed_Res ledState (ledHandled ledState pReq)

/-- `Res_NotifyHandler` at a `LedState`. -/
def ledNotifyHandler (optionMem ledState : Bool) (pResp : CoapMessage) : Notified where
  result := .ok
  resp := ((setLedstatePayload optionMem ledState none (inOwnMemory pResp)).map (·.toCoapMessage)).getD pResp
  requests := []

end SmingCoap.Server
