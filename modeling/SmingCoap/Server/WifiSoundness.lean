import SmingCoap.Server.CapacitySoundness
import SmingCoap.Server.Handlers

/-! # The handler of `wifi/config`

Without the query `key=123` the answer does not depend on the station, which is
left alone, and with it a PUT stores the first valid ssid and the first valid
password if there are both (`resWifiReqHandler_protects`).  A GET prints the two
with a NUL behind them, which `TotalLength` does not count
(`resWifiReqHandler_prints_iff`).
-/

namespace SmingCoap.Server

open Wire (Opt)

/-! ## Queries -/

/-- An option is a query of this text. -/
def IsQuery (pOpt : Opt) (text : List UInt8) : Prop := pOpt.number = optNumUriQuery ∧ pOpt.value = text

theorem getUriQueryVal_eq_some_iff {pUriOpt : Opt} {prefixStr value : List UInt8} :
    getUriQueryVal pUriOpt prefixStr = some value ↔
      IsQuery pUriOpt (prefixStr ++ value) ∧ 0 < value.length ∧ prefixStr.length + value.length ≤ 255 := by
  unfold getUriQueryVal IsQuery
  split
  next other => simp [other]
  next query =>
    have number : pUriOpt.number = optNumUriQuery := not_not.mp query
    split
    next unsized =>
      refine iff_of_false nofun ?_
      rintro ⟨⟨-, whole⟩, some, short⟩
      rw [whole, List.length_append] at unsized
      omega
    next sized =>
      split
      next few =>
        refine iff_of_false nofun ?_
        rintro ⟨⟨-, whole⟩, some, -⟩
        rw [whole, List.length_append] at few
        omega
      next longer =>
        split
        next different =>
          refine iff_of_false nofun ?_
          rintro ⟨⟨-, whole⟩, -⟩
          exact different (by rw [whole, List.take_left])
        next same =>
          have start : pUriOpt.value.take prefixStr.length = prefixStr := not_not.mp same
          have length : (pUriOpt.value.drop prefixStr.length).length = pUriOpt.value.length - prefixStr.length :=
            List.length_drop
          simp only [Option.some.injEq, number, true_and]
          -- the value is what is left behind the prefix
          constructor
          · rintro rfl
            refine ⟨?_, by omega, by omega⟩
            conv_lhs => rw [← List.take_append_drop prefixStr.length pUriOpt.value, start]
          · rintro ⟨whole, -⟩
            rw [whole, List.drop_left]

/-- One string is looked for. -/
theorem findUriQueryVal_singleton {pUriOpt : Opt} {prefixStr pStr : List UInt8} :
    findUriQueryVal pUriOpt prefixStr [pStr] ≠ 0 ↔ getUriQueryVal pUriOpt prefixStr = some pStr := by
  unfold findUriQueryVal
  split
  next none => simp [none]
  next value found =>
    rw [found]
    by_cases same : pStr = value
    · simp [same, List.findIdx?_cons]
    · simp [same, List.findIdx?_cons, Ne.symm same]

theorem wifiKeyOk_iff {pOptionsList : List Opt} :
    wifiKeyOk pOptionsList = true ↔ ∃ pOpt ∈ pOptionsList, IsQuery pOpt (cString "key=123") := by
  have whole : keyQueryPrefix ++ wifiResKey = cString "key=123" := by decide
  have sizes : 0 < wifiResKey.length ∧ keyQueryPrefix.length + wifiResKey.length ≤ 255 := by decide
  simp only [wifiKeyOk, List.any_eq_true, decide_eq_true_eq]
  constructor
  · rintro ⟨pOpt, member, found⟩
    have query := (getUriQueryVal_eq_some_iff.mp (findUriQueryVal_singleton.mp found)).1
    exact ⟨pOpt, member, whole ▸ query⟩
  · rintro ⟨pOpt, member, query⟩
    exact ⟨pOpt, member, findUriQueryVal_singleton.mpr (getUriQueryVal_eq_some_iff.mpr ⟨whole ▸ query, sizes⟩)⟩

/-! ## The loop of a PUT -/

/-- An option that has a value of a valid length behind the prefix. -/
def Offers (prefixStr : List UInt8) (limit : Nat) (pOpt : Opt) (value : List UInt8) : Prop :=
  IsQuery pOpt (prefixStr ++ value) ∧ 0 < value.length ∧ value.length < limit

/-- The first value of a valid length. -/
def FirstOffer (prefixStr : List UInt8) (limit : Nat) (pOptionsList : List Opt) (value : List UInt8) : Prop :=
  ∃ before pOpt behind, pOptionsList = before ++ pOpt :: behind ∧ Offers prefixStr limit pOpt value ∧
    ∀ other ∈ before, ∀ value, ¬ Offers prefixStr limit other value

/-- What the loop takes from an option for one of the strings. -/
def validQuery (prefixStr : List UInt8) (limit : Nat) (pOpt : Opt) : Option (List UInt8) :=
  (getUriQueryVal pOpt prefixStr).filter fun value => value.length < limit

theorem validQuery_eq_some_iff {prefixStr value : List UInt8} {limit : Nat} {pOpt : Opt}
    (small : prefixStr.length + limit ≤ 256) :
    validQuery prefixStr limit pOpt = some value ↔ Offers prefixStr limit pOpt value := by
  simp only [validQuery, Option.filter_eq_some_iff, getUriQueryVal_eq_some_iff, Offers, decide_eq_true_eq]
  constructor
  · rintro ⟨⟨query, some, -⟩, short⟩
    exact ⟨query, some, short⟩
  · rintro ⟨query, some, short⟩
    exact ⟨⟨query, some, by omega⟩, short⟩

theorem firstOffer_of_findSome {prefixStr value : List UInt8} {limit : Nat} {pOptionsList : List Opt}
    (small : prefixStr.length + limit ≤ 256)
    (found : pOptionsList.findSome? (validQuery prefixStr limit) = some value) :
    FirstOffer prefixStr limit pOptionsList value := by
  obtain ⟨before, pOpt, behind, list, offers, none⟩ := List.findSome?_eq_some_iff.mp found
  refine ⟨before, pOpt, behind, list, (validQuery_eq_some_iff small).mp offers, fun other member value offers => ?_⟩
  cases (none other member).symm.trans ((validQuery_eq_some_iff small).mpr offers)

/-- An array after a string was copied to its start. -/
def stored (field : List UInt8) : Option (List UInt8) → List UInt8
  | some value => value ++ 0 :: field.drop (value.length + 1)
  | none => field

/-- No option has both prefixes. -/
theorem validQuery_disjoint {value : List UInt8} {pOpt : Opt} (found : validQuery ssidQueryPrefix 32 pOpt = some value) :
    validQuery pwQueryPrefix 64 pOpt = none := by
  rw [Option.eq_none_iff_forall_ne_some]
  intro other also
  have ssid := ((validQuery_eq_some_iff (by decide)).mp found).1.2
  have pw := ((validQuery_eq_some_iff (by decide)).mp also).1.2
  have first := congrArg List.head? (ssid.symm.trans pw)
  have heads : ∀ value, (ssidQueryPrefix ++ value).head? = some 0x73 ∧ (pwQueryPrefix ++ value).head? = some 0x70 :=
    fun _ => ⟨rfl, rfl⟩
  rw [(heads value).1, (heads other).2] at first
  exact absurd first (by decide)

/-- What the loop takes from options: the first ssid and the first password, each where it has not been found. -/
structure Finds (before : WifiScan) (ssid password : Option (List UInt8)) (after : WifiScan) : Prop where
  ssid_eq : after.cfg.ssid = stored before.cfg.ssid (if before.ssidFound then none else ssid)
  password_eq : after.cfg.password = stored before.cfg.password (if before.pwFound then none else password)
  ssidFound_eq : after.ssidFound = (before.ssidFound || ssid.isSome)
  pwFound_eq : after.pwFound = (before.pwFound || password.isSome)

section

variable {this after : WifiScan} {pOpt : Opt}

/-- Both values are taken alike: while there is none, from an option that has a short enough one. -/
def takeValue {limit : Nat} (found : Bool) (prefixStr : List UInt8) (pOpt : Opt)
    (store : (value : List UInt8) → value.length < limit → WifiScan) : Option WifiScan :=
  if found then none
  else
    match getUriQueryVal pOpt prefixStr with
    | none => none
    | some value => if short : value.length < limit then some (store value short) else none

theorem takeValue_some {limit : Nat} {found : Bool} {prefixStr : List UInt8}
    {store : (value : List UInt8) → value.length < limit → WifiScan}
    (taken : takeValue found prefixStr pOpt store = some after) :
    found = false ∧ ∃ value short, validQuery prefixStr limit pOpt = some value ∧ after = store value short := by
  unfold takeValue at taken
  split at taken
  next => cases taken
  next missing =>
    split at taken
    next => cases taken
    next value offered =>
      split at taken
      next short =>
        cases taken
        exact ⟨by simpa using missing, value, short, by simp [validQuery, offered, short], rfl⟩
      next => cases taken

theorem takeValue_none {limit : Nat} {found : Bool} {prefixStr : List UInt8}
    {store : (value : List UInt8) → value.length < limit → WifiScan}
    (taken : takeValue found prefixStr pOpt store = none) :
    found = true ∨ validQuery prefixStr limit pOpt = none := by
  unfold takeValue at taken
  split at taken
  next found => exact .inl found
  next =>
    split at taken
    next none => exact .inr (by simp [validQuery, none])
    next value offered =>
      split at taken
      next => cases taken
      next long => exact .inr (by simpa [validQuery, offered] using long)

theorem WifiScan.takeSsid_eq (this : WifiScan) (pOpt : Opt) :
    this.takeSsid pOpt = takeValue this.ssidFound ssidQueryPrefix pOpt fun value short =>
      { this with cfg := this.cfg.withSsid value short, ssidFound := true } := rfl

theorem WifiScan.takePassword_eq (this : WifiScan) (pOpt : Opt) :
    this.takePassword pOpt = takeValue this.pwFound pwQueryPrefix pOpt fun value short =>
      { this with cfg := this.cfg.withPassword value short, pwFound := true } := rfl

theorem WifiScan.takeSsid_some (taken : this.takeSsid pOpt = some after) :
    ∃ value, validQuery ssidQueryPrefix 32 pOpt = some value ∧ Finds this (some value) none after := by
  rw [WifiScan.takeSsid_eq] at taken
  obtain ⟨missing, value, short, valid, rfl⟩ := takeValue_some taken
  refine ⟨value, valid, ?_, ?_, ?_, ?_⟩
  · simp [missing, stored, StationConfig.withSsid]
  · simp [stored, StationConfig.withSsid]
  · simp
  · simp

theorem WifiScan.takePassword_some (taken : this.takePassword pOpt = some after) :
    ∃ value, validQuery pwQueryPrefix 64 pOpt = some value ∧ Finds this none (some value) after := by
  rw [WifiScan.takePassword_eq] at taken
  obtain ⟨missing, value, short, valid, rfl⟩ := takeValue_some taken
  refine ⟨value, valid, ?_, ?_, ?_, ?_⟩
  · simp [stored, StationConfig.withPassword]
  · simp [missing, stored, StationConfig.withPassword]
  · simp
  · simp

/-- What has been found before is not looked for again. -/
theorem Finds.ignore {ssid password : Option (List UInt8)} (takes : Finds this none password after)
    (found : this.ssidFound = true ∨ ssid = none) : Finds this ssid password after := by
  cases found with
  | inl found =>
    obtain ⟨ssidEq, passwordEq, ssidFound, pwFound⟩ := takes
    exact ⟨by simpa [found] using ssidEq, passwordEq, by simpa [found] using ssidFound, pwFound⟩
  | inr none => exact none ▸ takes

theorem Finds.ignorePassword {ssid password : Option (List UInt8)} (takes : Finds this ssid none after)
    (found : this.pwFound = true ∨ password = none) : Finds this ssid password after := by
  cases found with
  | inl found =>
    obtain ⟨ssidEq, passwordEq, ssidFound, pwFound⟩ := takes
    exact ⟨ssidEq, by simpa [found] using passwordEq, ssidFound, by simpa [found] using pwFound⟩
  | inr none => exact none ▸ takes

theorem Finds.refl (this : WifiScan) : Finds this none none this := by
  constructor <;> simp [stored]

/-- One pass of the loop. -/
theorem WifiScan.next_finds (this : WifiScan) (pOpt : Opt) :
    Finds this (validQuery ssidQueryPrefix 32 pOpt) (validQuery pwQueryPrefix 64 pOpt) (this.next pOpt) := by
  unfold WifiScan.next
  split
  next after taken =>
    obtain ⟨value, valid, takes⟩ := WifiScan.takeSsid_some taken
    rw [valid, validQuery_disjoint valid]
    exact takes
  next notSsid =>
    have ignored := takeValue_none (this.takeSsid_eq pOpt ▸ notSsid)
    cases taken : this.takePassword pOpt with
    | some after =>
      obtain ⟨value, valid, takes⟩ := WifiScan.takePassword_some taken
      rw [valid]
      exact takes.ignore ignored
    | none =>
      have ignoredPassword := takeValue_none (this.takePassword_eq pOpt ▸ taken)
      exact ((Finds.refl this).ignore ignored).ignorePassword ignoredPassword

/-- Two passes: what the first takes stays. -/
theorem Finds.trans {middle : WifiScan} {ssid password laterSsid laterPassword : Option (List UInt8)}
    (first : Finds this ssid password middle) (second : Finds middle laterSsid laterPassword after) :
    Finds this (ssid <|> laterSsid) (password <|> laterPassword) after := by
  obtain ⟨ssidEq, passwordEq, ssidFound, pwFound⟩ := first
  obtain ⟨laterSsidEq, laterPasswordEq, laterSsidFound, laterPwFound⟩ := second
  rw [ssidEq, ssidFound] at laterSsidEq
  rw [passwordEq, pwFound] at laterPasswordEq
  rw [ssidFound] at laterSsidFound
  rw [pwFound] at laterPwFound
  refine ⟨laterSsidEq.trans ?_, laterPasswordEq.trans ?_, laterSsidFound.trans ?_, laterPwFound.trans ?_⟩
  · cases this.ssidFound <;> cases ssid <;> simp [stored]
  · cases this.pwFound <;> cases password <;> simp [stored]
  · cases ssid <;> simp
  · cases password <;> simp

/-- The whole loop takes the first ssid and the first password. -/
theorem WifiScan.foldl_finds (this : WifiScan) (pOptionsList : List Opt) :
    Finds this (pOptionsList.findSome? (validQuery ssidQueryPrefix 32))
      (pOptionsList.findSome? (validQuery pwQueryPrefix 64)) (pOptionsList.foldl WifiScan.next this) := by
  induction pOptionsList generalizing this with
  | nil => exact .refl this
  | cons pOpt rest inductionHypothesis =>
    have both := (this.next_finds pOpt).trans (inductionHypothesis (this.next pOpt))
    rw [List.findSome?_cons, List.findSome?_cons]
    rw [List.foldl_cons]
    revert both
    cases validQuery ssidQueryPrefix 32 pOpt <;> cases validQuery pwQueryPrefix 64 pOpt <;> simp

end

/-! ## The key -/

/-- The station after a request: left alone, or changed by a PUT with the key, an ssid and a password, the first of
each. -/
def Changes (env : WifiEnv) (pReq : CoapMessage) (station after : Station) : Prop :=
  after = station ∨ pReq.code = reqPut ∧ (∃ pOpt ∈ pReq.options, IsQuery pOpt (cString "key=123")) ∧
    ∃ ssid password, FirstOffer ssidQueryPrefix 32 pReq.options ssid ∧
      FirstOffer pwQueryPrefix 64 pReq.options password ∧
      if env.setConfig then
        after.config.ssid = stored station.config.ssid (some ssid) ∧
          after.config.password = stored station.config.password (some password)
      else after.config = station.config

/-- The help text is the same for all stations. -/
theorem usage_untouched {env : WifiEnv} {pReq : CoapMessage} {pResp : PayloadMessage} {station after : Station}
    {code : UInt8} {result : HandlerResult} {resp : PayloadMessage}
    (answered : (do
      let (_, pResp) ← setPayload env.optionMem env.bufferMem (some pReq) pResp (.external wifiUsage true)
        (UInt16.ofNat wifiUsage.length)
      some (HandlerResult.ok, { pResp with code }, station)) = some (result, resp, after)) : after = station := by
  obtain ⟨given, -, done⟩ := Option.bind_eq_some_iff.mp answered
  cases done
  rfl

/-- Only a PUT with the key, an ssid and a password changes the station. -/
theorem resWifiReqHandler_changes {env : WifiEnv} {pReq : CoapMessage} {pResp resp : PayloadMessage}
    {station after : Station} {result : HandlerResult}
    (answered : resWifiReqHandler env station pReq pResp = some (result, resp, after)) :
    Changes env pReq station after := by
  unfold resWifiReqHandler at answered
  split at answered
  next =>
    cases answered
    exact .inl rfl
  next =>
    split at answered
    next => exact .inl (usage_untouched answered)
    next keyed =>
      have key := wifiKeyOk_iff.mp (by simpa using keyed)
      split at answered
      next =>
        split at answered
        next =>
          cases answered
          exact .inl rfl
        next =>
          obtain ⟨given, -, done⟩ := Option.bind_eq_some_iff.mp answered
          cases done
          exact .inl rfl
      next =>
        split at answered
        -- only here is the station written, if both values were found
        next put =>
          have takes := WifiScan.foldl_finds ⟨station.config, false, false⟩ pReq.options
          generalize pReq.options.foldl WifiScan.next ⟨station.config, false, false⟩ = scan at answered takes
          simp only [] at answered
          split at answered
          next both =>
            have ssidFound : (pReq.options.findSome? (validQuery ssidQueryPrefix 32)).isSome = true :=
              takes.ssidFound_eq.symm.trans both.2
            have pwFound : (pReq.options.findSome? (validQuery pwQueryPrefix 64)).isSome = true :=
              takes.pwFound_eq.symm.trans both.1
            obtain ⟨ssid, ssidFirst⟩ := Option.isSome_iff_exists.mp ssidFound
            obtain ⟨password, passwordFirst⟩ := Option.isSome_iff_exists.mp pwFound
            have ssidEq := takes.ssid_eq
            have passwordEq := takes.password_eq
            rw [ssidFirst] at ssidEq
            rw [passwordFirst] at passwordEq
            refine .inr ⟨put, key, ssid, password, firstOffer_of_findSome (by decide) ssidFirst,
              firstOffer_of_findSome (by decide) passwordFirst, ?_⟩
            split at answered
            next succeeds =>
              cases answered
              rw [if_pos succeeds]
              exact ⟨by simpa using ssidEq, by simpa using passwordEq⟩
            next fails =>
              cases answered
              rw [if_neg fails]
          next => exact .inl (usage_untouched answered)
        next =>
          cases answered
          exact .inl rfl

/-- Without the key the answer is the same for every station, which is left alone; and with it only a PUT changes
the station, to the first valid ssid and password. -/
theorem resWifiReqHandler_protects (env : WifiEnv) (pReq : CoapMessage) (pResp : PayloadMessage) :
    ((∀ pOpt ∈ pReq.options, ¬ IsQuery pOpt (cString "key=123")) →
      ∃ answer : Option (HandlerResult × PayloadMessage), ∀ station,
        resWifiReqHandler env station pReq pResp = answer.map fun given => (given.1, given.2, station)) ∧
    ∀ station result resp after, resWifiReqHandler env station pReq pResp = some (result, resp, after) →
      Changes env pReq station after := by
  refine ⟨fun unauthorised => ?_, fun _ _ _ _ => resWifiReqHandler_changes⟩
  have refused : wifiKeyOk pReq.options = false := by
    rw [← Bool.not_eq_true, wifiKeyOk_iff]
    rintro ⟨pOpt, member, query⟩
    exact unauthorised pOpt member query
  by_cases configured : env.getConfig = false
  · exact ⟨some (.error, pResp), fun station => by simp [resWifiReqHandler, configured]⟩
  · refine ⟨(setPayload env.optionMem env.bufferMem (some pReq) pResp (.external wifiUsage true)
      (UInt16.ofNat wifiUsage.length)).map fun given => (.ok, { given.2 with code := respUnauthorized }), fun station => ?_⟩
    simp only [resWifiReqHandler, if_neg configured, refused, if_true, Option.map_map]
    rw [Option.map_eq_bind]
    rfl

/-! ## What a GET prints -/

/-- The strings of a configuration. -/
structure Stores (cfg : StationConfig) (ssid password : List UInt8) : Prop where
  ssid_eq : stringIn cfg.ssid = ssid
  password_eq : stringIn cfg.password = password
  ssidShort : ssid.length ≤ 31
  passwordShort : password.length ≤ 63

def credentials (ssid password : List UInt8) : List UInt8 :=
  cString "ssid=" ++ ssid ++ cString ",pw=" ++ password

/-- A payload that is taken from a text: all of it, or the block that is asked for, if it exists. -/
def Delivered (text : List UInt8) (pReq : CoapMessage) (resp : PayloadMessage) : Prop :=
  match getBlockOptionFromMsg pReq .block2 with
  | .ok b2opt =>
    let offset := servedSize b2opt * b2opt.blockNum.toNat
    if text.length ≤ offset then resp.code = respBadOption ∧ resp.payload = blockNotExisting
    else resp.payload = (text.drop offset).take (min (servedSize b2opt) (text.length - offset))
  | .error _ => resp.payload = text

section

variable {cfg : StationConfig} {ssid password text : List UInt8} {msg resp : PayloadMessage} {pReq : CoapMessage}
  {optionMem bufferMem : Bool} {result : CoapResult}

theorem Stores.wifiText_eq (stores : Stores cfg ssid password) : wifiText cfg = credentials ssid password := by
  have comma : cString ",pw=" = cString "," ++ pwQueryPrefix := by decide
  rw [wifiText, stores.ssid_eq, stores.password_eq, credentials, comma]
  simp only [ssidQueryPrefix, List.append_assoc]

theorem credentials_length (ssid password : List UInt8) :
    (credentials ssid password).length = ssid.length + password.length + 9 := by
  have literals : (cString "ssid=").length = 5 ∧ (cString ",pw=").length = 4 := by decide
  simp only [credentials, List.length_append, literals.1, literals.2]
  omega

theorem Stores.wifiTotalLength_eq (stores : Stores cfg ssid password) :
    wifiTotalLength cfg = (credentials ssid password).length := by
  have literals : ssidQueryPrefix.length = 5 ∧ pwQueryPrefix.length = 3 := by decide
  rw [wifiTotalLength, stores.ssid_eq, stores.password_eq, credentials_length, literals.1, literals.2]

theorem addNewPayloadToMessage_payload {data : List UInt8} (positive : 0 < data.length)
    (small : data.length ≤ maxPayloadSize) (done : addNewPayloadToMessage bufferMem msg data = some (result, resp)) :
    resp.payload = data := by
  have payload : ∀ copied : PayloadMessage, copied.buffer.take data.length = data →
      (setPayloadLength copied data.length).payload = data := fun _ same => same
  unfold addNewPayloadToMessage at done
  rw [if_neg (Nat.not_lt.mpr small), if_pos positive.ne'] at done
  dsimp only at done
  split at done
  next =>
    obtain ⟨copied, put, done⟩ := Option.bind_eq_some_iff.mp done
    cases done
    unfold copyToBuffer at put
    split at put
    next => cases put
    next =>
      cases put
      exact payload _ List.take_left
  next =>
    obtain ⟨copied, put, done⟩ := Option.bind_eq_some_iff.mp done
    cases done
    unfold copyToNewBuffer at put
    split at put
    next =>
      cases put
      exact payload _ List.take_length
    next => cases put

/-- A text that stands in the buffer is delivered from there. -/
theorem setPayload_own_delivers (positive : 0 < text.length) (small : text.length ≤ maxPayloadSize)
    (location : msg.location ≠ .null) (buffer : msg.buffer.take text.length = text)
    (done : setPayload optionMem bufferMem (some pReq) msg .own (UInt16.ofNat text.length) = some (result, resp)) :
    Delivered text pReq resp := by
  have given : Given .inPlace text msg := ⟨positive, small.trans (by decide), fun _ => ⟨location, buffer⟩⟩
  have totalEq := ofNat_length given.total
  simp only [setPayload, if_neg (ofNat_length_ne positive given.total), Option.map_some] at done
  unfold Delivered
  cases parsed : getBlockOptionFromMsg pReq .block2 with
  | error =>
    rw [parsed] at done
    simp only [setPayloadWhole, totalEq, if_neg (Nat.not_lt.mpr small)] at done
    cases done
    exact buffer
  | ok b2opt =>
    rw [parsed] at done
    simp only at done ⊢
    split
    next behind =>
      rw [setPayloadBlock_behind (by rwa [totalEq])] at done
      obtain ⟨⟨added, answer⟩, addedEq, done⟩ := Option.map_eq_some_iff.mp done
      cases done
      have payload := addNewPayloadToMessage_payload (by decide) (by decide) addedEq
      exact ⟨rfl, payload⟩
    next within =>
      exact (setPayloadBlock_reply given (Nat.lt_of_not_le within) done).2.2.1

theorem printPayload_take (enough : text.length ≤ msg.buffer.length) :
    (printPayload msg text).buffer.take text.length = text := by
  simp only [printPayload]
  rw [List.take_take, Nat.min_eq_left enough, List.take_left]

end

/-- A GET writes within the buffer that it prints to, and what is delivered is taken from the text, unless there is
no memory for it. -/
structure Prints (env : WifiEnv) (station : Station) (pReq : CoapMessage) (pResp : PayloadMessage) (text : List UInt8) :
    Prop where
  within : ∀ buffer, wifiBuffer env station.config pResp = some buffer → text.length + 1 ≤ buffer.capacity
  delivered : ∀ result resp after, resWifiReqHandler env station pReq pResp = some (result, resp, after) →
    wifiBuffer env station.config pResp = none ∨ Delivered text pReq resp

/-- The buffer that is printed to is larger than the text. -/
def RoomForNul (env : WifiEnv) (pResp : PayloadMessage) (length : Nat) : Prop :=
  if pResp.payloadBufSize < length then ∀ block, env.memGet length = some block → length < block.length
  else length < pResp.payloadBufSize

section
variable {env : WifiEnv} {station : Station} {pReq : CoapMessage} {pResp : PayloadMessage} {ssid password : List UInt8}

/-- The buffer that is printed to holds the text at least. -/
theorem Stores.wifiBuffer_holds (stores : Stores station.config ssid password)
    (initial : pResp.capacity = pResp.payloadBufSize)
    (grants : ∀ size block, env.memGet size = some block → size ≤ block.length) {buffer : PayloadMessage}
    (found : wifiBuffer env station.config pResp = some buffer) :
    (credentials ssid password).length ≤ buffer.capacity := by
  unfold wifiBuffer at found
  rw [stores.wifiTotalLength_eq] at found
  split at found
  next =>
    obtain ⟨block, granted, rfl⟩ := Option.map_eq_some_iff.mp found
    exact grants _ _ granted
  next enough =>
    cases found
    omega

/-- The terminating zero is written within the buffer, if and only if that is larger than the text. -/
theorem Stores.within_iff (stores : Stores station.config ssid password)
    (initial : pResp.capacity = pResp.payloadBufSize) :
    (∀ buffer, wifiBuffer env station.config pResp = some buffer →
      (credentials ssid password).length + 1 ≤ buffer.capacity) ↔
      RoomForNul env pResp (credentials ssid password).length := by
  unfold wifiBuffer RoomForNul
  rw [stores.wifiTotalLength_eq]
  by_cases little : pResp.payloadBufSize < (credentials ssid password).length
  · rw [if_pos little, if_pos little]
    constructor
    · intro within block granted
      exact within _ (Option.map_eq_some_iff.mpr ⟨block, granted, rfl⟩)
    · intro room buffer found
      obtain ⟨block, granted, rfl⟩ := Option.map_eq_some_iff.mp found
      exact room block granted
  · rw [if_neg little, if_neg little, ← initial]
    exact ⟨fun within => within _ rfl, fun room buffer found => Option.some.inj found ▸ room⟩

theorem capacity_inside {buffer : PayloadMessage} (positive : 0 < buffer.capacity) :
    buffer.location ≠ .null ∧ buffer.capacity = buffer.buffer.length := by
  unfold PayloadMessage.capacity at positive ⊢
  split at positive
  next inside => exact ⟨by simp [inside], rfl⟩
  next outside => exact ⟨by simp [outside], rfl⟩
  next => cases positive
  next => cases positive

/-- What the buffer has room for is delivered. -/
theorem Stores.delivers (stores : Stores station.config ssid password) (get : pReq.code = reqGet)
    (key : ∃ pOpt ∈ pReq.options, IsQuery pOpt (cString "key=123")) (configured : env.getConfig = true)
    (holds : ∀ buffer, wifiBuffer env station.config pResp = some buffer →
      (credentials ssid password).length ≤ buffer.capacity)
    {result : HandlerResult} {resp : PayloadMessage} {after : Station}
    (answered : resWifiReqHandler env station pReq pResp = some (result, resp, after)) :
    wifiBuffer env station.config pResp = none ∨ Delivered (credentials ssid password) pReq resp := by
  have length := credentials_length ssid password
  have short := stores.ssidShort
  have passwordShort := stores.passwordShort
  have keyed : ¬ wifiKeyOk pReq.options = false := by simp [wifiKeyOk_iff.mpr key]
  have known : ¬ env.getConfig = false := by simp [configured]
  simp only [resWifiReqHandler, if_neg known, if_neg keyed, if_pos get] at answered
  cases found : wifiBuffer env station.config pResp with
  | none => exact .inl rfl
  | some buffer =>
    rw [found] at answered
    obtain ⟨⟨_, given⟩, set, done⟩ := Option.bind_eq_some_iff.mp answered
    cases done
    rw [stores.wifiText_eq, stores.wifiTotalLength_eq] at set
    have enough := holds buffer found
    obtain ⟨place, size⟩ := capacity_inside (by omega : 0 < buffer.capacity)
    have printed : (printPayload buffer (credentials ssid password)).location ≠ .null := place
    exact .inr (setPayload_own_delivers (by omega) (by rw [length, maxPayloadSize]; omega) printed
      (printPayload_take (size ▸ enough)) set)

end

/-- A GET with the key stays within its buffer, if and only if the buffer is larger than the text. -/
theorem resWifiReqHandler_prints_iff (env : WifiEnv) (station : Station) (pReq : CoapMessage) (pResp : PayloadMessage)
    (ssid password : List UInt8) (stores : Stores station.config ssid password) (get : pReq.code = reqGet)
    (key : ∃ pOpt ∈ pReq.options, IsQuery pOpt (cString "key=123")) (configured : env.getConfig = true)
    (initial : pResp.capacity = pResp.payloadBufSize)
    (grants : ∀ size block, env.memGet size = some block → size ≤ block.length) :
    Prints env station pReq pResp (credentials ssid password) ↔
      RoomForNul env pResp (ssid.length + password.length + 9) := by
  rw [← credentials_length, ← stores.within_iff initial]
  constructor
  · exact Prints.within
  · intro within
    refine ⟨within, fun result resp after answered => ?_⟩
    exact stores.delivers get key configured (fun _ => stores.wifiBuffer_holds initial grants) answered

/-- The allocator rounds up to four bytes. -/
def wifiEnv : WifiEnv where
  getConfig := true
  setConfig := true
  memGet := fun size => some (List.replicate ((size + 3) / 4 * 4) 0)
  optionMem := true
  bufferMem := true

/-- A station with an ssid and a password of some lengths. -/
def stationOf (ssid password : Nat) (ssidShort : ssid ≤ 31) (passwordShort : password ≤ 63) : Station where
  config := {
    ssid := List.replicate ssid 0x61 ++ List.replicate (32 - ssid) 0
    password := List.replicate password 0x62 ++ List.replicate (64 - password) 0
    ssidSized := by simp; omega
    passwordSized := by simp; omega }
  calls := []

def wifiGet : CoapMessage :=
  { coapInitToEmptyResetMsg with code := reqGet, options := [⟨optNumUriQuery, cString "key=123"⟩] }

/-- The response that a handler is given. -/
def wifiResponse : PayloadMessage where
  toCoapMessage := { coapInitToEmptyResetMsg with payloadBufSize := 64 }
  location := .message
  buffer := List.replicate 64 0
  writable := fun _ => .inl rfl

theorem wifi_protects_plain : ∃ answer : Option (HandlerResult × PayloadMessage), ∀ station,
    resWifiReqHandler wifiEnv station { coapInitToEmptyResetMsg with code := reqGet } wifiResponse =
      answer.map fun given => (given.1, given.2, station) :=
  (resWifiReqHandler_protects wifiEnv { coapInitToEmptyResetMsg with code := reqGet } wifiResponse).1 nofun

theorem wifi_prints_short : Prints wifiEnv (stationOf 1 1 (by decide) (by decide)) wifiGet wifiResponse
    (credentials [0x61] [0x62]) :=
  (resWifiReqHandler_prints_iff wifiEnv (stationOf 1 1 (by decide) (by decide)) wifiGet wifiResponse [0x61] [0x62]
    ⟨by decide, by decide, by decide, by decide⟩ rfl ⟨_, List.mem_singleton_self _, rfl, rfl⟩ rfl (by decide)
    (by intro size block granted; cases granted; simp; omega)).mpr (by rw [RoomForNul, if_neg (by decide)]; decide)

/-- 64 characters fill the buffer, and the NUL goes behind it. -/
theorem wifi_prints_full : ¬ ∀ (env : WifiEnv) (station : Station) (pReq : CoapMessage) (pResp : PayloadMessage)
    (ssid password : List UInt8), Stores station.config ssid password → pReq.code = reqGet →
    (∃ pOpt ∈ pReq.options, IsQuery pOpt (cString "key=123")) → env.getConfig = true →
    pResp.capacity = pResp.payloadBufSize →
    (∀ size block, env.memGet size = some block → size ≤ block.length) →
      Prints env station pReq pResp (credentials ssid password) := by
  intro prints
  have full := prints wifiEnv (stationOf 31 24 (by decide) (by decide)) wifiGet wifiResponse (List.replicate 31 0x61)
    (List.replicate 24 0x62) ⟨by decide, by decide, by decide, by decide⟩ rfl
    ⟨_, List.mem_singleton_self _, rfl, rfl⟩ rfl (by decide) (by intro size block granted; cases granted; simp; omega)
  have room := full.within wifiResponse (if_neg (by decide))
  rw [credentials_length] at room
  exact absurd room (by decide)

end SmingCoap.Server
