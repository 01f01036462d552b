import SmingCoap.Server.Invariants
import SmingCoap.Server.BuildSoundness
import SmingCoap.Server.ParseExactness

/-! # Tokens on the wire

A request's token is kept as a number from the parser to the interaction, the
observer and every message that goes back, and no step loses it.  What is lost
is its length, which the builder takes from the number again: a token comes back
when the datagram goes on behind its header and the last byte of the token is
not zero.
-/

namespace SmingCoap.Server

open Wire (Memory)

/-- The token of a datagram, as long as its first byte says. -/
def datagramToken (datagram : Memory) : List UInt8 :=
  datagram.bytes 4 (datagram 0 &&& 0x0F).toNat

/-! ## Reading -/

/-- The number that the parser makes of a token; it does not look behind a datagram of four bytes. -/
theorem parse_token {alloc : Nat → Bool} {now : Nat} {srcArr : Memory} {srcArrLength : Nat} {msg : CoapMessage}
    (accepts : coapParseMessageFromDatagram alloc now srcArr srcArrLength = some (.ok, some msg)) :
    msg.token64.toNat = if srcArrLength = 4 then 0 else Wire.littleEndian (datagramToken srcArr) := by
  have header : HeaderAccepted srcArr srcArrLength := by
    by_contra rejected
    obtain ⟨result, failed, returned⟩ := parse_rejects alloc now rejected
    rw [returned] at accepts
    cases accepts
  have token : (parseToken srcArr 4 ((srcArr 0).toNat % 16)).toNat = Wire.littleEndian (datagramToken srcArr) := by
    rw [parseToken_toNat srcArr 4 _ header.tokenLength, datagramToken, Wire.and_lowerNibble, Wire.lowerNibble]
  -- the message that is copied has the token it was parsed with
  have copied : ∀ {available : Bool} {parsed : CoapMessage},
      some (copyMessage available now parsed) = some (.ok, some msg) → msg.token64 = parsed.token64 := by
    intro available parsed copies
    cases available with
    | true =>
      cases copies
      rfl
    | false => cases copies
  rw [parse_of_header alloc now header] at accepts
  by_cases atHeader : srcArrLength = 4
  · rw [if_pos atHeader] at accepts ⊢
    rw [copied accepts]
    rfl
  · rw [if_neg atHeader] at accepts ⊢
    rw [← token]
    congr 1
    split at accepts
    next => exact copied accepts
    next =>
      simp only [parseBody] at accepts
      split at accepts
      next => cases accepts
      next => exact copied accepts
      next =>
        split at accepts
        next => cases accepts
        next => exact copied accepts
      next => cases accepts

/-! ## Writing -/

/-- A message that the format can express and a packet can hold. -/
structure Transmissible (msg : CoapMessage) : Prop where
  ascending : Wire.Ascending 0 msg.options
  representable : Wire.Representable msg.options
  room : (wireMessage msg).encode.length ≤ 65535

theorem datagramToken_of_holds {datagram : Memory} {message : Wire.Message} (type : message.type < 4)
    (token : message.token.length ≤ 8) (holds : datagram.Holds 0 message.encode) :
    datagramToken datagram = message.token := by
  rw [Wire.Message.encode, Wire.Message.header, Wire.Memory.holds_append, Wire.Memory.holds_append] at holds
  obtain ⟨header, written, _⟩ := holds
  have first : (datagram 0).toNat = 64 + message.type * 16 + message.token.length := by
    rw [(Wire.Memory.holds_cons.mp header).1, Wire.toNat_ofNat_of_lt (by omega)]
  have length : (datagram 0 &&& 0x0F).toNat = message.token.length := by
    rw [Wire.and_lowerNibble, Wire.lowerNibble]
    omega
  rw [datagramToken, length]
  exact written.eq_bytes rfl

/-- What goes out are as many bytes as the number takes. -/
theorem buildDatagram_token (destArr : Memory) {msg : CoapMessage} (coded : msg.code ≠ empty)
    (transmissible : Transmissible msg) :
    datagramToken (coapBuildDatagram destArr msg).1 =
      Wire.digits msg.token64.toNat (Wire.byteCount msg.token64.toNat) := by
  have bound := getTokenByteCount_le msg.token64
  obtain ⟨holds, _⟩ := buildDatagram_spec destArr msg coded transmissible.ascending transmissible.representable
    transmissible.room
  exact datagramToken_of_holds (MessageType.toNat_lt msg.type) (by rw [length_token]; exact bound) holds

/-! ## Through the stack -/

namespace CoapServer

/-- User code leaves the token of a message alone. -/
structure TokensKept (env : Env) : Prop where
  handler : ∀ turn pRes req resp, (env.handler turn pRes req (some resp)).resp.token64 = resp.token64
  notifier : ∀ turn pRes pObserver resp, (env.notifier turn pRes pObserver resp).resp.token64 = resp.token64

/-- What goes to an endpoint under a token is due to a packet from there that had the token. -/
def DueTo (log : List Effect) (origin : Option NetPacket) (ifID : UInt8) (ep : NetEp) (token : UInt64) : Prop :=
  ∃ pckt req, origin = some pckt ∧ .received pckt req ∈ log ∧ ifID = pckt.ifID ∧ ep = pckt.sender ∧
    token = req.token64

theorem DueTo.cons {log : List Effect} {origin : Option NetPacket} {ifID : UInt8} {ep : NetEp} {token : UInt64}
    (due : DueTo log origin ifID ep token) (effect : Effect) : DueTo (effect :: log) origin ifID ep token := by
  obtain ⟨pckt, req, back, received, same⟩ := due
  exact ⟨pckt, req, back, List.mem_cons_of_mem _ received, same⟩

/-- The messages of an interaction that is no client's. -/
def Carries (log : List Effect) (pIA : CoapInteraction) : Prop :=
  pIA.role ≠ .client → ∀ msg, pIA.pReqMsg = some msg ∨ pIA.pRespMsg = some msg →
    DueTo log pIA.origin pIA.ifID pIA.remoteEp msg.token64

/-- What is sent without asking for anything is a reply or a notification. -/
def IsAnswer (ia : Option CoapInteraction) : Prop := ∀ pIA, ia = some pIA → pIA.role ≠ .client

/-- A packet is noted with the message it was parsed to, and a message that answers with what it is due
to. -/
def Accounted (log : List Effect) : Effect → Prop
  | .received pckt msg =>
    ∃ alloc now, coapParseMessageFromDatagram alloc now pckt.data pckt.size.toNat = some (.ok, some msg)
  | .sent ia origin ifID receiver msg =>
    msg.code ≠ empty → IsAnswer ia → DueTo log origin ifID receiver msg.token64
  | _ => True

theorem parsePacket_accepts {env : Env} {this : CoapServer} {now : UInt32} {pckt : NetPacket} {msg : CoapMessage}
    (parsed : this.parsePacket env now pckt = some msg) :
    ∃ alloc now, coapParseMessageFromDatagram alloc now pckt.data pckt.size.toNat = some (.ok, some msg) := by
  rw [parsePacket] at parsed
  split at parsed
  next accepts => exact ⟨_, _, parsed ▸ accepts⟩
  next => cases parsed

section
variable {env : Env} {log effects : List Effect} {pIA worked : CoapInteraction}

theorem Carries.cons (carries : Carries log pIA) (effect : Effect) : Carries (effect :: log) pIA :=
  fun role msg own => (carries role msg own).cons effect

/-- Changes to an interaction that bring no new message. -/
theorem Carries.congr (carries : Carries log pIA) (role : worked.role = pIA.role)
    (back : worked.origin = pIA.origin ∧ worked.ifID = pIA.ifID ∧ worked.remoteEp = pIA.remoteEp)
    (messages : pIA.role ≠ .client → ∀ msg, worked.pReqMsg = some msg ∨ worked.pRespMsg = some msg →
      ∃ own, (pIA.pReqMsg = some own ∨ pIA.pRespMsg = some own) ∧ msg.token64 = own.token64) :
    Carries log worked := by
  intro answers msg listed
  rw [role] at answers
  obtain ⟨own, kept, token⟩ := messages answers msg listed
  obtain ⟨origin, ifID, remoteEp⟩ := back
  rw [origin, ifID, remoteEp, token]
  exact carries answers own kept

/-- A message with the token of one that the interaction has. -/
theorem Carries.accounted (carries : Carries log pIA) (now : UInt32) (other : CoapInteraction)
    (role : other.role = pIA.role)
    (back : other.origin = pIA.origin ∧ other.ifID = pIA.ifID ∧ other.remoteEp = pIA.remoteEp)
    {own msg : CoapMessage} (kept : pIA.pReqMsg = some own ∨ pIA.pRespMsg = some own)
    (token : msg.token64 = own.token64) : Accounted log (sending now other msg) := by
  intro _ answers
  obtain ⟨origin, ifID, remoteEp⟩ := back
  rw [origin, ifID, remoteEp, transmitted_token64, token]
  exact carries (role ▸ answers other rfl) own kept

/-- An empty message is not looked at. -/
theorem accounted_empty (now : UInt32) (pIA : CoapInteraction) (messageID : Nat) :
    Accounted log (sending now pIA { coapInitToEmptyResetMsg with type := .ack, messageID }) :=
  fun coded => absurd (transmitted_code now _) coded

/-- A response that a handler was given has a token of the interaction. -/
theorem Offered.token {req offered : CoapMessage} (request : pIA.pReqMsg = some req)
    (offers : Offered pIA req (some offered)) :
    ∃ own, (pIA.pReqMsg = some own ∨ pIA.pRespMsg = some own) ∧ offered.token64 = own.token64 := by
  cases offers with
  | inl kept => exact ⟨offered, .inr kept.1.symm, rfl⟩
  | inr fresh => exact ⟨req, .inl request, (fresh.2 offered rfl).token64⟩

/-- What a handler that does not answer leaves behind. -/
theorem Offered.postponed_token (kept : TokensKept env) {turn pRes : Nat} {req : CoapMessage}
    {offered : Option CoapMessage} (request : pIA.pReqMsg = some req) (offers : Offered pIA req offered) {msg : CoapMessage}
    (left : (offered.map fun _ => (env.handler turn pRes req offered).resp) = some msg) :
    ∃ own, (pIA.pReqMsg = some own ∨ pIA.pRespMsg = some own) ∧ msg.token64 = own.token64 := by
  cases offered with
  | none => cases left
  | some offered =>
    obtain ⟨own, listed, token⟩ := offers.token request
    cases left
    exact ⟨own, listed, (kept.handler turn pRes req offered).trans token⟩

theorem Refreshes.token (kept : TokensKept env) {resp refreshed : CoapMessage} (fresh : Refreshes env resp refreshed) :
    refreshed.token64 = resp.token64 := by
  obtain ⟨turn, pRes, pObserver, mid, token⟩ := fresh
  exact token.trans (kept.notifier turn pRes pObserver _)

/-- A response with a token of the interaction is sent, and stays with the interaction. -/
theorem Carries.responds (carries : Carries log pIA) (now : UInt32) (next : InteractionState)
    {own resp : CoapMessage} (kept : pIA.pReqMsg = some own ∨ pIA.pRespMsg = some own)
    (token : resp.token64 = own.token64) :
    Accounted log (sending now { pIA with pRespMsg := some resp } resp) ∧
      Carries log (responded now { pIA with pRespMsg := some resp } resp next) := by
  obtain ⟨_, role, _, _, pReqMsg, pRespMsg, remoteEp, ifID, origin, _⟩ := responded_fields now
    { pIA with pRespMsg := some resp } resp next
  refine ⟨carries.accounted now { pIA with pRespMsg := some resp } rfl ⟨rfl, rfl, rfl⟩ kept token,
    carries.congr role ⟨origin, ifID, remoteEp⟩ ?_⟩
  rintro _ msg (request | response)
  · exact ⟨msg, .inl (pReqMsg.symm.trans request), rfl⟩
  · have same := Option.some.inj (pRespMsg.symm.trans response)
    exact ⟨own, kept, by rw [← same, transmitted_token64, token]⟩

/-- The same when it is sent once more. -/
theorem Carries.repeats (carries : Carries log pIA) (now : UInt32) (flag : Bool)
    {own resp : CoapMessage} (kept : pIA.pReqMsg = some own ∨ pIA.pRespMsg = some own)
    (token : resp.token64 = own.token64) {other : CoapInteraction}
    (is : other = { pIA with updatePendingNotification := flag, pRespMsg := some resp }) :
    Accounted log (sending now other resp) ∧ Carries log (repeated now other resp) := by
  subst is
  refine ⟨carries.accounted now { pIA with updatePendingNotification := flag, pRespMsg := some resp } rfl
    ⟨rfl, rfl, rfl⟩ kept token, carries.congr rfl ⟨rfl, rfl, rfl⟩ ?_⟩
  rintro _ msg (request | response)
  · exact ⟨msg, .inl request, rfl⟩
  · have same := Option.some.inj response
    exact ⟨own, kept, by rw [← same, transmitted_token64, token]⟩

theorem Works.carries (kept : TokensKept env) {now : UInt32} {resources : List CoapResource}
    (carries : Carries log pIA) (works : Works env now resources log pIA effects worked) :
    (∀ effect ∈ effects, Accounted log effect) ∧ Carries (effects ++ log) worked := by
  have one : ∀ {effect worked}, Accounted log effect ∧ Carries log worked →
      (∀ other ∈ [effect], Accounted log other) ∧ Carries ([effect] ++ log) worked := by
    rintro effect worked ⟨accounted, carried⟩
    exact ⟨by simpa using accounted, carried.cons effect⟩
  have still : ∀ {resp : CoapMessage} {other : CoapInteraction}, pIA.pRespMsg = some resp →
      other = { pIA with pRespMsg := some resp } → other = pIA := by
    intro resp other response is
    rw [is, ← response]
  cases works with
  | waits => exact ⟨by simp, carries⟩
  | refuses _ _ request _ _ _ allocated => exact one (carries.responds now .responseSent (.inl request) allocated.token64)
  | @answers req offered resp turn pRes role _ request offers complete =>
    obtain ⟨own, listed, token⟩ := offers.token request
    have handled := kept.handler turn pRes req offered
    exact one (carries.responds now .responseSent listed ((complete.token64.trans handled).trans token))
  | @postpones req offered resp turn pRes resource role _ request _ _ _ offers handled =>
    refine one ⟨accounted_empty now _ req.messageID, carries.congr rfl ⟨rfl, rfl, rfl⟩ ?_⟩
    -- both messages of the interaction have the token: the request, and the one the handler was given
    rintro _ msg (asks | response)
    · exact ⟨msg, .inl asks, rfl⟩
    · exact offers.postponed_token kept request (handled.symm.trans response)
  | @sleeps req offered resp turn pRes role _ request offers handled =>
    refine ⟨by simp, carries.congr rfl ⟨rfl, rfl, rfl⟩ ?_⟩
    rintro _ msg (asks | response)
    · exact ⟨msg, .inl asks, rfl⟩
    · exact offers.postponed_token kept request (handled.symm.trans response)
  | repeats _ response =>
    exact one (carries.repeats now pIA.updatePendingNotification (.inr response) rfl (by rw [← response]))
  | @notifies resp role _ response =>
    have sent := carries.responds now .notificationSent (.inr response) rfl
    rw [still response rfl] at sent
    exact one sent
  | @repeatsRefreshed resp refreshed _ _ response _ _ fresh =>
    have token : ({ refreshed with type := .con } : CoapMessage).token64 = resp.token64 := fresh.token kept
    exact one (carries.repeats now false (.inr response) token rfl)
  | refreshes _ _ response fresh =>
    refine ⟨by simp, carries.congr rfl ⟨rfl, rfl, rfl⟩ ?_⟩
    rintro _ msg (request | refreshed)
    · exact ⟨msg, .inl request, rfl⟩
    · have same := Option.some.inj refreshed
      exact ⟨_, .inr response, by rw [← same, fresh.token kept]⟩
  | requests role => exact one ⟨fun _ answers => absurd role (answers _ rfl), fun answers => by
      rw [(requested_fields now pIA _).2.1] at answers
      exact absurd role answers⟩
  | requestsAgain role => exact one ⟨fun _ answers => absurd role (answers _ rfl), fun answers => absurd role answers⟩

theorem Touches.carries {this : CoapServer} {pckt : NetPacket} {msg : CoapMessage} (carries : Carries log pIA)
    (touches : Touches this pckt msg pIA worked) : Carries log worked := by
  obtain ⟨_, role, _, remoteEp, ifID, origin, pReqMsg⟩ := touches.identity
  refine carries.congr role ⟨origin, ifID, remoteEp⟩ ?_
  intro answers msg own
  have marks : ∀ state, (marked pIA state).pReqMsg = some msg ∨ (marked pIA state).pRespMsg = some msg →
      ∃ own, (pIA.pReqMsg = some own ∨ pIA.pRespMsg = some own) ∧ msg.token64 = own.token64 := by
    intro state listed
    obtain ⟨_, _, _, _, request, response, _⟩ := marked_fields pIA state
    exact ⟨msg, by rwa [request, response] at listed, rfl⟩
  cases touches with
  | reset => exact marks .rstSet own
  | acknowledged => exact marks .ackSet own
  | piggybacked _ _ _ client => exact absurd client answers
  | separate awaits => exact absurd awaits.role answers
  | early => exact ⟨msg, own, rfl⟩

end

theorem accounted_stable (env : Env) (resources : List CoapResource) (kept : TokensKept env) :
    Stable env resources (fun _ _ => True) Carries Accounted
      (fun log pObserver => DueTo log (some pObserver.origin) pObserver.ifID pObserver.ep pObserver.token) where
  foreign := fun carries _ => carries.cons _
  observer := fun effect due => due.cons effect
  nextMid := fun _ _ => trivial
  received := parsePacket_accepts
  replies := by
    intro log pckt msg effect received replies
    cases replies with
    | nextMid => trivial
    | sent token => exact fun coded _ => ⟨pckt, msg, rfl, received, rfl, rfl, token.resolve_left coded⟩
  flagged := fun carries _ => carries.congr rfl ⟨rfl, rfl, rfl⟩ fun _ msg own => ⟨msg, own, rfl⟩
  client := fun _ _ _ _ _ answers => absurd rfl answers
  notification := by
    intro log pRes resource pObserver created resp turn ref _ _ due token notified _ _ msg own
    cases own with
    | inl request => cases request
    | inr response =>
      have tokens : msg.token64 = pObserver.token := by
        rw [← Option.some.inj response, notified, kept.notifier, token]
      rw [tokens]
      exact due
  serving := by
    intro this pckt msg pRes resource ref _ received _ _ _ own listed
    cases listed with
    | inl request =>
      cases request
      exact ⟨pckt, msg, rfl, received, rfl, rfl, rfl⟩
    | inr response => cases response
  duplicate := fun now carries _ _ _ _ => ⟨accounted_empty now _ _, carries.cons _⟩
  touched := fun _ _ _ _ carries touches => touches.carries carries
  handled := fun carries _ _ _ => ⟨trivial, carries.cons _⟩
  works := fun _ _ carries works => works.carries kept carries
  registers := by
    intro log pIA req pObserver carries registers
    have answers : pIA.role ≠ .client := by
      rw [registers.role]
      decide
    have due := carries answers req (.inl registers.request)
    rw [registers.token, registers.ifID, registers.ep, ← registers.origin]
    exact due

/-- The message goes out under the token that the packet came with, whatever the array held before. -/
def Echoes (pckt : NetPacket) (msg : CoapMessage) : Prop :=
  ∀ destArr, datagramToken (coapBuildDatagram destArr msg).1 = datagramToken pckt.data

/-- A number gives the token back: it was read at all, and does not end in a zero. -/
def TokenReturns (pckt : NetPacket) : Prop :=
  (pckt.size = 4 → datagramToken pckt.data = []) ∧ (datagramToken pckt.data).getLast? ≠ some 0

theorem echoes_iff {alloc : Nat → Bool} {now : Nat} {pckt : NetPacket} {req msg : CoapMessage}
    (accepts : coapParseMessageFromDatagram alloc now pckt.data pckt.size.toNat = some (.ok, some req))
    (token : msg.token64 = req.token64) (coded : msg.code ≠ empty) (transmissible : Transmissible msg) :
    Echoes pckt msg ↔ TokenReturns pckt := by
  have size : pckt.size.toNat = 4 ↔ pckt.size = 4 := UInt16.toNat_inj (b := 4)
  have written := fun destArr => buildDatagram_token destArr coded transmissible
  rw [token, parse_token accepts] at written
  simp only [Echoes, written, forall_const, TokenReturns, ← size]
  by_cases header : pckt.size.toNat = 4
  · simp only [header, if_true, forall_const, Wire.byteCount_zero, Wire.digits]
    constructor
    · intro none
      simp [← none]
    · exact fun returns => returns.1.symm
  · simp only [header, if_false, false_imp_iff, true_and]
    exact Wire.digits_byteCount_iff _

/-- In every state that is reached, a message that was not sent to ask for something goes back to a packet
that was received, and carries its token exactly when the number gives the token back. -/
theorem token_echoed_iff (env : Env) (kept : TokensKept env) (resources : List CoapResource) (this : CoapServer)
    (reaches : Reaches env resources this) (ia : Option CoapInteraction) (origin : Option NetPacket) (ifID : UInt8)
    (receiver : NetEp) (msg : CoapMessage) (sent : .sent ia origin ifID receiver msg ∈ this.log)
    (coded : msg.code ≠ empty) (answer : IsAnswer ia) (transmissible : Transmissible msg) :
    ∃ pckt req, origin = some pckt ∧ .received pckt req ∈ this.log ∧ ifID = pckt.ifID ∧ receiver = pckt.sender ∧
      (Echoes pckt msg ↔ TokenReturns pckt) := by
  have holds := (accounted_stable env resources kept).holds reaches
  obtain ⟨later, earlier, split⟩ := List.append_of_mem sent
  have accounted : Accounted earlier (.sent ia origin ifID receiver msg) := (split ▸ holds.effects : Noted _ _).split
  obtain ⟨pckt, req, back, received, interface, sender, token⟩ := accounted coded answer
  have noted : Effect.received pckt req ∈ this.log := by
    rw [split]
    exact List.mem_append_right _ (List.mem_cons_of_mem _ received)
  obtain ⟨after, before, at_⟩ := List.append_of_mem noted
  have parsed : Accounted before (.received pckt req) := (at_ ▸ holds.effects : Noted _ _).split
  obtain ⟨alloc, now, accepts⟩ := parsed
  exact ⟨pckt, req, back, noted, interface, sender, echoes_iff accepts token coded transmissible⟩

/-- The response that was sent last, with the size and the token of the packet that it goes back to. -/
def lastAnswer (this : CoapServer) : Option (UInt16 × List UInt8 × CoapMessage) :=
  match this.log with
  | .sent (some pIA) (some pckt) _ _ msg :: _ =>
    if pIA.role = .server then some (pckt.size, datagramToken pckt.data, msg) else none
  | _ => none

theorem lastAnswer_mem {this : CoapServer} {size : UInt16} {token : List UInt8} {msg : CoapMessage}
    (last : this.lastAnswer = some (size, token, msg)) :
    ∃ ia pckt ifID receiver, .sent ia (some pckt) ifID receiver msg ∈ this.log ∧ IsAnswer ia ∧
      pckt.size = size ∧ datagramToken pckt.data = token := by
  rw [lastAnswer] at last
  split at last
  next pIA pckt ifID receiver sent earlier log =>
    split at last
    next server =>
      cases last
      refine ⟨some pIA, pckt, ifID, receiver, log ▸ List.mem_cons_self, ?_, rfl, rfl⟩
      rintro other ⟨rfl⟩
      rw [server]
      decide
    next => cases last
  next => cases last

theorem idealEnv_tokensKept : TokensKept idealEnv := ⟨fun _ _ _ _ => rfl, fun _ _ _ _ => rfl⟩

theorem content_transmissible : Transmissible ⟨0, .ack, respSuccessContent, 1, preferedPayloadSize, 7, [], []⟩ :=
  ⟨trivial, nofun, by decide +kernel⟩

/-- The answer to a request under the token 7. -/
theorem token_echoed_iff_seven : ∃ this, Reaches idealEnv [sensor] this ∧
    ∃ ia pckt ifID receiver msg, .sent ia (some pckt) ifID receiver msg ∈ this.log ∧
      datagramToken pckt.data = [7] ∧ Echoes pckt msg := by
  have sends : ([Event.packet (datagram 0 [0x41, 0x01, 0x00, 0x01, 0x07, 0xB1, 0x61]) 0,
      .doWork 0].foldlM (step idealEnv) (new [sensor])).bind lastAnswer =
        some (7, [7], ⟨0, .ack, respSuccessContent, 1, preferedPayloadSize, 7, [], []⟩) := by
    decide +kernel
  obtain ⟨this, taken, last⟩ := Option.bind_eq_some_iff.mp sends
  have reached : Reaches idealEnv [sensor] this := .of_events _ .refl taken
  obtain ⟨ia, pckt, ifID, receiver, sent, answer, size, token⟩ := lastAnswer_mem last
  obtain ⟨other, _, ⟨rfl⟩, _, _, _, echoed⟩ := token_echoed_iff idealEnv idealEnv_tokensKept [sensor] this reached ia
    (some pckt) ifID receiver _ sent (by decide) answer content_transmissible
  refine ⟨this, reached, ia, pckt, ifID, receiver, _, sent, token, echoed.mpr ⟨?_, ?_⟩⟩
  · intro header
    rw [size] at header
    cases header
  · simp [token]

/-- The answer to the same request under the token 7, 0 carries the token 7. -/
theorem token_not_echoed : TokensKept idealEnv ∧ ¬ ∀ this, Reaches idealEnv [sensor] this →
    ∀ ia pckt ifID receiver msg, .sent ia (some pckt) ifID receiver msg ∈ this.log → msg.code ≠ empty → IsAnswer ia →
      Transmissible msg → Echoes pckt msg := by
  refine ⟨idealEnv_tokensKept, fun echoed => ?_⟩
  have sends : ([Event.packet (datagram 0 [0x42, 0x01, 0x00, 0x01, 0x07, 0x00, 0xB1, 0x61]) 0,
      .doWork 0].foldlM (step idealEnv) (new [sensor])).bind lastAnswer =
        some (8, [7, 0], ⟨0, .ack, respSuccessContent, 1, preferedPayloadSize, 7, [], []⟩) := by
    decide +kernel
  obtain ⟨this, taken, last⟩ := Option.bind_eq_some_iff.mp sends
  obtain ⟨ia, pckt, ifID, receiver, sent, answer, _, token⟩ := lastAnswer_mem last
  have same := echoed this (.of_events _ .refl taken) ia pckt ifID receiver _ sent (by decide) answer
    content_transmissible (fun _ => 0)
  rw [token] at same
  revert same
  decide +kernel

end CoapServer

end SmingCoap.Server
