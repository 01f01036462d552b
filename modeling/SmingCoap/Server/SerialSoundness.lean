import SmingCoap.Server.SerialSteps

/-! # The order of notifications

What a client gets next is newer as long as the update counter of the resource
is newer than what the client has whenever a notification is started or taken to
be out of date, and newer than 0 when a registration is answered.
-/

namespace SmingCoap.Server

open Wire (Opt)

namespace CoapServer

/-! ## The turn of a notification -/

section
variable {now : UInt32} {this after : CoapServer} {pIA other worked : CoapInteraction} {msg : CoapMessage}
  {key : Observation}

/-- Two notifications that bring values to the same observation. -/
theorem sameNotification_of_covers {token too : UInt64} (role : pIA.role = .notification) (roleToo : other.role = .notification)
    (covered : key.covers pIA.pRes pIA.ifID pIA.remoteEp token = true)
    (coveredToo : key.covers other.pRes other.ifID other.remoteEp too = true) : SameNotification pIA other := by
  obtain ⟨pRes, ifID, ep, _⟩ := Observation.covers_iff.mp covered
  obtain ⟨pResToo, ifIDToo, epToo, _⟩ := Observation.covers_iff.mp coveredToo
  exact ⟨role, roleToo, pRes.trans pResToo.symm, ifID.trans ifIDToo.symm, epAreEqual_trans ep (epAreEqual_symm epToo)⟩

/-- Only one notification changes, and it brings values to its own observation. -/
theorem Serial.turn {effects : List Effect} {list : List CoapInteraction} (serial : Serial this)
    (member : pIA ∈ this.pInteractions) (role : pIA.role = .notification) (link : SameLink pIA worked)
    (response : worked.pRespMsg = some msg) (few : (observeOptions msg).length ≤ 1)
    (among : ∀ other ∈ list, other = worked ∨ other ∈ this.pInteractions ∧ other.ref ≠ pIA.ref)
    (placed : Places this after effects list)
    (foreign : ∀ key, key.covers pIA.pRes pIA.ifID pIA.remoteEp msg.token64 = false →
      received key after.log = received key this.log)
    (increasing : ∀ key, Increasing (received key after.log))
    (own : ∀ key resource, this.resources[key.pRes]? = some resource →
      key.covers pIA.pRes pIA.ifID pIA.remoteEp msg.token64 = true →
        Ordered (received key after.log).head? resource.updateCnt worked msg) : Serial after where
  message := by
    intro other memberToo roleToo
    cases among other (placed.pInteractions ▸ memberToo) with
    | inl same =>
      subst same
      exact ⟨msg, response, few⟩
    | inr kept => exact serial.message other kept.1 roleToo
  ordered := by
    intro other memberToo roleToo key msgToo resource responseToo found covered
    rw [placed.resources] at found
    cases among other (placed.pInteractions ▸ memberToo) with
    | inl same =>
      subst same
      rw [response] at responseToo
      cases responseToo
      rw [link.pRes, link.ifID, link.remoteEp] at covered
      exact own key resource found covered
    | inr kept =>
      -- another notification of this observation would be the same one
      have free : key.covers pIA.pRes pIA.ifID pIA.remoteEp msg.token64 = false := by
        apply Bool.eq_false_iff.mpr
        intro coveredToo
        exact kept.2 (serial.single other kept.1 pIA member (sameNotification_of_covers roleToo role covered coveredToo))
      rw [foreign key free]
      exact serial.ordered other kept.1 roleToo key msgToo resource responseToo found covered
  plain := by
    intro other memberToo roleToo
    cases among other (placed.pInteractions ▸ memberToo) with
    | inl same =>
      rw [same, link.role, role] at roleToo
      cases roleToo
    | inr kept => exact serial.plain other kept.1 roleToo
  single := by
    intro one memberToo two memberThree same
    cases among one (placed.pInteractions ▸ memberToo) with
    | inl first =>
      cases among two (placed.pInteractions ▸ memberThree) with
      | inl second => rw [first, second]
      | inr kept =>
        rw [first] at same
        exact absurd (serial.single pIA member two kept.1 (link.sameNotification (.refl two) same)).symm kept.2
    | inr kept =>
      cases among two (placed.pInteractions ▸ memberThree) with
      | inl second =>
        rw [second] at same
        exact absurd (serial.single one kept.1 pIA member ((SameLink.refl one).sameNotification link same)) kept.2
      | inr keptToo => exact serial.single one kept.1 two keptToo.1 same
  increasing := increasing

/-- A notification brings one value at most. -/
theorem received_sending {log : List Effect} (role : pIA.role = .notification) :
    received key (sending now pIA msg :: log) = (brings key log (sending now pIA msg)).toList ++ received key log := by
  have response : Effect.isResponse (sending now pIA msg) = false := by simp [Effect.isResponse, sending, role]
  cases brought : brings key log (sending now pIA msg) with
  | none => rw [received_none brought, Option.toList_none, List.nil_append]
  | some value => simp [received, brought, response]

/-- A notification is sent. -/
theorem Serial.sent {ia : CoapInteraction} {list : List CoapInteraction} (serial : Serial this)
    (member : pIA ∈ this.pInteractions) (role : pIA.role = .notification) (sender : SameLink pIA ia)
    (link : SameLink pIA worked) (response : worked.pRespMsg = some (transmitted now msg))
    (state : worked.state = .notificationSent) (few : (observeOptions msg).length ≤ 1)
    (newer : ∀ key earlier value, key.covers pIA.pRes pIA.ifID pIA.remoteEp msg.token64 = true →
      (received key this.log).head? = some earlier → getObserveOptionFromMsg msg = some value → Older earlier value)
    (outdated : worked.updatePendingNotification = true → ∀ key resource earlier, this.resources[key.pRes]? = some resource →
      key.covers pIA.pRes pIA.ifID pIA.remoteEp msg.token64 = true →
        (received key (sending now ia msg :: this.log)).head? = some earlier → Older earlier (observeNumber resource.updateCnt))
    (among : ∀ other ∈ list, other = worked ∨ other ∈ this.pInteractions ∧ other.ref ≠ pIA.ref)
    (placed : Places this after [sending now ia msg] list) : Serial after := by
  have log : after.log = sending now ia msg :: this.log := placed.log
  have iaRole : ia.role = .notification := sender.role.trans role
  apply serial.turn member role link response (by rw [observeOptions_transmitted]; exact few) among placed
  · intro key free
    rw [log, received_none]
    -- no other observation is told anything
    cases brought : brings key this.log (sending now ia msg) with
    | none => rfl
    | some value =>
      have covered := (brings_some brought).1
      rw [sender.pRes, sender.ifID, sender.remoteEp] at covered
      rw [transmitted_token64, covered] at free
      cases free
  · intro key
    rw [log, received_sending iaRole]
    cases brought : brings key this.log (sending now ia msg) with
    | none => exact serial.increasing key
    | some value =>
      obtain ⟨covered, own⟩ := brings_some brought
      rw [sender.pRes, sender.ifID, sender.remoteEp] at covered
      -- the value goes in front of those the observation has had, the last of which is older
      apply List.isChain_cons.mpr
      exact ⟨fun earlier last => newer key earlier value covered last own, serial.increasing key⟩
  · intro key resource found covered
    rw [transmitted_token64] at covered
    refine ⟨by simp [state], fun flag earlier last => ?_⟩
    simp only [front, state] at last
    exact outdated flag key resource earlier found covered (log ▸ last)

end

/-- User code leaves the Observe option of a message and the token of a notification to the stack. -/
structure LeavesObserve (env : Env) : Prop where
  handler : ∀ turn pRes req resp, observeOptions resp = [] → observeOptions (env.handler turn pRes req (some resp)).resp = []
  notifier : ∀ turn pRes pObserver resp, observeOptions (env.notifier turn pRes pObserver resp).resp = observeOptions resp
  token : ∀ turn pRes pObserver resp, (env.notifier turn pRes pObserver resp).resp.token64 = resp.token64

section
variable {env : Env} {now : UInt32} {this after : CoapServer} {pIA : CoapInteraction} {resp : CoapMessage}

/-- What the stack writes into a message, if it has the memory for it. -/
theorem number_of_options {msg : CoapMessage} {available : Bool} {updateCnt : UInt32} {value : Nat}
    (options : observeOptions msg = if available then [⟨optNumObserve, observeBytes updateCnt⟩] else [])
    (own : getObserveOptionFromMsg msg = some value) : value = observeNumber updateCnt := by
  cases available with
  | true =>
    rw [getObserveOptionFromMsg_number options] at own
    exact (Option.some.inj own).symm
  | false =>
    rw [getObserveOptionFromMsg_none options] at own
    cases own

theorem few_of_options {msg : CoapMessage} {available : Bool} {updateCnt : UInt32}
    (options : observeOptions msg = if available then [⟨optNumObserve, observeBytes updateCnt⟩] else []) :
    (observeOptions msg).length ≤ 1 := by
  rw [options]
  cases available with
  | true => simp
  | false => simp

/-- A refreshed message has the counter of its resource. -/
theorem refresh_options (leaves : LeavesObserve env) {refreshed : CoapMessage × CoapServer} (few : (observeOptions resp).length ≤ 1)
    (refreshes : this.refresh env pIA resp = some refreshed) :
    ∃ (pRes : Nat) (resource : CoapResource) (available : Bool), pIA.pRes = some pRes ∧
      this.resources[pRes]? = some resource ∧ refreshed.1.token64 = resp.token64 ∧
      observeOptions refreshed.1 = if available then [⟨optNumObserve, observeBytes resource.updateCnt⟩] else [] := by
  obtain ⟨pRes, resource, asked, found, _, rfl⟩ := refresh_some refreshes
  have kept : observeOptions (refreshNotified env this pRes resource pIA resp).resp = observeOptions resp :=
    leaves.notifier ..
  refine ⟨pRes, resource, _, asked, found, leaves.token .., observeOptions_update _ ?_ _⟩
  rw [kept]
  exact few

/-- A notification that was taken to be out of date gets a newer value. -/
theorem Serial.newer {msg : CoapMessage} {pRes : Nat} {resource : CoapResource} {available : Bool} (serial : Serial this)
    (member : pIA ∈ this.pInteractions) (role : pIA.role = .notification) (state : pIA.state = .notificationSent)
    (flag : pIA.updatePendingNotification = true) (response : pIA.pRespMsg = some resp) (asked : pIA.pRes = some pRes)
    (found : this.resources[pRes]? = some resource) (token : msg.token64 = resp.token64)
    (options : observeOptions msg = if available then [⟨optNumObserve, observeBytes resource.updateCnt⟩] else [])
    {key : Observation} {earlier value : Nat} (covered : key.covers pIA.pRes pIA.ifID pIA.remoteEp msg.token64 = true)
    (last : (received key this.log).head? = some earlier) (own : getObserveOptionFromMsg msg = some value) :
    Older earlier value := by
  rw [number_of_options options own]
  obtain ⟨same, _⟩ := Observation.covers_iff.mp covered
  obtain rfl : pRes = key.pRes := Option.some.inj (asked.symm.trans same)
  rw [token] at covered
  apply (serial.ordered pIA member role key resp resource response found covered).outdated flag
  rw [front, state]
  exact last

theorem mem_enqueued {ref : Nat} {worked other : CoapInteraction} (numbered : Numbered this)
    (member : other ∈ (this.pInteractions.eraseP fun other => other.ref = ref) ++ [worked]) :
    other = worked ∨ other ∈ this.pInteractions ∧ other.ref ≠ ref := by
  cases List.mem_append.mp member with
  | inl kept => exact .inr (mem_erased numbered.nodup kept)
  | inr last => exact .inl (List.mem_singleton.mp last)

/-- A refreshed notification goes out at once. -/
theorem Serial.resent {ia : CoapInteraction} {msg : CoapMessage} (serial : Serial this) (member : pIA ∈ this.pInteractions)
    (role : pIA.role = .notification) (state : pIA.state = .notificationSent)
    (sent : this.retryResp env now ia = some after) (link : SameLink pIA ia) (sameState : ia.state = pIA.state)
    (cleared : ia.updatePendingNotification = false) (response : ia.pRespMsg = some msg) (few : (observeOptions msg).length ≤ 1)
    (newer : ∀ key earlier value, key.covers pIA.pRes pIA.ifID pIA.remoteEp msg.token64 = true →
      (received key this.log).head? = some earlier → getObserveOptionFromMsg msg = some value → Older earlier value) :
    Serial after := by
  cases retryResp_places response sent with
  | inl deleted => exact serial.still (deleted.still known_erased fun _ => rfl)
  | inr placed =>
    have linkToo : SameLink pIA (repeated now ia msg) := link.trans ⟨rfl, rfl, rfl, rfl, rfl, rfl⟩
    apply serial.sent member role link linkToo rfl (sameState.trans state) few newer _ _ placed
    · intro outdated
      exact absurd (cleared.symm.trans outdated) Bool.false_ne_true
    · intro other among
      cases mem_stored among with
      | inl stored => exact .inl stored
      | inr kept => exact .inr ⟨kept.1, linkToo.ref ▸ kept.2⟩

/-- A refreshed notification waits for its turn. -/
theorem Serial.requeued {worked : CoapInteraction} {msg : CoapMessage} (serial : Serial this) (numbered : Numbered this)
    (member : pIA ∈ this.pInteractions) (role : pIA.role = .notification) (link : SameLink pIA worked)
    (cleared : worked.updatePendingNotification = false) (response : worked.pRespMsg = some msg)
    (few : (observeOptions msg).length ≤ 1)
    (newer : ∀ key earlier value, key.covers pIA.pRes pIA.ifID pIA.remoteEp msg.token64 = true →
      (received key this.log).head? = some earlier → getObserveOptionFromMsg msg = some value → Older earlier value) :
    Serial (this.enqueueLastInteraction worked) := by
  have placed : Places this (this.enqueueLastInteraction worked) []
      ((this.pInteractions.eraseP fun other => other.ref = worked.ref) ++ [worked]) := ⟨rfl, rfl, rfl, rfl⟩
  rw [link.ref] at placed
  apply serial.turn member role link response few (fun other => mem_enqueued numbered) placed (fun _ _ => rfl)
    serial.increasing
  intro key _ _ covered
  refine ⟨fun _ earlier value => newer key earlier value covered, fun outdated => ?_⟩
  exact absurd (cleared.symm.trans outdated) Bool.false_ne_true

/-- A notification goes out for the first time. -/
theorem sendNotification_serial (serial : Serial this) (numbered : Numbered this) (member : pIA ∈ this.pInteractions)
    (role : pIA.role = .notification) (state : pIA.state = .readyToNotify)
    (listed : ∀ pRes, pIA.pRes = some pRes → ∃ resource, this.resources[pRes]? = some resource)
    (sent : this.sendResp env now pIA .notificationSent = some after) : Serial after := by
  obtain ⟨resp, response, few⟩ := serial.message pIA member role
  cases sendResp_places response sent with
  | inl deleted => exact serial.still (deleted.still known_erased fun _ => rfl)
  | inr placed =>
    obtain ⟨_, _, stateToo, _, _, responseToo, _⟩ := responded_fields now pIA resp .notificationSent
    have flag : (responded now pIA resp .notificationSent).updatePendingNotification = pIA.updatePendingNotification := by
      unfold responded
      cases resp.type with
      | _ => rfl
    rw [(responded_link now pIA resp .notificationSent).ref] at placed
    apply serial.sent member role (.refl pIA) (responded_link ..) responseToo stateToo few _ _
      (fun other => mem_enqueued numbered) placed
    · intro key earlier value covered last own
      obtain ⟨resource, found⟩ := listed key.pRes (Observation.covers_iff.mp covered).1
      exact (serial.ordered pIA member role key resp resource response found covered).unsent state earlier value last own
    · intro outdated key resource earlier found covered last
      rw [flag] at outdated
      apply (serial.ordered pIA member role key resp resource response found covered).outdated outdated
      -- what was in front of the counter has arrived
      rw [received_sending role, brings_new now (by simp [role]) covered (by simp [state])] at last
      rw [front, state, if_pos rfl, ← last]
      cases getObserveOptionFromMsg resp with
      | none => rfl
      | some value => rfl

/-- Behind a refresh the notification has a newer value than the last one that was received. -/
theorem Serial.refreshed {refreshed : CoapMessage × CoapServer} (serial : Serial this) (leaves : LeavesObserve env)
    (member : pIA ∈ this.pInteractions) (role : pIA.role = .notification) (state : pIA.state = .notificationSent)
    (flag : pIA.updatePendingNotification = true) (response : pIA.pRespMsg = some resp)
    (few : (observeOptions resp).length ≤ 1) (refreshes : this.refresh env pIA resp = some refreshed) :
    Serial refreshed.2 ∧ pIA ∈ refreshed.2.pInteractions ∧ (observeOptions refreshed.1).length ≤ 1 ∧
      ∀ key earlier value, key.covers pIA.pRes pIA.ifID pIA.remoteEp refreshed.1.token64 = true →
        (received key refreshed.2.log).head? = some earlier → getObserveOptionFromMsg refreshed.1 = some value →
        Older earlier value := by
  obtain ⟨pRes, resource, available, asked, found, token, options⟩ := refresh_options leaves few refreshes
  have requests := refresh_asked refreshes
  refine ⟨serial.still requests.still, ?_, few_of_options options, ?_⟩
  · obtain ⟨_, list, _⟩ := requests.list
    rw [list]
    exact List.mem_append_left _ member
  · intro key earlier value covered last own
    rw [requests.still.received] at last
    exact serial.newer member role state flag response asked found token options covered last own

theorem checkNotification_serial (leaves : LeavesObserve env) (serial : Serial this) (numbered : Numbered this)
    (member : pIA ∈ this.pInteractions) (role : pIA.role = .notification) (state : pIA.state = .notificationSent)
    (counted : Counted this.log pIA) (worked : this.checkNotification env now pIA = some after) : Serial after := by
  obtain ⟨msg, own, last, _⟩ := counted.sent (.inr (.inl state))
  simp only [CoapInteraction.ownMsg, role] at own
  obtain ⟨resp, response, few⟩ := serial.message pIA member role
  cases checkNotification_cases worked with
  | waits same =>
    subst same
    exact serial.still (enqueueLastInteraction_still (.listed member))
  | repeats _ sent => exact serial.still (retryResp_still member own last (.inr state) sent)
  | @repeatsRefreshed given refreshed middle _ flag same refreshes sent =>
    obtain rfl : given = resp := Option.some.inj (same.symm.trans response)
    obtain ⟨serialToo, memberToo, fewToo, newer⟩ := serial.refreshed leaves member role state flag response few refreshes
    exact serialToo.resent memberToo role state sent ⟨rfl, rfl, rfl, rfl, rfl, rfl⟩ rfl rfl rfl fewToo newer
  | @refreshes given refreshed middle flag same refreshes moved =>
    subst moved
    obtain rfl : given = resp := Option.some.inj (same.symm.trans response)
    obtain ⟨serialToo, memberToo, fewToo, newer⟩ := serial.refreshed leaves member role state flag response few refreshes
    have calls : Calls env (fun _ => True) this middle := (refresh_calls refreshes).1
    exact serialToo.requeued (calls.grows numbered).1 memberToo role ⟨rfl, rfl, rfl, rfl, rfl, rfl⟩ rfl rfl fewToo newer
  | @givesUp resp _ same =>
    subst same
    exact serial.still ((removeInteractionsObserver_still pIA resp.token64).trans (deleteInteraction_still _))
  | ends same =>
    subst same
    exact serial.still (deleteInteraction_still _)

end

/-! ## The loop over the observers -/

/-- The counter is newer than what the client has under the notification, or gets before. -/
def Passed (this : CoapServer) (updateCnt : UInt32) (pIA : CoapInteraction) : Prop :=
  ∀ key msg earlier, pIA.pRespMsg = some msg → key.covers pIA.pRes pIA.ifID pIA.remoteEp msg.token64 = true →
    front (received key this.log).head? pIA msg = some earlier → Older earlier (observeNumber updateCnt)

/-- The counter is newer than what the client of a notification has that is flagged or started. -/
structure TurnPasses (env : Env) (this : CoapServer) (pRes : Nat) (resource : CoapResource) (pObserver : CoapObserver) :
    Prop where
  pending : ∀ pIA ∈ this.pInteractions, pIA.notifies pRes pObserver = true → Passed this resource.updateCnt pIA
  started : CallsNotifier env this pRes resource pObserver → (freshNotified env this pRes pObserver).result = .ok →
    (freshNotified env this pRes pObserver).resp.code < respErrorBadRequest → ∀ key earlier,
      key.covers (some pRes) pObserver.ifID pObserver.ep pObserver.token = true →
        (received key this.log).head? = some earlier → Older earlier (observeNumber resource.updateCnt)

/-- This holds in every turn of the loop. -/
def LoopPasses (env : Env) (pRes : Nat) (resource : CoapResource) : CoapServer → List CoapObserver → Prop
  | _, [] => True
  | this, pObserver :: rest =>
    TurnPasses env this pRes resource pObserver ∧
      ((this.notifyObserver env pRes resource pObserver).1 = true →
        LoopPasses env pRes resource (this.notifyObserver env pRes resource pObserver).2 rest)

section
variable {env : Env} {this after : CoapServer} {pIA : CoapInteraction} {pRes : Nat} {resource : CoapResource}
  {pObserver : CoapObserver}

/-- A pending notification is flagged. -/
theorem Serial.flagged (serial : Serial this) (member : pIA ∈ this.pInteractions) (role : pIA.role = .notification)
    (passed : ∀ pRes resource, pIA.pRes = some pRes → this.resources[pRes]? = some resource →
      Passed this resource.updateCnt pIA) :
    Serial (this.storeInteraction { pIA with updatePendingNotification := true }) := by
  obtain ⟨msg, response, few⟩ := serial.message pIA member role
  have link : SameLink pIA { pIA with updatePendingNotification := true } := ⟨rfl, rfl, rfl, rfl, rfl, rfl⟩
  apply serial.turn member role link response few (fun _ => mem_stored)
    (storeInteraction_places this { pIA with updatePendingNotification := true }) (fun _ _ => rfl) serial.increasing
  intro key resource found covered
  have ordered := serial.ordered pIA member role key msg resource response found covered
  refine ⟨ordered.unsent, fun _ earlier last => ?_⟩
  exact passed key.pRes resource (Observation.covers_iff.mp covered).1 found key msg earlier response covered last

/-- A notification is started for an observer that has none. -/
theorem Serial.started {resp : CoapMessage} {available : Bool} (serial : Serial this)
    (free : ∀ pIA ∈ this.pInteractions, pIA.notifies pRes pObserver = false) (token : resp.token64 = pObserver.token)
    (options : observeOptions resp = if available then [⟨optNumObserve, observeBytes resource.updateCnt⟩] else [])
    (passed : ∀ key earlier, key.covers (some pRes) pObserver.ifID pObserver.ep pObserver.token = true →
      (received key this.log).head? = some earlier → Older earlier (observeNumber resource.updateCnt)) :
    Serial (this.startInteraction (.notifying pRes pObserver resp)) where
  message := by
    intro other member role
    cases List.mem_append.mp member with
    | inl earlier => exact serial.message other earlier role
    | inr last =>
      rw [List.mem_singleton.mp last]
      exact ⟨resp, rfl, few_of_options options⟩
  ordered := by
    intro other member role key msg found response listed covered
    cases List.mem_append.mp member with
    | inl earlier => exact serial.ordered other earlier role key msg found response listed covered
    | inr last =>
      rw [List.mem_singleton.mp last] at response covered ⊢
      cases response
      refine ⟨fun _ earlier value before own => ?_, fun outdated => by cases outdated⟩
      rw [number_of_options options own]
      rw [token] at covered
      exact passed key earlier covered before
  plain := by
    intro other member role
    cases List.mem_append.mp member with
    | inl earlier => exact serial.plain other earlier role
    | inr last =>
      rw [List.mem_singleton.mp last] at role
      cases role
  single := by
    -- the new notification is the only one of its observation because none was pending
    have others : ∀ pIA ∈ this.pInteractions, ¬ (pIA.role = .notification ∧ pIA.pRes = some pRes ∧
        pIA.ifID = pObserver.ifID ∧ epAreEqual pIA.remoteEp pObserver.ep = true) := by
      intro pIA member same
      have none := free pIA member
      simp [CoapInteraction.notifies, same] at none
    intro one member two memberToo same
    cases List.mem_append.mp member with
    | inl earlier =>
      cases List.mem_append.mp memberToo with
      | inl earlierToo => exact serial.single one earlier two earlierToo same
      | inr last =>
        rw [List.mem_singleton.mp last] at same
        exact absurd ⟨same.role, same.pRes, same.ifID, same.remoteEp⟩ (others one earlier)
    | inr last =>
      cases List.mem_append.mp memberToo with
      | inl earlierToo =>
        rw [List.mem_singleton.mp last] at same
        exact absurd ⟨same.too, same.pRes.symm, same.ifID.symm, epAreEqual_symm same.remoteEp⟩ (others two earlierToo)
      | inr lastToo => rw [List.mem_singleton.mp last, List.mem_singleton.mp lastToo]
  increasing := serial.increasing

/-- One turn of the loop. -/
theorem Notifies.serial {next : Bool × CoapServer} (leaves : LeavesObserve env) (serial : Serial this)
    (notifies : Notifies env this pRes resource pObserver next) (passes : TurnPasses env this pRes resource pObserver)
    (counter : ∀ current, this.resources[pRes]? = some current → current.updateCnt = resource.updateCnt) :
    Serial next.2 ∧ ∀ current, next.2.resources[pRes]? = some current → current.updateCnt = resource.updateCnt := by
  have kept : ∀ {after : CoapServer}, Still this after →
      ∀ current, after.resources[pRes]? = some current → current.updateCnt = resource.updateCnt := by
    intro after still current found
    have same := still.counters pRes
    rw [found, Option.map_some] at same
    obtain ⟨older, foundToo, count⟩ := Option.map_eq_some_iff.mp same.symm
    rw [← count]
    exact counter older foundToo
  cases notifies with
  | @pending pIA member notifies =>
    refine ⟨?_, counter⟩
    have fields := notifies
    simp only [CoapInteraction.notifies, Bool.and_eq_true, decide_eq_true_eq] at fields
    obtain ⟨⟨⟨role, asked⟩, _⟩, _⟩ := fields
    apply serial.flagged member role
    intro other current sameRes found
    obtain rfl : pRes = other := Option.some.inj (asked.symm.trans sameRes)
    rw [counter current found]
    exact passes.pending pIA member notifies
  -- nothing is started; clients may be, and they bring no value
  | nothing _ asked => exact ⟨serial.still asked.still, kept asked.still⟩
  | rejected calls result code =>
    have still := (freshCalled_asked : Asked this (freshCalled env this pRes pObserver)).still.trans
      (removeInteractionsObserver_still (.notifying pRes pObserver (freshNotified env this pRes pObserver).resp)
        (freshNotified env this pRes pObserver).resp.token64)
    exact ⟨serial.still still, kept still⟩
  | @started available after calls result code same =>
    have asked : Asked this after := freshCalled_asked.trans (.silent same)
    refine ⟨?_, fun current found => kept asked.still current found⟩
    have plain : observeOptions (freshNotified env this pRes pObserver).resp = [] :=
      leaves.notifier ..
    have token : (freshNotified env this pRes pObserver).resp.token64 = pObserver.token := leaves.token ..
    apply Serial.started (serial.still asked.still)
    · intro pIA member
      obtain ⟨new, list, clients⟩ := asked.list
      rw [list] at member
      cases List.mem_append.mp member with
      | inl earlier => exact calls.free pIA earlier
      | inr last => simp [CoapInteraction.notifies, (clients pIA last).1]
    · unfold completed
      simp only
      split
      next => exact token
      next => exact token
    · have added := observeOptions_add available plain resource.updateCnt
      unfold completed
      simp only
      split
      next => exact added
      next => exact added
    · intro key earlier covered last
      rw [asked.still.received] at last
      exact passes.started calls result code key earlier covered last

/-- Induction on the observers that are still to be notified. -/
theorem notifyLoop_serial (leaves : LeavesObserve env) (observers : List CoapObserver) {this : CoapServer}
    (serial : Serial this) (passes : LoopPasses env pRes resource this observers)
    (counter : ∀ current, this.resources[pRes]? = some current → current.updateCnt = resource.updateCnt) :
    Serial (notifyLoop env pRes resource this observers) := by
  induction observers generalizing this with
  | nil => exact serial
  | cons pObserver rest inductionHypothesis =>
    obtain ⟨turn, passes⟩ := passes
    obtain ⟨notified, same⟩ :=
      (notifyObserver_notifies env this pRes resource pObserver).serial leaves serial turn counter
    rw [notifyLoop]
    split
    next after stops =>
      rw [stops] at notified
      exact notified
    next after goesOn =>
      rw [goesOn] at notified same passes
      exact inductionHypothesis notified (passes rfl) same

end

/-! ## Calls of user code -/

/-- The counter as a call leaves it is newer than what the clients have. -/
def CallPasses (env : Env) (this : CoapServer) : Call → Prop
  | .notify pRes => ∀ resource, (this.counted pRes).resources[pRes]? = some resource →
      (∀ pIA ∈ this.pInteractions, pIA.role = .notification → pIA.pRes = some pRes →
        pIA.updatePendingNotification = true → Passed this resource.updateCnt pIA) ∧
      LoopPasses env pRes resource (this.counted pRes) resource.observers
  | .request _ => True

/-- So it is in each of several. -/
def CallsPass (env : Env) : CoapServer → List Call → Prop
  | _, [] => True
  | this, request :: rest => CallPasses env this request ∧ CallsPass env (this.call env request) rest

section
variable {env : Env} {this after : CoapServer}

/-- The counter of a resource goes up. -/
theorem Serial.counted (serial : Serial this) (pRes : Nat)
    (passed : ∀ resource, (this.counted pRes).resources[pRes]? = some resource → ∀ pIA ∈ this.pInteractions,
      pIA.role = .notification → pIA.pRes = some pRes → pIA.updatePendingNotification = true →
        Passed this resource.updateCnt pIA) : Serial (this.counted pRes) where
  message := serial.message
  ordered := by
    intro pIA member role key msg resource response found covered
    have asked := (Observation.covers_iff.mp covered).1
    obtain ⟨current, listed⟩ : ∃ current, this.resources[key.pRes]? = some current := by
      rw [CoapServer.counted, modifyResource, List.getElem?_modify, Option.map_eq_map, Option.map_eq_some_iff] at found
      exact ⟨_, found.choose_spec.1⟩
    have ordered := serial.ordered pIA member role key msg current response listed covered
    refine ⟨ordered.unsent, fun outdated earlier last => ?_⟩
    by_cases same : pRes = key.pRes
    · subst same
      exact passed resource found pIA member role asked outdated key msg earlier response covered last
    · simp only [CoapServer.counted, modifyResource, List.getElem?_modify, listed, if_neg same, Option.map_eq_map,
        Option.map_some, Option.some.injEq] at found
      subst found
      exact ordered.outdated outdated earlier last
  plain := serial.plain
  single := serial.single
  increasing := serial.increasing

theorem call_serial (leaves : LeavesObserve env) {request : Call} (serial : Serial this)
    (passes : CallPasses env this request) : Serial (this.call env request) := by
  cases request with
  | notify pRes =>
    have counted := serial.counted pRes fun resource found => (passes resource found).1
    show Serial ((this.counted pRes).startNotifyInteractions env pRes)
    unfold startNotifyInteractions
    split
    next => exact counted
    next resource found =>
      apply notifyLoop_serial leaves resource.observers counted (passes resource found).2
      intro current listed
      rw [Option.some.inj (found.symm.trans listed)]
  | request request => exact serial.still (perform_asked this request).still

theorem calls_serial (leaves : LeavesObserve env) (requests : List Call) {this : CoapServer} (serial : Serial this)
    (passes : CallsPass env this requests) : Serial (requests.foldl (call env) this) := by
  induction requests generalizing this with
  | nil => exact serial
  | cons request rest inductionHypothesis => exact inductionHypothesis (call_serial leaves serial passes.1) passes.2

end

/-! ## The turn of a request -/

/-- The calls of the handler pass, and a registration that is answered finds no notification under way that is
not newer than the response. -/
structure HandlerPasses (env : Env) (this : CoapServer) (pIA : CoapInteraction) (pRes : Nat) (req : CoapMessage) :
    Prop where
  calls : CallsPass env (handlerBegun env this pIA req) (handlerOutcome env this pIA pRes req).calls
  registration : ∀ origin, pIA.origin = some origin → (handlerOutcome env this pIA pRes req).result ≠ .postpone →
    req.code = reqGet →
    let resp := completeCode (handlerOutcome env this pIA pRes req).result (handlerOutcome env this pIA pRes req).resp
    resp.code = respSuccessContent →
      let before := (beforeObservation env (handlerCalled env this pIA pRes req) pIA req resp).2
      (before.handleObservationInReq env pIA pRes req origin).1 = .ok →
        ∀ key, key.covers pIA.pRes pIA.ifID pIA.remoteEp resp.token64 = true → Answered before key

section
variable {env : Env} {now : UInt32} {this after : CoapServer} {pIA : CoapInteraction} {pRes : Nat}
  {req resp : CoapMessage}

theorem Observes.still {observed : CoapServer} (observes : Observes pIA this observed) : Still this observed := by
  cases observes with
  | nothing same => exact same.still
  | registered _ _ middle same changed =>
    rw [changed]
    exact same.still.trans (modifyResource_still fun _ => rfl)
  | removed token _ changed =>
    rw [changed]
    exact removeInteractionsObserver_still pIA token
  | aborted token _ _ _ changed =>
    rw [changed]
    exact (removeInteractionsObserver_still pIA token).trans (deleteInteraction_still _)

/-- What a client has before a registration, it has not behind it. -/
theorem Answered.still {key : Observation} (answered : Answered this key) (still : Still this after) : Answered after key := by
  intro other member role msg resource response listed covered
  obtain ⟨older, earlier, same⟩ := (still.among other member).notification role
  obtain ⟨msgToo, found, token, options⟩ := same.msg response
  have counter := still.counters key.pRes
  rw [listed, Option.map_some] at counter
  obtain ⟨current, listedToo, count⟩ := Option.map_eq_some_iff.mp counter.symm
  rw [same.pRes, same.ifID, same.remoteEp, ← token] at covered
  rw [← count]
  exact same.ordered options (answered older earlier (same.role ▸ role) msgToo current found listedToo covered)

/-- The response to a registration. -/
theorem Serial.replied {available : Bool} (serial : Serial this) (role : pIA.role = .server) (state : Unanswered pIA)
    (response : pIA.pRespMsg = some resp)
    (options : observeOptions resp = if available then [⟨optNumObserve, observeBytes 0⟩] else [])
    (answered : available = true → ∀ key, key.covers pIA.pRes pIA.ifID pIA.remoteEp resp.token64 = true →
      Answered this key)
    (sent : this.sendResp env now pIA .responseSent = some after) : Serial after := by
  cases available with
  | false => exact serial.still (sendResp_still role response options sent)
  | true =>
    cases sendResp_places response sent with
    | inl deleted => exact serial.still (deleted.still known_erased fun _ => rfl)
    | inr placed =>
      obtain ⟨_, sameRole, sameState, _⟩ := responded_fields now pIA resp .responseSent
      have complete : Plain (responded now pIA resp .responseSent) := by
        intro unanswered
        rw [Unanswered, sameState] at unanswered
        simp at unanswered
      apply serial.renewed (fun _ => by rw [placed.resources])
      -- a first value, for an observation that had none
      · rw [placed.pInteractions]
        exact known_enqueued (.server (sameRole.trans role) complete)
      · intro key
        rw [placed.log, List.singleton_append]
        by_cases covered : key.covers pIA.pRes pIA.ifID pIA.remoteEp resp.token64 = true
        · have unsent : pIA.state ≠ .responseSent ∧ pIA.state ≠ .notificationSent := by
            cases state with
            | inl first => simp [first]
            | inr postponed => simp [postponed]
          have brought : brings key this.log (sending now pIA resp) = some 0 := by
            rw [brings_new now (by simp [role]) covered unsent, getObserveOptionFromMsg_number options]
            rfl
          have isResponse : Effect.isResponse (sending now pIA resp) = true := by
            simp [Effect.isResponse, sending, role]
          refine .inr ⟨?_, answered rfl key covered⟩
          rw [received, brought]
          simp only [isResponse, if_true]
        · refine .inl (received_none ?_)
          cases brought : brings key this.log (sending now pIA resp) with
          | none => rfl
          | some value => exact absurd (brings_some brought).1 covered

theorem setRespType_fields : (this.setRespType pIA req resp).1.options = resp.options ∧
    (this.setRespType pIA req resp).1.token64 = resp.token64 := by
  unfold setRespType
  split
  next =>
    split
    next => exact ⟨rfl, rfl⟩
    next => exact ⟨rfl, rfl⟩
  next => exact ⟨rfl, rfl⟩

theorem setRespType_asked : Asked this (this.setRespType pIA req resp).2 := by
  unfold setRespType
  split
  next =>
    split
    next => exact .nextMid this
    next => exact .refl this
  next => exact .refl this

theorem addPathOption_plain {metaInfo : MetaInfo} (plain : observeOptions resp = []) :
    observeOptions (this.addPathOption env metaInfo resp).1 = [] := by
  cases metaInfo with
  | none => exact plain
  | rfPath hopCount rssi => exact observeOptions_append _ plain (by simp [optNumPath, optNumObserve])

/-- The option that acknowledges a registration is the only one. -/
theorem addObservation_options (env : Env) (this : CoapServer) (role : pIA.role = .server) (asked : pIA.pRes = some pRes)
    (request : pIA.pReqMsg = some req) (plain : observeOptions resp = []) :
    Still this (this.addObservation env pIA pRes req resp).2 ∧
      (this.addObservation env pIA pRes req resp).1.token64 = resp.token64 ∧
      ∃ available : Bool, observeOptions (this.addObservation env pIA pRes req resp).1 =
          (if available then [⟨optNumObserve, observeBytes 0⟩] else []) ∧
        (available = true → ∃ origin, pIA.origin = some origin ∧ req.code = reqGet ∧ resp.code = respSuccessContent ∧
          (this.handleObservationInReq env pIA pRes req origin).1 = .ok) := by
  obtain ⟨observed, observes, same, keeps⟩ := addObservation_observes env this resp role asked request pIA.pRespMsg
  refine ⟨observes.still.trans same.still, keeps.token64, ?_⟩
  unfold addObservation
  split
  next => exact ⟨false, plain, nofun⟩
  next origin packet =>
    split
    next content =>
      split
      next after ok =>
        exact ⟨_, observeOptions_add _ plain 0, fun _ => ⟨origin, packet, content.1, content.2, congrArg Prod.fst ok⟩⟩
      next => exact ⟨false, plain, nofun⟩
    next => exact ⟨false, plain, nofun⟩

theorem respond_serial (serial : Serial this) (role : pIA.role = .server) (state : Unanswered pIA)
    (asked : pIA.pRes = some pRes) (request : pIA.pReqMsg = some req) (plain : observeOptions resp = [])
    (registration : ∀ origin, pIA.origin = some origin → req.code = reqGet → resp.code = respSuccessContent →
      ((beforeObservation env this pIA req resp).2.handleObservationInReq env pIA pRes req origin).1 = .ok →
        ∀ key, key.covers pIA.pRes pIA.ifID pIA.remoteEp resp.token64 = true →
          Answered (beforeObservation env this pIA req resp).2 key)
    (worked : this.respond env now pIA pRes req resp = some after) : Serial after := by
  obtain ⟨path, pathKeeps⟩ := addPathOption_silent env (this.setRespType pIA req resp).2 pIA.reqMetaInfo
    (this.setRespType pIA req resp).1
  have code : (beforeObservation env this pIA req resp).1.code = resp.code := pathKeeps.code.trans setRespType_code
  have token : (beforeObservation env this pIA req resp).1.token64 = resp.token64 :=
    pathKeeps.token64.trans setRespType_fields.2
  have typed : observeOptions (this.setRespType pIA req resp).1 = [] := by
    rw [observeOptions, setRespType_fields.1]
    exact plain
  have plainThen : observeOptions (beforeObservation env this pIA req resp).1 = [] := addPathOption_plain typed
  have serialThen : Serial (beforeObservation env this pIA req resp).2 :=
    serial.still (setRespType_asked.still.trans path.still)
  have sent : ((beforeObservation env this pIA req resp).2.addObservation env pIA pRes req
      (beforeObservation env this pIA req resp).1).2.sendResp env now { pIA with
        pRespMsg := some ((beforeObservation env this pIA req resp).2.addObservation env pIA pRes req
          (beforeObservation env this pIA req resp).1).1 } .responseSent = some after := worked
  -- the message that is sent, with the option if the observer was registered
  generalize beforeObservation env this pIA req resp = before at *
  obtain ⟨still, tokenToo, available, options, registered⟩ :=
    addObservation_options env before.2 role asked request plainThen
  refine Serial.replied (serialThen.still still) ?_ ?_ rfl options ?_ sent
  · exact role
  · exact state
  intro made key covered
  obtain ⟨origin, packet, get, content, ok⟩ := registered made
  rw [tokenToo, token] at covered
  exact (registration origin packet get (code ▸ content) ok key covered).still still

theorem allocRespMsg_plain {code : UInt8} {payloadMaxSize : Nat}
    (made : (this.allocRespMsg env req code payloadMaxSize).1 = some resp) : observeOptions resp = [] := by
  have created : ∀ (type : MessageType) (middle : CoapServer) (messageID : Nat) (token : UInt64),
      (middle.createMessage env type code messageID payloadMaxSize token).1 = some resp → observeOptions resp = [] := by
    intro type middle messageID token made
    unfold createMessage memGet at made
    cases available : env.alloc middle.allocs with
    | false => simp [available] at made
    | true =>
      simp only [available, Option.some.injEq] at made
      subst made
      rfl
  unfold allocRespMsg at made
  split at made
  next => exact created _ _ _ _ made
  next => exact created _ _ _ _ made

theorem allocRespMsg_asked (code : UInt8) (payloadMaxSize : Nat) :
    Asked this (this.allocRespMsg env req code payloadMaxSize).2 := by
  unfold allocRespMsg
  split
  next => exact .silent (createMessage_silent ..)
  next => exact (Asked.nextMid this).trans (.silent (createMessage_silent ..))

/-- What a handler is given and what it leaves have no Observe option. -/
theorem handlerOutcome_plain (leaves : LeavesObserve env) (plain : Plain pIA) (state : Unanswered pIA)
    (made : (handlerGiven env this pIA req).1.map (fun _ => (handlerOutcome env this pIA pRes req).resp) = some resp) :
    observeOptions resp = [] := by
  obtain ⟨given, offered, rfl⟩ := Option.map_eq_some_iff.mp made
  have none : observeOptions given = [] := by
    unfold handlerGiven at offered
    split at offered
    next earlier response =>
      cases offered
      exact plain state given response
    next => exact allocRespMsg_plain offered
  unfold handlerOutcome
  rw [offered]
  exact leaves.handler _ pRes req given none

theorem completeCode_options (result : HandlerResult) : (completeCode result resp).options = resp.options := by
  unfold completeCode
  split
  next => rfl
  next =>
    split
    next => rfl
    next => rfl

theorem postpone_serial {offered : Option CoapMessage} (serial : Serial this) (role : pIA.role = .server)
    (state : Unanswered pIA) (asked : pIA.pRes = some pRes) (request : pIA.pReqMsg = some req)
    (plain : ∀ msg, offered = some msg → observeOptions msg = [])
    (worked : this.postpone env now pIA pRes req offered = some after) : Serial after := by
  have ack : Still this (this.sendEmptyAck env now { pIA with pRespMsg := offered } req.messageID).2 :=
    sendEmptyAck_still ..
  simp only [postpone] at worked
  split at worked
  next =>
    split at worked
    next middle acked =>
      cases worked
      rw [acked] at ack
      exact serial.still (ack.trans (enqueueLastInteraction_still (.server role fun _ => plain)))
    next middle failed =>
      cases worked
      rw [failed] at ack
      exact serial.still (ack.trans (deleteInteraction_still _))
  next =>
    split at worked
    next =>
      obtain ⟨resp, made, sent⟩ := Option.bind_eq_some_iff.mp worked
      refine respond_serial serial ?_ ?_ ?_ ?_ ?_ ?_ sent
      · exact role
      · exact state
      · exact asked
      · exact request
      · exact plain resp made
      · intro _ _ _ content
        cases content
    next =>
      cases worked
      exact serial.still (enqueueLastInteraction_still (.server role fun _ => plain))

theorem handleRequest_serial (leaves : LeavesObserve env) (serial : Serial this) (member : pIA ∈ this.pInteractions)
    (role : pIA.role = .server) (state : Unanswered pIA)
    (passes : ∀ req pRes resource, pIA.pReqMsg = some req → pIA.pRes = some pRes → this.resources[pRes]? = some resource →
      methodNotAllowed req.code resource.flags = false → HandlerPasses env this pIA pRes req)
    (worked : this.handleRequest env now pIA = some after) : Serial after := by
  obtain ⟨req, pRes, resource, request, asked, found⟩ := handleRequest_asked worked
  rw [handleRequest_eq request asked found] at worked
  split at worked
  next =>
    have allocated : Asked this (this.allocRespMsg env req respMethodNotAllowed 0).2 :=
      allocRespMsg_asked respMethodNotAllowed 0
    have taken := worked
    obtain ⟨resp, response, _⟩ := Option.bind_eq_some_iff.mp taken
    refine (serial.still allocated.still).still (sendResp_still ?_ response (allocRespMsg_plain response) worked)
    exact role
  next allowed =>
    have handles := passes req pRes resource request asked found (Bool.eq_false_iff.mpr allowed)
    have begun : Still this (handlerBegun env this pIA req) := by
      have given : Asked this (handlerGiven env this pIA req).2 := by
        unfold handlerGiven
        split
        next => exact .refl this
        next => exact allocRespMsg_asked empty preferedPayloadSize
      exact given.still.trans ⟨fun _ => rfl, fun _ member => .listed member, fun _ => received_none rfl⟩
    have called : Serial (handlerCalled env this pIA pRes req) :=
      calls_serial leaves _ (serial.still begun) handles.calls
    have plain : ∀ resp, (handlerGiven env this pIA req).1.map (fun _ => (handlerOutcome env this pIA pRes req).resp) =
        some resp → observeOptions resp = [] :=
      fun _ => handlerOutcome_plain leaves (serial.plain pIA member role) state
    split at worked
    next => exact postpone_serial called role state asked request plain worked
    next final =>
      obtain ⟨resp, made, sent⟩ := Option.bind_eq_some_iff.mp worked
      have none := plain resp made
      obtain ⟨_, _, rfl⟩ := Option.map_eq_some_iff.mp made
      apply respond_serial called role state asked request _ _ sent
      · rw [observeOptions, completeCode_options]
        exact none
      · exact fun origin packet get content => handles.registration origin packet final get content

end

/-! ## Runs -/

/-- User code that runs in the turn of an interaction passes, and so does the registration that it answers. -/
def WorkPasses (env : Env) (this : CoapServer) (pIA : CoapInteraction) : Prop :=
  match pIA.role with
  | .server => Unanswered pIA → ∀ req pRes resource, pIA.pReqMsg = some req → pIA.pRes = some pRes →
      this.resources[pRes]? = some resource → methodNotAllowed req.code resource.flags = false →
        HandlerPasses env this pIA pRes req
  | .notification => True
  | .client => pIA.state = .handleResponse → pIA.respCB = true → ∀ resp, pIA.pRespMsg = some resp →
      CallsPass env { this with callbacks := this.callbacks + 1 } (env.respCB this.callbacks resp pIA.remoteEp)

/-- The condition on a step. -/
def CounterPasses (env : Env) (this : CoapServer) : Event → Prop
  | .packet _ _ => True
  | .doWork now => ∀ pIA rest, this.pInteractions = pIA :: rest → pIA.sleepUntil ≤ now → WorkPasses env this pIA
  | .call request => CallPasses env this request

section
variable {env : Env} {now : UInt32} {resources : List CoapResource} {this after : CoapServer} {pIA : CoapInteraction}

theorem work_serial (leaves : LeavesObserve env) (serial : Serial this) (numbered : Numbered this)
    (member : pIA ∈ this.pInteractions) (staged : Staged pIA) (counted : Counted this.log pIA)
    (listed : pIA.role = .notification → ∀ pRes, pIA.pRes = some pRes → ∃ resource, this.resources[pRes]? = some resource)
    (passes : WorkPasses env this pIA) (worked : this.work env now pIA = some after) : Serial after := by
  have waits : ∀ {middle : CoapServer}, middle = this.enqueueLastInteraction pIA → Serial middle := by
    intro middle same
    rw [same]
    exact serial.still (enqueueLastInteraction_still (.listed member))
  have goes : ∀ {middle : CoapServer}, middle = this.deleteInteraction pIA.ref → Serial middle := by
    intro middle same
    rw [same]
    exact serial.still (deleteInteraction_still _)
  unfold WorkPasses at passes
  cases work_cases staged worked with
  | handlesRequest role unanswered done =>
    -- nothing was sent yet
    simp only [role] at passes
    exact handleRequest_serial leaves serial member role unanswered (passes unanswered) done
  | checksResponse role state done =>
    rcases checkResponse_cases done with same | ⟨_, again⟩ | same
    · exact waits same
    · obtain ⟨msg, own, last, _⟩ := counted.sent (.inl state)
      simp only [CoapInteraction.ownMsg, role] at own
      exact serial.still (retryResp_still member own last (.inl state) again)
    · exact goes same
  | notifies role state done => exact sendNotification_serial serial numbered member role state (listed role) done
  | checksNotification role state done =>
    exact checkNotification_serial leaves serial numbered member role state counted done
  | requests role state done => exact serial.still (sendReq_still role done)
  | checksRequest role state done =>
    rcases checkRequest_cases done with same | ⟨_, again⟩ | same
    · exact waits same
    · exact serial.still (retryReq_still role again)
    · exact goes same
  | handlesResponse role state done =>
    simp only [role] at passes
    rcases handleResponse_cases done with ⟨callback, resp, response, rfl⟩ | same
    · have called : Silent this { this with callbacks := this.callbacks + 1 } := ⟨rfl, rfl, rfl, rfl, rfl⟩
      exact (calls_serial leaves _ (serial.still called.still) (passes state callback resp response)).still
        (deleteInteraction_still _)
    · exact goes same

/-- One step. -/
theorem step_serial {event : Event} (leaves : LeavesObserve env) (reaches : Reaches env resources this) (serial : Serial this)
    (passes : CounterPasses env this event) (taken : step env this event = some after) : Serial after := by
  have holds := run_shaped reaches
  cases event with
  | packet pckt now =>
    cases taken
    exact serial.still (onNewPacketHandler_still env this now pckt)
  | doWork now =>
    rcases doWork_cases taken with ⟨_, rfl⟩ | ⟨pIA, rest, list, ⟨_, rfl⟩ | ⟨due, worked⟩⟩
    · exact serial
    · have member : pIA ∈ this.pInteractions := list ▸ List.mem_cons_self
      exact serial.still (enqueueLastInteraction_still (.listed member))
    · have member : pIA ∈ this.pInteractions := list ▸ List.mem_cons_self
      have shaped := holds.interactions pIA member
      have counted := ((counted_stable env resources).holds reaches).interactions pIA member
      apply work_serial leaves serial holds.numbered member shaped.staged counted _
        (passes pIA rest list (UInt32.not_lt.mp due)) worked
      intro role pRes asked
      obtain ⟨_, _, resource, _, askedToo, found, _⟩ := shaped.notifying role
      obtain rfl := Option.some.inj (asked.symm.trans askedToo)
      obtain ⟨current, foundToo, _⟩ := layout_getElem? holds.layouts found
      exact ⟨current, foundToo⟩
  | call request =>
    cases taken
    exact call_serial leaves serial passes

end

/-- In a run in which the counter passes what the clients have, each client gets the values of an observation in
the order of serial numbers. -/
theorem observe_values_increase (env : Env) (leaves : LeavesObserve env) (resources : List CoapResource) (this : CoapServer)
    (run : Transition.Run (step env) (CounterPasses env) (new resources) this) (key : Observation) :
    Increasing (received key this.log) := by
  have serial : Serial this := by
    induction run with
    | refl =>
      have nothing : ∀ pIA ∈ (new resources).pInteractions, False := fun _ member => List.not_mem_nil member
      exact ⟨fun pIA member => (nothing pIA member).elim, fun pIA member => (nothing pIA member).elim,
        fun pIA member => (nothing pIA member).elim, fun pIA member => (nothing pIA member).elim, fun _ => .nil⟩
    | next before event passes taken inductionHypothesis =>
      exact step_serial leaves (before.weaken fun _ _ _ => trivial) inductionHypothesis passes taken
  exact serial.increasing key

theorem idealEnv_leaves : LeavesObserve idealEnv where
  handler := fun _ _ _ _ plain => plain
  notifier := fun _ _ _ _ => rfl
  token := fun _ _ _ _ => rfl

/-- What a client has was the value of some message. -/
theorem received_mem {key : Observation} {log : List Effect} {value : Nat} (member : value ∈ received key log) :
    ∃ pIA origin ifID receiver msg, .sent (some pIA) origin ifID receiver msg ∈ log ∧
      getObserveOptionFromMsg msg = some value := by
  induction log with
  | nil => cases member
  | cons effect log inductionHypothesis =>
    have earlier : value ∈ received key log → ∃ pIA origin ifID receiver msg,
        .sent (some pIA) origin ifID receiver msg ∈ effect :: log ∧ getObserveOptionFromMsg msg = some value := by
      intro kept
      obtain ⟨pIA, origin, ifID, receiver, msg, listed, own⟩ := inductionHypothesis kept
      exact ⟨pIA, origin, ifID, receiver, msg, List.mem_cons_of_mem _ listed, own⟩
    cases brought : brings key log effect with
    | none =>
      rw [received_none brought] at member
      exact earlier member
    | some brings =>
      have own : value = brings → ∃ pIA origin ifID receiver msg,
          .sent (some pIA) origin ifID receiver msg ∈ effect :: log ∧ getObserveOptionFromMsg msg = some value := by
        intro same
        subst same
        unfold CoapServer.brings at brought
        split at brought
        next pIA origin ifID receiver msg =>
          rw [Option.ite_none_right_eq_some] at brought
          exact ⟨pIA, origin, ifID, receiver, msg, List.mem_cons_self, brought.2⟩
        next => cases brought
      simp only [received, brought] at member
      split at member
      next => exact own (List.mem_singleton.mp member)
      next =>
        cases List.mem_cons.mp member with
        | inl same => exact own same
        | inr kept => exact earlier kept

theorem workPasses_answered {env : Env} {this : CoapServer} {pIA : CoapInteraction}
    (answered : pIA.role = .server ∧ pIA.state = .responseSent ∨ pIA.role = .notification) : WorkPasses env this pIA := by
  unfold WorkPasses
  cases answered with
  | inl server =>
    simp only [server.1, Unanswered, server.2]
    intro unanswered
    simp at unanswered
  | inr notification => simp only [notification]

/-- Without notifications a registration passes none. -/
theorem handlerPasses_unobserved {this : CoapServer} (none : ∀ pIA ∈ this.pInteractions, pIA.role ≠ .notification)
    (pIA : CoapInteraction) (pRes : Nat) (req : CoapMessage) : HandlerPasses idealEnv this pIA pRes req where
  calls := trivial
  registration := by
    intro origin _ _ _ resp _ before _ key _ pending member role
    have begun : Settles this (handlerCalled idealEnv this pIA pRes req) :=
      handlerGiven_settles.trans (.sublist rfl fun _ member => member)
    have settles : Settles this before :=
      begun.trans (setRespType_settles.trans (addPathOption_silent ..).1.settles)
    obtain ⟨older, earlier, same⟩ := settles.among pending member role
    exact absurd (same.role ▸ role) (none older earlier)

/-- Roles and states of the interactions. -/
def stages (this : CoapServer) : List (InteractionRole × InteractionState) :=
  this.pInteractions.map fun pIA => (pIA.role, pIA.state)

/-- No message of an interaction had another value than 0. -/
def onlyZero (this : CoapServer) : Bool :=
  this.log.all fun
    | .sent (some _) _ _ _ msg => (getObserveOptionFromMsg msg).all fun value => value = 0
    | _ => true

/-- The first notification of a single observer is newer than 0. -/
theorem loopPasses_first {env : Env} {this : CoapServer} {pRes : Nat} {resource : CoapResource}
    {observers : List CoapObserver} (few : observers.length ≤ 1)
    (none : ∀ pIA ∈ this.pInteractions, pIA.role ≠ .notification) (zero : onlyZero this = true)
    (first : resource.updateCnt = 1) : LoopPasses env pRes resource this observers := by
  cases observers with
  | nil => trivial
  | cons pObserver rest =>
    cases rest with
    | cons => simp at few
    | nil =>
      refine ⟨⟨fun pIA member notifies => ?_, fun _ _ _ key earlier _ last => ?_⟩, fun _ => trivial⟩
      · simp only [CoapInteraction.notifies, Bool.and_eq_true, decide_eq_true_eq] at notifies
        exact absurd notifies.1.1.1 (none pIA member)
      · obtain ⟨pIA, origin, ifID, receiver, msg, listed, own⟩ := received_mem (List.mem_of_mem_head? last)
        have value := List.all_eq_true.mp zero _ listed
        simp only [own, Option.all_some, decide_eq_true_eq] at value
        rw [value, older_zero_iff, first]
        decide

/-- The first value that a client gets, and the first notification. -/
theorem sensor_values_increase : ∃ this : CoapServer, received ⟨0, 0, neighbour, 7⟩ this.log = [1, 0] ∧
    Increasing (received ⟨0, 0, neighbour, 7⟩ this.log) := by
  let first := (new [sensor]).onNewPacketHandler idealEnv 0 (datagram 0 observeSensor)
  have requested : stages first = [(.server, .handleRequest)] := by decide +kernel
  have worked : ((first.doWork idealEnv 0).bind fun second =>
      ((second.call idealEnv (.notify 0)).doWork idealEnv 1).bind fun fourth => (fourth.doWork idealEnv 1).map fun fifth =>
        decide ((second.resources.map fun resource => (resource.observers.length, resource.updateCnt)) = [(1, 0)]) &&
        decide (stages second = [(.server, .responseSent)]) && onlyZero second &&
        decide (stages (second.call idealEnv (.notify 0)) =
          [(.server, .responseSent), (.notification, .readyToNotify)]) &&
        decide (stages fourth = [(.notification, .readyToNotify)]) &&
        decide (received ⟨0, 0, neighbour, 7⟩ fifth.log = [1, 0])) = some true := by
    decide +kernel
  obtain ⟨second, taken, worked⟩ := Option.bind_eq_some_iff.mp worked
  obtain ⟨fourth, takenToo, worked⟩ := Option.bind_eq_some_iff.mp worked
  obtain ⟨fifth, takenLast, facts⟩ := Option.map_eq_some_iff.mp worked
  simp only [Bool.and_eq_true, decide_eq_true_eq] at facts
  obtain ⟨⟨⟨⟨⟨listed, pending⟩, zero⟩, notified⟩, last⟩, values⟩ := facts
  -- the first of the list, when it has no user code to run
  have answered : ∀ {this : CoapServer} {stage rest}, stages this = stage :: rest →
      stage = (.server, .responseSent) ∨ stage = (.notification, .readyToNotify) →
        CounterPasses idealEnv this (.doWork 1) := by
    intro this stage rest list stage pIA others found _
    rw [stages, found, List.map_cons, List.cons.injEq] at list
    rw [← list.1, Prod.mk.injEq, Prod.mk.injEq] at stage
    exact workPasses_answered (stage.imp id And.left)
  have unnotified : ∀ {this : CoapServer} {stage}, stages this = [(.server, stage)] →
      ∀ pIA ∈ this.pInteractions, pIA.role ≠ .notification := by
    intro this stage list pIA member
    have own := List.mem_map_of_mem (f := fun pIA : CoapInteraction => (pIA.role, pIA.state)) member
    rw [stages] at list
    rw [list, List.mem_singleton, Prod.mk.injEq] at own
    simp [own.1]
  have run : Transition.Run (step idealEnv) (CounterPasses idealEnv) (new [sensor]) fifth := by
    refine Transition.Run.next (Transition.Run.next (Transition.Run.next (Transition.Run.next (Transition.Run.next .refl
      (.packet (datagram 0 observeSensor) 0) trivial rfl) (.doWork 0) ?_ taken) (.call (.notify 0)) ?_ rfl)
      (.doWork 1) (answered notified (.inl rfl)) takenToo) (.doWork 1) (answered last (.inr rfl)) takenLast
    · intro pIA rest list _
      have none := unnotified requested
      unfold WorkPasses
      split
      next => exact fun _ req pRes _ _ _ _ _ => handlerPasses_unobserved none pIA pRes req
      next => trivial
      next => exact fun _ _ _ _ => trivial
    · intro resource found
      have none := unnotified pending
      obtain ⟨only, list, fields⟩ := List.map_eq_singleton_iff.mp listed
      rw [Prod.mk.injEq] at fields
      simp only [counted, modifyResource, list, List.modify_zero_cons, List.getElem?_cons_zero, Option.some.injEq] at found
      subst found
      refine ⟨fun pIA member role => absurd role (none pIA member), loopPasses_first fields.1.le none zero ?_⟩
      rw [fields.2]
      rfl
  exact ⟨fifth, values, observe_values_increase idealEnv idealEnv_leaves [sensor] fifth run ⟨0, 0, neighbour, 7⟩⟩

/-- The registration of another observation by the same endpoint, with message id 2. -/
def observeOther : List UInt8 := [0x41, 0x01, 0x00, 0x02, 0x08, 0x60, 0x51, 0x61]

/-- The acknowledgement of message id 1. -/
def acknowledgeFirst : List UInt8 := [0x60, 0x00, 0x00, 0x01]

/-- The turn of a second observer at the same endpoint takes the new notification of the first to be out of
date, and its value is sent twice. -/
theorem value_sent_twice : ¬ ∀ (env : Env) (resources : List CoapResource) (this : CoapServer), LeavesObserve env →
    Reaches env resources this → ∀ key, Increasing (received key this.log) := by
  intro increasing
  have reached : ([Event.packet (datagram 0 observeSensor) 0, .packet (datagram 0 observeOther) 0, .doWork 0, .doWork 0,
      .call (.notify 0), .doWork 1, .doWork 1, .doWork 1, .packet (datagram 0 acknowledgeFirst) 1, .doWork 1,
      .doWork 1].foldlM (step idealEnv) (new [sensor])).map (fun this => received ⟨0, 0, neighbour, 7⟩ this.log) =
      some [1, 1, 0] := by
    decide +kernel
  obtain ⟨this, taken, values⟩ := Option.map_eq_some_iff.mp reached
  have ordered := increasing idealEnv [sensor] this idealEnv_leaves (.of_events _ .refl taken) ⟨0, 0, neighbour, 7⟩
  rw [values] at ordered
  have equal := (List.isChain_cons.mp ordered).1 1 rfl
  simp [Older] at equal

end CoapServer

end SmingCoap.Server
