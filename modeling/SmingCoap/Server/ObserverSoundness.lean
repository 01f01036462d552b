import SmingCoap.Server.NotifierSteps
import SmingCoap.Server.RegistrySoundness

/-! # Notifications and their observers

A notification keeps the number of its observer.  There is one notification at
most for a resource, an interface and an endpoint, so a notification that is
given up takes its observer with it.  A registration and a deregistration look
at the token as well, and do not look at the notifications that refer to what
they take out.
-/

namespace SmingCoap.Server

namespace CoapServer

/-- The observer of a notification is in the list of its resource. -/
def Linked (resources : List CoapResource) (pIA : CoapInteraction) : Prop :=
  ∃ pRes resource pObserver, pIA.pRes = some pRes ∧ resources[pRes]? = some resource ∧
    pObserver ∈ resource.observers ∧ pIA.pObserver = some pObserver.ref ∧ pIA.ifID = pObserver.ifID ∧
    pIA.remoteEp = pObserver.ep

/-- Two notifications that `CoAP_StartNotifyInteractions` takes for the same. -/
structure SameNotification (pIA other : CoapInteraction) : Prop where
  role : pIA.role = .notification
  too : other.role = .notification
  pRes : pIA.pRes = other.pRes
  ifID : pIA.ifID = other.ifID
  remoteEp : epAreEqual pIA.remoteEp other.remoteEp = true

/-- Every notification is linked, and there are no two of the same. -/
structure AllLinked (this : CoapServer) : Prop where
  linked : ∀ pIA ∈ this.pInteractions, pIA.role = .notification → Linked this.resources pIA
  single : ∀ pIA ∈ this.pInteractions, ∀ other ∈ this.pInteractions, SameNotification pIA other → pIA.ref = other.ref

/-- What a link depends on. -/
structure SameLink (pIA other : CoapInteraction) : Prop where
  ref : other.ref = pIA.ref
  role : other.role = pIA.role
  pRes : other.pRes = pIA.pRes
  pObserver : other.pObserver = pIA.pObserver
  ifID : other.ifID = pIA.ifID
  remoteEp : other.remoteEp = pIA.remoteEp

/-- No observer goes, and each notification is one of before. -/
structure Settles (this after : CoapServer) : Prop where
  resources : after.resources = this.resources
  among : ∀ other ∈ after.pInteractions, other.role = .notification →
    ∃ pIA ∈ this.pInteractions, SameLink pIA other

section
variable {env : Env} {this middle after : CoapServer} {pIA other : CoapInteraction}

theorem SameLink.refl (pIA : CoapInteraction) : SameLink pIA pIA := ⟨rfl, rfl, rfl, rfl, rfl, rfl⟩

theorem SameLink.trans {between : CoapInteraction} (first : SameLink pIA between) (further : SameLink between other) :
    SameLink pIA other :=
  ⟨further.ref.trans first.ref, further.role.trans first.role, further.pRes.trans first.pRes,
    further.pObserver.trans first.pObserver, further.ifID.trans first.ifID, further.remoteEp.trans first.remoteEp⟩

theorem SameLink.linked {resources : List CoapResource} (same : SameLink pIA other) (linked : Linked resources pIA) :
    Linked resources other := by
  obtain ⟨pRes, resource, pObserver, asked, found, member, refers, ifID, ep⟩ := linked
  exact ⟨pRes, resource, pObserver, same.pRes.trans asked, found, member, same.pObserver.trans refers,
    same.ifID.trans ifID, same.remoteEp.trans ep⟩

theorem SameLink.sameNotification {one two : CoapInteraction} (first : SameLink pIA one) (second : SameLink other two)
    (same : SameNotification one two) : SameNotification pIA other where
  role := first.role ▸ same.role
  too := second.role ▸ same.too
  pRes := by rw [← first.pRes, ← second.pRes, same.pRes]
  ifID := by rw [← first.ifID, ← second.ifID, same.ifID]
  remoteEp := by rw [← first.remoteEp, ← second.remoteEp, same.remoteEp]

theorem Settles.trans (first : Settles this middle) (further : Settles middle after) : Settles this after where
  resources := further.resources.trans first.resources
  among := by
    intro other member role
    obtain ⟨between, memberToo, same⟩ := further.among other member role
    obtain ⟨pIA, earlier, sameToo⟩ := first.among between memberToo (same.role ▸ role)
    exact ⟨pIA, earlier, sameToo.trans same⟩

/-- Some interactions go. -/
theorem Settles.sublist (resources : after.resources = this.resources)
    (fewer : ∀ other ∈ after.pInteractions, other ∈ this.pInteractions) : Settles this after :=
  ⟨resources, fun other member _ => ⟨other, fewer other member, .refl other⟩⟩

theorem Settles.refl (this : CoapServer) : Settles this this := .sublist rfl fun _ member => member

theorem Silent.settles (same : Silent this after) : Settles this after :=
  .sublist same.resources (by simp [same.pInteractions])

theorem Asked.settles (asked : Asked this after) : Settles this after where
  resources := asked.resources
  among := by
    intro other member role
    obtain ⟨new, list, clients⟩ := asked.list
    rw [list] at member
    cases List.mem_append.mp member with
    | inl earlier => exact ⟨other, earlier, .refl other⟩
    | inr last => simp [(clients other last).1] at role

theorem deleteInteraction_settles (ref : Nat) : Settles this (this.deleteInteraction ref) :=
  .sublist rfl fun _ member => List.mem_of_mem_eraseP member

/-- The interaction of a turn may have changed, in what a link does not depend on. -/
theorem Settles.turn (resources : after.resources = this.resources)
    (own : pIA.role = .notification → ∃ older ∈ this.pInteractions, SameLink older pIA)
    (among : ∀ other ∈ after.pInteractions, other ∈ this.pInteractions ∨ SameLink pIA other) : Settles this after where
  resources := resources
  among := by
    intro other memberToo role
    cases among other memberToo with
    | inl kept => exact ⟨other, kept, .refl other⟩
    | inr same =>
      obtain ⟨older, member, link⟩ := own (same.role ▸ role)
      exact ⟨older, member, link.trans same⟩

/-- Nothing that matters here has changed. -/
theorem AllLinked.settles (all : AllLinked this) (settles : Settles this after) : AllLinked after where
  linked := by
    intro other member role
    obtain ⟨pIA, earlier, same⟩ := settles.among other member role
    rw [settles.resources]
    exact same.linked (all.linked pIA earlier (same.role ▸ role))
  single := by
    intro one member two memberToo same
    obtain ⟨pIA, earlier, first⟩ := settles.among one member same.role
    obtain ⟨other, earlierToo, second⟩ := settles.among two memberToo same.too
    rw [first.ref, second.ref]
    exact all.single pIA earlier other earlierToo (first.sameNotification second same)

end

/-! ## The ends of a turn -/

section
variable {env : Env} {now : UInt32} {this after : CoapServer} {pIA worked : CoapInteraction}

theorem responded_link (now : UInt32) (pIA : CoapInteraction) (resp : CoapMessage) (next : InteractionState) :
    SameLink pIA (responded now pIA resp next) := by
  unfold responded
  cases resp.type with
  | _ => exact ⟨rfl, rfl, rfl, rfl, rfl, rfl⟩

theorem requested_link (now : UInt32) (pIA : CoapInteraction) (req : CoapMessage) :
    SameLink pIA (requested now pIA req) := by
  unfold requested
  simp only
  split
  next => exact ⟨rfl, rfl, rfl, rfl, rfl, rfl⟩
  next => exact ⟨rfl, rfl, rfl, rfl, rfl, rfl⟩

/-- The interaction of a turn is deleted. -/
theorem Places.deleted {effects : List Effect} {ref : Nat}
    (placed : Places this after effects (this.pInteractions.eraseP fun other => other.ref = ref)) :
    Settles this after := by
  apply Settles.sublist placed.resources
  rw [placed.pInteractions]
  exact fun _ member => List.mem_of_mem_eraseP member

section
variable (own : pIA.role = .notification → ∃ older ∈ this.pInteractions, SameLink older pIA)
include own

/-- It moves to the end of the list. -/
theorem Places.enqueued {effects : List Effect} {ref : Nat} (same : SameLink pIA worked)
    (placed : Places this after effects ((this.pInteractions.eraseP fun other => other.ref = ref) ++ [worked])) :
    Settles this after := by
  apply Settles.turn placed.resources own
  intro other member
  rw [placed.pInteractions] at member
  cases List.mem_append.mp member with
  | inl kept => exact .inl (List.mem_of_mem_eraseP kept)
  | inr last =>
    rw [List.mem_singleton.mp last]
    exact .inr same

/-- It stays where it is. -/
theorem Places.stored {effects : List Effect} (same : SameLink pIA worked)
    (placed : Places this after effects
      (this.pInteractions.map fun other => if other.ref = worked.ref then worked else other)) : Settles this after := by
  apply Settles.turn placed.resources own
  intro other member
  rw [placed.pInteractions] at member
  cases mem_stored member with
  | inl stored =>
    subst stored
    exact .inr same
  | inr kept => exact .inl kept.1

theorem enqueueLastInteraction_settles (same : SameLink pIA worked) :
    Settles this (this.enqueueLastInteraction worked) := by
  have placed : Places this (this.enqueueLastInteraction worked) []
      ((this.pInteractions.eraseP fun other => other.ref = worked.ref) ++ [worked]) := ⟨rfl, rfl, rfl, rfl⟩
  exact placed.enqueued own same

theorem storeInteraction_settles (same : SameLink pIA worked) : Settles this (this.storeInteraction worked) :=
  (storeInteraction_places this worked).stored own same

theorem sendResp_settles {next : InteractionState} (sent : this.sendResp env now pIA next = some after) :
    Settles this after := by
  have taken := sent
  obtain ⟨resp, response, _⟩ := Option.bind_eq_some_iff.mp taken
  cases sendResp_places response sent with
  | inl deleted => exact deleted.deleted
  | inr placed => exact placed.enqueued own (responded_link now pIA resp next)

theorem retryResp_settles (sent : this.retryResp env now pIA = some after) : Settles this after := by
  have taken := sent
  obtain ⟨resp, response, _⟩ := Option.bind_eq_some_iff.mp taken
  cases retryResp_places response sent with
  | inl deleted => exact deleted.deleted
  | inr placed =>
    have link : SameLink pIA (repeated now pIA resp) := ⟨rfl, rfl, rfl, rfl, rfl, rfl⟩
    exact placed.stored own link

theorem sendReq_settles (sent : this.sendReq env now pIA .waitingResponse = some after) : Settles this after := by
  have taken := sent
  obtain ⟨req, request, _⟩ := Option.bind_eq_some_iff.mp taken
  cases sendReq_places request sent with
  | inl deleted => exact deleted.deleted
  | inr placed => exact placed.enqueued own (requested_link now pIA req)

theorem retryReq_settles (sent : this.retryReq env now pIA = some after) : Settles this after := by
  have taken := sent
  obtain ⟨req, request, _⟩ := Option.bind_eq_some_iff.mp taken
  cases retryReq_places request sent with
  | inl deleted => exact deleted.deleted
  | inr placed =>
    have link : SameLink pIA (requestedAgain now pIA req) := ⟨rfl, rfl, rfl, rfl, rfl, rfl⟩
    exact placed.stored own link

end

end

/-! ## Packets -/

theorem marked_link (pIA : CoapInteraction) (state : ReliabilityState) : SameLink pIA (marked pIA state) := by
  obtain ⟨ref, role, _, pRes, _, _, remoteEp, ifID, _⟩ := marked_fields pIA state
  have pObserver : (marked pIA state).pObserver = pIA.pObserver := by
    unfold marked
    split
    next => rfl
    next => rfl
  exact ⟨ref, role, pRes, pObserver, ifID, remoteEp⟩

section
variable {env : Env} {now : UInt32} {this after : CoapServer} {pIA worked : CoapInteraction}

theorem Touches.link {pckt : NetPacket} {msg : CoapMessage} (touches : Touches this pckt msg pIA worked)
    (role : worked.role = .notification) : SameLink pIA worked := by
  have sameRole := touches.identity.2.1
  cases touches with
  | reset => exact marked_link pIA .rstSet
  | acknowledged => exact marked_link pIA .ackSet
  | piggybacked _ _ _ client =>
    rw [client, role] at sameRole
    cases sameRole
  | separate awaits =>
    have clash : InteractionRole.client = .notification := awaits.role.symm.trans role
    cases clash
  | early awaits =>
    have clash : InteractionRole.client = .notification := awaits.role.symm.trans role
    cases clash

theorem Receives.settles {pckt : NetPacket} {msg : CoapMessage} (receives : Receives env now pckt msg this after) :
    Settles this after := by
  cases receives with
  | answered _ placed => exact .sublist placed.resources (by simp [placed.pInteractions])
  | duplicate _ _ _ _ _ placed => exact .sublist placed.resources (by simp [placed.pInteractions])
  | admitted _ _ middle same started =>
    subst started
    refine ⟨same.resources, fun other member role => ?_⟩
    cases List.mem_append.mp member with
    | inl earlier => exact ⟨other, same.pInteractions ▸ earlier, .refl other⟩
    | inr last =>
      rw [List.mem_singleton.mp last] at role
      cases role
  | touched _ member touches _ placed =>
    refine ⟨placed.resources, fun other among role => ?_⟩
    rw [placed.pInteractions] at among
    cases mem_stored among with
    | inl stored =>
      subst stored
      exact ⟨_, member, touches.link role⟩
    | inr kept => exact ⟨other, kept.1, .refl other⟩

theorem onNewPacketHandler_settles (env : Env) (this : CoapServer) (now : UInt32) (pckt : NetPacket) :
    Settles this (this.onNewPacketHandler env now pckt) := by
  cases onNewPacketHandler_cases env this now pckt with
  | inl unparsed => exact unparsed.2.settles
  | inr received =>
    obtain ⟨msg, _, receives⟩ := received
    have noted : Settles this (this.noted pckt msg) := .sublist rfl fun _ member => member
    exact noted.trans receives.settles

end

/-! ## Removals -/

section
variable {env : Env} {this after : CoapServer} {pIA : CoapInteraction} {pRes : Nat} {resource : CoapResource}
  {resources : List CoapResource}

/-- A resource changes, but keeps the observer. -/
theorem Linked.modify {change : CoapResource → CoapResource} (linked : Linked resources pIA)
    (kept : ∀ resource pObserver, pIA.pRes = some pRes → resources[pRes]? = some resource →
      pObserver ∈ resource.observers → pIA.pObserver = some pObserver.ref → pIA.ifID = pObserver.ifID →
      pIA.remoteEp = pObserver.ep → pObserver ∈ (change resource).observers) :
    Linked (resources.modify pRes change) pIA := by
  obtain ⟨other, resource, pObserver, asked, found, member, refers, ifID, ep⟩ := linked
  by_cases same : pRes = other
  · subst same
    refine ⟨pRes, change resource, pObserver, asked, ?_, kept resource pObserver asked found member refers ifID ep,
      refers, ifID, ep⟩
    simp [found]
  · refine ⟨other, resource, pObserver, asked, ?_, member, refers, ifID, ep⟩
    simp [found, same]

/-- An observer goes that no notification refers to. -/
theorem Linked.removed {ifID : UInt8} {ep : NetEp} {token : UInt64} (linked : Linked resources pIA)
    (other : ∀ resource pObserver, pIA.pRes = some pRes → resources[pRes]? = some resource →
      pObserver ∈ resource.observers → pIA.pObserver = some pObserver.ref → pIA.ifID = pObserver.ifID →
      pIA.remoteEp = pObserver.ep → pObserver.matches ifID ep token = false) :
    Linked (resources.modify pRes fun resource => resource.removeObserver ifID ep token) pIA := by
  apply linked.modify
  intro resource pObserver asked found member refers sameID sameEp
  have differs := other resource pObserver asked found member refers sameID sameEp
  exact (List.mem_eraseP_of_neg (by simp [differs])).mpr member

/-- A notification whose key the removed observer has is the one that is taken for the same. -/
theorem notifies_of_matches {pObserver removed : CoapObserver} {token : UInt64} (role : pIA.role = .notification)
    (asked : pIA.pRes = some pRes) (ifID : pIA.ifID = removed.ifID) (ep : pIA.remoteEp = removed.ep)
    (found : removed.matches pObserver.ifID pObserver.ep token = true) : pIA.notifies pRes pObserver = true := by
  obtain ⟨_, sameID, sameEp⟩ := (removed.matches_iff ..).mp found
  simp [CoapInteraction.notifies, role, asked, ifID, ep, sameID, epAreEqual_symm sameEp]

end

/-! ## The loop over the observers -/

/-- An error that the notifier reports does not take out an observer that is still to be notified. -/
def KeepsRest (env : Env) (this : CoapServer) (pRes : Nat) (resource : CoapResource) (pObserver : CoapObserver)
    (rest : List CoapObserver) : Prop :=
  CallsNotifier env this pRes resource pObserver → (freshNotified env this pRes pObserver).result = .ok →
    (freshNotified env this pRes pObserver).resp.code ≥ respErrorBadRequest →
    ∀ other ∈ rest,
      other.matches pObserver.ifID pObserver.ep (freshNotified env this pRes pObserver).resp.token64 = false

/-- This holds in every turn of the loop. -/
def LoopKeeps (env : Env) (pRes : Nat) (resource : CoapResource) : CoapServer → List CoapObserver → Prop
  | _, [] => True
  | this, pObserver :: rest =>
    KeepsRest env this pRes resource pObserver rest ∧
      ((this.notifyObserver env pRes resource pObserver).1 = true →
        LoopKeeps env pRes resource (this.notifyObserver env pRes resource pObserver).2 rest)

section
variable {env : Env} {this : CoapServer} {pRes : Nat} {resource : CoapResource} {pObserver : CoapObserver}

/-- All of them are observers of the resource. -/
def Observing (this : CoapServer) (pRes : Nat) (observers : List CoapObserver) : Prop :=
  ∃ current, this.resources[pRes]? = some current ∧ ∀ pObserver ∈ observers, pObserver ∈ current.observers

theorem Observing.settles {after : CoapServer} {observers : List CoapObserver}
    (observing : Observing this pRes observers) (settles : Settles this after) : Observing after pRes observers := by
  unfold Observing
  rw [settles.resources]
  exact observing

/-- The observer of an error response goes; there is no notification under its key. -/
theorem AllLinked.rejected {after : CoapServer} (all : AllLinked this) (settles : Settles this after)
    (free : ∀ pIA ∈ this.pInteractions, pIA.notifies pRes pObserver = false) (resp : CoapMessage) (token : UInt64) :
    AllLinked (after.removeInteractionsObserver (.notifying pRes pObserver resp) token) := by
  have kept := all.settles settles
  refine ⟨fun pIA member role => (kept.linked pIA member role).removed ?_, kept.single⟩
  intro _ removed asked _ _ _ ifID ep
  -- its notification would have been taken for one of the observer's
  apply Bool.eq_false_iff.mpr
  intro found
  obtain ⟨older, earlier, same⟩ := settles.among pIA member role
  have pending : older.notifies pRes pObserver = true := notifies_of_matches (same.role ▸ role)
    (same.pRes.symm.trans asked) (same.ifID.symm.trans ifID) (same.remoteEp.symm.trans ep) found
  rw [free older earlier] at pending
  cases pending

/-- A notification is started for an observer that has none. -/
theorem AllLinked.started {after : CoapServer} (all : AllLinked this) (settles : Settles this after)
    (free : ∀ pIA ∈ this.pInteractions, pIA.notifies pRes pObserver = false)
    (observing : Observing this pRes [pObserver]) (resp : CoapMessage) :
    AllLinked (after.startInteraction (.notifying pRes pObserver resp)) := by
  have kept := all.settles settles
  have other : ∀ pIA ∈ after.pInteractions, pIA.role = .notification → pIA.pRes = some pRes →
      pIA.ifID = pObserver.ifID → epAreEqual pIA.remoteEp pObserver.ep = true → False := by
    intro pIA member role asked ifID ep
    obtain ⟨older, earlier, same⟩ := settles.among pIA member role
    have none := free older earlier
    simp [CoapInteraction.notifies, ← same.role, ← same.pRes, ← same.ifID, ← same.remoteEp, role, asked, ifID, ep]
      at none
  constructor
  · intro pIA member role
    cases List.mem_append.mp member with
    | inl earlier => exact kept.linked pIA earlier role
    | inr last =>
      rw [List.mem_singleton.mp last]
      obtain ⟨current, found, listed⟩ := observing.settles settles
      exact ⟨pRes, current, pObserver, rfl, found, listed pObserver List.mem_cons_self, rfl, rfl, rfl⟩
  · intro one member two memberToo same
    -- two earlier ones are not for the same observer, and the new one is for one that had none
    cases List.mem_append.mp member with
    | inl earlier =>
      cases List.mem_append.mp memberToo with
      | inl earlierToo => exact kept.single one earlier two earlierToo same
      | inr last =>
        rw [List.mem_singleton.mp last] at same
        exact (other one earlier same.role same.pRes same.ifID same.remoteEp).elim
    | inr last =>
      cases List.mem_append.mp memberToo with
      | inl earlierToo =>
        rw [List.mem_singleton.mp last] at same
        exact (other two earlierToo same.too same.pRes.symm same.ifID.symm (epAreEqual_symm same.remoteEp)).elim
      | inr lastToo => rw [List.mem_singleton.mp last, List.mem_singleton.mp lastToo]

/-- One turn of the loop. -/
theorem Notifies.linked {rest : List CoapObserver} {after : Bool × CoapServer} (all : AllLinked this)
    (notifies : Notifies env this pRes resource pObserver after) (observing : Observing this pRes (pObserver :: rest))
    (keeps : KeepsRest env this pRes resource pObserver rest) : AllLinked after.2 ∧ Observing after.2 pRes rest := by
  have others : Observing this pRes rest := by
    obtain ⟨current, found, listed⟩ := observing
    exact ⟨current, found, fun other member => listed other (List.mem_cons_of_mem _ member)⟩
  cases notifies with
  | @pending pIA member notifies =>
    have link : SameLink pIA { pIA with updatePendingNotification := true } := ⟨rfl, rfl, rfl, rfl, rfl, rfl⟩
    have settles := storeInteraction_settles (fun _ => ⟨pIA, member, .refl pIA⟩) link
    exact ⟨all.settles settles, others.settles settles⟩
  | nothing _ asked => exact ⟨all.settles asked.settles, others.settles asked.settles⟩
  -- the observer with the token of the message is taken out, which is none of those to come
  | rejected calls result code =>
    have settles := (freshCalled_asked : Asked this (freshCalled env this pRes pObserver)).settles
    refine ⟨all.rejected settles calls.free _ _, ?_⟩
    obtain ⟨current, found, listed⟩ := others.settles settles
    refine ⟨current.removeObserver pObserver.ifID pObserver.ep
      (freshNotified env this pRes pObserver).resp.token64, ?_, ?_⟩
    · simp [removeInteractionsObserver, CoapInteraction.notifying, modifyResource, found]
    · intro other member
      have differs := keeps calls result code other member
      exact (List.mem_eraseP_of_neg (by simp [differs])).mpr (listed other member)
  | started available calls result code same =>
    have settles := (freshCalled_asked : Asked this (freshCalled env this pRes pObserver)).settles.trans same.settles
    have first : Observing this pRes [pObserver] := by
      obtain ⟨current, found, listed⟩ := observing
      refine ⟨current, found, fun other member => ?_⟩
      rw [List.mem_singleton.mp member]
      exact listed pObserver List.mem_cons_self
    have kept := others.settles settles
    exact ⟨all.started settles calls.free first _, kept⟩

/-- Induction on the observers that are still to be notified. -/
theorem notifyLoop_linked (observers : List CoapObserver) {this : CoapServer} (all : AllLinked this)
    (observing : Observing this pRes observers) (keeps : LoopKeeps env pRes resource this observers) :
    AllLinked (notifyLoop env pRes resource this observers) := by
  induction observers generalizing this with
  | nil => exact all
  | cons pObserver rest inductionHypothesis =>
    obtain ⟨keepsRest, keeps⟩ := keeps
    obtain ⟨linked, others⟩ :=
      (notifyObserver_notifies env this pRes resource pObserver).linked all observing keepsRest
    rw [notifyLoop]
    split
    next after stops =>
      rw [stops] at linked
      exact linked
    next after goesOn =>
      rw [goesOn] at linked others keeps
      exact inductionHypothesis linked others (keeps rfl)

end

/-! ## Calls of user code -/

/-- The counter of a resource as `CoAP_NotifyResourceObservers` leaves it. -/
def counted (this : CoapServer) (pRes : Nat) : CoapServer :=
  this.modifyResource pRes fun resource => { resource with updateCnt := resource.updateCnt + 1 }

/-- A call keeps the observers that it still has to notify. -/
def CallKeeps (env : Env) (this : CoapServer) : Call → Prop
  | .notify pRes => ∀ resource, (this.counted pRes).resources[pRes]? = some resource →
      LoopKeeps env pRes resource (this.counted pRes) resource.observers
  | .request _ => True

/-- So does each of several. -/
def CallsKeep (env : Env) : CoapServer → List Call → Prop
  | _, [] => True
  | this, request :: rest => CallKeeps env this request ∧ CallsKeep env (this.call env request) rest

section
variable {env : Env} {this after : CoapServer}

theorem AllLinked.counted (all : AllLinked this) (pRes : Nat) : AllLinked (this.counted pRes) where
  linked := by
    intro pIA member role
    exact (all.linked pIA member role).modify fun _ _ _ _ listed _ _ _ => listed
  single := all.single

theorem call_linked {request : Call} (all : AllLinked this) (keeps : CallKeeps env this request) :
    AllLinked (this.call env request) := by
  cases request with
  | notify pRes =>
    have counted := all.counted pRes
    show AllLinked ((this.counted pRes).startNotifyInteractions env pRes)
    unfold startNotifyInteractions
    split
    next => exact counted
    next resource found =>
      exact notifyLoop_linked resource.observers counted ⟨resource, found, fun _ member => member⟩
        (keeps resource found)
  | request request => exact all.settles (perform_asked this request).settles

theorem calls_linked (requests : List Call) {this : CoapServer} (all : AllLinked this)
    (keeps : CallsKeep env this requests) : AllLinked (requests.foldl (call env) this) := by
  induction requests generalizing this with
  | nil => exact all
  | cons request rest inductionHypothesis =>
    exact inductionHypothesis (call_linked all keeps.1) keeps.2

end

/-! ## Observations -/

/-- The notification has the number of the observer. -/
structure RefersTo (pIA : CoapInteraction) (pRes : Nat) (pObserver : CoapObserver) : Prop where
  role : pIA.role = .notification
  pRes : pIA.pRes = some pRes
  pObserver : pIA.pObserver = some pObserver.ref

/-- A registration that has its memory replaces no observer that a notification refers to, and a
deregistration finds the only notification that refers to what it takes out. -/
structure ObservationKeeps (env : Env) (this : CoapServer) (pIA : CoapInteraction) (pRes : Nat) (req : CoapMessage)
    (origin : NetPacket) (pObserver : CoapObserver) : Prop where
  registers : getObserveOptionFromMsg req = some observeOptRegister →
    (this.registerObserver env pIA pRes req origin).1 = .ok →
      ∀ pending ∈ this.pInteractions, ¬ RefersTo pending pRes pObserver
  deregisters : getObserveOptionFromMsg req = some observeOptDeregister →
    ∀ pending ∈ this.pInteractions, RefersTo pending pRes pObserver →
      this.pInteractions.find? (fun other => other.isPendingFor pIA req.token64) = some pending

/-- This holds for every observer under the key of the request. -/
def RequestKeeps (env : Env) (this : CoapServer) (pIA : CoapInteraction) (pRes : Nat) (req : CoapMessage)
    (origin : NetPacket) : Prop :=
  ∀ resource pObserver, this.resources[pRes]? = some resource → resource.notifier = true →
    pObserver ∈ resource.observers → pObserver.matches pIA.ifID pIA.remoteEp req.token64 = true →
      ObservationKeeps env this pIA pRes req origin pObserver

section
variable {env : Env} {this : CoapServer} {pIA : CoapInteraction} {pRes : Nat} {req : CoapMessage} {origin : NetPacket}
  {resource : CoapResource}

theorem registerObserver_linked (all : AllLinked this) (found : this.resources[pRes]? = some resource)
    (keeps : (this.registerObserver env pIA pRes req origin).1 = .ok → ∀ pObserver ∈ resource.observers,
      pObserver.matches pIA.ifID pIA.remoteEp req.token64 = true →
        ∀ pending ∈ this.pInteractions, ¬ RefersTo pending pRes pObserver) :
    AllLinked (this.registerObserver env pIA pRes req origin).2 := by
  unfold registerObserver memGet at keeps ⊢
  cases available : env.alloc this.allocs with
  | false => exact all.settles (.sublist rfl fun _ member => member)
  | true =>
    simp only [available] at keeps ⊢
    have copied := copyObserverOptions_silent env req.options []
      { this with allocs := this.allocs + 1, observers := this.observers + 1 }
    split
    next after failed =>
      rw [failed] at copied
      exact all.settles (.sublist copied.resources (by rw [copied.pInteractions]; exact fun _ member => member))
    next options after made =>
      rw [made] at copied
      simp only [made, true_implies] at keeps
      have list : after.pInteractions = this.pInteractions := copied.pInteractions
      have resources : after.resources = this.resources := copied.resources
      have kept : AllLinked after := all.settles (.sublist resources (by simp [list]))
      refine ⟨fun pending member role => (kept.linked pending member role).modify ?_, kept.single⟩
      -- a notification loses its observer only to the one registered in its place
      intro other pObserver asked foundToo listed refers ifID ep
      rw [resources] at foundToo
      obtain rfl : resource = other := Option.some.inj (found.symm.trans foundToo)
      have earlier : pending ∈ after.pInteractions := member
      rw [list] at earlier
      apply List.mem_append_left
      apply (List.mem_eraseP_of_neg _).mpr listed
      exact fun removed => keeps pObserver listed removed pending earlier ⟨role, asked, refers⟩

theorem deregister_linked (all : AllLinked this) (numbered : Numbered this) (asked : pIA.pRes = some pRes)
    (found : this.resources[pRes]? = some resource)
    (keeps : ∀ pObserver ∈ resource.observers, pObserver.matches pIA.ifID pIA.remoteEp req.token64 = true →
      ∀ pending ∈ this.pInteractions, RefersTo pending pRes pObserver →
        this.pInteractions.find? (fun other => other.isPendingFor pIA req.token64) = some pending) :
    AllLinked (match this.pInteractions.find? (fun other => other.isPendingFor pIA req.token64) with
      | none => this.removeInteractionsObserver pIA req.token64
      | some pending => (this.removeInteractionsObserver pIA req.token64).deleteInteraction pending.ref) := by
  have removal : this.removeInteractionsObserver pIA req.token64 =
      this.modifyResource pRes fun resource => resource.removeObserver pIA.ifID pIA.remoteEp req.token64 := by
    rw [removeInteractionsObserver, asked]
  -- a notification that loses its observer is the one that is found
  have linked : ∀ pending ∈ this.pInteractions, pending.role = .notification →
      this.pInteractions.find? (fun other => other.isPendingFor pIA req.token64) ≠ some pending →
        Linked (this.removeInteractionsObserver pIA req.token64).resources pending := by
    intro pending member role other
    rw [removal]
    apply (all.linked pending member role).removed
    intro current pObserver sameRes foundToo listed refers _ _
    obtain rfl : resource = current := Option.some.inj (found.symm.trans foundToo)
    apply Bool.eq_false_iff.mpr
    exact fun removed => other (keeps pObserver listed removed pending member ⟨role, sameRes, refers⟩)
  cases first : this.pInteractions.find? (fun other => other.isPendingFor pIA req.token64) with
  | none =>
    constructor
    · intro pending member role
      rw [removeInteractionsObserver_pInteractions] at member
      exact linked pending member role (by simp [first])
    · rw [removeInteractionsObserver_pInteractions]
      exact all.single
  | some pending =>
    have fewer : ∀ other ∈ ((this.removeInteractionsObserver pIA req.token64).deleteInteraction pending.ref).pInteractions,
        other ∈ this.pInteractions ∧ other.ref ≠ pending.ref := by
      intro other member
      rw [deleteInteraction, removeInteractionsObserver_pInteractions] at member
      exact mem_erased numbered.nodup member
    constructor
    · intro other member role
      obtain ⟨earlier, differs⟩ := fewer other member
      exact linked other earlier role (by rw [first]; exact fun same => differs (by rw [Option.some.inj same]))
    · exact fun one member two memberToo => all.single one (fewer one member).1 two (fewer two memberToo).1

theorem handleObservationInReq_linked (all : AllLinked this) (numbered : Numbered this) (asked : pIA.pRes = some pRes)
    (keeps : RequestKeeps env this pIA pRes req origin) :
    AllLinked (this.handleObservationInReq env pIA pRes req origin).2 := by
  unfold handleObservationInReq
  split
  next => exact all
  next resource found =>
    split
    next => exact all
    next notifier =>
      have notifies : resource.notifier = true := Bool.eq_true_of_not_eq_false notifier
      split
      next => exact all
      next obsVal observe =>
        split
        next value =>
          subst value
          exact registerObserver_linked all found fun registered pObserver listed removed =>
            (keeps resource pObserver found notifies listed removed).registers observe registered
        next =>
          split
          next value =>
            subst value
            have deregistered := deregister_linked all numbered asked found fun pObserver listed removed =>
              (keeps resource pObserver found notifies listed removed).deregisters observe
            simp only [removeInteractionsObserver_pInteractions]
            split
            next first =>
              rw [first] at deregistered
              exact deregistered
            next pending first =>
              rw [first] at deregistered
              exact deregistered
          next => exact all

end

/-! ## The turn of a request -/

/-- The message and the stack with which the handler of a request is called. -/
def handlerGiven (env : Env) (this : CoapServer) (pIA : CoapInteraction) (req : CoapMessage) :
    Option CoapMessage × CoapServer :=
  match pIA.pRespMsg with
  | some resp => (some resp, this)
  | none => this.allocRespMsg env req empty preferedPayloadSize

/-- The outcome of the handler. -/
def handlerOutcome (env : Env) (this : CoapServer) (pIA : CoapInteraction) (pRes : Nat) (req : CoapMessage) : Handled :=
  env.handler (handlerGiven env this pIA req).2.callbacks pRes req (handlerGiven env this pIA req).1

/-- The stack when the handler begins with its calls. -/
def handlerBegun (env : Env) (this : CoapServer) (pIA : CoapInteraction) (req : CoapMessage) : CoapServer :=
  { (handlerGiven env this pIA req).2 with
    callbacks := (handlerGiven env this pIA req).2.callbacks + 1
    log := .handled pIA req :: (handlerGiven env this pIA req).2.log }

/-- The stack as the handler leaves it. -/
def handlerCalled (env : Env) (this : CoapServer) (pIA : CoapInteraction) (pRes : Nat) (req : CoapMessage) : CoapServer :=
  (handlerOutcome env this pIA pRes req).calls.foldl (call env) (handlerBegun env this pIA req)

/-- The turn of a request, by the message that its handler or `SendResp` is called with. -/
theorem handleRequest_eq {env : Env} {now : UInt32} {this : CoapServer} {pIA : CoapInteraction} {pRes : Nat}
    {req : CoapMessage} {resource : CoapResource} (request : pIA.pReqMsg = some req) (asked : pIA.pRes = some pRes)
    (found : this.resources[pRes]? = some resource) :
    this.handleRequest env now pIA =
      if methodNotAllowed req.code resource.flags then
        (this.allocRespMsg env req respMethodNotAllowed 0).2.sendResp env now { pIA with
          pRespMsg := (this.allocRespMsg env req respMethodNotAllowed 0).1 } .responseSent
      else if (handlerOutcome env this pIA pRes req).result = .postpone then
        (handlerCalled env this pIA pRes req).postpone env now pIA pRes req
          ((handlerGiven env this pIA req).1.map fun _ => (handlerOutcome env this pIA pRes req).resp)
      else ((handlerGiven env this pIA req).1.map fun _ => (handlerOutcome env this pIA pRes req).resp).bind
        fun resp => (handlerCalled env this pIA pRes req).respond env now pIA pRes req
          (completeCode (handlerOutcome env this pIA pRes req).result resp) := by
  simp only [handleRequest, request, asked, found, Option.bind_eq_bind, Option.bind_some]
  rfl

theorem handleRequest_asked {env : Env} {now : UInt32} {this after : CoapServer} {pIA : CoapInteraction}
    (worked : this.handleRequest env now pIA = some after) :
    ∃ req pRes resource, pIA.pReqMsg = some req ∧ pIA.pRes = some pRes ∧ this.resources[pRes]? = some resource := by
  simp only [handleRequest, Option.bind_eq_bind, Option.bind_eq_some_iff] at worked
  obtain ⟨req, request, pRes, asked, resource, found, _⟩ := worked
  exact ⟨req, pRes, resource, request, asked, found⟩

/-- Message and stack when the Observe option of the request is looked at. -/
def beforeObservation (env : Env) (this : CoapServer) (pIA : CoapInteraction) (req resp : CoapMessage) :
    CoapMessage × CoapServer :=
  (this.setRespType pIA req resp).2.addPathOption env pIA.reqMetaInfo (this.setRespType pIA req resp).1

/-- The calls of the handler keep their observers, and so does the Observe option of a request that is
answered with its representation. -/
structure HandlerKeeps (env : Env) (this : CoapServer) (pIA : CoapInteraction) (pRes : Nat) (req : CoapMessage) :
    Prop where
  calls : CallsKeep env (handlerBegun env this pIA req) (handlerOutcome env this pIA pRes req).calls
  observation : ∀ origin, pIA.origin = some origin → (handlerOutcome env this pIA pRes req).result ≠ .postpone →
    req.code = reqGet →
    let resp := completeCode (handlerOutcome env this pIA pRes req).result (handlerOutcome env this pIA pRes req).resp
    resp.code = respSuccessContent →
      RequestKeeps env (beforeObservation env (handlerCalled env this pIA pRes req) pIA req resp).2 pIA pRes req origin

section
variable {env : Env} {now : UInt32} {this after : CoapServer} {pIA : CoapInteraction} {pRes : Nat}
  {req resp : CoapMessage} {resource : CoapResource}

theorem setRespType_settles : Settles this (this.setRespType pIA req resp).2 := by
  unfold setRespType
  split
  next =>
    split
    next => exact (Asked.nextMid this).settles
    next => exact .refl this
  next => exact .refl this

theorem setRespType_code : (this.setRespType pIA req resp).1.code = resp.code := by
  unfold setRespType
  split
  next =>
    split
    next => rfl
    next => rfl
  next => rfl

theorem respond_linked (all : AllLinked this) (numbered : Numbered this) (role : pIA.role = .server)
    (asked : pIA.pRes = some pRes)
    (keeps : ∀ origin, pIA.origin = some origin → req.code = reqGet → resp.code = respSuccessContent →
      RequestKeeps env (beforeObservation env this pIA req resp).2 pIA pRes req origin)
    (worked : this.respond env now pIA pRes req resp = some after) : AllLinked after := by
  obtain ⟨path, pathKeeps⟩ := addPathOption_silent env (this.setRespType pIA req resp).2 pIA.reqMetaInfo
    (this.setRespType pIA req resp).1
  have code : (beforeObservation env this pIA req resp).1.code = resp.code := pathKeeps.code.trans setRespType_code
  have linked : AllLinked (beforeObservation env this pIA req resp).2 :=
    all.settles (setRespType_settles.trans path.settles)
  have numberedThen : Numbered (beforeObservation env this pIA req resp).2 :=
    ((setRespType_calls env (fun _ => True) this pIA req resp).grows numbered).1.silent path
  have sent : ((beforeObservation env this pIA req resp).2.addObservation env pIA pRes req
      (beforeObservation env this pIA req resp).1).2.sendResp env now { pIA with
        pRespMsg := some ((beforeObservation env this pIA req resp).2.addObservation env pIA pRes req
          (beforeObservation env this pIA req resp).1).1 } .responseSent = some after := worked
  generalize beforeObservation env this pIA req resp = before at *
  have observed : AllLinked (before.2.addObservation env pIA pRes req before.1).2 := by
    unfold addObservation
    split
    next => exact linked
    next origin packet =>
      split
      next content =>
        have observed := handleObservationInReq_linked linked numberedThen asked
          (keeps origin packet content.1 (code ▸ content.2))
        split
        next ok =>
          rw [ok] at observed
          exact observed.settles (memGet_silent env _).settles
        -- the option is added to the message alone, with or without memory for it
        next other =>
          rw [other] at observed
          exact observed
      next => exact linked
  apply observed.settles
  apply sendResp_settles _ sent
  intro notification
  rw [role] at notification
  cases notification

theorem allocRespMsg_settles (code : UInt8) (payloadMaxSize : Nat) :
    Settles this (this.allocRespMsg env req code payloadMaxSize).2 := by
  unfold allocRespMsg
  split
  next => exact (createMessage_silent ..).settles
  next => exact (Asked.nextMid this).settles.trans (createMessage_silent ..).settles

theorem handlerGiven_settles : Settles this (handlerGiven env this pIA req).2 := by
  unfold handlerGiven
  split
  next => exact .refl this
  next => exact allocRespMsg_settles empty preferedPayloadSize

theorem handlerGiven_calls (known : CoapObserver → Prop) : Calls env known this (handlerGiven env this pIA req).2 := by
  unfold handlerGiven
  split
  next => exact calls_refl
  next => exact allocRespMsg_calls this req empty preferedPayloadSize

theorem handlerCalled_numbered (numbered : Numbered this) (member : pIA ∈ this.pInteractions) :
    Numbered (handlerCalled env this pIA pRes req) := by
  obtain ⟨given, grown, _⟩ := (handlerGiven_calls (fun _ => True) :
    Calls env (fun _ => True) this (handlerGiven env this pIA req).2).grows numbered
  have below := (numbered.listed pIA member).trans_le grown
  have begun : Numbered (handlerBegun env this pIA req) := by
    refine ⟨given.nodup, given.listed, (given.note (.handled pIA req) ?_).logged⟩
    intro ref actor
    cases actor
    exact below
  exact (calls_calls (fun _ observer => observer) (handlerOutcome env this pIA pRes req).calls :
    Calls env (handlerBegun env this pIA req).IsObserver (handlerBegun env this pIA req) _).grows begun |>.1

theorem sendEmptyAck_settles (ia : CoapInteraction) (messageID : Nat) :
    Settles this (this.sendEmptyAck env now ia messageID).2 := by
  simp only [sendEmptyAck, sendShortResp, sendMsg]
  split
  next => exact .sublist rfl fun _ member => member
  next => exact .sublist rfl fun _ member => member

theorem postpone_linked {offered : Option CoapMessage} (all : AllLinked this) (numbered : Numbered this)
    (role : pIA.role = .server) (asked : pIA.pRes = some pRes)
    (worked : this.postpone env now pIA pRes req offered = some after) : AllLinked after := by
  have ack : Settles this (this.sendEmptyAck env now { pIA with pRespMsg := offered } req.messageID).2 :=
    sendEmptyAck_settles ..
  simp only [postpone] at worked
  split at worked
  next =>
    split at worked
    next middle acked =>
      cases worked
      rw [acked] at ack
      apply all.settles (ack.trans (enqueueLastInteraction_settles (by simp [role]) (.refl _)))
    next middle failed =>
      cases worked
      rw [failed] at ack
      exact all.settles (ack.trans (deleteInteraction_settles _))
  next =>
    split at worked
    next =>
      obtain ⟨resp, _, sent⟩ := Option.bind_eq_some_iff.mp worked
      apply respond_linked all numbered role asked _ sent
      intro _ _ _ content
      cases content
    next =>
      cases worked
      exact all.settles (enqueueLastInteraction_settles (by simp [role]) (.refl _))

theorem handleRequest_linked (all : AllLinked this) (numbered : Numbered this) (member : pIA ∈ this.pInteractions)
    (role : pIA.role = .server)
    (keeps : ∀ req pRes resource, pIA.pReqMsg = some req → pIA.pRes = some pRes → this.resources[pRes]? = some resource →
      methodNotAllowed req.code resource.flags = false → HandlerKeeps env this pIA pRes req)
    (worked : this.handleRequest env now pIA = some after) : AllLinked after := by
  obtain ⟨req, pRes, resource, request, asked, found⟩ := handleRequest_asked worked
  rw [handleRequest_eq request asked found] at worked
  split at worked
  next =>
    have allocated : Settles this (this.allocRespMsg env req respMethodNotAllowed 0).2 :=
      allocRespMsg_settles respMethodNotAllowed 0
    exact all.settles (allocated.trans (sendResp_settles (by simp [role]) worked))
  next allowed =>
    have handles := keeps req pRes resource request asked found (Bool.eq_false_iff.mpr allowed)
    have called : AllLinked (handlerCalled env this pIA pRes req) := by
      apply calls_linked _ _ handles.calls
      exact all.settles (handlerGiven_settles.trans (.sublist rfl fun _ member => member))
    have numberedThen : Numbered (handlerCalled env this pIA pRes req) := handlerCalled_numbered numbered member
    split at worked
    next => exact postpone_linked called numberedThen role asked worked
    next final =>
      obtain ⟨resp, made, sent⟩ := Option.bind_eq_some_iff.mp worked
      obtain ⟨_, _, rfl⟩ := Option.map_eq_some_iff.mp made
      exact respond_linked called numberedThen role asked
        (fun origin packet get content => handles.observation origin packet final get content) sent

/-! ## The turn of a notification -/

/-- A notification that is given up takes its observer with it. -/
theorem gaveUp_linked (all : AllLinked this) (numbered : Numbered this) (member : pIA ∈ this.pInteractions)
    (role : pIA.role = .notification) (token : UInt64) :
    AllLinked ((this.removeInteractionsObserver pIA token).deleteInteraction pIA.ref) := by
  obtain ⟨pRes, _, _, asked, _⟩ := all.linked pIA member role
  have fewer : ∀ other ∈ ((this.removeInteractionsObserver pIA token).deleteInteraction pIA.ref).pInteractions,
      other ∈ this.pInteractions ∧ other.ref ≠ pIA.ref := by
    intro other among
    rw [deleteInteraction, removeInteractionsObserver_pInteractions] at among
    exact mem_erased numbered.nodup among
  constructor
  · intro other among notification
    obtain ⟨earlier, differs⟩ := fewer other among
    have removal : this.removeInteractionsObserver pIA token =
        this.modifyResource pRes fun resource => resource.removeObserver pIA.ifID pIA.remoteEp token := by
      rw [removeInteractionsObserver, asked]
    rw [deleteInteraction, removal]
    apply (all.linked other earlier notification).removed
    intro _ pObserver sameRes _ _ _ ifID ep
    apply Bool.eq_false_iff.mpr
    intro removed
    -- the other one would be the same notification
    obtain ⟨_, sameID, sameEp⟩ := (pObserver.matches_iff ..).mp removed
    have same : SameNotification pIA other :=
      ⟨role, notification, asked.trans sameRes.symm, sameID.trans ifID.symm, by rw [ep]; exact sameEp⟩
    exact differs (all.single pIA member other earlier same).symm
  · exact fun one among two amongToo => all.single one (fewer one among).1 two (fewer two amongToo).1

theorem refresh_asked {refreshed : CoapMessage × CoapServer} (refreshes : this.refresh env pIA resp = some refreshed) :
    Asked this refreshed.2 := by
  obtain ⟨pRes, resource, _, _, _, rfl⟩ := refresh_some refreshes
  exact (refreshCalled_asked pRes resource).trans (.silent (memGet_silent env _))

theorem checkNotification_linked (all : AllLinked this) (numbered : Numbered this) (member : pIA ∈ this.pInteractions)
    (role : pIA.role = .notification) (worked : this.checkNotification env now pIA = some after) : AllLinked after := by
  have own : ∀ middle, Asked this middle → pIA.role = .notification → ∃ older ∈ middle.pInteractions, SameLink older pIA := by
    intro middle asked _
    obtain ⟨_, list, _⟩ := asked.list
    exact ⟨pIA, list ▸ List.mem_append_left _ member, .refl pIA⟩
  cases checkNotification_cases worked with
  | waits same =>
    subst same
    exact all.settles (enqueueLastInteraction_settles (own this (.refl this)) (.refl pIA))
  | repeats _ sent => exact all.settles (retryResp_settles (own this (.refl this)) sent)
  | @repeatsRefreshed resp refreshed middle _ _ _ refreshes sent =>
    have asked := refresh_asked refreshes
    -- a fresh message leaves what links the notification to its observer
    have link : ∀ older, SameLink older pIA → SameLink older { pIA with
        updatePendingNotification := false, pRespMsg := some { refreshed with type := resp.type } } :=
      fun _ same => ⟨same.1, same.2, same.3, same.4, same.5, same.6⟩
    apply all.settles (asked.settles.trans (retryResp_settles _ sent))
    intro notification
    obtain ⟨older, earlier, same⟩ := own middle asked notification
    exact ⟨older, earlier, link older same⟩
  | @refreshes resp refreshed middle _ _ refreshes same =>
    subst same
    have asked := refresh_asked refreshes
    exact all.settles (asked.settles.trans (enqueueLastInteraction_settles (own middle asked)
      ⟨rfl, rfl, rfl, rfl, rfl, rfl⟩))
  | @givesUp resp _ same =>
    subst same
    exact gaveUp_linked all numbered member role resp.token64
  | ends same =>
    subst same
    exact all.settles (deleteInteraction_settles _)

end

/-! ## Runs -/

/-- User code that runs in the turn of an interaction, and the Observe option of its request, keep the
observers that are referred to. -/
def WorkKeeps (env : Env) (this : CoapServer) (pIA : CoapInteraction) : Prop :=
  match pIA.role with
  | .server => Unanswered pIA → ∀ req pRes resource, pIA.pReqMsg = some req → pIA.pRes = some pRes →
      this.resources[pRes]? = some resource → methodNotAllowed req.code resource.flags = false →
        HandlerKeeps env this pIA pRes req
  | .notification => True
  | .client => pIA.state = .handleResponse → pIA.respCB = true → ∀ resp, pIA.pRespMsg = some resp →
      CallsKeep env { this with callbacks := this.callbacks + 1 } (env.respCB this.callbacks resp pIA.remoteEp)

/-- The condition on a step. -/
def ObserversKept (env : Env) (this : CoapServer) : Event → Prop
  | .packet _ _ => True
  | .doWork now => ∀ pIA rest, this.pInteractions = pIA :: rest → pIA.sleepUntil ≤ now → WorkKeeps env this pIA
  | .call request => CallKeeps env this request

section
variable {env : Env} {now : UInt32} {resources : List CoapResource} {this after : CoapServer} {pIA : CoapInteraction}

theorem work_linked (all : AllLinked this) (numbered : Numbered this) (member : pIA ∈ this.pInteractions)
    (staged : Staged pIA) (keeps : WorkKeeps env this pIA) (worked : this.work env now pIA = some after) :
    AllLinked after := by
  have own : ∃ older ∈ this.pInteractions, SameLink older pIA := ⟨pIA, member, .refl pIA⟩
  unfold WorkKeeps at keeps
  cases work_cases staged worked with
  | handlesRequest role unanswered done =>
    -- nothing was sent yet: the handler may register or drop an observer
    simp only [role] at keeps
    exact handleRequest_linked all numbered member role (keeps unanswered) done
  | checksResponse role state done =>
    rcases checkResponse_cases done with rfl | ⟨_, again⟩ | rfl
    · exact all.settles (enqueueLastInteraction_settles (fun _ => own) (.refl pIA))
    · exact all.settles (retryResp_settles (fun _ => own) again)
    · exact all.settles (deleteInteraction_settles _)
  | notifies role state done => exact all.settles (sendResp_settles (fun _ => own) done)
  | checksNotification role state done => exact checkNotification_linked all numbered member role done
  | requests role state done => exact all.settles (sendReq_settles (fun _ => own) done)
  | checksRequest role state done =>
    rcases checkRequest_cases done with rfl | ⟨_, again⟩ | rfl
    · exact all.settles (enqueueLastInteraction_settles (fun _ => own) (.refl pIA))
    · exact all.settles (retryReq_settles (fun _ => own) again)
    · exact all.settles (deleteInteraction_settles _)
  | handlesResponse role state done =>
    simp only [role] at keeps
    rcases handleResponse_cases done with ⟨callback, resp, response, rfl⟩ | rfl
    · have called : AllLinked { this with callbacks := this.callbacks + 1 } :=
        all.settles (.sublist rfl fun _ member => member)
      exact (calls_linked _ called (keeps state callback resp response)).settles (deleteInteraction_settles _)
    · exact all.settles (deleteInteraction_settles _)

/-- One step. -/
theorem step_linked {event : Event} (reaches : Reaches env resources this) (all : AllLinked this)
    (keeps : ObserversKept env this event) (taken : step env this event = some after) : AllLinked after := by
  have holds := run_shaped reaches
  cases event with
  | packet pckt now =>
    cases taken
    exact all.settles (onNewPacketHandler_settles env this now pckt)
  | doWork now =>
    rcases doWork_cases taken with ⟨_, rfl⟩ | ⟨pIA, rest, list, ⟨_, rfl⟩ | ⟨due, worked⟩⟩
    · exact all
    · have member : pIA ∈ this.pInteractions := list ▸ List.mem_cons_self
      exact all.settles (enqueueLastInteraction_settles (fun _ => ⟨pIA, member, .refl pIA⟩) (.refl pIA))
    · have member : pIA ∈ this.pInteractions := list ▸ List.mem_cons_self
      exact work_linked all holds.numbered member (holds.interactions pIA member).staged
        (keeps pIA rest list (UInt32.not_lt.mp due)) worked
  | call request =>
    cases taken
    exact call_linked all keeps

end

/-- In a run whose steps keep the observers that are referred to, every notification is linked. -/
theorem notifications_linked (env : Env) (resources : List CoapResource) (this : CoapServer)
    (run : Transition.Run (step env) (ObserversKept env) (new resources) this) :
    ∀ pIA ∈ this.pInteractions, pIA.role = .notification → Linked this.resources pIA := by
  have all : AllLinked this := by
    induction run with
    | refl => exact ⟨fun _ member => absurd member List.not_mem_nil, fun _ member => absurd member List.not_mem_nil⟩
    | next before event kept taken inductionHypothesis =>
      exact step_linked (before.weaken fun _ _ _ => trivial) inductionHypothesis kept taken
  exact all.linked

/-- One observer at most is not followed by others. -/
theorem loopKeeps_single (env : Env) (pRes : Nat) (resource : CoapResource) (this : CoapServer)
    {observers : List CoapObserver} (few : observers.length ≤ 1) : LoopKeeps env pRes resource this observers := by
  cases observers with
  | nil => trivial
  | cons pObserver rest =>
    cases rest with
    | nil => exact ⟨fun _ _ _ _ member => absurd member List.not_mem_nil, fun _ => trivial⟩
    | cons => simp at few

/-- Without observers a request takes none out. -/
theorem handlerKeeps_unobserved {this : CoapServer} (none : ∀ resource ∈ this.resources, resource.observers = [])
    (pIA : CoapInteraction) (pRes : Nat) (req : CoapMessage) : HandlerKeeps idealEnv this pIA pRes req where
  calls := trivial
  observation := by
    intro origin _ _ _ resp _ resource pObserver found _ listed
    have begun : Settles this (handlerCalled idealEnv this pIA pRes req) :=
      handlerGiven_settles.trans (.sublist rfl fun _ member => member)
    have same : (beforeObservation idealEnv (handlerCalled idealEnv this pIA pRes req) pIA req resp).2.resources =
        this.resources := by
      rw [beforeObservation, (addPathOption_silent ..).1.resources, setRespType_settles.resources, begun.resources]
    rw [same] at found
    rw [none resource (List.mem_of_getElem? found)] at listed
    cases listed

/-- The first notification of an observer. -/
theorem sensor_notification_linked : ∃ (this : CoapServer) (pIA : CoapInteraction), pIA ∈ this.pInteractions ∧
    pIA.role = .notification ∧ Linked this.resources pIA := by
  let first := (new [sensor]).onNewPacketHandler idealEnv 0 (datagram 0 observeSensor)
  have unobserved : first.resources.map (fun resource => resource.observers.isEmpty) = [true] := by decide +kernel
  have worked : (first.doWork idealEnv 0).map (fun this => (this.resources.map fun resource => resource.observers.length,
      (this.call idealEnv (.notify 0)).pInteractions.map CoapInteraction.role)) =
      some ([1], [.server, .notification]) := by
    decide +kernel
  obtain ⟨second, taken, facts⟩ := Option.map_eq_some_iff.mp worked
  simp only [Prod.mk.injEq] at facts
  have registered : Transition.Run (step idealEnv) (ObserversKept idealEnv) (new [sensor]) second := by
    apply (Transition.Run.refl.next (.packet (datagram 0 observeSensor) 0) trivial rfl).next (.doWork 0) _ taken
    -- nobody observes yet, so the handler's calls take no observer out
    intro pIA rest list _
    have none : ∀ resource ∈ first.resources, resource.observers = [] := by
      intro resource member
      obtain ⟨only, list, empty⟩ := List.map_eq_singleton_iff.mp unobserved
      rw [list, List.mem_singleton] at member
      rw [member]
      exact List.isEmpty_iff.mp empty
    unfold WorkKeeps
    split
    next => exact fun _ req pRes _ _ _ _ _ => handlerKeeps_unobserved none pIA pRes req
    next => trivial
    next => exact fun _ _ _ _ => trivial
  have notified : Transition.Run (step idealEnv) (ObserversKept idealEnv) (new [sensor])
      (second.call idealEnv (.notify 0)) := by
    apply registered.next (.call (.notify 0)) _ rfl
    intro resource found
    apply loopKeeps_single
    obtain ⟨only, list, length⟩ := List.map_eq_singleton_iff.mp facts.1
    simp only [counted, modifyResource, list, List.modify_zero_cons, List.getElem?_cons_zero, Option.some.injEq] at found
    rw [← found]
    exact length.le
  have role : InteractionRole.notification ∈ (second.call idealEnv (.notify 0)).pInteractions.map CoapInteraction.role := by
    simp [facts.2]
  obtain ⟨pIA, member, notification⟩ := List.mem_map.mp role
  exact ⟨_, pIA, member, notification,
    notifications_linked idealEnv [sensor] (second.call idealEnv (.notify 0)) notified pIA member notification⟩

/-- The registration of the same observer with message id 2. -/
def observeAgain : List UInt8 := [0x41, 0x01, 0x00, 0x02, 0x07, 0x60, 0x51, 0x61]

/-- An observer registers again while a notification is on its way to it. -/
theorem registration_unlinks : ¬ ∀ (env : Env) (resources : List CoapResource) (this : CoapServer),
    Reaches env resources this → ∀ pIA ∈ this.pInteractions, pIA.role = .notification → Linked this.resources pIA := by
  intro linked
  have reached : ([Event.packet (datagram 0 observeSensor) 0, .doWork 0, .call (.notify 0),
      .packet (datagram 0 observeAgain) 0, .doWork 1, .doWork 1, .doWork 1].foldlM (step idealEnv) (new [sensor])).map
      (fun this => (this.resources.map fun resource => resource.observers.map CoapObserver.ref,
        this.pInteractions.map fun pIA => (pIA.role, pIA.pObserver))) =
      some ([[1]], [(.notification, some 0), (.server, none)]) := by
    decide +kernel
  obtain ⟨this, taken, facts⟩ := Option.map_eq_some_iff.mp reached
  simp only [Prod.mk.injEq] at facts
  obtain ⟨only, list, refs⟩ := List.map_eq_singleton_iff.mp facts.1
  have pending : (InteractionRole.notification, some 0) ∈ this.pInteractions.map fun pIA => (pIA.role, pIA.pObserver) := by
    simp [facts.2]
  obtain ⟨pIA, member, fields⟩ := List.mem_map.mp pending
  simp only [Prod.mk.injEq] at fields
  obtain ⟨pRes, resource, pObserver, _, found, listed, refers, _⟩ :=
    linked idealEnv [sensor] this (.of_events _ .refl taken) pIA member fields.1
  rw [list] at found
  obtain rfl : only = resource := List.mem_singleton.mp (List.mem_of_getElem? found) |>.symm
  have number := List.mem_map_of_mem (f := CoapObserver.ref) listed
  rw [refs, List.mem_singleton] at number
  rw [number, fields.2] at refers
  cases refers

end CoapServer

end SmingCoap.Server
