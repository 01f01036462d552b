import Mathlib.Data.List.Find
import SmingCoap.Server.NotifierSoundness

/-! # Whom a notification reaches

Observers are told apart by interface, endpoint and token, but
`CoAP_StartNotifyInteractions` takes a notification that is pending for the
interface and the endpoint for that of any observer there.  Of the observers of a
resource at one place a notification is therefore for one at most (`Leads`).
-/

namespace SmingCoap.Server

/-! ## Observers at one place -/

/-- The observers are reached over the same interface at the same endpoint. -/
def CoapObserver.beside (observer other : CoapObserver) : Bool :=
  observer.ifID = other.ifID && epAreEqual observer.ep other.ep

theorem CoapObserver.beside_iff (observer other : CoapObserver) :
    observer.beside other = true ↔ observer.ifID = other.ifID ∧ epAreEqual observer.ep other.ep = true := by
  simp [beside]

theorem CoapObserver.beside_refl (observer : CoapObserver) : observer.beside observer = true := by
  simp [beside, epAreEqual_refl]

theorem CoapInteraction.notifies_iff (pIA : CoapInteraction) (pRes : Nat) (observer : CoapObserver) :
    pIA.notifies pRes observer = true ↔ pIA.role = .notification ∧ pIA.pRes = some pRes ∧
      pIA.ifID = observer.ifID ∧ epAreEqual pIA.remoteEp observer.ep = true := by
  simp [notifies, and_assoc]

/-- A notification for one of two observers at one place is for the other too. -/
theorem CoapObserver.beside.notifies {observer other : CoapObserver} (beside : observer.beside other = true)
    (pRes : Nat) (pIA : CoapInteraction) : pIA.notifies pRes observer = pIA.notifies pRes other := by
  obtain ⟨ifID, ep⟩ := (observer.beside_iff other).mp beside
  rw [Bool.eq_iff_iff, CoapInteraction.notifies_iff, CoapInteraction.notifies_iff, ifID]
  apply and_congr_right'
  apply and_congr_right'
  apply and_congr_right'
  constructor
  · exact fun same => epAreEqual_trans same ep
  · exact fun same => epAreEqual_trans same (epAreEqual_symm ep)

theorem CoapInteraction.beside_of_notifies {pIA : CoapInteraction} {pRes : Nat} {observer other : CoapObserver}
    (notifies : pIA.notifies pRes observer = true) (too : pIA.notifies pRes other = true) :
    observer.beside other = true := by
  obtain ⟨_, _, ifID, ep⟩ := (pIA.notifies_iff pRes observer).mp notifies
  obtain ⟨_, _, otherIfID, otherEp⟩ := (pIA.notifies_iff pRes other).mp too
  exact (observer.beside_iff other).mpr ⟨ifID.symm.trans otherIfID, epAreEqual_trans (epAreEqual_symm ep) otherEp⟩

/-- The response has the token. -/
def CoapInteraction.carries (pIA : CoapInteraction) (token : UInt64) : Bool :=
  pIA.pRespMsg.any fun msg => msg.token64 = token

namespace CoapServer

/-! ## What is asked of a notification -/

/-- There is memory, and the notifier of the resource succeeds with the code and the token it is given. -/
structure Succeeds (env : Env) (pRes : Nat) : Prop where
  alloc : ∀ i, env.alloc i = true
  result : ∀ turn pObserver pResp, (env.notifier turn pRes (some pObserver) pResp).result = .ok
  code : ∀ turn pObserver pResp, pResp.code = respSuccessContent →
    (env.notifier turn pRes (some pObserver) pResp).resp.code = respSuccessContent
  token : ∀ turn pObserver pResp, (env.notifier turn pRes (some pObserver) pResp).resp.token64 = pResp.token64

/-- The interaction is newer than `first`, with what a notifier left and the new Observe value. -/
structure Renewed (env : Env) (first pRes : Nat) (updateCnt : UInt32) (pIA : CoapInteraction) : Prop where
  new : first ≤ pIA.ref
  made : ∃ turn pObserver created,
    pIA.pRespMsg = some (completed true (env.notifier turn pRes (some pObserver) created).resp updateCnt)

/-- It will be sent with the new representation. -/
def UpToDate (env : Env) (first pRes : Nat) (updateCnt : UInt32) (pIA : CoapInteraction) : Prop :=
  pIA.updatePendingNotification = true ∨ Renewed env first pRes updateCnt pIA

/-- A notification of the resource is on its way to the observer, under its token. -/
def Covered (env : Env) (first pRes : Nat) (updateCnt : UInt32) (after : CoapServer) (pObserver : CoapObserver) :
    Prop :=
  ∃ pIA ∈ after.pInteractions, pIA.notifies pRes pObserver = true ∧ pIA.carries pObserver.token = true ∧
    UpToDate env first pRes updateCnt pIA

/-- The notification that is found for an observer. -/
def lead (this : CoapServer) (pRes : Nat) (pObserver : CoapObserver) : Option CoapInteraction :=
  this.pInteractions.find? fun pIA => pIA.notifies pRes pObserver

/-- The notification that is found for the observer, or one that is flagged already, has its token; or none is
pending, and the first observer at its place has its token. -/
def Leads (this : CoapServer) (pRes : Nat) (observers : List CoapObserver) (pObserver : CoapObserver) : Prop :=
  match this.lead pRes pObserver with
  | some pIA => ∃ other ∈ this.pInteractions, other.notifies pRes pObserver = true ∧
      other.carries pObserver.token = true ∧ (other = pIA ∨ other.updatePendingNotification = true)
  | none => (observers.find? (·.beside pObserver)).map CoapObserver.token = some pObserver.token

/-! ## Turns of the loop -/

/-- What turns for some observers do to the notifications of one; `done` are those that are up to date. -/
structure Led (done : CoapInteraction → Prop) (pRes : Nat) (asked : List CoapObserver) (pObserver : CoapObserver)
    (this after : CoapServer) : Prop where
  kept : ∀ pIA, this.lead pRes pObserver = some pIA → ∃ now, after.lead pRes pObserver = some now ∧
    now.ref = pIA.ref ∧ now.pRespMsg = pIA.pRespMsg ∧ (done pIA → done now) ∧
      (∀ other ∈ asked, other.beside pObserver = true → done now)
  free : this.lead pRes pObserver = none → asked.find? (·.beside pObserver) = none →
    after.lead pRes pObserver = none
  started : this.lead pRes pObserver = none → ∀ first, asked.find? (·.beside pObserver) = some first →
    ∃ now resp, after.lead pRes pObserver = some now ∧ now.pRespMsg = some resp ∧ resp.token64 = first.token ∧
      done now
  others : ∀ now ∈ after.pInteractions, now.notifies pRes pObserver = true →
    now ∈ this.pInteractions ∨ after.lead pRes pObserver = some now
  stays : ∀ pIA ∈ this.pInteractions, pIA.notifies pRes pObserver = true → done pIA →
    ∃ now ∈ after.pInteractions, now.notifies pRes pObserver = true ∧ now.pRespMsg = pIA.pRespMsg ∧ done now

section
variable {done : CoapInteraction → Prop} {pRes : Nat} {pObserver : CoapObserver} {this middle after : CoapServer}

theorem lead_some {pIA : CoapInteraction} (found : this.lead pRes pObserver = some pIA) :
    pIA ∈ this.pInteractions ∧ pIA.notifies pRes pObserver = true :=
  ⟨List.mem_of_find?_eq_some found, by simpa using List.find?_some found⟩

theorem lead_none (free : this.lead pRes pObserver = none) {pIA : CoapInteraction}
    (member : pIA ∈ this.pInteractions) : pIA.notifies pRes pObserver = false := by
  simpa using List.find?_eq_none.mp free pIA member

theorem lead_beside {other : CoapObserver} (beside : other.beside pObserver = true) :
    this.lead pRes other = this.lead pRes pObserver := by
  simp only [lead, CoapObserver.beside.notifies beside]

theorem Led.refl : Led done pRes [] pObserver this this where
  kept := fun pIA found => ⟨pIA, found, rfl, rfl, id, fun _ member => absurd member List.not_mem_nil⟩
  free := fun free _ => free
  started := nofun
  others := fun _ member _ => .inl member
  stays := fun pIA member notifies isDone => ⟨pIA, member, notifies, rfl, isDone⟩

theorem Led.trans {asked further : List CoapObserver} (numbered : Numbered after)
    (led : Led done pRes asked pObserver this middle) (next : Led done pRes further pObserver middle after) :
    Led done pRes (asked ++ further) pObserver this after where
  kept := by
    intro pIA found
    obtain ⟨between, foundBetween, ref, resp, stillDone, nowDone⟩ := led.kept pIA found
    obtain ⟨now, foundNow, sameRef, sameResp, lastDone, atLast⟩ := next.kept between foundBetween
    refine ⟨now, foundNow, sameRef.trans ref, sameResp.trans resp, fun isDone => lastDone (stillDone isDone), ?_⟩
    intro other member beside
    cases List.mem_append.mp member with
    | inl earlier => exact lastDone (nowDone other earlier beside)
    | inr later => exact atLast other later beside
  free := by
    intro free nobody
    rw [List.find?_append, Option.or_eq_none_iff] at nobody
    exact next.free (led.free free nobody.1) nobody.2
  started := by
    intro free first found
    rw [List.find?_append] at found
    cases earlier : asked.find? (·.beside pObserver) with
    | some other =>
      rw [earlier, Option.some_or] at found
      cases found
      obtain ⟨between, resp, foundBetween, response, token, isDone⟩ := led.started free first earlier
      obtain ⟨now, foundNow, _, sameResp, lastDone, _⟩ := next.kept between foundBetween
      exact ⟨now, resp, foundNow, sameResp.trans response, token, lastDone isDone⟩
    | none =>
      rw [earlier, Option.none_or] at found
      exact next.started (led.free free earlier) first found
  others := by
    intro now member notifies
    cases next.others now member notifies with
    | inr found => exact .inr found
    | inl between =>
      cases led.others now between notifies with
      | inl before => exact .inl before
      | inr found =>
        -- the first one stays the first one
        obtain ⟨last, foundLast, sameRef, _⟩ := next.kept now found
        have same : last = now := eq_of_ref numbered.nodup (lead_some foundLast).1 member sameRef
        exact .inr (same ▸ foundLast)
  stays := by
    intro pIA member notifies isDone
    obtain ⟨between, inside, stillNotifies, resp, stillDone⟩ := led.stays pIA member notifies isDone
    obtain ⟨now, last, lastNotifies, sameResp, lastDone⟩ := next.stays between inside stillNotifies stillDone
    exact ⟨now, last, lastNotifies, sameResp.trans resp, lastDone⟩

/-- A notification is pending, and is flagged. -/
theorem storeInteraction_led (numbered : Numbered this) (flags : ∀ pIA : CoapInteraction,
      pIA.updatePendingNotification = true → done pIA)
    {asked : CoapObserver} {pending : CoapInteraction} (found : this.lead pRes asked = some pending) :
    Led done pRes [asked] pObserver this
      (this.storeInteraction { pending with updatePendingNotification := true }) := by
  obtain ⟨pendingMember, pendingNotifies⟩ := lead_some found
  -- the flag is none of the things that are looked for
  have sameNotifies : ∀ pIA ∈ this.pInteractions, (if pIA.ref = pending.ref then
      { pending with updatePendingNotification := true } else pIA).notifies pRes pObserver =
        pIA.notifies pRes pObserver := by
    intro pIA member
    split
    next same =>
      rw [eq_of_ref numbered.nodup member pendingMember same]
      rfl
    next => rfl
  have leads : (this.storeInteraction { pending with updatePendingNotification := true }).lead pRes pObserver =
      (this.lead pRes pObserver).map fun pIA => if pIA.ref = pending.ref then
        { pending with updatePendingNotification := true } else pIA := by
    rw [lead, storeInteraction, List.find?_map, lead]
    congr 1
    exact List.find?_congr sameNotifies
  have flagged : done { pending with updatePendingNotification := true } := flags _ rfl
  have pendingStored : { pending with updatePendingNotification := true } ∈
      (this.storeInteraction { pending with updatePendingNotification := true }).pInteractions :=
    List.mem_map.mpr ⟨pending, pendingMember, if_pos rfl⟩
  refine ⟨?_, ?_, ?_, ?_, ?_⟩
  · intro pIA foundHere
    by_cases same : pIA.ref = pending.ref
    · obtain rfl := eq_of_ref numbered.nodup (lead_some foundHere).1 pendingMember same
      rw [foundHere, Option.map_some, if_pos rfl] at leads
      exact ⟨{ pIA with updatePendingNotification := true }, leads, rfl, rfl, fun _ => flagged,
        fun _ _ _ => flagged⟩
    · refine ⟨pIA, leads.trans (by rw [foundHere, Option.map_some, if_neg same]), rfl, rfl, id, ?_⟩
      intro other member beside
      rw [List.mem_singleton.mp member] at beside
      rw [← lead_beside beside, found] at foundHere
      exact absurd (congrArg CoapInteraction.ref (Option.some.inj foundHere)).symm same
  · intro free _
    rw [leads, free, Option.map_none]
  · intro free first foundFirst
    have beside : asked.beside pObserver = true := by
      have member := List.mem_singleton.mp (List.mem_of_find?_eq_some foundFirst)
      exact member ▸ (by simpa using List.find?_some foundFirst)
    rw [← lead_beside beside, found] at free
    cases free
  · intro now member notifies
    cases mem_stored member with
    | inr earlier => exact .inl earlier.1
    | inl same =>
      have too : pending.notifies pRes pObserver = true := by
        rw [same] at notifies
        exact notifies
      have beside := CoapInteraction.beside_of_notifies pendingNotifies too
      refine .inr (leads.trans ?_)
      rw [← lead_beside beside, found, Option.map_some, if_pos rfl, same]
  · intro pIA member notifies isDone
    by_cases same : pIA.ref = pending.ref
    · obtain rfl := eq_of_ref numbered.nodup member pendingMember same
      exact ⟨_, pendingStored, notifies, rfl, flagged⟩
    · exact ⟨pIA, List.mem_map.mpr ⟨pIA, member, if_neg same⟩, notifies, rfl, isDone⟩

/-- No notification is pending, and one is started behind the clients that the notifier started. -/
theorem startInteraction_led {asked : CoapObserver} (free : this.lead pRes asked = none)
    {clients : List CoapInteraction} (areClients : ∀ pIA ∈ clients, pIA.role = .client) {new : CoapInteraction}
    (list : after.pInteractions = this.pInteractions ++ clients ++ [new]) {resp : CoapMessage} {ref : Nat}
    (made : new = { CoapInteraction.notifying pRes asked resp with ref }) (token : resp.token64 = asked.token)
    (isDone : done new) : Led done pRes [asked] pObserver this after := by
  have newNotifies : new.notifies pRes pObserver = asked.beside pObserver := by
    rw [made, Bool.eq_iff_iff, CoapInteraction.notifies_iff, CoapObserver.beside_iff]
    simp [CoapInteraction.notifying]
  have noClient : ∀ pIA ∈ clients, pIA.notifies pRes pObserver = false := by
    intro pIA member
    rw [Bool.eq_false_iff, Ne, CoapInteraction.notifies_iff, areClients pIA member]
    exact fun notifies => absurd notifies.1 (by decide)
  have clientsFree : clients.find? (fun pIA => pIA.notifies pRes pObserver) = none := by
    rw [List.find?_eq_none]
    intro pIA member
    simp [noClient pIA member]
  -- the first notification found for an observer is the old one, and else the new one
  have leads : after.lead pRes pObserver =
      (this.lead pRes pObserver).or (if asked.beside pObserver then some new else none) := by
    rw [lead, list, List.find?_append, List.find?_append, clientsFree, Option.or_none, lead]
    congr 1
    rw [List.find?_singleton, newNotifies]
  refine ⟨?_, ?_, ?_, ?_, ?_⟩
  · intro pIA found
    refine ⟨pIA, leads.trans (by rw [found, Option.some_or]), rfl, rfl, id, ?_⟩
    intro other member beside
    rw [List.mem_singleton.mp member] at beside
    rw [← lead_beside beside, free] at found
    cases found
  · intro freeHere nobody
    have apart : ¬ asked.beside pObserver = true := by simpa using List.find?_eq_none.mp nobody asked
    rw [leads, freeHere, if_neg apart, Option.or_none]
  · intro freeHere first foundFirst
    obtain rfl := List.mem_singleton.mp (List.mem_of_find?_eq_some foundFirst)
    have beside : first.beside pObserver = true := by simpa using List.find?_some foundFirst
    refine ⟨new, resp, leads.trans ?_, by rw [made]; rfl, token, isDone⟩
    rw [freeHere, if_pos beside, Option.none_or]
  · intro now member notifies
    rw [list] at member
    rcases List.mem_append.mp member with earlier | last
    · cases List.mem_append.mp earlier with
      | inl before => exact .inl before
      | inr client =>
        rw [noClient now client] at notifies
        cases notifies
    · rw [List.mem_singleton.mp last, newNotifies] at notifies
      refine .inr (leads.trans ?_)
      rw [← lead_beside notifies, free, if_pos notifies, Option.none_or, List.mem_singleton.mp last]
  · intro pIA member notifies isDone
    exact ⟨pIA, list ▸ List.mem_append_left _ (List.mem_append_left _ member), notifies, rfl, isDone⟩

end

/-! ## The loop -/

theorem completed_token (available : Bool) (resp : CoapMessage) (updateCnt : UInt32) :
    (completed available resp updateCnt).token64 = resp.token64 := by
  unfold completed
  simp only
  split <;> rfl

section
variable {env : Env} {this : CoapServer} {first pRes : Nat} {resource : CoapResource}

/-- One turn. -/
theorem notifyObserver_led (succeeds : Succeeds env pRes) (numbered : Numbered this)
    (below : first ≤ this.interactions) (notifier : resource.notifier = true) (asked : CoapObserver) :
    (this.notifyObserver env pRes resource asked).1 = true ∧
      (this.notifyObserver env pRes resource asked).2.resources = this.resources ∧
      ∀ pObserver, Led (UpToDate env first pRes resource.updateCnt) pRes [asked] pObserver this
        (this.notifyObserver env pRes resource asked).2 := by
  -- a pending notification is flagged; without one a new one is started
  cases found : this.lead pRes asked with
  | some pending =>
    have turn : this.notifyObserver env pRes resource asked =
        (true, this.storeInteraction { pending with updatePendingNotification := true }) := by
      rw [lead] at found
      simp only [notifyObserver, found]
    rw [turn]
    exact ⟨rfl, rfl, fun _ => storeInteraction_led numbered (fun _ flagged => .inl flagged) found⟩
  | none =>
    have calls : CallsNotifier env this pRes resource asked :=
      ⟨fun pIA member => lead_none found member, succeeds.alloc _, succeeds.alloc _, notifier⟩
    have ok : (freshNotified env this pRes asked).result = .ok := succeeds.result ..
    have code : ¬ (freshNotified env this pRes asked).resp.code ≥ respErrorBadRequest := by
      rw [freshNotified, succeeds.code _ _ _ rfl]
      decide
    have available : ((freshCalled env this pRes asked).memGet env).1 = true := succeeds.alloc _
    have turn := notifyObserver_called calls
    simp only [ok, ne_eq, not_true_eq_false, if_false, code, available] at turn
    have askedFor : Asked this (freshCalled env this pRes asked) := freshCalled_asked
    obtain ⟨clients, list, areClients⟩ := askedFor.list
    rw [turn]
    have token : (completed true (freshNotified env this pRes asked).resp resource.updateCnt).token64 =
        asked.token := by
      rw [completed_token]
      exact succeeds.token ..
    have renewed : UpToDate env first pRes resource.updateCnt
        { CoapInteraction.notifying pRes asked
            (completed true (freshNotified env this pRes asked).resp resource.updateCnt) with
          ref := (freshCalled env this pRes asked).interactions } :=
      .inr ⟨below.trans askedFor.interactions, _, _, _, rfl⟩
    have placed : (((freshCalled env this pRes asked).memGet env).2.startInteraction (.notifying pRes asked
        (completed true (freshNotified env this pRes asked).resp resource.updateCnt))).pInteractions =
        this.pInteractions ++ clients ++ [{ CoapInteraction.notifying pRes asked
            (completed true (freshNotified env this pRes asked).resp resource.updateCnt) with
          ref := (freshCalled env this pRes asked).interactions }] := by
      rw [← list]
      rfl
    exact ⟨rfl, askedFor.resources, fun _ =>
      startInteraction_led found (fun pIA member => (areClients pIA member).1) placed rfl token renewed⟩

theorem notifyLoop_led (succeeds : Succeeds env pRes) (numbered : Numbered this) (below : first ≤ this.interactions)
    (found : ∃ current, this.resources[pRes]? = some current ∧ current.notifier = resource.notifier)
    (notifier : resource.notifier = true) (observers : List CoapObserver) :
    (notifyLoop env pRes resource this observers).resources = this.resources ∧
      Numbered (notifyLoop env pRes resource this observers) ∧
      ∀ pObserver, Led (UpToDate env first pRes resource.updateCnt) pRes observers pObserver this
        (notifyLoop env pRes resource this observers) := by
  induction observers generalizing this with
  | nil => exact ⟨rfl, numbered, fun _ => .refl⟩
  | cons asked rest inductionHypothesis =>
    obtain ⟨goesOn, resources, led⟩ := notifyObserver_led succeeds numbered below notifier asked
    have calls : Calls env (fun _ => True) this (this.notifyObserver env pRes resource asked).2 :=
      notifyObserver_calls found trivial
    obtain ⟨nextNumbered, grown, _⟩ := calls.grows numbered
    have loop : notifyLoop env pRes resource this (asked :: rest) =
        notifyLoop env pRes resource (this.notifyObserver env pRes resource asked).2 rest := by
      rw [notifyLoop]
      split
      next stopped => rw [stopped] at goesOn; cases goesOn
      next after turn => rw [turn]
    rw [loop]
    obtain ⟨sameResources, lastNumbered, further⟩ :=
      inductionHypothesis nextNumbered (below.trans grown) (resources ▸ found)
    exact ⟨sameResources.trans resources, lastNumbered, fun pObserver =>
      (led pObserver).trans lastNumbered (further pObserver)⟩

/-- Who is covered can be told from the state before. -/
theorem covered_iff {after : CoapServer} {updateCnt : UInt32} {observers : List CoapObserver}
    {pObserver : CoapObserver} (numbered : Numbered this) (member : pObserver ∈ observers)
    (led : Led (UpToDate env this.interactions pRes updateCnt) pRes observers pObserver this after) :
    Covered env this.interactions pRes updateCnt after pObserver ↔ this.Leads pRes observers pObserver := by
  obtain ⟨head, foundHead⟩ : ∃ head, observers.find? (·.beside pObserver) = some head := by
    rw [← Option.isSome_iff_exists, List.find?_isSome]
    exact ⟨pObserver, member, pObserver.beside_refl⟩
  -- what is up to date and was there before was flagged
  have flagged : ∀ pIA ∈ this.pInteractions, UpToDate env this.interactions pRes updateCnt pIA →
      pIA.updatePendingNotification = true := by
    intro pIA inside upToDate
    cases upToDate with
    | inl flag => exact flag
    | inr renewed => exact absurd (numbered.listed pIA inside) (Nat.not_lt.mpr renewed.new)
  rw [Leads]
  cases found : this.lead pRes pObserver with
  | some pending =>
    obtain ⟨now, foundNow, _, sameResp, _, atLast⟩ := led.kept pending found
    have nowDone := atLast pObserver member pObserver.beside_refl
    constructor
    · rintro ⟨pIA, inside, notifies, carries, upToDate⟩
      cases led.others pIA inside notifies with
      | inl before => exact ⟨pIA, before, notifies, carries, .inr (flagged pIA before upToDate)⟩
      | inr leading =>
        obtain rfl : now = pIA := Option.some.inj (foundNow.symm.trans leading)
        rw [CoapInteraction.carries, sameResp] at carries
        exact ⟨pending, (lead_some found).1, (lead_some found).2, carries, .inl rfl⟩
    · rintro ⟨other, inside, notifies, carries, rfl | flag⟩
      · refine ⟨now, (lead_some foundNow).1, (lead_some foundNow).2, ?_, nowDone⟩
        rw [CoapInteraction.carries, sameResp]
        exact carries
      · obtain ⟨last, insideLast, notifiesLast, respLast, doneLast⟩ := led.stays other inside notifies (.inl flag)
        refine ⟨last, insideLast, notifiesLast, ?_, doneLast⟩
        rw [CoapInteraction.carries, respLast]
        exact carries
  | none =>
    obtain ⟨now, resp, foundNow, response, token, nowDone⟩ := led.started found head foundHead
    simp only [foundHead, Option.map_some, Option.some.injEq, ← token]
    constructor
    · rintro ⟨pIA, inside, notifies, carries, _⟩
      cases led.others pIA inside notifies with
      | inl before =>
        rw [lead_none found before] at notifies
        cases notifies
      | inr leading =>
        obtain rfl : now = pIA := Option.some.inj (foundNow.symm.trans leading)
        simpa [CoapInteraction.carries, response] using carries
    · intro same
      exact ⟨now, (lead_some foundNow).1, (lead_some foundNow).2, by simp [CoapInteraction.carries, response, same],
        nowDone⟩

theorem startNotifyInteractions_covers_iff (succeeds : Succeeds env pRes) (numbered : Numbered this)
    (found : this.resources[pRes]? = some resource) (notifier : resource.notifier = true) :
    (this.startNotifyInteractions env pRes).resources = this.resources ∧ ∀ pObserver ∈ resource.observers,
      (Covered env this.interactions pRes resource.updateCnt (this.startNotifyInteractions env pRes) pObserver ↔
        this.Leads pRes resource.observers pObserver) := by
  obtain ⟨resources, _, led⟩ :=
    notifyLoop_led succeeds numbered (Nat.le_refl _) ⟨resource, found, rfl⟩ notifier resource.observers
  simp only [startNotifyInteractions, found]
  exact ⟨resources, fun pObserver member => covered_iff numbered member (led pObserver)⟩

end

/-! ## All observers of a resource -/

section
variable {env ran : Env} {resources : List CoapResource} {this midway : CoapServer} {pIA : CoapInteraction}

theorem Midway.numbered (halfway : Midway ran pIA this midway) (numbered : Numbered this)
    (member : pIA ∈ this.pInteractions) : Numbered midway := by
  obtain ⟨prepared, begun, prepares, begins, calls⟩ := halfway
  obtain ⟨preparedNumbered, grown, _⟩ := prepares.grows numbered
  have below : pIA.ref < prepared.interactions := Nat.lt_of_lt_of_le (numbered.listed pIA member) grown
  exact (calls.grows (begins.numbered preparedNumbered below)).1

/-- In a state that is reached, or halfway through a turn, a call covers all observers of a resource exactly when each
of them is the one that a notification at its place is for. -/
theorem notifyResourceObservers_covers_iff (reaches : Reaches ran resources this)
    (halfway : midway = this ∨ ∃ pIA ∈ this.pInteractions, Midway ran pIA this midway) {pRes : Nat}
    {resource : CoapResource} (found : midway.resources[pRes]? = some resource) (notifier : resource.notifier = true)
    (succeeds : Succeeds env pRes) :
    (midway.notifyResourceObservers env pRes).resources[pRes]? =
        some { resource with updateCnt := resource.updateCnt + 1 } ∧
      ((∀ pObserver ∈ resource.observers, Covered env midway.interactions pRes (resource.updateCnt + 1)
          (midway.notifyResourceObservers env pRes) pObserver) ↔
        ∀ pObserver ∈ resource.observers, midway.Leads pRes resource.observers pObserver) := by
  have numbered : Numbered midway := by
    rcases halfway with rfl | ⟨pIA, member, halfway⟩
    · exact (run_shaped reaches).numbered
    · exact halfway.numbered (run_shaped reaches).numbered member
  -- the counter is no part of what is looked for
  have updated : (midway.modifyResource pRes fun resource =>
      { resource with updateCnt := resource.updateCnt + 1 }).resources[pRes]? =
        some { resource with updateCnt := resource.updateCnt + 1 } := by
    simp [modifyResource, found]
  have numberedUpdated : Numbered (midway.modifyResource pRes fun resource =>
      { resource with updateCnt := resource.updateCnt + 1 }) :=
    ⟨numbered.nodup, numbered.listed, numbered.logged⟩
  obtain ⟨resources, covers⟩ := startNotifyInteractions_covers_iff succeeds numberedUpdated updated notifier
  constructor
  · rw [notifyResourceObservers, resources, updated]
  · exact forall₂_congr covers

end

/-! ## Two observations of one client -/

/-- A registration with token 8 and message id 2. -/
def observeSensorAgain : List UInt8 := [0x41, 0x01, 0x00, 0x02, 0x08, 0x60, 0x51, 0x61]

theorem idealEnv_succeeds (pRes : Nat) : Succeeds idealEnv pRes where
  alloc := fun _ => rfl
  result := fun _ _ _ => rfl
  code := fun _ _ _ content => content
  token := fun _ _ _ => rfl

/-- A client that registered once is covered. -/
theorem sensor_observer_covered : ∃ (this : CoapServer) (resource : CoapResource), Reaches idealEnv [sensor] this ∧
    this.resources[0]? = some resource ∧ resource.observers.map CoapObserver.token = [7] ∧
      ∀ pObserver ∈ resource.observers, Covered idealEnv this.interactions 0 (resource.updateCnt + 1)
        (this.notifyResourceObservers idealEnv 0) pObserver := by
  have reached : ([.packet (datagram 0 observeSensor) 0, .doWork 0].foldlM (step idealEnv) (new [sensor])).map
      (fun this => (this.pInteractions.map CoapInteraction.role,
        this.resources.map fun resource => (resource.notifier, resource.observers.map CoapObserver.token))) =
      some ([.server], [(true, [7])]) := by
    decide +kernel
  obtain ⟨this, taken, facts⟩ := Option.map_eq_some_iff.mp reached
  simp only [Prod.mk.injEq, List.map_eq_singleton_iff] at facts
  obtain ⟨⟨pIA, list, role⟩, resource, listed, notifier, pObserver, observers, token⟩ := facts
  have reaches : Reaches idealEnv [sensor] this := .of_events _ .refl taken
  have found : this.resources[0]? = some resource := by rw [listed]; rfl
  obtain ⟨_, covers⟩ := notifyResourceObservers_covers_iff reaches (.inl rfl) found notifier (idealEnv_succeeds 0)
  refine ⟨this, resource, reaches, found, by rw [observers]; exact congrArg (fun token => [token]) token, ?_⟩
  apply covers.mpr
  intro other member
  rw [observers, List.mem_singleton] at member
  subst member
  -- the registration is all there is in the list
  have free : this.lead 0 other = none := by
    simp [lead, list, CoapInteraction.notifies, role]
  simp [Leads, free, observers, CoapObserver.beside_refl]

/-- Of two registrations of one client with different tokens the second is not. -/
theorem second_observer_missed : ¬ ∀ (env : Env) (resources : List CoapResource) (this : CoapServer),
    Reaches env resources this → ∀ pRes resource, this.resources[pRes]? = some resource →
      resource.notifier = true → Succeeds env pRes → ∀ pObserver ∈ resource.observers,
        Covered env this.interactions pRes (resource.updateCnt + 1) (this.notifyResourceObservers env pRes)
          pObserver := by
  intro covered
  have reached : ([.packet (datagram 0 observeSensor) 0, .doWork 0, .doWork 1,
      .packet (datagram 0 observeSensorAgain) 1, .doWork 1].foldlM (step idealEnv) (new [sensor])).map
      (fun this => (((this.notifyResourceObservers idealEnv 0).pInteractions.filter
          (·.role = .notification)).map (·.carries 8),
        this.resources.map fun resource => (resource.notifier, resource.observers.map CoapObserver.token))) =
      some ([false], [(true, [7, 8])]) := by
    decide +kernel
  obtain ⟨this, taken, facts⟩ := Option.map_eq_some_iff.mp reached
  simp only [Prod.mk.injEq, List.map_eq_singleton_iff] at facts
  obtain ⟨⟨notification, notifications, other⟩, resource, listed, notifier, tokens⟩ := facts
  have reaches : Reaches idealEnv [sensor] this := .of_events _ .refl taken
  have found : this.resources[0]? = some resource := by rw [listed]; rfl
  obtain ⟨pObserver, member, token⟩ : ∃ pObserver ∈ resource.observers, pObserver.token = 8 := by
    apply List.mem_map.mp
    rw [tokens]
    simp
  obtain ⟨pIA, inside, notifies, carries, _⟩ :=
    covered idealEnv [sensor] this reaches 0 resource found notifier (idealEnv_succeeds 0) pObserver member
  have only : pIA ∈ [notification] := by
    rw [← notifications, List.mem_filter]
    exact ⟨inside, by simpa using ((pIA.notifies_iff 0 pObserver).mp notifies).1⟩
  rw [List.mem_singleton.mp only, token, other] at carries
  cases carries

end CoapServer

end SmingCoap.Server
