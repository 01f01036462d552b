import Mathlib.Logic.Relation
import SmingCoap.Server.Engine

/-! # What calls into the stack can do

Handlers, notifiers and response callbacks call back into the stack while it
works.  Such a call is a sequence of acts: it draws message ids, appends new
interactions at the end of the list, flags pending notifications and takes
observers away.  It takes no interaction out of the list and sends nothing.
-/

namespace SmingCoap.Server

/-! ## Interactions in the list -/

/-- The interaction an effect belongs to. -/
def Effect.actor : Effect → Option Nat
  | .sent ia _ _ _ _ => ia.map CoapInteraction.ref
  | .handled ia _ => some ia.ref
  | _ => none

namespace CoapServer

/-- Interactions are told apart by their numbers, which are never used again. -/
structure Numbered (this : CoapServer) : Prop where
  nodup : (this.pInteractions.map CoapInteraction.ref).Nodup
  listed : ∀ pIA ∈ this.pInteractions, pIA.ref < this.interactions
  logged : ∀ effect ∈ this.log, ∀ ref, effect.actor = some ref → ref < this.interactions

theorem eq_of_ref {list : List CoapInteraction} (nodup : (list.map CoapInteraction.ref).Nodup)
    {pIA other : CoapInteraction} (member : pIA ∈ list) (too : other ∈ list) (same : pIA.ref = other.ref) :
    pIA = other :=
  List.inj_on_of_nodup_map nodup member too same

theorem mem_stored {list : List CoapInteraction} {pIA other : CoapInteraction}
    (member : other ∈ list.map fun entry => if entry.ref = pIA.ref then pIA else entry) :
    other = pIA ∨ other ∈ list ∧ other.ref ≠ pIA.ref := by
  obtain ⟨entry, listed, rfl⟩ := List.mem_map.mp member
  split
  next => exact .inl rfl
  next differs => exact .inr ⟨listed, differs⟩

theorem map_ref_stored (list : List CoapInteraction) (pIA : CoapInteraction) :
    (list.map fun entry => if entry.ref = pIA.ref then pIA else entry).map CoapInteraction.ref =
      list.map CoapInteraction.ref := by
  rw [List.map_map]
  apply List.map_congr_left
  intro entry _
  simp only [Function.comp_apply]
  split
  next same => exact same.symm
  next => rfl

theorem map_ref_erased (list : List CoapInteraction) (ref : Nat) :
    (list.eraseP fun pIA => pIA.ref = ref).map CoapInteraction.ref = (list.map CoapInteraction.ref).erase ref := by
  induction list with
  | nil => rfl
  | cons first rest inductionHypothesis =>
    by_cases same : first.ref = ref
    · simp [same]
    · simp [same, inductionHypothesis]

theorem mem_erased {list : List CoapInteraction} (nodup : (list.map CoapInteraction.ref).Nodup) {ref : Nat}
    {other : CoapInteraction} (member : other ∈ list.eraseP fun pIA => pIA.ref = ref) :
    other ∈ list ∧ other.ref ≠ ref := by
  constructor
  · exact List.mem_of_mem_eraseP member
  · have kept := List.mem_map_of_mem (f := CoapInteraction.ref) member
    rw [map_ref_erased, nodup.mem_erase_iff] at kept
    exact kept.1

/-! ## Acts -/

/-- What every function keeps of the resources. -/
def layout (resources : List CoapResource) : List (UInt16 × List Wire.Opt × Bool × Bool) :=
  resources.map fun resource => (resource.flags, resource.uri, resource.handler, resource.notifier)

/-- Neither interactions nor resources nor log are touched. -/
structure Silent (this after : CoapServer) : Prop where
  pInteractions : after.pInteractions = this.pInteractions
  resources : after.resources = this.resources
  interactions : after.interactions = this.interactions
  transmissions : after.transmissions = this.transmissions
  log : after.log = this.log

/-- An act of a call.  Notifications go to observers that were `known` when the call began. -/
inductive CallAct (env : Env) (known : CoapObserver → Prop) (this : CoapServer) : CoapServer → Prop
  | silent {after : CoapServer} (same : Silent this after) : CallAct env known this after
  | nextMid : CallAct env known this this.getNextMid.2
  | flag {pIA : CoapInteraction} (member : pIA ∈ this.pInteractions) (pending : pIA.role = .notification) :
      CallAct env known this (this.storeInteraction { pIA with updatePendingNotification := true })
  | client {pMsgReq : CoapMessage} (request : pMsgReq.isRequest = true) (ifID : UInt8) (serverEp : NetEp)
      (cb : Bool) : CallAct env known this (this.startInteraction (.requesting pMsgReq ifID serverEp cb))
  | notification {pRes : Nat} {resource : CoapResource} {pObserver : CoapObserver} {created resp : CoapMessage}
      {turn : Nat} (found : this.resources[pRes]? = some resource) (notifier : resource.notifier = true)
      (observer : known pObserver) (token : created.token64 = pObserver.token)
      (notified : resp.token64 = (env.notifier turn pRes (some pObserver) created).resp.token64) :
      CallAct env known this (this.startInteraction (.notifying pRes pObserver resp))
  | removeObserver (pRes : Nat) (ifID : UInt8) (ep : NetEp) (token : UInt64) :
      CallAct env known this (this.modifyResource pRes fun resource => resource.removeObserver ifID ep token)
  | update (pRes : Nat) :
      CallAct env known this
        (this.modifyResource pRes fun resource => { resource with updateCnt := resource.updateCnt + 1 })

/-- A sequence of acts. -/
def Calls (env : Env) (known : CoapObserver → Prop) : CoapServer → CoapServer → Prop :=
  Relation.ReflTransGen (CallAct env known)

/-- The observers of all resources. -/
def IsObserver (this : CoapServer) (pObserver : CoapObserver) : Prop :=
  ∃ resource ∈ this.resources, pObserver ∈ resource.observers

theorem calls_refl {env : Env} {known : CoapObserver → Prop} {this : CoapServer} : Calls env known this this :=
  .refl

theorem Calls.trans {env : Env} {known : CoapObserver → Prop} {this middle after : CoapServer}
    (calls : Calls env known this middle) (further : Calls env known middle after) :
    Calls env known this after :=
  Relation.ReflTransGen.trans calls further

theorem CallAct.calls {env : Env} {known : CoapObserver → Prop} {this after : CoapServer}
    (act : CallAct env known this after) : Calls env known this after :=
  .single act

theorem Silent.calls {env : Env} {known : CoapObserver → Prop} {this after : CoapServer}
    (same : Silent this after) : Calls env known this after :=
  .single (.silent same)

theorem nextMid_calls (env : Env) (known : CoapObserver → Prop) (this : CoapServer) :
    Calls env known this this.getNextMid.2 :=
  .single .nextMid

theorem memGet_silent (env : Env) (this : CoapServer) : Silent this (this.memGet env).2 :=
  ⟨rfl, rfl, rfl, rfl, rfl⟩

theorem generateToken_silent (this : CoapServer) : Silent this this.generateToken.2 :=
  ⟨rfl, rfl, rfl, rfl, rfl⟩

theorem allocs_silent (this : CoapServer) (allocs : Nat) : Silent this { this with allocs } :=
  ⟨rfl, rfl, rfl, rfl, rfl⟩

theorem createMessage_silent (env : Env) (this : CoapServer) (type : MessageType) (code : UInt8)
    (messageID payloadMaxSize : Nat) (token : UInt64) :
    Silent this (this.createMessage env type code messageID payloadMaxSize token).2 := by
  unfold createMessage memGet
  cases env.alloc this.allocs with
  | false => exact ⟨rfl, rfl, rfl, rfl, rfl⟩
  | true => exact ⟨rfl, rfl, rfl, rfl, rfl⟩

theorem createMessage_eq {env : Env} {this : CoapServer} {type : MessageType} {code : UInt8}
    {messageID payloadMaxSize : Nat} {token : UInt64} {msg : CoapMessage}
    (created : (this.createMessage env type code messageID payloadMaxSize token).1 = some msg) :
    msg.type = type ∧ msg.code = code ∧ msg.messageID = messageID ∧ msg.token64 = token := by
  unfold createMessage memGet at created
  cases available : env.alloc this.allocs with
  | false => simp [available] at created
  | true =>
    simp only [available, Option.some.injEq] at created
    subst created
    exact ⟨rfl, rfl, rfl, rfl⟩

/-! ## Resources -/

theorem layout_modify (resources : List CoapResource) (pRes : Nat) (change : CoapResource → CoapResource)
    (kept : ∀ resource, layout [change resource] = layout [resource]) :
    layout (resources.modify pRes change) = layout resources := by
  induction resources generalizing pRes with
  | nil => simp
  | cons resource rest inductionHypothesis =>
    have first := kept resource
    simp only [layout, List.map_cons, List.map_nil, List.cons.injEq, and_true] at first
    cases pRes with
    | zero => simp [layout, first]
    | succ pRes =>
      have behind := inductionHypothesis pRes
      simp only [layout] at behind
      simp [layout, behind]

/-- A resource is found again, with what is kept of it. -/
theorem layout_getElem? {resources others : List CoapResource} (same : layout others = layout resources)
    {pRes : Nat} {resource : CoapResource} (found : resources[pRes]? = some resource) :
    ∃ other, others[pRes]? = some other ∧ layout [other] = layout [resource] := by
  have mapped := congrArg (fun list => list[pRes]?) same
  simp only [layout, List.getElem?_map, found, Option.map_some] at mapped
  obtain ⟨other, found, kept⟩ := Option.map_eq_some_iff.mp mapped
  exact ⟨other, found, by simp [layout, kept]⟩

theorem layout_singleton {resource other : CoapResource} (same : layout [other] = layout [resource]) :
    other.flags = resource.flags ∧ other.uri = resource.uri ∧ other.handler = resource.handler ∧
      other.notifier = resource.notifier := by
  simpa [layout] using same

/-! ## The observers a call knows -/

theorem isObserver_modify {this : CoapServer} {pRes : Nat} {change : CoapResource → CoapResource}
    {pObserver : CoapObserver} (observer : (this.modifyResource pRes change).IsObserver pObserver)
    (fewer : ∀ resource, ∀ other ∈ (change resource).observers, other ∈ resource.observers) :
    this.IsObserver pObserver := by
  obtain ⟨changed, listed, member⟩ := observer
  obtain ⟨i, found⟩ := List.mem_iff_getElem?.mp listed
  rw [modifyResource, List.getElem?_modify, Option.map_eq_map, Option.map_eq_some_iff] at found
  obtain ⟨resource, found, rfl⟩ := found
  refine ⟨resource, List.mem_of_getElem? found, ?_⟩
  split at member
  next => exact fewer resource pObserver member
  next => exact member

theorem CallAct.isObserver {env : Env} {known : CoapObserver → Prop} {this after : CoapServer}
    (act : CallAct env known this after) {pObserver : CoapObserver} (observer : after.IsObserver pObserver) :
    this.IsObserver pObserver := by
  cases act with
  | silent same =>
    rw [IsObserver, same.resources] at observer
    exact observer
  | nextMid => exact observer
  | flag => exact observer
  | client => exact observer
  | notification => exact observer
  | removeObserver =>
    exact isObserver_modify observer fun resource other member => List.mem_of_mem_eraseP member
  | update => exact isObserver_modify observer fun resource other member => member

theorem Calls.isObserver {env : Env} {known : CoapObserver → Prop} {this after : CoapServer}
    (calls : Calls env known this after) {pObserver : CoapObserver} (observer : after.IsObserver pObserver) :
    this.IsObserver pObserver := by
  induction calls with
  | refl => exact observer
  | tail _ act inductionHypothesis => exact inductionHypothesis (act.isObserver observer)

/-! ## Requests -/

section
variable {env : Env} {known : CoapObserver → Prop}

theorem startNewClientInteraction_calls (this : CoapServer) (pMsgReq : CoapMessage) (ifID : UInt8)
    (serverEp : NetEp) (cb : Bool) :
    Calls env known this (this.startNewClientInteraction env pMsgReq ifID serverEp cb) := by
  unfold startNewClientInteraction
  split
  next => exact calls_refl
  next request =>
    unfold memGet
    cases env.alloc this.allocs with
    | false => exact (allocs_silent this _).calls
    | true =>
      exact (allocs_silent this _).calls.trans
        (CallAct.client (Bool.not_eq_false _ ▸ request) ifID serverEp cb).calls

theorem startNewGetRequest_calls (this : CoapServer) (uriString : List UInt8) (ifID : UInt8)
    (serverEp : NetEp) (cb : Bool) :
    Calls env known this (this.startNewGetRequest env uriString ifID serverEp cb) := by
  have drawn : Calls env known this this.getNextMid.2 := CallAct.nextMid.calls
  have token := drawn.trans (generateToken_silent this.getNextMid.2).calls
  have created := token.trans (createMessage_silent env this.getNextMid.2.generateToken.2 .con reqGet
    this.getNextMid.1 0 this.getNextMid.2.generateToken.1).calls
  unfold startNewGetRequest
  simp only
  split
  next nothing =>
    rw [nothing] at created
    exact created
  next pReqMsg after made =>
    rw [made] at created
    exact (created.trans (allocs_silent after _).calls).trans (startNewClientInteraction_calls ..)

theorem perform_calls (this : CoapServer) (request : ClientRequest) :
    Calls env known this (this.perform env request) := by
  cases request with
  | interaction pMsgReq ifID serverEp cb => exact startNewClientInteraction_calls this pMsgReq ifID serverEp cb
  | get uriString ifID serverEp cb => exact startNewGetRequest_calls this uriString ifID serverEp cb

theorem performs_calls (requests : List ClientRequest) (this : CoapServer) :
    Calls env known this (requests.foldl (perform env) this) := by
  induction requests generalizing this with
  | nil => exact calls_refl
  | cons request rest inductionHypothesis =>
    exact (perform_calls this request).trans (inductionHypothesis (this.perform env request))

theorem callNotifier_calls (this : CoapServer) (pRes : Nat) (pObserver : Option CoapObserver)
    (pResp : CoapMessage) : Calls env known this (this.callNotifier env pRes pObserver pResp).2 := by
  have called : Silent this { this with callbacks := this.callbacks + 1 } := ⟨rfl, rfl, rfl, rfl, rfl⟩
  exact called.calls.trans
    (performs_calls (env.notifier this.callbacks pRes pObserver pResp).requests _)

/-! ## Notifications -/

theorem Calls.resource {this after : CoapServer} (calls : Calls env known this after) :
    layout after.resources = layout this.resources := by
  induction calls with
  | refl => rfl
  | tail _ act inductionHypothesis =>
    rw [← inductionHypothesis]
    cases act with
    | silent same => rw [same.resources]
    | nextMid => rfl
    | flag => rfl
    | client => rfl
    | notification => rfl
    | removeObserver => exact layout_modify _ _ _ fun _ => rfl
    | update => exact layout_modify _ _ _ fun _ => rfl

theorem notifyObserver_calls {this : CoapServer} {pRes : Nat} {resource : CoapResource}
    {pObserver : CoapObserver} (layouts : ∃ found, this.resources[pRes]? = some found ∧
      found.notifier = resource.notifier) (observer : known pObserver) :
    Calls env known this (this.notifyObserver env pRes resource pObserver).2 := by
  unfold notifyObserver
  split
  next pIA pending =>
    -- the observer has a notification already
    have member := List.mem_of_find?_eq_some pending
    have notifies := List.find?_some pending
    simp only [CoapInteraction.notifies, Bool.and_eq_true, decide_eq_true_eq] at notifies
    exact (CallAct.flag member notifies.1.1.1).calls
  next =>
    have allocated : Calls env known this (this.memGet env).2 := (memGet_silent env this).calls
    cases memory : this.memGet env with
    | mk available middle =>
      rw [memory] at allocated
      cases available with
      | false => exact allocated
      | true =>
        have drawn := allocated.trans (nextMid_calls env known middle)
        have created := drawn.trans (createMessage_silent env middle.getNextMid.2 .con respSuccessContent
          middle.getNextMid.1 preferedPayloadSize pObserver.token).calls
        simp only
        split
        next nothing =>
          rw [nothing] at created
          exact created
        next pRespMsg after made =>
          have fields := createMessage_eq (congrArg Prod.fst made)
          rw [made] at created
          split
          next => exact created
          next notifier =>
            have notified := created.trans (callNotifier_calls after pRes (some pObserver) pRespMsg)
            split
            next => exact notified
            next =>
              split
              next => exact notified.trans (CallAct.removeObserver pRes _ _ _).calls
              next =>
                have optional := notified.trans (memGet_silent env
                  (after.callNotifier env pRes (some pObserver) pRespMsg).2).calls
                obtain ⟨found, listed, same⟩ := layouts
                obtain ⟨now, listed, kept⟩ := layout_getElem? optional.resource listed
                apply optional.trans
                apply CallAct.calls
                apply CallAct.notification listed _ observer fields.2.2.2
                · split
                  next => rfl
                  next => rfl
                · rw [(layout_singleton kept).2.2.2, same]
                  exact Bool.not_eq_false _ ▸ notifier

theorem notifyLoop_calls {pRes : Nat} {resource : CoapResource} (observers : List CoapObserver)
    (knows : ∀ pObserver ∈ observers, known pObserver) {this : CoapServer}
    (layouts : ∃ found, this.resources[pRes]? = some found ∧ found.notifier = resource.notifier) :
    Calls env known this (notifyLoop env pRes resource this observers) := by
  induction observers generalizing this with
  | nil => exact calls_refl
  | cons pObserver rest inductionHypothesis =>
    have first : Calls env known this (this.notifyObserver env pRes resource pObserver).2 :=
      notifyObserver_calls layouts (knows pObserver List.mem_cons_self)
    rw [notifyLoop]
    split
    next after ended =>
      rw [ended] at first
      exact first
    next after goesOn =>
      rw [goesOn] at first
      apply first.trans
      apply inductionHypothesis fun other member => knows other (List.mem_cons_of_mem _ member)
      obtain ⟨found, listed, same⟩ := layouts
      obtain ⟨now, listed, kept⟩ := layout_getElem? first.resource listed
      exact ⟨now, listed, (layout_singleton kept).2.2.2.trans same⟩

theorem call_calls {this : CoapServer} (knows : ∀ pObserver, this.IsObserver pObserver → known pObserver)
    (request : Call) : Calls env known this (this.call env request) := by
  cases request with
  | request request => exact perform_calls this request
  | notify pRes =>
    have updated : Calls env known this (this.modifyResource pRes fun resource =>
        { resource with updateCnt := resource.updateCnt + 1 }) := (CallAct.update pRes).calls
    apply updated.trans
    simp only [call, notifyResourceObservers, startNotifyInteractions]
    split
    next => exact calls_refl
    next resource found =>
      apply notifyLoop_calls resource.observers
      · intro pObserver member
        exact knows pObserver (updated.isObserver ⟨resource, List.mem_of_getElem? found, member⟩)
      · exact ⟨resource, found, rfl⟩

theorem calls_calls {this : CoapServer} (knows : ∀ pObserver, this.IsObserver pObserver → known pObserver)
    (requests : List Call) : Calls env known this (requests.foldl (call env) this) := by
  induction requests generalizing this with
  | nil => exact calls_refl
  | cons request rest inductionHypothesis =>
    have first : Calls env known this (this.call env request) := call_calls knows request
    exact first.trans (inductionHypothesis fun pObserver observer =>
      knows pObserver (first.isObserver observer))

end

/-! ## What a call does to the list -/

/-- The same interaction, but that a pending notification may be flagged as out of date. -/
def Flagged (pIA after : CoapInteraction) : Prop :=
  after = pIA ∨ pIA.role = .notification ∧ after = { pIA with updatePendingNotification := true }

theorem Flagged.ref {pIA after : CoapInteraction} (flagged : Flagged pIA after) : after.ref = pIA.ref := by
  cases flagged with
  | inl same => rw [same]
  | inr pending => rw [pending.2]

theorem Flagged.role {pIA after : CoapInteraction} (flagged : Flagged pIA after) : after.role = pIA.role := by
  cases flagged with
  | inl same => rw [same]
  | inr pending => rw [pending.2]

theorem Flagged.trans {pIA middle after : CoapInteraction} (first : Flagged pIA middle)
    (further : Flagged middle after) : Flagged pIA after := by
  cases first with
  | inl same => rwa [← same]
  | inr pending =>
    obtain ⟨role, rfl⟩ := pending
    cases further with
    | inl same => exact .inr ⟨role, same⟩
    | inr again => exact .inr ⟨role, again.2⟩

/-- The list of interactions only grows, at its end, by interactions from the number `first` on. -/
def Grows (first : Nat) (before after : List CoapInteraction) : Prop :=
  ∃ flag new, after = before.map flag ++ new ∧ (∀ pIA ∈ before, Flagged pIA (flag pIA)) ∧
    ∀ pIA ∈ new, first ≤ pIA.ref

theorem Grows.refl (first : Nat) (list : List CoapInteraction) : Grows first list list :=
  ⟨id, [], by simp, fun _ _ => .inl rfl, by simp⟩

theorem Grows.flag {first : Nat} {before middle : List CoapInteraction} (grows : Grows first before middle)
    {flag : CoapInteraction → CoapInteraction} (flagged : ∀ pIA ∈ middle, Flagged pIA (flag pIA)) :
    Grows first before (middle.map flag) := by
  obtain ⟨earlier, new, rfl, flags, behind⟩ := grows
  refine ⟨flag ∘ earlier, new.map flag, by simp, ?_, ?_⟩
  · intro pIA member
    exact (flags pIA member).trans
      (flagged _ (List.mem_append_left _ (List.mem_map_of_mem (f := earlier) member)))
  · intro pIA member
    obtain ⟨other, listed, rfl⟩ := List.mem_map.mp member
    rw [(flagged other (List.mem_append_right _ listed)).ref]
    exact behind other listed

theorem Grows.append {first : Nat} {before middle : List CoapInteraction} (grows : Grows first before middle)
    {pIA : CoapInteraction} (numbered : first ≤ pIA.ref) : Grows first before (middle ++ [pIA]) := by
  obtain ⟨flag, new, rfl, flags, behind⟩ := grows
  refine ⟨flag, new ++ [pIA], by simp, flags, ?_⟩
  intro other member
  cases List.mem_append.mp member with
  | inl earlier => exact behind other earlier
  | inr last =>
    rw [List.mem_singleton.mp last]
    exact numbered

theorem Numbered.silent {this after : CoapServer} (numbered : Numbered this) (same : Silent this after) :
    Numbered after where
  nodup := by rw [same.pInteractions]; exact numbered.nodup
  listed := by rw [same.pInteractions, same.interactions]; exact numbered.listed
  logged := by rw [same.log, same.interactions]; exact numbered.logged

theorem Numbered.note {this : CoapServer} (numbered : Numbered this) (effect : Effect)
    (known : ∀ ref, effect.actor = some ref → ref < this.interactions) :
    Numbered { this with log := effect :: this.log } where
  nodup := numbered.nodup
  listed := numbered.listed
  logged := by
    intro other member
    cases List.mem_cons.mp member with
    | inl same => exact same ▸ known
    | inr earlier => exact numbered.logged other earlier

theorem Numbered.nextMid {this : CoapServer} (numbered : Numbered this) : Numbered this.getNextMid.2 where
  nodup := numbered.nodup
  listed := numbered.listed
  logged := by
    intro effect member ref actor
    cases List.mem_cons.mp member with
    | inl same =>
      rw [same] at actor
      cases actor
    | inr earlier => exact numbered.logged effect earlier ref actor

theorem Numbered.store {this : CoapServer} (numbered : Numbered this) {pIA : CoapInteraction}
    (known : pIA.ref < this.interactions) : Numbered (this.storeInteraction pIA) where
  nodup := by
    rw [storeInteraction, map_ref_stored]
    exact numbered.nodup
  listed := by
    intro other member
    cases mem_stored member with
    | inl same => exact same ▸ known
    | inr kept => exact numbered.listed other kept.1
  logged := numbered.logged

theorem Numbered.start {this : CoapServer} (numbered : Numbered this) (pIA : CoapInteraction) :
    Numbered (this.startInteraction pIA) where
  nodup := by
    simp only [startInteraction, appendInteraction, List.map_append, List.map_cons, List.map_nil]
    rw [List.nodup_append]
    refine ⟨numbered.nodup, List.nodup_singleton _, ?_⟩
    intro ref member other last same
    rw [List.mem_singleton] at last
    obtain ⟨earlier, listed, rfl⟩ := List.mem_map.mp member
    have below := numbered.listed earlier listed
    omega
  listed := by
    intro other member
    show other.ref < this.interactions + 1
    cases List.mem_append.mp member with
    | inl earlier => exact Nat.lt_succ_of_lt (numbered.listed other earlier)
    | inr last =>
      rw [List.mem_singleton.mp last]
      exact Nat.lt_succ_self _
  logged := by
    intro effect member ref actor
    exact Nat.lt_succ_of_lt (numbered.logged effect member ref actor)

/-- What an act does to the list, and that it sends nothing. -/
theorem CallAct.grows {env : Env} {known : CoapObserver → Prop} {this after : CoapServer} (numbered : Numbered this)
    (act : CallAct env known this after) : Numbered after ∧ this.interactions ≤ after.interactions ∧
      after.transmissions = this.transmissions ∧
      ∀ first before, first ≤ this.interactions → Grows first before this.pInteractions →
        Grows first before after.pInteractions := by
  cases act with
  | silent same =>
    refine ⟨numbered.silent same, same.interactions.ge, same.transmissions, ?_⟩
    intro first before _ grows
    rw [same.pInteractions]
    exact grows
  | nextMid => exact ⟨numbered.nextMid, le_rfl, rfl, fun _ _ _ grows => grows⟩
  | @flag pIA member pending =>
    refine ⟨numbered.store (numbered.listed pIA member), le_rfl, rfl, ?_⟩
    intro first before _ grows
    apply grows.flag
    intro other listed
    split
    next same =>
      rw [eq_of_ref numbered.nodup listed member same]
      exact .inr ⟨pending, rfl⟩
    next => exact .inl rfl
  | client => exact ⟨numbered.start _, Nat.le_succ _, rfl, fun _ _ below grows => grows.append below⟩
  | notification => exact ⟨numbered.start _, Nat.le_succ _, rfl, fun _ _ below grows => grows.append below⟩
  | removeObserver => exact ⟨⟨numbered.1, numbered.2, numbered.3⟩, le_rfl, rfl, fun _ _ _ grows => grows⟩
  | update => exact ⟨⟨numbered.1, numbered.2, numbered.3⟩, le_rfl, rfl, fun _ _ _ grows => grows⟩

theorem Calls.grows {env : Env} {known : CoapObserver → Prop} {this after : CoapServer} (numbered : Numbered this)
    (calls : Calls env known this after) : Numbered after ∧ this.interactions ≤ after.interactions ∧
      after.transmissions = this.transmissions ∧
      Grows this.interactions this.pInteractions after.pInteractions := by
  induction calls with
  | refl => exact ⟨numbered, le_rfl, rfl, Grows.refl _ _⟩
  | tail _ act inductionHypothesis =>
    obtain ⟨middle, grown, transmissions, grows⟩ := inductionHypothesis
    obtain ⟨after, further, quiet, keeps⟩ := act.grows middle
    exact ⟨after, grown.trans further, quiet.trans transmissions, keeps _ _ grown grows⟩

end CoapServer

end SmingCoap.Server
