import SmingCoap.Server.Invariants

/-! # What a turn does to the list

A call of `CoAP_doWork` that comes to its end leaves the others in their order
and puts the first interaction in one of three places.  It does not come to its
end when a null pointer is read: a response there was no memory for, or the
request of a notification, which an error text names when a transmission fails.
-/

namespace SmingCoap.Server

namespace CoapServer

/-! ## The list -/

/-- The others are all there, but for a notification that an Observe deregistration aborted. -/
def Survivors (pIA : CoapInteraction) (rest kept : List CoapInteraction) : Prop :=
  kept = rest ∨ ∃ pending ∈ rest, pending.role = .notification ∧ Deregisters pIA ∧
    kept = rest.eraseP fun other => other.ref = pending.ref

/-- Where the first interaction is afterwards. -/
inductive Requeued (now : UInt32) (pIA : CoapInteraction) (after : CoapServer) (others : List CoapInteraction) : Prop
  | deleted (list : after.pInteractions = others)
  | last {worked : CoapInteraction} (ref : worked.ref = pIA.ref) (list : after.pInteractions = others ++ [worked])
  | first {worked other : CoapInteraction} {msg : CoapMessage} {earlier : List Effect} (ref : worked.ref = pIA.ref)
      (list : after.pInteractions = worked :: others)
      (counter : worked.retransCounter = pIA.retransCounter + 1)
      (sent : after.log = sending now other msg :: earlier) (sender : other.ref = pIA.ref)

/-- The list behind a turn: nobody twice, the others in their order, new ones behind them. -/
structure Requeues (now : UInt32) (pIA : CoapInteraction) (rest : List CoapInteraction) (this after : CoapServer) :
    Prop where
  nodup : (after.pInteractions.map CoapInteraction.ref).Nodup
  list : ∃ kept flag new, Survivors pIA rest kept ∧ (∀ other ∈ kept, Flagged other (flag other)) ∧
    (∀ other ∈ new, this.interactions ≤ other.ref) ∧ Requeued now pIA after (kept.map flag ++ new)

theorem Grows.trans {first : Nat} {before middle after : List CoapInteraction} (grows : Grows first before middle)
    (further : Grows first middle after) : Grows first before after := by
  obtain ⟨flag, new, rfl, flags, behind⟩ := further
  obtain ⟨kept, added, same, keptFlags, keptBehind⟩ := grows.flag flags
  refine ⟨kept, added ++ new, by rw [same, List.append_assoc], keptFlags, ?_⟩
  intro other member
  cases List.mem_append.mp member with
  | inl earlier => exact keptBehind other earlier
  | inr last => exact behind other last

theorem Grows.weaken {first lower : Nat} {before after : List CoapInteraction} (grows : Grows first before after)
    (below : lower ≤ first) : Grows lower before after := by
  obtain ⟨flag, new, same, flags, behind⟩ := grows
  exact ⟨flag, new, same, flags, fun other member => below.trans (behind other member)⟩

theorem eraseP_map_ref {flag : CoapInteraction → CoapInteraction} {list : List CoapInteraction} {ref : Nat}
    (flags : ∀ pIA ∈ list, Flagged pIA (flag pIA)) :
    (list.map flag).eraseP (fun other => other.ref = ref) = (list.eraseP fun other => other.ref = ref).map flag := by
  induction list with
  | nil => rfl
  | cons first rest inductionHypothesis =>
    have same := (flags first List.mem_cons_self).ref
    have behind := inductionHypothesis fun pIA member => flags pIA (List.mem_cons_of_mem _ member)
    by_cases found : first.ref = ref
    · simp [same, found]
    · simp [same, found, behind]

/-- Who is taken out of the grown list was there before, or came only now. -/
theorem Grows.erase {first : Nat} {before after : List CoapInteraction} (grows : Grows first before after)
    (ref : Nat) :
    Grows first (before.eraseP fun other => other.ref = ref) (after.eraseP fun other => other.ref = ref) := by
  obtain ⟨flag, new, rfl, flags, behind⟩ := grows
  have keptFlags : ∀ pIA ∈ before.eraseP (fun other => other.ref = ref), Flagged pIA (flag pIA) :=
    fun pIA member => flags pIA (List.mem_of_mem_eraseP member)
  by_cases found : ∃ pIA ∈ before.map flag, pIA.ref = ref
  · obtain ⟨pIA, member, same⟩ := found
    rw [List.eraseP_append_left (by simpa using same) new member, eraseP_map_ref flags]
    exact ⟨flag, new, rfl, keptFlags, behind⟩
  · rw [List.eraseP_append_right new (by simpa using found), ← List.eraseP_of_forall_not (l := before.map flag)
      (p := fun other => other.ref = ref) (by simpa using found), eraseP_map_ref flags]
    exact ⟨flag, _, rfl, keptFlags, fun pIA member => behind pIA (List.mem_of_mem_eraseP member)⟩

section
variable {env : Env} {known : CoapObserver → Prop} {now : UInt32} {pIA : CoapInteraction}
  {rest : List CoapInteraction} {this after : CoapServer}

/-- An abortion takes one notification out of the others, or one that has only just come. -/
theorem Observes.grows {first : Nat} (observes : Observes pIA this after)
    (nodup : ((pIA :: rest).map CoapInteraction.ref).Nodup) (below : ∀ other ∈ pIA :: rest, other.ref < first)
    (grows : Grows first (pIA :: rest) this.pInteractions) :
    ∃ kept, Survivors pIA rest kept ∧ Grows first (pIA :: kept) after.pInteractions := by
  cases observes with
  | nothing silent => exact ⟨rest, .inl rfl, silent.pInteractions ▸ grows⟩
  | registered _ _ middle silent changed =>
    rw [changed]
    exact ⟨rest, .inl rfl, (silent.pInteractions ▸ grows : Grows first _ middle.pInteractions)⟩
  | removed token _ changed =>
    rw [changed, removeInteractionsObserver_pInteractions]
    exact ⟨rest, .inl rfl, grows⟩
  -- the notification that is aborted is in the list, and it is not the interaction that is worked on
  | @aborted token deregisters pending member role changed =>
    have erased := grows.erase pending.ref
    rw [changed, deleteInteraction, removeInteractionsObserver_pInteractions]
    obtain ⟨flag, new, list, flags, behind⟩ := grows
    rw [list] at member
    cases List.mem_append.mp member with
    | inl earlier =>
      obtain ⟨older, listed, rfl⟩ := List.mem_map.mp earlier
      have ref := (flags older listed).ref
      have sameRole := (flags older listed).role
      cases List.mem_cons.mp listed with
      | inl first =>
        rw [first, deregisters.1] at sameRole
        rw [first, sameRole] at role
        cases role
      | inr among =>
        have differs : pIA.ref ≠ older.ref := fun same =>
          (List.nodup_cons.mp nodup).1 (same ▸ List.mem_map_of_mem among)
        rw [ref, List.eraseP_cons_of_neg (by simpa using differs)] at erased
        exact ⟨_, .inr ⟨older, among, sameRole.symm.trans role, deregisters, rfl⟩, by rwa [ref]⟩
    | inr last =>
      refine ⟨rest, .inl rfl, ?_⟩
      rwa [List.eraseP_of_forall_not] at erased
      intro other listed
      have numbered := below other listed
      have late := behind pending last
      simp only [decide_eq_true_eq]
      omega

theorem Ends.requeues {first : Nat} {kept : List CoapInteraction} {listed : List CoapResource}
    (ends : Ends env now listed pIA this after)
    (nodup : (this.pInteractions.map CoapInteraction.ref).Nodup)
    (grows : Grows first (pIA :: kept) this.pInteractions) :
    ∃ flag new, (∀ other ∈ kept, Flagged other (flag other)) ∧ (∀ other ∈ new, first ≤ other.ref) ∧
      Requeued now pIA after (kept.map flag ++ new) := by
  obtain ⟨flag, new, list, flags, behind⟩ := grows
  refine ⟨flag, new, fun other member => flags other (List.mem_cons_of_mem _ member), behind, ?_⟩
  have ref := (flags pIA List.mem_cons_self).ref
  rw [List.map_cons, List.cons_append] at list
  have erased : this.pInteractions.eraseP (fun other => other.ref = pIA.ref) = kept.map flag ++ new := by
    rw [list, List.eraseP_cons_of_pos (by simpa using ref)]
  cases ends with
  | deleted placed => exact .deleted (placed.pInteractions.trans erased)
  | last works placed =>
    rw [works.ref, erased] at placed
    exact .last works.ref placed.pInteractions
  | @first effect worked works again placed =>
    obtain ⟨other, msg, same, sender, _⟩ := works.sends effect (List.mem_singleton.mpr rfl)
    have sent : after.log = sending now other msg :: this.log := by
      rw [placed.log, same]
      rfl
    refine .first works.ref ?_ again sent sender
    · rw [placed.pInteractions, list, List.map_cons, if_pos (ref.trans works.ref.symm)]
      congr 1
      -- nobody else has its number
      rw [list, List.map_cons, List.nodup_cons, ref] at nodup
      conv_rhs => rw [← List.map_id (kept.map flag ++ new)]
      apply List.map_congr_left
      intro entry member
      rw [if_neg]
      · rfl
      · intro sameRef
        apply nodup.1
        rw [← works.ref, ← sameRef]
        exact List.mem_map_of_mem member

theorem Numbered.sublist (numbered : Numbered this) (fewer : after.pInteractions.Sublist this.pInteractions)
    (interactions : after.interactions = this.interactions) (log : after.log = this.log) : Numbered after where
  nodup := numbered.nodup.sublist (fewer.map CoapInteraction.ref)
  listed := by
    rw [interactions]
    exact fun other member => numbered.listed other (fewer.subset member)
  logged := by
    rw [log, interactions]
    exact numbered.logged

theorem Observes.numbered (numbered : Numbered this) (observes : Observes pIA this after) : Numbered after := by
  apply numbered.sublist _ observes.interactions observes.log
  cases observes with
  | nothing silent => rw [silent.pInteractions]
  | registered _ _ middle silent changed =>
    rw [changed]
    exact silent.pInteractions ▸ List.Sublist.refl _
  | removed token _ changed =>
    rw [changed, removeInteractionsObserver_pInteractions]
  | aborted token _ _ _ changed =>
    rw [changed, deleteInteraction, removeInteractionsObserver_pInteractions]
    exact List.eraseP_sublist

/-- A turn that comes to its end. -/
theorem Turn.requeues (numbered : Numbered this) (list : this.pInteractions = pIA :: rest)
    (nodup : (after.pInteractions.map CoapInteraction.ref).Nodup) (turn : Turn env known now pIA this after) :
    Requeues now pIA rest this after := by
  obtain ⟨prepared, begun, called, observed, ready, prepares, begins, calls, observes, finishes, ends⟩ := turn
  have below : ∀ other ∈ pIA :: rest, other.ref < this.interactions := list ▸ numbered.listed
  obtain ⟨numberedPrepared, grown, _, growsPrepared⟩ := prepares.grows numbered
  have first : pIA.ref < prepared.interactions := (below pIA List.mem_cons_self).trans_le grown
  have numberedBegun := begins.numbered numberedPrepared first
  obtain ⟨numberedCalled, grownToo, _, growsCalled⟩ := calls.grows numberedBegun
  have numberedObserved := observes.numbered numberedCalled
  obtain ⟨numberedReady, _, _, growsReady⟩ := finishes.grows numberedObserved
  -- the list before the request is observed
  have grows : Grows this.interactions (pIA :: rest) called.pInteractions := by
    rw [list] at growsPrepared
    rw [begins.pInteractions] at growsCalled
    exact growsPrepared.trans (growsCalled.weaken (by rw [begins.interactions]; exact grown))
  have distinct : ((pIA :: rest).map CoapInteraction.ref).Nodup := list ▸ numbered.nodup
  obtain ⟨kept, survivors, growsObserved⟩ := observes.grows distinct below grows
  have reached : this.interactions ≤ observed.interactions := by
    rw [observes.interactions]
    rw [begins.interactions] at grownToo
    exact grown.trans grownToo
  obtain ⟨flag, new, flags, behind, requeued⟩ :=
    ends.requeues numberedReady.nodup (growsObserved.trans (growsReady.weaken reached))
  exact ⟨nodup, kept, flag, new, survivors, flags, behind, requeued⟩

end

/-- A turn in a state that is reached. -/
theorem doWork_requeues {env : Env} {resources : List CoapResource} {this after : CoapServer}
    (reaches : Reaches env resources this) {now : UInt32} {pIA : CoapInteraction} {rest : List CoapInteraction}
    (list : this.pInteractions = pIA :: rest) (worked : this.doWork env now = some after) :
    Requeues now pIA rest this after := by
  have holds := run_shaped reaches
  have member : pIA ∈ this.pInteractions := list ▸ List.mem_cons_self
  have next : Reaches env resources after := .next reaches (.doWork now) trivial worked
  exact (doWork_turn list (holds.interactions pIA member).staged worked).requeues holds.numbered list
    (run_shaped next).numbered.nodup

/-! ## Coming to an end -/

/-- There is a response for the handler's turn: it is left from an earlier turn or there is memory for it,
or the handler does without and has time left. -/
def ResponseAvailable (env : Env) (this : CoapServer) (now : UInt32) (pIA : CoapInteraction) (req : CoapMessage)
    (pRes : Nat) (resource : CoapResource) : Prop :=
  if methodNotAllowed req.code resource.flags then env.alloc this.allocs = true
  else pIA.pRespMsg ≠ none ∨ env.alloc this.allocs = true ∨
    (env.handler this.callbacks pRes req none).result = .postpone ∧
      (req.type = .con ∧ pIA.reqReliabilityState ≠ .ackSet ∨ msgIsOlderThan now req postponeMaxWaitTime = false)

/-- No null pointer is read in the turn of an interaction. -/
def Survives (env : Env) (this : CoapServer) (now : UInt32) (pIA : CoapInteraction) : Prop :=
  match pIA.role with
  | .server => Unanswered pIA → ∀ req pRes resource, pIA.pReqMsg = some req → pIA.pRes = some pRes →
      this.resources[pRes]? = some resource → ResponseAvailable env this now pIA req pRes resource
  | .notification => pIA.state = .readyToNotify ∨ checkRespStatus now pIA = some .retry →
      env.transmit this.transmissions = true
  | .client => True

section
variable {env : Env} {now : UInt32} {pIA : CoapInteraction} {this : CoapServer}

theorem sendResp_isSome (pIA : CoapInteraction) {resp : CoapMessage} (next : InteractionState)
    (response : pIA.pRespMsg = some resp) :
    (this.sendResp env now pIA next).isSome = true ↔
      env.transmit this.transmissions = true ∨ pIA.pReqMsg ≠ none := by
  simp only [sendResp, response, Option.bind_eq_bind, Option.bind_some]
  cases success : env.transmit this.transmissions with
  | true =>
    rw [sendMsg_sent now _ _ resp _ _ success]
    cases type : resp.type <;> simp [type]
  | false =>
    obtain ⟨_, failed⟩ := sendMsg_failed now (some pIA) pIA.origin resp pIA.ifID pIA.remoteEp success
    rw [failed]
    cases pIA.pReqMsg <;> simp

theorem retryResp_isSome {resp : CoapMessage} (response : pIA.pRespMsg = some resp) :
    (this.retryResp env now pIA).isSome = true ↔
      env.transmit this.transmissions = true ∨ pIA.pReqMsg ≠ none := by
  simp only [retryResp, response, Option.bind_eq_bind, Option.bind_some]
  cases success : env.transmit this.transmissions with
  | true =>
    rw [sendMsg_sent now _ _ resp _ _ success]
    simp
  | false =>
    obtain ⟨_, failed⟩ := sendMsg_failed now (some pIA) pIA.origin resp pIA.ifID pIA.remoteEp success
    rw [failed]
    cases pIA.pReqMsg <;> simp

theorem sendReq_isSome {req : CoapMessage} (next : InteractionState) (request : pIA.pReqMsg = some req) :
    (this.sendReq env now pIA next).isSome = true := by
  simp only [sendReq, request, Option.bind_eq_bind, Option.bind_some]
  cases success : env.transmit this.transmissions with
  | true =>
    rw [sendMsg_sent now _ _ req _ _ success]
    simp only
    split <;> rfl
  | false =>
    obtain ⟨_, failed⟩ := sendMsg_failed now (some pIA) pIA.origin req pIA.ifID pIA.remoteEp success
    rw [failed]
    rfl

theorem retryReq_isSome {req : CoapMessage} (request : pIA.pReqMsg = some req) :
    (this.retryReq env now pIA).isSome = true := by
  simp only [retryReq, request, Option.bind_eq_bind, Option.bind_some]
  cases success : env.transmit this.transmissions with
  | true =>
    rw [sendMsg_sent now _ _ req _ _ success]
    rfl
  | false =>
    obtain ⟨_, failed⟩ := sendMsg_failed now (some pIA) pIA.origin req pIA.ifID pIA.remoteEp success
    rw [failed]
    rfl

/-- A response that is there is always sent, or its interaction is deleted. -/
theorem respond_isSome {req resp : CoapMessage} (pRes : Nat) (request : pIA.pReqMsg ≠ none) :
    (this.respond env now pIA pRes req resp).isSome = true := by
  simp only [respond]
  rw [sendResp_isSome { pIA with pRespMsg := some _ } .responseSent rfl]
  exact .inr request

theorem postpone_isSome {req : CoapMessage} {pRespMsg : Option CoapMessage} (pRes : Nat)
    (request : pIA.pReqMsg ≠ none) :
    (this.postpone env now pIA pRes req pRespMsg).isSome = true ↔ pRespMsg ≠ none ∨
      req.type = .con ∧ pIA.reqReliabilityState ≠ .ackSet ∨ msgIsOlderThan now req postponeMaxWaitTime = false := by
  simp only [postpone]
  split
  next early =>
    simp only [early, true_or, or_true, iff_true, and_self, ne_eq, not_false_eq_true]
    split <;> rfl
  next late =>
    split
    next timeout =>
      cases pRespMsg with
      | none => simp [late, timeout]
      | some resp =>
        have sent : (this.respond env now { pIA with pRespMsg := some resp } pRes req
            { resp with code := respServiceUnavailable }).isSome = true := respond_isSome pRes request
        simpa using sent
    next time =>
      have left : msgIsOlderThan now req postponeMaxWaitTime = false := Bool.eq_false_iff.mpr time
      simp [left]

theorem allocRespMsg_isSome (env : Env) (this : CoapServer) (req : CoapMessage) (code : UInt8)
    (payloadMaxSize : Nat) : (this.allocRespMsg env req code payloadMaxSize).1.isSome = env.alloc this.allocs ∧
      (this.allocRespMsg env req code payloadMaxSize).2.callbacks = this.callbacks := by
  unfold allocRespMsg
  split
  next =>
    simp only [createMessage, memGet]
    cases env.alloc this.allocs <;> exact ⟨rfl, rfl⟩
  next =>
    simp only [createMessage, memGet, getNextMid]
    cases env.alloc this.allocs <;> exact ⟨rfl, rfl⟩

/-- What the handler answers decides when there is no response. -/
theorem handled_isSome {req : CoapMessage} {offered : Option CoapMessage} (pRes : Nat)
    (request : pIA.pReqMsg ≠ none) (handled : Handled) :
    (if handled.result = .postpone then this.postpone env now pIA pRes req (offered.map fun _ => handled.resp)
      else (offered.map fun _ => handled.resp).bind fun resp =>
        this.respond env now pIA pRes req (completeCode handled.result resp)).isSome = true ↔
      offered ≠ none ∨ handled.result = .postpone ∧
        (req.type = .con ∧ pIA.reqReliabilityState ≠ .ackSet ∨
          msgIsOlderThan now req postponeMaxWaitTime = false) := by
  split
  next postponed =>
    rw [postpone_isSome pRes request]
    simp [postponed]
  next final =>
    cases offered with
    | none => simp [final]
    | some resp =>
      have sent : (this.respond env now pIA pRes req (completeCode handled.result handled.resp)).isSome = true :=
        respond_isSome pRes request
      simpa using sent

theorem handleRequest_isSome {req : CoapMessage} {pRes : Nat} {resource : CoapResource}
    (request : pIA.pReqMsg = some req) (asked : pIA.pRes = some pRes)
    (found : this.resources[pRes]? = some resource) :
    (this.handleRequest env now pIA).isSome = true ↔ ResponseAvailable env this now pIA req pRes resource := by
  have hasRequest : pIA.pReqMsg ≠ none := by simp [request]
  simp only [handleRequest, request, asked, found, Option.bind_eq_bind, Option.bind_some, ResponseAvailable]
  split
  next refused =>
    obtain ⟨available, _⟩ := allocRespMsg_isSome env this req respMethodNotAllowed 0
    rw [← available]
    cases made : (this.allocRespMsg env req respMethodNotAllowed 0).1 with
    | none => simp [sendResp]
    | some resp =>
      rw [sendResp_isSome _ .responseSent rfl]
      simp
  next =>
    cases earlier : pIA.pRespMsg with
    | some resp =>
      simp only
      rw [handled_isSome pRes hasRequest]
      simp
    | none =>
      obtain ⟨available, callbacks⟩ := allocRespMsg_isSome env this req empty preferedPayloadSize
      simp only
      rw [handled_isSome pRes hasRequest, callbacks, ← available]
      cases made : (this.allocRespMsg env req empty preferedPayloadSize).1 with
      | none => simp
      | some resp => simp

theorem checkRespStatus_isSome (now : UInt32) {resp : CoapMessage} (response : pIA.pRespMsg = some resp) :
    ∃ status, checkRespStatus now pIA = some status := by
  simp only [checkRespStatus, response, Option.bind_eq_bind, Option.bind_some]
  split
  next => exact ⟨_, rfl⟩
  next =>
    cases resp.type with
    | con =>
      simp only
      split
      next => exact ⟨_, rfl⟩
      next => exact ⟨_, rfl⟩
    | rst => exact ⟨_, rfl⟩
    | non =>
      simp only
      split
      next => exact ⟨_, rfl⟩
      next => exact ⟨_, rfl⟩
    | ack =>
      simp only
      split
      next => exact ⟨_, rfl⟩
      next => exact ⟨_, rfl⟩

theorem checkReqStatus_isSome (now : UInt32) {req : CoapMessage} (request : pIA.pReqMsg = some req) :
    ∃ status, checkReqStatus now pIA = some status := by
  simp only [checkReqStatus, request, Option.bind_eq_bind, Option.bind_some]
  split
  next => exact ⟨_, rfl⟩
  next =>
    split
    next => exact ⟨_, rfl⟩
    next =>
      split
      next => exact ⟨_, rfl⟩
      next => exact ⟨_, rfl⟩

/-- A notifier is there for every notification, and it sends nothing. -/
theorem refresh_isSome (env : Env) (pIA : CoapInteraction) {pRes : Nat} {resource : CoapResource}
    (resp : CoapMessage) (numbered : Numbered this)
    (asked : pIA.pRes = some pRes) (found : this.resources[pRes]? = some resource)
    (notifier : resource.notifier = true) :
    ∃ refreshed after, this.refresh env pIA resp = some (refreshed, after) ∧
      after.transmissions = this.transmissions := by
  have some : (this.refresh env pIA resp).isSome = true := by
    simp only [refresh, asked, found, notifier, Option.bind_eq_bind, Option.bind_some, Bool.true_eq_false,
      if_false]
    split
    next => rfl
    next => rfl
  obtain ⟨⟨refreshed, after⟩, asked⟩ := Option.isSome_iff_exists.mp some
  have calls : Calls env (fun _ => True) this after := (refresh_calls asked).1
  exact ⟨refreshed, after, asked, (calls.grows numbered).2.2.1⟩

theorem checkNotification_isSome {pRes : Nat} {resource : CoapResource} {resp : CoapMessage}
    (numbered : Numbered this) (response : pIA.pRespMsg = some resp) (noRequest : pIA.pReqMsg = none)
    (asked : pIA.pRes = some pRes) (found : this.resources[pRes]? = some resource)
    (notifier : resource.notifier = true) :
    (this.checkNotification env now pIA).isSome = true ↔
      (checkRespStatus now pIA = some .retry → env.transmit this.transmissions = true) := by
  obtain ⟨status, checked⟩ := checkRespStatus_isSome now response
  simp only [checkNotification, checked, Option.bind_eq_bind, Option.bind_some, Option.some.injEq]
  cases status with
  | waiting => simp
  | holdingBack => simp
  | retry =>
    simp only [forall_const]
    split
    -- a flagged notification is refreshed before it is sent again
    next =>
      obtain ⟨refreshed, after, refreshes, quiet⟩ := refresh_isSome env
        { pIA with updatePendingNotification := false, pRespMsg := some resp } resp numbered asked found notifier
      simp only [response, refreshes, Option.bind_some]
      rw [retryResp_isSome rfl, quiet]
      simp [noRequest]
    next =>
      rw [retryResp_isSome response]
      simp [noRequest]
  | ok =>
    by_cases pending : pIA.updatePendingNotification = true
    · obtain ⟨refreshed, after, refreshes, _⟩ := refresh_isSome env { pIA with
        state := .readyToNotify
        retransCounter := 0
        updatePendingNotification := false
        respReliabilityState := .notSet
        pRespMsg := some resp } resp numbered asked found notifier
      simp [pending, response, refreshes]
    · simp [pending]
  | errOutOfAttempts => simp [response]
  | errRemoteRst => simp [response]
  | _ => simp

theorem work_isSome {resources : List CoapResource} (holds : Numbered this)
    (layouts : layout this.resources = layout resources) (shaped : Shaped resources pIA) :
    (this.work env now pIA).isSome = true ↔ Survives env this now pIA := by
  have staged := shaped.staged
  unfold Staged at staged
  cases role : pIA.role with
  | server =>
    simp only [role] at staged
    simp only [Survives, role]
    obtain ⟨req, pRes, resource, request, asked, listed⟩ := shaped.serving role
    obtain ⟨kept, found, _⟩ := layout_getElem? layouts listed
    cases staged with
    | inl waiting =>
      rw [work_unanswered role waiting, handleRequest_isSome request asked found]
      constructor
      · intro available _ other index too sameRequest sameIndex foundToo
        obtain rfl := Option.some.inj (request.symm.trans sameRequest)
        obtain rfl := Option.some.inj (asked.symm.trans sameIndex)
        obtain rfl := Option.some.inj (found.symm.trans foundToo)
        exact available
      · exact fun all => all waiting req pRes kept request asked found
    | inr state =>
      -- the response is out, so nothing is asked of the handler
      have waits : ¬ Unanswered pIA := by
        unfold Unanswered
        rw [state]
        decide
      obtain ⟨resp, response⟩ := shaped.responded role state
      obtain ⟨status, checked⟩ := checkRespStatus_isSome now response
      simp only [work, role, state, waits, false_implies, iff_true, checkResponse, checked, Option.bind_eq_bind,
        Option.bind_some]
      cases status with
      | retry =>
        rw [retryResp_isSome response]
        exact .inr (by simp [request])
      | _ => rfl
  | notification =>
    simp only [role] at staged
    simp only [work, Survives, role]
    obtain ⟨resp, pRes, resource, response, asked, listed, notifier⟩ := shaped.notifying role
    obtain ⟨kept, found, sameLayout⟩ := layout_getElem? layouts listed
    -- a notification has no request, and its turn reads none
    have noRequest := shaped.unrequested role
    cases staged with
    | inl state =>
      simp only [state, true_or, forall_const]
      rw [sendResp_isSome pIA .notificationSent response]
      simp [noRequest]
    | inr state =>
      simp only [state, reduceCtorEq, false_or]
      exact checkNotification_isSome holds response noRequest asked found
        ((layout_singleton sameLayout).2.2.2.trans notifier)
  | client =>
    simp only [role] at staged
    simp only [work, Survives, role, iff_true]
    obtain ⟨req, request⟩ := shaped.requesting role
    rcases staged with state | state | state
    · simp only [state]
      exact sendReq_isSome .waitingResponse request
    · obtain ⟨status, checked⟩ := checkReqStatus_isSome now request
      simp only [state, checkRequest, checked, Option.bind_eq_bind, Option.bind_some]
      cases status with
      | retry => exact retryReq_isSome request
      | _ => rfl
    · obtain ⟨resp, response⟩ := shaped.answered role state
      simp only [state, handleResponse, response, Option.bind_eq_bind, Option.bind_some]
      split
      next => rfl
      next => rfl

end

/-- In a state that is reached, a turn of an interaction that is due comes to its end and leaves the list
in order, if and only if it reads no null pointer. -/
theorem doWork_requeues_iff (env : Env) (resources : List CoapResource) (this : CoapServer)
    (reaches : Reaches env resources this) (now : UInt32) (pIA : CoapInteraction) (rest : List CoapInteraction)
    (list : this.pInteractions = pIA :: rest) (due : pIA.sleepUntil ≤ now) :
    (∃ after, this.doWork env now = some after ∧ Requeues now pIA rest this after) ↔
      Survives env this now pIA := by
  have holds := run_shaped reaches
  have member : pIA ∈ this.pInteractions := list ▸ List.mem_cons_self
  have works : this.doWork env now = this.work env now pIA := by
    rw [doWork, list]
    exact if_neg (UInt32.not_lt.mpr due)
  rw [← work_isSome holds.numbered holds.layouts (holds.interactions pIA member), ← works,
    Option.isSome_iff_exists]
  constructor
  · rintro ⟨after, worked, _⟩
    exact ⟨after, worked⟩
  · rintro ⟨after, worked⟩
    exact ⟨after, worked, doWork_requeues reaches list worked⟩

/-- The first turn of a request. -/
theorem sensor_doWork_requeues : ∃ (this after : CoapServer) (pIA : CoapInteraction),
    this.pInteractions = [pIA] ∧ this.doWork idealEnv 0 = some after ∧ Requeues 0 pIA [] this after := by
  have reached : ([Event.packet (datagram 0 getSensor) 0].foldlM (step idealEnv) (new [sensor])).map
      (fun this => this.pInteractions.map fun pIA => (pIA.role, pIA.sleepUntil, pIA.pRespMsg.isNone,
        pIA.pReqMsg.map CoapMessage.code)) = some [(.server, 0, true, some reqGet)] := by
    decide +kernel
  obtain ⟨this, taken, facts⟩ := Option.map_eq_some_iff.mp reached
  obtain ⟨pIA, list, facts⟩ := List.map_eq_singleton_iff.mp facts
  simp only [Prod.mk.injEq] at facts
  obtain ⟨role, sleepUntil, noResponse, _⟩ := facts
  have survives : Survives idealEnv this 0 pIA := by
    unfold Survives
    rw [role]
    intro _ req pRes resource _ _ _
    unfold ResponseAvailable
    split
    next => rfl
    next => exact .inr (.inl rfl)
  obtain ⟨after, worked, requeues⟩ := (doWork_requeues_iff idealEnv [sensor] this (.of_events _ .refl taken) 0 pIA []
    list (by rw [sleepUntil]; decide)).mpr survives
  exact ⟨this, after, pIA, list, worked, requeues⟩

/-- The socket fails when a notification is sent for the first time. -/
theorem notification_doWork_crashes : ¬ ∀ (env : Env) (resources : List CoapResource) (this : CoapServer),
    Reaches env resources this → ∀ (now : UInt32) (pIA : CoapInteraction) (rest : List CoapInteraction),
      this.pInteractions = pIA :: rest → pIA.sleepUntil ≤ now →
        ∃ after, this.doWork env now = some after ∧ Requeues now pIA rest this after := by
  intro requeues
  let env : Env := { idealEnv with transmit := fun n => n = 0 }
  have reached : ([Event.packet (datagram 0 observeSensor) 0, .doWork 0, .doWork 1, .call (.notify 0)].foldlM
      (step env) (new [sensor])).map (fun this => (this.pInteractions.map CoapInteraction.sleepUntil,
        (this.doWork env 2).isSome)) = some ([0], false) := by
    decide +kernel
  obtain ⟨this, taken, facts⟩ := Option.map_eq_some_iff.mp reached
  simp only [Prod.mk.injEq] at facts
  obtain ⟨sleeps, crashes⟩ := facts
  obtain ⟨pIA, list, sleepUntil⟩ := List.map_eq_singleton_iff.mp sleeps
  obtain ⟨after, worked, _⟩ := requeues env [sensor] this (.of_events _ .refl taken) 2 pIA [] list
    (by rw [sleepUntil]; decide)
  rw [worked] at crashes
  cases crashes

end CoapServer

end SmingCoap.Server
