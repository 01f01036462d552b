import SmingCoap.Client.EngineSteps
import SmingCoap.Transition.Runs

/-! # Every request hears of its own outcome

The queue and the map of callbacks are two stores under one key, the transaction
id.  `Keyed` says that they agree: the entry of each queued id is the callback of
the request that is queued.  Nothing in the code checks that a new id is free, so
the agreement is kept in a run whose new ids are (`callbacks_own`).
-/

namespace SmingCoap

open Transition (Run)

namespace CoapClient

/-! ## Calls and entries -/

def Effect.calls (req : Nat) : Effect → Bool
  | .called other _ _ => other = req
  | .sent .. => false

/-- How often the callback of a request was called. -/
def calls (req : Nat) (log : List Effect) : Nat := log.countP (Effect.calls req)

@[simp] theorem calls_sent (req other time : Nat) (log : List Effect) :
    calls req (.sent other time :: log) = calls req log := by
  simp [calls, Effect.calls]

theorem calls_called (req other : Nat) (successful : Bool) (pdu : CoapPDU) (log : List Effect) :
    calls req (.called other successful pdu :: log) = calls req log + if other = req then 1 else 0 := by
  simp [calls, Effect.calls, List.countP_cons]

/-- The request has an entry in the queue. -/
def Pending (this : CoapClient) (req : Nat) : Prop := ∃ node ∈ this.pQueue, node.req = req

/-- No callback is called twice, the callback of a request whose entry has left the queue was called,
and the id of every entry leads to the callback of its request. -/
structure OwnCallbacks (this : CoapClient) : Prop where
  once : ∀ req, calls req this.log ≤ 1
  left : ∀ req time, .sent req time ∈ this.log → ¬ Pending this req → calls req this.log = 1
  own : ∀ node ∈ this.pQueue, this.callbacks node.id = some node.req

/-! ## Free transaction ids -/

/-- Requests made one after the other get ids that no entry has; `ids` are those in the queue. -/
def Free : List CoapTid → UInt16 → List RequestCall → Prop
  | _, _, [] => True
  | ids, messageID, call :: rest =>
    (∀ tid ∈ queuedAs messageID call, tid ∉ ids) ∧
      Free ((queuedAs messageID call).toList ++ ids) (messageIDAfter messageID call) rest

/-- The requests of an event, and those that the callback it calls makes, get free ids. -/
def FreeIds (this : CoapClient) : Event → Prop
  | .request call => Free (this.pQueue.map CoapQueueNode.id) this.messageID [call]
  | .datagram _ _ _ _ nested => Free (this.pQueue.map CoapQueueNode.id) this.messageID nested
  | .tick _ _ nested => Free (this.pQueue.tail.map CoapQueueNode.id) this.messageID nested

theorem Free.weaken {ids fewer : List CoapTid} {messageID : UInt16} {calls : List RequestCall}
    (subset : fewer ⊆ ids) (free : Free ids messageID calls) : Free fewer messageID calls := by
  induction calls generalizing ids fewer messageID with
  | nil => trivial
  | cons call rest inductionHypothesis =>
    refine ⟨fun tid queued inside => free.1 tid queued (subset inside), inductionHypothesis ?_ free.2⟩
    exact List.append_subset.mpr ⟨List.subset_append_left .., List.subset_append_of_subset_right _ subset⟩

/-! ## The invariant -/

/-- The entries, the callbacks and the requests agree; `serving` is the request whose callback runs
at the moment, if one does. -/
structure Keyed (serving : Option Nat) (entries : List Waiting) (this : CoapClient) : Prop where
  ids : (entries.map Waiting.id).Nodup
  reqs : (entries.map Waiting.req).Nodup
  own : ∀ entry ∈ entries, this.callbacks entry.id = some entry.req
  request : ∀ entry ∈ entries, ∃ issued, this.requests[entry.req]? = some issued ∧
    entry.id = transactionOf issued.request entry.pdu
  once : ∀ req, calls req this.log ≤ 1
  known : ∀ req, this.requests.length ≤ req → calls req this.log = 0
  left : ∀ req time, .sent req time ∈ this.log → calls req this.log = 1 ∨ req ∈ entries.map Waiting.req
  silent : ∀ entry ∈ entries, serving = some entry.req ∨ calls entry.req this.log = 0

theorem Keyed.perm {serving : Option Nat} {entries others : List Waiting} {this : CoapClient}
    (keyed : Keyed serving entries this) (perm : others.Perm entries) : Keyed serving others this where
  ids := (perm.map _).nodup_iff.mpr keyed.ids
  reqs := (perm.map _).nodup_iff.mpr keyed.reqs
  own := fun entry member => keyed.own entry (perm.subset member)
  request := fun entry member => keyed.request entry (perm.subset member)
  once := keyed.once
  known := keyed.known
  left := fun req time sent => (keyed.left req time sent).imp_right fun member => (perm.map _).symm.subset member
  silent := fun entry member => keyed.silent entry (perm.subset member)

/-- Of the client, only its callbacks, requests and log count. -/
theorem Keyed.congr {serving : Option Nat} {entries : List Waiting} {this after : CoapClient}
    (keyed : Keyed serving entries this) (callbacks : after.callbacks = this.callbacks)
    (requests : after.requests = this.requests) (log : after.log = this.log) : Keyed serving entries after := by
  obtain ⟨ids, reqs, own, request, once, known, left, silent⟩ := keyed
  rw [← callbacks] at own
  rw [← requests] at request known
  rw [← log] at once known left silent
  exact ⟨ids, reqs, own, request, once, known, left, silent⟩

/-- Between two steps. -/
def Agree (this : CoapClient) : Prop := Keyed none (this.pQueue.map waiting) this

theorem Agree.ownCallbacks {this : CoapClient} (keyed : Agree this) : OwnCallbacks this where
  once := keyed.once
  left := by
    intro req time sent gone
    apply (keyed.left req time sent).resolve_right
    intro member
    rw [List.map_map] at member
    obtain ⟨node, inside, same⟩ := List.mem_map.mp member
    exact gone ⟨node, inside, same⟩
  own := fun node member => keyed.own (waiting node) (List.mem_map_of_mem member)

theorem Keyed.lt {serving : Option Nat} {entries : List Waiting} {this : CoapClient}
    (keyed : Keyed serving entries this) {entry : Waiting} (member : entry ∈ entries) :
    entry.req < this.requests.length := by
  obtain ⟨issued, found, _⟩ := keyed.request entry member
  exact (List.getElem?_eq_some_iff.mp found).1

/-- A request is skipped. -/
theorem Keyed.skip {serving : Option Nat} {entries : List Waiting} {this after : CoapClient} {call : RequestCall}
    (keyed : Keyed serving entries this) (skips : Skips this after call) : Keyed serving entries after where
  ids := keyed.ids
  reqs := keyed.reqs
  own := by
    intro entry member
    obtain ⟨issued, _, transaction⟩ := keyed.request entry member
    -- the id of an entry is valid, and the call registers at most the invalid one
    rw [skips.callbacks entry.id (by rw [transaction]; exact createTransactionID_ne _ _ _)]
    exact keyed.own entry member
  request := by
    intro entry member
    obtain ⟨issued, found, transaction⟩ := keyed.request entry member
    refine ⟨issued, ?_, transaction⟩
    cases skips.requests with
    | inl same => rw [same, found]
    | inr longer =>
      obtain ⟨last, _, longer⟩ := longer
      rw [longer, List.getElem?_append_left (keyed.lt member), found]
  once := by
    rw [skips.log]
    exact keyed.once
  known := by
    intro req unknown
    rw [skips.log]
    apply keyed.known
    cases skips.requests with
    | inl same => rwa [← same]
    | inr longer =>
      obtain ⟨last, _, longer⟩ := longer
      rw [longer, List.length_append] at unknown
      exact Nat.le_of_add_right_le unknown
  left := by
    rw [skips.log]
    exact keyed.left
  silent := by
    rw [skips.log]
    exact keyed.silent

/-- A request is queued under a free id. -/
theorem Keyed.queue {serving : Option Nat} {entries : List Waiting} {this after : CoapClient}
    {node : CoapQueueNode} {issued : Issued} {call : RequestCall} (keyed : Keyed serving entries this)
    (queues : Queues this after node issued call) (free : node.id ∉ entries.map Waiting.id) :
    Keyed serving (waiting node :: entries) after := by
  -- requests are numbered by when they were made
  have fresh : ∀ entry ∈ entries, entry.req ≠ node.req := by
    intro entry member
    rw [queues.req]
    exact Nat.ne_of_lt (keyed.lt member)
  refine ⟨?_, ?_, ?_, ?_, ?_, ?_, ?_, ?_⟩
  · exact List.nodup_cons.mpr ⟨free, keyed.ids⟩
  · refine List.nodup_cons.mpr ⟨?_, keyed.reqs⟩
    intro member
    obtain ⟨entry, inside, same⟩ := List.mem_map.mp member
    exact fresh entry inside same
  · intro entry member
    rw [queues.callbacks]
    cases List.mem_cons.mp member with
    | inl new => simp [new, waiting]
    | inr old =>
      have other : entry.id ≠ node.id := fun same => free (by rw [← same]; exact List.mem_map_of_mem old)
      rw [Function.update_of_ne other]
      exact keyed.own entry old
  · intro entry member
    rw [queues.requests]
    cases List.mem_cons.mp member with
    | inl new => exact ⟨issued, by simp [new, waiting, queues.req], by rw [new]; exact queues.transaction⟩
    | inr old =>
      obtain ⟨former, found, transaction⟩ := keyed.request entry old
      exact ⟨former, by rw [List.getElem?_append_left (keyed.lt old), found], transaction⟩
  · intro req
    rw [queues.log, calls_sent]
    exact keyed.once req
  · intro req unknown
    rw [queues.requests, List.length_append] at unknown
    rw [queues.log, calls_sent]
    exact keyed.known req (Nat.le_of_add_right_le unknown)
  · intro req time sent
    rw [queues.log] at sent ⊢
    rw [calls_sent, List.map_cons, List.mem_cons]
    cases List.mem_cons.mp sent with
    | inl new =>
      cases new
      exact Or.inr (Or.inl rfl)
    | inr old => exact (keyed.left req time old).imp_right Or.inr
  · intro entry member
    rw [queues.log, calls_sent]
    cases List.mem_cons.mp member with
    | inl new =>
      right
      apply keyed.known
      rw [new, ← queues.req]
      exact Nat.le_refl _
    | inr old => exact keyed.silent entry old

/-- The callback of an entry is called. -/
theorem Keyed.call {entries : List Waiting} {this after : CoapClient} {entry : Waiting} {successful : Bool}
    {pdu : CoapPDU} (keyed : Keyed none entries this) (member : entry ∈ entries)
    (callbacks : after.callbacks = this.callbacks) (requests : after.requests = this.requests)
    (log : after.log = .called entry.req successful pdu :: this.log) :
    Keyed (some entry.req) entries after ∧ calls entry.req after.log = 1 := by
  -- nobody else serves, so the callback of this entry was not called before
  have before : calls entry.req this.log = 0 := (keyed.silent entry member).resolve_left (fun none => by cases none)
  have counts : ∀ req, calls req after.log = calls req this.log + if entry.req = req then 1 else 0 := by
    intro req
    rw [log, calls_called]
  refine ⟨⟨keyed.ids, keyed.reqs, ?_, ?_, ?_, ?_, ?_, ?_⟩, by rw [counts, before, if_pos rfl]⟩
  · rw [callbacks]
    exact keyed.own
  · rw [requests]
    exact keyed.request
  · intro req
    rw [counts]
    split
    next same => rw [← same, before]
    next => exact keyed.once req
  · intro req unknown
    rw [requests] at unknown
    have other : entry.req ≠ req := Nat.ne_of_lt (Nat.lt_of_lt_of_le (keyed.lt member) unknown)
    rw [counts, if_neg other]
    exact keyed.known req unknown
  · intro req time sent
    have sent : .sent req time ∈ this.log := by simpa [log] using sent
    rw [counts]
    split
    next same => exact Or.inl (by rw [← same, before])
    next => exact keyed.left req time sent
  · intro other inside
    rw [counts]
    split
    next same => exact Or.inl (by rw [same])
    next => exact Or.inr ((keyed.silent other inside).resolve_left fun none => by cases none)

/-- The entry whose callback was called leaves the queue; its callback may go, too, and connections
may be closed. -/
theorem Keyed.leave {entry : Waiting} {rest : List Waiting} {this after : CoapClient}
    (keyed : Keyed (some entry.req) (entry :: rest) this) (called : calls entry.req this.log = 1)
    (callbacks : ∀ tid, tid ≠ entry.id → after.callbacks tid = this.callbacks tid)
    (length : after.requests.length = this.requests.length)
    (requests : ∀ (req : Nat) (issued : Issued), this.requests[req]? = some issued →
      ∃ later : Issued, after.requests[req]? = some later ∧ SameEndpoint issued.request later.request)
    (log : after.log = this.log) : Keyed none rest after := by
  obtain ⟨apart, ids⟩ := List.nodup_cons.mp keyed.ids
  obtain ⟨alone, reqs⟩ := List.nodup_cons.mp keyed.reqs
  have behind : ∀ other ∈ rest, other ∈ entry :: rest := fun _ member => List.mem_cons_of_mem _ member
  refine ⟨ids, reqs, ?_, ?_, ?_, ?_, ?_, ?_⟩
  · intro other member
    have different : other.id ≠ entry.id := fun same => apart (by rw [← same]; exact List.mem_map_of_mem member)
    rw [callbacks _ different]
    exact keyed.own other (behind other member)
  · intro other member
    obtain ⟨issued, found, transaction⟩ := keyed.request other (behind other member)
    obtain ⟨later, foundLater, same⟩ := requests _ _ found
    refine ⟨later, foundLater, ?_⟩
    rw [transaction, transactionOf, transactionOf, same.1, same.2]
  · rw [log]
    exact keyed.once
  · rw [log, length]
    exact keyed.known
  -- the callback of the entry that leaves was called
  · intro req time sent
    rw [log] at sent ⊢
    cases keyed.left req time sent with
    | inl once => exact Or.inl once
    | inr member =>
      cases List.mem_cons.mp member with
      | inl same => exact Or.inl (by rw [same, called])
      | inr inside => exact Or.inr inside
  · intro other member
    rw [log]
    right
    apply (keyed.silent other (behind other member)).resolve_left
    intro same
    apply alone
    rw [Option.some.inj same]
    exact List.mem_map_of_mem member

/-- An entry is sent again under its id. -/
theorem Keyed.resend {entries : List Waiting} {this sent : CoapClient} {node : CoapQueueNode} {now : Nat}
    {id : CoapTid} (keyed : Keyed none entries this) (member : waiting node ∈ entries)
    (transmits : Transmits this sent node.req now id node.pdu) : Keyed none entries sent ∧ id = node.id := by
  obtain ⟨issued, request, found, same, _, transaction, requests⟩ := transmits.request
  obtain ⟨former, foundFormer, formerId⟩ := keyed.request _ member
  -- the id is computed from the endpoint and the PDU, and neither has changed
  have equal : issued = former := Option.some.inj (found.symm.trans foundFormer)
  refine ⟨⟨keyed.ids, keyed.reqs, ?_, ?_, ?_, ?_, ?_, ?_⟩, by rw [transaction, equal]; exact formerId.symm⟩
  · rw [transmits.callbacks]
    exact keyed.own
  · intro entry inside
    obtain ⟨other, foundOther, otherId⟩ := keyed.request entry inside
    rw [requests]
    -- only the request of the entry is written
    by_cases own : node.req = entry.req
    · refine ⟨{ issued with request }, ?_, ?_⟩
      · rw [← own]
        exact List.getElem?_set_self (keyed.lt member)
      · have equal : issued = other := by
          rw [← own] at foundOther
          exact Option.some.inj (found.symm.trans foundOther)
        rw [otherId, ← equal, transactionOf, transactionOf, same.1, same.2]
    · exact ⟨other, by rw [List.getElem?_set_ne own, foundOther], otherId⟩
  · intro req
    rw [transmits.log, calls_sent]
    exact keyed.once req
  · intro req unknown
    rw [requests, List.length_set] at unknown
    rw [transmits.log, calls_sent]
    exact keyed.known req unknown
  · intro req time logged
    rw [transmits.log] at logged ⊢
    rw [calls_sent]
    cases List.mem_cons.mp logged with
    | inl new =>
      cases new
      exact Or.inr (List.mem_map_of_mem member)
    | inr old => exact keyed.left req time old
  · intro entry inside
    rw [transmits.log, calls_sent]
    exact keyed.silent entry inside

/-- Requests made one after the other; the entries already there stay. -/
theorem requests_keyed {serving : Option Nat} {nested : List RequestCall} {this after : CoapClient}
    (runs : nested.foldlM request this = some after) (keyed : Keyed serving (this.pQueue.map waiting) this)
    (free : Free (this.pQueue.map CoapQueueNode.id) this.messageID nested) :
    Keyed serving (after.pQueue.map waiting) after ∧
      this.pQueue.map waiting ⊆ after.pQueue.map waiting ∧
      ∀ req, calls req after.log = calls req this.log := by
  have ids : ∀ client : CoapClient,
      client.pQueue.map CoapQueueNode.id = (client.pQueue.map waiting).map Waiting.id := by
    intro client
    rw [List.map_map]
    rfl
  refine (requests_invariant (fun rest client => Free (client.pQueue.map CoapQueueNode.id) client.messageID rest ∧
    Keyed serving (client.pQueue.map waiting) client ∧
    this.pQueue.map waiting ⊆ client.pQueue.map waiting ∧ ∀ req, calls req client.log = calls req this.log)
    ?_ ?_ ⟨free, keyed, List.Subset.refl _, fun _ => rfl⟩ runs).2
  · intro call rest before later holds skips
    obtain ⟨free, keyed, stay, same⟩ := holds
    have freeRest := free.2
    rw [skips.queuedAs, Option.toList_none, List.nil_append] at freeRest
    refine ⟨?_, ?_, ?_, ?_⟩
    · rw [skips.pQueue, skips.messageID]
      exact freeRest
    · rw [skips.pQueue]
      exact keyed.skip skips
    · rw [skips.pQueue]
      exact stay
    · rw [skips.log]
      exact same
  · intro call rest before later node issued holds queues
    obtain ⟨free, keyed, stay, same⟩ := holds
    have perm := perm_coapAddNode (advanceFirst (elapsed before.basetime call.now) before.pQueue) node
    rw [← queues.pQueue, map_waiting_advanceFirst] at perm
    -- the id of the new entry is free, so ids stay distinct
    have freeId := free.1 node.id queues.queuedAs
    rw [ids] at freeId
    refine ⟨?_, (keyed.queue queues freeId).perm perm, ?_, ?_⟩
    · rw [queues.messageID]
      apply free.2.weaken
      rw [ids, ids, queues.queuedAs]
      exact (perm.map Waiting.id).subset
    · exact fun entry member => perm.symm.subset (List.mem_cons_of_mem _ (stay member))
    · intro req
      rw [queues.log, calls_sent]
      exact same req

/-! ## One step -/

theorem response_keyed {this after : CoapClient} {successful : Bool} {req : Nat} {pdu : CoapPDU} {now : Nat}
    {nested : List RequestCall} (keyed : Agree this)
    (free : Free (this.pQueue.map CoapQueueNode.id) this.messageID nested)
    (responds : this.onResponse successful req pdu now nested = some after) : Agree after := by
  obtain ⟨issued, _, ⟨rfl, _⟩ | ⟨_, node, member, id, ⟨unknown, _⟩ | ⟨callback, called, registered, answers⟩⟩⟩ :=
    onResponse_cases responds
  · exact keyed
  · have own := keyed.own (waiting node) (List.mem_map_of_mem member)
    rw [show (waiting node).id = issued.request.tid from id, unknown] at own
    cases own
  · have inside : waiting node ∈ this.pQueue.map waiting := List.mem_map_of_mem member
    have own := keyed.own (waiting node) inside
    rw [show (waiting node).id = issued.request.tid from id, registered] at own
    have callbackEq : callback = node.req := Option.some.inj own
    have running : Keyed (some node.req) (this.pQueue.map waiting) { this with
          retransmissionTimer := none, log := .called callback true pdu :: this.log } ∧
        calls node.req (.called callback true pdu :: this.log) = 1 :=
      keyed.call inside rfl rfl (by rw [callbackEq]; rfl)
    obtain ⟨keyed, stay, same⟩ := requests_keyed answers.runs running.1 free
    have once : calls node.req called.log = 1 := (same _).trans running.2
    -- The entry that is removed has the id of the one whose callback was called.
    have matched : decide ((waiting node).id = issued.request.tid) = true := decide_eq_true id
    obtain ⟨entry, front, behind, _, entryId, split, erased⟩ :=
      @List.exists_of_eraseP _ (fun entry => entry.id = issued.request.tid) _ _ (stay inside) matched
    have entryId : entry.id = issued.request.tid := by simpa using entryId
    have entryIn : entry ∈ called.pQueue.map waiting := by
      rw [split]
      exact List.mem_append_right _ (List.mem_cons_self ..)
    have entryReq : entry.req = node.req := by
      have ownEntry := keyed.own entry entryIn
      rw [entryId, ← id] at ownEntry
      exact Option.some.inj (ownEntry.symm.trans (keyed.own _ (stay inside)))
    have perm : (entry :: (called.pQueue.map waiting).eraseP fun entry => entry.id = issued.request.tid).Perm
        (called.pQueue.map waiting) := by
      rw [erased, split]
      exact List.perm_middle.symm
    have keyed := keyed.perm perm
    rw [← entryReq] at keyed once
    rw [answers.after_eq]
    show Keyed none ((advanceFirst _ (coapRemoveNode called.pQueue issued.request.tid)).map waiting) _
    rw [map_waiting_advanceFirst, map_waiting_coapRemoveNode]
    refine keyed.leave once ?_ (List.length_modify ..) ?_ rfl
    · intro tid other
      rw [entryId] at other
      exact Function.update_of_ne other ..
    · intro index issued found
      refine ⟨_, by rw [List.getElem?_modify, found]; rfl, ?_⟩
      split
      next => exact ⟨rfl, rfl⟩
      next => exact ⟨rfl, rfl⟩

theorem tick_keyed {this after : CoapClient} {now : Nat} {connects : Bool} {nested : List RequestCall}
    (keyed : Agree this) (free : Free (this.pQueue.tail.map CoapQueueNode.id) this.messageID nested)
    (taken : this.step (.tick now connects nested) = some after) : Agree after := by
  obtain ⟨node, rest, queue, taken⟩ := tick_cases taken
  rw [Agree, queue] at keyed
  rw [queue] at free
  have first : waiting node ∈ (node :: rest).map waiting := List.mem_cons_self ..
  rcases taken with ⟨_, id, sent, resends⟩ | ⟨_, informed, drops⟩
  · have popped : Keyed none ((node :: rest).map waiting) { this.timerStop with pQueue := rest } :=
      keyed.congr rfl rfl rfl
    obtain ⟨keyed, same⟩ := popped.resend first resends.transmits
    have perm := perm_coapAddNode rest (node.again id)
    rw [show waiting (node.again id) = waiting node by rw [same]; rfl] at perm
    rw [resends.after_eq]
    exact (keyed.perm perm).congr rfl rfl rfl
  · -- The entry is out of the queue before its callback is called.
    have popped : Keyed none (informed.pQueue.map waiting) informed := by
      have own := keyed.own _ first
      obtain ⟨unknown, _⟩ | ⟨callback, registered, runs⟩ := drops.informs
      · exact absurd (own.symm.trans unknown) (Option.some_ne_none _)
      · have callbackEq : callback = node.req := Option.some.inj (registered.symm.trans own)
        rw [callbackEq] at runs
        have running := @Keyed.call _ _ { this.timerStop with
            pQueue := rest, log := .called node.req false node.pdu :: this.log } (waiting node) false node.pdu
          keyed first rfl rfl rfl
        have gone : Keyed none (rest.map waiting) { this.timerStop with
            pQueue := rest, log := .called node.req false node.pdu :: this.log } :=
          running.1.leave running.2 (fun _ _ => rfl) rfl (fun _ issued found => ⟨issued, found, rfl, rfl⟩) rfl
        exact (requests_keyed runs gone free).1
    rw [drops.after_eq]
    exact popped.congr rfl rfl rfl

theorem step_keyed {this after : CoapClient} {event : Event} (keyed : Agree this) (free : FreeIds this event)
    (taken : this.step event = some after) : Agree after := by
  cases event with
  | request call =>
    have runs : [call].foldlM request this = some after := by
      rw [List.foldlM_cons]
      exact (Option.bind_eq_some_iff.mpr ⟨after, taken, rfl⟩)
    exact (requests_keyed runs keyed free).1
  | datagram req payload totLen now nested =>
    obtain ⟨successful, pdu, _, responds⟩ := datagram_cases taken
    exact response_keyed keyed free responds
  | tick now connects nested => exact tick_keyed keyed free taken

/-! ## Runs -/

theorem new_keyed (messageID : UInt16) : Agree (new messageID) where
  ids := List.nodup_nil
  reqs := List.nodup_nil
  own := fun _ member => absurd member List.not_mem_nil
  request := fun _ member => absurd member List.not_mem_nil
  once := fun _ => Nat.zero_le _
  known := fun _ _ => rfl
  left := fun _ _ sent => absurd sent List.not_mem_nil
  silent := fun _ member => absurd member List.not_mem_nil

/-- A 2.05 response without token, options and payload. -/
def contentResponse : Wire.Memory := fun i => if i = 0 then 0x50 else if i = 1 then 0x45 else 0

end CoapClient

end SmingCoap
