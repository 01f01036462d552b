import SmingCoap.Client.CallbackSoundness
import SmingCoap.Client.ResponseSoundness

/-! # Callbacks and the connections they hear from

A datagram arrives on the connection of one request, and it is the transaction
id of that connection that finds a callback.  As long as no request gets an id
that another one had before, this is the callback of the request itself.
-/

namespace SmingCoap

open Transition (Run)

namespace CoapClient

/-- The transaction ids of all requests so far; an invalid one where nothing was sent. -/
def tids (this : CoapClient) : List CoapTid := this.requests.map fun issued => issued.request.tid

/-- The requests of an event, and those that the callback it calls makes, get ids that no request had before. -/
def UnusedIds (this : CoapClient) : Event → Prop
  | .request call => Free this.tids this.messageID [call]
  | .datagram _ _ _ _ nested => Free this.tids this.messageID nested
  | .tick _ _ nested => Free this.tids this.messageID nested

/-- The PDU of a datagram on a connection is one that may be `told` there. -/
def Hears (told : Nat → CoapPDU → Prop) : Event → Prop
  | .datagram req payload totLen _ _ => ∀ pdu ∈ accepted payload totLen, told req pdu
  | _ => True

/-- The id of each callback and of each entry is that of its request; no two requests have the same. -/
structure Owned (told : Nat → CoapPDU → Prop) (this : CoapClient) : Prop where
  distinct : ∀ (i j : Nat) (tid : CoapTid), this.tids[i]? = some tid → this.tids[j]? = some tid → tid ≠ coapInvalidTid → i = j
  registered : ∀ (tid : CoapTid) (callback : Nat), tid ≠ coapInvalidTid → this.callbacks tid = some callback →
    this.tids[callback]? = some tid
  queued : ∀ entry ∈ this.pQueue.map waiting, ∃ issued, this.requests[entry.req]? = some issued ∧
    issued.request.tid = entry.id ∧ entry.id = transactionOf issued.request entry.pdu
  told : ∀ req pdu, .called req true pdu ∈ this.log → told req pdu

section
variable {told : Nat → CoapPDU → Prop} {this after : CoapClient}

theorem length_tids (this : CoapClient) : this.tids.length = this.requests.length := List.length_map ..

theorem Owned.weaken {more : Nat → CoapPDU → Prop} (owned : Owned told this)
    (implies : ∀ req pdu, told req pdu → more req pdu) : Owned more this :=
  ⟨owned.distinct, owned.registered, owned.queued, fun req pdu called => implies req pdu (owned.told req pdu called)⟩

/-- Requests keep endpoint and id. -/
def SameRequests (this after : CoapClient) : Prop :=
  after.tids = this.tids ∧ ∀ (req : Nat) (issued : Issued), this.requests[req]? = some issued →
    ∃ later : Issued, after.requests[req]? = some later ∧ SameEndpoint issued.request later.request ∧
      later.request.tid = issued.request.tid

theorem SameRequests.of_eq (same : after.requests = this.requests) : SameRequests this after :=
  ⟨by rw [tids, tids, same], fun req issued found => ⟨issued, by rw [same, found], ⟨rfl, rfl⟩, rfl⟩⟩

/-- Nothing is new but what a callback was told. -/
theorem Owned.keep (owned : Owned told this) (requests : SameRequests this after)
    (queued : after.pQueue.map waiting ⊆ this.pQueue.map waiting)
    (registered : ∀ tid callback, after.callbacks tid = some callback → this.callbacks tid = some callback)
    (heard : ∀ req pdu, .called req true pdu ∈ after.log → .called req true pdu ∈ this.log ∨ told req pdu) :
    Owned told after where
  distinct := by
    rw [requests.1]
    exact owned.distinct
  registered := by
    rw [requests.1]
    exact fun tid callback valid found => owned.registered tid callback valid (registered tid callback found)
  queued entry member := by
    obtain ⟨issued, found, id, transaction⟩ := owned.queued entry (queued member)
    obtain ⟨later, foundLater, endpoint, tid⟩ := requests.2 entry.req issued found
    refine ⟨later, foundLater, tid.trans id, ?_⟩
    rw [transaction, transactionOf, transactionOf, endpoint.1, endpoint.2]
  told req pdu called := (heard req pdu called).elim (owned.told req pdu) id

/-! ## Requests -/

theorem Owned.skip {call : RequestCall} (owned : Owned told this) (skips : Skips this after call) :
    Owned told after ∧ ∀ tid ∈ after.tids, tid ∈ this.tids ∨ tid = coapInvalidTid := by
  have callbacks : ∀ tid callback, tid ≠ coapInvalidTid → after.callbacks tid = some callback →
      this.tids[callback]? = some tid := by
    intro tid callback valid found
    rw [skips.callbacks tid valid] at found
    exact owned.registered tid callback valid found
  rcases skips.requests with same | ⟨issued, invalid, longer⟩
  · have tids : after.tids = this.tids := by rw [CoapClient.tids, CoapClient.tids, same]
    refine ⟨⟨?_, ?_, ?_, ?_⟩, ?_⟩
    · rw [tids]
      exact owned.distinct
    · rw [tids]
      exact callbacks
    · rw [skips.pQueue, same]
      exact owned.queued
    · rw [skips.log]
      exact owned.told
    · rw [tids]
      exact fun tid member => .inl member
  · have tids : after.tids = this.tids ++ [coapInvalidTid] := by
      rw [CoapClient.tids, CoapClient.tids, longer, List.map_append, List.map_singleton, invalid]
    -- a valid id lies among the earlier ones
    have earlier : ∀ {i : Nat} {tid : CoapTid}, after.tids[i]? = some tid → tid ≠ coapInvalidTid → this.tids[i]? = some tid := by
      intro i tid found valid
      rw [tids] at found
      by_cases inside : i < this.tids.length
      · rwa [List.getElem?_append_left inside] at found
      · rw [List.getElem?_append_right (Nat.not_lt.mp inside), List.getElem?_singleton] at found
        split at found
        · exact absurd (Option.some.inj found).symm valid
        · cases found
    refine ⟨⟨?_, ?_, ?_, ?_⟩, ?_⟩
    · exact fun i j tid first second valid => owned.distinct i j tid (earlier first valid) (earlier second valid) valid
    · intro tid callback valid found
      have known := callbacks tid callback valid found
      rw [tids, List.getElem?_append_left (List.getElem?_eq_some_iff.mp known).1, known]
    · intro entry member
      rw [skips.pQueue] at member
      obtain ⟨former, found, rest⟩ := owned.queued entry member
      exact ⟨former, by rw [longer, List.getElem?_append_left (List.getElem?_eq_some_iff.mp found).1, found], rest⟩
    · rw [skips.log]
      exact owned.told
    · intro tid member
      rw [tids] at member
      exact (List.mem_append.mp member).imp_right List.mem_singleton.mp

theorem Owned.queue {node : CoapQueueNode} {issued : Issued} {call : RequestCall} (owned : Owned told this)
    (queues : Queues this after node issued call) (unused : node.id ∉ this.tids) :
    Owned told after ∧ after.tids = this.tids ++ [node.id] := by
  have tids : after.tids = this.tids ++ [node.id] := by
    rw [CoapClient.tids, CoapClient.tids, queues.requests, List.map_append, List.map_singleton, queues.tid]
  have perm := perm_coapAddNode (advanceFirst (elapsed this.basetime call.now) this.pQueue) node
  rw [← queues.pQueue, map_waiting_advanceFirst] at perm
  have last : node.req = this.tids.length := queues.req.trans this.length_tids.symm
  -- the new id lies at the end only
  have place : ∀ {i : Nat}, after.tids[i]? = some node.id → i = this.tids.length := by
    intro i found
    rw [tids] at found
    by_cases inside : i < this.tids.length
    · rw [List.getElem?_append_left inside] at found
      exact absurd (List.mem_of_getElem? found) unused
    · obtain ⟨bound, _⟩ := List.getElem?_eq_some_iff.mp found
      rw [List.length_append, List.length_singleton] at bound
      omega
  have earlier : ∀ {i : Nat} {tid : CoapTid}, after.tids[i]? = some tid → tid ≠ node.id → this.tids[i]? = some tid := by
    intro i tid found different
    rw [tids] at found
    by_cases inside : i < this.tids.length
    · rwa [List.getElem?_append_left inside] at found
    · rw [List.getElem?_append_right (Nat.not_lt.mp inside), List.getElem?_singleton] at found
      split at found
      · exact absurd (Option.some.inj found).symm different
      · cases found
  refine ⟨⟨?_, ?_, ?_, ?_⟩, tids⟩
  · intro i j tid first second valid
    by_cases new : tid = node.id
    · rw [new] at first second
      exact (place first).trans (place second).symm
    · exact owned.distinct i j tid (earlier first new) (earlier second new) valid
  · intro tid callback valid found
    rw [queues.callbacks] at found
    by_cases new : tid = node.id
    · rw [new, Function.update_self] at found
      rw [← Option.some.inj found, last, tids, new]
      exact List.getElem?_concat_length ..
    · rw [Function.update_of_ne new] at found
      have known := owned.registered tid callback valid found
      rw [tids, List.getElem?_append_left (List.getElem?_eq_some_iff.mp known).1, known]
  · intro entry member
    rw [queues.requests]
    cases List.mem_cons.mp (perm.subset member) with
    | inl new =>
      rw [new]
      refine ⟨issued, ?_, queues.tid, queues.transaction⟩
      rw [show (waiting node).req = this.requests.length from queues.req]
      exact List.getElem?_concat_length ..
    | inr old =>
      obtain ⟨former, found, rest⟩ := owned.queued entry old
      exact ⟨former, by rw [List.getElem?_append_left (List.getElem?_eq_some_iff.mp found).1, found], rest⟩
  · intro req pdu called
    rw [queues.log] at called
    cases called with
    | tail _ old => exact owned.told req pdu old

theorem requests_owned {nested : List RequestCall} (runs : nested.foldlM request this = some after)
    (owned : Owned told this) (free : Free this.tids this.messageID nested) : Owned told after := by
  refine (requests_invariant (fun rest client => Owned told client ∧ ∃ ids, Free ids client.messageID rest ∧
    ∀ tid ∈ client.tids, tid ∈ ids ∨ tid = coapInvalidTid) ?_ ?_
    ⟨owned, this.tids, free, fun _ member => .inl member⟩ runs).1
  · rintro call rest before later ⟨owned, ids, free, covered⟩ skips
    obtain ⟨kept, few⟩ := owned.skip skips
    have freeRest := free.2
    rw [skips.queuedAs, Option.toList_none, List.nil_append, ← skips.messageID] at freeRest
    exact ⟨kept, ids, freeRest, fun tid member => (few tid member).elim (covered tid) .inr⟩
  · rintro call rest before later node issued ⟨owned, ids, free, covered⟩ queues
    have valid : node.id ≠ coapInvalidTid := by
      rw [queues.transaction]
      exact createTransactionID_ne _ _ _
    have unused : node.id ∉ before.tids := fun member =>
      (covered _ member).elim (free.1 node.id queues.queuedAs) valid
    obtain ⟨kept, tids⟩ := owned.queue queues unused
    have freeRest := free.2
    rw [queues.queuedAs, ← queues.messageID] at freeRest
    refine ⟨kept, _, freeRest, fun tid member => ?_⟩
    rw [tids] at member
    cases List.mem_append.mp member with
    | inl old => exact (covered tid old).imp_left (List.mem_append_right _)
    | inr new =>
      rw [List.mem_singleton.mp new]
      exact .inl (List.mem_append_left _ List.mem_cons_self)

/-! ## Responses -/

theorem SameRequests.set {req : Nat} {issued : Issued} {sent : CoapRequest}
    (found : this.requests[req]? = some issued) (endpoint : SameEndpoint issued.request sent)
    (tid : sent.tid = issued.request.tid) (requests : after.requests = this.requests.set req { issued with request := sent }) :
    SameRequests this after := by
  have inside : req < this.requests.length := (List.getElem?_eq_some_iff.mp found).1
  constructor
  · rw [tids, tids, requests, List.map_set, tid]
    apply List.ext_getElem?
    intro index
    rw [List.getElem?_set]
    split
    next same =>
      rw [← same, if_pos (by rwa [List.length_map]), List.getElem?_map, found]
      rfl
    next => rfl
  · intro other former foundOther
    rw [requests, List.getElem?_set]
    by_cases same : req = other
    · rw [← same, found] at foundOther
      cases foundOther
      rw [if_pos same, if_pos inside]
      exact ⟨_, rfl, endpoint, tid⟩
    · rw [if_neg same, foundOther]
      exact ⟨former, rfl, ⟨rfl, rfl⟩, rfl⟩

/-- Closing a connection leaves endpoint and id in place. -/
theorem SameRequests.close (req : Nat) : SameRequests this (this.close req) := by
  constructor
  · apply List.ext_getElem?
    intro index
    simp only [tids, CoapClient.close, List.getElem?_map, List.getElem?_modify]
    cases this.requests[index]? with
    | none => rfl
    | some issued =>
      simp only [Option.map_some]
      split
      · rfl
      · rfl
  · intro other issued found
    simp only [CoapClient.close, List.getElem?_modify, found]
    split
    · exact ⟨_, rfl, ⟨rfl, rfl⟩, rfl⟩
    · exact ⟨issued, rfl, ⟨rfl, rfl⟩, rfl⟩

/-- The callback that a datagram finds is that of the request whose connection it came in on. -/
theorem Owned.callback_eq (owned : Owned told this) {req callback : Nat} {issued : Issued}
    (found : this.requests[req]? = some issued) (valid : issued.request.tid ≠ coapInvalidTid)
    (registered : this.callbacks issued.request.tid = some callback) : callback = req := by
  have own : this.tids[req]? = some issued.request.tid := by rw [tids, List.getElem?_map, found, Option.map_some]
  exact owned.distinct callback req _ (owned.registered _ _ valid registered) own valid

theorem Owned.close {req now : Nat} {pdu : CoapPDU} {nested : List RequestCall} {tid : CoapTid} {callback : Nat}
    {called : CoapClient} (owned : Owned told called)
    (answers : Answers this after req pdu now nested tid callback called) : Owned told after := by
  have same : SameRequests called after := by
    rw [answers.after_eq]
    exact SameRequests.close req
  refine owned.keep same ?_ ?_ ?_
  · rw [answers.waiting]
    exact fun entry member => List.mem_of_mem_eraseP member
  · intro other registered found
    rw [answers.after_eq] at found
    have found : Function.update called.callbacks tid none other = some registered := found
    by_cases own : other = tid
    · rw [own, Function.update_self] at found
      cases found
    · rwa [Function.update_of_ne own] at found
  · intro other pdu called
    rw [answers.after_eq] at called
    exact .inl called

theorem response_owned {successful : Bool} {req : Nat} {pdu : CoapPDU} {now : Nat} {nested : List RequestCall}
    (owned : Owned told this) (heard : successful = true → told req pdu)
    (free : Free this.tids this.messageID nested)
    (responds : this.onResponse successful req pdu now nested = some after) : Owned told after := by
  obtain ⟨issued, found, ⟨rfl, _⟩ | ⟨success, node, member, id, ⟨_, rfl⟩ | ⟨callback, called, registered, answers⟩⟩⟩ :=
    onResponse_cases responds
  · exact owned
  · refine owned.keep (SameRequests.of_eq rfl) ?_ (fun _ _ found => found) (fun _ _ called => .inl called)
    intro entry member
    rwa [show _ = this.pQueue.map waiting from map_waiting_advanceFirst _ _] at member
  · have valid : issued.request.tid ≠ coapInvalidTid := by
      obtain ⟨_, _, _, transaction⟩ := owned.queued (waiting node) (List.mem_map_of_mem member)
      rw [← id, show node.id = _ from transaction]
      exact createTransactionID_ne _ _ _
    have same := owned.callback_eq found valid registered
    have told : Owned told { this with retransmissionTimer := none, log := .called callback true pdu :: this.log } := by
      refine owned.keep (SameRequests.of_eq rfl) (fun _ member => member) (fun _ _ found => found) ?_
      intro other hearing called
      cases called with
      | head =>
        rw [same]
        exact .inr (heard success)
      | tail _ old => exact .inl old
    exact (requests_owned answers.runs told free).close answers

theorem tick_owned {now : Nat} {connects : Bool} {nested : List RequestCall} (owned : Owned told this)
    (free : Free this.tids this.messageID nested) (taken : this.step (.tick now connects nested) = some after) :
    Owned told after := by
  obtain ⟨node, rest, queue, ⟨_, id, sent, resends⟩ | ⟨_, informed, drops⟩⟩ := tick_cases taken
  -- a request sent again has the id it had, so the entry is back in the queue as it was
  · obtain ⟨issued, request, found, endpoint, requestTid, transaction, requests⟩ := resends.transmits.request
    obtain ⟨former, foundFormer, idFormer, transactionFormer⟩ :=
      owned.queued (waiting node) (by rw [queue]; exact List.mem_cons_self)
    rw [show this.requests[(waiting node).req]? = some issued from found] at foundFormer
    cases foundFormer
    have again : id = node.id := transaction.trans transactionFormer.symm
    have perm := perm_coapAddNode rest (node.again id)
    refine owned.keep ?_ ?_ ?_ ?_
    · refine SameRequests.set found endpoint ((requestTid.trans again).trans idFormer.symm) ?_
      rw [resends.after_eq]
      exact requests
    · intro entry member
      rw [resends.after_eq] at member
      rw [queue]
      have same : waiting (node.again id) = waiting node := by
        rw [again]
        rfl
      have inside := perm.subset member
      rwa [same] at inside
    · intro tid callback found
      rw [resends.after_eq] at found
      have same : sent.callbacks = this.callbacks := resends.transmits.callbacks
      rw [← same]
      exact found
    · intro req pdu called
      rw [resends.after_eq] at called
      have called : .called req true pdu ∈ sent.log := called
      rw [resends.transmits.log] at called
      cases called with
      | tail _ old => exact .inl old
  · have behind : rest.map waiting ⊆ this.pQueue.map waiting := by
      rw [queue]
      exact fun entry member => List.mem_cons_of_mem _ member
    have running : Owned told informed := by
      obtain ⟨_, rfl⟩ | ⟨callback, _, runs⟩ := drops.informs
      · exact owned.keep (SameRequests.of_eq rfl) behind (fun _ _ found => found) (fun _ _ called => .inl called)
      · refine requests_owned runs ?_ free
        refine owned.keep (SameRequests.of_eq rfl) behind (fun _ _ found => found) ?_
        intro req pdu called
        cases called with
        | tail _ old => exact .inl old
    rw [drops.after_eq]
    exact running.keep (SameRequests.of_eq rfl) (fun _ member => member) (fun _ _ found => found)
      (fun _ _ called => .inl called)

theorem step_owned {event : Event} (owned : Owned told this) (unused : UnusedIds this event)
    (heard : Hears told event) (taken : this.step event = some after) : Owned told after := by
  cases event with
  | request call =>
    have runs : [call].foldlM request this = some after := by
      rw [List.foldlM_cons]
      exact Option.bind_eq_some_iff.mpr ⟨after, taken, rfl⟩
    exact requests_owned runs owned unused
  | datagram req payload totLen now nested =>
    obtain ⟨successful, pdu, passes, responds⟩ := datagram_cases taken
    refine response_owned owned ?_ unused responds
    intro success
    exact heard pdu (by rw [passes, if_pos success]; rfl)
  | tick now connects nested => exact tick_owned owned unused taken

theorem new_owned (messageID : UInt16) : Owned told (new messageID) where
  distinct _ _ _ found := absurd found (Option.some_ne_none _).symm
  registered _ _ _ found := absurd found (Option.some_ne_none _).symm
  queued _ member := absurd member List.not_mem_nil
  told _ _ called := absurd called List.not_mem_nil

/-! ## What a step adds -/

/-- The requests of an event, and those that the callback it calls makes. -/
def Event.calls : Event → List RequestCall
  | .request call => [call]
  | .datagram _ _ _ _ nested => nested
  | .tick _ _ nested => nested

/-- Nothing of the past is lost, and new PDUs are those of the calls. -/
structure Grows (calls : List RequestCall) (this after : CoapClient) : Prop where
  pdus : this.pdus <+: after.pdus
  log : this.log ⊆ after.log
  built : ∀ pdu ∈ after.pdus, pdu ∈ this.pdus ∨ ∃ messageID, ∃ call ∈ calls, pdu = requestPDU messageID call

theorem Grows.of_eq {calls : List RequestCall} (pdus : after.pdus = this.pdus) (log : this.log ⊆ after.log) :
    Grows calls this after where
  pdus := pdus ▸ List.prefix_refl _
  log := log
  built := by
    rw [pdus]
    exact fun pdu member => .inl member

theorem Grows.trans {calls more all : List RequestCall} {middle : CoapClient} (first : Grows calls this middle)
    (second : Grows more middle after) (calls_subset : calls ⊆ all) (more_subset : more ⊆ all) :
    Grows all this after where
  pdus := first.pdus.trans second.pdus
  log := List.Subset.trans first.log second.log
  built := by
    intro pdu member
    rcases second.built pdu member with earlier | ⟨messageID, call, made, same⟩
    · rcases first.built pdu earlier with before | ⟨messageID, call, made, same⟩
      · exact .inl before
      · exact .inr ⟨messageID, call, calls_subset made, same⟩
    · exact .inr ⟨messageID, call, more_subset made, same⟩

theorem request_grows {call : RequestCall} (requests : this.request call = some after) : Grows [call] this after := by
  simp only [request] at requests
  split at requests
  next =>
    cases requests
    exact .of_eq rfl (List.Subset.refl _)
  next =>
    split at requests
    next resolvedIP _ =>
      simp only [Option.bind_eq_bind, Option.bind_eq_some_iff, Option.some.injEq] at requests
      obtain ⟨⟨tid, queued⟩, queues, rfl⟩ := requests
      have pdus : queued.pdus = this.pdus ++ [requestPDU this.messageID call] ∧ this.log ⊆ queued.log := by
        rcases doRequest_cases queues with ⟨_, _, rfl⟩ | ⟨_, sent, node, transmits, _, _, _, _, _, rfl⟩
        · exact ⟨List.map_append .., List.Subset.refl _⟩
        · constructor
          · exact transmits.pdus.trans (List.map_append ..)
          · have logged : this.log ⊆ sent.log := by
              rw [transmits.log]
              exact List.subset_cons_self ..
            exact logged
      refine ⟨⟨_, pdus.1.symm⟩, pdus.2, fun pdu member => ?_⟩
      have member : pdu ∈ queued.pdus := member
      rw [pdus.1] at member
      refine (List.mem_append.mp member).imp_right fun new => ?_
      exact ⟨this.messageID, call, List.mem_singleton_self _, List.mem_singleton.mp new⟩
    next =>
      cases requests
      exact .of_eq rfl (List.Subset.refl _)

theorem requests_grow {nested : List RequestCall} (runs : nested.foldlM request this = some after) :
    Grows nested this after := by
  induction nested generalizing this with
  | nil =>
    cases runs
    exact .of_eq rfl (List.Subset.refl _)
  | cons call rest inductionHypothesis =>
    rw [List.foldlM_cons] at runs
    obtain ⟨middle, first, runs⟩ := Option.bind_eq_some_iff.mp runs
    exact (request_grows first).trans (inductionHypothesis runs) (List.cons_subset_cons _ (List.nil_subset _))
      (List.subset_cons_self ..)

/-- What a callback does, and what is done behind it. -/
theorem Grows.around {nested : List RequestCall} {effect : Effect} {begun called : CoapClient}
    (log : begun.log = effect :: this.log) (pdus : begun.pdus = this.pdus)
    (runs : nested.foldlM request begun = some called) (closed : after.pdus = called.pdus)
    (logged : after.log = called.log) : Grows nested this after := by
  have begins : Grows [] this begun := .of_eq pdus (log ▸ List.subset_cons_self ..)
  have ends : Grows [] called after := .of_eq closed (logged ▸ List.Subset.refl _)
  exact (begins.trans (requests_grow runs) (List.nil_subset _) (List.Subset.refl _)).trans ends (List.Subset.refl _)
    (List.nil_subset _)

theorem step_grows {event : Event} (taken : this.step event = some after) : Grows event.calls this after := by
  cases event with
  | request call => exact request_grows taken
  | datagram req payload totLen now nested =>
    obtain ⟨successful, pdu, _, responds⟩ := datagram_cases taken
    obtain ⟨issued, _, ⟨rfl, _⟩ | ⟨_, node, _, _, ⟨_, rfl⟩ | ⟨callback, called, _, answers⟩⟩⟩ := onResponse_cases responds
    · exact .of_eq rfl (List.Subset.refl _)
    · exact .of_eq rfl (List.Subset.refl _)
    · refine .around rfl ?_ answers.runs answers.pdus ?_
      · rfl
      · rw [answers.after_eq]
  | tick now connects nested =>
    obtain ⟨node, rest, _, ⟨_, id, sent, resends⟩ | ⟨_, informed, drops⟩⟩ := tick_cases taken
    · refine .of_eq ?_ ?_
      · rw [resends.after_eq]
        exact resends.transmits.pdus
      · have logged : this.log ⊆ sent.log := by
          rw [resends.transmits.log]
          exact List.subset_cons_self ..
        rw [resends.after_eq]
        exact logged
    · obtain ⟨_, rfl⟩ | ⟨callback, _, runs⟩ := drops.informs
      · rw [drops.after_eq]
        exact .of_eq rfl (List.Subset.refl _)
      · refine .around rfl ?_ runs ?_ ?_
        · rfl
        · rw [drops.after_eq]
          rfl
        · rw [drops.after_eq]

end

end CoapClient

end SmingCoap
