import SmingCoap.Client.EngineSteps
import SmingCoap.Transition.Runs

/-! # Responses and the requests they answer

`onResponse` takes every valid PDU on a connection for the answer to the request
that is queued under the connection's transaction id; the checks of token and
type are commented out.  As long as the peers send nothing else, a callback that
is told of success gets an answer, and no other datagram ends a request
(`responses_answer`).
-/

namespace SmingCoap

open Transition (Run)

namespace CoapClient

/-! ## What answers a request -/

/-- The rule quoted in `Hash.cpp`: the token is that of the request, and the message id too in an
acknowledgement. -/
structure AnswersTo (pdu request : CoapPDU) : Prop where
  notReset : pdu.getType ≠ .reset
  notEmpty : pdu.getCode ≠ CoapPDU.empty
  token : pdu.getToken = request.getToken
  messageID : pdu.getType = .acknowledgement → pdu.getMessageID = request.getMessageID

/-- The PDUs of all requests so far. -/
def pdus (this : CoapClient) : List CoapPDU := this.requests.map Issued.pdu

/-- A callback is told of success with an answer to its request, and a datagram that passes
`validate` ends only requests it answers. -/
structure OnlyAnswers (allowed : CoapClient → Event → Prop) (this : CoapClient) : Prop where
  told : ∀ req pdu, .called req true pdu ∈ this.log →
    ∃ request, this.pdus[req]? = some request ∧ AnswersTo pdu request
  stays : ∀ req payload totLen now nested pdu after, accepted payload totLen = some pdu →
    allowed this (.datagram req payload totLen now nested) →
    this.step (.datagram req payload totLen now nested) = some after →
    ∀ pending ∈ this.pQueue, (∀ request, this.pdus[pending.req]? = some request → ¬ AnswersTo pdu request) →
      ∃ node ∈ after.pQueue, node.req = pending.req

/-- Under the transaction id of a connection, a datagram that passes `validate` answers both the
request queued first and the one whose callback is registered. -/
def Solicited (this : CoapClient) : Event → Prop
  | .datagram req payload totLen _ _ =>
    ∀ issued ∈ this.requests[req]?, ∀ pdu ∈ accepted payload totLen,
      ∀ callback ∈ this.callbacks issued.request.tid,
        ∀ first ∈ this.pQueue.find? (fun node => node.id = issued.request.tid),
          AnswersTo pdu first.pdu ∧ ∀ request ∈ this.pdus[callback]?, AnswersTo pdu request
  | _ => True

/-! ## The invariant -/

/-- Entries, callbacks and calls go with the PDUs of the requests. -/
structure Recorded (this : CoapClient) : Prop where
  queued : ∀ entry ∈ this.pQueue.map waiting,
    this.pdus[entry.req]? = some entry.pdu ∧ entry.id ≠ coapInvalidTid
  registered : ∀ tid callback, tid ≠ coapInvalidTid → this.callbacks tid = some callback →
    callback < this.pdus.length
  told : ∀ req pdu, .called req true pdu ∈ this.log →
    ∃ request, this.pdus[req]? = some request ∧ AnswersTo pdu request

theorem found_in_longer {list longer : List CoapPDU} (isPre : list <+: longer) {index : Nat} {pdu : CoapPDU}
    (found : list[index]? = some pdu) : longer[index]? = some pdu := by
  obtain ⟨more, rfl⟩ := isPre
  rw [List.getElem?_append_left (List.getElem?_eq_some_iff.mp found).1, found]

/-- What is new has to go with the PDUs; what was there does. -/
theorem Recorded.grow {this after : CoapClient} (recorded : Recorded this) (pdus : this.pdus <+: after.pdus)
    (queued : ∀ entry ∈ after.pQueue.map waiting, entry ∈ this.pQueue.map waiting ∨
      (after.pdus[entry.req]? = some entry.pdu ∧ entry.id ≠ coapInvalidTid))
    (registered : ∀ tid callback, tid ≠ coapInvalidTid → after.callbacks tid = some callback →
      this.callbacks tid = some callback ∨ callback < after.pdus.length)
    (told : ∀ req pdu, .called req true pdu ∈ after.log → .called req true pdu ∈ this.log ∨
      ∃ request, after.pdus[req]? = some request ∧ AnswersTo pdu request) : Recorded after where
  queued := by
    intro entry member
    cases queued entry member with
    | inl old => exact ⟨found_in_longer pdus (recorded.queued entry old).1, (recorded.queued entry old).2⟩
    | inr new => exact new
  registered := by
    intro tid callback valid found
    cases registered tid callback valid found with
    | inl old => exact Nat.lt_of_lt_of_le (recorded.registered tid callback valid old) pdus.length_le
    | inr new => exact new
  told := by
    intro req pdu called
    cases told req pdu called with
    | inl old =>
      obtain ⟨request, found, answers⟩ := recorded.told req pdu old
      exact ⟨request, found_in_longer pdus found, answers⟩
    | inr new => exact new

theorem Skips.pdus {this after : CoapClient} {call : RequestCall} (skips : Skips this after call) :
    this.pdus <+: after.pdus := by
  rw [CoapClient.pdus, CoapClient.pdus]
  cases skips.requests with
  | inl same => exact ⟨[], by rw [List.append_nil, same]⟩
  | inr longer =>
    obtain ⟨issued, _, longer⟩ := longer
    rw [longer, List.map_append]
    exact List.prefix_append ..

theorem Queues.pdus {this after : CoapClient} {node : CoapQueueNode} {issued : Issued} {call : RequestCall}
    (queues : Queues this after node issued call) : after.pdus = this.pdus ++ [node.pdu] := by
  rw [CoapClient.pdus, queues.requests, List.map_append, List.map_singleton, queues.pdu]
  rfl

theorem Transmits.pdus {this after : CoapClient} {req now : Nat} {id : CoapTid} {pdu : CoapPDU}
    (transmits : Transmits this after req now id pdu) : after.pdus = this.pdus := by
  obtain ⟨issued, sent, found, _, _, _, requests⟩ := transmits.request
  obtain ⟨known, found⟩ := List.getElem?_eq_some_iff.mp found
  have known : req < (this.requests.map Issued.pdu).length := by rwa [List.length_map]
  have same : issued.pdu = (this.requests.map Issued.pdu)[req] := by
    rw [List.getElem_map, found]
  rw [CoapClient.pdus, CoapClient.pdus, requests, List.map_set, same, List.set_getElem_self]

theorem Recorded.skip {this after : CoapClient} {call : RequestCall} (recorded : Recorded this)
    (skips : Skips this after call) : Recorded after := by
  apply recorded.grow skips.pdus
  · intro entry member
    rw [skips.pQueue] at member
    exact Or.inl member
  · intro tid callback valid found
    rw [skips.callbacks tid valid] at found
    exact Or.inl found
  · intro req pdu called
    rw [skips.log] at called
    exact Or.inl called

theorem Recorded.queue {this after : CoapClient} {node : CoapQueueNode} {issued : Issued} {call : RequestCall}
    (recorded : Recorded this) (queues : Queues this after node issued call) :
    Recorded after ∧ (this.pQueue.map waiting).Sublist (after.pQueue.map waiting) := by
  have perm := perm_coapAddNode (advanceFirst (elapsed this.basetime call.now) this.pQueue) node
  have sub := sublist_coapAddNode (advanceFirst (elapsed this.basetime call.now) this.pQueue) node
  rw [← queues.pQueue, map_waiting_advanceFirst] at perm sub
  have length : this.pdus.length = this.requests.length := List.length_map ..
  refine ⟨recorded.grow ?_ ?_ ?_ ?_, sub⟩
  · rw [queues.pdus]
    exact List.prefix_append ..
  · intro entry member
    cases List.mem_cons.mp (perm.subset member) with
    | inl new =>
      right
      rw [new, queues.pdus, show (waiting node).req = this.pdus.length from queues.req.trans length.symm]
      refine ⟨List.getElem?_concat_length .., ?_⟩
      rw [show (waiting node).id = _ from queues.transaction]
      exact createTransactionID_ne _ _ _
    | inr old => exact Or.inl old
  · intro tid callback valid found
    rw [queues.callbacks] at found
    by_cases own : tid = node.id
    · rw [own, Function.update_self] at found
      right
      rw [queues.pdus, ← Option.some.inj found, queues.req, List.length_append, length]
      exact Nat.lt_succ_self _
    · rw [Function.update_of_ne own] at found
      exact Or.inl found
  · intro req pdu called
    rw [queues.log] at called
    cases called with
    | tail _ old => exact Or.inl old

theorem requests_recorded {nested : List RequestCall} {this after : CoapClient}
    (runs : nested.foldlM request this = some after) (recorded : Recorded this) :
    Recorded after ∧ (this.pQueue.map waiting).Sublist (after.pQueue.map waiting) := by
  refine requests_invariant (fun _ client => Recorded client ∧
    (this.pQueue.map waiting).Sublist (client.pQueue.map waiting)) ?_ ?_ ⟨recorded, .refl _⟩ runs
  · intro call rest before later holds skips
    refine ⟨holds.1.skip skips, ?_⟩
    rw [skips.pQueue]
    exact holds.2
  · intro call rest before later node issued holds queues
    exact ⟨(holds.1.queue queues).1, holds.2.trans (holds.1.queue queues).2⟩

/-! ## One step -/

theorem find?_of_mem {this : CoapClient} {node : CoapQueueNode} {tid : CoapTid} (member : node ∈ this.pQueue)
    (id : node.id = tid) : ∃ first front behind, this.pQueue.find? (fun node => node.id = tid) = some first ∧
      first.id = tid ∧ this.pQueue = front ++ first :: behind ∧ ∀ node ∈ front, node.id ≠ tid := by
  have found : (this.pQueue.find? fun node => node.id = tid).isSome := by
    rw [List.find?_isSome]
    exact ⟨node, member, decide_eq_true id⟩
  obtain ⟨first, found⟩ := Option.isSome_iff_exists.mp found
  obtain ⟨matched, front, behind, split, none⟩ := List.find?_eq_some_iff_append.mp found
  refine ⟨first, front, behind, found, of_decide_eq_true matched, split, ?_⟩
  intro node member same
  have other := none node member
  simp [same] at other

/-- Removing the first entry with an id keeps all others. -/
theorem eraseP_split {front behind : List CoapQueueNode} {first : CoapQueueNode} {tid : CoapTid}
    (id : first.id = tid) (none : ∀ node ∈ front, node.id ≠ tid) :
    ((front ++ first :: behind).map waiting).eraseP (fun entry => entry.id = tid) =
      (front ++ behind).map waiting := by
  rw [List.map_append, List.map_cons, List.eraseP_append_right, List.eraseP_cons_of_pos, List.map_append]
  · exact decide_eq_true id
  · intro entry member
    obtain ⟨node, inside, rfl⟩ := List.mem_map.mp member
    exact fun same => none node inside (of_decide_eq_true same)

/-- The first entry with an id is another one, so removing it keeps this one. -/
theorem waiting_kept {this : CoapClient} {pending first : CoapQueueNode} {front behind : List CoapQueueNode}
    {tid : CoapTid} (queue : this.pQueue = front ++ first :: behind) (id : first.id = tid)
    (others : ∀ node ∈ front, node.id ≠ tid) (member : pending ∈ this.pQueue) (other : pending ≠ first) :
    waiting pending ∈ (this.pQueue.map waiting).eraseP fun entry => entry.id = tid := by
  rw [queue] at member ⊢
  rw [eraseP_split id others]
  apply List.mem_map_of_mem
  cases List.mem_append.mp member with
  | inl inFront => exact List.mem_append_left _ inFront
  | inr behind =>
    cases List.mem_cons.mp behind with
    | inl same => exact absurd same other
    | inr behind => exact List.mem_append_right _ behind

/-- A callback is told of success with an answer to its request. -/
theorem Recorded.call {this : CoapClient} {callback : Nat} {pdu : CoapPDU} (recorded : Recorded this)
    (known : callback < this.pdus.length) (answers : AnswersTo pdu this.pdus[callback]) :
    Recorded { this with retransmissionTimer := none, log := .called callback true pdu :: this.log } := by
  refine recorded.grow ?_ (fun _ member => Or.inl member) (fun _ _ _ found => Or.inl found) ?_
  · exact List.prefix_refl this.pdus
  · intro req told called
    cases called with
    | head => exact Or.inr ⟨_, List.getElem?_eq_getElem known, answers⟩
    | tail _ old => exact Or.inl old

section

variable {this after called : CoapClient} {req : Nat} {pdu : CoapPDU} {now : Nat} {nested : List RequestCall}
  {tid : CoapTid} {callback : Nat}

theorem Answers.waiting (answers : Answers this after req pdu now nested tid callback called) :
    after.pQueue.map CoapClient.waiting = (called.pQueue.map CoapClient.waiting).eraseP fun entry => entry.id = tid := by
  rw [answers.after_eq, ← map_waiting_coapRemoveNode]
  exact map_waiting_advanceFirst ..

/-- Closing the connection changes no PDU. -/
theorem Answers.pdus (answers : Answers this after req pdu now nested tid callback called) :
    after.pdus = called.pdus := by
  rw [answers.after_eq]
  apply List.ext_getElem?
  intro index
  simp only [CoapClient.pdus, List.getElem?_map, List.getElem?_modify]
  cases called.requests[index]? with
  | none => rfl
  | some issued =>
    simp only [Option.map_some]
    split
    · rfl
    · rfl

/-- Behind the callback an entry and a registration go, and nothing is new. -/
theorem Recorded.close (recorded : Recorded called)
    (answers : Answers this after req pdu now nested tid callback called) : Recorded after := by
  refine recorded.grow ⟨[], by rw [List.append_nil, answers.pdus]⟩ ?_ ?_ ?_
  · intro entry member
    rw [answers.waiting] at member
    exact Or.inl (List.mem_of_mem_eraseP member)
  · intro other registered _ found
    have found : Function.update called.callbacks tid none other = some registered := by
      rwa [answers.after_eq] at found
    by_cases own : other = tid
    · rw [own, Function.update_self] at found
      cases found
    · rw [Function.update_of_ne own] at found
      exact Or.inl found
  · intro other told called
    rw [answers.after_eq] at called
    exact Or.inl called

end

theorem response_recorded {this after : CoapClient} {successful : Bool} {req : Nat} {pdu : CoapPDU} {now : Nat}
    {nested : List RequestCall} (recorded : Recorded this)
    (solicited : ∀ issued callback first, successful = true → this.requests[req]? = some issued →
      this.callbacks issued.request.tid = some callback →
      this.pQueue.find? (fun node => node.id = issued.request.tid) = some first →
      AnswersTo pdu first.pdu ∧ ∀ request, this.pdus[callback]? = some request → AnswersTo pdu request)
    (responds : this.onResponse successful req pdu now nested = some after) :
    Recorded after ∧ (successful = true → ∀ pending ∈ this.pQueue,
      (∀ request, this.pdus[pending.req]? = some request → ¬ AnswersTo pdu request) →
        ∃ node ∈ after.pQueue, node.req = pending.req) := by
  obtain ⟨issued, found, ⟨rfl, _⟩ | ⟨success, node, member, id, ⟨_, rfl⟩ | ⟨callback, called, registered, answers⟩⟩⟩ :=
    onResponse_cases responds
  · exact ⟨recorded, fun _ pending member _ => ⟨pending, member, rfl⟩⟩
  · -- no callback is registered: the entries stay
    have entries := map_waiting_advanceFirst (elapsed this.basetime now) this.pQueue
    constructor
    · refine recorded.grow ?_ ?_ (fun _ _ _ found => Or.inl found) (fun _ _ called => Or.inl called)
      · exact List.prefix_refl this.pdus
      · intro entry member
        exact Or.inl (by rwa [entries] at member)
    · intro _ pending member _
      apply mem_map_waiting
      rw [entries]
      exact List.mem_map_of_mem member
  · obtain ⟨first, front, behind, first_eq, firstId, queue, others⟩ := find?_of_mem member id
    obtain ⟨answersFirst, answersTold⟩ := solicited issued callback first success found registered first_eq
    have valid : issued.request.tid ≠ coapInvalidTid := by
      rw [← id]
      exact (recorded.queued (waiting node) (List.mem_map_of_mem member)).2
    have known := recorded.registered _ _ valid registered
    obtain ⟨running, stay⟩ := requests_recorded answers.runs
      (recorded.call known (answersTold _ (List.getElem?_eq_getElem known)))
    refine ⟨running.close answers, ?_⟩
    -- the first entry of the id is answered; every other one stays
    intro _ pending member unanswered
    have firstPdu := (recorded.queued (waiting first) (by rw [queue]; simp)).1
    have other : pending ≠ first := by
      rintro rfl
      exact unanswered _ firstPdu answersFirst
    apply mem_map_waiting
    rw [answers.waiting]
    exact (List.Sublist.eraseP stay).subset (waiting_kept queue firstId others member other)

theorem tick_recorded {this after : CoapClient} {now : Nat} {connects : Bool} {nested : List RequestCall}
    (recorded : Recorded this) (taken : this.step (.tick now connects nested) = some after) : Recorded after := by
  obtain ⟨node, rest, queue, ⟨_, id, sent, resends⟩ | ⟨_, informed, drops⟩⟩ := tick_cases taken
  -- sent again: the same PDU is back in the queue under a new id
  · have transmits := resends.transmits
    have perm := perm_coapAddNode rest (node.again id)
    have first := recorded.queued (waiting node) (by rw [queue]; simp)
    have pdusEq : after.pdus = this.pdus := by
      rw [resends.after_eq]
      exact transmits.pdus
    refine recorded.grow ⟨[], by rw [List.append_nil, pdusEq]⟩ ?_ ?_ ?_
    · intro entry member
      rw [resends.after_eq] at member
      cases List.mem_cons.mp (perm.subset member) with
      | inl again =>
        obtain ⟨issued, _, _, _, _, transaction, _⟩ := transmits.request
        right
        rw [again, pdusEq]
        refine ⟨first.1, ?_⟩
        show id ≠ coapInvalidTid
        rw [transaction]
        exact createTransactionID_ne _ _ _
      | inr old =>
        left
        rw [queue]
        exact List.mem_cons_of_mem _ old
    · intro tid callback _ found
      rw [resends.after_eq] at found
      have same : sent.callbacks = this.callbacks := transmits.callbacks
      left
      rw [← same]
      exact found
    · intro req pdu called
      rw [resends.after_eq] at called
      have called : .called req true pdu ∈ sent.log := called
      rw [transmits.log] at called
      cases called with
      | tail _ old => exact Or.inl old
  -- given up: the entry leaves the queue and its callback hears of the failure
  · have behind : ∀ entry ∈ rest.map waiting, entry ∈ this.pQueue.map waiting := by
      intro entry member
      rw [queue]
      exact List.mem_cons_of_mem _ member
    have running : Recorded informed := by
      obtain ⟨_, rfl⟩ | ⟨callback, _, runs⟩ := drops.informs
      · exact ⟨fun entry member => recorded.queued entry (behind entry member), recorded.registered, recorded.told⟩
      · refine (requests_recorded runs ⟨fun entry member => recorded.queued entry (behind entry member),
          recorded.registered, ?_⟩).1
        intro req pdu called
        cases called with
        | tail _ old => exact recorded.told req pdu old
    rw [drops.after_eq]
    exact ⟨running.queued, running.registered, running.told⟩

theorem step_recorded {this after : CoapClient} {event : Event} (recorded : Recorded this)
    (solicited : Solicited this event) (taken : this.step event = some after) : Recorded after := by
  cases event with
  | request call =>
    have runs : [call].foldlM request this = some after := by
      rw [List.foldlM_cons]
      exact Option.bind_eq_some_iff.mpr ⟨after, taken, rfl⟩
    exact (requests_recorded runs recorded).1
  | datagram req payload totLen now nested =>
    obtain ⟨successful, pdu, passes, responds⟩ := datagram_cases taken
    exact (response_recorded recorded (fun issued callback first success found =>
      fun registered => solicited issued found pdu (by rw [passes, if_pos success]; rfl) callback registered first)
        responds).1
  | tick now connects nested => exact tick_recorded recorded taken

/-! ## Runs -/

theorem new_recorded (messageID : UInt16) : Recorded (new messageID) where
  queued := fun _ member => absurd member List.not_mem_nil
  registered := fun _ _ _ found => absurd found (Option.some_ne_none _).symm
  told := fun _ _ called => absurd called List.not_mem_nil

/-- In every run whose peers send only answers to what is outstanding, a callback is told of success
with an answer to its request only, and every other valid datagram leaves the requests pending. -/
theorem responses_answer {messageID : UInt16} {this : CoapClient} (run : Run step Solicited (new messageID) this) :
    OnlyAnswers Solicited this := by
  have recorded : Recorded this := run.invariant (new_recorded messageID)
    fun _ _ _ before solicited taken => step_recorded before solicited taken
  refine ⟨recorded.told, ?_⟩
  intro req payload totLen now nested pdu after valid solicited taken
  obtain ⟨successful, received, passes, responds⟩ := datagram_cases taken
  rw [valid] at passes
  split at passes
  next success =>
    cases passes
    exact (response_recorded recorded (fun issued callback first _ found =>
      fun registered => solicited issued found pdu valid callback registered first) responds).2 success
  next => cases passes

instance (pdu request : CoapPDU) : Decidable (AnswersTo pdu request) :=
  decidable_of_iff (pdu.getType ≠ .reset ∧ pdu.getCode ≠ CoapPDU.empty ∧ pdu.getToken = request.getToken ∧
      (pdu.getType = .acknowledgement → pdu.getMessageID = request.getMessageID))
    ⟨fun ⟨notReset, notEmpty, token, messageID⟩ => ⟨notReset, notEmpty, token, messageID⟩,
      fun ⟨notReset, notEmpty, token, messageID⟩ => ⟨notReset, notEmpty, token, messageID⟩⟩

/-- A 2.05 acknowledgement of message 0 with the token of the client. -/
def contentAck : Wire.Memory := fun i => [0x64, 0x45, 0x00, 0x00, 0x03, 0x02, 0x01, 0x01].getD i 0

/-- A confirmable request and its piggybacked response. -/
theorem responses_answer_ack : ∃ this : CoapClient, this.log.length = 2 ∧ OnlyAnswers Solicited this := by
  have run : Run step Solicited (new 0) _ :=
    .next (.next .refl (.request (rootGet .confirmable 1 0)) trivial rfl)
      (.datagram 0 contentAck 8 0 []) (by simp only [Solicited]; decide +kernel) rfl
  exact ⟨_, rfl, responses_answer run⟩

/-- A Reset of message 0. -/
def resetMessage : Wire.Memory := fun i => [0x70, 0x00, 0x00, 0x00].getD i 0

/-- The callback is told of success, with a Reset in hand. -/
def Effect.toldOfReset : Effect → Bool
  | .called _ true pdu => pdu.getType = .reset
  | _ => false

/-- The peer refuses the request with a Reset, and the callback is told of success. -/
theorem reset_taken_for_answer :
    ¬ ∀ (messageID : UInt16) (this : CoapClient), Run step (fun _ _ => True) (new messageID) this →
      OnlyAnswers (fun _ _ => True) this := by
  intro only
  have reached : ([Event.request (rootGet .confirmable 1 0), .datagram 0 resetMessage 4 0 []].foldlM step
        (new 0)).map (fun this => this.log.any Effect.toldOfReset) = some true := by
    decide +kernel
  obtain ⟨this, taken, told⟩ := Option.map_eq_some_iff.mp reached
  obtain ⟨effect, member, isReset⟩ := List.any_eq_true.mp told
  unfold Effect.toldOfReset at isReset
  split at isReset
  next req pdu =>
    obtain ⟨request, _, answers⟩ := (only 0 this (.of_events _ .refl taken)).told req pdu member
    exact answers.notReset (of_decide_eq_true isReset)
  next => cases isReset

end CoapClient

end SmingCoap
