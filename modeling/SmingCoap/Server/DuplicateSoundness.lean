import SmingCoap.Server.Invariants

/-! # Duplicated requests

The server interactions after a step are those of before, but for the one that
a packet starts behind the search for duplicates.  So there is one for each
request that is alive, and its handler is the only one that runs for it.
-/

namespace SmingCoap.Server

namespace CoapServer

/-- Two interactions for the same request: interface, remote endpoint and message id. -/
structure SameRequest (pIA other : CoapInteraction) : Prop where
  ifID : other.ifID = pIA.ifID
  remoteEp : epAreEqual other.remoteEp pIA.remoteEp = true
  messageID : ∃ req too, pIA.pReqMsg = some req ∧ other.pReqMsg = some too ∧ too.messageID = req.messageID

/-- A server interaction, later. -/
structure Continues (pIA later : CoapInteraction) : Prop where
  ref : later.ref = pIA.ref
  role : later.role = pIA.role
  ifID : later.ifID = pIA.ifID
  remoteEp : later.remoteEp = pIA.remoteEp
  pReqMsg : later.pReqMsg = pIA.pReqMsg

theorem Continues.refl (pIA : CoapInteraction) : Continues pIA pIA := ⟨rfl, rfl, rfl, rfl, rfl⟩

theorem SameRequest.continues {pIA other older : CoapInteraction} (same : SameRequest pIA other)
    (continues : Continues older pIA) : SameRequest older other := by
  obtain ⟨ifID, remoteEp, req, too, request, messages⟩ := same
  exact ⟨ifID.trans continues.ifID, continues.remoteEp ▸ remoteEp, req, too,
    continues.pReqMsg.symm.trans request, messages⟩

theorem SameRequest.symm {pIA other : CoapInteraction} (same : SameRequest pIA other) : SameRequest other pIA := by
  obtain ⟨ifID, remoteEp, req, too, request, requestToo, messageID⟩ := same
  exact ⟨ifID.symm, epAreEqual_symm remoteEp, too, req, requestToo, request, messageID.symm⟩

/-- The servers of a list. -/
def Serves (list : List CoapInteraction) (pIA : CoapInteraction) : Prop :=
  pIA ∈ list ∧ pIA.role = .server

section
variable {env : Env} {known : CoapObserver → Prop} {now : UInt32} {this after : CoapServer}
  {listed : List CoapResource} {pIA served : CoapInteraction}

/-- Calls leave server interactions as they are and start none. -/
theorem CallAct.serves (act : CallAct env known this after) (serves : Serves after.pInteractions served) :
    Serves this.pInteractions served := by
  obtain ⟨member, role⟩ := serves
  cases act with
  | silent same => exact ⟨same.pInteractions ▸ member, role⟩
  | nextMid => exact ⟨member, role⟩
  | flag listed pending =>
    cases mem_stored member with
    | inl same =>
      rw [same] at role
      exact absurd (pending.symm.trans role) (by decide)
    | inr kept => exact ⟨kept.1, role⟩
  | client =>
    cases List.mem_append.mp member with
    | inl earlier => exact ⟨earlier, role⟩
    | inr last =>
      rw [List.mem_singleton.mp last] at role
      cases role
  | notification =>
    cases List.mem_append.mp member with
    | inl earlier => exact ⟨earlier, role⟩
    | inr last =>
      rw [List.mem_singleton.mp last] at role
      cases role
  | removeObserver => exact ⟨member, role⟩
  | update => exact ⟨member, role⟩

theorem Calls.serves (calls : Calls env known this after) (serves : Serves after.pInteractions served) :
    Serves this.pInteractions served := by
  induction calls with
  | refl => exact serves
  | tail _ act inductionHypothesis => exact inductionHypothesis (act.serves serves)

theorem Observes.serves (observes : Observes pIA this after) (serves : Serves after.pInteractions served) :
    Serves this.pInteractions served := by
  obtain ⟨member, role⟩ := serves
  cases observes with
  | nothing same => exact ⟨same.pInteractions ▸ member, role⟩
  | registered _ _ middle same changed =>
    rw [changed] at member
    exact ⟨same.pInteractions ▸ member, role⟩
  | removed token _ changed =>
    rw [changed, removeInteractionsObserver_pInteractions] at member
    exact ⟨member, role⟩
  | aborted token _ _ _ changed =>
    rw [changed] at member
    have kept := List.mem_of_mem_eraseP member
    rw [removeInteractionsObserver_pInteractions] at kept
    exact ⟨kept, role⟩

theorem Works.continues {log effects : List Effect} {worked : CoapInteraction}
    (works : Works env now listed log pIA effects worked) (role : worked.role = .server) : Continues pIA worked := by
  obtain ⟨sameRole, remoteEp, ifID, kept⟩ := works.identity
  have notClient : pIA.role ≠ .client := by
    rw [← sameRole, role]
    decide
  exact ⟨works.ref, sameRole, ifID, remoteEp, (kept notClient).2.2⟩

theorem Ends.serves (ends : Ends env now listed pIA this after) (serves : Serves after.pInteractions served) :
    Continues pIA served ∨ Serves this.pInteractions served := by
  obtain ⟨member, role⟩ := serves
  cases ends with
  | deleted placed =>
    rw [placed.pInteractions] at member
    exact .inr ⟨List.mem_of_mem_eraseP member, role⟩
  | last works placed =>
    rw [placed.pInteractions] at member
    cases List.mem_append.mp member with
    | inl earlier => exact .inr ⟨List.mem_of_mem_eraseP earlier, role⟩
    | inr last =>
      rw [List.mem_singleton.mp last] at role ⊢
      exact .inl (works.continues role)
  | first works _ placed =>
    rw [placed.pInteractions] at member
    cases mem_stored member with
    | inl same =>
      rw [same] at role ⊢
      exact .inl (works.continues role)
    | inr kept => exact .inr ⟨kept.1, role⟩

/-- Work starts no server interaction. -/
theorem Turn.serves (member : pIA ∈ this.pInteractions) (turn : Turn env known now pIA this after)
    (serves : Serves after.pInteractions served) :
    ∃ older ∈ this.pInteractions, Continues older served := by
  obtain ⟨prepared, begun, called, observed, ready, prepares, begins, calls, observes, finishes, ends⟩ := turn
  cases ends.serves serves with
  | inl continues => exact ⟨pIA, member, continues⟩
  | inr kept =>
    have started := calls.serves (observes.serves (finishes.serves kept))
    rw [begins.pInteractions] at started
    exact ⟨served, (prepares.serves started).1, .refl served⟩

/-- What server interactions there are behind a packet. -/
theorem Receives.serves {pckt : NetPacket} {msg : CoapMessage} (receives : Receives env now pckt msg this after)
    (serves : Serves after.pInteractions served) :
    (∃ older ∈ this.pInteractions, Continues older served) ∨
      served.ref = this.interactions ∧ served.ifID = pckt.ifID ∧ served.remoteEp = pckt.sender ∧
        served.pReqMsg = some msg ∧ ∀ other ∈ this.pInteractions, other.isDuplicate pckt msg = false := by
  obtain ⟨member, role⟩ := serves
  cases receives with
  | answered _ placed => exact .inl ⟨served, placed.pInteractions ▸ member, .refl served⟩
  | duplicate _ _ _ _ _ placed => exact .inl ⟨served, placed.pInteractions ▸ member, .refl served⟩
  | admitted admits new middle same started =>
    rw [started] at member
    cases List.mem_append.mp member with
    | inl earlier => exact .inl ⟨served, same.pInteractions ▸ earlier, .refl served⟩
    | inr last =>
      rw [List.mem_singleton.mp last]
      exact .inr ⟨same.interactions, rfl, rfl, rfl, new⟩
  | touched _ listed touches _ placed =>
    rw [placed.pInteractions] at member
    cases mem_stored member with
    | inl same =>
      obtain ⟨ref, sameRole, _, remoteEp, ifID, _, pReqMsg⟩ := touches.identity
      rw [same]
      exact .inl ⟨_, listed, ref, sameRole, ifID, remoteEp, pReqMsg⟩
    | inr kept => exact .inl ⟨served, kept.1, .refl served⟩

/-! ## Handlers -/

/-- The handlers that ran in between ran for interactions with a property. -/
def Handles (this after : CoapServer) (who : CoapInteraction → Prop) : Prop :=
  ∃ new, after.log = new ++ this.log ∧ ∀ pIA req, .handled pIA req ∈ new → who pIA

theorem Handles.refl {who : CoapInteraction → Prop} (same : after.log = this.log) : Handles this after who :=
  ⟨[], same, fun _ _ member => absurd member List.not_mem_nil⟩

theorem Handles.trans {middle : CoapServer} {who : CoapInteraction → Prop} (first : Handles this middle who)
    (further : Handles middle after who) : Handles this after who := by
  obtain ⟨earlier, log, before⟩ := first
  obtain ⟨later, grown, behind⟩ := further
  refine ⟨later ++ earlier, by rw [grown, log, List.append_assoc], ?_⟩
  intro pIA req member
  cases List.mem_append.mp member with
  | inl recent => exact behind pIA req recent
  | inr old => exact before pIA req old

theorem Handles.weaken {who weaker : CoapInteraction → Prop} (implies : ∀ pIA, who pIA → weaker pIA)
    (handles : Handles this after who) : Handles this after weaker := by
  obtain ⟨new, log, all⟩ := handles
  exact ⟨new, log, fun pIA req member => implies pIA (all pIA req member)⟩

/-- A list of effects among which there is no call of a handler. -/
theorem Handles.none {who : CoapInteraction → Prop} (effects : List Effect) (log : after.log = effects ++ this.log)
    (other : ∀ pIA req, .handled pIA req ∉ effects) : Handles this after who :=
  ⟨effects, log, fun pIA req member => absurd member (other pIA req)⟩

theorem Calls.handles {who : CoapInteraction → Prop} (calls : Calls env known this after) :
    Handles this after who := by
  induction calls with
  | refl => exact .refl rfl
  | @tail middle after _ act inductionHypothesis =>
    apply inductionHypothesis.trans
    cases act with
    | silent same => exact .refl same.log
    | nextMid =>
      exact .none [.nextMid (middle.mid + 1).toNat] rfl (by simp)
    | flag => exact .refl rfl
    | client => exact .refl rfl
    | notification => exact .refl rfl
    | removeObserver => exact .refl rfl
    | update => exact .refl rfl

theorem Works.none_handled {log effects : List Effect} {worked : CoapInteraction}
    (works : Works env now listed log pIA effects worked) : ∀ other req, .handled other req ∉ effects := by
  intro other req member
  cases works with
  | waits => cases member
  | sleeps => cases member
  | refreshes => cases member
  | _ => cases List.mem_singleton.mp member

theorem Ends.handles {who : CoapInteraction → Prop} (ends : Ends env now listed pIA this after) :
    Handles this after who := by
  cases ends with
  | deleted placed => exact .refl placed.log
  | last works placed => exact .none _ placed.log works.none_handled
  | first works _ placed => exact .none _ placed.log works.none_handled

/-- Only the handler for the first interaction runs. -/
theorem Turn.handles (turn : Turn env known now pIA this after) :
    Handles this after fun other => other = pIA ∧ pIA.role = .server := by
  obtain ⟨prepared, begun, called, observed, ready, prepares, begins, calls, observes, finishes, ends⟩ := turn
  have began : Handles prepared begun fun other => other = pIA ∧ pIA.role = .server := by
    cases begins with
    | nothing same => exact .refl same.log
    | @handled req role _ _ _ _ _ _ log =>
      refine ⟨[.handled pIA req], log, ?_⟩
      intro other too member
      cases List.mem_singleton.mp member
      exact ⟨rfl, role⟩
  exact (((prepares.handles.trans began).trans calls.handles).trans (.refl observes.log)).trans
    (finishes.handles.trans ends.handles)

theorem Receives.handles {pckt : NetPacket} {msg : CoapMessage} {who : CoapInteraction → Prop}
    (receives : Receives env now pckt msg this after) : Handles this after who := by
  have silent : ∀ effects : List Effect, (∀ effect ∈ effects, Replies pckt msg effect) →
      ∀ other req, .handled other req ∉ effects := by
    intro effects replies other req member
    cases replies _ member
  cases receives with
  | answered replies placed => exact .none _ placed.log (silent _ replies)
  | duplicate _ _ _ _ _ placed =>
    refine .none _ placed.log ?_
    intro other req member
    cases List.mem_singleton.mp member
  | admitted _ _ middle same started =>
    rw [started]
    exact .refl same.log
  | touched _ _ _ replies placed => exact .none _ placed.log (silent _ replies)

/-- Packets run no handler. -/
theorem onNewPacketHandler_handles (env : Env) (this : CoapServer) (now : UInt32) (pckt : NetPacket)
    (who : CoapInteraction → Prop) : Handles this (this.onNewPacketHandler env now pckt) who := by
  cases onNewPacketHandler_cases env this now pckt with
  | inl unparsed => exact .refl unparsed.2.log
  | inr received =>
    obtain ⟨msg, _, receives⟩ := received
    have arrived : Handles this (this.noted pckt msg) who := by
      exact .none [.received pckt msg] rfl (by simp)
    exact arrived.trans receives.handles

end

/-! ## Runs -/

/-- A server interaction that a step has started. -/
def StartedFor (this : CoapServer) (served : CoapInteraction) : Prop :=
  served.ref = this.interactions ∧ ∃ pckt msg, served.ifID = pckt.ifID ∧ served.remoteEp = pckt.sender ∧
    served.pReqMsg = some msg ∧ ∀ other ∈ this.pInteractions, other.isDuplicate pckt msg = false

/-- One step: the server interactions behind it and the handlers it ran. -/
theorem step_serves {env : Env} {resources : List CoapResource} {this after : CoapServer} {event : Event}
    (shaped : ∀ pIA ∈ this.pInteractions, Shaped resources pIA) (taken : step env this event = some after) :
    (∀ served, Serves after.pInteractions served →
      (∃ older ∈ this.pInteractions, Continues older served) ∨ StartedFor this served) ∧
      Handles this after (Serves this.pInteractions) := by
  cases event with
  | packet pckt now =>
    cases taken
    refine ⟨?_, onNewPacketHandler_handles env this now pckt _⟩
    intro served serves
    cases onNewPacketHandler_cases env this now pckt with
    | inl unparsed => exact .inl ⟨served, unparsed.2.pInteractions ▸ serves.1, .refl served⟩
    | inr received =>
      obtain ⟨msg, _, receives⟩ := received
      cases receives.serves serves with
      | inl older => exact .inl older
      | inr new => exact .inr ⟨new.1, pckt, msg, new.2⟩
  | doWork now =>
    cases list : this.pInteractions with
    | nil =>
      have stays : this = after := Option.some.inj ((doWork_nil list).symm.trans taken)
      rw [← stays, list]
      exact ⟨fun served serves => absurd serves.1 List.not_mem_nil, .refl rfl⟩
    | cons pIA rest =>
      have member : pIA ∈ this.pInteractions := list ▸ List.mem_cons_self
      have turn := doWork_turn list (shaped pIA member).staged taken
      rw [← list]
      constructor
      · exact fun served serves => .inl (turn.serves member serves)
      · apply turn.handles.weaken
        intro other same
        rw [same.1]
        exact ⟨member, same.2⟩
  | call request =>
    cases taken
    have calls : Calls env this.IsObserver this (this.call env request) :=
      call_calls (fun _ observer => observer) request
    exact ⟨fun served serves => .inl ⟨served, (calls.serves serves).1, .refl served⟩, calls.handles⟩

/-- At most one server interaction for each request. -/
def ServedOnce (this : CoapServer) : Prop :=
  ∀ pIA other, Serves this.pInteractions pIA → Serves this.pInteractions other → SameRequest pIA other →
    pIA.ref = other.ref

/-- The search for duplicates finds the interaction of the same request. -/
theorem StartedFor.ne {this : CoapServer} {served later other : CoapInteraction} (started : StartedFor this served)
    (member : other ∈ this.pInteractions) (continues : Continues other later) (role : later.role = .server) :
    ¬ SameRequest served later := by
  intro same
  obtain ⟨_, pckt, msg, ifID, remoteEp, request, new⟩ := started
  obtain ⟨sameID, sameEp, req, too, requestOf, requestToo, messageID⟩ := same
  have none := new other member
  rw [CoapInteraction.isDuplicate, ← continues.role, role, ← continues.ifID, sameID, ifID,
    ← continues.pReqMsg, requestToo, ← continues.remoteEp] at none
  have messages : too.messageID = msg.messageID := by
    rw [messageID, Option.some.inj (requestOf.symm.trans request)]
  rw [remoteEp] at sameEp
  simp [messages, sameEp] at none

theorem run_servedOnce {env : Env} {resources : List CoapResource} {this : CoapServer}
    (reaches : Reaches env resources this) : ServedOnce this := by
  induction reaches with
  | refl => exact fun pIA _ serves => absurd serves.1 List.not_mem_nil
  | next before event _ taken inductionHypothesis =>
    have serves := (step_serves (run_shaped before).interactions taken).1
    intro pIA other servesOne servesOther same
    cases serves pIA servesOne with
    | inl older =>
      obtain ⟨one, member, continues⟩ := older
      cases serves other servesOther with
      | inl olderToo =>
        obtain ⟨two, memberToo, continuesToo⟩ := olderToo
        rw [continues.ref, continuesToo.ref]
        apply inductionHypothesis one two ⟨member, continues.role ▸ servesOne.2⟩
          ⟨memberToo, continuesToo.role ▸ servesOther.2⟩
        exact ((same.continues continues).symm.continues continuesToo).symm
      | inr started => exact absurd same.symm (started.ne member continues servesOne.2)
    | inr started =>
      cases serves other servesOther with
      | inl olderToo =>
        obtain ⟨two, memberToo, continuesToo⟩ := olderToo
        exact absurd same (started.ne memberToo continuesToo servesOther.2)
      | inr startedToo => rw [started.1, startedToo.1]

/-! ## While a request is alive -/

theorem Ends.interactions {env : Env} {now : UInt32} {listed : List CoapResource} {pIA : CoapInteraction} {this after : CoapServer}
    (ends : Ends env now listed pIA this after) : after.interactions = this.interactions := by
  cases ends with
  | deleted placed => exact placed.interactions
  | last _ placed => exact placed.interactions
  | first _ _ placed => exact placed.interactions

theorem CallAct.interactions {env : Env} {known : CoapObserver → Prop} {this after : CoapServer}
    (act : CallAct env known this after) : this.interactions ≤ after.interactions := by
  cases act with
  | silent same => exact same.interactions.ge
  | nextMid => exact le_rfl
  | flag => exact le_rfl
  | client => exact Nat.le_succ _
  | notification => exact Nat.le_succ _
  | removeObserver => exact le_rfl
  | update => exact le_rfl

theorem Calls.interactions {env : Env} {known : CoapObserver → Prop} {this after : CoapServer}
    (calls : Calls env known this after) : this.interactions ≤ after.interactions := by
  induction calls with
  | refl => exact le_rfl
  | tail _ act inductionHypothesis => exact inductionHypothesis.trans act.interactions

/-- Numbers are given out in order. -/
theorem step_interactions {env : Env} {resources : List CoapResource} {this after : CoapServer} {event : Event}
    (shaped : ∀ pIA ∈ this.pInteractions, Shaped resources pIA) (taken : step env this event = some after) :
    this.interactions ≤ after.interactions := by
  cases event with
  | packet pckt now =>
    cases taken
    cases onNewPacketHandler_cases env this now pckt with
    | inl unparsed => exact unparsed.2.interactions.ge
    | inr received =>
      obtain ⟨msg, _, receives⟩ := received
      cases receives with
      | answered _ placed => exact placed.interactions.ge
      | duplicate _ _ _ _ _ placed => exact placed.interactions.ge
      | admitted _ _ middle same started =>
        rw [started]
        exact same.interactions.ge.trans (Nat.le_succ _)
      | touched _ _ _ _ placed => exact placed.interactions.ge
  | doWork now =>
    cases list : this.pInteractions with
    | nil =>
      have stays : this = after := Option.some.inj ((doWork_nil list).symm.trans taken)
      rw [stays]
    | cons pIA rest =>
      have member : pIA ∈ this.pInteractions := list ▸ List.mem_cons_self
      obtain ⟨prepared, begun, called, observed, ready, prepares, begins, calls, observes, finishes, ends⟩ :=
        doWork_turn list (shaped pIA member).staged taken
      have first := prepares.interactions
      have second := calls.interactions
      have third := finishes.interactions
      rw [begins.interactions] at second
      rw [observes.interactions] at third
      rw [ends.interactions]
      omega
  | call request =>
    cases taken
    exact (call_calls (fun _ observer => observer) request :
      Calls env this.IsObserver this (this.call env request)).interactions

/-- As long as an interaction is alive, no handler runs for the same request but its own. -/
theorem alive_handles {env : Env} {resources : List CoapResource} {this later : CoapServer}
    (reaches : Reaches env resources this) {served : CoapInteraction} (serves : Serves this.pInteractions served)
    (run : Transition.Run (step env) (fun _ _ => True) this later) {alive : CoapInteraction}
    (lives : Serves later.pInteractions alive) (ref : alive.ref = served.ref) :
    Continues served alive ∧ Handles this later fun pIA => SameRequest served pIA → pIA.ref = served.ref := by
  have below := (run_shaped reaches).numbered.listed served serves.1
  have all : ∀ {state}, Transition.Run (step env) (fun _ _ => True) this state →
      Reaches env resources state ∧ this.interactions ≤ state.interactions := by
    intro state run
    induction run with
    | refl => exact ⟨reaches, le_rfl⟩
    | next _ event permitted taken inductionHypothesis =>
      obtain ⟨reached, grown⟩ := inductionHypothesis
      exact ⟨.next reached event permitted taken,
        grown.trans (step_interactions (run_shaped reached).interactions taken)⟩
  -- the invariant of the induction: the interaction goes on, and no other one has the request
  induction run generalizing alive with
  | refl =>
    rw [eq_of_ref (run_shaped reaches).numbered.nodup lives.1 serves.1 ref]
    exact ⟨.refl served, .refl rfl⟩
  | @next middle after before event _ taken inductionHypothesis =>
    obtain ⟨reached, grown⟩ := all before
    obtain ⟨origins, handles⟩ := step_serves (run_shaped reached).interactions taken
    cases origins alive lives with
    -- an interaction that was just started has a number that is not in use yet
    | inr started =>
      have fresh := started.1
      omega
    | inl older =>
      obtain ⟨older, member, continues⟩ := older
      have servesOlder : Serves middle.pInteractions older := ⟨member, continues.role ▸ lives.2⟩
      obtain ⟨earlier, handled⟩ := inductionHypothesis servesOlder (continues.ref.symm.trans ref)
      refine ⟨?_, handled.trans (handles.weaken ?_)⟩
      · exact ⟨ref, continues.role.trans earlier.role, continues.ifID.trans earlier.ifID,
          continues.remoteEp.trans earlier.remoteEp, continues.pReqMsg.trans earlier.pReqMsg⟩
      · intro pIA works same
        rw [← earlier.ref]
        have sameOlder : SameRequest older pIA := by
          obtain ⟨ifID, remoteEp, req, too, request, messages⟩ := same
          exact ⟨ifID.trans earlier.ifID.symm, earlier.remoteEp ▸ remoteEp, req, too,
            earlier.pReqMsg.trans request, messages⟩
        exact (run_servedOnce reached older pIA servesOlder works sameOlder).symm

/-- A duplicate of a request that is alive changes no interaction and runs no handler. -/
theorem duplicate_ignored {env : Env} {this : CoapServer} {now : UInt32} {pckt : NetPacket} {msg : CoapMessage}
    {served : CoapInteraction} (serves : Serves this.pInteractions served)
    (parsed : this.parsePacket env now pckt = some msg) (request : msg.isRequest = true)
    (duplicate : served.isDuplicate pckt msg = true) :
    (this.onNewPacketHandler env now pckt).pInteractions = this.pInteractions := by
  cases onNewPacketHandler_cases env this now pckt with
  | inl unparsed => exact unparsed.2.pInteractions
  | inr received =>
    obtain ⟨other, parsedToo, receives⟩ := received
    have same : other = msg := Option.some.inj (parsedToo.symm.trans parsed)
    subst same
    cases receives with
    | answered _ placed => exact placed.pInteractions
    | duplicate _ _ _ _ _ placed => exact placed.pInteractions
    | admitted _ new => exact absurd duplicate (by rw [new served serves.1]; decide)
    | touched notRequest => exact absurd request (by rw [notRequest]; decide)

/-- In every state that is reached there is one server interaction at most for each request; a
duplicate of its request changes nothing and runs no handler; and until it ends no handler runs for
that request but on its own behalf. -/
theorem requests_served_once (env : Env) (resources : List CoapResource) (this : CoapServer)
    (reaches : Reaches env resources this) :
    (∀ pIA other, Serves this.pInteractions pIA → Serves this.pInteractions other → SameRequest pIA other →
      pIA = other) ∧
    (∀ now pckt msg served, Serves this.pInteractions served → this.parsePacket env now pckt = some msg →
      msg.isRequest = true → served.isDuplicate pckt msg = true →
      (this.onNewPacketHandler env now pckt).pInteractions = this.pInteractions ∧
        Handles this (this.onNewPacketHandler env now pckt) fun _ => False) ∧
    ∀ later served alive, Serves this.pInteractions served →
      Transition.Run (step env) (fun _ _ => True) this later → Serves later.pInteractions alive →
      alive.ref = served.ref → Handles this later fun pIA => SameRequest served pIA → pIA.ref = served.ref := by
  refine ⟨?_, ?_, ?_⟩
  · intro pIA other serves servesToo same
    exact eq_of_ref (run_shaped reaches).numbered.nodup serves.1 servesToo.1
      (run_servedOnce reaches pIA other serves servesToo same)
  · intro now pckt msg served serves parsed request duplicate
    exact ⟨duplicate_ignored serves parsed request duplicate, onNewPacketHandler_handles env this now pckt _⟩
  · intro later served alive serves run lives ref
    exact (alive_handles reaches serves run lives ref).2

/-- A request that comes twice. -/
theorem sensor_requests_served_once : ∃ (this : CoapServer) (msg : CoapMessage) (served : CoapInteraction),
    Serves this.pInteractions served ∧ this.parsePacket idealEnv 1 (datagram 0 getSensor) = some msg ∧
      Handles this (this.onNewPacketHandler idealEnv 1 (datagram 0 getSensor)) fun _ => False := by
  have reached : ([Event.packet (datagram 0 getSensor) 0].foldlM (step idealEnv) (new [sensor])).map
      (fun this => (this.pInteractions.map CoapInteraction.role,
        (this.parsePacket idealEnv 1 (datagram 0 getSensor)).any fun msg =>
          msg.isRequest && this.pInteractions.all fun pIA => pIA.isDuplicate (datagram 0 getSensor) msg)) =
      some ([.server], true) := by
    decide +kernel
  obtain ⟨this, taken, facts⟩ := Option.map_eq_some_iff.mp reached
  simp only [Prod.mk.injEq] at facts
  obtain ⟨roles, repeated⟩ := facts
  cases parsed : this.parsePacket idealEnv 1 (datagram 0 getSensor) with
  | none =>
    rw [parsed] at repeated
    cases repeated
  | some msg =>
    rw [parsed] at repeated
    obtain ⟨request, duplicates⟩ := Bool.and_eq_true_iff.mp repeated
    obtain ⟨served, list, role⟩ := List.map_eq_singleton_iff.mp roles
    have member : served ∈ this.pInteractions := list ▸ List.mem_singleton.mpr rfl
    have duplicate := List.all_eq_true.mp duplicates served member
    exact ⟨this, msg, served, ⟨member, role⟩, parsed,
      ((requests_served_once idealEnv [sensor] this (.of_events _ .refl taken)).2.1 1 _ msg served ⟨member, role⟩
        parsed request duplicate).2⟩

end CoapServer

end SmingCoap.Server
