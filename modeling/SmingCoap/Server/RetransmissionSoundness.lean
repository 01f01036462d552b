import SmingCoap.Server.Invariants

/-! # How often a message is sent

The counter of an interaction is the number of times that its message went out
once more since the interaction entered its sent or waiting state.  A step that
takes an interaction into such a state sends its message once, and a step that
leaves it there sends the message exactly when it advances the counter.
-/

namespace SmingCoap.Server

namespace CoapServer

/-- The states in which the own message was sent and its end is waited for. -/
def Waits (pIA : CoapInteraction) : Prop :=
  pIA.state = .responseSent ∨ pIA.state = .notificationSent ∨ pIA.state = .waitingResponse

/-- The interaction is in the list and waits. -/
def WaitsIn (this : CoapServer) (ref : Nat) : Prop :=
  ∃ pIA ∈ this.pInteractions, pIA.ref = ref ∧ Waits pIA

/-- The step from `before` is the one in which the interaction last entered its sent or waiting state. -/
inductive Since (env : Env) (ref : Nat) (before : CoapServer) : CoapServer → Prop
  | enters {event : Event} {after : CoapServer} (outside : ¬ WaitsIn before ref)
      (taken : step env before event = some after) (inside : WaitsIn after ref) : Since env ref before after
  | stays {this after : CoapServer} {event : Event} (since : Since env ref before this)
      (taken : step env this event = some after) (inside : WaitsIn after ref) : Since env ref before after

theorem Since.inside {env : Env} {ref : Nat} {before this : CoapServer} (since : Since env ref before this) :
    WaitsIn this ref := by
  cases since with
  | enters _ _ inside => exact inside
  | stays _ _ inside => exact inside

/-- A message that was sent for the interaction. -/
def Effect.isSentFor (ref : Nat) : Effect → Bool
  | .sent (some pIA) _ _ _ _ => pIA.ref = ref
  | _ => false

/-- The number of messages that were sent for an interaction. -/
def sentFor (ref : Nat) (log : List Effect) : Nat := log.countP (Effect.isSentFor ref)

/-- The last of them. -/
def LastSent (log : List Effect) (ref : Nat) (msg : CoapMessage) : Prop :=
  ∃ pIA origin ifID receiver,
    log.find? (Effect.isSentFor ref) = some (.sent (some pIA) origin ifID receiver msg)

/-- What is known of a message after its `n`-th transmission. -/
structure Transmissions (n : Nat) (log : List Effect) (pIA : CoapInteraction) (msg : CoapMessage) : Prop where
  own : pIA.ownMsg = some msg
  last : LastSent log pIA.ref msg
  armed : msg.type = .con → pIA.ackTimeout.toNat = (msg.timestamp + 2 ^ n) % 2 ^ 32
  single : msg.type ≠ .con → n = 1

/-- A message of an interaction that already waits is confirmable. -/
def RepeatsCon (_ : List Effect) (effect : Effect) : Prop :=
  ∀ pIA origin ifID receiver msg, effect = .sent (some pIA) origin ifID receiver msg → Waits pIA → msg.type = .con

/-! ## Counter and deadline -/

/-- The wait for the acknowledgement doubles with each transmission. -/
theorem waitTime_toNat (retryNum : Nat) :
    (Nat.repeat (fun waitTime => waitTime * ackTimeout) retryNum ackTimeout).toNat = 2 ^ (retryNum + 1) % 2 ^ 32 := by
  induction retryNum with
  | zero => rfl
  | succ retryNum inductionHypothesis =>
    have two : ackTimeout.toNat = 2 := rfl
    rw [Nat.repeat, UInt32.toNat_mul, inductionHypothesis, two, Nat.mod_mul_mod, ← Nat.pow_succ]

theorem enableAckTimeout_toNat (now : UInt32) (pIA : CoapInteraction) (retryNum : Nat) :
    (enableAckTimeout now pIA retryNum).ackTimeout.toNat = (now.toNat + 2 ^ (retryNum + 1)) % 2 ^ 32 := by
  rw [enableAckTimeout, UInt32.toNat_add, waitTime_toNat, Nat.add_mod_mod]

/-- What counter and deadline of an interaction say. -/
structure Counted (log : List Effect) (pIA : CoapInteraction) : Prop where
  bounded : pIA.retransCounter ≤ maxRetransmit
  unsent : ¬ Waits pIA → pIA.state ≠ .handleResponse → pIA.retransCounter = 0
  sent : Waits pIA → ∃ msg, Transmissions (pIA.retransCounter + 1) log pIA msg

@[simp] theorem transmitted_timestamp (now : UInt32) (msg : CoapMessage) :
    (transmitted now msg).timestamp = now.toNat := rfl

section
variable {log : List Effect} {pIA worked : CoapInteraction}

theorem Unanswered.notWaits (unanswered : Unanswered pIA) : ¬ Waits pIA ∧ pIA.state ≠ .handleResponse := by
  unfold Waits
  cases unanswered with
  | inl state => simp [state]
  | inr state => simp [state]

theorem LastSent.sending (now : UInt32) (pIA : CoapInteraction) (msg : CoapMessage) (log : List Effect) :
    LastSent (sending now pIA msg :: log) pIA.ref (CoapServer.transmitted now msg) :=
  ⟨pIA, pIA.origin, pIA.ifID, pIA.remoteEp, by simp [CoapServer.sending, Effect.isSentFor]⟩

theorem LastSent.foreign {ref : Nat} {msg : CoapMessage} {effect : Effect} (last : LastSent log ref msg)
    (other : effect.actor ≠ some ref) : LastSent (effect :: log) ref msg := by
  obtain ⟨pIA, origin, ifID, receiver, found⟩ := last
  refine ⟨pIA, origin, ifID, receiver, ?_⟩
  rw [List.find?_cons_of_neg, found]
  cases effect with
  | sent ia =>
    cases ia with
    | none => simp [Effect.isSentFor]
    | some ia => simpa [Effect.isSentFor, Effect.actor] using other
  | _ => simp [Effect.isSentFor]

theorem marked_counter (pIA : CoapInteraction) (state : ReliabilityState) :
    (marked pIA state).retransCounter = pIA.retransCounter ∧ (marked pIA state).ackTimeout = pIA.ackTimeout ∧
      (marked pIA state).ownMsg = pIA.ownMsg := by
  unfold marked
  cases role : pIA.role with
  | _ => simp [CoapInteraction.ownMsg, role]

/-- Only these fields matter. -/
theorem Counted.congr (counted : Counted log pIA) (ref : worked.ref = pIA.ref)
    (retransCounter : worked.retransCounter = pIA.retransCounter) (state : worked.state = pIA.state)
    (ownMsg : worked.ownMsg = pIA.ownMsg) (ackTimeout : worked.ackTimeout = pIA.ackTimeout) : Counted log worked where
  bounded := retransCounter ▸ counted.bounded
  unsent := by
    rw [Waits, state, retransCounter]
    exact counted.unsent
  sent := by
    rw [Waits, state, retransCounter]
    intro waits
    obtain ⟨msg, own, last, armed, single⟩ := counted.sent waits
    exact ⟨msg, ownMsg.trans own, ref ▸ last, ackTimeout ▸ armed, single⟩

theorem Counted.foreign {effect : Effect} (counted : Counted log pIA) (other : effect.actor ≠ some pIA.ref) :
    Counted (effect :: log) pIA where
  bounded := counted.bounded
  unsent := counted.unsent
  sent := by
    intro waits
    obtain ⟨msg, own, last, armed, single⟩ := counted.sent waits
    exact ⟨msg, own, last.foreign other, armed, single⟩

/-- Nothing was sent yet, or all is over. -/
theorem Counted.idle (waits : ¬ Waits pIA) (bounded : pIA.retransCounter ≤ maxRetransmit)
    (unsent : pIA.state ≠ .handleResponse → pIA.retransCounter = 0) : Counted log pIA :=
  ⟨bounded, fun _ => unsent, fun waiting => absurd waiting waits⟩

/-- A response that is sent for the first time. -/
theorem Counted.responded (now : UInt32) (pIA : CoapInteraction) {resp : CoapMessage} {next : InteractionState}
    (stage : next = .responseSent ∨ next = .notificationSent) (role : pIA.role ≠ .client)
    (first : pIA.retransCounter = 0) :
    Counted (CoapServer.sending now pIA resp :: log) (CoapServer.responded now pIA resp next) := by
  obtain ⟨ref, sameRole, state, _, _, sent, _⟩ := responded_fields now pIA resp next
  have retransCounter : (CoapServer.responded now pIA resp next).retransCounter = 0 := by
    unfold CoapServer.responded
    cases resp.type with
    | _ => exact first
  have waits : Waits (CoapServer.responded now pIA resp next) := by
    rw [Waits, state]
    cases stage with
    | inl response => exact .inl response
    | inr notification => exact .inr (.inl notification)
  refine ⟨by simp [retransCounter], fun unsent => absurd waits unsent, fun _ => ⟨transmitted now resp, ?_, ?_, ?_, ?_⟩⟩
  · rw [CoapInteraction.ownMsg, sameRole, sent]
    cases isRole : pIA.role with
    | client => exact absurd isRole role
    | _ => rfl
  · rw [ref]
    exact .sending now pIA resp log
  · intro confirmable
    rw [transmitted_type] at confirmable
    have armed := enableAckTimeout_toNat now pIA 0
    rw [retransCounter]
    simpa only [CoapServer.responded, confirmable, first, enableAckTimeout, transmitted_timestamp] using armed
  · simp [retransCounter]

/-- A message that is sent once more. -/
theorem Counted.again (now : UInt32) (pIA : CoapInteraction) {msg : CoapMessage} (waits : Waits pIA) (ref : worked.ref = pIA.ref)
    (state : worked.state = pIA.state) (ownMsg : worked.ownMsg = some (transmitted now msg))
    (confirmable : msg.type = .con) (attempts : pIA.retransCounter < maxRetransmit)
    (retransCounter : worked.retransCounter = pIA.retransCounter + 1)
    (ackTimeout : worked.ackTimeout = (enableAckTimeout now pIA (pIA.retransCounter + 1)).ackTimeout) :
    Counted (CoapServer.sending now pIA msg :: log) worked where
  bounded := retransCounter ▸ attempts
  unsent := by
    intro unsent
    rw [Waits, state] at unsent
    exact absurd waits unsent
  sent := by
    intro _
    refine ⟨transmitted now msg, ownMsg, ref ▸ .sending now pIA msg log, fun _ => ?_, ?_⟩
    · rw [ackTimeout, enableAckTimeout_toNat, retransCounter]
      rfl
    · simp [confirmable]

/-- A request that is sent for the first time. -/
theorem Counted.requested (now : UInt32) {req : CoapMessage} (role : pIA.role = .client)
    (first : pIA.retransCounter = 0) :
    Counted (CoapServer.sending now pIA req :: log) (CoapServer.requested now pIA req) := by
  obtain ⟨ref, sameRole, state, sent, _⟩ := requested_fields now pIA req
  have retransCounter : (CoapServer.requested now pIA req).retransCounter = 0 := by
    unfold CoapServer.requested
    simp only
    split <;> exact first
  have waits : Waits (CoapServer.requested now pIA req) := .inr (.inr state)
  refine ⟨by simp [retransCounter], fun unsent => absurd waits unsent, fun _ => ⟨transmitted now req, ?_, ?_, ?_, ?_⟩⟩
  · simp only [CoapInteraction.ownMsg, sameRole, role]
    exact sent
  · rw [ref]
    exact .sending now pIA req log
  · intro confirmable
    rw [transmitted_type] at confirmable
    have armed := enableAckTimeout_toNat now pIA 0
    rw [retransCounter]
    simpa only [CoapServer.requested, confirmable, first, enableAckTimeout, if_true, transmitted_timestamp] using armed
  · simp [retransCounter]

theorem Works.counted {env : Env} {now : UInt32} {listed : List CoapResource} {effects : List Effect}
    (counted : Counted log pIA) (works : Works env now listed log pIA effects worked) :
    Counted (effects ++ log) worked := by
  -- what was not sent yet has a count of 0, and what is sent again had an attempt left
  cases works with
  | waits => exact counted
  | @refuses req resp _ _ role state =>
    exact Counted.responded now { pIA with pRespMsg := some resp } (.inl rfl) (by simp [role])
      (counted.unsent state.notWaits.1 state.notWaits.2)
  | @answers req offered resp _ _ role state =>
    exact Counted.responded now { pIA with pRespMsg := some resp } (.inl rfl) (by simp [role])
      (counted.unsent state.notWaits.1 state.notWaits.2)
  | postpones role state =>
    exact Counted.idle (by simp [Waits]) counted.bounded fun _ => counted.unsent state.notWaits.1 state.notWaits.2
  | sleeps role state =>
    exact Counted.idle state.notWaits.1 counted.bounded fun _ => counted.unsent state.notWaits.1 state.notWaits.2
  | repeats role response confirmable pending attempts =>
    cases role with
    | inl server =>
      exact Counted.again now pIA (.inl server.2) rfl rfl (by simp [CoapInteraction.ownMsg, repeated, enableAckTimeout, server.1])
        confirmable attempts rfl rfl
    | inr notification =>
      exact Counted.again now pIA (.inr (.inl notification.2)) rfl rfl
        (by simp [CoapInteraction.ownMsg, repeated, enableAckTimeout, notification.1]) confirmable attempts rfl rfl
  | notifies role state =>
    exact Counted.responded now pIA (.inr rfl) (by simp [role])
      (counted.unsent (by simp [Waits, state]) (by simp [state]))
  | @repeatsRefreshed resp refreshed role state response _ pending _ attempts =>
    exact Counted.again now { pIA with
        updatePendingNotification := false, pRespMsg := some { refreshed with type := .con } } (.inr (.inl state)) rfl rfl
      (by simp [CoapInteraction.ownMsg, repeated, enableAckTimeout, role]) rfl attempts rfl rfl
  | refreshes => exact Counted.idle (by simp [Waits]) (Nat.zero_le _) fun _ => rfl
  | requests role state =>
    exact Counted.requested now role (counted.unsent (by simp [Waits, state]) (by simp [state]))
  | requestsAgain role state request confirmable pending attempts =>
    exact Counted.again now pIA (.inr (.inr state)) rfl rfl
      (by simp [CoapInteraction.ownMsg, requestedAgain, enableAckTimeout, role]) confirmable attempts rfl rfl

/-- A message of an interaction that waits is its own, and confirmable. -/
theorem Works.repeatsCon {env : Env} {now : UInt32} {listed : List CoapResource} {effects : List Effect}
    (works : Works env now listed log pIA effects worked) : ∀ effect ∈ effects, RepeatsCon log effect := by
  intro effect member other origin ifID receiver msg same waits
  subst same
  cases works with
  | waits => cases member
  | sleeps => cases member
  | refreshes => cases member
  | refuses role state =>
    cases List.mem_singleton.mp member
    exact absurd waits state.notWaits.1
  | answers role state =>
    cases List.mem_singleton.mp member
    exact absurd waits state.notWaits.1
  | postpones role state =>
    cases List.mem_singleton.mp member
    exact absurd waits state.notWaits.1
  | notifies role state =>
    cases List.mem_singleton.mp member
    simp [Waits, state] at waits
  | requests role state =>
    cases List.mem_singleton.mp member
    simp [Waits, state] at waits
  -- only these three send while the interaction waits
  | repeats _ _ confirmable =>
    cases List.mem_singleton.mp member
    rwa [transmitted_type]
  | repeatsRefreshed =>
    cases List.mem_singleton.mp member
    rw [transmitted_type]
  | requestsAgain _ _ _ confirmable =>
    cases List.mem_singleton.mp member
    rwa [transmitted_type]

/-- An effect that is not sent for any interaction. -/
theorem RepeatsCon.none {effect : Effect} (unsent : ∀ ref, effect.actor ≠ some ref) : RepeatsCon log effect := by
  intro other origin ifID receiver msg same
  exact absurd (congrArg Effect.actor same) (unsent other.ref)

theorem counted_stable (env : Env) (resources : List CoapResource) :
    Stable env resources (fun _ _ => True) Counted RepeatsCon (fun _ _ => True) where
  foreign := fun counted other => counted.foreign other
  observer := fun _ _ => trivial
  nextMid := fun _ _ => .none (by simp [Effect.actor])
  received := fun _ => .none (by simp [Effect.actor])
  replies := by
    intro log pckt msg effect _ replies
    exact .none (by simp [replies.actor])
  flagged := fun counted _ => counted.congr rfl rfl rfl rfl rfl
  client := fun _ _ _ _ _ => Counted.idle (by simp [Waits, CoapInteraction.requesting]) (Nat.zero_le _) fun _ => rfl
  notification := fun _ _ _ _ _ _ =>
    Counted.idle (by simp [Waits, CoapInteraction.notifying]) (Nat.zero_le _) fun _ => rfl
  serving := fun _ _ _ _ => Counted.idle (by simp [Waits, CoapInteraction.serving]) (Nat.zero_le _) fun _ => rfl
  duplicate := by
    -- the acknowledgement of a duplicate is sent for an interaction that does not wait
    intro log pIA req now counted _ state _ _
    have quiet : Unanswered pIA := .inr state
    constructor
    · intro other origin ifID receiver msg same waits
      cases same
      exact absurd waits quiet.notWaits.1
    · exact Counted.idle quiet.notWaits.1 counted.bounded (counted.unsent quiet.notWaits.1)
  touched := by
    intro this pckt now msg pIA worked _ _ _ _ counted touches
    cases touches with
    | reset =>
      obtain ⟨ref, _, state, _⟩ := marked_fields pIA .rstSet
      exact counted.congr ref (marked_counter pIA .rstSet).1 state (marked_counter pIA .rstSet).2.2
        (marked_counter pIA .rstSet).2.1
    | acknowledged =>
      obtain ⟨ref, _, state, _⟩ := marked_fields pIA .ackSet
      exact counted.congr ref (marked_counter pIA .ackSet).1 state (marked_counter pIA .ackSet).2.2
        (marked_counter pIA .ackSet).2.1
    | piggybacked =>
      have bounded : (attachResponse (marked pIA .ackSet) msg).retransCounter ≤ maxRetransmit :=
        (marked_counter pIA .ackSet).1.trans_le counted.bounded
      exact Counted.idle (by simp [Waits, attachResponse]) bounded fun other => absurd rfl other
    | separate => exact Counted.idle (by simp [Waits, attachResponse]) counted.bounded fun other => absurd rfl other
    | early awaits => exact counted.congr rfl rfl rfl (by simp [CoapInteraction.ownMsg, awaits.role]) rfl
  handled := by
    intro log pIA req counted _ unanswered _
    refine ⟨?_, Counted.idle unanswered.notWaits.1 counted.bounded (counted.unsent unanswered.notWaits.1)⟩
    intro _ _ _ _ _ same
    cases same
  works := fun _ _ counted works => ⟨works.repeatsCon, works.counted counted⟩
  registers := fun _ _ => trivial

end

/-! ## One step -/

/-- Nothing is sent for the interaction, and if it waits it did so before. -/
structure Quiet (ref : Nat) (this after : CoapServer) : Prop where
  sent : sentFor ref after.log = sentFor ref this.log
  waits : ∀ later ∈ after.pInteractions, later.ref = ref → Waits later →
    ∃ pIA ∈ this.pInteractions, pIA.ref = ref ∧ Waits pIA ∧ later.retransCounter = pIA.retransCounter

/-- The messages that are sent move the counter, or the interaction enters its sent or waiting state. -/
inductive Advances (ref : Nat) (this after : CoapServer) (later : CoapInteraction) : Prop
  | stays {pIA : CoapInteraction} (member : pIA ∈ this.pInteractions) (same : pIA.ref = ref) (waits : Waits pIA)
      (counts : sentFor ref after.log + pIA.retransCounter = sentFor ref this.log + later.retransCounter)
  | enters {pIA : CoapInteraction} (member : pIA ∈ this.pInteractions) (same : pIA.ref = ref) (unsent : ¬ Waits pIA)
      (counts : sentFor ref after.log = sentFor ref this.log + 1) (first : later.retransCounter = 0)

section
variable {env : Env} {known : CoapObserver → Prop} {now : UInt32} {resources : List CoapResource} {ref : Nat}
  {pIA later : CoapInteraction} {this middle after : CoapServer}

theorem Quiet.refl (ref : Nat) (this : CoapServer) : Quiet ref this this :=
  ⟨rfl, fun later member same waits => ⟨later, member, same, waits, rfl⟩⟩

theorem Quiet.trans (first : Quiet ref this middle) (further : Quiet ref middle after) : Quiet ref this after where
  sent := further.sent.trans first.sent
  waits := by
    intro later member same waits
    obtain ⟨between, memberToo, sameToo, waitsToo, counter⟩ := further.waits later member same waits
    obtain ⟨pIA, earlier, sameAgain, waited, counterToo⟩ := first.waits between memberToo sameToo waitsToo
    exact ⟨pIA, earlier, sameAgain, waited, counter.trans counterToo⟩

/-- Interactions only go. -/
theorem Quiet.sublist (fewer : after.pInteractions.Sublist this.pInteractions)
    (sent : sentFor ref after.log = sentFor ref this.log) : Quiet ref this after :=
  ⟨sent, fun later member same waits => ⟨later, fewer.subset member, same, waits, rfl⟩⟩

theorem Silent.quiet (same : Silent this after) : Quiet ref this after :=
  .sublist (by rw [same.pInteractions]) (by rw [same.log])

/-- One more interaction, for which nothing was sent. -/
theorem startInteraction_quiet (new : ¬ Waits pIA) : Quiet ref this (this.startInteraction pIA) where
  sent := rfl
  waits := by
    intro later member same waits
    cases List.mem_append.mp member with
    | inl earlier => exact ⟨later, earlier, same, waits, rfl⟩
    | inr last =>
      rw [List.mem_singleton.mp last] at waits
      exact absurd waits new

theorem CallAct.quiet (act : CallAct env known this after) : Quiet ref this after := by
  cases act with
  | silent same => exact same.quiet
  | nextMid => exact .sublist (.refl _) (by simp [sentFor, getNextMid, Effect.isSentFor])
  | @flag pIA member =>
    refine ⟨rfl, fun later among same waits => ?_⟩
    cases mem_stored among with
    | inl stored =>
      subst stored
      exact ⟨pIA, member, same, waits, rfl⟩
    | inr kept => exact ⟨later, kept.1, same, waits, rfl⟩
  | client => exact startInteraction_quiet (by simp [Waits, CoapInteraction.requesting])
  | notification => exact startInteraction_quiet (by simp [Waits, CoapInteraction.notifying])
  | removeObserver => exact .sublist (.refl _) rfl
  | update => exact .sublist (.refl _) rfl

theorem Calls.quiet (calls : Calls env known this after) : Quiet ref this after := by
  induction calls with
  | refl => exact .refl ref this
  | tail _ act inductionHypothesis => exact inductionHypothesis.trans act.quiet

theorem Begins.quiet (begins : Begins pIA this after) : Quiet ref this after := by
  cases begins with
  | nothing same => exact same.quiet
  | handled _ _ _ list _ _ _ log =>
    exact .sublist (by rw [list]) (by simp [sentFor, log, Effect.isSentFor])

theorem Observes.quiet (observes : Observes pIA this after) : Quiet ref this after := by
  apply Quiet.sublist
  · cases observes with
    | nothing same => rw [same.pInteractions]
    | registered _ _ middle same changed =>
      rw [changed]
      exact same.pInteractions ▸ List.Sublist.refl _
    | removed token _ changed => rw [changed, removeInteractionsObserver_pInteractions]
    | aborted token _ _ _ changed =>
      rw [changed, deleteInteraction, removeInteractionsObserver_pInteractions]
      exact List.eraseP_sublist
  · rw [observes.log]

theorem sentFor_sending (now : UInt32) (pIA : CoapInteraction) (msg : CoapMessage) :
    sentFor pIA.ref [sending now pIA msg] = 1 := by
  simp [sentFor, sending, Effect.isSentFor]

theorem responded_counter (now : UInt32) (pIA : CoapInteraction) (resp : CoapMessage) (next : InteractionState) :
    (responded now pIA resp next).retransCounter = pIA.retransCounter := by
  unfold responded
  cases resp.type with
  | _ => rfl

/-- What work on an interaction does that waits behind it. -/
theorem Works.advances {earlier log effects : List Effect} {worked : CoapInteraction} (counted : Counted earlier pIA)
    (works : Works env now resources log pIA effects worked) (waits : Waits worked) :
    Waits pIA ∧ sentFor pIA.ref effects + pIA.retransCounter = worked.retransCounter ∨
      ¬ Waits pIA ∧ sentFor pIA.ref effects = 1 ∧ worked.retransCounter = 0 := by
  have repeatedOnce : ∀ msg, sentFor pIA.ref [sending now pIA msg] + pIA.retransCounter = pIA.retransCounter + 1 := by
    intro msg
    rw [sentFor_sending, Nat.add_comm]
  -- a first transmission starts the count at 0, and every further one adds 1
  cases works with
  | waits => exact .inl ⟨waits, by simp [sentFor]⟩
  | refuses role state =>
    have unsent := state.notWaits
    exact .inr ⟨unsent.1, sentFor_sending .., (responded_counter ..).trans (counted.unsent unsent.1 unsent.2)⟩
  | answers role state =>
    have unsent := state.notWaits
    exact .inr ⟨unsent.1, sentFor_sending .., (responded_counter ..).trans (counted.unsent unsent.1 unsent.2)⟩
  | postpones => simp [Waits] at waits
  | sleeps role state => exact absurd waits state.notWaits.1
  | repeats role =>
    refine .inl ⟨?_, repeatedOnce _⟩
    cases role with
    | inl server => exact .inl server.2
    | inr notification => exact .inr (.inl notification.2)
  | notifies role state =>
    have unsent : ¬ Waits pIA := by simp [Waits, state]
    exact .inr ⟨unsent, sentFor_sending .., (responded_counter ..).trans (counted.unsent unsent (by simp [state]))⟩
  | @repeatsRefreshed _ refreshed role state =>
    refine .inl ⟨.inr (.inl state), ?_⟩
    simp [sentFor, sending, Effect.isSentFor, repeated, enableAckTimeout, Nat.add_comm]
  | refreshes => simp [Waits] at waits
  | requests role state =>
    have unsent : ¬ Waits pIA := by simp [Waits, state]
    refine .inr ⟨unsent, sentFor_sending .., ?_⟩
    rw [← counted.unsent unsent (by simp [state]), requested]
    simp only
    split <;> rfl
  | requestsAgain role state => exact .inl ⟨.inr (.inr state), repeatedOnce _⟩

/-- The counter of another interaction is not moved. -/
theorem Quiet.advances (quiet : Quiet ref this after) (member : later ∈ after.pInteractions) (same : later.ref = ref)
    (waits : Waits later) : Advances ref this after later := by
  obtain ⟨pIA, earlier, sameToo, waited, counter⟩ := quiet.waits later member same waits
  exact .stays earlier sameToo waited (by rw [quiet.sent, counter])

theorem Works.effects_for {log effects : List Effect} {worked : CoapInteraction}
    (works : Works env now resources log pIA effects worked) (other : ref ≠ pIA.ref) : sentFor ref effects = 0 := by
  rw [sentFor, List.countP_eq_zero]
  intro effect member
  obtain ⟨sender, msg, rfl, same, _⟩ := works.sends effect member
  simpa [sending, Effect.isSentFor, same] using other.symm

/-- The end of a turn that does not delete the interaction. -/
theorem Ends.places (ends : Ends env now resources pIA this after) (nodup : (after.pInteractions.map CoapInteraction.ref).Nodup) :
    (∀ ref, Quiet ref this after) ∨ ∃ effects worked, Works env now resources this.log pIA effects worked ∧
      after.log = effects ++ this.log ∧
        ∀ other ∈ after.pInteractions, other = worked ∨ other ∈ this.pInteractions ∧ other.ref ≠ pIA.ref := by
  cases ends with
  | deleted placed =>
    refine .inl fun ref => .sublist ?_ (by rw [placed.log]; rfl)
    rw [placed.pInteractions]
    exact List.eraseP_sublist
  | @last effects worked works placed =>
    refine .inr ⟨effects, worked, works, placed.log, fun other member => ?_⟩
    have own : worked ∈ after.pInteractions := by
      rw [placed.pInteractions]
      exact List.mem_append_right _ List.mem_cons_self
    by_cases same : other.ref = worked.ref
    · exact .inl (eq_of_ref nodup member own same)
    · rw [placed.pInteractions] at member
      cases List.mem_append.mp member with
      | inl kept => exact .inr ⟨List.mem_of_mem_eraseP kept, works.ref ▸ same⟩
      | inr last => exact .inl (List.mem_singleton.mp last)
  | @first effect worked works again placed =>
    refine .inr ⟨[effect], worked, works, placed.log, fun other member => ?_⟩
    rw [placed.pInteractions] at member
    cases mem_stored member with
    | inl stored => exact .inl stored
    | inr kept => exact .inr ⟨kept.1, works.ref ▸ kept.2⟩

theorem Turn.advances {log : List Effect} (turn : Turn env known now pIA this after)
    (first : pIA ∈ this.pInteractions) (counted : Counted log pIA)
    (nodup : (after.pInteractions.map CoapInteraction.ref).Nodup) (member : later ∈ after.pInteractions)
    (waits : Waits later) : Advances later.ref this after later := by
  obtain ⟨prepared, begun, called, observed, ready, prepares, begins, calls, observes, finishes, ends⟩ := turn
  have quiet : ∀ ref, Quiet ref this ready := fun ref =>
    prepares.quiet.trans (begins.quiet.trans (calls.quiet.trans (observes.quiet.trans finishes.quiet)))
  cases ends.places nodup with
  | inl deleted => exact ((quiet later.ref).trans (deleted later.ref)).advances member rfl waits
  | inr placed =>
    obtain ⟨effects, worked, works, log, among⟩ := placed
    have sent : ∀ ref, sentFor ref after.log = sentFor ref effects + sentFor ref this.log := by
      intro ref
      rw [log, sentFor, List.countP_append, ← sentFor, ← sentFor, (quiet ref).sent]
    cases among later member with
    | inl own =>
      -- the interaction that the turn is about
      subst own
      rw [works.ref]
      cases works.advances counted waits with
      | inl stays => exact .stays first rfl stays.1 (by rw [sent]; omega)
      | inr enters => exact .enters first rfl enters.1 (by rw [sent]; omega) enters.2.2
    | inr other =>
      obtain ⟨earlier, memberToo, same, waited, counter⟩ := (quiet later.ref).waits later other.1 rfl waits
      refine .stays memberToo same waited ?_
      rw [sent, works.effects_for other.2, counter, Nat.zero_add]

/-- A packet may end the wait of an interaction, and begins none. -/
theorem Touches.waits {pckt : NetPacket} {msg : CoapMessage} {worked : CoapInteraction}
    (touches : Touches this pckt msg pIA worked) (waits : Waits worked) :
    Waits pIA ∧ worked.retransCounter = pIA.retransCounter := by
  cases touches with
  | reset =>
    obtain ⟨_, _, state, _⟩ := marked_fields pIA .rstSet
    rw [Waits, state] at waits
    exact ⟨waits, (marked_counter pIA .rstSet).1⟩
  | acknowledged =>
    obtain ⟨_, _, state, _⟩ := marked_fields pIA .ackSet
    rw [Waits, state] at waits
    exact ⟨waits, (marked_counter pIA .ackSet).1⟩
  | piggybacked => simp [Waits, attachResponse] at waits
  | separate => simp [Waits, attachResponse] at waits
  | early => exact ⟨waits, rfl⟩

theorem Replies.sentFor {pckt : NetPacket} {msg : CoapMessage} {effects : List Effect}
    (replies : ∀ effect ∈ effects, Replies pckt msg effect) : CoapServer.sentFor ref effects = 0 := by
  rw [CoapServer.sentFor, List.countP_eq_zero]
  intro effect member
  cases replies effect member with
  | nextMid => simp [Effect.isSentFor]
  | sent => simp [Effect.isSentFor]

theorem Receives.advances {pckt : NetPacket} {msg : CoapMessage} (numbered : Numbered this)
    (receives : Receives env now pckt msg this after) (member : later ∈ after.pInteractions) (waits : Waits later) :
    Advances later.ref this after later := by
  have none : ∀ effects, (∀ effect ∈ effects, Replies pckt msg effect) → after.log = effects ++ this.log →
      sentFor later.ref after.log = sentFor later.ref this.log := by
    intro effects replies log
    rw [log, sentFor, List.countP_append, ← sentFor, Replies.sentFor replies, Nat.zero_add, sentFor]
  cases receives with
  | @answered effects replies placed =>
    rw [placed.pInteractions] at member
    exact .stays member rfl waits (by rw [none effects replies placed.log])
  | @duplicate pIA req memberToo role state request confirmable placed =>
    rw [placed.pInteractions] at member
    refine .stays member rfl waits ?_
    -- the empty acknowledgement belongs to an interaction that does not wait yet
    have other : pIA.ref ≠ later.ref := by
      intro same
      rw [eq_of_ref numbered.nodup memberToo member same] at state
      simp [Waits, state] at waits
    simp [placed.log, sentFor, sending, Effect.isSentFor, other]
  | @admitted pRes _ _ _ middle same started =>
    subst started
    have new : ¬ Waits (.serving msg pRes pckt) := by simp [Waits, CoapInteraction.serving]
    have quiet : Quiet later.ref this (middle.startInteraction (.serving msg pRes pckt)) :=
      same.quiet.trans (startInteraction_quiet new)
    exact quiet.advances member rfl waits
  | @touched pIA worked effects _ memberToo touches replies placed =>
    have sent := none effects replies placed.log
    rw [placed.pInteractions] at member
    cases mem_stored member with
    | inl stored =>
      subst stored
      obtain ⟨waited, counter⟩ := touches.waits waits
      exact .stays memberToo touches.identity.1.symm waited (by rw [sent, counter])
    | inr kept => exact .stays kept.1 rfl waits (by rw [sent])

/-- One step: what is sent for an interaction that waits behind it. -/
theorem step_advances {event : Event} (reaches : Reaches env resources this)
    (taken : step env this event = some after) (member : later ∈ after.pInteractions) (waits : Waits later) :
    Advances later.ref this after later := by
  have holds := run_shaped reaches
  have next : Reaches env resources after := .next reaches event trivial taken
  cases event with
  | packet pckt now =>
    cases taken
    cases onNewPacketHandler_cases env this now pckt with
    | inl unparsed => exact unparsed.2.quiet.advances member rfl waits
    | inr received =>
      obtain ⟨msg, _, receives⟩ := received
      have numbered : Numbered (this.noted pckt msg) := ⟨holds.numbered.nodup, holds.numbered.listed,
        (holds.numbered.note (.received pckt msg) (by simp [Effect.actor])).logged⟩
      cases receives.advances numbered member waits with
      | stays earlier same waited counts => exact .stays earlier same waited counts
      | enters earlier same unsent counts first => exact .enters earlier same unsent counts first
  | doWork now =>
    cases list : this.pInteractions with
    | nil =>
      obtain rfl : this = after := Option.some.inj ((doWork_nil list).symm.trans taken)
      exact (Quiet.refl later.ref this).advances member rfl waits
    | cons pIA rest =>
      have first : pIA ∈ this.pInteractions := list ▸ List.mem_cons_self
      have turn := doWork_turn list (holds.interactions pIA first).staged taken
      have counted := ((counted_stable env resources).holds reaches).interactions pIA first
      exact turn.advances first counted (run_shaped next).numbered.nodup member waits
  | call request =>
    cases taken
    have calls : Calls env this.IsObserver this (this.call env request) :=
      call_calls (fun _ observer => observer) request
    exact calls.quiet.advances member rfl waits

/-! ## Runs -/

/-- From its entry on, the messages of an interaction are counted. -/
theorem Since.counts {before : CoapServer} (reaches : Reaches env resources before)
    (since : Since env ref before this) : Reaches env resources this ∧ ∀ pIA ∈ this.pInteractions, pIA.ref = ref →
      Waits pIA → sentFor ref this.log = sentFor ref before.log + (pIA.retransCounter + 1) := by
  induction since with
  | @enters event after outside taken inside =>
    refine ⟨.next reaches event trivial taken, fun later member same waits => ?_⟩
    subst same
    cases step_advances reaches taken member waits with
    | stays earlier same waited => exact absurd ⟨_, earlier, same, waited⟩ outside
    | enters _ _ _ counts first => rw [counts, first]
  | @stays this after event since taken inside inductionHypothesis =>
    obtain ⟨reached, counted⟩ := inductionHypothesis
    refine ⟨.next reached event trivial taken, fun later member same waits => ?_⟩
    subst same
    have inside : WaitsIn this later.ref := since.inside
    obtain ⟨pIA, earlier, sameRef, waited⟩ := inside
    cases step_advances reached taken member waits with
    | stays memberToo same waitedToo counts =>
      have before := counted _ memberToo same waitedToo
      omega
    | enters memberToo same unsent =>
      rw [eq_of_ref (run_shaped reached).numbered.nodup memberToo earlier (same.trans sameRef.symm)] at unsent
      exact absurd waited unsent

/-- An interaction that waits entered its state in some step. -/
theorem waits_since (reaches : Reaches env resources this) (inside : WaitsIn this ref) :
    ∃ before, Reaches env resources before ∧ Since env ref before this := by
  induction reaches with
  | refl =>
    obtain ⟨_, member, _⟩ := inside
    exact absurd member List.not_mem_nil
  | @next before after reached event _ taken inductionHypothesis =>
    by_cases waited : WaitsIn before ref
    · obtain ⟨entry, reachedToo, since⟩ := inductionHypothesis waited
      exact ⟨entry, reachedToo, since.stays taken inside⟩
    · exact ⟨before, reached, .enters waited taken inside⟩

end

/-- An acknowledgement with this id for an interaction. -/
def Effect.isAckFor (ref mID : Nat) : Effect → Bool
  | .sent (some pIA) _ _ _ msg => pIA.ref = ref && msg.type = .ack && msg.messageID = mID
  | _ => false

end CoapServer

end SmingCoap.Server
