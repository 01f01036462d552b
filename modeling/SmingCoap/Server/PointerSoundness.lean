import SmingCoap.Server.RequeueSoundness

/-! # Which pointers are read

With memory for everything, role and state of an interaction say which of its
messages are there, and a turn reads no others but for one: the text of an error
names the message id of a request when a response cannot be sent, and a
notification has no request.
-/

namespace SmingCoap.Server

namespace CoapServer

/-- The messages that an interaction has in its role and state. -/
structure PointersSet (pIA : CoapInteraction) : Prop where
  server : pIA.role = .server → pIA.pReqMsg ≠ none
  client : pIA.role = .client → pIA.pReqMsg ≠ none
  notification : pIA.role = .notification → pIA.pRespMsg ≠ none
  responseSent : pIA.role = .server → pIA.state = .responseSent → pIA.pRespMsg ≠ none
  handleResponse : pIA.role = .client → pIA.state = .handleResponse → pIA.pRespMsg ≠ none

/-- A notification that this turn is to send, for the first time or once more, can be sent. -/
def NotificationGoesOut (env : Env) (this : CoapServer) (now : UInt32) : Prop :=
  ∀ pIA rest, this.pInteractions = pIA :: rest → pIA.sleepUntil ≤ now → pIA.role = .notification →
    pIA.state = .readyToNotify ∨ checkRespStatus now pIA = some .retry → env.transmit this.transmissions = true

theorem Shaped.pointersSet {resources : List CoapResource} {pIA : CoapInteraction} (shaped : Shaped resources pIA) :
    PointersSet pIA where
  server := by
    intro role
    obtain ⟨req, _, _, request, _⟩ := shaped.serving role
    simp [request]
  client := by
    intro role
    obtain ⟨req, request⟩ := shaped.requesting role
    simp [request]
  notification := by
    intro role
    obtain ⟨resp, _, _, response, _⟩ := shaped.notifying role
    simp [response]
  responseSent := by
    intro role state
    obtain ⟨resp, response⟩ := shaped.responded role state
    simp [response]
  handleResponse := by
    intro role state
    obtain ⟨resp, response⟩ := shaped.answered role state
    simp [response]

/-- With memory for it there is a response for every handler's turn. -/
theorem survives_iff {env : Env} {this : CoapServer} {now : UInt32} {pIA : CoapInteraction}
    (available : ∀ i, env.alloc i = true) :
    Survives env this now pIA ↔ (pIA.role = .notification →
      pIA.state = .readyToNotify ∨ checkRespStatus now pIA = some .retry → env.transmit this.transmissions = true) := by
  unfold Survives
  cases role : pIA.role with
  | server =>
    simp only [reduceCtorEq, false_implies, iff_true]
    intro _ req pRes resource _ _ _
    unfold ResponseAvailable
    split
    next => exact available _
    next => exact .inr (.inl (available _))
  | notification => simp
  | client => simp

/-- In every state that is reached with memory for everything, the messages that role and state call for
are there, and a turn reads no null pointer if and only if a notification that is to be sent goes out. -/
theorem pointers_read_iff (env : Env) (available : ∀ i, env.alloc i = true) (resources : List CoapResource)
    (this : CoapServer) (reaches : Reaches env resources this) :
    (∀ pIA ∈ this.pInteractions, PointersSet pIA) ∧
      ∀ now, (this.doWork env now).isSome = true ↔ NotificationGoesOut env this now := by
  have holds := run_shaped reaches
  constructor
  · exact fun pIA member => (holds.interactions pIA member).pointersSet
  · intro now
    cases list : this.pInteractions with
    | nil => simp [doWork_nil list, NotificationGoesOut, list]
    | cons pIA rest =>
      have shaped := holds.interactions pIA (list ▸ List.mem_cons_self)
      by_cases sleeps : pIA.sleepUntil > now
      · have later : ¬ pIA.sleepUntil ≤ now := UInt32.not_le.mpr sleeps
        simp [doWork, NotificationGoesOut, list, sleeps, later]
      · have due : pIA.sleepUntil ≤ now := UInt32.not_lt.mp sleeps
        have worked : this.doWork env now = this.work env now pIA := by
          rw [doWork, list]
          exact if_neg sleeps
        rw [worked, work_isSome holds.numbered holds.layouts shaped, survives_iff available]
        constructor
        · intro goesOut other others sameList
          rw [list, List.cons.injEq] at sameList
          exact sameList.1 ▸ fun _ => goesOut
        · exact fun goesOut => goesOut pIA rest list due

/-- A notification that waits for its acknowledgement. -/
theorem sensor_pointers_read : ∃ this : CoapServer,
    this.pInteractions.map CoapInteraction.role = [.notification] ∧ (this.doWork idealEnv 4).isSome = true := by
  have reached : ([Event.packet (datagram 0 observeSensor) 0, .doWork 0, .doWork 1, .call (.notify 0),
      .doWork 1].foldlM (step idealEnv) (new [sensor])).map
      (fun this => this.pInteractions.map CoapInteraction.role) = some [.notification] := by
    decide +kernel
  obtain ⟨this, taken, roles⟩ := Option.map_eq_some_iff.mp reached
  obtain ⟨_, reads⟩ := pointers_read_iff idealEnv (fun _ => rfl) [sensor] this (.of_events _ .refl taken)
  exact ⟨this, roles, (reads 4).mpr fun _ _ _ _ _ _ => rfl⟩

/-- The network fails when a notification is sent for the second time. -/
theorem retried_notification_crashes : ¬ ∀ (env : Env), (∀ i, env.alloc i = true) →
    ∀ (resources : List CoapResource) (this : CoapServer), Reaches env resources this →
      ∀ now, (this.doWork env now).isSome = true := by
  intro reads
  let env : Env := { idealEnv with transmit := fun n => n < 2 }
  have reached : ([Event.packet (datagram 0 observeSensor) 0, .doWork 0, .doWork 1, .call (.notify 0),
      .doWork 1].foldlM (step env) (new [sensor])).map (fun this => (this.doWork env 4).isSome) = some false := by
    decide +kernel
  obtain ⟨this, taken, crashes⟩ := Option.map_eq_some_iff.mp reached
  have survives := reads env (fun _ => rfl) [sensor] this (.of_events _ .refl taken) 4
  rw [crashes] at survives
  cases survives

end CoapServer

end SmingCoap.Server
