import SmingCoap.Server.PacketSteps
import SmingCoap.Transition.Runs

/-! # Invariants of the server stack

A property of the server is a property `P` of each interaction and the log, with
`E` of each effect and what was before it, and `Q` of each observer.  `Stable`
lists what has to be kept: one condition for each thing that can happen to an
interaction.  `Stable.holds` is the induction over runs.
-/

namespace SmingCoap.Server

namespace CoapServer

/-- Every effect in a log, with the log before it. -/
def Noted (E : List Effect → Effect → Prop) : List Effect → Prop
  | [] => True
  | effect :: rest => E rest effect ∧ Noted E rest

theorem Noted.split {E : List Effect → Effect → Prop} {later earlier : List Effect} {effect : Effect}
    (noted : Noted E (later ++ effect :: earlier)) : E earlier effect := by
  induction later with
  | nil => exact noted.1
  | cons _ _ inductionHypothesis => exact inductionHypothesis noted.2

/-- What holds of an interaction at any time, `resources` being those the server was made with. -/
structure Shaped (resources : List CoapResource) (pIA : CoapInteraction) : Prop where
  staged : Staged pIA
  serving : pIA.role = .server → ∃ req pRes resource, pIA.pReqMsg = some req ∧ pIA.pRes = some pRes ∧
    resources[pRes]? = some resource
  responded : pIA.role = .server → pIA.state = .responseSent → ∃ resp, pIA.pRespMsg = some resp
  notifying : pIA.role = .notification → ∃ resp pRes resource, pIA.pRespMsg = some resp ∧
    pIA.pRes = some pRes ∧ resources[pRes]? = some resource ∧ resource.notifier = true
  unrequested : pIA.role = .notification → pIA.pReqMsg = none
  requesting : pIA.role = .client → ∃ req, pIA.pReqMsg = some req
  answered : pIA.role = .client → pIA.state = .handleResponse → ∃ resp, pIA.pRespMsg = some resp

/-- The log has nothing of an interaction yet. -/
def Fresh (log : List Effect) (ref : Nat) : Prop :=
  ∀ effect ∈ log, effect.actor ≠ some ref

/-- What every part of a step keeps. -/
structure Stable (env : Env) (resources : List CoapResource) (allowed : CoapServer → Event → Prop)
    (P : List Effect → CoapInteraction → Prop) (E : List Effect → Effect → Prop)
    (Q : List Effect → CoapObserver → Prop) : Prop where
  foreign : ∀ {log pIA effect}, P log pIA → effect.actor ≠ some pIA.ref → P (effect :: log) pIA
  observer : ∀ {log pObserver} effect, Q log pObserver → Q (effect :: log) pObserver
  nextMid : ∀ log mid, E log (.nextMid mid)
  received : ∀ {this : CoapServer} {pckt now msg}, this.parsePacket env now pckt = some msg → E this.log (.received pckt msg)
  replies : ∀ {log pckt msg effect}, .received pckt msg ∈ log → Replies pckt msg effect → E log effect
  flagged : ∀ {log pIA}, P log pIA → pIA.role = .notification →
    P log { pIA with updatePendingNotification := true }
  client : ∀ {log msg ref} ifID serverEp cb, msg.isRequest = true → Fresh log ref →
    P log { CoapInteraction.requesting msg ifID serverEp cb with ref }
  notification : ∀ {log pRes resource pObserver created resp turn ref}, resources[pRes]? = some resource →
    resource.notifier = true → Q log pObserver → created.token64 = pObserver.token →
    resp.token64 = (env.notifier turn pRes (some pObserver) created).resp.token64 → Fresh log ref →
    P log { CoapInteraction.notifying pRes pObserver resp with ref }
  serving : ∀ {this pckt msg pRes resource ref}, layout this.resources = layout resources →
    .received pckt msg ∈ this.log → Admits this msg pRes resource → Fresh this.log ref →
    P this.log { CoapInteraction.serving msg pRes pckt with ref }
  duplicate : ∀ {log pIA req} now, P log pIA → pIA.role = .server →
    pIA.state = .resourcePostponeEmptyAckSent → pIA.pReqMsg = some req → req.type = .con →
    E log (sending now pIA { coapInitToEmptyResetMsg with type := .ack, messageID := req.messageID }) ∧
      P (sending now pIA { coapInitToEmptyResetMsg with type := .ack, messageID := req.messageID } :: log) pIA
  touched : ∀ {this pckt now msg pIA worked}, allowed this (.packet pckt now) →
    this.parsePacket env now pckt = some msg → (∀ other ∈ this.pInteractions, P this.log other) →
    pIA ∈ this.pInteractions → P (this.noted pckt msg).log pIA →
    Touches (this.noted pckt msg) pckt msg pIA worked → P (this.noted pckt msg).log worked
  handled : ∀ {log pIA req}, P log pIA → pIA.role = .server → Unanswered pIA → pIA.pReqMsg = some req →
    E log (.handled pIA req) ∧ P (.handled pIA req :: log) pIA
  works : ∀ {listed log now pIA effects worked}, layout listed = layout resources → Shaped resources pIA →
    P log pIA → Works env now listed log pIA effects worked →
    (∀ effect ∈ effects, E log effect) ∧ P (effects ++ log) worked
  registers : ∀ {log pIA req pObserver}, P log pIA → Registers pIA req pObserver → Q log pObserver

/-- A state with the property; what is `known` of observers outlasts their removal. -/
structure Holds (resources : List CoapResource) (known : CoapObserver → Prop)
    (P : List Effect → CoapInteraction → Prop) (E : List Effect → Effect → Prop)
    (Q : List Effect → CoapObserver → Prop) (this : CoapServer) : Prop where
  numbered : Numbered this
  layouts : layout this.resources = layout resources
  interactions : ∀ pIA ∈ this.pInteractions, P this.log pIA
  effects : Noted E this.log
  observers : ∀ pObserver, this.IsObserver pObserver → Q this.log pObserver
  knows : ∀ pObserver, known pObserver → Q this.log pObserver

section
variable {env : Env} {resources : List CoapResource} {allowed : CoapServer → Event → Prop}
  {P : List Effect → CoapInteraction → Prop} {E : List Effect → Effect → Prop}
  {Q : List Effect → CoapObserver → Prop} {known : CoapObserver → Prop} {this after : CoapServer}

theorem Holds.silent (holds : Holds resources known P E Q this) (same : Silent this after) :
    Holds resources known P E Q after where
  numbered := holds.numbered.silent same
  layouts := by rw [same.resources]; exact holds.layouts
  interactions := by rw [same.pInteractions, same.log]; exact holds.interactions
  effects := by rw [same.log]; exact holds.effects
  observers := by
    intro pObserver observer
    rw [IsObserver, same.resources] at observer
    rw [same.log]
    exact holds.observers pObserver observer
  knows := by rw [same.log]; exact holds.knows

/-- An effect that belongs to no interaction. -/
theorem Holds.note (stable : Stable env resources allowed P E Q) (holds : Holds resources known P E Q this)
    {effect : Effect} (neutral : effect.actor = none) (noted : E this.log effect) :
    Holds resources known P E Q { this with log := effect :: this.log } where
  numbered := holds.numbered.note effect fun ref actor => by rw [neutral] at actor; cases actor
  layouts := holds.layouts
  interactions := fun pIA member =>
    stable.foreign (holds.interactions pIA member) (by rw [neutral]; exact Option.some_ne_none _ |>.symm)
  effects := ⟨noted, holds.effects⟩
  observers := fun pObserver observer => stable.observer effect (holds.observers pObserver observer)
  knows := fun pObserver isKnown => stable.observer effect (holds.knows pObserver isKnown)

theorem Holds.start (holds : Holds resources known P E Q this) {pIA : CoapInteraction}
    (new : Fresh this.log this.interactions → P this.log { pIA with ref := this.interactions }) :
    Holds resources known P E Q (this.startInteraction pIA) where
  numbered := holds.numbered.start pIA
  layouts := holds.layouts
  interactions := by
    intro other member
    cases List.mem_append.mp member with
    | inl earlier => exact holds.interactions other earlier
    | inr last =>
      rw [List.mem_singleton.mp last]
      exact new fun effect noted actor =>
        absurd (holds.numbered.logged effect noted _ actor) (Nat.lt_irrefl _)
  effects := holds.effects
  observers := holds.observers
  knows := holds.knows

theorem Holds.modify (holds : Holds resources known P E Q this) {pRes : Nat}
    {change : CoapResource → CoapResource} (kept : ∀ resource, layout [change resource] = layout [resource])
    (observers : ∀ pObserver, (this.modifyResource pRes change).IsObserver pObserver → Q this.log pObserver) :
    Holds resources known P E Q (this.modifyResource pRes change) where
  numbered := ⟨holds.numbered.1, holds.numbered.2, holds.numbered.3⟩
  layouts := (layout_modify _ _ _ kept).trans holds.layouts
  interactions := holds.interactions
  effects := holds.effects
  observers := observers
  knows := holds.knows

theorem CallAct.holds (stable : Stable env resources allowed P E Q) (holds : Holds resources known P E Q this)
    (act : CallAct env known this after) :
    Holds resources known P E Q after ∧ ∀ pIA, P this.log pIA → P after.log pIA := by
  cases act with
  | silent same =>
    refine ⟨holds.silent same, ?_⟩
    rw [same.log]
    exact fun pIA own => own
  | nextMid =>
    have noted := holds.note stable rfl (stable.nextMid this.log (this.mid + 1).toNat)
    refine ⟨noted.silent ⟨rfl, rfl, rfl, rfl, rfl⟩, ?_⟩
    exact fun pIA own => stable.foreign own (Option.some_ne_none _).symm
  -- only the flag of one interaction changes
  | @flag pIA member pending =>
    refine ⟨⟨holds.numbered.store (holds.numbered.listed pIA member), holds.layouts, ?_, holds.effects,
      holds.observers, holds.knows⟩, fun _ own => own⟩
    intro other listed
    cases mem_stored listed with
    | inl same =>
      rw [same]
      exact stable.flagged (holds.interactions pIA member) pending
    | inr kept => exact holds.interactions other kept.1
  | client request ifID serverEp cb =>
    exact ⟨holds.start (stable.client ifID serverEp cb request), fun _ own => own⟩
  | notification found notifier observer token notified =>
    obtain ⟨resource, listed, kept⟩ := layout_getElem? holds.layouts.symm found
    have notifies : resource.notifier = true := (layout_singleton kept).2.2.2.trans notifier
    exact ⟨holds.start (stable.notification listed notifies (holds.knows _ observer) token notified),
      fun _ own => own⟩
  | removeObserver pRes ifID ep token =>
    refine ⟨holds.modify (fun _ => rfl) ?_, fun _ own => own⟩
    intro pObserver observer
    exact holds.observers pObserver
      (isObserver_modify observer fun resource other member => List.mem_of_mem_eraseP member)
  | update pRes =>
    refine ⟨holds.modify (fun _ => rfl) ?_, fun _ own => own⟩
    intro pObserver observer
    exact holds.observers pObserver (isObserver_modify observer fun resource other member => member)

theorem Calls.holds (stable : Stable env resources allowed P E Q) (holds : Holds resources known P E Q this)
    (calls : Calls env known this after) :
    Holds resources known P E Q after ∧ ∀ pIA, P this.log pIA → P after.log pIA := by
  induction calls with
  | refl => exact ⟨holds, fun _ own => own⟩
  | tail _ act inductionHypothesis =>
    obtain ⟨further, owns⟩ := act.holds stable inductionHypothesis.1
    exact ⟨further, fun pIA own => owns pIA (inductionHypothesis.2 pIA own)⟩

theorem mem_grown {list grown : List CoapInteraction} {first : Nat} {pIA other : CoapInteraction}
    (grows : Grows first list grown) (nodup : (list.map CoapInteraction.ref).Nodup) (member : pIA ∈ list)
    (below : pIA.ref < first) (listed : other ∈ grown) (same : other.ref = pIA.ref) : Flagged pIA other := by
  obtain ⟨flag, new, rfl, flags, behind⟩ := grows
  cases List.mem_append.mp listed with
  | inl earlier =>
    obtain ⟨entry, mem, rfl⟩ := List.mem_map.mp earlier
    rw [(flags entry mem).ref] at same
    rw [← eq_of_ref nodup mem member same]
    exact flags entry mem
  | inr later => exact absurd (behind other later) (by omega)

theorem Begins.numbered {pIA : CoapInteraction} (numbered : Numbered this) (below : pIA.ref < this.interactions)
    (begins : Begins pIA this after) : Numbered after := by
  cases begins with
  | nothing same => exact numbered.silent same
  | @handled req _ _ _ list _ interactions _ log =>
    refine ⟨list ▸ numbered.nodup, list ▸ interactions ▸ numbered.listed, ?_⟩
    rw [log, interactions]
    apply (numbered.note (.handled pIA req) _).logged
    intro ref actor
    cases actor
    exact below

theorem Begins.holds (stable : Stable env resources allowed P E Q) (holds : Holds resources known P E Q this)
    {pIA : CoapInteraction} (below : pIA.ref < this.interactions)
    (only : pIA.role = .server → ∀ other ∈ this.pInteractions, other.ref = pIA.ref → other = pIA)
    (own : P this.log pIA) (begins : Begins pIA this after) :
    Holds resources known P E Q after ∧ P after.log pIA := by
  cases begins with
  | nothing same => exact ⟨holds.silent same, same.log ▸ own⟩
  | @handled req role state request list resources interactions _ log =>
    obtain ⟨noted, kept⟩ := stable.handled own role state request
    refine ⟨⟨⟨?_, ?_, ?_⟩, ?_, ?_, ?_, ?_, ?_⟩, ?_⟩
    · rw [list]
      exact holds.numbered.nodup
    · rw [list, interactions]
      exact holds.numbered.listed
    · rw [log, interactions]
      exact (holds.numbered.note (.handled pIA req) fun ref actor => by
        cases actor
        exact below).logged
    · rw [resources]
      exact holds.layouts
    · rw [list, log]
      intro other member
      -- an interaction with the same number is the one that is worked on
      by_cases same : other.ref = pIA.ref
      · rw [only role other member same]
        exact kept
      · exact stable.foreign (holds.interactions other member) fun actor => same (Option.some.inj actor).symm
    · rw [log]
      exact ⟨noted, holds.effects⟩
    · intro pObserver observer
      rw [IsObserver, resources] at observer
      rw [log]
      exact stable.observer _ (holds.observers pObserver observer)
    · rw [log]
      exact fun pObserver isKnown => stable.observer _ (holds.knows pObserver isKnown)
    · rw [log]
      exact kept

theorem Holds.delete (holds : Holds resources known P E Q this) (ref : Nat) :
    Holds resources known P E Q (this.deleteInteraction ref) where
  numbered := by
    refine ⟨?_, ?_, holds.numbered.logged⟩
    · rw [deleteInteraction, map_ref_erased]
      exact holds.numbered.nodup.erase ref
    · exact fun other member => holds.numbered.listed other (List.mem_of_mem_eraseP member)
  layouts := holds.layouts
  interactions := fun other member => holds.interactions other (List.mem_of_mem_eraseP member)
  effects := holds.effects
  observers := holds.observers
  knows := holds.knows

theorem Holds.removeInteractionsObserver (holds : Holds resources known P E Q this) (pIA : CoapInteraction)
    (token : UInt64) : Holds resources known P E Q (this.removeInteractionsObserver pIA token) := by
  unfold CoapServer.removeInteractionsObserver
  cases pIA.pRes with
  | none => exact holds
  | some pRes =>
    refine holds.modify (fun _ => rfl) ?_
    intro pObserver observer
    exact holds.observers pObserver
      (isObserver_modify observer fun resource other member => List.mem_of_mem_eraseP member)

/-- An observer is one of before, or the one that was registered. -/
theorem isObserver_register {pRes : Nat} {ifID : UInt8} {ep : NetEp} {token : UInt64}
    {registered pObserver : CoapObserver}
    (observer : (this.modifyResource pRes fun resource =>
      (resource.removeObserver ifID ep token).appendObserver registered).IsObserver pObserver) :
    pObserver = registered ∨ this.IsObserver pObserver := by
  obtain ⟨changed, listed, member⟩ := observer
  obtain ⟨i, found⟩ := List.mem_iff_getElem?.mp listed
  rw [modifyResource, List.getElem?_modify, Option.map_eq_map, Option.map_eq_some_iff] at found
  obtain ⟨resource, found, rfl⟩ := found
  split at member
  next =>
    cases List.mem_append.mp member with
    | inl earlier => exact .inr ⟨resource, List.mem_of_getElem? found, List.mem_of_mem_eraseP earlier⟩
    | inr last => exact .inl (List.mem_singleton.mp last)
  next => exact .inr ⟨resource, List.mem_of_getElem? found, member⟩

theorem Observes.holds (stable : Stable env resources allowed P E Q) (holds : Holds resources known P E Q this)
    {pIA : CoapInteraction} (own : P this.log pIA) (observes : Observes pIA this after) :
    Holds resources known P E Q after := by
  cases observes with
  | nothing same => exact holds.silent same
  | registered registers resource middle same changed =>
    have before := holds.silent same
    rw [changed]
    refine before.modify (fun _ => rfl) ?_
    intro pObserver observer
    cases isObserver_register observer with
    | inl new =>
      rw [new, same.log]
      exact stable.registers own registers
    | inr earlier => exact before.observers pObserver earlier
  | removed token _ changed =>
    rw [changed]
    exact holds.removeInteractionsObserver pIA token
  | @aborted token _ pending _ _ changed =>
    rw [changed]
    exact (holds.removeInteractionsObserver pIA token).delete pending.ref

/-- A turn has one effect at most: what holds of the log, and still holds with that effect, holds of the log after it. -/
theorem few_effects (holds : List Effect → Prop) {log effects : List Effect}
    (few : effects = [] ∨ ∃ effect, effects = [effect]) (before : holds log)
    (one : ∀ effect, effects = [effect] → holds (effect :: log)) : holds (effects ++ log) := by
  cases few with
  | inl none =>
    rw [none]
    exact before
  | inr single =>
    obtain ⟨effect, same⟩ := single
    rw [same]
    exact one effect same

/-- The list is replaced by one whose interactions are `worked` and others of before. -/
theorem Holds.places (stable : Stable env resources allowed P E Q) (holds : Holds resources known P E Q this)
    {effects : List Effect} {list : List CoapInteraction} (placed : Places this after effects list) {ref : Nat}
    (below : ref < this.interactions) (few : effects = [] ∨ ∃ effect, effects = [effect])
    (actors : ∀ effect ∈ effects, effect.actor = some ref) (noted : ∀ effect ∈ effects, E this.log effect)
    (nodup : (list.map CoapInteraction.ref).Nodup)
    (members : ∀ other ∈ list, other.ref = ref ∧ P after.log other ∨
      other ∈ this.pInteractions ∧ other.ref ≠ ref) :
    Holds resources known P E Q after := by
  have others : ∀ other ∈ list, P after.log other ∧ other.ref < this.interactions := by
    intro other member
    cases members other member with
    | inl worked => exact ⟨worked.2, worked.1 ▸ below⟩
    | inr kept =>
      refine ⟨?_, holds.numbered.listed other kept.1⟩
      rw [placed.log]
      refine few_effects (P · other) few (holds.interactions other kept.1) fun effect same => ?_
      -- the effect is of another interaction
      refine stable.foreign (holds.interactions other kept.1) ?_
      rw [actors effect (same ▸ List.mem_singleton_self _)]
      exact fun same => kept.2 (Option.some.inj same).symm
  refine ⟨⟨?_, ?_, ?_⟩, ?_, ?_, ?_, ?_, ?_⟩
  · rw [placed.pInteractions]
    exact nodup
  · rw [placed.pInteractions, placed.interactions]
    exact fun other member => (others other member).2
  · rw [placed.log, placed.interactions]
    intro effect member number actor
    cases List.mem_append.mp member with
    | inl new =>
      rw [actors effect new] at actor
      exact Option.some.inj actor ▸ below
    | inr earlier => exact holds.numbered.logged effect earlier number actor
  · rw [placed.resources]
    exact holds.layouts
  · rw [placed.pInteractions]
    exact fun other member => (others other member).1
  · rw [placed.log]
    exact few_effects _ few holds.effects fun effect same =>
      ⟨noted effect (same ▸ List.mem_singleton_self _), holds.effects⟩
  · intro pObserver observer
    rw [IsObserver, placed.resources] at observer
    rw [placed.log]
    exact few_effects (Q · pObserver) few (holds.observers pObserver observer) fun effect _ =>
      stable.observer effect (holds.observers pObserver observer)
  · intro pObserver isKnown
    rw [placed.log]
    exact few_effects (Q · pObserver) few (holds.knows pObserver isKnown) fun effect _ =>
      stable.observer effect (holds.knows pObserver isKnown)

theorem nodup_moved {list : List CoapInteraction} (nodup : (list.map CoapInteraction.ref).Nodup)
    (worked : CoapInteraction) :
    (((list.eraseP fun other => other.ref = worked.ref) ++ [worked]).map CoapInteraction.ref).Nodup := by
  rw [List.map_append, map_ref_erased, List.map_cons, List.map_nil, List.nodup_append]
  refine ⟨nodup.erase _, List.nodup_singleton _, ?_⟩
  intro ref kept other last same
  rw [List.mem_singleton] at last
  rw [nodup.mem_erase_iff] at kept
  exact kept.1 (same.trans last)

theorem Ends.holds (stable : Stable env resources allowed P E Q) (holds : Holds resources known P E Q this)
    {now : UInt32} {pIA : CoapInteraction} {listed : List CoapResource} (layouts : layout listed = layout resources)
    (shaped : Shaped resources pIA) (below : pIA.ref < this.interactions) (own : P this.log pIA)
    (ends : Ends env now listed pIA this after) : Holds resources known P E Q after := by
  cases ends with
  | deleted placed =>
    apply holds.places stable placed below (.inl rfl) (fun _ member => absurd member List.not_mem_nil)
      (fun _ member => absurd member List.not_mem_nil)
    -- the interaction is gone, and the other ones keep their order
    · rw [map_ref_erased]
      exact holds.numbered.nodup.erase _
    · exact fun other member => .inr (mem_erased holds.numbered.nodup member)
  | @last effects worked works placed =>
    obtain ⟨noted, kept⟩ := stable.works layouts shaped own works
    apply holds.places stable placed below works.effects works.actor noted (nodup_moved holds.numbered.nodup worked)
    intro other member
    cases List.mem_append.mp member with
    | inl earlier => exact .inr (works.ref ▸ mem_erased holds.numbered.nodup earlier)
    | inr last =>
      rw [List.mem_singleton.mp last, placed.log]
      exact .inl ⟨works.ref, kept⟩
  | @first effect worked works _ placed =>
    obtain ⟨noted, kept⟩ := stable.works layouts shaped own works
    apply holds.places stable placed below works.effects works.actor noted
    · rw [map_ref_stored]
      exact holds.numbered.nodup
    · intro other member
      cases mem_stored member with
      | inl same =>
        rw [same, placed.log]
        exact .inl ⟨works.ref, kept⟩
      | inr earlier => exact .inr (works.ref ▸ earlier)

theorem Turn.holds (stable : Stable env resources allowed P E Q) (holds : Holds resources known P E Q this)
    {now : UInt32} {pIA : CoapInteraction} (shaped : Shaped resources pIA) (member : pIA ∈ this.pInteractions)
    (turn : Turn env known now pIA this after) : Holds resources known P E Q after := by
  obtain ⟨prepared, begun, called, observed, ready, prepares, begins, calls, observes, finishes, ends⟩ := turn
  obtain ⟨preparedHolds, keeps⟩ := prepares.holds stable holds
  obtain ⟨_, grown, _, grows⟩ := prepares.grows holds.numbered
  have listed := holds.numbered.listed pIA member
  have own := keeps pIA (holds.interactions pIA member)
  have only : pIA.role = .server → ∀ other ∈ prepared.pInteractions, other.ref = pIA.ref → other = pIA := by
    intro role other present same
    cases mem_grown grows holds.numbered.nodup member listed present same with
    | inl same => exact same
    | inr pending => rw [role] at pending; cases pending.1
  obtain ⟨begunHolds, own⟩ := begins.holds stable preparedHolds (by omega) only own
  obtain ⟨calledHolds, keeps⟩ := calls.holds stable begunHolds
  have observedHolds := observes.holds stable calledHolds (keeps pIA own)
  obtain ⟨readyHolds, finally'⟩ := finishes.holds stable observedHolds
  have bound : pIA.ref < ready.interactions := by
    have afterCalls := (calls.grows begunHolds.numbered).2.1
    have afterAll := (finishes.grows observedHolds.numbered).2.1
    rw [begins.interactions] at afterCalls
    rw [observes.interactions] at afterAll
    omega
  exact ends.holds stable readyHolds holds.layouts shaped bound (finally' pIA (observes.log ▸ keeps pIA own))

theorem Replies.actor {pckt : NetPacket} {msg : CoapMessage} {effect : Effect} (replies : Replies pckt msg effect) :
    effect.actor = none := by
  cases replies with
  | nextMid => rfl
  | sent => rfl

/-- Replies to a packet are noted. -/
theorem Holds.replied (stable : Stable env resources allowed P E Q) (effects : List Effect)
    (holds : Holds resources known P E Q this) {pckt : NetPacket} {msg : CoapMessage}
    (received : .received pckt msg ∈ this.log) (replies : ∀ effect ∈ effects, Replies pckt msg effect) :
    Holds resources known P E Q { this with log := effects ++ this.log } := by
  induction effects with
  | nil => exact holds
  | cons effect rest inductionHypothesis =>
    have earlier := inductionHypothesis fun other member => replies other (List.mem_cons_of_mem _ member)
    have reply := replies effect List.mem_cons_self
    exact earlier.note stable reply.actor (stable.replies (List.mem_append_right _ received) reply)

/-- The same list, resources and log, whatever the counters are. -/
theorem Holds.placed (holds : Holds resources known P E Q this) (placed : Places this after [] this.pInteractions) :
    Holds resources known P E Q after where
  numbered := ⟨placed.pInteractions ▸ holds.numbered.nodup,
    placed.pInteractions ▸ placed.interactions ▸ holds.numbered.listed,
    by rw [placed.log, placed.interactions]; exact holds.numbered.logged⟩
  layouts := placed.resources ▸ holds.layouts
  interactions := by rw [placed.pInteractions, placed.log]; exact holds.interactions
  effects := by rw [placed.log]; exact holds.effects
  observers := by
    intro pObserver observer
    rw [IsObserver, placed.resources] at observer
    rw [placed.log]
    exact holds.observers pObserver observer
  knows := by rw [placed.log]; exact holds.knows

theorem Receives.holds (stable : Stable env resources allowed P E Q) (holds : Holds resources known P E Q this)
    {now : UInt32} {pckt : NetPacket} {msg : CoapMessage} (permitted : allowed this (.packet pckt now))
    (parsed : this.parsePacket env now pckt = some msg)
    (receives : Receives env now pckt msg (this.noted pckt msg) after) :
    Holds resources known P E Q after := by
  have arrived : .received pckt msg ∈ (this.noted pckt msg).log := List.mem_cons_self
  have notedHolds : Holds resources known P E Q (this.noted pckt msg) :=
    (holds.note stable rfl (stable.received parsed)).silent ⟨rfl, rfl, rfl, rfl, rfl⟩
  cases receives with
  | answered replies placed =>
    exact (notedHolds.replied stable _ arrived replies).placed
      ⟨placed.pInteractions, placed.resources, placed.interactions, placed.log⟩
  | @duplicate pIA req member role state request confirmable placed =>
    obtain ⟨noted, kept⟩ := stable.duplicate now (notedHolds.interactions pIA member) role state request confirmable
    apply notedHolds.places stable placed (notedHolds.numbered.listed pIA member) (.inr ⟨_, rfl⟩)
    · intro effect listed
      rw [List.mem_singleton.mp listed]
      rfl
    · intro effect listed
      rw [List.mem_singleton.mp listed]
      exact noted
    · exact notedHolds.numbered.nodup
    · intro other listed
      by_cases same : other.ref = pIA.ref
      · rw [eq_of_ref notedHolds.numbered.nodup listed member same, placed.log]
        exact .inl ⟨rfl, kept⟩
      · exact .inr ⟨listed, same⟩
  | admitted admits _ middle same started =>
    rw [started]
    apply (notedHolds.silent same).start
    rw [same.log, same.interactions]
    exact fun fresh => stable.serving notedHolds.layouts arrived admits fresh
  | @touched pIA worked effects _ member touches replies placed =>
    have kept := stable.touched permitted parsed holds.interactions member (notedHolds.interactions pIA member)
      touches
    have stored : Holds resources known P E Q ((this.noted pckt msg).storeInteraction worked) := by
      refine ⟨notedHolds.numbered.store (touches.identity.1 ▸ notedHolds.numbered.listed pIA member),
        notedHolds.layouts, ?_, notedHolds.effects, notedHolds.observers, notedHolds.knows⟩
      intro other listed
      cases mem_stored listed with
      | inl same =>
        rw [same]
        exact kept
      | inr earlier => exact notedHolds.interactions other earlier.1
    exact (stored.replied stable effects arrived replies).placed
      ⟨placed.pInteractions, placed.resources, placed.interactions, placed.log⟩

theorem doWork_nil {now : UInt32} (idle : this.pInteractions = []) : this.doWork env now = some this := by
  simp [doWork, idle]

/-- One step keeps the property. -/
theorem Stable.kept (stable : Stable env resources allowed P E Q) {event : Event}
    (holds : Holds resources (fun _ => False) P E Q this)
    (shaped : ∀ pIA ∈ this.pInteractions, Shaped resources pIA) (permitted : allowed this event)
    (taken : step env this event = some after) : Holds resources (fun _ => False) P E Q after := by
  have knowing : Holds resources this.IsObserver P E Q this :=
    ⟨holds.1, holds.2, holds.3, holds.4, holds.5, holds.5⟩
  have forget : ∀ {state}, Holds resources this.IsObserver P E Q state → Holds resources (fun _ => False) P E Q state :=
    fun holds => ⟨holds.1, holds.2, holds.3, holds.4, holds.5, fun _ impossible => impossible.elim⟩
  cases event with
  | packet pckt now =>
    cases taken
    cases onNewPacketHandler_cases env this now pckt with
    | inl unparsed => exact holds.silent unparsed.2
    | inr received =>
      obtain ⟨msg, parsed, receives⟩ := received
      exact receives.holds stable holds permitted parsed
  | doWork now =>
    cases list : this.pInteractions with
    | nil =>
      have stays : this = after := Option.some.inj ((doWork_nil list).symm.trans taken)
      rw [← stays]
      exact holds
    | cons pIA rest =>
      have member : pIA ∈ this.pInteractions := list ▸ List.mem_cons_self
      exact forget (Turn.holds stable knowing (shaped pIA member) member
        (doWork_turn list (shaped pIA member).staged taken))
  | call request =>
    cases taken
    exact forget ((call_calls (fun _ observer => observer) request).holds stable knowing).1

end

/-! ## The shape of interactions -/

section
variable {resources : List CoapResource} {pIA worked : CoapInteraction}

/-- Only these fields matter for the shape. -/
theorem Shaped.congr (shaped : Shaped resources pIA) (role : worked.role = pIA.role)
    (state : worked.state = pIA.state) (pRes : worked.pRes = pIA.pRes) (pReqMsg : worked.pReqMsg = pIA.pReqMsg)
    (pRespMsg : worked.pRespMsg = pIA.pRespMsg) : Shaped resources worked where
  staged := by
    have staged := shaped.staged
    unfold Staged Unanswered at staged ⊢
    rwa [role, state]
  serving := by rw [role, pReqMsg, pRes]; exact shaped.serving
  responded := by rw [role, state, pRespMsg]; exact shaped.responded
  notifying := by rw [role, pRespMsg, pRes]; exact shaped.notifying
  unrequested := by rw [role, pReqMsg]; exact shaped.unrequested
  requesting := by rw [role, pReqMsg]; exact shaped.requesting
  answered := by rw [role, state, pRespMsg]; exact shaped.answered

theorem Shaped.server (shaped : Shaped resources pIA) (isServer : pIA.role = .server)
    (role : worked.role = pIA.role) (pRes : worked.pRes = pIA.pRes) (pReqMsg : worked.pReqMsg = pIA.pReqMsg)
    (stage : Unanswered worked ∨ worked.state = .responseSent ∧ ∃ resp, worked.pRespMsg = some resp) :
    Shaped resources worked where
  staged := by
    unfold Staged
    rw [role, isServer]
    exact stage.imp_right And.left
  serving := by rw [role, pReqMsg, pRes]; exact shaped.serving
  responded := by
    intro _ state
    cases stage with
    | inl unanswered =>
      unfold Unanswered at unanswered
      rw [state] at unanswered
      simp at unanswered
    | inr responded => exact responded.2
  notifying := by rw [role, isServer]; simp
  unrequested := by rw [role, isServer]; simp
  requesting := by rw [role, isServer]; simp
  answered := by rw [role, isServer]; simp

theorem Shaped.notification (shaped : Shaped resources pIA) (isNotification : pIA.role = .notification)
    (role : worked.role = pIA.role) (pRes : worked.pRes = pIA.pRes) (pReqMsg : worked.pReqMsg = pIA.pReqMsg)
    (resp : ∃ resp, worked.pRespMsg = some resp)
    (stage : worked.state = .readyToNotify ∨ worked.state = .notificationSent) : Shaped resources worked where
  staged := by
    unfold Staged
    rw [role, isNotification]
    exact stage
  serving := by rw [role, isNotification]; simp
  responded := by rw [role, isNotification]; simp
  notifying := by
    obtain ⟨_, index, resource, _, same, found, notifier⟩ := shaped.notifying isNotification
    obtain ⟨resp, response⟩ := resp
    exact fun _ => ⟨resp, index, resource, response, pRes.trans same, found, notifier⟩
  unrequested := fun _ => pReqMsg.trans (shaped.unrequested isNotification)
  requesting := by rw [role, isNotification]; simp
  answered := by rw [role, isNotification]; simp

theorem Shaped.client (isClient : worked.role = .client) (req : ∃ req, worked.pReqMsg = some req)
    (stage : worked.state = .readyToRequest ∨ worked.state = .waitingResponse ∨
      worked.state = .handleResponse ∧ ∃ resp, worked.pRespMsg = some resp) : Shaped resources worked where
  staged := by
    unfold Staged
    rw [isClient]
    exact stage.imp_right (Or.imp_right And.left)
  serving := by rw [isClient]; simp
  responded := by rw [isClient]; simp
  notifying := by rw [isClient]; simp
  unrequested := by rw [isClient]; simp
  requesting := fun _ => req
  answered := by
    intro _ state
    rcases stage with ready | waiting | handling
    · rw [ready] at state
      cases state
    · rw [waiting] at state
      cases state
    · exact handling.2

theorem Works.shaped {env : Env} {now : UInt32} {listed : List CoapResource} {log effects : List Effect}
    (shaped : Shaped resources pIA) (works : Works env now listed log pIA effects worked) : Shaped resources worked := by
  cases works with
  | waits => exact shaped
  | refuses role =>
    obtain ⟨_, sameRole, state, pRes, pReqMsg, pRespMsg, _⟩ := responded_fields now
      { pIA with pRespMsg := some _ } _ .responseSent
    exact shaped.server role sameRole pRes pReqMsg (.inr ⟨state, _, pRespMsg⟩)
  | answers role =>
    obtain ⟨_, sameRole, state, pRes, pReqMsg, pRespMsg, _⟩ := responded_fields now
      { pIA with pRespMsg := some _ } _ .responseSent
    exact shaped.server role sameRole pRes pReqMsg (.inr ⟨state, _, pRespMsg⟩)
  | postpones role => exact shaped.server role rfl rfl rfl (.inl (.inr rfl))
  | sleeps role state => exact shaped.server role rfl rfl rfl (.inl state)
  | repeats role response =>
    cases role with
    | inl server => exact shaped.server server.1 rfl rfl rfl (.inr ⟨server.2, _, rfl⟩)
    | inr pending => exact shaped.notification pending.1 rfl rfl rfl ⟨_, rfl⟩ (.inr pending.2)
  | notifies role _ response =>
    obtain ⟨_, sameRole, state, pRes, pReqMsg, pRespMsg, _⟩ := responded_fields now pIA _ .notificationSent
    exact shaped.notification role sameRole pRes pReqMsg ⟨_, pRespMsg⟩ (.inr state)
  | repeatsRefreshed role state => exact shaped.notification role rfl rfl rfl ⟨_, rfl⟩ (.inr state)
  | refreshes role => exact shaped.notification role rfl rfl rfl ⟨_, rfl⟩ (.inl rfl)
  | requests role =>
    obtain ⟨_, sameRole, state, pReqMsg, _⟩ := requested_fields now pIA _
    exact Shaped.client (sameRole.trans role) ⟨_, pReqMsg⟩ (.inr (.inl state))
  | requestsAgain role state => exact Shaped.client role ⟨_, rfl⟩ (.inr (.inl state))

theorem shaped_stable (env : Env) (resources : List CoapResource) :
    Stable env resources (fun _ _ => True) (fun _ pIA => Shaped resources pIA) (fun _ _ => True)
      (fun _ _ => True) where
  foreign := fun shaped _ => shaped
  observer := fun _ _ => trivial
  nextMid := fun _ _ => trivial
  received := fun _ => trivial
  replies := fun _ _ => trivial
  flagged := fun shaped _ => shaped.congr rfl rfl rfl rfl rfl
  client := fun _ _ _ _ _ => Shaped.client rfl ⟨_, rfl⟩ (.inl rfl)
  notification := by
    intro log pRes resource pObserver created resp turn ref found notifier _ _ _ _
    exact ⟨.inl rfl, nofun, nofun, fun _ => ⟨resp, pRes, resource, rfl, rfl, found, notifier⟩, fun _ => rfl, nofun, nofun⟩
  serving := by
    intro this pckt msg pRes resource ref layouts _ admits _
    obtain ⟨found, listed, _⟩ := layout_getElem? layouts.symm admits.listed
    exact ⟨.inl (.inl rfl), fun _ => ⟨msg, pRes, found, rfl, rfl, listed⟩, nofun, nofun, nofun, nofun, nofun⟩
  duplicate := fun _ shaped _ _ _ _ => ⟨trivial, shaped⟩
  touched := by
    intro this pckt now msg pIA worked _ _ _ _ shaped touches
    have fields := fun state => marked_fields pIA state
    cases touches with
    | reset =>
      obtain ⟨_, role, state, pRes, pReqMsg, pRespMsg, _⟩ := fields .rstSet
      exact shaped.congr role state pRes pReqMsg pRespMsg
    | acknowledged =>
      obtain ⟨_, role, state, pRes, pReqMsg, pRespMsg, _⟩ := fields .ackSet
      exact shaped.congr role state pRes pReqMsg pRespMsg
    | piggybacked _ _ _ client =>
      obtain ⟨_, role, _, _, pReqMsg, _⟩ := fields .ackSet
      obtain ⟨req, request⟩ := shaped.requesting client
      exact Shaped.client (role.trans client) ⟨req, pReqMsg.trans request⟩ (.inr (.inr ⟨rfl, msg, rfl⟩))
    | separate awaits =>
      exact Shaped.client awaits.role (shaped.requesting awaits.role) (.inr (.inr ⟨rfl, msg, rfl⟩))
    | early => exact shaped.congr rfl rfl rfl rfl rfl
  handled := fun shaped _ _ _ => ⟨trivial, shaped⟩
  works := fun _ _ shaped works => ⟨fun _ _ => trivial, works.shaped shaped⟩
  registers := fun _ _ => trivial

end

/-! ## Runs -/

/-- The states that the stack reaches with these resources. -/
def Reaches (env : Env) (resources : List CoapResource) (this : CoapServer) : Prop :=
  Transition.Run (step env) (fun _ _ => True) (new resources) this

theorem new_holds (resources : List CoapResource) (P : List Effect → CoapInteraction → Prop)
    (E : List Effect → Effect → Prop) (Q : List Effect → CoapObserver → Prop) :
    Holds resources (fun _ => False) P E Q (new resources) where
  numbered := ⟨List.nodup_nil, fun _ member => absurd member List.not_mem_nil,
    fun _ member => absurd member List.not_mem_nil⟩
  layouts := by simp [new, layout]
  interactions := fun _ member => absurd member List.not_mem_nil
  effects := trivial
  observers := by
    intro pObserver observer
    obtain ⟨resource, listed, member⟩ := observer
    obtain ⟨other, _, rfl⟩ := List.mem_map.mp listed
    cases member
  knows := fun _ impossible => impossible.elim

theorem run_shaped {env : Env} {resources : List CoapResource} {allowed : CoapServer → Event → Prop}
    {this : CoapServer} (run : Transition.Run (step env) allowed (new resources) this) :
    Holds resources (fun _ => False) (fun _ pIA => Shaped resources pIA) (fun _ _ => True) (fun _ _ => True)
      this := by
  apply Transition.Run.invariant _ _ (run.weaken (fun _ _ _ => trivial) : Reaches env resources this)
  · exact new_holds resources _ _ _
  · intro before event after holds _ taken
    exact (shaped_stable env resources).kept holds holds.interactions trivial taken

/-- A stable property holds in every state of a run whose steps are allowed. -/
theorem Stable.holds {env : Env} {resources : List CoapResource} {allowed : CoapServer → Event → Prop}
    {P : List Effect → CoapInteraction → Prop} {E : List Effect → Effect → Prop}
    {Q : List Effect → CoapObserver → Prop} (stable : Stable env resources allowed P E Q) {this : CoapServer}
    (run : Transition.Run (step env) allowed (new resources) this) :
    Holds resources (fun _ => False) P E Q this := by
  induction run with
  | refl => exact new_holds resources P E Q
  | next before event permitted taken inductionHypothesis =>
    exact stable.kept inductionHypothesis (run_shaped before).interactions permitted taken

/-! ## A server with one resource -/

/-- Memory and sockets work; handlers and notifiers leave the response as it is. -/
def idealEnv : Env where
  alloc := fun _ => true
  transmit := fun _ => true
  handler := fun _ _ _ pResp => ⟨.ok, pResp.getD coapInitToEmptyResetMsg, []⟩
  notifier := fun _ _ _ pResp => ⟨.ok, pResp, []⟩
  respCB := fun _ _ _ => []

/-- `/a`, which can be read and observed. -/
def sensor : CoapResource where
  updateCnt := 0
  flags := resOptGet
  uri := [⟨optNumUriPath, [0x61]⟩]
  observers := []
  handler := true
  notifier := true

theorem length_noAddress : (List.replicate netAddrMaxLength (0 : UInt8)).length = netAddrMaxLength :=
  List.length_replicate

def neighbour : NetEp where
  netType := .ipv6
  netAddr := List.replicate netAddrMaxLength 0
  netPort := 5683
  sized := length_noAddress

/-- A packet from the neighbour on an interface. -/
def datagram (ifID : UInt8) (content : List UInt8) : NetPacket where
  ifID := ifID
  data := fun i => content.getD i 0
  size := UInt16.ofNat content.length
  sender := neighbour
  metaInfo := .none

/-- A confirmable GET for `/a` with message id 1. -/
def getSensor : List UInt8 := [0x40, 0x01, 0x00, 0x01, 0xB1, 0x61]

/-- The same with token 7, as a registration. -/
def observeSensor : List UInt8 := [0x41, 0x01, 0x00, 0x01, 0x07, 0x60, 0x51, 0x61]

end CoapServer

end SmingCoap.Server
