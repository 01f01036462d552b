import SmingCoap.Server.EngineListsSoundness
import SmingCoap.Server.OwnershipSteps
import SmingCoap.Server.RequeueSoundness

/-! # The engine on nodes and pointers

Whatever the stack does with its list of interactions, it does with the calls
that were followed in memory.  So beside every run of the stack there is one of
the functions on pointers: the nodes in memory are the interactions of the state
that is reached, in their order, wherever new ones are allocated.
-/

namespace SmingCoap.Server

open LinkedList (sum_fresh)
open Relation (ReflTransGen)
open Transition (Run)

namespace CoapServer

/-- One call for the list, or something that the list has no part in. -/
inductive ListEdit (this : CoapServer) : CoapServer → Prop
  | silent {after : CoapServer} (list : after.pInteractions = this.pInteractions)
      (interactions : after.interactions = this.interactions) : ListEdit this after
  | start (pIA : CoapInteraction) : ListEdit this (this.startInteraction pIA)
  | delete {ref : Nat} (member : ref ∈ this.refs) : ListEdit this (this.deleteInteraction ref)
  | enqueueLast {pIA : CoapInteraction} (member : pIA.ref ∈ this.refs) :
      ListEdit this (this.enqueueLastInteraction pIA)
  | store {pIA : CoapInteraction} (member : pIA.ref ∈ this.refs) : ListEdit this (this.storeInteraction pIA)

/-- A sequence of calls for the list. -/
def ListEdits : CoapServer → CoapServer → Prop := ReflTransGen ListEdit

section
variable {env : Env} {known : CoapObserver → Prop} {now : UInt32} {pIA : CoapInteraction} {role : InteractionRole}
  {ref : Nat} {rest : List CoapInteraction} {resources : List CoapResource} {this middle after : CoapServer}

theorem ListEdits.silent (list : after.pInteractions = this.pInteractions)
    (interactions : after.interactions = this.interactions) : ListEdits this after :=
  .single (.silent list interactions)

/-- A call, and what it leaves in the list. -/
theorem ListEdit.places (edit : ListEdit this middle) (list : after.pInteractions = middle.pInteractions)
    (interactions : after.interactions = middle.interactions) : ListEdits this after :=
  .tail (.single edit) (.silent list interactions)

theorem Silent.edits (same : Silent this after) : ListEdits this after :=
  .silent same.pInteractions same.interactions

/-! ## What calls into the stack do -/

theorem CallAct.edit (act : CallAct env known this after) : ListEdit this after := by
  cases act with
  | silent same => exact .silent same.pInteractions same.interactions
  | nextMid => exact .silent rfl rfl
  | @flag pIA member =>
    have listed : pIA.ref ∈ this.refs := List.mem_map_of_mem member
    exact .store listed
  | client => exact .start _
  | notification => exact .start _
  | removeObserver => exact .silent rfl rfl
  | update => exact .silent rfl rfl

theorem Calls.edits (calls : Calls env known this after) : ListEdits this after :=
  ReflTransGen.mono (fun _ _ act => CallAct.edit act) _ _ calls

theorem refs_start (member : ref ∈ this.refs) (pIA : CoapInteraction) : ref ∈ (this.startInteraction pIA).refs := by
  rw [CoapServer.refs, startInteraction, appendInteraction, List.map_append]
  exact List.mem_append_left _ member

/-- Calls take nobody away. -/
theorem Calls.refs (calls : Calls env known this after) (member : ref ∈ this.refs) : ref ∈ after.refs := by
  induction calls with
  | refl => exact member
  | tail _ act inductionHypothesis =>
    cases act with
    | silent same => rwa [CoapServer.refs, same.pInteractions]
    | nextMid => exact inductionHypothesis
    | flag => rwa [CoapServer.refs, storeInteraction, map_ref_stored]
    | client => exact refs_start inductionHypothesis _
    | notification => exact refs_start inductionHypothesis _
    | removeObserver => exact inductionHypothesis
    | update => exact inductionHypothesis

/-- An interaction with this number and this role is in the list. -/
def Present (this : CoapServer) (ref : Nat) (role : InteractionRole) : Prop :=
  ∃ pIA ∈ this.pInteractions, pIA.ref = ref ∧ pIA.role = role

theorem Present.refs (present : Present this ref role) : ref ∈ this.refs := by
  obtain ⟨pIA, member, rfl, _⟩ := present
  exact List.mem_map_of_mem member

theorem Calls.present (calls : Calls env known this after) (numbered : Numbered this)
    (present : Present this ref role) : Present after ref role := by
  obtain ⟨pIA, member, rfl, rfl⟩ := present
  obtain ⟨_, _, _, flag, new, list, flags, _⟩ := calls.grows numbered
  rw [Present, list]
  exact ⟨flag pIA, List.mem_append_left _ (List.mem_map_of_mem member), (flags pIA member).ref,
    (flags pIA member).role⟩

/-! ## Turns -/

theorem Begins.edits (begins : Begins pIA this after) : ListEdits this after :=
  .silent begins.pInteractions begins.interactions

theorem Observes.edits (observes : Observes pIA this after) : ListEdits this after := by
  have interactions := observes.interactions
  cases observes with
  | nothing same => exact same.edits
  | registered _ _ middle same changed =>
    rw [changed]
    exact .silent same.pInteractions same.interactions
  | removed token _ changed =>
    exact .silent (changed ▸ removeInteractionsObserver_pInteractions this pIA token) interactions
  | @aborted token _ pending member _ changed =>
    refine (ListEdit.delete (List.mem_map_of_mem (f := CoapInteraction.ref) member)).places ?_ interactions
    rw [changed, deleteInteraction, removeInteractionsObserver_pInteractions]
    rfl

/-- The interaction that is aborted is another one. -/
theorem Observes.refs (observes : Observes pIA this after) (numbered : Numbered this)
    (present : Present this pIA.ref pIA.role) : pIA.ref ∈ after.refs := by
  cases observes with
  | nothing same =>
    rw [CoapServer.refs, same.pInteractions]
    exact present.refs
  | registered _ _ middle same changed =>
    have listed := present.refs
    rw [CoapServer.refs, ← same.pInteractions] at listed
    rw [changed]
    exact listed
  | removed token _ changed =>
    rw [changed, CoapServer.refs, removeInteractionsObserver_pInteractions]
    exact present.refs
  | @aborted token deregisters pending member role changed =>
    obtain ⟨other, listed, same, sameRole⟩ := present
    rw [changed, CoapServer.refs, deleteInteraction, removeInteractionsObserver_pInteractions, map_ref_erased,
      numbered.nodup.mem_erase_iff]
    refine ⟨fun equal => ?_, same ▸ List.mem_map_of_mem listed⟩
    rw [eq_of_ref numbered.nodup listed member (same.trans equal), role, deregisters.1] at sameRole
    cases sameRole

theorem Ends.edits (ends : Ends env now resources pIA this after) (member : pIA.ref ∈ this.refs) :
    ListEdits this after := by
  cases ends with
  | deleted placed => exact (ListEdit.delete member).places placed.pInteractions placed.interactions
  | last works placed =>
    rw [← works.ref] at member
    exact (ListEdit.enqueueLast member).places placed.pInteractions placed.interactions
  | first works _ placed =>
    rw [← works.ref] at member
    exact (ListEdit.store member).places placed.pInteractions placed.interactions

theorem Turn.edits (numbered : Numbered this) (member : pIA ∈ this.pInteractions)
    (turn : Turn env known now pIA this after) : ListEdits this after := by
  obtain ⟨prepared, begun, called, observed, ready, prepares, begins, calls, observes, finishes, ends⟩ := turn
  have present : Present this pIA.ref pIA.role := ⟨pIA, member, rfl, rfl⟩
  obtain ⟨numberedPrepared, grown, _, _⟩ := prepares.grows numbered
  have numberedBegun := begins.numbered numberedPrepared ((numbered.listed pIA member).trans_le grown)
  obtain ⟨numberedCalled, _, _, _⟩ := calls.grows numberedBegun
  have presentBegun : Present begun pIA.ref pIA.role := by
    rw [Present, begins.pInteractions]
    exact prepares.present numbered present
  -- the interaction is still there when the turn ends
  have listed := finishes.refs (observes.refs numberedCalled (calls.present numberedBegun presentBegun))
  exact prepares.edits.trans (begins.edits.trans (calls.edits.trans (observes.edits.trans
    (finishes.edits.trans (ends.edits listed)))))

/-! ## Packets and steps -/

theorem Receives.edits {pckt : NetPacket} {msg : CoapMessage} (receives : Receives env now pckt msg this after) :
    ListEdits this after := by
  cases receives with
  | answered _ placed => exact .silent placed.pInteractions placed.interactions
  | duplicate _ _ _ _ _ placed => exact .silent placed.pInteractions placed.interactions
  | admitted _ _ middle same started =>
    rw [started]
    exact same.edits.tail (.start _)
  | touched _ member touches _ placed =>
    have listed := List.mem_map_of_mem (f := CoapInteraction.ref) member
    rw [← touches.identity.1] at listed
    exact (ListEdit.store listed).places placed.pInteractions placed.interactions

/-- One step of the stack is a sequence of calls for its list. -/
theorem step_edits {event : Event} (reaches : Reaches env resources this) (taken : step env this event = some after) :
    ListEdits this after := by
  have holds := run_shaped reaches
  cases event with
  | packet pckt now =>
    cases taken
    rcases onNewPacketHandler_cases env this now pckt with unparsed | ⟨msg, _, receives⟩
    · exact unparsed.2.edits
    · have noted : ListEdits this (this.noted pckt msg) := .silent rfl rfl
      exact noted.trans receives.edits
  | doWork now =>
    cases list : this.pInteractions with
    | nil =>
      obtain rfl : this = after := Option.some.inj ((doWork_nil list).symm.trans taken)
      exact .refl
    | cons pIA rest =>
      have member : pIA ∈ this.pInteractions := list ▸ List.mem_cons_self
      exact (doWork_turn list (holds.interactions pIA member).staged taken).edits holds.numbered member
  | call request =>
    cases taken
    have calls : Calls env this.IsObserver this (this.call env request) :=
      call_calls (fun _ observer => observer) request
    exact calls.edits

end

end CoapServer

/-! ## In memory -/

open CoapServer (ListEdit ListEdits Reaches)

/-- Calls that get the memory for a new interaction from an allocator that knows what is in use. -/
def Mirrored.Obtains (place : List Nat → Nat) (this : Mirrored) (call : InteractionCall) : Prop :=
  this.Legal call ∧ ∀ newIA pIA, call = .start newIA pIA →
    newIA = place (this.server.pInteractions.map fun pIA => this.address pIA.ref)

/-- The list that is followed in memory is the one of the stack. -/
structure Mirrored.Follows (this : Mirrored) (server : CoapServer) : Prop where
  list : this.server.pInteractions = server.pInteractions
  interactions : this.server.interactions = server.interactions

section
variable {env : Env} {resources : List CoapResource} {place : List Nat → Nat} {start this : Mirrored}
  {server after : CoapServer}

/-- What a call does to the list that is followed. -/
theorem Mirrored.step_server {call : InteractionCall} {later : Mirrored} (taken : this.step call = some later) :
    later.server = call.on this.server := by
  cases call with
  | start newIA pIA =>
    obtain ⟨_, _, taken⟩ := Option.bind_eq_some_iff.mp taken
    cases taken
    rfl
  | delete ref =>
    obtain ⟨_, _, taken⟩ := Option.bind_eq_some_iff.mp taken
    cases taken
    rfl
  | enqueueLast pIA =>
    obtain ⟨_, _, taken⟩ := Option.bind_eq_some_iff.mp taken
    obtain ⟨_, _, taken⟩ := Option.bind_eq_some_iff.mp taken
    cases taken
    rfl
  | store pIA =>
    obtain ⟨_, _, taken⟩ := Option.bind_eq_some_iff.mp taken
    cases taken
    rfl

/-- A call on both sides. -/
theorem Mirrored.Sound.follow (sound : this.Sound) (run : Run Mirrored.step (Mirrored.Obtains place) start this)
    (call : InteractionCall) (permitted : this.Obtains place call)
    (list : (call.on this.server).pInteractions = after.pInteractions)
    (interactions : (call.on this.server).interactions = after.interactions) :
    ∃ later, Run Mirrored.step (Mirrored.Obtains place) start later ∧ later.Sound ∧ later.Follows after := by
  obtain ⟨later, taken, ordered⟩ := sound.step permitted.1
  have same := step_server taken
  exact ⟨later, run.next call permitted taken, ordered, same ▸ list, same ▸ interactions⟩

/-- What the stack does with its list is done in memory. -/
theorem ListEdit.followed (fresh : ∀ used, place used ∉ used) (edit : ListEdit server after) (sound : this.Sound)
    (run : Run Mirrored.step (Mirrored.Obtains place) start this) (follows : this.Follows server) :
    ∃ later, Run Mirrored.step (Mirrored.Obtains place) start later ∧ later.Sound ∧ later.Follows after := by
  obtain ⟨list, interactions⟩ := follows
  have known : ∀ {ref}, ref ∈ server.refs → ref ∈ this.server.pInteractions.map CoapInteraction.ref := by
    intro ref member
    rwa [list]
  cases edit with
  | silent same count => exact ⟨this, run, sound, list.trans same.symm, interactions.trans count.symm⟩
  | start pIA =>
    let used := this.server.pInteractions.map fun pIA => this.address pIA.ref
    have free : this.memory.heap (place used) = none := by
      by_contra allocated
      have member := sound.exact.2 _ allocated
      rw [List.map_map] at member
      exact fresh used member
    refine sound.follow run (.start (place used) pIA) ⟨free, fun newIA other same => ?_⟩ ?_ ?_
    · cases same
      rfl
    · simp only [InteractionCall.on, CoapServer.startInteraction, CoapServer.appendInteraction, list, interactions]
    · simp only [InteractionCall.on, CoapServer.startInteraction, CoapServer.appendInteraction, interactions]
  | @delete ref member =>
    refine sound.follow run (.delete ref) ⟨known member, fun _ _ same => by cases same⟩ ?_ interactions
    simp only [InteractionCall.on, CoapServer.deleteInteraction, list]
  | @enqueueLast pIA member =>
    refine sound.follow run (.enqueueLast pIA) ⟨known member, fun _ _ same => by cases same⟩ ?_ interactions
    simp only [InteractionCall.on, CoapServer.enqueueLastInteraction, CoapServer.deleteInteraction,
      CoapServer.appendInteraction, list]
  | @store pIA member =>
    refine sound.follow run (.store pIA) ⟨known member, fun _ _ same => by cases same⟩ ?_ interactions
    simp only [InteractionCall.on, CoapServer.storeInteraction, list]

theorem ListEdits.followed (fresh : ∀ used, place used ∉ used) (edits : ListEdits server after) (sound : this.Sound)
    (run : Run Mirrored.step (Mirrored.Obtains place) start this) (follows : this.Follows server) :
    ∃ later, Run Mirrored.step (Mirrored.Obtains place) start later ∧ later.Sound ∧ later.Follows after := by
  induction edits with
  | refl => exact ⟨this, run, sound, follows⟩
  | tail _ edit inductionHypothesis =>
    obtain ⟨middle, reached, ordered, beside⟩ := inductionHypothesis
    exact ListEdit.followed fresh edit ordered reached beside

theorem Reaches.followed (fresh : ∀ used, place used ∉ used) (reaches : Reaches env resources server) :
    ∃ this, Run Mirrored.step (Mirrored.Obtains place) (.initial resources id) this ∧ this.Sound ∧
      this.Follows server := by
  induction reaches with
  | refl => exact ⟨_, .refl, Mirrored.initial_sound resources id, rfl, rfl⟩
  | next before event _ taken inductionHypothesis =>
    obtain ⟨this, run, sound, follows⟩ := inductionHypothesis
    exact ListEdits.followed fresh (CoapServer.step_edits before taken) sound run follows

end

end SmingCoap.Server
