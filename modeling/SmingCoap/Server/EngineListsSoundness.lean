import SmingCoap.Server.EngineLists
import SmingCoap.Server.Invariants
import SmingCoap.Transition.Runs

/-! # The list of interactions in memory

The engine is modelled with a list of interactions.  Here it is shown that the
nodes and pointers of the source hold this list: whatever the engine adds, takes
out, moves to the end and writes to, in any order and wherever new nodes are
allocated, the functions on pointers come through, the nodes in memory are those
of the list, and nothing else is allocated.
-/

namespace SmingCoap.Server

open LinkedList (Chained)
open Transition (Run)

/-- The list in memory beside the one of the engine, and where the interactions lie. -/
structure Mirrored where
  memory : InteractionMemory
  server : CoapServer
  address : Nat → Nat

/-- What the engine does with the list. -/
inductive InteractionCall where
  /-- A new interaction, in the memory that was obtained for it. -/
  | start (newIA : Nat) (pIA : CoapInteraction)
  | delete (ref : Nat)
  | enqueueLast (pIA : CoapInteraction)
  | store (pIA : CoapInteraction)

/-- What the engine takes a call for. -/
def InteractionCall.on (server : CoapServer) : InteractionCall → CoapServer
  | .start _ pIA => server.startInteraction pIA
  | .delete ref => server.deleteInteraction ref
  | .enqueueLast pIA => server.enqueueLastInteraction pIA
  | .store pIA => server.storeInteraction pIA

namespace Mirrored

/-- Where an interaction lies, and what its node holds. -/
def node (this : Mirrored) (pIA : CoapInteraction) : Nat × CoapInteraction := (this.address pIA.ref, pIA)

/-- As many turns as the loops may take. -/
def turns (this : Mirrored) : Nat := this.server.pInteractions.length + 2

/-- The functions of the source, beside what the engine takes them for. -/
def step (this : Mirrored) : InteractionCall → Option Mirrored
  | .start newIA pIA => do
    let ref := this.server.interactions
    let (_, memory) ← this.memory.startInteraction this.turns newIA { pIA with ref }
    some { memory, server := this.server.startInteraction pIA, address := Function.update this.address ref newIA }
  | .delete ref => do
    let (_, memory) ← this.memory.deleteInteraction this.turns (this.address ref)
    some { this with memory, server := this.server.deleteInteraction ref }
  | .enqueueLast pIA => do
    let memory ← this.memory.write (this.address pIA.ref) pIA
    let (_, memory) ← InteractionMemory.enqueueLastInteraction memory this.turns (this.address pIA.ref)
    some { this with memory, server := this.server.enqueueLastInteraction pIA }
  | .store pIA => do
    let memory ← this.memory.write (this.address pIA.ref) pIA
    some { this with memory, server := this.server.storeInteraction pIA }

/-- Memory that is obtained was free, and the engine only holds interactions of the list. -/
def Legal (this : Mirrored) : InteractionCall → Prop
  | .start newIA _ => this.memory.heap newIA = none
  | .delete ref => ref ∈ this.server.pInteractions.map CoapInteraction.ref
  | .enqueueLast pIA => pIA.ref ∈ this.server.pInteractions.map CoapInteraction.ref
  | .store pIA => pIA.ref ∈ this.server.pInteractions.map CoapInteraction.ref

structure Sound (this : Mirrored) : Prop where
  exact : this.memory.Exact (this.server.pInteractions.map this.node)
  nodup : (this.server.pInteractions.map CoapInteraction.ref).Nodup
  listed : ∀ pIA ∈ this.server.pInteractions, pIA.ref < this.server.interactions

variable {this : Mirrored} {front behind : List CoapInteraction} {found pIA : CoapInteraction}

/-- An interaction of the list, those in front of it and those behind it. -/
theorem Sound.split (sound : this.Sound) {ref : Nat}
    (member : ref ∈ this.server.pInteractions.map CoapInteraction.ref) :
    ∃ front found behind, this.server.pInteractions = front ++ found :: behind ∧ found.ref = ref ∧
      (∀ other ∈ front ++ behind, other.ref ≠ ref) ∧
      (this.server.pInteractions.eraseP fun pIA => pIA.ref = ref) = front ++ behind := by
  obtain ⟨pIA, known, rfl⟩ := List.mem_map.mp member
  have nodup := sound.nodup
  obtain ⟨found, front, behind, before, same, parts, erased⟩ := List.exists_of_eraseP known
    (p := fun other => other.ref = pIA.ref) (decide_eq_true rfl)
  have same : found.ref = pIA.ref := of_decide_eq_true same
  rw [parts, List.map_append, List.map_cons, List.nodup_middle, List.nodup_cons, ← List.map_append, same] at nodup
  refine ⟨front, found, behind, parts, same, fun other listed equal => nodup.1 ?_, erased⟩
  exact List.mem_map.mpr ⟨other, listed, equal⟩

/-- The list in memory around one of its nodes. -/
theorem Sound.around (sound : this.Sound) (parts : this.server.pInteractions = front ++ found :: behind) :
    this.memory.Exact (front.map this.node ++ (this.address found.ref, found) :: behind.map this.node) := by
  have exact := sound.exact
  rwa [parts, List.map_append, List.map_cons] at exact

theorem Sound.start (sound : this.Sound) {newIA : Nat} (legal : this.Legal (.start newIA pIA)) :
    ∃ after, this.step (.start newIA pIA) = some after ∧ after.Sound := by
  have enough : (this.server.pInteractions.map this.node).length < this.turns := by
    rw [List.length_map, turns]
    omega
  obtain ⟨memory, result, exact⟩ := sound.exact.append legal { pIA with ref := this.server.interactions } enough
  have unused : ∀ other ∈ this.server.pInteractions, other.ref ≠ this.server.interactions :=
    fun other member => Nat.ne_of_lt (sound.listed other member)
  refine ⟨⟨memory, this.server.startInteraction pIA, Function.update this.address this.server.interactions newIA⟩,
    ?_, ?_, ?_, ?_⟩
  · simp only [step, InteractionMemory.startInteraction, InteractionMemory.appendInteractionToList, result, Option.map_some,
      Option.bind_eq_bind, Option.bind_some]
  · have here : Function.update this.address this.server.interactions newIA this.server.interactions = newIA :=
      Function.update_self ..
    have kept : this.server.pInteractions.map this.node = this.server.pInteractions.map fun other =>
        (Function.update this.address this.server.interactions newIA other.ref, other) := by
      refine List.map_congr_left fun other member => ?_
      exact congrArg (Prod.mk · other) (Function.update_of_ne (unused other member) newIA this.address).symm
    rw [kept] at exact
    rw [CoapServer.startInteraction, CoapServer.appendInteraction, List.map_append, List.map_cons, List.map_nil]
    simp only [node, here]
    exact exact
  · simp only [CoapServer.startInteraction, CoapServer.appendInteraction, List.map_append, List.map_cons, List.map_nil]
    rw [List.nodup_append]
    refine ⟨sound.nodup, List.nodup_singleton _, fun ref member other last same => ?_⟩
    obtain ⟨pIA, known, rfl⟩ := List.mem_map.mp member
    exact unused pIA known (same.trans (List.mem_singleton.mp last))
  · intro other member
    rcases List.mem_append.mp member with known | new
    · exact Nat.lt_succ_of_lt (sound.listed other known)
    · rw [List.mem_singleton.mp new]
      exact Nat.lt_succ_self _

/-- Where the refs of the list are among those before, it is in order. -/
theorem Sound.rearranged (sound : this.Sound) {memory : InteractionMemory} {server : CoapServer}
    (interactions : server.interactions = this.server.interactions)
    (exact : memory.Exact (server.pInteractions.map this.node))
    (refs : ∃ left, (server.pInteractions.map CoapInteraction.ref ++ left).Perm
      (this.server.pInteractions.map CoapInteraction.ref)) :
    Mirrored.Sound { this with memory, server } := by
  obtain ⟨left, perm⟩ := refs
  have nodup := perm.nodup_iff.mpr sound.nodup
  refine ⟨exact, (List.nodup_append.mp nodup).1, fun pIA member => ?_⟩
  have among := perm.subset (List.mem_append_left _ (List.mem_map_of_mem member))
  obtain ⟨other, known, same⟩ := List.mem_map.mp among
  simp only [interactions]
  rw [← same]
  exact sound.listed other known

theorem Sound.delete (sound : this.Sound) {ref : Nat} (legal : this.Legal (.delete ref)) :
    ∃ after, this.step (.delete ref) = some after ∧ after.Sound := by
  obtain ⟨front, found, behind, parts, rfl, others, erased⟩ := sound.split legal
  have enough : (front.map this.node).length < this.turns := by
    rw [List.length_map, turns, parts, List.length_append]
    omega
  obtain ⟨memory, result, exact⟩ := (sound.around parts).unlink enough
  refine ⟨{ this with memory, server := this.server.deleteInteraction found.ref }, ?_,
    sound.rearranged rfl ?_ ⟨[found.ref], ?_⟩⟩
  · simp only [step, InteractionMemory.deleteInteraction, InteractionMemory.unlinkInteractionFromList, result,
      Option.map_some, Option.bind_eq_bind, Option.bind_some]
  · rw [CoapServer.deleteInteraction, erased, List.map_append]
    exact exact
  · rw [CoapServer.deleteInteraction, erased, parts, List.map_append, List.map_append, List.map_cons]
    exact (List.perm_append_singleton _ _).trans List.perm_middle.symm

theorem Sound.enqueueLast (sound : this.Sound) (legal : this.Legal (.enqueueLast pIA)) :
    ∃ after, this.step (.enqueueLast pIA) = some after ∧ after.Sound := by
  obtain ⟨front, found, behind, parts, same, others, erased⟩ := sound.split legal
  have enough : (front.map this.node).length + (behind.map this.node).length + 1 < this.turns := by
    rw [List.length_map, List.length_map, turns, parts, List.length_append, List.length_cons]
    omega
  have around := sound.around parts
  rw [same] at around
  obtain ⟨written, wrote, holds⟩ := around.write pIA
  obtain ⟨memory, moved, exact⟩ := holds.moveToEnd enough
  refine ⟨{ this with memory, server := this.server.enqueueLastInteraction pIA }, ?_, sound.rearranged rfl ?_ ⟨[], ?_⟩⟩
  · simp only [step, wrote, InteractionMemory.enqueueLastInteraction, InteractionMemory.moveInteractionToListEnd, moved,
      Option.map_some, Option.bind_eq_bind, Option.bind_some]
  · rw [CoapServer.enqueueLastInteraction, CoapServer.deleteInteraction, CoapServer.appendInteraction, erased,
      List.map_append, List.map_append]
    exact exact
  · rw [CoapServer.enqueueLastInteraction, CoapServer.deleteInteraction, CoapServer.appendInteraction, erased, parts,
      List.append_nil, List.map_append, List.map_append, List.map_append, List.map_cons, List.map_cons, List.map_nil, same]
    exact (List.perm_append_singleton _ _).trans List.perm_middle.symm

theorem Sound.store (sound : this.Sound) (legal : this.Legal (.store pIA)) :
    ∃ after, this.step (.store pIA) = some after ∧ after.Sound := by
  obtain ⟨front, found, behind, parts, same, others, erased⟩ := sound.split legal
  have around := sound.around parts
  rw [same] at around
  obtain ⟨memory, wrote, exact⟩ := around.write pIA
  have kept : ∀ list : List CoapInteraction, (∀ other ∈ list, other.ref ≠ pIA.ref) →
      list.map (fun other => if other.ref = pIA.ref then pIA else other) = list := by
    intro list different
    conv_rhs => rw [← List.map_id list]
    exact List.map_congr_left fun other member => if_neg (different other member)
  have replaced : (this.server.storeInteraction pIA).pInteractions = front ++ pIA :: behind := by
    rw [CoapServer.storeInteraction, parts, List.map_append, List.map_cons, if_pos same,
      kept front fun other member => others other (List.mem_append_left _ member),
      kept behind fun other member => others other (List.mem_append_right _ member)]
  refine ⟨{ this with memory, server := this.server.storeInteraction pIA }, ?_, sound.rearranged rfl ?_ ⟨[], ?_⟩⟩
  · simp only [step, wrote, Option.bind_eq_bind, Option.bind_some]
  · rw [replaced, List.map_append, List.map_cons]
    exact exact
  · rw [replaced, parts, List.append_nil, List.map_append, List.map_append, List.map_cons, List.map_cons, same]

/-- Each call goes through. -/
theorem Sound.step (sound : this.Sound) {call : InteractionCall} (legal : this.Legal call) :
    ∃ after, this.step call = some after ∧ after.Sound := by
  cases call with
  | start newIA pIA => exact sound.start legal
  | delete ref => exact sound.delete legal
  | enqueueLast pIA => exact sound.enqueueLast legal
  | store pIA => exact sound.store legal

/-- Nothing is allocated at first. -/
def initial (resources : List CoapResource) (address : Nat → Nat) : Mirrored :=
  ⟨.empty, CoapServer.new resources, address⟩

theorem initial_sound (resources : List CoapResource) (address : Nat → Nat) : (initial resources address).Sound where
  exact := Chained.empty_exact
  nodup := List.nodup_nil
  listed := fun _ member => absurd member List.not_mem_nil

/-- The interaction that waits longest is the first of the list. -/
theorem Sound.longest (sound : this.Sound) : this.memory.getLongestPendingInteraction =
    this.server.pInteractions.head?.map fun pIA => this.address pIA.ref := by
  obtain ⟨lists, _⟩ := sound.exact
  cases list : this.server.pInteractions with
  | nil =>
    rw [list] at lists
    exact lists
  | cons pIA rest =>
    rw [list] at lists
    exact lists.1

/-- No two interactions lie at the same address. -/
theorem Sound.addresses_nodup (sound : this.Sound) :
    (this.server.pInteractions.map fun pIA => this.address pIA.ref).Nodup := by
  have nodup := sound.exact.1.nodup
  rwa [List.map_map] at nodup

theorem Sound.run {allowed : Mirrored → InteractionCall → Prop} {resources : List CoapResource} {address : Nat → Nat}
    (legal : ∀ before call, allowed before call → before.Legal call)
    (run : Run Mirrored.step allowed (initial resources address) this) : this.Sound := by
  refine run.invariant (initial_sound resources address) fun before call after sound permitted taken => ?_
  obtain ⟨reached, result, ordered⟩ := sound.step (legal before call permitted)
  cases taken.symm.trans result
  exact ordered

end Mirrored

/-- Whatever is done with the list and wherever new interactions are allocated, each call comes through; the nodes in
memory are the interactions of the list in their order, each with its fields, and nothing else is left allocated. -/
theorem interaction_calls_exact {resources : List CoapResource} {address : Nat → Nat} {this : Mirrored}
    (run : Run Mirrored.step Mirrored.Legal (Mirrored.initial resources address) this) :
    this.memory.Exact (this.server.pInteractions.map this.node) ∧
    this.memory.getLongestPendingInteraction = this.server.pInteractions.head?.map (fun pIA => this.address pIA.ref) ∧
    ∀ call, this.Legal call → ∃ after, this.step call = some after := by
  have sound := Mirrored.Sound.run (fun _ _ legal => legal) run
  refine ⟨sound.exact, sound.longest, fun call legal => ?_⟩
  obtain ⟨after, taken, _⟩ := sound.step legal
  exact ⟨after, taken⟩

/-- The first of two interactions goes to the end. -/
theorem interaction_calls_two : ∃ this : Mirrored, this.memory.getLongestPendingInteraction = some 200 ∧
    this.server.pInteractions.map CoapInteraction.ref = [1, 0] ∧
    this.memory.Exact (this.server.pInteractions.map this.node) := by
  let pIA : CoapInteraction := .requesting coapInitToEmptyResetMsg 0 CoapServer.neighbour false
  have first : ∃ this, Run Mirrored.step Mirrored.Legal (.initial [] id) this ∧
      this.server.pInteractions.map CoapInteraction.ref = [1, 0] ∧ this.address 1 = 200 :=
    ⟨_, .next (.next (.next .refl (.start 100 pIA) rfl rfl) (.start 200 pIA) rfl rfl) (.enqueueLast pIA)
      List.mem_cons_self rfl, rfl, rfl⟩
  obtain ⟨this, run, refs, place⟩ := first
  obtain ⟨exact, longest, _⟩ := interaction_calls_exact run
  refine ⟨this, ?_, refs, exact⟩
  obtain ⟨pIA, rest, list⟩ := List.exists_cons_of_ne_nil fun empty : this.server.pInteractions = [] => by
    rw [empty] at refs
    cases refs
  rw [list, List.map_cons, List.cons.injEq] at refs
  rw [longest, list, List.head?_cons, Option.map_some, refs.1, place]

end SmingCoap.Server
