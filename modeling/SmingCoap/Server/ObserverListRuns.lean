import SmingCoap.Server.EngineLists
import SmingCoap.Server.RegistrySoundness
import SmingCoap.Transition.Runs

/-! # The lists of observers in memory

Each resource has a list of observers, which registrations append to and which
entries are taken out of by their key.  The functions on pointers keep to it: the
entry that is found first is unlinked and freed, and nothing is lost.  What the
stack does with the observers of a resource is a sequence of these two calls.
-/

namespace SmingCoap.Server

open LinkedList (Chained walk segment_append sum_fresh walk_stops walk_ends)
open Transition (Run)

/-- The first entry with the key is taken out and freed. -/
theorem ObserverMemory.removeObserverFromResource_spec {this : ObserverMemory} {nodes : List (Nat × CoapObserver)}
    (exact : this.Exact nodes) {fuel : Nat} (enough : nodes.length < fuel) (ifID : UInt8) (ep : NetEp) (token : UInt64) :
    ∃ after, this.removeObserverFromResource fuel ifID ep token =
        some (if nodes.any fun node => node.2.matches ifID ep token then .removed else .errNotFound, after) ∧
      after.Exact (nodes.eraseP fun node => node.2.matches ifID ep token) := by
  by_cases found : ∃ node ∈ nodes, node.2.matches ifID ep token = true
  · obtain ⟨node, member, key⟩ := found
    have any : (nodes.any fun node => node.2.matches ifID ep token) = true := List.any_eq_true.mpr ⟨node, member, key⟩
    obtain ⟨⟨pObserver, observer⟩, front, behind, others, key, rfl, erased⟩ := List.exists_of_eraseP member
      (p := fun node => node.2.matches ifID ep token) key
    have short : front.length < fuel := by
      rw [List.length_append] at enough
      omega
    obtain ⟨middle, passed, start, next, here, _⟩ := segment_append.mp exact.1
    obtain ⟨after, unlinked, exact⟩ := exact.unlink short
    subst start
    have walked : walk this.heap (fun node => ! node.entry.matches ifID ep token) fuel this.start =
        some (some pObserver) :=
      walk_stops passed (fun node member next _ => by simpa using others node member) here (by simpa using key) short
    refine ⟨after, ?_, erased ▸ exact⟩
    simp only [removeObserverFromResource, walked, unlinkObserverFromList, unlinked, any, Option.bind_eq_bind,
      Option.bind_some, Option.map_some, if_true]
  · have others : ∀ node ∈ nodes, ¬ node.2.matches ifID ep token = true :=
      fun node member key => found ⟨node, member, key⟩
    have walked : walk this.heap (fun node => ! node.entry.matches ifID ep token) fuel this.start = some none :=
      walk_ends exact.1 (fun node member next _ => by simpa using others node member) enough
    have any : (nodes.any fun node => node.2.matches ifID ep token) = false := List.any_eq_false.mpr others
    refine ⟨this, ?_, by rwa [List.eraseP_of_forall_not others]⟩
    simp only [removeObserverFromResource, walked, any, Option.bind_eq_bind, Option.bind_some, Bool.false_eq_true,
      if_false]

theorem ObserverMemory.addObserver_spec {this : ObserverMemory} {nodes : List (Nat × CoapObserver)}
    (exact : this.Exact nodes) {fuel newObserver : Nat} (enough : nodes.length < fuel)
    (fresh : this.heap newObserver = none) (observer : CoapObserver) :
    ∃ after, this.addObserver fuel newObserver observer = some (.ok, after) ∧
      after.Exact (nodes ++ [(newObserver, observer)]) := by
  obtain ⟨after, appended, exact⟩ := exact.append fresh observer enough
  refine ⟨after, ?_, exact⟩
  simp only [addObserver, appendObserverToList, appended, Option.map_some]

/-! ## Calls -/

/-- The list of observers in memory beside its nodes. -/
structure ObserverList where
  memory : ObserverMemory
  nodes : List (Nat × CoapObserver)

inductive ObserverCall where
  /-- A new observer, in the memory that was obtained for it. -/
  | add (newObserver : Nat) (observer : CoapObserver)
  | remove (ifID : UInt8) (ep : NetEp) (token : UInt64)

namespace ObserverList

/-- As many turns as the loops may take. -/
def turns (this : ObserverList) : Nat := this.nodes.length + 1

def step (this : ObserverList) : ObserverCall → Option ObserverList
  | .add newObserver observer => do
    let (_, memory) ← this.memory.addObserver this.turns newObserver observer
    some ⟨memory, this.nodes ++ [(newObserver, observer)]⟩
  | .remove ifID ep token => do
    let (_, memory) ← this.memory.removeObserverFromResource this.turns ifID ep token
    some ⟨memory, this.nodes.eraseP fun node => node.2.matches ifID ep token⟩

/-- Memory that is obtained was free. -/
def Legal (this : ObserverList) : ObserverCall → Prop
  | .add newObserver _ => this.memory.heap newObserver = none
  | .remove .. => True

def initial : ObserverList := ⟨.empty, []⟩

theorem step_exact {this : ObserverList} (exact : this.memory.Exact this.nodes) {call : ObserverCall}
    (legal : this.Legal call) : ∃ after, this.step call = some after ∧ after.memory.Exact after.nodes := by
  have enough : this.nodes.length < this.turns := Nat.lt_succ_self _
  cases call with
  | add newObserver observer =>
    obtain ⟨memory, added, exact⟩ := ObserverMemory.addObserver_spec exact enough legal observer
    exact ⟨_, Option.bind_eq_some_iff.mpr ⟨_, added, rfl⟩, exact⟩
  | remove ifID ep token =>
    obtain ⟨memory, removed, exact⟩ := ObserverMemory.removeObserverFromResource_spec exact enough ifID ep token
    exact ⟨_, Option.bind_eq_some_iff.mpr ⟨_, removed, rfl⟩, exact⟩

theorem run_exact {this : ObserverList} {allowed : ObserverList → ObserverCall → Prop}
    (legal : ∀ before call, allowed before call → before.Legal call) (run : Run step allowed initial this) :
    this.memory.Exact this.nodes := by
  apply Run.invariant _ _ run
  · exact Chained.empty_exact
  · intro before call after exact permitted taken
    obtain ⟨reached, result, kept⟩ := step_exact exact (legal before call permitted)
    cases taken.symm.trans result
    exact kept

end ObserverList

/-- Whatever is added and removed and wherever new observers are allocated, each call comes through and the nodes in
memory are the observers that were added and not removed since, and nothing else is left allocated. -/
theorem observer_calls_exact {this : ObserverList} (run : Run ObserverList.step ObserverList.Legal .initial this) :
    this.memory.Exact this.nodes ∧ (∀ call, this.Legal call → ∃ after, this.step call = some after) ∧
    ∀ ifID ep token, (this.memory.removeObserverFromResource this.turns ifID ep token).map Prod.fst =
      some (if this.nodes.any fun node => node.2.matches ifID ep token then .removed else .errNotFound) := by
  have exact := ObserverList.run_exact (fun _ _ legal => legal) run
  refine ⟨exact, fun call legal => ?_, fun ifID ep token => ?_⟩
  · obtain ⟨after, taken, _⟩ := ObserverList.step_exact exact legal
    exact ⟨after, taken⟩
  · obtain ⟨after, removed, _⟩ :=
      ObserverMemory.removeObserverFromResource_spec exact (Nat.lt_succ_self _) ifID ep token
    rw [ObserverList.turns, removed, Option.map_some]

/-- The first of two observers goes. -/
theorem observer_calls_two : ∃ this : ObserverList, this.nodes.map Prod.fst = [200] ∧ this.memory.Exact this.nodes := by
  let observer (token : UInt64) : CoapObserver :=
    ⟨0, CoapServer.neighbour, 0, token, [], CoapServer.datagram 0 CoapServer.observeSensor⟩
  have called : ∃ this, Run ObserverList.step ObserverList.Legal .initial this ∧ this.nodes.map Prod.fst = [200] :=
    ⟨_, .next (.next (.next .refl (.add 100 (observer 7)) rfl rfl) (.add 200 (observer 8)) rfl rfl)
      (.remove 0 CoapServer.neighbour 7) trivial rfl, rfl⟩
  obtain ⟨this, run, nodes⟩ := called
  exact ⟨this, nodes, (observer_calls_exact run).1⟩

/-! ## The observers of a resource -/

/-- Calls that get the memory for a new observer from an allocator that knows what is in use. -/
def ObserverList.Obtains (place : List Nat → Nat) (this : ObserverList) (call : ObserverCall) : Prop :=
  this.Legal call ∧ ∀ newObserver observer, call = .add newObserver observer →
    newObserver = place (this.nodes.map Prod.fst)

/-- Calls lead to a list in memory that has these observers. -/
def Linked (place : List Nat → Nat) (resource : CoapResource) : Prop :=
  ∃ this, Run ObserverList.step (ObserverList.Obtains place) .initial this ∧ this.memory.Exact this.nodes ∧
    this.nodes.map Prod.snd = resource.observers

theorem Linked.remove {place : List Nat → Nat} {resource : CoapResource} (linked : Linked place resource) (ifID : UInt8)
    (ep : NetEp) (token : UInt64) : Linked place (resource.removeObserver ifID ep token) := by
  obtain ⟨this, run, exact, observers⟩ := linked
  have permitted : this.Obtains place (.remove ifID ep token) := ⟨trivial, fun _ _ same => by cases same⟩
  obtain ⟨after, taken, kept⟩ := ObserverList.step_exact exact permitted.1
  refine ⟨after, run.next _ permitted taken, kept, ?_⟩
  obtain ⟨_, _, taken⟩ := Option.bind_eq_some_iff.mp taken
  cases taken
  rw [CoapResource.removeObserver, ← observers, List.eraseP_map]
  rfl

theorem Linked.append {place : List Nat → Nat} (fresh : ∀ used, place used ∉ used) {resource : CoapResource}
    (linked : Linked place resource) (observer : CoapObserver) : Linked place (resource.appendObserver observer) := by
  obtain ⟨this, run, exact, observers⟩ := linked
  have free : this.memory.heap (place (this.nodes.map Prod.fst)) = none := by
    by_contra allocated
    exact fresh _ (exact.2 _ allocated)
  have permitted : this.Obtains place (.add (place (this.nodes.map Prod.fst)) observer) := by
    refine ⟨free, fun newObserver other same => ?_⟩
    cases same
    rfl
  obtain ⟨after, taken, kept⟩ := ObserverList.step_exact exact permitted.1
  refine ⟨after, run.next _ permitted taken, kept, ?_⟩
  obtain ⟨_, _, taken⟩ := Option.bind_eq_some_iff.mp taken
  cases taken
  rw [CoapResource.appendObserver, ← observers, List.map_append]
  rfl

theorem linked_stable {place : List Nat → Nat} (fresh : ∀ used, place used ∉ used) :
    CoapServer.ResourceStable (Linked place) where
  fresh := fun _ => ⟨_, .refl, Chained.empty_exact, rfl⟩
  removed := fun ifID ep token linked => linked.remove ifID ep token
  updated := fun _ linked => linked
  registered := fun linked _ => (linked.remove _ _ _).append fresh _

end SmingCoap.Server
