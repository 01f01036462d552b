import Mathlib.Data.List.Perm.Subperm
import SmingCoap.Server.Sockets
import SmingCoap.Transition.Runs

/-! # The table of sockets over its calls

A socket is live from the call that creates it to the call that deletes it.  No
function clears `Alive` again, so that a socket stays in use when it is deleted:
the table keeps its law exactly as long as no socket is.
-/

namespace SmingCoap.Server

open Transition (Along Run)

/-- A call with its arguments. -/
inductive SocketCall where
  | create (ifID : UInt8) (conn : Option Espconn) (localPort : UInt16) (callback sendPacket : Option Nat)
  | delete (ifID : UInt8)

/-- The table, and the places of the sockets that are live. -/
structure SocketTable where
  ctrl : SocketCtrl
  live : List (Fin maxActiveSockets)

namespace SocketTable

def initial : SocketTable := ⟨.initial, []⟩

/-- What a call of `CoAP_ESP8266_CreateInterfaceSocket` returns and leaves, when its connection can be created. -/
def created (this : SocketTable) (ifID : UInt8) (conn : Option Espconn) (localPort : UInt16)
    (callback sendPacket : Option Nat) : Option (Fin maxActiveSockets) × SocketCtrl :=
  this.ctrl.createInterfaceSocket (fun _ => true) ifID conn localPort callback sendPacket

/-- One call, with the places that are live behind it. -/
def call (this : SocketTable) : SocketCall → SocketTable
  | .create ifID conn localPort callback sendPacket =>
    let result := this.created ifID conn localPort callback sendPacket
    ⟨result.2, match result.1 with
      | some i => i :: this.live
      | none => this.live⟩
  | .delete ifID =>
    let result := this.ctrl.deleteInterfaceSocket ifID
    ⟨result.2, if result.1 then this.live.filter fun i => (this.ctrl.socketMemory i).ifID ≠ ifID else this.live⟩

def step (this : SocketTable) (event : SocketCall) : Option SocketTable := some (this.call event)

/-! ## The law of the table -/

/-- No two live sockets have the same interface id. -/
def Distinct (this : SocketTable) : Prop :=
  ∀ i ∈ this.live, ∀ j ∈ this.live, (this.ctrl.socketMemory i).ifID = (this.ctrl.socketMemory j).ifID → i = j

/-- What a call has to do: a create with a connection and both functions gets a socket for an unused interface id while
there is room, and behind a delete the socket is not found, and free for `AllocSocket`. -/
def Serves (this : SocketTable) : SocketCall → Prop
  | .create ifID conn localPort callback sendPacket =>
    conn ≠ none → callback ≠ none → sendPacket ≠ none →
      (∀ i ∈ this.live, (this.ctrl.socketMemory i).ifID ≠ ifID) → this.live.length < maxActiveSockets →
        (this.created ifID conn localPort callback sendPacket).1 ≠ none
  | .delete ifID => ∀ i, this.ctrl.retrieveSocket2 ifID = some i → (this.ctrl.deleteInterfaceSocket ifID).1 = true →
      (this.ctrl.deleteInterfaceSocket ifID).2.retrieveSocket2 ifID = none ∧
        ((this.ctrl.deleteInterfaceSocket ifID).2.socketMemory i).alive = false

/-- A call does what it has to do and leaves no two live sockets with one interface id. -/
def Lawful (this : SocketTable) (event : SocketCall) : Prop :=
  this.Serves event ∧ (this.call event).Distinct

/-- The call deletes no socket. -/
def Misses (this : SocketTable) (event : SocketCall) : Prop :=
  ∀ ifID, event = .delete ifID → this.ctrl.retrieveSocket2 ifID = none

end SocketTable

/-! ## One call -/

namespace SocketCtrl

/-- Before the first allocation nothing is in use. -/
def Fresh (this : SocketCtrl) : Prop := this.initDone = false → ∀ i, (this.socketMemory i).alive = false

theorem search_none {this : SocketCtrl} {test : NetSocket → Bool} (missing : this.search test = none)
    (i : Fin maxActiveSockets) : test (this.socketMemory i) = false := by
  simpa using List.find?_eq_none.mp missing i (List.mem_finRange i)

theorem search_some {this : SocketCtrl} {test : NetSocket → Bool} {i : Fin maxActiveSockets}
    (found : this.search test = some i) : test (this.socketMemory i) = true := by
  simpa using List.find?_some found

/-- The interface id is that of no socket in use exactly when the search fails. -/
theorem retrieveSocket2_none {this : SocketCtrl} {ifID : UInt8} : this.retrieveSocket2 ifID = none ↔
    ∀ i, (this.socketMemory i).alive = true → (this.socketMemory i).ifID ≠ ifID := by
  constructor
  · intro missing i alive same
    have test := search_none missing i
    simp [alive, same] at test
  · intro unused
    rw [retrieveSocket2, search, List.find?_eq_none]
    intro i _ found
    simp only [Bool.and_eq_true, decide_eq_true_eq] at found
    exact unused i found.1 found.2

theorem retrieveSocket2_some {this : SocketCtrl} {ifID : UInt8} {i : Fin maxActiveSockets}
    (found : this.retrieveSocket2 ifID = some i) :
    (this.socketMemory i).alive = true ∧ (this.socketMemory i).ifID = ifID := by
  simpa using search_some found

/-- What a create does to the flags and the interface ids. -/
inductive Creates (this : SocketCtrl) (ifID : UInt8) (conn : Option Espconn) (callback sendPacket : Option Nat) :
    Option (Fin maxActiveSockets) × SocketCtrl → Prop
  | refused {after : SocketCtrl} (same : ∀ j, (after.socketMemory j).alive = (this.socketMemory j).alive ∧
        (after.socketMemory j).ifID = (this.socketMemory j).ifID) (fresh : after.Fresh)
      (reason : conn = none ∨ callback = none ∨ sendPacket = none ∨ this.retrieveSocket2 ifID ≠ none ∨
        ∀ j, (this.socketMemory j).alive = true) : Creates this ifID conn callback sendPacket (none, after)
  | opened (i : Fin maxActiveSockets) {after : SocketCtrl} (free : (this.socketMemory i).alive = false)
      (unused : this.retrieveSocket2 ifID = none) (fresh : after.Fresh)
      (own : (after.socketMemory i).alive = true ∧ (after.socketMemory i).ifID = ifID)
      (others : ∀ j, j ≠ i → (after.socketMemory j).alive = (this.socketMemory j).alive ∧
        (after.socketMemory j).ifID = (this.socketMemory j).ifID) :
      Creates this ifID conn callback sendPacket (some i, after)

/-- The first free socket is allocated, and the flags stay as they are. -/
theorem allocSocket_spec {this : SocketCtrl} (fresh : this.Fresh) :
    this.allocSocket.2.initDone = true ∧
      (∀ j, (this.allocSocket.2.socketMemory j).alive = (this.socketMemory j).alive ∧
        (this.allocSocket.2.socketMemory j).ifID = (this.socketMemory j).ifID) ∧
      (∀ i, this.allocSocket.1 = some i → (this.socketMemory i).alive = false) ∧
      (this.allocSocket.1 = none → ∀ j, (this.socketMemory j).alive = true) := by
  have same : ∀ j, (this.allocSocket.2.socketMemory j).alive = (this.socketMemory j).alive ∧
      (this.allocSocket.2.socketMemory j).ifID = (this.socketMemory j).ifID := by
    intro j
    simp only [allocSocket]
    split
    next => exact ⟨rfl, rfl⟩
    next first => exact ⟨(fresh (Bool.eq_false_iff.mpr first) j).symm, rfl⟩
  have searched : this.allocSocket.1 = this.allocSocket.2.search fun socket => socket.alive = false := rfl
  rw [searched]
  refine ⟨?_, same, ?_, ?_⟩
  · simp only [allocSocket]
    split
    next done => exact done
    next => rfl
  · intro i found
    have test := search_some found
    rw [← (same i).1]
    simpa using test
  · intro missing j
    have test := search_none missing j
    rw [← (same j).1]
    simpa using test

theorem createInterfaceSocket_creates {this : SocketCtrl} (fresh : this.Fresh) (ifID : UInt8) (conn : Option Espconn)
    (localPort : UInt16) (callback sendPacket : Option Nat) : Creates this ifID conn callback sendPacket
      (this.createInterfaceSocket (fun _ => true) ifID conn localPort callback sendPacket) := by
  have stays : ∀ j, (this.socketMemory j).alive = (this.socketMemory j).alive ∧
      (this.socketMemory j).ifID = (this.socketMemory j).ifID := fun _ => ⟨rfl, rfl⟩
  unfold createInterfaceSocket
  split
  next => exact .refused stays fresh (.inl rfl)
  next conn =>
    split
    next used => exact .refused stays fresh (.inr (.inr (.inr (.inl used))))
    next unused =>
      split
      next missing =>
        exact .refused stays fresh (.inr (missing.elim .inl fun noSend => .inr (.inl noSend)))
      next =>
        obtain ⟨done, same, free, full⟩ := allocSocket_spec fresh
        split
        next after failed =>
          rw [failed] at same done full
          exact .refused same (fun notDone => absurd (done.symm.trans notDone) (by decide))
            (.inr (.inr (.inr (.inr (full rfl)))))
        next i after allocated =>
          rw [allocated] at same done free
          apply Creates.opened i (free i rfl) (Decidable.not_not.mp unused)
          · exact fun notDone => absurd (done.symm.trans notDone) (by decide)
          · simp [modify]
          · intro j apart
            simpa [modify, apart] using same j

end SocketCtrl

/-! ## All sequences of calls -/

namespace SocketTable

/-- While no socket was deleted the flags say which ones are live. -/
structure Consistent (this : SocketTable) : Prop where
  fresh : this.ctrl.Fresh
  alive : ∀ i, i ∈ this.live ↔ (this.ctrl.socketMemory i).alive = true
  nodup : this.live.Nodup
  distinct : this.Distinct

section
variable {this after : SocketTable}

theorem initial_consistent : initial.Consistent where
  fresh := fun _ _ => rfl
  alive := by simp [initial, SocketCtrl.initial]
  nodup := List.nodup_nil
  distinct := nofun

/-- A live socket that is not in the table's list is free. -/
theorem Consistent.room (consistent : this.Consistent) (few : this.live.length < maxActiveSockets) :
    ¬ ∀ j, (this.ctrl.socketMemory j).alive = true := by
  intro full
  have all : List.finRange maxActiveSockets ⊆ this.live := fun j _ => (consistent.alive j).mpr (full j)
  have many := ((List.nodup_finRange maxActiveSockets).subperm all).length_le
  rw [List.length_finRange] at many
  exact absurd many (Nat.not_le.mpr few)

theorem Consistent.distinct_of_alive {live : List (Fin maxActiveSockets)} {ctrl : SocketCtrl}
    (consistent : this.Consistent) (same : ∀ j, (ctrl.socketMemory j).alive = (this.ctrl.socketMemory j).alive ∧
      (ctrl.socketMemory j).ifID = (this.ctrl.socketMemory j).ifID) (kept : live = this.live) :
    SocketTable.Distinct ⟨ctrl, live⟩ := by
  intro i first j second ids
  simp only [kept, (same _).2] at first second ids
  exact consistent.distinct i first j second ids

/-- A create does what it has to do, and keeps the table in order. -/
theorem Consistent.create (consistent : this.Consistent) (ifID : UInt8) (conn : Option Espconn) (localPort : UInt16)
    (callback sendPacket : Option Nat) :
    this.Serves (.create ifID conn localPort callback sendPacket) ∧
      (this.call (.create ifID conn localPort callback sendPacket)).Consistent := by
  have creates : SocketCtrl.Creates this.ctrl ifID conn callback sendPacket
      (this.created ifID conn localPort callback sendPacket) :=
    SocketCtrl.createInterfaceSocket_creates consistent.fresh ifID conn localPort callback sendPacket
  simp only [Serves, call]
  generalize this.created ifID conn localPort callback sendPacket = result at creates ⊢
  cases creates with
  | refused same fresh reason =>
    constructor
    -- a call is refused for one of its arguments, an id in use, or for want of a free socket
    · intro connection receiver sender unused few _
      rcases reason with impossible | impossible | impossible | used | full
      · exact connection impossible
      · exact receiver impossible
      · exact sender impossible
      · obtain ⟨i, found⟩ := Option.ne_none_iff_exists'.mp used
        obtain ⟨alive, same⟩ := SocketCtrl.retrieveSocket2_some found
        exact unused i ((consistent.alive i).mpr alive) same
      · exact consistent.room few full
    · exact ⟨fresh, fun i => (consistent.alive i).trans (by rw [(same i).1]), consistent.nodup,
        consistent.distinct_of_alive same rfl⟩
  | opened i free unused fresh own others =>
    have new : i ∉ this.live := fun member => by
      rw [consistent.alive, free] at member
      cases member
    have unusedID := SocketCtrl.retrieveSocket2_none.mp unused
    refine ⟨fun _ _ _ _ _ => Option.some_ne_none i, fresh, ?_, List.nodup_cons.mpr ⟨new, consistent.nodup⟩, ?_⟩
    · intro j
      by_cases same : j = i
      · simp [same, own.1]
      · rw [List.mem_cons, consistent.alive, (others j same).1]
        simp [same]
    · -- the interface id of the new socket was that of none
      have apart : ∀ j ∈ this.live, (this.ctrl.socketMemory j).ifID ≠ ifID := fun j member =>
        unusedID j ((consistent.alive j).mp member)
      intro j first k second ids
      rcases List.mem_cons.mp first with rfl | earlier
      · rcases List.mem_cons.mp second with rfl | other
        · rfl
        · rw [own.2, (others k (fun same => new (same ▸ other))).2] at ids
          exact absurd ids.symm (apart k other)
      · have before := others j fun same => new (same ▸ earlier)
        rcases List.mem_cons.mp second with rfl | other
        · rw [own.2, before.2] at ids
          exact absurd ids (apart j earlier)
        · rw [before.2, (others k (fun same => new (same ▸ other))).2] at ids
          exact consistent.distinct j earlier k other ids

theorem deleteInterfaceSocket_ctrl (ctrl : SocketCtrl) (ifID : UInt8) : (ctrl.deleteInterfaceSocket ifID).2 = ctrl := by
  unfold SocketCtrl.deleteInterfaceSocket
  split <;> rfl

/-- A delete keeps the table as it is, and so does what it has to do only when there is nothing to delete. -/
theorem Consistent.delete_iff (consistent : this.Consistent) (ifID : UInt8) :
    this.Lawful (.delete ifID) ↔ this.ctrl.retrieveSocket2 ifID = none := by
  rw [Lawful, Serves, deleteInterfaceSocket_ctrl]
  constructor
  · rintro ⟨serves, _⟩
    by_contra found
    obtain ⟨i, some⟩ := Option.ne_none_iff_exists'.mp found
    have succeeds : (this.ctrl.deleteInterfaceSocket ifID).1 = true := by
      rw [SocketCtrl.deleteInterfaceSocket, some]
    exact found (serves i some succeeds).1
  · intro missing
    refine ⟨fun i found => absurd (missing.symm.trans found) (Option.some_ne_none i).symm, ?_⟩
    have unchanged : this.call (.delete ifID) = this := by
      rw [call, SocketCtrl.deleteInterfaceSocket, missing]
      rfl
    rw [unchanged]
    exact consistent.distinct

theorem Consistent.lawful_iff (consistent : this.Consistent) (event : SocketCall) :
    this.Lawful event ↔ this.Misses event := by
  cases event with
  | create ifID conn localPort callback sendPacket =>
    obtain ⟨serves, after⟩ := consistent.create ifID conn localPort callback sendPacket
    exact ⟨fun _ _ impossible => (nomatch impossible), fun _ => ⟨serves, after.distinct⟩⟩
  | delete ifID =>
    rw [consistent.delete_iff]
    constructor
    · rintro missing _ ⟨⟩
      exact missing
    · exact fun misses => misses ifID rfl

theorem Consistent.call (consistent : this.Consistent) {event : SocketCall} (misses : this.Misses event) :
    (this.call event).Consistent := by
  cases event with
  | create ifID conn localPort callback sendPacket =>
    exact (consistent.create ifID conn localPort callback sendPacket).2
  | delete ifID =>
    have unchanged : this.call (.delete ifID) = this := by
      rw [SocketTable.call, SocketCtrl.deleteInterfaceSocket, misses ifID rfl]
      rfl
    rw [unchanged]
    exact consistent

/-- A socket that is in use is so for ever, under its interface id. -/
theorem alive_forever {i : Fin maxActiveSockets} (fresh : this.ctrl.Fresh)
    (alive : (this.ctrl.socketMemory i).alive = true) (run : Run step (fun _ _ => True) this after) :
    (after.ctrl.socketMemory i).alive = true ∧
      (after.ctrl.socketMemory i).ifID = (this.ctrl.socketMemory i).ifID := by
  have kept : after.ctrl.Fresh ∧ (after.ctrl.socketMemory i).alive = true ∧
      (after.ctrl.socketMemory i).ifID = (this.ctrl.socketMemory i).ifID := by
    apply @Run.invariant _ _ _ _ _ _ (fun state : SocketTable => state.ctrl.Fresh ∧
      (state.ctrl.socketMemory i).alive = true ∧ (state.ctrl.socketMemory i).ifID = (this.ctrl.socketMemory i).ifID)
      ⟨fresh, alive, rfl⟩ _ run
    rintro before event _ ⟨stillFresh, stillAlive, sameID⟩ _ ⟨⟩
    cases event with
    | create ifID conn localPort callback sendPacket =>
      have creates : SocketCtrl.Creates before.ctrl ifID conn callback sendPacket
          (before.created ifID conn localPort callback sendPacket) :=
        SocketCtrl.createInterfaceSocket_creates stillFresh ifID conn localPort callback sendPacket
      simp only [call]
      generalize before.created ifID conn localPort callback sendPacket = result at creates ⊢
      cases creates with
      | refused same nowFresh => exact ⟨nowFresh, (same i).1.trans stillAlive, (same i).2.trans sameID⟩
      | opened j free _ nowFresh _ others =>
        have apart : i ≠ j := by
          rintro rfl
          exact absurd (stillAlive.symm.trans free) (by decide)
        exact ⟨nowFresh, (others i apart).1.trans stillAlive, (others i apart).2.trans sameID⟩
    | delete ifID =>
      simp only [call, deleteInterfaceSocket_ctrl]
      exact ⟨stillFresh, stillAlive, sameID⟩
  exact kept.2

end

/-- Over any calls from the start of the program, the table keeps its law exactly when no call deletes a socket. -/
theorem sockets_lawful_iff (calls : List SocketCall) :
    Along step Lawful initial calls ↔ Along step Misses initial calls := by
  apply Along.iff initial_consistent
  · rintro before event after consistent _ misses ⟨⟩
    exact consistent.call misses
  · exact fun state event consistent _ => consistent.lawful_iff event
  · exact Along.always (fun _ _ => trivial : ∀ state event, (fun _ _ => True) state event) _ _

/-- A connection for the interface 1. -/
def openOne : SocketCall := .create 1 (some ⟨0x3FFE8000, 0, 0, []⟩) 5683 (some 1) (some 2)

/-- The socket of interface 1 is found again when it was deleted. -/
theorem deleted_socket_found : ¬ ∀ calls : List SocketCall, Along step Lawful initial calls := by
  intro lawful
  have serves := ((lawful [openOne, .delete 1]).2 _ rfl).1.1
  obtain ⟨i, found⟩ : ∃ i, (initial.call openOne).ctrl.retrieveSocket2 1 = some i :=
    Option.isSome_iff_exists.mp (by decide +kernel)
  have succeeds : ((initial.call openOne).ctrl.deleteInterfaceSocket 1).1 = true := by
    rw [SocketCtrl.deleteInterfaceSocket, found]
  have missing := (serves i found succeeds).1
  rw [deleteInterfaceSocket_ctrl, found] at missing
  cases missing

end SocketTable

end SmingCoap.Server
