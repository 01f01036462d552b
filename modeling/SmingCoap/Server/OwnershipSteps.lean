import SmingCoap.Server.Ownership

/-! # Nothing is lost

In a run without the exits that forget a message, the live blocks are those of
the interactions in the list, each once, and nothing is released twice.  While a
turn or a packet is worked on there are loose blocks besides, and the
interaction in hand may have other pointers than its entry in the list says.
-/

namespace SmingCoap.Server

open Ownership (Ledger)

namespace CoapServer

/-- The method of a request is allowed. -/
def Allowed (resources : List CoapResource) (pIA : CoapInteraction) : Prop :=
  ∃ req pRes resource, pIA.pReqMsg = some req ∧ pIA.pRes = some pRes ∧ resources[pRes]? = some resource ∧
    methodNotAllowed req.code resource.flags = false

/-- The pointers of an interaction are null where it has no message.  A response that has not been sent is the
one its handler was given. -/
structure Points (resources : List CoapResource) (pointers : Pointers) (pIA : CoapInteraction) : Prop where
  request : pointers.pReqMsg.isSome = pIA.pReqMsg.isSome
  response : pointers.pRespMsg.isSome = pIA.pRespMsg.isSome
  offered : pIA.role = .server → Unanswered pIA → pIA.pRespMsg ≠ none → Allowed resources pIA

/-- The numbers of the interactions in the list. -/
def refs (this : CoapServer) : List Nat := this.pInteractions.map CoapInteraction.ref

/-- An interaction in hand: its number, its role and its pointers. -/
structure Hand where
  ref : Nat
  role : InteractionRole
  pointers : Pointers

/-- The live blocks are loose or those of the list.  The interaction in hand is in the list, and its record
has the pointers given. -/
structure Tracks (resources : List CoapResource) (hand : Option Hand) (this : CoapServer) (heap : Heap)
    (loose : List Nat) : Prop where
  owned : heap.Owned Pointers.blocks this.refs loose
  below : ∀ pIA ∈ this.pInteractions, pIA.ref < this.interactions
  points : ∀ pIA ∈ this.pInteractions, hand.map Hand.ref ≠ some pIA.ref → Points resources (heap.record pIA.ref) pIA
  listed : ∀ held, hand = some held → ∃ pIA ∈ this.pInteractions, pIA.ref = held.ref ∧ pIA.role = held.role
  record : ∀ held, hand = some held → heap.record held.ref = held.pointers

section
variable {resources : List CoapResource} {hand : Option Hand} {held : Hand} {this after : CoapServer} {heap : Heap}
  {loose spare : List Nat} {pIA worked : CoapInteraction} {ref block : Nat} {pointers : Pointers}

theorem Tracks.listed_ref (tracks : Tracks resources (some held) this heap loose) : held.ref ∈ this.refs := by
  obtain ⟨pIA, member, ref, _⟩ := tracks.listed held rfl
  exact ref ▸ List.mem_map_of_mem member

/-! ## The list changes -/

/-- The entries of the list are of the same interactions as before, in any order. -/
theorem Tracks.same (tracks : Tracks resources hand this heap loose) (refs : after.refs.Perm this.refs)
    (interactions : this.interactions ≤ after.interactions)
    (among : ∀ other ∈ after.pInteractions, ∃ pIA ∈ this.pInteractions, other.ref = pIA.ref ∧ other.role = pIA.role ∧
      ∀ pointers, Points resources pointers pIA → Points resources pointers other) :
    Tracks resources hand after heap loose where
  owned := tracks.owned.perm refs.symm (.refl _)
  below := by
    intro other member
    obtain ⟨pIA, earlier, ref, _⟩ := among other member
    rw [ref]
    exact (tracks.below pIA earlier).trans_le interactions
  points := by
    intro other member free
    obtain ⟨pIA, earlier, ref, _, points⟩ := among other member
    rw [ref] at free ⊢
    exact points _ (tracks.points pIA earlier free)
  listed := by
    intro held same
    obtain ⟨pIA, earlier, ref, role⟩ := tracks.listed held same
    have kept : pIA.ref ∈ after.refs := refs.symm.subset (List.mem_map_of_mem earlier)
    obtain ⟨other, member, sameRef⟩ := List.mem_map.mp kept
    obtain ⟨older, too, olderRef, olderRole, _⟩ := among other member
    obtain rfl : older = pIA := eq_of_ref tracks.owned.owners too earlier (olderRef.symm.trans sameRef)
    exact ⟨other, member, sameRef.trans ref, olderRole.trans role⟩
  record := tracks.record

/-- The list stays as it is. -/
theorem Tracks.unlisted (tracks : Tracks resources hand this heap loose)
    (list : after.pInteractions = this.pInteractions) (interactions : this.interactions ≤ after.interactions) :
    Tracks resources hand after heap loose := by
  apply tracks.same _ interactions
  · exact fun other member => ⟨other, list ▸ member, rfl, rfl, fun _ points => points⟩
  · rw [refs, list]
    exact .refl _

theorem Tracks.silent (tracks : Tracks resources hand this heap loose) (same : Silent this after) :
    Tracks resources hand after heap loose :=
  tracks.unlisted same.pInteractions same.interactions.ge

/-! ## Blocks come and go -/

theorem Tracks.memGet (tracks : Tracks resources hand this heap loose) :
    Tracks resources hand this heap.memGet.2 (heap.memGet.1 :: loose) where
  owned := tracks.owned.get
  below := tracks.below
  points := tracks.points
  listed := tracks.listed
  record := tracks.record

theorem Tracks.freeMessage (tracks : Tracks resources hand this heap (block :: loose)) :
    Tracks resources hand this (heap.freeMessage block) loose where
  owned := tracks.owned.release
  below := tracks.below
  points := by
    rw [Heap.freeMessage, Ledger.record_release]
    exact tracks.points
  listed := tracks.listed
  record := by
    rw [Heap.freeMessage, Ledger.record_release]
    exact tracks.record

theorem Tracks.freeInteraction (tracks : Tracks resources hand this heap (pointers.blocks ++ loose)) :
    Tracks resources hand this (heap.freeInteraction pointers) loose where
  owned := tracks.owned.releaseAll pointers.blocks
  below := tracks.below
  points := by
    rw [Heap.freeInteraction, Ledger.record_releaseAll]
    exact tracks.points
  listed := tracks.listed
  record := by
    rw [Heap.freeInteraction, Ledger.record_releaseAll]
    exact tracks.record

theorem Tracks.reorder (tracks : Tracks resources hand this heap loose) (same : loose.Perm spare) :
    Tracks resources hand this heap spare where
  owned := tracks.owned.perm (.refl _) same
  below := tracks.below
  points := tracks.points
  listed := tracks.listed
  record := tracks.record

/-! ## Interactions come and go -/

/-- A new interaction takes loose blocks. -/
theorem Tracks.start (tracks : Tracks resources hand this heap (pointers.blocks ++ loose))
    (points : Points resources pointers { pIA with ref := this.interactions }) :
    Tracks resources hand (this.startInteraction pIA) (heap.appendInteraction this.interactions pointers) loose := by
  have new : this.interactions ∉ this.refs := by
    intro listed
    obtain ⟨other, member, same⟩ := List.mem_map.mp listed
    exact (tracks.below other member).ne same
  have others : ∀ ref ∈ this.refs, (heap.appendInteraction this.interactions pointers).record ref = heap.record ref := by
    intro ref listed
    apply Function.update_of_ne
    rintro rfl
    exact new listed
  constructor
  -- the blocks that were loose now belong to the new interaction
  · have joined := tracks.owned.join new
    rwa [refs, startInteraction, appendInteraction, List.map_append]
  · intro other member
    cases List.mem_append.mp member with
    | inl earlier => exact (tracks.below other earlier).trans (Nat.lt_succ_self _)
    | inr last =>
      rw [List.mem_singleton.mp last]
      exact Nat.lt_succ_self _
  · intro other member free
    cases List.mem_append.mp member with
    | inl earlier =>
      rw [others other.ref (List.mem_map_of_mem earlier)]
      exact tracks.points other earlier free
    | inr last =>
      rw [List.mem_singleton.mp last]
      simp only [Heap.appendInteraction, Ledger.assign, Function.update_self]
      exact points
  · intro held same
    obtain ⟨other, member, ref, role⟩ := tracks.listed held same
    exact ⟨other, List.mem_append_left _ member, ref, role⟩
  · intro held same
    subst same
    exact (others held.ref tracks.listed_ref).trans (tracks.record held rfl)

/-- An interaction goes with its blocks. -/
theorem Tracks.delete (tracks : Tracks resources hand this heap loose) (member : ref ∈ this.refs)
    (free : hand.map Hand.ref ≠ some ref) :
    Tracks resources hand (this.deleteInteraction ref) (heap.deleteInteraction ref) loose := by
  have erased : (this.deleteInteraction ref).refs = this.refs.erase ref := map_ref_erased this.pInteractions ref
  have owned := tracks.owned.leave member
  constructor
  · rw [erased]
    exact owned.releaseAll _
  · exact fun other among => tracks.below other (List.mem_of_mem_eraseP among)
  · intro other among unheld
    rw [Heap.deleteInteraction, Heap.freeInteraction, Ledger.record_releaseAll]
    exact tracks.points other (List.mem_of_mem_eraseP among) unheld
  · intro held same
    obtain ⟨other, listed, sameRef, role⟩ := tracks.listed held same
    refine ⟨other, (List.mem_eraseP_of_neg ?_).mpr listed, sameRef, role⟩
    rw [same] at free
    simpa [sameRef] using free
  · intro held same
    rw [Heap.deleteInteraction, Heap.freeInteraction, Ledger.record_releaseAll]
    exact tracks.record held same

/-! ## The interaction in hand -/

/-- An interaction is taken in hand. -/
theorem Tracks.take (tracks : Tracks resources none this heap loose) (member : pIA ∈ this.pInteractions) :
    Tracks resources (some ⟨pIA.ref, pIA.role, heap.record pIA.ref⟩) this heap loose ∧
      Points resources (heap.record pIA.ref) pIA := by
  refine ⟨⟨tracks.owned, tracks.below, ?_, ?_, ?_⟩, tracks.points pIA member (by simp)⟩
  · exact fun other listed _ => tracks.points other listed (by simp)
  · intro held same
    cases same
    exact ⟨pIA, member, rfl, rfl⟩
  · intro held same
    cases same
    rfl

/-- It is deleted. -/
theorem Tracks.dropped (tracks : Tracks resources (some held) this heap loose) :
    Tracks resources none (this.deleteInteraction held.ref) (heap.deleteInteraction held.ref) loose := by
  have erased : (this.deleteInteraction held.ref).refs = this.refs.erase held.ref :=
    map_ref_erased this.pInteractions held.ref
  have owned := tracks.owned.leave tracks.listed_ref
  constructor
  · rw [erased]
    exact owned.releaseAll _
  · exact fun other among => tracks.below other (List.mem_of_mem_eraseP among)
  · intro other among _
    rw [Heap.deleteInteraction, Heap.freeInteraction, Ledger.record_releaseAll]
    obtain ⟨earlier, differs⟩ := mem_erased tracks.owned.owners among
    exact tracks.points other earlier (by simpa using differs.symm)
  · exact fun _ none => by cases none
  · exact fun _ none => by cases none

/-- It goes back into the list. -/
theorem Tracks.put (tracks : Tracks resources (some held) this heap loose)
    (points : Points resources held.pointers worked) (ref : worked.ref = held.ref) (refs : after.refs.Perm this.refs)
    (interactions : this.interactions ≤ after.interactions)
    (among : ∀ other ∈ after.pInteractions, other = worked ∨ other ∈ this.pInteractions ∧ other.ref ≠ worked.ref) :
    Tracks resources none after heap loose where
  owned := tracks.owned.perm refs.symm (.refl _)
  below := by
    intro other member
    have listed : other.ref ∈ this.refs := refs.subset (List.mem_map_of_mem member)
    obtain ⟨pIA, earlier, same⟩ := List.mem_map.mp listed
    rw [← same]
    exact (tracks.below pIA earlier).trans_le interactions
  points := by
    intro other member _
    cases among other member with
    | inl same =>
      rw [same, ref, tracks.record held rfl]
      exact points
    | inr earlier =>
      rw [ref] at earlier
      exact tracks.points other earlier.1 (by simpa using earlier.2.symm)
  listed := fun _ none => by cases none
  record := fun _ none => by cases none

/-- It moves to the end of the list. -/
theorem Tracks.enqueue (tracks : Tracks resources (some held) this heap loose)
    (points : Points resources held.pointers worked) (ref : worked.ref = held.ref) :
    Tracks resources none (this.enqueueLastInteraction worked) heap loose := by
  have listed : worked.ref ∈ this.refs := ref ▸ tracks.listed_ref
  have moved : (this.enqueueLastInteraction worked).refs.Perm this.refs := by
    rw [refs, enqueueLastInteraction, appendInteraction, List.map_append, deleteInteraction, map_ref_erased]
    exact List.perm_append_comm.trans (List.perm_cons_erase listed).symm
  refine tracks.put points ref moved (Nat.le_refl this.interactions) ?_
  intro other member
  cases List.mem_append.mp member with
  | inl kept => exact .inr (mem_erased tracks.owned.owners kept)
  | inr last => exact .inl (List.mem_singleton.mp last)

/-- It stays where it is. -/
theorem Tracks.store (tracks : Tracks resources (some held) this heap loose)
    (points : Points resources held.pointers worked) (ref : worked.ref = held.ref) :
    Tracks resources none (this.storeInteraction worked) heap loose := by
  have same : (this.storeInteraction worked).refs = this.refs := map_ref_stored this.pInteractions worked
  exact tracks.put points ref (same ▸ .refl _) (Nat.le_refl this.interactions) fun _ member => mem_stored member

/-- What the response pointer pointed to is loose, instead of what it points to now. -/
theorem blocks_exchange (pointers : Pointers) (pRespMsg : Option Nat) :
    (pointers.blocks ++ pRespMsg.toList).Perm ({ pointers with pRespMsg }.blocks ++ pointers.pRespMsg.toList) := by
  simp only [Pointers.blocks, Pointers.messages, List.append_assoc]
  apply List.Perm.append_left
  calc (pointers.pRespMsg.toList ++ ([pointers.interaction] ++ pRespMsg.toList)).Perm
        (([pointers.interaction] ++ pRespMsg.toList) ++ pointers.pRespMsg.toList) := List.perm_append_comm
    _ |>.Perm ((pRespMsg.toList ++ [pointers.interaction]) ++ pointers.pRespMsg.toList) :=
      List.perm_append_comm.append_right _
    _ = _ := List.append_assoc ..

/-- Its response pointer is written. -/
theorem Tracks.setResponse (pRespMsg : Option Nat)
    (tracks : Tracks resources (some held) this heap (pRespMsg.toList ++ loose)) :
    Tracks resources (some { held with pointers := { held.pointers with pRespMsg } }) this
      (heap.setResponse held.ref pRespMsg) (held.pointers.pRespMsg.toList ++ loose) := by
  have record := tracks.record held rfl
  constructor
  · apply tracks.owned.assign tracks.listed_ref
    rw [record, ← List.append_assoc, ← List.append_assoc]
    exact (blocks_exchange held.pointers pRespMsg).append_right loose
  · exact tracks.below
  · intro other member free
    have differs : other.ref ≠ held.ref := by
      intro same
      exact free (by simp [same])
    rw [Heap.setResponse, Ledger.assign]
    simp only [Function.update_of_ne differs]
    exact tracks.points other member free
  · intro now same
    cases same
    exact tracks.listed held rfl
  · intro now same
    cases same
    rw [Heap.setResponse, Ledger.assign]
    simp [record]

end

/-! ## Requests of user code -/

/-- A GET request that there is memory for gets an interaction as well. -/
def RequestOwns (env : Env) (this : CoapServer) : ClientRequest → Prop
  | .interaction .. => True
  | .get uriString _ _ _ => env.alloc this.allocs = true →
      env.alloc (appendUriOptionsFromString env.alloc ⟨[], this.allocs + 1⟩ uriString).allocs = true

def RequestsOwn (env : Env) : CoapServer → List ClientRequest → Prop
  | _, [] => True
  | this, request :: rest => RequestOwns env this request ∧ RequestsOwn env (this.perform env request) rest

/-- The requests of a notifier. -/
def NotifierOwns (env : Env) (this : CoapServer) (pRes : Nat) (pObserver : Option CoapObserver)
    (pResp : CoapMessage) : Prop :=
  RequestsOwn env { this with callbacks := this.callbacks + 1 } (env.notifier this.callbacks pRes pObserver pResp).requests

section
variable {env : Env} {resources : List CoapResource} {hand : Option Hand} {this : CoapServer} {heap : Heap}
  {loose : List Nat} {block : Nat}

/-- A client interaction takes its request. -/
theorem startNewClientInteraction_tracks {pMsgReq : CoapMessage} (ifID : UInt8) (serverEp : NetEp) (cb : Bool)
    (tracks : Tracks resources hand this heap (block :: loose)) (request : pMsgReq.isRequest = true)
    (available : env.alloc this.allocs = true) :
    Tracks resources hand (this.startNewClientInteraction env pMsgReq ifID serverEp cb)
      (this.startNewClientInteractionMemory env pMsgReq block heap) loose := by
  simp only [startNewClientInteraction, startNewClientInteractionMemory, request, Bool.true_eq_false, if_false, memGet,
    available]
  have counted : Tracks resources hand { this with allocs := this.allocs + 1 } heap (block :: loose) :=
    tracks.silent (allocs_silent this _)
  have found := counted.memGet
  have ready := found.reorder (List.Perm.swap block heap.memGet.1 loose)
  exact ready.start ⟨rfl, rfl, fun server => by cases server⟩

theorem perform_tracks {request : ClientRequest} (tracks : Tracks resources hand this heap loose)
    (owns : RequestOwns env this request) :
    Tracks resources hand (this.perform env request) (this.performMemory env request heap) loose := by
  cases request with
  | interaction pMsgReq ifID serverEp cb =>
    simp only [perform, performMemory]
    split
    next taken =>
      simp only [Bool.and_eq_true] at taken
      exact startNewClientInteraction_tracks ifID serverEp cb tracks.memGet taken.1 taken.2
    next left =>
      -- the message is still the caller's
      simp only [Bool.and_eq_true, not_and, Bool.not_eq_true] at left
      unfold startNewClientInteraction
      split
      next => exact tracks
      next request =>
        have full : env.alloc this.allocs = false := left (Bool.eq_true_of_not_eq_false request)
        simp only [memGet, full]
        exact tracks.silent (allocs_silent this _)
  | get uriString ifID serverEp cb =>
    simp only [perform, performMemory, startNewGetRequest, startNewGetRequestMemory, createMessage, memGet, getNextMid,
      generateToken]
    cases made : env.alloc this.allocs with
    | false => exact tracks.unlisted rfl (Nat.le_refl _)
    | true =>
      have available := owns made
      have drawn (mid : UInt16) (token : UInt64) (allocs : Nat) (log : List Effect) :
          Tracks resources hand { this with mid, token, allocs, log } heap loose := tracks.unlisted rfl (Nat.le_refl _)
      exact startNewClientInteraction_tracks ifID serverEp cb (drawn _ _ _ _).memGet (by rfl) available

/-- Induction on the requests that are still to be sent. -/
theorem performs_tracks (requests : List ClientRequest) {this : CoapServer} {heap : Heap}
    (tracks : Tracks resources hand this heap loose) (owns : RequestsOwn env this requests) :
    Tracks resources hand (requests.foldl (perform env) this) (this.performsMemory env requests heap) loose := by
  induction requests generalizing this heap with
  | nil => exact tracks
  | cons request rest inductionHypothesis => exact inductionHypothesis (perform_tracks tracks owns.1) owns.2

theorem callNotifier_tracks {pRes : Nat} {pObserver : Option CoapObserver} {pResp : CoapMessage}
    (tracks : Tracks resources hand this heap loose) (owns : NotifierOwns env this pRes pObserver pResp) :
    Tracks resources hand (this.callNotifier env pRes pObserver pResp).2
      (this.callNotifierMemory env pRes pObserver pResp heap) loose :=
  performs_tracks _ (tracks.unlisted rfl (Nat.le_refl _)) owns

end

/-! ## Notifications -/

/-- A notifier that is called for an observer does not leave an error code behind with `HANDLER_OK`, and its
requests own their messages. -/
def ObserverOwns (env : Env) (this : CoapServer) (pRes : Nat) (resource : CoapResource) (pObserver : CoapObserver) :
    Prop :=
  CallsNotifier env this pRes resource pObserver →
    NotifierOwns env { this.getNextMid.2 with allocs := this.allocs + 2 } pRes (some pObserver)
      (this.freshMessage pObserver) ∧
    ((freshNotified env this pRes pObserver).result = .ok →
      (freshNotified env this pRes pObserver).resp.code < respErrorBadRequest)

def LoopOwns (env : Env) (pRes : Nat) (resource : CoapResource) : CoapServer → List CoapObserver → Prop
  | _, [] => True
  | this, pObserver :: rest => ObserverOwns env this pRes resource pObserver ∧
      ((this.notifyObserver env pRes resource pObserver).1 = true →
        LoopOwns env pRes resource (this.notifyObserver env pRes resource pObserver).2 rest)

def CallOwns (env : Env) (this : CoapServer) : Call → Prop
  | .notify pRes => ∀ resource, (this.counted pRes).resources[pRes]? = some resource →
      LoopOwns env pRes resource (this.counted pRes) resource.observers
  | .request request => RequestOwns env this request

def CallsOwn (env : Env) : CoapServer → List Call → Prop
  | _, [] => True
  | this, request :: rest => CallOwns env this request ∧ CallsOwn env (this.call env request) rest

section
variable {env : Env} {resources : List CoapResource} {hand : Option Hand} {this : CoapServer} {heap : Heap}
  {loose : List Nat} {pRes : Nat} {resource : CoapResource} {pObserver : CoapObserver}

/-- A notification that is pending is flagged. -/
theorem Tracks.flagged {pIA : CoapInteraction} (tracks : Tracks resources hand this heap loose)
    (member : pIA ∈ this.pInteractions) :
    Tracks resources hand (this.storeInteraction { pIA with updatePendingNotification := true }) heap loose := by
  have same : (this.storeInteraction { pIA with updatePendingNotification := true }).refs = this.refs :=
    map_ref_stored this.pInteractions { pIA with updatePendingNotification := true }
  refine tracks.same (same ▸ .refl _) (Nat.le_refl this.interactions) ?_
  intro other among
  cases mem_stored among with
  | inl stored =>
    subst stored
    exact ⟨pIA, member, rfl, rfl, fun _ points => ⟨points.request, points.response, points.offered⟩⟩
  | inr kept => exact ⟨other, kept.1, rfl, rfl, fun _ points => points⟩

theorem removeInteractionsObserver_silently (this : CoapServer) (pIA : CoapInteraction) (token : UInt64) :
    (this.removeInteractionsObserver pIA token).pInteractions = this.pInteractions ∧
      (this.removeInteractionsObserver pIA token).interactions = this.interactions := by
  unfold removeInteractionsObserver
  split
  next => exact ⟨rfl, rfl⟩
  next => exact ⟨rfl, rfl⟩

/-- What the turn of an observer whose notifier is called does with the memory. -/
theorem notifyObserverMemory_called (calls : CallsNotifier env this pRes resource pObserver) :
    this.notifyObserverMemory env pRes resource pObserver heap =
      let pointers : Pointers := ⟨heap.memGet.1, none, some heap.memGet.2.memGet.1⟩
      let asked := { this.getNextMid.2 with allocs := this.allocs + 2 }.callNotifierMemory env pRes (some pObserver)
        (this.freshMessage pObserver) heap.memGet.2.memGet.2
      if (freshNotified env this pRes pObserver).result ≠ .ok then asked.freeInteraction pointers
      else if (freshNotified env this pRes pObserver).resp.code ≥ respErrorBadRequest then asked
      else asked.appendInteraction (freshCalled env this pRes pObserver).interactions pointers := by
  have free : this.pInteractions.find? (fun pIA => pIA.notifies pRes pObserver) = none := by
    rw [List.find?_eq_none]
    intro pIA member
    simp [calls.free pIA member]
  simp only [notifyObserverMemory, free, memGet, calls.interaction, createMessage, getNextMid, calls.message,
    calls.notifier, Bool.true_eq_false, if_false]
  rfl

theorem notifyObserver_tracks (tracks : Tracks resources hand this heap loose)
    (owns : ObserverOwns env this pRes resource pObserver) :
    Tracks resources hand (this.notifyObserver env pRes resource pObserver).2
      (this.notifyObserverMemory env pRes resource pObserver heap) loose := by
  cases found : this.pInteractions.find? fun pIA => pIA.notifies pRes pObserver with
  | some pIA =>
    simp only [notifyObserver, notifyObserverMemory, found]
    exact tracks.flagged (List.mem_of_find?_eq_some found)
  | none =>
    have free : ∀ pIA ∈ this.pInteractions, pIA.notifies pRes pObserver = false := by
      intro pIA member
      exact Bool.eq_false_iff.mpr (List.find?_eq_none.mp found pIA member)
    cases interaction : env.alloc this.allocs with
    | false =>
      simp only [notifyObserver, notifyObserverMemory, found, memGet, interaction]
      exact tracks.silent (allocs_silent this _)
    | true =>
      have prepared : Tracks resources hand { this.getNextMid.2 with allocs := this.allocs + 2 } heap loose :=
        tracks.unlisted rfl (Nat.le_refl _)
      cases message : env.alloc (this.allocs + 1) with
      -- the interaction that was allocated for it goes back
      | false =>
        simp only [notifyObserver, notifyObserverMemory, found, memGet, interaction, createMessage, getNextMid, message]
        have found : Tracks resources hand _ heap.memGet.2 ((⟨heap.memGet.1, none, none⟩ : Pointers).blocks ++ loose) :=
          prepared.memGet
        exact found.freeInteraction
      | true =>
        have created := prepared.memGet.memGet
        cases notifier : resource.notifier with
        | false =>
          simp only [notifyObserver, notifyObserverMemory, found, memGet, interaction, createMessage, getNextMid, message,
            notifier, if_true]
          have found : Tracks resources hand _ heap.memGet.2.memGet.2
              ((⟨heap.memGet.1, none, some heap.memGet.2.memGet.1⟩ : Pointers).blocks ++ loose) := created
          exact found.freeInteraction
        | true =>
          have calls : CallsNotifier env this pRes resource pObserver := ⟨free, interaction, message, notifier⟩
          obtain ⟨requests, rejected⟩ := owns calls
          let pointers : Pointers := ⟨heap.memGet.1, none, some heap.memGet.2.memGet.1⟩
          have asked : Tracks resources hand (freshCalled env this pRes pObserver)
              ({ this.getNextMid.2 with allocs := this.allocs + 2 }.callNotifierMemory env pRes (some pObserver)
                (this.freshMessage pObserver) heap.memGet.2.memGet.2) (pointers.blocks ++ loose) :=
            callNotifier_tracks created requests
          rw [notifyObserver_called calls, notifyObserverMemory_called calls]
          simp only
          split
          next => exact asked.freeInteraction
          next result =>
            have accepted := rejected (Decidable.not_not.mp result)
            rw [if_neg (UInt8.not_le.mpr accepted), if_neg (UInt8.not_le.mpr accepted)]
            exact (asked.silent (memGet_silent env _)).start ⟨rfl, rfl, fun server => by cases server⟩

/-- Induction on the observers that are left. -/
theorem notifyLoop_tracks (observers : List CoapObserver) {this : CoapServer} {heap : Heap}
    (tracks : Tracks resources hand this heap loose) (owns : LoopOwns env pRes resource this observers) :
    Tracks resources hand (notifyLoop env pRes resource this observers)
      (notifyLoopMemory env pRes resource this observers heap) loose := by
  induction observers generalizing this heap with
  | nil => exact tracks
  | cons pObserver rest inductionHypothesis =>
    obtain ⟨turn, goesOn⟩ := owns
    have notified := notifyObserver_tracks tracks turn
    simp only [notifyLoop, notifyLoopMemory]
    cases turned : this.notifyObserver env pRes resource pObserver with
    | mk goes after =>
      rw [turned] at notified goesOn
      cases goes with
      | false => exact notified
      | true => exact inductionHypothesis notified (goesOn rfl)

theorem call_tracks {request : Call} (tracks : Tracks resources hand this heap loose)
    (owns : CallOwns env this request) :
    Tracks resources hand (this.call env request) (this.callMemory env request heap) loose := by
  cases request with
  | notify pRes =>
    have counted : Tracks resources hand (this.counted pRes) heap loose := tracks.unlisted rfl (Nat.le_refl _)
    have started : this.call env (.notify pRes) = (this.counted pRes).startNotifyInteractions env pRes := rfl
    simp only [started, startNotifyInteractions, callMemory, notifyResourceObserversMemory]
    cases found : (this.counted pRes).resources[pRes]? with
    | none => exact counted
    | some resource => exact notifyLoop_tracks _ counted (owns resource found)
  | request request => exact perform_tracks tracks owns

/-- Induction on the calls that are left. -/
theorem calls_tracks (requests : List Call) {this : CoapServer} {heap : Heap}
    (tracks : Tracks resources hand this heap loose) (owns : CallsOwn env this requests) :
    Tracks resources hand (requests.foldl (call env) this) (this.callsMemory env requests heap) loose := by
  induction requests generalizing this heap with
  | nil => exact tracks
  | cons request rest inductionHypothesis => exact inductionHypothesis (call_tracks tracks owns.1) owns.2

end

/-! ## Received packets -/

/-- A response of its own that is looked for finds its request, if it finds one, already sent. -/
def PacketOwns (env : Env) (this : CoapServer) (pckt : NetPacket) (now : UInt32) : Prop :=
  ∀ pMsg, this.parsePacket env now pckt = some pMsg → (pMsg.type = .con ∨ pMsg.type = .non) →
    pMsg.isRequest = false → ¬ (pMsg.type = .con ∧ pMsg.code = empty) → checkForUnknownCriticalOption pMsg.options = 0 →
      ∀ pIA, this.findRequest pMsg pckt.sender = some pIA → pIA.state ≠ .readyToRequest

section
variable {env : Env} {resources : List CoapResource} {hand : Option Hand} {this : CoapServer} {heap : Heap}
  {loose : List Nat} {now : UInt32} {pckt : NetPacket} {msg : CoapMessage} {pIA worked : CoapInteraction} {block : Nat}

theorem sendShortResp_tracks (ia : Option CoapInteraction) (origin : Option NetPacket) (type : MessageType) (code : UInt8)
    (messageID : Nat) (token : UInt64) (ifID : UInt8) (receiver : NetEp) (tracks : Tracks resources hand this heap loose) :
    Tracks resources hand (this.sendShortResp env now ia origin type code messageID token ifID receiver).2 heap
      loose := by
  simp only [sendShortResp]
  cases success : env.transmit this.transmissions with
  | true =>
    rw [sendMsg_sent now ia origin _ ifID receiver success]
    exact tracks.unlisted rfl (Nat.le_refl _)
  | false =>
    obtain ⟨_, failed⟩ := sendMsg_failed now ia origin
      { coapInitToEmptyResetMsg with type, code, messageID, token64 := token } ifID receiver success
    rw [failed]
    exact tracks.unlisted rfl (Nat.le_refl _)

/-- A message that came goes into an interaction, and the response that was there is freed. -/
theorem Tracks.attach (tracks : Tracks resources none this heap [block]) (member : pIA ∈ this.pInteractions)
    (ref : worked.ref = pIA.ref) (request : worked.pReqMsg = pIA.pReqMsg) (response : worked.pRespMsg.isSome = true)
    (role : worked.role = .client) :
    Tracks resources none (this.storeInteraction worked) (heap.attachResponse pIA.ref block) [] := by
  obtain ⟨held, points⟩ := tracks.take member
  have fits : Points resources { heap.record pIA.ref with pRespMsg := some block } worked := by
    refine ⟨request ▸ points.request, response.symm, ?_⟩
    intro server
    rw [role] at server
    cases server
  have written : Tracks resources
      (some ⟨pIA.ref, pIA.role, { heap.record pIA.ref with pRespMsg := some block }⟩) this
      (heap.setResponse pIA.ref (some block)) (heap.record pIA.ref).pRespMsg.toList := by
    have ready : Tracks resources _ this heap ((some block).toList ++ []) := held
    have exchanged := ready.setResponse
    rwa [List.append_nil] at exchanged
  unfold Heap.attachResponse
  split
  next older found =>
    have commutes : (heap.freeMessage older).setResponse pIA.ref (some block) =
        (heap.setResponse pIA.ref (some block)).freeMessage older := by
      rw [Heap.setResponse, Heap.freeMessage, Ledger.record_release]
      exact Ledger.release_assign heap older pIA.ref _
    rw [commutes]
    rw [found] at written
    exact written.freeMessage.store fits ref
  next found =>
    rw [found] at written
    exact written.store fits ref

/-- The reliability state of an interaction is set. -/
theorem Tracks.marked (tracks : Tracks resources none this heap loose) (member : pIA ∈ this.pInteractions)
    (state : ReliabilityState) : Tracks resources none (this.storeInteraction (marked pIA state)) heap loose := by
  obtain ⟨held, points⟩ := tracks.take member
  obtain ⟨ref, role, same, pRes, request, response, _⟩ := marked_fields pIA state
  apply held.store _ ref
  refine ⟨request ▸ points.request, response ▸ points.response, ?_⟩
  simp only [Unanswered, Allowed, role, same, request, response, pRes]
  exact points.offered

theorem applyReliabilityState_tracks (tracks : Tracks resources none this heap loose) (state : ReliabilityState)
    (mID : Nat) (fromEp : NetEp) : Tracks resources none (this.applyReliabilityState state mID fromEp).2 heap loose := by
  rw [applyReliabilityState_eq]
  split
  next => exact tracks
  next pIA found => exact tracks.marked (List.mem_of_find?_eq_some found) state

theorem onAck_tracks (tracks : Tracks resources none this heap [block]) :
    Tracks resources none (this.onAck pckt msg) (this.onAckMemory pckt msg block heap) [] := by
  simp only [onAck, onAckMemory, applyReliabilityState_eq]
  cases found : this.pInteractions.find? fun pIA => pIA.awaits msg.messageID pckt.sender with
  | none => exact tracks.freeMessage
  | some pIA =>
    have member := List.mem_of_find?_eq_some found
    simp only
    split
    next response =>
      have ref : (attachResponse (CoapServer.marked pIA .ackSet) msg).ref = (CoapServer.marked pIA .ackSet).ref := rfl
      obtain ⟨same, role, _, _, request, _⟩ := marked_fields pIA .ackSet
      rw [storeInteraction_twice this ref, same]
      exact tracks.attach member same request rfl response.2.1
    next => exact tracks.freeMessage.marked member .ackSet

theorem onRequest_tracks (pRes : Nat) (tracks : Tracks resources none this heap [block]) :
    Tracks resources none (this.onRequest env now pckt msg pRes) (this.onRequestMemory env now pckt msg pRes block heap)
      [] := by
  cases found : this.pInteractions.find? fun pIA => pIA.isDuplicate pckt msg with
  | none =>
    -- the request becomes the interaction's, and is freed where there is no memory for one
    simp only [onRequest, onRequestMemory, startNewServerInteraction, found, memGet]
    have counted : Tracks resources none { this with allocs := this.allocs + 1 } heap [block] :=
      tracks.silent (allocs_silent this _)
    cases env.alloc this.allocs with
    | true =>
      have ready := counted.memGet.reorder (List.Perm.swap block heap.memGet.1 [])
      have fits : Points resources ⟨heap.memGet.1, some block, none⟩
          { CoapInteraction.serving msg pRes pckt with ref := this.interactions } :=
        ⟨rfl, rfl, fun _ _ none => absurd rfl none⟩
      exact ready.start fits
    | false =>
      simp only
      split
      next => exact sendShortResp_tracks _ _ _ _ _ _ _ _ counted.freeMessage
      next => exact counted.freeMessage
  | some pIA =>
    simp only [onRequest, onRequestMemory, startNewServerInteraction, found]
    -- the interaction has a request of its own, so the duplicate is freed
    cases request : pIA.pReqMsg with
    | none => exact tracks.freeMessage
    | some req =>
      by_cases postponed : req.type = .con ∧ pIA.state = .resourcePostponeEmptyAckSent
      · simp only [if_pos postponed, sendEmptyAck]
        exact sendShortResp_tracks _ _ _ _ _ _ _ _ tracks.freeMessage
      · simp only [if_neg postponed]
        exact tracks.freeMessage

theorem storeInteraction_list {after : CoapServer} (list : after.pInteractions = this.pInteractions)
    (worked : CoapInteraction) :
    (after.storeInteraction worked).pInteractions = (this.storeInteraction worked).pInteractions := by
  rw [storeInteraction, storeInteraction, list]

theorem onSeparateResponse_tracks (tracks : Tracks resources none this heap [block])
    (sent : ∀ pIA, this.findRequest msg pckt.sender = some pIA → pIA.state = .waitingResponse ∨ pIA.state = .handleResponse) :
    Tracks resources none (this.onSeparateResponse env now pckt msg) (this.onSeparateResponseMemory pckt msg block heap)
      [] := by
  simp only [onSeparateResponse, onSeparateResponseMemory]
  cases found : this.findRequest msg pckt.sender with
  | none => exact sendShortResp_tracks _ _ _ _ _ _ _ _ tracks.freeMessage
  | some pIA =>
    obtain ⟨member, awaits⟩ := findRequest_awaits found
    simp only [if_pos (sent pIA found)]
    have attached : ∀ reliability, Tracks resources none
        (this.storeInteraction { attachResponse pIA msg with respReliabilityState := reliability })
        (heap.attachResponse pIA.ref block) [] :=
      fun _ => tracks.attach member rfl rfl rfl awaits.role
    split
    next =>
      -- the list does not see whether the acknowledgement is sent
      have reply : empty = empty ∨ msg.token64 = msg.token64 := .inl rfl
      obtain ⟨effects, _, placed⟩ := sendShortResp_places env now pckt this .ack empty msg.messageID msg.token64 reply
      split
      next after success =>
        rw [success] at placed
        exact (attached .ackSet).unlisted (storeInteraction_list placed.pInteractions _) placed.interactions.ge
      next after failed =>
        rw [failed] at placed
        exact (attached pIA.respReliabilityState).unlisted (storeInteraction_list placed.pInteractions _)
          placed.interactions.ge
    next => exact attached pIA.respReliabilityState

/-- A message that gets behind the checks. -/
theorem dispatch_tracks (pRes : Option Nat) (tracks : Tracks resources none this heap [block])
    (sent : pRes = none → (msg.type = .con ∨ msg.type = .non) → ∀ pIA, this.findRequest msg pckt.sender = some pIA →
      pIA.state = .waitingResponse ∨ pIA.state = .handleResponse) :
    Tracks resources none (this.dispatch env now pckt msg pRes) (this.dispatchMemory env now pckt msg pRes block heap)
      [] := by
  simp only [dispatch, dispatchMemory]
  cases type : msg.type with
  | rst => exact applyReliabilityState_tracks tracks.freeMessage .rstSet msg.messageID pckt.sender
  | ack => exact onAck_tracks tracks
  | con =>
    cases pRes with
    | some pRes => exact onRequest_tracks pRes tracks
    | none => exact onSeparateResponse_tracks tracks (sent rfl (.inl type))
  | non =>
    cases pRes with
    | some pRes => exact onRequest_tracks pRes tracks
    | none => exact onSeparateResponse_tracks tracks (sent rfl (.inr type))

theorem checkOptions_tracks (pRes : Option Nat) (tracks : Tracks resources none this heap [block])
    (sent : pRes = none → (msg.type = .con ∨ msg.type = .non) → checkForUnknownCriticalOption msg.options = 0 →
      ∀ pIA, this.findRequest msg pckt.sender = some pIA → pIA.state = .waitingResponse ∨ pIA.state = .handleResponse) :
    Tracks resources none (this.checkOptions env now pckt msg pRes)
      (this.checkOptionsMemory env now pckt msg pRes block heap) [] := by
  simp only [checkOptions, checkOptionsMemory]
  split
  next =>
    split
    next =>
      split
      next => exact sendShortResp_tracks _ _ _ _ _ _ _ _ tracks.freeMessage
      next => exact sendShortResp_tracks _ _ _ _ _ _ _ _ tracks.freeMessage
    next => exact tracks.freeMessage
  next known => exact dispatch_tracks pRes tracks fun none type => sent none type (not_not.mp known)

theorem onMessage_tracks (tracks : Tracks resources none this heap [block])
    (sent : msg.isRequest = false → ¬ (msg.type = .con ∧ msg.code = empty) → (msg.type = .con ∨ msg.type = .non) →
      checkForUnknownCriticalOption msg.options = 0 →
        ∀ pIA, this.findRequest msg pckt.sender = some pIA → pIA.state = .waitingResponse ∨ pIA.state = .handleResponse) :
    Tracks resources none (this.onMessage env now pckt msg) (this.onMessageMemory env now pckt msg block heap) [] := by
  simp only [onMessage, onMessageMemory]
  split
  next => exact sendShortResp_tracks _ _ _ _ _ _ _ _ tracks.freeMessage
  next noPing =>
    split
    next => exact tracks.freeMessage
    next =>
      split
      next => exact tracks.freeMessage
      next =>
        split
        next =>
          cases found : (findResourceByUri this.resources msg.options).filter fun pRes =>
              this.resources[pRes]?.any CoapResource.handler with
          | none =>
            simp only
            split
            next => exact sendShortResp_tracks _ _ _ _ _ _ _ _ tracks.freeMessage
            next =>
              have drawn : Tracks resources none this.getNextMid.2 (heap.freeMessage block) [] :=
                tracks.freeMessage.unlisted rfl (Nat.le_refl _)
              exact sendShortResp_tracks _ _ _ _ _ _ _ _ drawn
          | some pRes => exact checkOptions_tracks (some pRes) tracks fun none => by cases none
        next response =>
          exact checkOptions_tracks none tracks fun _ => sent (Bool.eq_false_iff.mpr response) noPing

theorem onNewPacketHandler_tracks (tracks : Tracks resources none this heap []) (owns : PacketOwns env this pckt now)
    (staged : ∀ pIA ∈ this.pInteractions, Staged pIA) :
    Tracks resources none (this.onNewPacketHandler env now pckt) (this.onNewPacketHandlerMemory env now pckt heap) [] := by
  unfold onNewPacketHandler onNewPacketHandlerMemory
  cases parsed : this.parsePacket env now pckt with
  | none => exact tracks.unlisted rfl (Nat.le_refl _)
  | some msg =>
    have noted : Tracks resources none { this with
        allocs := this.allocs + pckt.size.toNat + 1
        log := .received pckt msg :: this.log } heap.memGet.2 [heap.memGet.1] :=
      tracks.memGet.unlisted rfl (Nat.le_refl _)
    apply onMessage_tracks noted
    intro response noPing type known pIA found
    obtain ⟨member, awaits⟩ := findRequest_awaits found
    have stages := staged pIA member
    rw [Staged, awaits.role] at stages
    exact stages.resolve_left (owns msg parsed type response noPing known pIA found)

end

end CoapServer

end SmingCoap.Server
