import SmingCoap.Server.Invariants
import SmingCoap.Wire.StableInsert

/-! # Who observes a resource

A registration takes the old entry of its key out of the list of observers and
puts the new one at its end.  Nothing else adds to the list, so in every state
there is one entry at most for each key, behind a registration exactly one, and
none has changed where memory ran out.
-/

namespace SmingCoap.Server

open Wire (Opt insertBehind)

/-! ## Keys -/

/-- Interface, endpoint and token tell observers apart. -/
def Distinct (observers : List CoapObserver) : Prop :=
  ∀ ifID ep token, observers.countP (fun observer => observer.matches ifID ep token) ≤ 1

theorem CoapObserver.matches_iff (observer : CoapObserver) (ifID : UInt8) (ep : NetEp) (token : UInt64) :
    observer.matches ifID ep token = true ↔
      token = observer.token ∧ ifID = observer.ifID ∧ epAreEqual ep observer.ep = true := by
  simp [CoapObserver.matches, and_assoc]

/-- Which observers a key finds does not depend on how its endpoint is written. -/
theorem CoapObserver.matches_congr {new : CoapObserver} {ifID : UInt8} {ep : NetEp} {token : UInt64}
    (found : new.matches ifID ep token = true) (observer : CoapObserver) :
    observer.matches ifID ep token = observer.matches new.ifID new.ep new.token := by
  obtain ⟨sameToken, sameIfID, sameEp⟩ := (new.matches_iff ifID ep token).mp found
  rw [Bool.eq_iff_iff, matches_iff, matches_iff, sameToken, sameIfID]
  apply and_congr_right'
  apply and_congr_right'
  constructor
  · exact fun other => epAreEqual_trans (epAreEqual_symm sameEp) other
  · exact fun other => epAreEqual_trans sameEp other

theorem Distinct.eraseP {observers : List CoapObserver} (distinct : Distinct observers)
    (removed : CoapObserver → Bool) : Distinct (observers.eraseP removed) :=
  fun ifID ep token => (List.eraseP_sublist.countP_le ..).trans (distinct ifID ep token)

/-- Of the key that was taken out there is none left. -/
theorem Distinct.erased {observers : List CoapObserver} (distinct : Distinct observers) (ifID : UInt8)
    (ep : NetEp) (token : UInt64) :
    (observers.eraseP fun observer => observer.matches ifID ep token).filter
      (fun observer => observer.matches ifID ep token) = [] := by
  have one := distinct ifID ep token
  induction observers with
  | nil => rfl
  | cons first rest inductionHypothesis =>
    by_cases found : first.matches ifID ep token = true
    · -- the first one was the only one
      simp only [List.countP_cons, found, if_true] at one
      have none : rest.countP (fun observer => observer.matches ifID ep token) = 0 := by omega
      simpa [found, List.countP_eq_zero] using none
    · have behind : Distinct rest := fun ifID ep token =>
        ((List.sublist_cons_self first rest).countP_le ..).trans (distinct ifID ep token)
      simp only [List.countP_cons, found, Bool.false_eq_true, if_false] at one
      simp [found, inductionHypothesis behind one]

theorem CoapResource.filter_registered {resource : CoapResource} (distinct : Distinct resource.observers)
    {ifID : UInt8} {ep : NetEp} {token : UInt64} {new : CoapObserver} (key : new.matches ifID ep token = true) :
    ((resource.removeObserver ifID ep token).appendObserver new).observers.filter
      (fun observer => observer.matches ifID ep token) = [new] := by
  simp [appendObserver, removeObserver, List.filter_append, distinct.erased, key]

theorem Distinct.registered {resource : CoapResource} (distinct : Distinct resource.observers) {ifID : UInt8}
    {ep : NetEp} {token : UInt64} {new : CoapObserver} (key : new.matches ifID ep token = true) :
    Distinct ((resource.removeObserver ifID ep token).appendObserver new).observers := by
  intro otherIfID otherEp otherToken
  by_cases same : new.matches otherIfID otherEp otherToken = true
  · -- the other key is that of the registration
    have sameKey : (fun observer : CoapObserver => observer.matches otherIfID otherEp otherToken) =
        fun observer => observer.matches ifID ep token := by
      funext observer
      rw [CoapObserver.matches_congr same, CoapObserver.matches_congr key]
    rw [sameKey, List.countP_eq_length_filter, CoapResource.filter_registered distinct key]
    rfl
  · have kept := distinct.eraseP (fun observer => observer.matches ifID ep token) otherIfID otherEp otherToken
    simpa [CoapResource.appendObserver, CoapResource.removeObserver, List.countP_append, same] using kept

namespace CoapServer

/-! ## Properties of a resource -/

/-- What is kept by all that can happen to a resource. -/
structure ResourceStable (R : CoapResource → Prop) : Prop where
  fresh : ∀ resource : CoapResource, R { resource with observers := [], updateCnt := 0 }
  removed : ∀ {resource : CoapResource} ifID ep token, R resource → R (resource.removeObserver ifID ep token)
  updated : ∀ {resource : CoapResource} updateCnt, R resource → R { resource with updateCnt }
  registered : ∀ {resource : CoapResource} {pObserver : CoapObserver} {ifID ep token}, R resource →
    pObserver.matches ifID ep token = true →
      R ((resource.removeObserver ifID ep token).appendObserver pObserver)

section
variable {env : Env} {known : CoapObserver → Prop} {this after : CoapServer} {R : CoapResource → Prop}

theorem modifyResource_all {pRes : Nat} {change : CoapResource → CoapResource}
    (all : ∀ resource ∈ this.resources, R resource) (kept : ∀ resource, R resource → R (change resource)) :
    ∀ resource ∈ (this.modifyResource pRes change).resources, R resource := by
  intro changed listed
  obtain ⟨i, found⟩ := List.mem_iff_getElem?.mp listed
  rw [modifyResource, List.getElem?_modify, Option.map_eq_map, Option.map_eq_some_iff] at found
  obtain ⟨resource, found, rfl⟩ := found
  have earlier := all resource (List.mem_of_getElem? found)
  split
  next => exact kept resource earlier
  next => exact earlier

theorem CallAct.resources (stable : ResourceStable R) (all : ∀ resource ∈ this.resources, R resource)
    (act : CallAct env known this after) : ∀ resource ∈ after.resources, R resource := by
  cases act with
  | silent same => rwa [same.resources]
  | nextMid => exact all
  | flag => exact all
  | client => exact all
  | notification => exact all
  | removeObserver pRes ifID ep token => exact modifyResource_all all fun _ => stable.removed ifID ep token
  | update pRes => exact modifyResource_all all fun resource => stable.updated _

theorem Calls.resources (stable : ResourceStable R) (all : ∀ resource ∈ this.resources, R resource)
    (calls : Calls env known this after) : ∀ resource ∈ after.resources, R resource := by
  induction calls with
  | refl => exact all
  | tail _ act inductionHypothesis => exact act.resources stable inductionHypothesis

theorem Begins.resources {pIA : CoapInteraction} (begins : Begins pIA this after) :
    after.resources = this.resources := by
  cases begins with
  | nothing same => exact same.resources
  | handled _ _ _ _ resources => exact resources

theorem removeInteractionsObserver_all (stable : ResourceStable R) (all : ∀ resource ∈ this.resources, R resource)
    (pIA : CoapInteraction) (token : UInt64) :
    ∀ resource ∈ (this.removeInteractionsObserver pIA token).resources, R resource := by
  unfold removeInteractionsObserver
  cases pIA.pRes with
  | none => exact all
  | some pRes => exact modifyResource_all all fun _ => stable.removed _ _ _

theorem Registers.matches {pIA : CoapInteraction} {req : CoapMessage} {pObserver : CoapObserver}
    (registers : Registers pIA req pObserver) :
    pObserver.matches pIA.ifID pIA.remoteEp req.token64 = true := by
  rw [CoapObserver.matches_iff, registers.token, registers.ifID, registers.ep]
  exact ⟨rfl, rfl, epAreEqual_refl _⟩

theorem Observes.resources (stable : ResourceStable R) (all : ∀ resource ∈ this.resources, R resource)
    {pIA : CoapInteraction} (observes : Observes pIA this after) : ∀ resource ∈ after.resources, R resource := by
  cases observes with
  | nothing same => rwa [same.resources]
  | registered registers _ middle same changed =>
    rw [changed]
    have before : ∀ resource ∈ middle.resources, R resource := same.resources ▸ all
    exact modifyResource_all before fun resource kept => stable.registered kept registers.matches
  | removed token _ changed =>
    rw [changed]
    exact removeInteractionsObserver_all stable all pIA token
  | aborted token _ _ _ changed =>
    rw [changed]
    exact removeInteractionsObserver_all stable all pIA token

theorem Ends.resources {now : UInt32} {listed : List CoapResource} {pIA : CoapInteraction}
    (ends : Ends env now listed pIA this after) : after.resources = this.resources := by
  cases ends with
  | deleted placed => exact placed.resources
  | last _ placed => exact placed.resources
  | first _ _ placed => exact placed.resources

theorem Receives.resources {now : UInt32} {pckt : NetPacket} {msg : CoapMessage}
    (receives : Receives env now pckt msg this after) : after.resources = this.resources := by
  cases receives with
  | answered _ placed => exact placed.resources
  | duplicate _ _ _ _ _ placed => exact placed.resources
  | admitted _ _ middle same started =>
    rw [started]
    exact same.resources
  | touched _ _ _ _ placed => exact placed.resources

/-- The states in which a turn can get to the Observe option of its request. -/
def Midway (env : Env) (pIA : CoapInteraction) (this midway : CoapServer) : Prop :=
  ∃ prepared begun, Calls env this.IsObserver this prepared ∧ Begins pIA prepared begun ∧
    Calls env this.IsObserver begun midway

theorem Midway.resources (stable : ResourceStable R) {pIA : CoapInteraction} {midway : CoapServer}
    (halfway : Midway env pIA this midway) (all : ∀ resource ∈ this.resources, R resource) :
    ∀ resource ∈ midway.resources, R resource := by
  obtain ⟨prepared, begun, prepares, begins, calls⟩ := halfway
  apply calls.resources stable
  rw [begins.resources]
  exact prepares.resources stable all

theorem Turn.resources (stable : ResourceStable R) {now : UInt32} {pIA : CoapInteraction}
    (turn : Turn env this.IsObserver now pIA this after) (all : ∀ resource ∈ this.resources, R resource) :
    ∀ resource ∈ after.resources, R resource := by
  obtain ⟨prepared, begun, called, observed, ready, prepares, begins, calls, observes, finishes, ends⟩ := turn
  have halfway := Midway.resources stable ⟨prepared, begun, prepares, begins, calls⟩ all
  rw [ends.resources]
  exact finishes.resources stable (observes.resources stable halfway)

theorem step_resources (stable : ResourceStable R) {event : Event}
    (staged : ∀ pIA ∈ this.pInteractions, Staged pIA) (all : ∀ resource ∈ this.resources, R resource)
    (taken : step env this event = some after) : ∀ resource ∈ after.resources, R resource := by
  cases event with
  | packet pckt now =>
    cases taken
    cases onNewPacketHandler_cases env this now pckt with
    | inl unparsed => rwa [unparsed.2.resources]
    | inr received =>
      obtain ⟨msg, _, receives⟩ := received
      rw [receives.resources]
      exact all
  | doWork now =>
    cases list : this.pInteractions with
    | nil =>
      have stays : this = after := Option.some.inj ((doWork_nil list).symm.trans taken)
      rwa [← stays]
    | cons pIA rest =>
      have turn := doWork_turn list (staged pIA (list ▸ List.mem_cons_self)) taken
      exact turn.resources stable all
  | call request =>
    cases taken
    have calls : Calls env (fun _ => True) this (this.call env request) := call_calls (fun _ _ => trivial) request
    exact calls.resources stable all

/-- A stable property holds of every resource in every state that is reached. -/
theorem Reaches.resources (stable : ResourceStable R) {resources : List CoapResource}
    (reaches : Reaches env resources this) : ∀ resource ∈ this.resources, R resource := by
  induction reaches with
  | refl =>
    intro resource listed
    obtain ⟨other, _, rfl⟩ := List.mem_map.mp listed
    exact stable.fresh other
  | next before event _ taken inductionHypothesis =>
    have staged := fun pIA member => ((run_shaped before).interactions pIA member).staged
    exact step_resources stable staged inductionHypothesis taken

end

theorem distinct_stable : ResourceStable fun resource => Distinct resource.observers where
  fresh := fun _ _ _ _ => by simp
  removed := fun _ _ _ distinct => distinct.eraseP _
  updated := fun _ distinct => distinct
  registered := fun distinct key => distinct.registered key

/-! ## Registrations -/

/-- The options that a registration copies. -/
def Copied (option : Opt) : Bool := option.number = optNumUriQuery ∨ option.number = optNumObserve

theorem appendOptionToList_ok {available : Bool} {options sorted : List Opt} {option : Opt}
    (appended : appendOptionToList available options option = (.ok, sorted)) :
    sorted = insertBehind Opt.number option options := by
  rw [Wire.insertBehind_eq]
  cases available with
  | false => simp [appendOptionToList] at appended
  | true => simpa [appendOptionToList] using appended.symm

/-- With memory for each of them they come out sorted. -/
theorem copyObserverOptions_some {env : Env} {this after : CoapServer} {options kept copied : List Opt}
    (made : copyObserverOptions env this kept options = (some copied, after)) :
    copied = (options.filter Copied).foldl (fun sorted option => insertBehind Opt.number option sorted) kept := by
  induction options generalizing this kept with
  | nil =>
    simp only [copyObserverOptions, Prod.mk.injEq, Option.some.injEq] at made
    exact made.1.symm
  | cons option rest inductionHypothesis =>
    rw [copyObserverOptions] at made
    split at made
    next relevant =>
      simp only at made
      split at made
      next sorted appended =>
        rw [List.filter_cons_of_pos (by simpa [Copied] using relevant), List.foldl_cons,
          ← appendOptionToList_ok appended]
        exact inductionHypothesis made
      next => cases made
    next other =>
      rw [List.filter_cons_of_neg (by simpa [Copied] using other)]
      exact inductionHypothesis made

/-- What a registration leaves: one entry of its key, with the options of the request. -/
structure Registered (pIA : CoapInteraction) (pRes : Nat) (req : CoapMessage) (after : CoapServer)
    (pObserver : CoapObserver) : Prop where
  only : ∃ resource, after.resources[pRes]? = some resource ∧
    resource.observers.filter (fun observer => observer.matches pIA.ifID pIA.remoteEp req.token64) = [pObserver]
  key : pObserver.ifID = pIA.ifID ∧ pObserver.ep = pIA.remoteEp ∧ pObserver.token = req.token64
  options : pObserver.options =
    (req.options.filter Copied).insertionSort (fun first later => first.number ≤ later.number)

section
variable {env : Env} {this after : CoapServer} {pIA : CoapInteraction} {pRes : Nat} {req : CoapMessage}
  {origin : NetPacket}

theorem registerObserver_ok (distinct : ∀ resource ∈ this.resources, Distinct resource.observers)
    {resource : CoapResource} (found : this.resources[pRes]? = some resource)
    (registered : this.registerObserver env pIA pRes req origin = (.ok, after)) :
    ∃ pObserver, Registered pIA pRes req after pObserver := by
  unfold registerObserver memGet at registered
  cases available : env.alloc this.allocs with
  | false => simp [available] at registered
  | true =>
    simp only [available] at registered
    have copied := copyObserverOptions_silent env req.options []
      { this with allocs := this.allocs + 1, observers := this.observers + 1 }
    split at registered
    next => cases registered
    next options middle made =>
      rw [made] at copied
      simp only [Prod.mk.injEq, true_and] at registered
      have key : CoapObserver.matches ⟨this.observers, pIA.remoteEp, pIA.ifID, req.token64, options, origin⟩
          pIA.ifID pIA.remoteEp req.token64 = true := by
        simp [CoapObserver.matches, epAreEqual_refl]
      refine ⟨_, ⟨_, ?_, CoapResource.filter_registered (distinct resource (List.mem_of_getElem? found)) key⟩,
        ⟨rfl, rfl, rfl⟩, ?_⟩
      · rw [← registered, modifyResource, List.getElem?_modify, copied.resources, found]
        simp
      · rw [copyObserverOptions_some made, Wire.foldl_insertBehind]

theorem handleObservationInReq_ok (distinct : ∀ resource ∈ this.resources, Distinct resource.observers)
    (registered : this.handleObservationInReq env pIA pRes req origin = (.ok, after)) :
    ∃ pObserver, Registered pIA pRes req after pObserver := by
  unfold handleObservationInReq at registered
  split at registered
  next => cases registered
  next resource found =>
    split at registered
    next => cases registered
    next =>
      split at registered
      next => cases registered
      next =>
        split at registered
        next => exact registerObserver_ok distinct found registered
        next =>
          split at registered
          next =>
            simp only at registered
            split at registered <;> cases registered
          next => cases registered

theorem registerObserver_outOfMemory
    (failed : this.registerObserver env pIA pRes req origin = (.errOutOfMemory, after)) :
    after.resources = this.resources := by
  unfold registerObserver memGet at failed
  cases available : env.alloc this.allocs with
  | false =>
    simp only [available, Prod.mk.injEq, true_and] at failed
    rw [← failed]
  | true =>
    simp only [available] at failed
    have copied := copyObserverOptions_silent env req.options []
      { this with allocs := this.allocs + 1, observers := this.observers + 1 }
    split at failed
    next middle made =>
      rw [made] at copied
      cases failed
      exact copied.resources
    next => cases failed

theorem handleObservationInReq_outOfMemory
    (failed : this.handleObservationInReq env pIA pRes req origin = (.errOutOfMemory, after)) :
    after.resources = this.resources := by
  unfold handleObservationInReq at failed
  split at failed
  next => cases failed
  next =>
    split at failed
    next => cases failed
    next =>
      split at failed
      next => cases failed
      next =>
        split at failed
        next => exact registerObserver_outOfMemory failed
        next =>
          split at failed
          next =>
            simp only at failed
            split at failed <;> cases failed
          next => cases failed

end

/-- In every state that is reached a key has one observer at most.  Wherever a turn gets to the Observe
option of its request, a registration leaves exactly one, with the options of the request, and one that
fails for lack of memory leaves the resources as they are. -/
theorem observers_registered (env : Env) (resources : List CoapResource) (this : CoapServer)
    (reaches : Reaches env resources this) :
    (∀ resource ∈ this.resources, Distinct resource.observers) ∧
      ∀ pIA midway, Midway env pIA this midway → ∀ pRes req origin result after,
        midway.handleObservationInReq env pIA pRes req origin = (result, after) →
          (result = .ok → ∃ pObserver, Registered pIA pRes req after pObserver) ∧
            (result = .errOutOfMemory → after.resources = midway.resources) := by
  have distinct := reaches.resources distinct_stable
  constructor
  · exact distinct
  · intro pIA midway halfway pRes req origin result after handled
    constructor
    · intro ok
      exact handleObservationInReq_ok (halfway.resources distinct_stable distinct) (ok ▸ handled)
    · intro failed
      exact handleObservationInReq_outOfMemory (failed ▸ handled)

theorem Midway.refl (env : Env) (pIA : CoapInteraction) (this : CoapServer) : Midway env pIA this this :=
  ⟨this, this, calls_refl, .nothing (.refl this), calls_refl⟩

/-- The first registration. -/
theorem sensor_observer_registered : ∃ (this after : CoapServer) (pIA : CoapInteraction) (req : CoapMessage)
    (pObserver : CoapObserver), this.pInteractions = [pIA] ∧ pIA.pReqMsg = some req ∧
      Registered pIA 0 req after pObserver := by
  have reached : ([Event.packet (datagram 0 observeSensor) 0].foldlM (step idealEnv) (new [sensor])).map
      (fun this => this.pInteractions.map fun pIA => pIA.pReqMsg.map fun req =>
        (this.handleObservationInReq idealEnv pIA 0 req (datagram 0 observeSensor)).1) = some [some .ok] := by
    decide +kernel
  obtain ⟨this, taken, facts⟩ := Option.map_eq_some_iff.mp reached
  obtain ⟨pIA, list, facts⟩ := List.map_eq_singleton_iff.mp facts
  obtain ⟨req, request, ok⟩ := Option.map_eq_some_iff.mp facts
  obtain ⟨_, registrations⟩ := observers_registered idealEnv [sensor] this (.of_events _ .refl taken)
  obtain ⟨registered, _⟩ := registrations pIA this (.refl idealEnv pIA this) 0 req (datagram 0 observeSensor) _ _ rfl
  obtain ⟨pObserver, registered⟩ := registered ok
  exact ⟨this, _, pIA, req, pObserver, list, request, registered⟩

end CoapServer

end SmingCoap.Server
