import SmingCoap.Server.Invariants

/-! # Which requests are served

A request becomes a server interaction behind a chain of checks, and nothing
that happens later to an interaction touches what was checked.
-/

namespace SmingCoap.Server

namespace CoapServer

/-- What is checked before a request is served. -/
structure Admissible (resources : List CoapResource) (pIA : CoapInteraction) (req : CoapMessage) : Prop where
  request : pIA.pReqMsg = some req
  type : req.type = .con ∨ req.type = .non
  code : req.code = reqGet ∨ req.code = reqPost ∨ req.code = reqPut ∨ req.code = reqDelete
  critical : ∀ option ∈ req.options, option.number % 2 = 1 → option.number ∈ knownOptions
  resource : ∃ pRes resource, pIA.pRes = some pRes ∧ resources[pRes]? = some resource ∧
    resource.handler = true ∧ uriPath resource.uri = uriPath req.options

theorem isRequest_code {msg : CoapMessage} (request : msg.isRequest = true) :
    msg.code = reqGet ∨ msg.code = reqPost ∨ msg.code = reqPut ∨ msg.code = reqDelete := by
  simp only [CoapMessage.isRequest, ne_eq, Bool.and_eq_true, decide_eq_true_eq] at request
  obtain ⟨notEmpty, bounded⟩ := request
  have notZero : msg.code.toNat ≠ 0 := fun zero => notEmpty (UInt8.toNat_inj.mp zero)
  have bound : msg.code.toNat ≤ 4 := bounded
  have cases : msg.code.toNat = 1 ∨ msg.code.toNat = 2 ∨ msg.code.toNat = 3 ∨ msg.code.toNat = 4 := by omega
  rcases cases with one | two | three | four
  · exact .inl (UInt8.toNat_inj.mp one)
  · exact .inr (.inl (UInt8.toNat_inj.mp two))
  · exact .inr (.inr (.inl (UInt8.toNat_inj.mp three)))
  · exact .inr (.inr (.inr (UInt8.toNat_inj.mp four)))

theorem critical_known {options : List Wire.Opt} (checked : checkForUnknownCriticalOption options = 0) :
    ∀ option ∈ options, option.number % 2 = 1 → option.number ∈ knownOptions := by
  induction options with
  | nil =>
    intro option member
    cases member
  | cons first rest inductionHypothesis =>
    rw [checkForUnknownCriticalOption] at checked
    split at checked
    next unknown =>
      rw [checked] at unknown
      exact absurd rfl unknown.2
    next known =>
      intro option member odd
      cases List.mem_cons.mp member with
      | inl same =>
        subst same
        by_contra unknown
        apply known
        refine ⟨unknown, ?_⟩
        rw [optFlagCritical, Nat.and_one_is_mod, odd]
        decide
      | inr later => exact inductionHypothesis checked option later odd

/-- A resource that was found has the path of the request. -/
theorem findResourceByUri_path {resources : List CoapResource} {options : List Wire.Opt} {pRes : Nat}
    {resource : CoapResource} (found : findResourceByUri resources options = some pRes)
    (listed : resources[pRes]? = some resource) : uriPath resource.uri = uriPath options := by
  obtain ⟨bound, equal, _⟩ := List.findIdx?_eq_some_iff_getElem.mp found
  rw [List.getElem?_eq_getElem bound, Option.some.injEq] at listed
  rw [listed] at equal
  exact (uriOptionsAreEqual_iff _ _).mp equal

theorem Admits.admissible {this : CoapServer} {resources : List CoapResource} {msg : CoapMessage} {pRes ref : Nat}
    {resource : CoapResource} {pckt : NetPacket} (layouts : layout this.resources = layout resources)
    (admits : Admits this msg pRes resource) :
    Admissible resources { CoapInteraction.serving msg pRes pckt with ref } msg := by
  obtain ⟨kept, listed, same⟩ := layout_getElem? layouts.symm admits.listed
  obtain ⟨_, uri, handler, _⟩ := layout_singleton same
  refine ⟨rfl, admits.type, isRequest_code admits.request, critical_known admits.options, pRes, kept, rfl,
    listed, handler.trans admits.handler, ?_⟩
  rw [uri]
  exact findResourceByUri_path admits.found admits.listed

theorem Admissible.congr {resources : List CoapResource} {pIA worked : CoapInteraction} {req : CoapMessage}
    (admissible : Admissible resources pIA req) (pReqMsg : worked.pReqMsg = pIA.pReqMsg)
    (pRes : worked.pRes = pIA.pRes) : Admissible resources worked req := by
  obtain ⟨request, type, code, critical, resource⟩ := admissible
  exact ⟨pReqMsg.trans request, type, code, critical, pRes ▸ resource⟩

/-- An interaction that serves an admissible request. -/
def Admitted (resources : List CoapResource) (pIA : CoapInteraction) : Prop :=
  pIA.role = .server → ∃ req, Admissible resources pIA req

theorem Admitted.congr {resources : List CoapResource} {pIA worked : CoapInteraction}
    (admitted : Admitted resources pIA) (role : worked.role = pIA.role)
    (kept : pIA.role ≠ .client → worked.pRes = pIA.pRes ∧ worked.pReqMsg = pIA.pReqMsg) :
    Admitted resources worked := by
  intro server
  rw [role] at server
  obtain ⟨req, admissible⟩ := admitted server
  obtain ⟨pRes, pReqMsg⟩ := kept (by rw [server]; decide)
  exact ⟨req, admissible.congr pReqMsg pRes⟩

/-- A handler ran on an admissible request. -/
def HandledAdmitted (resources : List CoapResource) : Effect → Prop
  | .handled pIA req => Admissible resources pIA req
  | _ => True

theorem admitted_stable (env : Env) (resources : List CoapResource) :
    Stable env resources (fun _ _ => True) (fun _ pIA => Admitted resources pIA)
      (fun _ effect => HandledAdmitted resources effect) (fun _ _ => True) where
  foreign := fun admitted _ => admitted
  observer := fun _ _ => trivial
  nextMid := fun _ _ => trivial
  received := fun _ => trivial
  replies := by
    intro log pckt msg effect _ replies
    cases replies with
    | nextMid => trivial
    | sent => trivial
  flagged := fun admitted _ => admitted.congr rfl fun _ => ⟨rfl, rfl⟩
  client := fun _ _ _ _ _ server => nomatch server
  notification := fun _ _ _ _ _ _ server => nomatch server
  serving := fun layouts _ admits _ _ => ⟨_, admits.admissible layouts⟩
  duplicate := fun _ admitted _ _ _ _ => ⟨trivial, admitted⟩
  touched := by
    intro this pckt now msg pIA worked _ _ _ _ admitted touches
    obtain ⟨_, role, pRes, _, _, _, pReqMsg⟩ := touches.identity
    exact admitted.congr role fun _ => ⟨pRes, pReqMsg⟩
  handled := by
    intro log pIA req admitted role _ request
    obtain ⟨other, admissible⟩ := admitted role
    have same : other = req := Option.some.inj (admissible.request.symm.trans request)
    exact ⟨same ▸ admissible, admitted⟩
  works := by
    intro listed log now pIA effects worked _ _ admitted works
    obtain ⟨role, _, _, kept⟩ := works.identity
    constructor
    · intro effect member
      cases works with
      | waits => cases member
      | sleeps => cases member
      | refreshes => cases member
      | _ =>
        rw [List.mem_singleton.mp member]
        trivial
    · exact admitted.congr role fun other => ⟨(kept other).1, (kept other).2.2⟩
  registers := fun _ _ => trivial

/-- Every server interaction, in every state that is reached, serves an admissible request, and so did
every interaction that a handler ran for. -/
theorem requests_admitted (env : Env) (resources : List CoapResource) (this : CoapServer)
    (reaches : Reaches env resources this) :
    (∀ pIA ∈ this.pInteractions, pIA.role = .server → ∃ req, Admissible this.resources pIA req) ∧
      ∀ pIA req, .handled pIA req ∈ this.log → Admissible this.resources pIA req := by
  have holds := (admitted_stable env resources).holds reaches
  -- what is checked of a resource is never changed
  have now : ∀ {pIA req}, Admissible resources pIA req → Admissible this.resources pIA req := by
    intro pIA req admissible
    obtain ⟨request, type, code, critical, pRes, resource, pResOf, listed, handler, path⟩ := admissible
    obtain ⟨kept, found, same⟩ := layout_getElem? holds.layouts listed
    obtain ⟨_, uri, sameHandler, _⟩ := layout_singleton same
    exact ⟨request, type, code, critical, pRes, kept, pResOf, found, sameHandler.trans handler, uri ▸ path⟩
  constructor
  · intro pIA member server
    obtain ⟨req, admissible⟩ := holds.interactions pIA member server
    exact ⟨req, now admissible⟩
  · intro pIA req handled
    obtain ⟨later, earlier, split⟩ := List.append_of_mem handled
    exact now (split ▸ holds.effects : Noted _ _).split

/-- With a request under way. -/
theorem sensor_requests_admitted : ∃ this : CoapServer,
    this.pInteractions.map CoapInteraction.role = [.server] ∧
      ∀ pIA ∈ this.pInteractions, pIA.role = .server → ∃ req, Admissible this.resources pIA req := by
  have reached : ([Event.packet (datagram 0 getSensor) 0].foldlM (step idealEnv) (new [sensor])).map
      (fun this => this.pInteractions.map CoapInteraction.role) = some [.server] := by
    decide +kernel
  obtain ⟨this, taken, roles⟩ := Option.map_eq_some_iff.mp reached
  exact ⟨this, roles, (requests_admitted idealEnv [sensor] this (.of_events _ .refl taken)).1⟩

end CoapServer

end SmingCoap.Server
