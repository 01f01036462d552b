import SmingCoap.Server.Interaction

/-! # The search by message id

`CoAP_GetInteractionByMessageID` looks at the head of the list, and then at each
node that has a next one.  The last of two or more nodes, where
`CoAP_AppendInteractionToList` puts a new interaction, is not looked at.
-/

namespace SmingCoap.Server

/-- The request has the message id. -/
def CoapInteraction.requests (pIA : CoapInteraction) (mId : UInt16) : Bool :=
  pIA.pReqMsg.any fun msg => msg.messageID = mId.toNat

namespace CoapServer

/-- The loop of `CoAP_GetInteractionByMessageID`, at a node and with those behind it. -/
def searchLoop (mId : UInt16) : CoapInteraction → List CoapInteraction → Option CoapInteraction
  | _, [] => none
  | pList, next :: rest => if pList.requests mId then some pList else searchLoop mId next rest

/-- `CoAP_GetInteractionByMessageID`. -/
def getInteractionByMessageID (this : CoapServer) (mId : UInt16) : Option CoapInteraction :=
  match this.pInteractions with
  | [] => none
  | pList :: rest => if pList.requests mId then some pList else searchLoop mId pList rest

section
variable {mId : UInt16}

/-- The loop leaves out the last node. -/
theorem searchLoop_eq (pList : CoapInteraction) (rest : List CoapInteraction) :
    searchLoop mId pList rest = (pList :: rest).dropLast.find? (·.requests mId) := by
  induction rest generalizing pList with
  | nil => rfl
  | cons next rest inductionHypothesis =>
    rw [searchLoop, inductionHypothesis, List.dropLast_cons_cons, List.find?_cons]
    cases pList.requests mId <;> rfl

/-- Behind the test of the head only the loop counts, but for a list of one node. -/
theorem getInteractionByMessageID_eq {this : CoapServer} (several : 1 < this.pInteractions.length) :
    this.getInteractionByMessageID mId = this.pInteractions.dropLast.find? (·.requests mId) := by
  unfold getInteractionByMessageID
  split
  next empty =>
    rw [empty] at several
    cases several
  next pList rest list =>
    cases rest with
    | nil =>
      rw [list] at several
      cases several with
      | step impossible => cases impossible
    | cons next rest =>
      rw [list, searchLoop_eq, List.dropLast_cons_cons, List.find?_cons]
      cases pList.requests mId <;> rfl

theorem getInteractionByMessageID_short {this : CoapServer} (short : this.pInteractions.length ≤ 1) :
    this.getInteractionByMessageID mId = this.pInteractions.find? (·.requests mId) := by
  unfold getInteractionByMessageID
  split
  next empty => rw [empty, List.find?_nil]
  next pList rest list =>
    obtain rfl : rest = [] := by simpa [list] using short
    rw [list, searchLoop, List.find?_singleton]

/-- The first interaction with the message id is found, and nothing if there is none, exactly when the list has one
node at most, or its last node does not have the message id, or an earlier one has it too. -/
theorem getInteractionByMessageID_finds_iff (this : CoapServer) (mId : UInt16) :
    this.getInteractionByMessageID mId = this.pInteractions.find? (·.requests mId) ↔
      this.pInteractions.length ≤ 1 ∨ (∀ last ∈ this.pInteractions.getLast?, last.requests mId = false) ∨
        ∃ pIA ∈ this.pInteractions.dropLast, pIA.requests mId = true := by
  by_cases short : this.pInteractions.length ≤ 1
  · simp [getInteractionByMessageID_short short, short]
  rw [getInteractionByMessageID_eq (Nat.not_le.mp short)]
  obtain ⟨last, found⟩ : ∃ last, this.pInteractions.getLast? = some last := by
    rw [← Option.isSome_iff_exists, List.getLast?_isSome]
    rintro empty
    simp [empty] at short
  -- the whole list is what the loop looks at, and the last node
  have split : this.pInteractions.dropLast ++ [last] = this.pInteractions :=
    List.dropLast_append_getLast? last found
  have whole : this.pInteractions.find? (·.requests mId) =
      (this.pInteractions.dropLast.find? (·.requests mId)).or ([last].find? (·.requests mId)) := by
    rw [← List.find?_append, split]
  rw [whole]
  cases earlier : this.pInteractions.dropLast.find? (·.requests mId) with
  | some pIA =>
    have member := List.mem_of_find?_eq_some earlier
    have requests : pIA.requests mId = true := by simpa using List.find?_some earlier
    exact ⟨fun _ => .inr (.inr ⟨pIA, member, requests⟩), fun _ => rfl⟩
  | none =>
    have nobody : ¬ ∃ pIA ∈ this.pInteractions.dropLast, pIA.requests mId = true := by
      simpa using earlier
    simp only [Option.none_or, short, nobody, found, Option.mem_some_iff, forall_eq', false_or, or_false,
      List.find?_singleton]
    cases last.requests mId with
    | true => simp
    | false => simp

/-- An interaction that was appended to others is not found, whatever its message id is. -/
theorem getInteractionByMessageID_appended {this : CoapServer} (others : this.pInteractions ≠ [])
    (unasked : ∀ other ∈ this.pInteractions, other.requests mId = false) (pIA : CoapInteraction) :
    (this.appendInteraction pIA).getInteractionByMessageID mId = none := by
  have list : (this.appendInteraction pIA).pInteractions = this.pInteractions ++ [pIA] := rfl
  have several : 1 < (this.appendInteraction pIA).pInteractions.length := by
    rw [list, List.length_append, List.length_singleton]
    exact Nat.lt_add_of_pos_left (List.length_pos_iff.mpr others)
  rw [getInteractionByMessageID_eq several, list, List.dropLast_concat, List.find?_eq_none]
  intro other member
  simp [unasked other member]

end

/-- A GET of a client, with the message id. -/
def clientGet (mId : UInt16) : CoapInteraction :=
  .requesting { coapInitToEmptyResetMsg with type := .con, code := reqGet, messageID := mId.toNat } 0
    ⟨.ipv4, List.replicate netAddrMaxLength 0, 5683, rfl⟩ true

/-- Of two requests the second is not found by its message id. -/
theorem second_request_missed : ¬ ∀ (this : CoapServer) (mId : UInt16),
    this.getInteractionByMessageID mId = this.pInteractions.find? (·.requests mId) := by
  intro found
  have second := found (((new []).appendInteraction (clientGet 1)).appendInteraction (clientGet 2)) 2
  have missed : (((new []).appendInteraction (clientGet 1)).appendInteraction (clientGet 2)).getInteractionByMessageID
      2 = none := by
    rfl
  rw [missed] at second
  cases second

end CoapServer

end SmingCoap.Server
