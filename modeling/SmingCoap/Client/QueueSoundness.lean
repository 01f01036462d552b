import SmingCoap.Client.Queue
import SmingCoap.Wire.StableInsert

/-! # The delta queue as a list of times

`absolute` reads a queue with the times counted from a base.  There an insertion puts the node at its own time
behind the entries that are not later, and a removal takes the first entry with the id out; no other entry changes
(`delta_queue_keeps_times`).  The two read-only operations are sound on the empty queue only
(`queue_reads_iff`).
-/

namespace SmingCoap

/-- Every `t` counted from `base`. -/
def absolute : Nat → List CoapQueueNode → List CoapQueueNode
  | _, [] => []
  | base, node :: rest => { node with t := base + node.t } :: absolute (base + node.t) rest

/-- When the last entry fires. -/
def span (queue : List CoapQueueNode) : Nat := (queue.map CoapQueueNode.t).sum

@[simp] theorem span_nil : span [] = 0 := rfl

@[simp] theorem span_cons (node : CoapQueueNode) (rest : List CoapQueueNode) :
    span (node :: rest) = node.t + span rest := rfl

/-! ## Times that fit -/

theorem timestampSub_of_le {a b : Nat} (small : a < 2 ^ 32) (order : b ≤ a) : timestampSub a b = a - b := by
  rw [timestampSub]
  omega

theorem timestampAdd_of_lt {a b : Nat} (small : a + b < 2 ^ 32) : timestampAdd a b = a + b :=
  Nat.mod_eq_of_lt small

/-- The walk on 32 bit fields is the walk on numbers, and takes no more away than there is. -/
theorem coapAddNodeWalk_eq {queue : List CoapQueueNode} (node : CoapQueueNode) (fits : span queue < 2 ^ 32)
    (nodeFits : node.t < 2 ^ 32) :
    (coapAddNodeWalk queue node).1 = coapAddNode queue node ∧
      ∀ subtraction ∈ (coapAddNodeWalk queue node).2, subtraction.2 ≤ subtraction.1 := by
  induction queue generalizing node with
  | nil => simp [coapAddNodeWalk, coapAddNode]
  | cons q rest inductionHypothesis =>
    rw [span_cons] at fits
    rw [coapAddNodeWalk, coapAddNode]
    split
    next earlier =>
      have small : q.t < 2 ^ 32 := by omega
      simp [timestampSub_of_le small (Nat.le_of_lt earlier), Nat.le_of_lt earlier]
    next later =>
      have order : q.t ≤ node.t := by omega
      obtain ⟨same, bounded⟩ := inductionHypothesis { node with t := node.t - q.t } (by omega)
        (show node.t - q.t < 2 ^ 32 by omega)
      rw [timestampSub_of_le nodeFits order]
      exact ⟨congrArg (q :: ·) same, List.forall_mem_cons.mpr ⟨order, bounded⟩⟩

theorem coapRemoveNodeWalk_eq {queue : List CoapQueueNode} (nodeId : CoapTid) (fits : span queue < 2 ^ 32) :
    coapRemoveNodeWalk queue nodeId =
      (if ∃ node ∈ queue, node.id = nodeId then 1 else 0, coapRemoveNode queue nodeId) := by
  induction queue with
  | nil => simp [coapRemoveNodeWalk, coapRemoveNode]
  | cons q rest inductionHypothesis =>
    rw [span_cons] at fits
    rw [coapRemoveNodeWalk, coapRemoveNode]
    split
    next found =>
      have same : handOverWalk q.t rest = handOver q.t rest := by
        cases rest with
        | nil => rfl
        | cons behind rest =>
          rw [span_cons] at fits
          rw [handOverWalk, handOver, timestampAdd_of_lt (by omega)]
      simp [found, same]
    next other => simp [inductionHypothesis (by omega), other]

/-! ## Insertion and removal -/

theorem le_of_mem_absolute {base : Nat} {queue : List CoapQueueNode} {entry : CoapQueueNode}
    (member : entry ∈ absolute base queue) : base ≤ entry.t := by
  induction queue generalizing base with
  | nil => cases member
  | cons node rest inductionHypothesis =>
    cases List.mem_cons.mp member with
    | inl first => simp [first]
    | inr later => exact Nat.le_trans (Nat.le_add_right base node.t) (inductionHypothesis later)

/-- The entries that are not later than the node stand in front of it, the others behind; induction on the walk. -/
theorem absolute_coapAddNode (base : Nat) (queue : List CoapQueueNode) (node : CoapQueueNode) :
    ∃ front behind, absolute base queue = front ++ behind ∧
      absolute base (coapAddNode queue node) = front ++ { node with t := base + node.t } :: behind ∧
      (∀ entry ∈ front, entry.t ≤ base + node.t) ∧ ∀ entry ∈ behind, base + node.t < entry.t := by
  induction queue generalizing base node with
  | nil => exact ⟨[], [], rfl, rfl, nofun, nofun⟩
  | cons q rest inductionHypothesis =>
    rw [coapAddNode]
    split
    next earlier =>
      -- what is taken from the successor comes back with the new base
      have same : base + node.t + (q.t - node.t) = base + q.t := by omega
      refine ⟨[], absolute base (q :: rest), rfl, by simp [absolute, same], nofun, fun entry member => ?_⟩
      cases List.mem_cons.mp member with
      | inl first => simp [first, earlier]
      | inr later =>
        have bound := le_of_mem_absolute later
        omega
    next later =>
      have same : base + q.t + (node.t - q.t) = base + node.t := by omega
      obtain ⟨front, behind, split, added, before, after⟩ :=
        inductionHypothesis (base + q.t) { node with t := node.t - q.t }
      simp only [same] at added before after
      refine ⟨{ q with t := base + q.t } :: front, behind, by simp [absolute, split], by simp [absolute, added], ?_,
        after⟩
      intro entry member
      cases List.mem_cons.mp member with
      | inl first =>
        rw [first]
        exact Nat.add_le_add_left (Nat.le_of_not_lt later) base
      | inr old => exact before entry old

/-- The entry behind the removed one takes its time over, so its own stays where it was. -/
theorem absolute_handOver (base t : Nat) (rest : List CoapQueueNode) :
    absolute base (handOver t rest) = absolute (base + t) rest := by
  cases rest with
  | nil => rfl
  | cons behind rest =>
    have same : base + (behind.t + t) = base + t + behind.t := by omega
    simp [handOver, absolute, same]

theorem absolute_coapRemoveNode (base : Nat) (queue : List CoapQueueNode) (nodeId : CoapTid) :
    absolute base (coapRemoveNode queue nodeId) =
      (absolute base queue).eraseP fun entry => entry.id = nodeId := by
  induction queue generalizing base with
  | nil => rfl
  | cons q rest inductionHypothesis =>
    rw [coapRemoveNode, absolute]
    split
    next found => simp [found, absolute_handOver]
    next other => simp [other, absolute, inductionHypothesis]

theorem coapRemoveNode_absent {queue : List CoapQueueNode} {nodeId : CoapTid}
    (absent : ¬ ∃ node ∈ queue, node.id = nodeId) : coapRemoveNode queue nodeId = queue := by
  induction queue with
  | nil => rfl
  | cons q rest inductionHypothesis =>
    simp only [List.mem_cons, exists_eq_or_imp, not_or] at absent
    rw [coapRemoveNode, if_neg absent.1, inductionHypothesis absent.2]

/-- With sums below 2^32: `coapAddNode` puts the node at its time behind all entries that are not later and leaves the
others as they are, no subtraction goes below zero, and `coapRemoveNode` takes out exactly the first entry with the
id, or returns 0 and changes nothing. -/
theorem delta_queue_keeps_times (queue : List CoapQueueNode) (node : CoapQueueNode) (nodeId : CoapTid)
    (fits : span queue < 2 ^ 32) (nodeFits : node.t < 2 ^ 32) :
    (∃ front behind, absolute 0 queue = front ++ behind ∧
      absolute 0 (coapAddNodeWalk queue node).1 = front ++ node :: behind ∧
      (∀ entry ∈ front, entry.t ≤ node.t) ∧ ∀ entry ∈ behind, node.t < entry.t) ∧
    (∀ subtraction ∈ (coapAddNodeWalk queue node).2, subtraction.2 ≤ subtraction.1) ∧
    absolute 0 (coapRemoveNodeWalk queue nodeId).2 = (absolute 0 queue).eraseP (fun entry => entry.id = nodeId) ∧
    ((∃ entry ∈ queue, entry.id = nodeId) ∧ (coapRemoveNodeWalk queue nodeId).1 = 1 ∨
      (¬ ∃ entry ∈ queue, entry.id = nodeId) ∧ coapRemoveNodeWalk queue nodeId = (0, queue)) := by
  obtain ⟨added, bounded⟩ := coapAddNodeWalk_eq node fits nodeFits
  have removed := coapRemoveNodeWalk_eq nodeId fits
  have inserted := absolute_coapAddNode 0 queue node
  simp only [Nat.zero_add] at inserted
  rw [added, removed]
  refine ⟨inserted, bounded, absolute_coapRemoveNode 0 queue nodeId, ?_⟩
  by_cases present : ∃ entry ∈ queue, entry.id = nodeId
  · exact Or.inl ⟨present, if_pos present⟩
  · exact Or.inr ⟨present, by rw [if_neg present, coapRemoveNode_absent present]⟩

/-- Entries at 10, 15 and 18, and one more at 15; the one at 10 goes. -/
theorem delta_queue_keeps_times_head :
    let node (id : CoapTid) (t : Nat) : CoapQueueNode := ⟨t, 0, 0, id, .new 0 fun _ => 0, 0⟩
    let queue := [node 1 10, node 2 5, node 3 3]
    (∀ subtraction ∈ (coapAddNodeWalk queue (node 4 15)).2, subtraction.2 ≤ subtraction.1) ∧
      absolute 0 (coapRemoveNodeWalk queue 1).2 = [node 2 15, node 3 18] := by
  intro node queue
  obtain ⟨_, bounded, removed, _⟩ :=
    delta_queue_keeps_times queue (node 4 15) 1 (by decide) (by decide)
  exact ⟨bounded, removed⟩

/-! ## Reading the queue -/

/-- The queues that the operations build. -/
inductive Built : List CoapQueueNode → Prop where
  | empty : Built []
  | addNode (queue : List CoapQueueNode) (node : CoapQueueNode) :
      Built queue → Built (coapAddNodeWalk queue node).1
  | popNext (queue : List CoapQueueNode) : Built queue → Built (coapPopNext queue).2
  | removeNode (queue : List CoapQueueNode) (nodeId : CoapTid) :
      Built queue → Built (coapRemoveNodeWalk queue nodeId).2

/-- The first node with the id, or the null pointer. -/
def GetsNode (queue : List CoapQueueNode) (nodeId : CoapTid) : Prop :=
  coapGetNodeById queue nodeId = some (queue.find? fun node => node.id = nodeId)

def CountsNodes (queue : List CoapQueueNode) : Prop := coapQueueSize queue = some queue.length

/-- The walk for an absent id ends on the null pointer, and the test behind it reads through it. -/
theorem getsNode_iff (queue : List CoapQueueNode) (nodeId : CoapTid) :
    GetsNode queue nodeId ↔ queue = [] ∨ ∃ node ∈ queue, node.id = nodeId := by
  cases queue with
  | nil => simp [GetsNode, coapGetNodeById]
  | cons first rest =>
    rw [GetsNode, coapGetNodeById]
    cases found : (first :: rest).find? (fun node => node.id = nodeId) with
    | none =>
      rw [List.find?_eq_none] at found
      simpa using found
    | some node =>
      have member := List.mem_of_find?_eq_some found
      have id := List.find?_some found
      simp only [Option.map_some, true_iff]
      exact Or.inr ⟨node, member, by simpa using id⟩
    · exact nofun

/-- The count itself is right wherever it begins. -/
theorem countNodes_eq (size : Nat) (queue : List CoapQueueNode) : countNodes size queue = size + queue.length := by
  induction queue generalizing size with
  | nil => rfl
  | cons node rest inductionHypothesis =>
    rw [countNodes, inductionHypothesis, List.length_cons]
    omega

theorem countsNodes_iff (queue : List CoapQueueNode) : CountsNodes queue ↔ queue = [] := by
  cases queue <;> simp [CountsNodes, coapQueueSize]

/-- Built or not, a queue is read as it is, for one id or by its size, exactly when it has that id or is empty, or is
empty; so both together are sound on the empty queue only. -/
theorem queue_reads_iff (queue : List CoapQueueNode) (nodeId : CoapTid) :
    (GetsNode queue nodeId ↔ queue = [] ∨ ∃ node ∈ queue, node.id = nodeId) ∧
      (CountsNodes queue ↔ queue = []) ∧ (GetsNode queue nodeId ∧ CountsNodes queue ↔ queue = []) := by
  refine ⟨getsNode_iff queue nodeId, countsNodes_iff queue, ?_⟩
  rw [getsNode_iff, countsNodes_iff]
  exact ⟨And.right, fun empty => ⟨Or.inl empty, empty⟩⟩

/-- One request is pending; a reply to another one that has timed out comes in. -/
theorem queue_reads_null : ¬ ∀ (queue : List CoapQueueNode) (nodeId : CoapTid), Built queue →
    GetsNode queue nodeId ∧ CountsNodes queue := by
  intro claimed
  obtain ⟨node, nodeEq⟩ : ∃ node : CoapQueueNode, node = ⟨2000, 0, 2000, 1, .new 0 fun _ => 0, 0⟩ := ⟨_, rfl⟩
  obtain ⟨gets, _⟩ := claimed [node] 2 (.addNode [] node .empty)
  rw [getsNode_iff, nodeEq] at gets
  simp at gets

end SmingCoap
