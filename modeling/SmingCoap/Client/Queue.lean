import SmingCoap.Client.Pdu
import SmingCoap.Wire.LittleEndian

/-! # Transaction ids and the delta queue

`Hash.cpp` and `Queue.cpp`.  A transaction id is a 16 bit hash of endpoint and
message id.  The queue keeps in `t` the time from the firing of the entry before,
so an insertion or a removal also changes the entry behind it; `timestamp` is 32
bit, and the sums of a queue stay far below that (timeouts are at most 48 s).
-/

namespace SmingCoap

/-- `coap_tid_t`. -/
abbrev CoapTid := Int

def coapInvalidTid : CoapTid := -1

/-! ## Hash -/

/-- `coap_key_t`. -/
structure CoapKey where
  h0 : UInt8
  h1 : UInt8
  h2 : UInt8
  h3 : UInt8
  deriving DecidableEq, Repr

/-- One turn of the outer loop; the inner one goes from the last byte down. -/
def CoapKey.add (h : CoapKey) (s : UInt8) : CoapKey where
  h3 := ((h.h3 <<< 7) ||| (h.h2 >>> 1)) + h.h3
  h2 := ((h.h2 <<< 7) ||| (h.h1 >>> 1)) + h.h2
  h1 := ((h.h1 <<< 7) ||| (h.h0 >>> 1)) + h.h1
  h0 := (h.h0 <<< 7) + h.h0 + s

def coapHash (s : List UInt8) (h : CoapKey) : CoapKey := s.foldl CoapKey.add h

/-- The numbers are hashed as they lie in memory, lowest byte first. -/
def createTransactionID (ip port : UInt32) (pdu : CoapPDU) : CoapTid :=
  let h := coapHash (Wire.digits port.toNat 4) ⟨0, 0, 0, 0⟩
  let h := coapHash (Wire.digits ip.toNat 4) h
  let h := coapHash (Wire.digits pdu.getMessageID 2) h
  ((h.h0.toUInt16 <<< 8 ||| h.h1.toUInt16) ^^^ (h.h2.toUInt16 <<< 8 ||| h.h3.toUInt16)).toNat

/-! ## Queue -/

/-- `coap_queue_t`, its list pointer apart.  `req` is the number of the request. -/
structure CoapQueueNode where
  t : Nat
  retransmitCnt : Nat
  timeout : Nat
  id : CoapTid
  pdu : CoapPDU
  req : Nat

/-- Behind the entries that fire no later; `t` becomes relative to the entry in front, and that of
the entry behind relative to the new one. -/
def coapAddNode : List CoapQueueNode → CoapQueueNode → List CoapQueueNode
  | [], node => [node]
  | q :: rest, node =>
    if node.t < q.t then node :: { q with t := q.t - node.t } :: rest
    else q :: coapAddNode rest { node with t := node.t - q.t }

/-- `none` stands for the null pointer that is read when the walk finds no such id. -/
def coapGetNodeById (queue : List CoapQueueNode) (nodeId : CoapTid) : Option (Option CoapQueueNode) :=
  match queue with
  | [] => some none
  | queue => (queue.find? (fun node => node.id = nodeId)).map some

/-- The entry behind takes over the time of the one removed. -/
def handOver (t : Nat) : List CoapQueueNode → List CoapQueueNode
  | [] => []
  | behind :: rest => { behind with t := behind.t + t } :: rest

/-- Removes the first entry with this id. -/
def coapRemoveNode : List CoapQueueNode → CoapTid → List CoapQueueNode
  | [], _ => []
  | q :: rest, nodeId => if q.id = nodeId then handOver q.t rest else q :: coapRemoveNode rest nodeId

/-- The first entry and what is left; nobody takes over its time. -/
def coapPopNext : List CoapQueueNode → Option CoapQueueNode × List CoapQueueNode
  | [] => (none, [])
  | next :: queue => (some next, queue)

/-- The loop of `coapQueueSize` from `node` on. -/
def countNodes (size : Nat) : List CoapQueueNode → Nat
  | [] => size
  | _ :: node => countNodes (size + 1) node

/-- `none` stands for a read through a pointer that was never set. -/
def coapQueueSize (queue : List CoapQueueNode) : Option Nat :=
  match queue with
  | [] => some 0
  | _ :: _ =>
    -- the local variable is declared and not initialised
    let node : Option (List CoapQueueNode) := none
    node.map (countNodes 0)

/-! ## The 32 bit fields

The same walks on `timestamp`s that wrap, with all that they report: the subtractions that were made, as minuend and
subtrahend, and the result of the removal.
-/

def timestampSub (a b : Nat) : Nat := (a + 2 ^ 32 - b) % 2 ^ 32

def timestampAdd (a b : Nat) : Nat := (a + b) % 2 ^ 32

def coapAddNodeWalk : List CoapQueueNode → CoapQueueNode → List CoapQueueNode × List (Nat × Nat)
  | [], node => ([node], [])
  | q :: rest, node =>
    if node.t < q.t then (node :: { q with t := timestampSub q.t node.t } :: rest, [(q.t, node.t)])
    else
      let (queue, subtractions) := coapAddNodeWalk rest { node with t := timestampSub node.t q.t }
      (q :: queue, (node.t, q.t) :: subtractions)

def handOverWalk (t : Nat) : List CoapQueueNode → List CoapQueueNode
  | [] => []
  | behind :: rest => { behind with t := timestampAdd behind.t t } :: rest

def coapRemoveNodeWalk : List CoapQueueNode → CoapTid → Nat × List CoapQueueNode
  | [], _ => (0, [])
  | q :: rest, nodeId =>
    if q.id = nodeId then (1, handOverWalk q.t rest)
    else
      let (result, queue) := coapRemoveNodeWalk rest nodeId
      (result, q :: queue)

end SmingCoap
