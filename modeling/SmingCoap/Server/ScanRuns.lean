import SmingCoap.Server.WifiScanSoundness

/-! # Runs of the scan resource

The resource together with the rest of the stack, which uses the same pool: in
any order requests come in, the SDK calls back for a scan that it started, and
buffers are obtained, written to and released.  The results of the scans are
given out one by one, in order, each to one request, whose response owns the
buffer from then on.
-/

namespace SmingCoap.Server.WifiScanRes

open Wire (Memory)
open Ownership (Buffer Store)
open Transition (Run)
open Bget

/-! ## Steps -/

/-- How a scan ended. -/
inductive Scan where
  | found (stations : List BssInfo)
  | failed

/-- A request that was not put off, with the response before and after it, and the payload that it then has. -/
structure Answer where
  pReq : CoapMessage
  pResp : ScanReply
  result : HandlerResult
  reply : ScanReply
  payload : List UInt8

/-- The allocator, the buffers that belong to others, and the resource; `outstanding` says that a scan was started for
which the SDK has not called back. -/
structure Scanning where
  allocator : Allocator
  store : Store
  resource : ScanResource
  outstanding : Bool
  scans : List Scan
  answers : List Answer

inductive Event where
  /-- The handler is called; `starts` is what `wifi_station_scan` would return. -/
  | request (pReq : CoapMessage) (pResp : ScanReply) (starts : Bool)
  | scanDone (arg : List BssInfo) (status : Status)
  | other (call : MemCall)

/-- What a callback says of the scan. -/
def Status.scans (stations : List BssInfo) : Status → List Scan
  | .ok => [.found stations]
  | .fail => [.failed]
  | .cancel => [.failed]
  | .pending => []
  | .busy => []

/-- With a result the response is handed the buffer that it is in. -/
def Handled.handsOver (handled : Handled) : Store :=
  match handled.result, handled.pResp.payload with
  | .ok, some buf => [⟨buf, handled.memory.bytes buf (bsize handled.memory buf).toNat⟩]
  | _, _ => []

def Handled.answers (handled : Handled) (pReq : CoapMessage) (pResp : ScanReply) : List Answer :=
  if pReq.code = reqGet ∧ handled.result ≠ .postpone then
    [{ pReq, pResp, result := handled.result, reply := handled.pResp
       payload := (handled.pResp.payload.map fun buf =>
         handled.memory.bytes buf handled.pResp.payloadLength.toNat).getD [] }]
  else []

namespace Scanning

def step (freelist fuel : Nat) (this : Scanning) : Event → Option Scanning
  | .request pReq pResp starts =>
    (resReqHandler pReq pResp this.resource this.allocator.memory).map fun handled => { this with
      allocator := { this.allocator with memory := handled.memory }
      store := handled.handsOver ++ this.store
      resource := handled.resource
      outstanding := this.outstanding || handled.scans && starts
      answers := this.answers ++ handled.answers pReq pResp }
  | .scanDone arg status =>
    (WifiScanRes.scanDone freelist fuel arg status this.resource this.allocator).map fun (resource, allocator) =>
      { this with allocator, resource, outstanding := false, scans := this.scans ++ status.scans arg.tail }
  | .other call =>
    (Tracked.step freelist fuel ⟨this.allocator, this.store⟩ call).map fun after => { this with
      allocator := after.allocator, store := after.store }

/-- The SDK calls back once for a scan that it started, with as many stations as `coap_mem_get0` can be asked for. -/
def Legal (this : Scanning) : Event → Prop
  | .request .. => True
  | .scanDone arg _ => this.outstanding = true ∧ arg ≠ [] ∧ (scanText arg.tail).length ≤ 32760
  | .other call => Bget.Legal ⟨this.allocator, this.store⟩ call

end Scanning

/-! ## What a request is answered -/

/-- The request asks for blocks that are smaller than the text. -/
def wantsLess (pReq : CoapMessage) (length : Nat) : Bool :=
  match getBlockOptionFromMsg pReq .block2 with
  | .ok b2opt => b2opt.blockSize < length
  | .error _ => false

/-- The answer that goes with the result of a scan. -/
def Answers (answer : Answer) : Scan → Prop
  | .failed => answer.result = .error
  | .found stations =>
    let length := (scanText stations).length
    answer.result = .ok ∧
      answer.reply.code = (if wantsLess answer.pReq length then respBadOption else answer.pResp.code) ∧
      answer.payload =
        if wantsLess answer.pReq length ∧ 16 < answer.pResp.payloadBufSize then notAvailable length else scanText stations

section
variable {memory : Memory} {buf capacity : Nat} {text : List UInt8}

/-- No block is smaller than 16 bytes. -/
theorem blockSize_le {pReq : CoapMessage} {type : BlockOptionType} {blkOption : BlockOption}
    (found : getBlockOptionFromMsg pReq type = .ok blkOption) : 16 ≤ blkOption.blockSize := by
  rw [getBlockOptionFromMsg] at found
  split at found
  next => cases found
  next option _ =>
    split at found
    next => cases found
    next =>
      split at found
      next =>
        cases found
        exact Nat.le_refl _
      next =>
        simp only at found
        split at found
        next => cases found
        next =>
          cases found
          simp only [Nat.shiftLeft_eq, Nat.one_mul]
          exact Nat.pow_le_pow_right (show 2 > 0 by decide) (Nat.le_add_left 4 _)

/-- The response gets the buffer; at most the text in it is replaced by one that fits. -/
theorem takeResult_spec (pReq : CoapMessage) (pResp : ScanReply) (holds : memory.Holds buf text)
    (short : text.length ≤ 32760) (room : text.length ≤ capacity) :
    ∃ reply after, takeResult pReq pResp ⟨.doneOk, text.length, some buf⟩ memory = some (reply, after) ∧
      reply.payload = some buf ∧
      reply.code = (if wantsLess pReq text.length then respBadOption else pResp.code) ∧
      after.bytes buf reply.payloadLength.toNat =
        (if wantsLess pReq text.length ∧ 16 < pResp.payloadBufSize then notAvailable text.length else text) ∧
      ∀ i, i < buf ∨ buf + capacity ≤ i → after i = memory i := by
  have representable : ∀ number, number ≤ 32760 → (UInt16.ofNat number).toNat = number :=
    fun number bound => UInt16.toNat_ofNat_of_lt (Nat.lt_of_le_of_lt bound (by decide))
  have length := representable _ short
  have whole : memory.bytes buf (UInt16.ofNat text.length).toNat = text := by
    rw [length]
    exact holds
  rw [takeResult]
  cases found : getBlockOptionFromMsg pReq .block2 with
  | error result =>
    have less : wantsLess pReq text.length = false := by
      rw [wantsLess, found]
    refine ⟨_, _, rfl, rfl, ?_, ?_, fun i _ => rfl⟩
    · rw [less]
      rfl
    · rw [less]
      simpa using whole
  | ok b2opt =>
    have least := blockSize_le found
    have less : wantsLess pReq text.length = decide (b2opt.blockSize < text.length) := by
      rw [wantsLess, found]
    rw [less]
    by_cases small : b2opt.blockSize < text.length
    · by_cases writable : 16 < pResp.payloadBufSize
      · -- the text is longer than a block, so what replaces it fits with its NUL
        have few := notAvailable_length_le (show text.length < 100000 by omega)
        have copied := Memory.copy_holds memory buf (notAvailable text.length ++ [0])
        have measured := strlen_eq copied notAvailable_filled (show (notAvailable text.length).length < 65536 by omega)
        have printed := representable (notAvailable text.length).length (by omega)
        refine ⟨{ pResp with
          payload := some buf, payloadLength := UInt16.ofNat (notAvailable text.length).length, code := respBadOption },
          memory.copy buf (notAvailable text.length ++ [0]), ?_, rfl, ?_, ?_, fun i outside => ?_⟩
        · simp only [if_pos small, if_pos writable, sprintf, Option.map_some, Option.bind_eq_bind, Option.bind_some, measured]
        · rw [decide_eq_true small]
          rfl
        · rw [if_pos ⟨decide_eq_true small, writable⟩, printed]
          exact (Memory.holds_append.mp copied).1
        · refine Memory.copy_outside _ (outside.imp_right fun behind => ?_)
          rw [List.length_append, List.length_singleton]
          omega
      · refine ⟨{ pResp with
          payload := some buf, payloadLength := UInt16.ofNat text.length, code := respBadOption }, memory, ?_, rfl, ?_, ?_,
          fun i _ => rfl⟩
        · simp only [if_pos small, if_neg writable]
        · rw [decide_eq_true small]
          rfl
        · rw [if_neg fun both => writable both.2]
          exact whole
    · refine ⟨{ pResp with payload := some buf, payloadLength := UInt16.ofNat text.length }, memory, ?_, rfl, ?_, ?_,
        fun i _ => rfl⟩
      · simp only [if_neg small]
      · rw [decide_eq_false small]
        rfl
      · rw [if_neg fun both => small (of_decide_eq_true both.1)]
        exact whole

end

/-! ## What holds in every state -/

/-- What the variables say: which buffer is the resource's own, and the scans that no request has been told of. -/
inductive Phase (memory : Memory) : ScanResource → Bool → List (Nat × Nat) → List Scan → Prop
  | idle {resource : ScanResource} (state : resource.scanState = .idle) : Phase memory resource false [] []
  | running {resource : ScanResource} {outstanding : Bool} (state : resource.scanState = .running) :
      Phase memory resource outstanding [] []
  | doneOk {stations : List BssInfo} {buf capacity : Nat} (short : (scanText stations).length ≤ 32760)
      (room : (scanText stations).length ≤ capacity) (holds : memory.Holds buf (scanText stations)) :
      Phase memory ⟨.doneOk, (scanText stations).length, some buf⟩ false [(buf, capacity)] [.found stations]
  | doneFail {resource : ScanResource} (state : resource.scanState = .doneFail) :
      Phase memory resource false [] [.failed]

/-- The buffers that are out are those of the others and the one with a result, and all scans but that one have been
answered. -/
structure Scanning.Sound (site : Site) (this : Scanning) (blocks : List Block) (ring : List Nat) (own : List (Nat × Nat))
    (answered pending : List Scan) : Prop where
  divided : Divided site this.allocator this.store own blocks ring
  phase : Phase this.allocator.memory this.resource this.outstanding own pending
  scans : this.scans = answered ++ pending
  answers : List.Forall₂ Answers this.answers answered

def Scanning.Steady (site : Site) (this : Scanning) : Prop :=
  ∃ blocks ring own answered pending, this.Sound site blocks ring own answered pending

section
variable {site : Site} {this : Scanning} {blocks : List Block} {ring : List Nat} {own : List (Nat × Nat)}
  {answered pending : List Scan} {fuel : Nat} {allocator : Allocator} {store : Store} {memory other : Memory}

/-- A buffer of the other one becomes one of the store. -/
theorem handOver {buf capacity : Nat} (divided : Divided site allocator store ((buf, capacity) :: own) blocks ring) :
    Divided site allocator (⟨buf, allocator.memory.bytes buf capacity⟩ :: store) own blocks ring where
  ready := divided.ready
  owned := by
    have extent : Buffer.extent ⟨buf, allocator.memory.bytes buf capacity⟩ = (buf, capacity) := by
      rw [Buffer.extent, Memory.length_bytes]
    rw [List.map_cons, extent, List.cons_append]
    exact List.perm_middle.symm.trans divided.owned
  held buffer member := by
    rcases List.mem_cons.mp member with rfl | known
    · exact Memory.holds_bytes ..
    · exact divided.held buffer known
  calls := by
    rw [divided.calls, List.length_cons, List.length_cons, Nat.add_right_comm, Nat.add_assoc]

/-- Only the bytes of the result matter. -/
theorem Phase.congr {resource : ScanResource} {outstanding : Bool} (phase : Phase memory resource outstanding own pending)
    (agree : ∀ extent ∈ own, ∀ i, extent.1 ≤ i → i < extent.1 + extent.2 → other i = memory i) :
    Phase other resource outstanding own pending := by
  cases phase with
  | idle state => exact .idle state
  | running state => exact .running state
  | doneOk short room holds =>
    exact .doneOk short room (holds.congr fun i low high => agree _ List.mem_cons_self i low (by simp only; omega))
  | doneFail state => exact .doneFail state

theorem Scanning.Sound.call (sound : this.Sound site blocks ring own answered pending) {call : MemCall}
    (legal : Bget.Legal ⟨this.allocator, this.store⟩ call) (enough : site.size < 12 * fuel) :
    ∃ after, this.step site.freelist fuel (.other call) = some after ∧ after.Steady site := by
  obtain ⟨after, nextBlocks, nextRing, taken, divided, kept⟩ := sound.divided.call legal enough
  exact ⟨_, Option.map_eq_some_iff.mpr ⟨after, taken, rfl⟩, nextBlocks, nextRing, own, answered, pending, divided,
    sound.phase.congr kept, sound.scans, sound.answers⟩

/-- A request that is put off, does not ask for the result, or is told of a failure. -/
theorem Scanning.Sound.kept (sound : this.Sound site blocks ring own answered pending) (handled : Handled)
    (told left : List Scan) {pReq : CoapMessage} {pResp : ScanReply} {starts : Bool}
    (result : resReqHandler pReq pResp this.resource this.allocator.memory = some handled)
    (same : handled.memory = this.allocator.memory) (none : handled.handsOver = [])
    (phase : Phase this.allocator.memory handled.resource (this.outstanding || handled.scans && starts) own left)
    (split : pending = told ++ left) (answers : List.Forall₂ Answers (handled.answers pReq pResp) told) :
    ∃ after, this.step site.freelist fuel (.request pReq pResp starts) = some after ∧ after.Steady site := by
  refine ⟨_, Option.map_eq_some_iff.mpr ⟨handled, result, rfl⟩, blocks, ring, own, answered ++ told, left, ?_⟩
  rw [same, none]
  refine ⟨sound.divided, phase, ?_, List.rel_append sound.answers answers⟩
  rw [List.append_assoc, ← split]
  exact sound.scans

/-- A request that takes the result. -/
theorem Scanning.Sound.taken {stations : List BssInfo} {buf capacity : Nat} {pReq : CoapMessage} {pResp : ScanReply}
    {starts : Bool} (sound : this.Sound site blocks ring [(buf, capacity)] answered [.found stations])
    (resource : this.resource = ⟨.doneOk, (scanText stations).length, some buf⟩)
    (short : (scanText stations).length ≤ 32760) (room : (scanText stations).length ≤ capacity)
    (holds : this.allocator.memory.Holds buf (scanText stations)) (idle : this.outstanding = false)
    (get : pReq.code = reqGet) :
    ∃ after, this.step site.freelist fuel (.request pReq pResp starts) = some after ∧ after.Steady site := by
  obtain ⟨reply, memory, took, payload, code, bytes, outside⟩ := takeResult_spec pReq pResp holds short room
  have updated := sound.divided.update fun i away => outside i (away _ List.mem_cons_self)
  have usable := updated.ready.toPool.bsize_eq (updated.owned.subset (List.mem_append_right _ List.mem_cons_self))
  have result : resReqHandler pReq pResp this.resource this.allocator.memory =
      some ⟨.ok, { this.resource with scanState := .idle }, reply, memory, false⟩ := by
    rw [resource, resReqHandler, if_pos get]
    exact Option.map_eq_some_iff.mpr ⟨_, took, rfl⟩
  refine ⟨_, Option.map_eq_some_iff.mpr ⟨_, result, rfl⟩, blocks, ring, [], answered ++ [.found stations], [], ?_, ?_, ?_, ?_⟩
  · simp only [Handled.handsOver, payload, usable, Int.toNat_natCast]
    exact handOver updated
  · rw [idle]
    exact .idle rfl
  · rw [List.append_nil]
    exact sound.scans
  · refine List.rel_append sound.answers ?_
    rw [Handled.answers, if_pos ⟨get, HandlerResult.noConfusion⟩]
    refine .cons ⟨rfl, code, ?_⟩ .nil
    simp only [payload, Option.map_some, Option.getD_some]
    exact bytes

/-- Each request goes through. -/
theorem Scanning.Sound.request (sound : this.Sound site blocks ring own answered pending) (pReq : CoapMessage)
    (pResp : ScanReply) (starts : Bool) :
    ∃ after, this.step site.freelist fuel (.request pReq pResp starts) = some after ∧ after.Steady site := by
  have phase := sound.phase
  by_cases get : pReq.code = reqGet
  · generalize held : this.resource = resource at phase
    generalize started : this.outstanding = outstanding at phase
    cases phase with
    | idle state =>
      refine sound.kept ⟨.postpone, { resource with scanState := .running }, pResp, this.allocator.memory, true⟩ [] []
        ?_ rfl rfl (.running rfl) rfl ?_
      · rw [held, resReqHandler, if_pos get, state]
      · rw [Handled.answers, if_neg fun both => both.2 rfl]
        exact .nil
    | running state =>
      refine sound.kept ⟨.postpone, resource, pResp, this.allocator.memory, false⟩ [] [] ?_ rfl rfl (.running state) rfl ?_
      · rw [held, resReqHandler, if_pos get, state]
      · rw [Handled.answers, if_neg fun both => both.2 rfl]
        exact .nil
    | doneOk short room holds => exact sound.taken held short room holds started get
    | doneFail state =>
      refine sound.kept ⟨.error, { resource with scanState := .idle }, pResp, this.allocator.memory, false⟩ [.failed] []
        ?_ rfl rfl ?_ rfl ?_
      · rw [held, resReqHandler, if_pos get, state]
      · rw [started]
        exact .idle rfl
      · rw [Handled.answers, if_pos ⟨get, HandlerResult.noConfusion⟩]
        exact .cons rfl .nil
  · refine sound.kept ⟨.error, this.resource, pResp, this.allocator.memory, false⟩ [] pending ?_ rfl rfl ?_ rfl ?_
    · rw [resReqHandler, if_neg get]
    · rw [Bool.false_and, Bool.or_false]
      exact phase
    · rw [Handled.answers, if_neg fun both => get both.1]
      exact .nil

/-- The callback of a scan leaves its result. -/
theorem Scanning.Sound.callback (sound : this.Sound site blocks ring own answered pending) {arg : List BssInfo}
    {status : Status} (legal : this.Legal (.scanDone arg status)) (enough : site.size < 12 * fuel) {after : Scanning}
    (taken : this.step site.freelist fuel (.scanDone arg status) = some after) : after.Steady site := by
  obtain ⟨outstanding, filled, short⟩ := legal
  obtain ⟨⟨resource, allocator⟩, result, rfl⟩ := Option.map_eq_some_iff.mp taken
  obtain ⟨state, rfl, rfl⟩ : this.resource.scanState = .running ∧ own = [] ∧ pending = [] := by
    have phase := sound.phase
    rw [outstanding] at phase
    generalize this.resource = resource at phase
    cases phase with
    | running state => exact ⟨state, rfl, rfl⟩
  have unchanged : ∀ left : List Scan, Phase this.allocator.memory resource false [] left → allocator = this.allocator →
      Scanning.Steady site { this with allocator, resource, outstanding := false, scans := this.scans ++ left } := by
    rintro left phase rfl
    refine ⟨blocks, ring, [], answered, left, sound.divided, phase, ?_, sound.answers⟩
    rw [sound.scans, List.append_nil]
  cases status with
  | ok =>
    cases arg with
    | nil => exact absurd rfl filled
    | cons first stations =>
      rw [List.tail_cons] at short
      rcases scanDone_spec sound.divided enough first this.resource short with
        ⟨refused, _⟩ | ⟨buf, capacity, granted, left, middle, _, written, _, room, _, divided⟩
      · rw [refused] at result
        cases result
      · rw [written] at result
        cases result
        refine ⟨granted, left, [(buf, capacity)], answered, [.found stations], divided.update fun i away => ?_,
          .doneOk short room (Memory.copy_holds ..), ?_, sound.answers⟩
        · refine Memory.copy_outside _ ((away _ List.mem_cons_self).imp_right fun behind => ?_)
          simp only at behind
          omega
        · simp only [sound.scans, List.append_nil]
          rfl
  | fail =>
    cases result
    exact unchanged [.failed] (.doneFail rfl) rfl
  | cancel =>
    cases result
    exact unchanged [.failed] (.doneFail rfl) rfl
  | pending =>
    cases result
    exact unchanged [] (.running state) rfl
  | busy =>
    cases result
    exact unchanged [] (.running state) rfl

theorem Scanning.Steady.step (steady : this.Steady site) {event : Event} (legal : this.Legal event)
    (enough : site.size < 12 * fuel) {after : Scanning} (taken : this.step site.freelist fuel event = some after) :
    after.Steady site := by
  obtain ⟨blocks, ring, own, answered, pending, sound⟩ := steady
  cases event with
  | request pReq pResp starts =>
    obtain ⟨final, stepped, kept⟩ := sound.request pReq pResp starts
    obtain rfl : final = after := Option.some.inj (stepped.symm.trans taken)
    exact kept
  | scanDone arg status => exact sound.callback legal enough taken
  | other call =>
    obtain ⟨final, stepped, kept⟩ := sound.call legal enough
    obtain rfl : final = after := Option.some.inj (stepped.symm.trans taken)
    exact kept

/-- What the stack can come to from a new pool. -/
def Scanning.Reached (site : Site) (len : Int) (fuel : Nat) (initial : Allocator) (this : Scanning) : Prop :=
  ∃ began, coapMemInit site.freelist (some site.base) len initial = some began ∧
    Run (Scanning.step site.freelist fuel) Scanning.Legal ⟨began, [], ⟨.idle, 0, none⟩, false, [], []⟩ this

theorem Scanning.Reached.steady {len : Int} {initial : Allocator} (fresh : Fresh site.freelist initial)
    (area : Area site len) (enough : site.size < 12 * fuel) (reached : Scanning.Reached site len fuel initial this) :
    this.Steady site := by
  obtain ⟨began, initialised, run⟩ := reached
  obtain ⟨same, result, sound⟩ := coapMemInit_spec fresh area
  obtain rfl : same = began := Option.some.inj (result.symm.trans initialised)
  have initially : Scanning.Steady site ⟨same, [], ⟨.idle, 0, none⟩, false, [], []⟩ :=
    ⟨_, _, [], [], [], sound.undivided, .idle rfl, rfl, .nil⟩
  exact run.invariant initially fun _ _ _ steady legal taken => steady.step legal enough taken

/-- The results of the scans are given out one by one and in order, each to one request; the buffer with a result that
is still there holds its text and belongs to no one else, and no other buffer of the pool is kept back. -/
theorem scanning_reached {len : Int} {initial : Allocator} (fresh : Fresh site.freelist initial) (area : Area site len)
    (enough : site.size < 12 * fuel) (reached : Scanning.Reached site len fuel initial this) :
    ∃ answered pending own, this.scans = answered ++ pending ∧ List.Forall₂ Answers this.answers answered ∧
      Phase this.allocator.memory this.resource this.outstanding own pending ∧
      (∀ buffer ∈ this.store, ∀ extent ∈ own, ExtentsApart buffer.extent extent) ∧
      this.store.Disjoint ∧ this.store.Held this.allocator.memory ∧
      this.allocator.numget = this.allocator.numrel + UInt32.ofNat (this.store.length + own.length) ∧
      (∀ pReq pResp starts, ∃ after, this.step site.freelist fuel (.request pReq pResp starts) = some after) ∧
      ∀ call, Bget.Legal ⟨this.allocator, this.store⟩ call →
        ∃ after, this.step site.freelist fuel (.other call) = some after := by
  obtain ⟨blocks, ring, own, answered, pending, sound⟩ := reached.steady fresh area enough
  have together := sound.divided.sound.disjoint
  refine ⟨answered, pending, own, sound.scans, sound.answers, sound.phase, fun buffer member extent other =>
    sound.divided.apart member other, (List.pairwise_append.mp together).1, sound.divided.held, sound.divided.calls,
    fun pReq pResp starts => ?_, fun call legal => ?_⟩
  · obtain ⟨after, taken, _⟩ := sound.request pReq pResp starts
    exact ⟨after, taken⟩
  · obtain ⟨after, taken, _⟩ := sound.call legal enough
    exact ⟨after, taken⟩

/-- A scan that the SDK did not start, or called back for with `PENDING` or `BUSY`, is waited for in vain: no request is
answered from then on. -/
theorem never_answered (state : this.resource.scanState = .running) (lost : this.outstanding = false) {after : Scanning}
    (run : Run (Scanning.step site.freelist fuel) Scanning.Legal this after) :
    after.resource = this.resource ∧ after.outstanding = false ∧ after.answers = this.answers := by
  induction run with
  | refl => exact ⟨rfl, lost, rfl⟩
  | @next before after _ event legal taken inductionHypothesis =>
    obtain ⟨resource, waits, answers⟩ := inductionHypothesis
    rw [← resource] at state
    cases event with
    | request pReq pResp starts =>
      obtain ⟨handled, result, rfl⟩ := Option.map_eq_some_iff.mp taken
      have silent : handled.resource = before.resource ∧ handled.scans = false ∧ handled.answers pReq pResp = [] := by
        by_cases get : pReq.code = reqGet
        · rw [resReqHandler, if_pos get, state] at result
          cases result
          exact ⟨rfl, rfl, if_neg fun both => both.2 rfl⟩
        · rw [resReqHandler, if_neg get] at result
          cases result
          exact ⟨rfl, rfl, if_neg fun both => get both.1⟩
      obtain ⟨same, none, silent⟩ := silent
      refine ⟨same.trans resource, ?_, ?_⟩
      · rw [waits, none]
        rfl
      · rw [silent, List.append_nil, answers]
    | scanDone arg status =>
      have called := legal.1
      rw [waits] at called
      cases called
    | other call =>
      obtain ⟨final, _, rfl⟩ := Option.map_eq_some_iff.mp taken
      exact ⟨resource, waits, answers⟩

def scanGet : CoapMessage := { coapInitToEmptyResetMsg with code := reqGet }

/-- A result is there. -/
theorem exists_scanning : ∃ this, Scanning.Reached workMemory 4096 400 unused this ∧ this.scans = [.found [homeNetwork]] ∧
    this.resource.scanState = .doneOk ∧ this.answers = [] ∧ this.store = [] := by
  obtain ⟨began, initialised, sound⟩ := coapMemInit_spec unused_fresh workMemory_area
  have started : Scanning.step workMemory.freelist 400 ⟨began, [], ⟨.idle, 0, none⟩, false, [], []⟩
      (.request scanGet ⟨⟨none, 64⟩, 0, 0⟩ true) = some ⟨began, [], ⟨.running, 0, none⟩, true, [], []⟩ := rfl
  have short : (scanText [homeNetwork]).length ≤ 32760 := by decide
  have enough : workMemory.size < 12 * 400 := by decide
  rcases scanDone_spec sound.undivided enough homeNetwork ⟨.running, 0, none⟩ short with
    ⟨_, empty | small⟩ | ⟨buf, capacity, _, _, middle, _, written, _⟩
  · cases empty
  · exact absurd (small 4092 List.mem_cons_self) (by decide)
  · have called : Scanning.step workMemory.freelist 400 ⟨began, [], ⟨.running, 0, none⟩, true, [], []⟩
        (.scanDone [homeNetwork, homeNetwork] .ok) =
          some ⟨{ middle with memory := middle.memory.copy buf (scanText [homeNetwork]) }, [],
            ⟨.doneOk, (scanText [homeNetwork]).length, some buf⟩, false, [.found [homeNetwork]], []⟩ :=
      Option.map_eq_some_iff.mpr ⟨_, written, rfl⟩
    have running : Run (Scanning.step workMemory.freelist 400) Scanning.Legal ⟨began, [], ⟨.idle, 0, none⟩, false, [], []⟩
        ⟨began, [], ⟨.running, 0, none⟩, true, [], []⟩ := .next .refl (.request scanGet _ true) trivial started
    have legal : Scanning.Legal ⟨began, [], ⟨.running, 0, none⟩, true, [], []⟩
        (.scanDone [homeNetwork, homeNetwork] .ok) := ⟨rfl, List.cons_ne_nil _ _, short⟩
    exact ⟨_, ⟨began, initialised, running.next _ legal called⟩, rfl, rfl, rfl, rfl⟩

theorem scanning_reached_workMemory : ∃ (this : Scanning) (answered pending : List Scan) (own : List (Nat × Nat)),
    this.scans = [.found [homeNetwork]] ∧ this.scans = answered ++ pending ∧
    List.Forall₂ Answers this.answers answered ∧
    this.allocator.numget = this.allocator.numrel + UInt32.ofNat (0 + own.length) := by
  obtain ⟨this, reached, scans, _, _, store⟩ := exists_scanning
  obtain ⟨answered, pending, own, parts, answers, _, _, _, _, calls, _⟩ :=
    scanning_reached unused_fresh workMemory_area (by decide) reached
  rw [store] at calls
  exact ⟨this, answered, pending, own, scans, parts, answers, calls⟩

end

end SmingCoap.Server.WifiScanRes
