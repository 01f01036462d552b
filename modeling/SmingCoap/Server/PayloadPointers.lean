import SmingCoap.Server.Payload
import SmingCoap.Server.RequestLimits

/-! # Whose memory a payload is

`CoAP_free_MsgPayload` has nothing but the payload pointer to tell whether there
is a buffer to be released: it compares it with the ends of the pool, and with
the memory of the message.  In every state of the allocator the comparisons give
the right answer: static data and payloads inside the message are left alone,
and a buffer of its own is released.
-/

namespace SmingCoap.Server.Bget

open Wire (Memory int16 int16_eq)
open Ownership (Buffer Store)
open Transition (Run)

/-! ## The source -/

/-- `bufferIsPartOfMsg`. -/
def bufferIsPartOfMsg (memory : Memory) (buf pMsg : Nat) : Bool :=
  ! (decide (buf < pMsg) || decide (pointer (pMsg + bsize memory pMsg) < buf))

/-- What a message knows of its payload. -/
structure PayloadPointer where
  payload : Option Nat
  payloadBufSize : Nat
  deriving DecidableEq, Repr

/-- `CoAP_free_MsgPayload`. -/
def coapFreeMsgPayload (freelist pMsg : Nat) (pointers : PayloadPointer) (allocator : Allocator) :
    Option (PayloadPointer × Allocator) :=
  match pointers.payload with
  | none => some (pointers, allocator)
  | some payload =>
    if coapMemBufHighEnd allocator < payload ∨ payload < coapMemBufLowEnd allocator then some (pointers, allocator)
    else if bufferIsPartOfMsg allocator.memory payload pMsg = false then do
      let allocator ← coapMemRelease freelist (some payload) allocator
      some ({ payload := none, payloadBufSize := 0 }, allocator)
    else some (pointers, allocator)

/-! ## The ends of the pool -/

/-- The variables that `coap_mem_init` sets. -/
def SameArea (allocator after : Allocator) : Prop :=
  after.pMemArea = allocator.pMemArea ∧ after.totalBufBytes = allocator.totalBufBytes

section
variable {allocator after : Allocator} {freelist fuel b buf : Nat} {size : Int} {result : Option Nat}

theorem SameArea.trans {third : Allocator} (first : SameArea allocator after) (second : SameArea after third) :
    SameArea allocator third := ⟨second.1.trans first.1, second.2.trans first.2⟩

theorem splitBlock_sameArea (taken : splitBlock b size allocator = some (buf, after)) : SameArea allocator after := by
  rw [splitBlock, Option.bind_eq_bind] at taken
  obtain ⟨_, _, taken⟩ := Option.bind_eq_some_iff.mp taken
  obtain rfl := (Prod.mk.inj (Option.some.inj taken)).2
  exact ⟨rfl, rfl⟩

theorem takeBlock_sameArea (taken : takeBlock b allocator = some (buf, after)) : SameArea allocator after := by
  rw [takeBlock, Option.bind_eq_bind] at taken
  obtain ⟨_, _, taken⟩ := Option.bind_eq_some_iff.mp taken
  obtain ⟨_, _, taken⟩ := Option.bind_eq_some_iff.mp taken
  obtain rfl := (Prod.mk.inj (Option.some.inj taken)).2
  exact ⟨rfl, rfl⟩

theorem bget_sameArea (taken : bget freelist fuel size allocator = some (result, after)) : SameArea allocator after := by
  rw [bget, Option.bind_eq_bind] at taken
  obtain ⟨_, _, taken⟩ := Option.bind_eq_some_iff.mp taken
  obtain ⟨best, _, taken⟩ := Option.bind_eq_some_iff.mp taken
  obtain ⟨b, _, taken⟩ := Option.bind_eq_some_iff.mp taken
  by_cases last : b = freelist
  · rw [if_pos last] at taken
    obtain rfl := (Prod.mk.inj (Option.some.inj taken)).2
    exact ⟨rfl, rfl⟩
  · rw [if_neg last] at taken
    by_cases room : sizeQ + bheadSize < blockSize allocator.memory b - blockRequest size
    · simp only [if_pos room, Option.bind_eq_bind] at taken
      obtain ⟨⟨buf, final⟩, found, taken⟩ := Option.bind_eq_some_iff.mp taken
      obtain rfl := (Prod.mk.inj (Option.some.inj taken)).2
      exact splitBlock_sameArea found
    · simp only [if_neg room, Option.bind_eq_bind] at taken
      obtain ⟨⟨buf, final⟩, found, taken⟩ := Option.bind_eq_some_iff.mp taken
      obtain rfl := (Prod.mk.inj (Option.some.inj taken)).2
      exact takeBlock_sameArea found

theorem bgetz_sameArea (taken : bgetz freelist fuel size allocator = some (result, after)) : SameArea allocator after := by
  rw [bgetz, Option.bind_eq_bind] at taken
  obtain ⟨⟨buf, final⟩, found, taken⟩ := Option.bind_eq_some_iff.mp taken
  have same := bget_sameArea found
  cases buf with
  | none =>
    obtain rfl := (Prod.mk.inj (Option.some.inj taken)).2
    exact same
  | some buf =>
    obtain ⟨_, _, taken⟩ := Option.bind_eq_some_iff.mp taken
    obtain rfl := (Prod.mk.inj (Option.some.inj taken)).2
    exact same

theorem brel_sameArea (taken : brel freelist buf allocator = some after) : SameArea allocator after := by
  rw [brel, Option.bind_eq_bind] at taken
  obtain ⟨_, _, taken⟩ := Option.bind_eq_some_iff.mp taken
  obtain ⟨_, _, taken⟩ := Option.bind_eq_some_iff.mp taken
  obtain ⟨_, _, taken⟩ := Option.bind_eq_some_iff.mp taken
  obtain ⟨_, _, taken⟩ := Option.bind_eq_some_iff.mp taken
  obtain ⟨joined, _, taken⟩ := Option.bind_eq_some_iff.mp taken
  obtain ⟨final, _, taken⟩ := Option.bind_eq_some_iff.mp taken
  obtain ⟨_, _, taken⟩ := Option.bind_eq_some_iff.mp taken
  obtain rfl := Option.some.inj taken
  exact ⟨rfl, rfl⟩

end

/-! ## Where a payload lies -/

/-- A payload pointer of a message at some address, and what it points to. -/
inductive PayloadAt (site : Site) (len : Int) (store : Store) (message : Buffer) : PayloadLocation → Option Nat → Prop
  | null : PayloadAt site len store message .null none
  | message {payload : Nat} (low : message.address ≤ payload) (high : payload ≤ message.address + message.bytes.length) :
      PayloadAt site len store message .message (some payload)
  | heap {buffer : Buffer} (member : buffer ∈ store) (other : buffer.address ≠ message.address) :
      PayloadAt site len store message .heap (some buffer.address)
  | static {payload : Nat} (outside : payload < site.base ∨ site.base + len ≤ payload) :
      PayloadAt site len store message .static (some payload)

section
variable {site : Site} {len : Int} {fuel : Nat} {initial : Allocator} {tracked : Tracked}

theorem Tracked.step_sameArea {before after : Tracked} {call : MemCall}
    (taken : before.step site.freelist fuel call = some after) : SameArea before.allocator after.allocator := by
  have granted : ∀ result : Option Nat × Allocator, (before.granted result).allocator = result.2 := by
    rintro ⟨_ | buf, allocator⟩ <;> rfl
  cases call with
  | get size =>
    obtain ⟨⟨buf, allocator⟩, result, rfl⟩ := Option.map_eq_some_iff.mp taken
    rw [granted]
    exact bget_sameArea result
  | get0 size =>
    obtain ⟨⟨buf, allocator⟩, result, rfl⟩ := Option.map_eq_some_iff.mp taken
    rw [granted]
    exact bgetz_sameArea result
  | write buf offset byte =>
    obtain rfl := Option.some.inj taken
    exact ⟨rfl, rfl⟩
  | release buf =>
    obtain ⟨allocator, result, rfl⟩ := Option.map_eq_some_iff.mp taken
    exact brel_sameArea result

/-- The ends of the pool stay what `coap_mem_init` made them. -/
theorem Reached.ends (area : Area site len) (reached : Reached site len fuel initial tracked) :
    coapMemBufLowEnd tracked.allocator = site.base ∧
      (coapMemBufHighEnd tracked.allocator : Int) = site.base + (len - 1) := by
  obtain ⟨began, initialised, run⟩ := reached
  have start : began.pMemArea = site.base ∧ began.totalBufBytes = len := by
    rw [coapMemInit, Option.bind_eq_bind] at initialised
    obtain ⟨memory, _, result⟩ := Option.bind_eq_some_iff.mp initialised
    obtain rfl := Option.some.inj result
    exact ⟨rfl, rfl⟩
  have same : SameArea began tracked.allocator := by
    induction run with
    | refl => exact ⟨rfl, rfl⟩
    | next _ event permitted taken inductionHypothesis =>
      exact inductionHypothesis.trans (Tracked.step_sameArea taken)
  rw [coapMemBufLowEnd, coapMemBufHighEnd, same.1, same.2, start.1, start.2]
  refine ⟨rfl, ?_⟩
  have multiple := area.rounded
  have room := area.room
  have fits := area.area
  unfold roundDown sizeQuant at multiple
  unfold pointer
  rw [Int.toNat_of_nonneg (Int.emod_nonneg _ (by decide)), Int.emod_eq_of_lt (by omega) (by omega)]

/-- What the comparison with the message says. -/
theorem bufferIsPartOfMsg_eq {message : Buffer} {memory : Memory} {payload : Nat}
    (usable : bsize memory message.address = message.bytes.length)
    (fits : message.address + message.bytes.length < addressSpace) :
    bufferIsPartOfMsg memory payload message.address = true ↔
      message.address ≤ payload ∧ payload ≤ message.address + message.bytes.length := by
  rw [bufferIsPartOfMsg, usable, pointer_add fits]
  simp only [Bool.not_eq_true', Bool.or_eq_false_iff, decide_eq_false_iff_not, Nat.not_lt]

theorem freeMsgPayload_kept {msg : PayloadMessage} (other : msg.location ≠ .heap) : freeMsgPayload msg = msg := by
  unfold freeMsgPayload
  split
  next heap => exact absurd heap other
  next => rfl

theorem freeMsgPayload_freed {msg : PayloadMessage} (heap : msg.location = .heap) :
    (freeMsgPayload msg).location = .null ∧ (freeMsgPayload msg).payloadBufSize = 0 := by
  unfold freeMsgPayload
  split
  next => exact ⟨rfl, rfl⟩
  next other => exact absurd heap other

/-- The comparisons for a buffer that does not overlap the message. -/
theorem coapFreeMsgPayload_freed (payloadBufSize : Nat) {allocator after : Allocator} {freelist : Nat}
    {message buffer : Buffer}
    (low : coapMemBufLowEnd allocator ≤ buffer.address) (high : buffer.address ≤ coapMemBufHighEnd allocator)
    (usable : bsize allocator.memory message.address = message.bytes.length)
    (fits : message.address + message.bytes.length < addressSpace)
    (between : HeaderBetween message.extent buffer.extent) (filled : buffer.bytes ≠ [])
    (released : brel freelist buffer.address allocator = some after) :
    coapFreeMsgPayload freelist message.address ⟨some buffer.address, payloadBufSize⟩ allocator = some (⟨none, 0⟩, after) := by
  have outside : bufferIsPartOfMsg allocator.memory buffer.address message.address = false := by
    refine Bool.eq_false_iff.mpr fun inside => ?_
    obtain ⟨first, last⟩ := (bufferIsPartOfMsg_eq usable fits).mp inside
    have length := List.length_pos_iff.mpr filled
    unfold HeaderBetween Buffer.extent at between
    omega
  have within : ¬ (coapMemBufHighEnd allocator < buffer.address ∨ buffer.address < coapMemBufLowEnd allocator) := by
    omega
  rw [coapFreeMsgPayload]
  simp only [if_neg within, if_pos outside, coapMemRelease, Option.bind_eq_bind]
  rw [released, Option.bind_some]

/-- A payload that is not a buffer of its own is left alone. -/
theorem coapFreeMsgPayload_kept (fresh : Fresh site.freelist initial) (area : Area site len)
    (enough : site.size < 12 * fuel) (reached : Reached site len fuel initial tracked) {message : Buffer}
    (member : message ∈ tracked.store) {location : PayloadLocation} (other : location ≠ .heap) {pointers : PayloadPointer}
    (located : PayloadAt site len tracked.store message location pointers.payload) :
    coapFreeMsgPayload site.freelist message.address pointers tracked.allocator = some (pointers, tracked.allocator) := by
  obtain ⟨blocks, ring, sound⟩ := reached.steady fresh area enough
  obtain ⟨lowEnd, highEnd⟩ := reached.ends area
  have usable := sound.ready.toPool.bsize_eq (sound.extent_mem member)
  obtain ⟨_, _, high⟩ := sound.ready.toPool.toRow.buffer_inside (sound.extent_mem member)
  have fits : message.address + message.bytes.length < addressSpace := by
    have whole := site.fits
    omega
  obtain ⟨payload, payloadBufSize⟩ := pointers
  cases located with
  | null => rfl
  | message first last =>
    have inside := (bufferIsPartOfMsg_eq usable fits).mpr ⟨first, last⟩
    rw [coapFreeMsgPayload]
    simp only [inside, Bool.true_eq_false, if_false, ite_self]
  | heap => exact absurd rfl other
  | static outside =>
    rw [coapFreeMsgPayload]
    refine if_pos ?_
    rw [lowEnd]
    clear fits usable high
    omega

/-- The payload is released if and only if it is a buffer of its own, and then it is the only one that is. -/
theorem reached_free_payload (fresh : Fresh site.freelist initial) (area : Area site len) (enough : site.size < 12 * fuel)
    (reached : Reached site len fuel initial tracked) {message : Buffer} (member : message ∈ tracked.store)
    (msg : PayloadMessage) {pointers : PayloadPointer} (located : PayloadAt site len tracked.store message msg.location pointers.payload)
    (sized : pointers.payloadBufSize = msg.payloadBufSize) :
    ∃ after final, coapFreeMsgPayload site.freelist message.address pointers tracked.allocator =
        some (after, final.allocator) ∧ Reached site len fuel initial final ∧
      PayloadAt site len final.store message (freeMsgPayload msg).location after.payload ∧
      after.payloadBufSize = (freeMsgPayload msg).payloadBufSize ∧ message ∈ final.store ∧
      (msg.location ≠ .heap → final = tracked) ∧
      ∀ payload, msg.location = .heap → pointers.payload = some payload →
        final.store = tracked.store.release payload := by
  by_cases heap : msg.location = .heap
  · obtain ⟨location, size⟩ := freeMsgPayload_freed heap
    obtain ⟨blocks, ring, sound⟩ := reached.steady fresh area enough
    obtain ⟨payload, payloadBufSize⟩ := pointers
    rw [heap] at located
    cases located with
    | heap listed other =>
      rename_i buffer
      obtain ⟨lowEnd, highEnd⟩ := reached.ends area
      have between := sound.between member listed other.symm
      have usable := sound.ready.toPool.bsize_eq (sound.extent_mem member)
      obtain ⟨_, _, high⟩ := sound.ready.toPool.toRow.buffer_inside (sound.extent_mem member)
      obtain ⟨_, first, last⟩ := sound.ready.toPool.toRow.buffer_inside (sound.extent_mem listed)
      have legal : Legal tracked (.release buffer.address) := ⟨buffer, listed, rfl⟩
      obtain ⟨_, _, _, _, taken, _⟩ := sound.step legal (sound.ready.toPool.toRow.enough enough).1
      obtain ⟨allocator, released, rfl⟩ := Option.map_eq_some_iff.mp taken
      have lowest : coapMemBufLowEnd tracked.allocator ≤ buffer.address := by omega
      have highest : buffer.address ≤ coapMemBufHighEnd tracked.allocator := by
        have multiple := area.rounded
        unfold roundDown sizeQuant at multiple
        omega
      have fits : message.address + message.bytes.length < addressSpace := by
        have whole := site.fits
        omega
      have freed := coapFreeMsgPayload_freed payloadBufSize lowest highest usable fits between
        (sound.filled buffer listed) released
      obtain ⟨began, initialised, run⟩ := reached
      refine ⟨⟨none, 0⟩, ⟨allocator, tracked.store.release buffer.address⟩, freed,
        ⟨began, initialised, run.next _ legal taken⟩, ?_, size.symm, ?_, fun different => absurd heap different, ?_⟩
      · rw [location]
        exact .null
      · exact List.mem_filter.mpr ⟨member, decide_eq_true other.symm⟩
      · rintro payload _ ⟨rfl⟩
        rfl
  · refine ⟨pointers, tracked, coapFreeMsgPayload_kept fresh area enough reached member heap located, reached, ?_, ?_, member,
      fun _ => rfl, fun _ same => absurd same heap⟩
    · rwa [freeMsgPayload_kept heap]
    · rwa [freeMsgPayload_kept heap]

theorem reached_free_payload_workMemory : ∃ (tracked final : Tracked) (message : Buffer) (after : PayloadPointer),
    tracked.store = [message] ∧ coapFreeMsgPayload 4096 message.address ⟨some message.address, 0⟩ tracked.allocator =
      some (after, final.allocator) ∧ message ∈ final.store := by
  obtain ⟨tracked, message, reached, store⟩ := exists_reached
  have member : message ∈ tracked.store := by
    rw [store]
    exact List.mem_cons_self
  have located : PayloadAt workMemory 4096 tracked.store message .message
      (PayloadPointer.mk (some message.address) 0).payload :=
    .message (Nat.le_refl _) (Nat.le_add_right _ _)
  obtain ⟨after, final, freed, _, _, _, kept, _⟩ := reached_free_payload unused_fresh workMemory_area (by decide) reached
    member ⟨coapInitToEmptyResetMsg, .message, [], fun _ => .inl rfl⟩ located rfl
  exact ⟨tracked, final, message, after, store, freed, kept⟩

end

end SmingCoap.Server.Bget
