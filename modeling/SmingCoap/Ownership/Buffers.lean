import SmingCoap.Wire.Memory
import Mathlib.Data.List.Pairwise

/-! # Buffers and their contents

A store is what the users of an allocator know: the buffers they were handed and
what they last wrote to them.  `Step` is how it may change with one call,
whatever the allocator does inside: a new buffer does not overlap one that is
out, a write changes one byte of one buffer, and a released buffer is gone.
Memory holds a store (`Held`) as long as nothing but its users writes to the
buffers.
-/

namespace Ownership

open Wire (Memory)

structure Buffer where
  address : Nat
  bytes : List UInt8

namespace Buffer

/-- Two buffers do not overlap. -/
def Apart (first second : Buffer) : Prop :=
  first.address + first.bytes.length ≤ second.address ∨ second.address + second.bytes.length ≤ first.address

theorem Apart.symm {first second : Buffer} (apart : first.Apart second) : second.Apart first := Or.symm apart

/-- `buffer[offset] = byte`. -/
def write (buffer : Buffer) (offset : Nat) (byte : UInt8) : Buffer :=
  { buffer with bytes := buffer.bytes.set offset byte }

/-- Where a buffer lies. -/
def extent (buffer : Buffer) : Nat × Nat := (buffer.address, buffer.bytes.length)

theorem extent_write (buffer : Buffer) (offset : Nat) (byte : UInt8) : (buffer.write offset byte).extent = buffer.extent := by
  rw [extent, write, List.length_set]
  rfl

end Buffer

/-- The buffers that are out, with what was last written to them. -/
abbrev Store := List Buffer

/-- What the users of an allocator ask of it. -/
inductive Call where
  /-- A buffer of at least some size, and the one that was handed out, or none. -/
  | get (size : Nat) (granted : Option Nat)
  | write (address offset : Nat) (byte : UInt8)
  | release (address : Nat)

namespace Store

def write (store : Store) (address offset : Nat) (byte : UInt8) : Store :=
  store.map fun buffer => if buffer.address = address then buffer.write offset byte else buffer

def release (store : Store) (address : Nat) : Store := store.filter fun buffer => buffer.address ≠ address

/-- One call, as its users see it. -/
inductive Step : Store → Call → Store → Prop
  | granted {store : Store} {size : Nat} (buffer : Buffer) (enough : size ≤ buffer.bytes.length)
      (apart : ∀ other ∈ store, buffer.Apart other) : Step store (.get size (some buffer.address)) (buffer :: store)
  | refused {store : Store} {size : Nat} : Step store (.get size none) store
  | written {store : Store} (buffer : Buffer) (member : buffer ∈ store) {offset : Nat} {byte : UInt8}
      (inside : offset < buffer.bytes.length) :
      Step store (.write buffer.address offset byte) (store.write buffer.address offset byte)
  | released {store : Store} (buffer : Buffer) (member : buffer ∈ store) :
      Step store (.release buffer.address) (store.release buffer.address)

/-- No two buffers overlap. -/
def Disjoint (store : Store) : Prop := store.Pairwise Buffer.Apart

/-- The memory has what was last written to each buffer. -/
def Held (memory : Memory) (store : Store) : Prop := ∀ buffer ∈ store, memory.Holds buffer.address buffer.bytes

section
variable {memory other : Memory} {store after : Store} {buffer : Buffer} {call : Call} {address offset : Nat} {byte : UInt8}

theorem map_extent_write : (store.write address offset byte).map Buffer.extent = store.map Buffer.extent := by
  rw [write, List.map_map]
  refine List.map_congr_left fun buffer _ => ?_
  rw [Function.comp_apply]
  split
  next => exact Buffer.extent_write ..
  next => rfl

theorem disjoint_iff_extent : store.Disjoint ↔ (store.map Buffer.extent).Pairwise fun first second =>
    first.1 + first.2 ≤ second.1 ∨ second.1 + second.2 ≤ first.1 := by
  rw [List.pairwise_map]
  exact Iff.rfl

/-- Buffers do not come to overlap. -/
theorem Step.disjoint (step : Step store call after) (disjoint : store.Disjoint) : after.Disjoint := by
  cases step with
  | granted buffer enough apart => exact List.pairwise_cons.mpr ⟨apart, disjoint⟩
  | refused => exact disjoint
  | written buffer member inside =>
    rw [disjoint_iff_extent, map_extent_write, ← disjoint_iff_extent]
    exact disjoint
  | released buffer member => exact disjoint.filter _

/-- Of buffers that are not empty no two begin at one address. -/
theorem Disjoint.unique (disjoint : store.Disjoint) (filled : ∀ buffer ∈ store, buffer.bytes ≠ []) {first second : Buffer}
    (one : first ∈ store) (another : second ∈ store) (same : first.address = second.address) : first = second := by
  by_contra differ
  have symmetric : Std.Symm Buffer.Apart := ⟨fun _ _ apart => apart.symm⟩
  have apart := disjoint.forall one another differ
  have length := List.length_pos_iff.mpr (filled first one)
  have too := List.length_pos_iff.mpr (filled second another)
  unfold Buffer.Apart at apart
  omega

/-- What nobody wrote to is what it was. -/
theorem Held.congr (held : Held memory store)
    (agree : ∀ buffer ∈ store, ∀ i, buffer.address ≤ i → i < buffer.address + buffer.bytes.length → other i = memory i) :
    Held other store :=
  fun buffer member => (held buffer member).congr fun i low high => agree buffer member i low high

/-- A user writes to a buffer. -/
theorem Held.write (held : Held memory store) (disjoint : store.Disjoint) (filled : ∀ buffer ∈ store, buffer.bytes ≠ [])
    (member : buffer ∈ store) (inside : offset < buffer.bytes.length) :
    Held (memory.store (buffer.address + offset) byte) (store.write buffer.address offset byte) := by
  intro target listed
  obtain ⟨source, known, rfl⟩ := List.mem_map.mp listed
  by_cases same : source.address = buffer.address
  · obtain rfl := disjoint.unique filled known member same
    rw [if_pos rfl]
    apply List.ext_getElem (by simp [Buffer.write])
    intro i low high
    have bound : i < source.bytes.length := by simpa [Buffer.write] using high
    rw [Memory.getElem_bytes]
    simp only [Buffer.write, List.getElem_set]
    by_cases here : offset = i
    · rw [if_pos here, here]
      exact Memory.store_same ..
    · rw [if_neg here, Memory.store_other _ _ (by omega)]
      exact (held source known).apply bound
  · rw [if_neg same]
    have symmetric : Std.Symm Buffer.Apart := ⟨fun _ _ apart => apart.symm⟩
    have apart := disjoint.forall known member fun equal => same (by rw [equal])
    refine (held source known).congr fun i low high => Memory.store_other _ _ ?_
    unfold Buffer.Apart at apart
    omega

/-- One buffer is taken away. -/
theorem release_perm (disjoint : store.Disjoint) (filled : ∀ buffer ∈ store, buffer.bytes ≠ []) (member : buffer ∈ store) :
    store.Perm (buffer :: store.release buffer.address) := by
  obtain ⟨front, back, rfl⟩ := List.append_of_mem member
  have length := List.length_pos_iff.mpr (filled buffer member)
  obtain ⟨_, behind, before⟩ := List.pairwise_append.mp disjoint
  have kept : ∀ list : Store, (∀ other ∈ list, buffer.Apart other) → (∀ other ∈ list, other.bytes ≠ []) →
      list.filter (fun other => other.address ≠ buffer.address) = list := by
    intro list apart filled
    refine List.filter_eq_self.mpr fun other listed => ?_
    have away := apart other listed
    have room := List.length_pos_iff.mpr (filled other listed)
    unfold Buffer.Apart at away
    exact decide_eq_true (by omega)
  have gone : (decide (buffer.address ≠ buffer.address)) = false := decide_eq_false (not_not_intro rfl)
  rw [release, List.filter_append, List.filter_cons_of_neg (by rw [gone]; exact Bool.false_ne_true),
    kept front (fun other listed => (before other listed buffer List.mem_cons_self).symm)
      (fun other listed => filled other (List.mem_append_left _ listed)),
    kept back (List.pairwise_cons.mp behind).1
      (fun other listed => filled other (List.mem_append_right _ (List.mem_cons_of_mem _ listed)))]
  exact List.perm_middle

theorem Held.release (held : Held memory store) : Held memory (store.release address) :=
  fun buffer member => held buffer (List.mem_filter.mp member).1

end

end Store

end Ownership
