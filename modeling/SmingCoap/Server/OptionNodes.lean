import SmingCoap.Server.AllocatorSoundness
import SmingCoap.Server.OptionHeap
import SmingCoap.Server.OptionListSoundness

/-! # Nodes in buffers

`Carries` says that the nodes of a list on pointers lie in buffers of the
allocator, field by field.  A write to a `next` field and the fields of a new
node carry over, so that the append on bytes does what the append on nodes does
(`appendOptionToList_simulates`).
-/

namespace SmingCoap.Server.Bget

open Wire (Memory Opt int16 int16_eq)
open LinkedList (Node Segment walk)

/-- Each node lies in a buffer, with its value behind it. -/
def Carries (own : List (Nat × Nat)) (memory : Memory) (heap : LinkedList.Heap Opt) : Prop :=
  ∀ p node, heap p = some node → readOption memory p = node ∧ optionValue memory p = p + optionSize ∧
    ∃ capacity, (p, capacity) ∈ own ∧ optionSize + node.entry.value.length ≤ capacity

/-- A pointer that is null or can be stored. -/
def Storable (target : Option Nat) : Prop := ∀ p ∈ target, 0 < p ∧ p < addressSpace

section
variable {memory other : Memory} {p q new i : Nat} {target next : Option Nat} {option : Opt}

/-! ## One node -/

theorem loadPointer_congr (agree : ∀ i, p ≤ i → i < p + 4 → other i = memory i) :
    loadPointer other p = loadPointer memory p := by
  rw [loadPointer, loadPointer, Memory.load_congr agree]

/-- A node is read from its own bytes. -/
theorem readOption_congr (value : optionValue memory p = p + optionSize)
    (agree : ∀ i, p ≤ i → i < p + (optionSize + (readOption memory p).entry.value.length) → other i = memory i) :
    readOption other p = readOption memory p ∧ optionValue other p = p + optionSize := by
  have twelve : optionSize = 12 := rfl
  have length : (readOption memory p).entry.value.length = memory.load 2 (p + 6) := Memory.length_bytes ..
  have valueKept : optionValue other p = optionValue memory p :=
    Memory.load_congr fun i low high => agree i (by omega) (by omega)
  have numberKept : other.load 2 (p + 4) = memory.load 2 (p + 4) :=
    Memory.load_congr fun i low high => agree i (by omega) (by omega)
  have lengthKept : other.load 2 (p + 6) = memory.load 2 (p + 6) :=
    Memory.load_congr fun i low high => agree i (by omega) (by omega)
  have nextKept : loadPointer other p = loadPointer memory p :=
    loadPointer_congr fun i low high => agree i low (by omega)
  have bytesKept : other.bytes (p + optionSize) (memory.load 2 (p + 6)) =
      memory.bytes (p + optionSize) (memory.load 2 (p + 6)) :=
    Memory.bytes_congr fun i low high => agree i (by omega) (by omega)
  rw [readOption, readOption, valueKept, numberKept, lengthKept, nextKept, value, bytesKept]
  exact ⟨rfl, rfl⟩

theorem setNext_outside (outside : i < p ∨ p + 4 ≤ i) : setNext memory p target i = memory i :=
  Memory.put_outside outside

theorem loadPointer_setNext (storable : Storable target) : loadPointer (setNext memory p target) p = target := by
  rw [loadPointer, setNext]
  cases target with
  | none =>
    rw [Option.getD_none, Memory.load_put (by decide)]
    rfl
  | some q =>
    obtain ⟨positive, fits⟩ := storable q rfl
    rw [Option.getD_some, Memory.load_put fits, if_neg (Nat.ne_of_gt positive)]

/-- The other fields of the node do not change. -/
theorem readOption_setNext (value : optionValue memory p = p + optionSize) (storable : Storable target) :
    readOption (setNext memory p target) p = { readOption memory p with next := target } ∧
      optionValue (setNext memory p target) p = p + optionSize := by
  have twelve : optionSize = 12 := rfl
  have outside : ∀ i, p + 4 ≤ i → setNext memory p target i = memory i := fun i low => setNext_outside (.inr low)
  have valueKept : optionValue (setNext memory p target) p = optionValue memory p :=
    Memory.load_congr fun i low high => outside i (by omega)
  have numberKept : (setNext memory p target).load 2 (p + 4) = memory.load 2 (p + 4) :=
    Memory.load_congr fun i low high => outside i low
  have lengthKept : (setNext memory p target).load 2 (p + 6) = memory.load 2 (p + 6) :=
    Memory.load_congr fun i low high => outside i (by omega)
  have bytesKept : (setNext memory p target).bytes (p + optionSize) (memory.load 2 (p + 6)) =
      memory.bytes (p + optionSize) (memory.load 2 (p + 6)) :=
    Memory.bytes_congr fun i low high => outside i (by omega)
  rw [readOption, readOption, valueKept, numberKept, lengthKept, loadPointer_setNext storable, value, bytesKept]
  exact ⟨rfl, rfl⟩

theorem fillOption_outside (fits : new + optionSize < addressSpace)
    (outside : i < new + 4 ∨ new + optionSize + option.value.length ≤ i) :
    fillOption memory new option i = memory i := by
  have twelve : optionSize = 12 := rfl
  have target := pointer_add fits
  have space : addressSpace = 256 ^ 4 := rfl
  have fits' : new + optionSize < 256 ^ 4 := by rwa [← space]
  simp only [fillOption, target]
  rw [optionValue, Memory.load_put fits', Memory.copy_outside _ (by omega), Memory.put_outside (by omega),
    Memory.put_outside (by omega), Memory.put_outside (by omega)]

/-- The fields that were written can be read. -/
theorem readOption_fillOption (fits : new + optionSize < addressSpace) (number : option.number < 65536)
    (length : option.value.length < 65536) :
    readOption (fillOption memory new option) new = ⟨loadPointer memory new, option⟩ ∧
      optionValue (fillOption memory new option) new = new + optionSize := by
  have twelve : optionSize = 12 := rfl
  have target := pointer_add fits
  have space : addressSpace = 256 ^ 4 := rfl
  have fits' : new + optionSize < 256 ^ 4 := by rwa [← space]
  have nextKept : loadPointer (fillOption memory new option) new = loadPointer memory new :=
    loadPointer_congr fun i low high => fillOption_outside fits (.inl high)
  -- what is below the value is as it was put
  have below : ∀ i, i < new + optionSize → fillOption memory new option i =
      (((memory.put 2 (new + 6) option.value.length).put 2 (new + 4) option.number).put 4 (new + 8)
        (new + optionSize)) i := by
    intro i low
    simp only [fillOption, target]
    rw [optionValue, Memory.load_put fits', Memory.copy_outside _ (.inl low)]
  have valueEq : optionValue (fillOption memory new option) new = new + optionSize := by
    rw [optionValue, Memory.load_congr fun i low high => below i (by omega), Memory.load_put fits']
  have numberEq : (fillOption memory new option).load 2 (new + 4) = option.number := by
    rw [Memory.load_congr fun i low high => below i (by omega), Memory.load_put_apart (by omega),
      Memory.load_put number]
  have lengthEq : (fillOption memory new option).load 2 (new + 6) = option.value.length := by
    rw [Memory.load_congr fun i low high => below i (by omega), Memory.load_put_apart (by omega),
      Memory.load_put_apart (by omega), Memory.load_put length]
  have bytesEq : (fillOption memory new option).bytes (new + optionSize) option.value.length = option.value := by
    simp only [fillOption, target]
    rw [optionValue, Memory.load_put fits']
    exact (Memory.copy_holds _ _ _).eq_bytes rfl
  rw [readOption, nextKept, valueEq, numberEq, lengthEq, bytesEq]
  exact ⟨rfl, rfl⟩

end

/-! ## All of them -/

/-- Buffers that do not overlap, at addresses that can be stored. -/
structure Places (own : List (Nat × Nat)) : Prop where
  apart : own.Pairwise ExtentsApart
  storable : ∀ extent ∈ own, 0 < extent.1 ∧ 0 < extent.2 ∧ extent.1 + extent.2 < addressSpace

/-- The bytes outside of some buffers are what they were. -/
def Outside (own : List (Nat × Nat)) (memory other : Memory) : Prop :=
  ∀ i, (∀ extent ∈ own, i < extent.1 ∨ extent.1 + extent.2 ≤ i) → other i = memory i

section
variable {own more : List (Nat × Nat)} {memory other : Memory} {heap : LinkedList.Heap Opt} {p q capacity new : Nat}
  {node : LinkedList.Node Opt} {target next : Option Nat} {option : Opt}

theorem Places.apart_of (places : Places own) {extent second : Nat × Nat} (one : extent ∈ own) (another : second ∈ own)
    (differ : extent.1 ≠ second.1) : ExtentsApart extent second := by
  have symmetric : Std.Symm ExtentsApart := ⟨fun _ _ => Or.symm⟩
  exact places.apart.forall one another fun same => differ (by rw [same])

/-- Bytes of another buffer. -/
theorem Places.elsewhere (places : Places own) {extent second : Nat × Nat} (one : extent ∈ own) (another : second ∈ own)
    (differ : extent.1 ≠ second.1) {i : Nat} (low : second.1 ≤ i) (high : i < second.1 + second.2) :
    i < extent.1 ∨ extent.1 + extent.2 ≤ i :=
  (places.apart_of one another differ).outside low high

theorem Carries.congr (carries : Carries own memory heap) (sub : ∀ p capacity node, heap p = some node →
    (p, capacity) ∈ own → (p, capacity) ∈ more ∧ ∀ i, p ≤ i → i < p + capacity → other i = memory i) :
    Carries more other heap := by
  intro p node found
  obtain ⟨read, value, capacity, listed, room⟩ := carries p node found
  obtain ⟨member, agree⟩ := sub p capacity node found listed
  have length : (readOption memory p).entry.value.length = node.entry.value.length := by rw [read]
  have kept := readOption_congr value fun i low high => agree i low (by omega)
  exact ⟨kept.1.trans read, kept.2, capacity, member, room⟩

/-- One `next` field is written. -/
theorem Carries.setNext (carries : Carries own memory heap) (places : Places own) (found : heap p = some node)
    (storable : Storable target) : Carries own (Bget.setNext memory p target) (heap.setNext p target) := by
  intro q other there
  obtain ⟨read, value, capacity, listed, room⟩ := carries p node found
  by_cases same : q = p
  · rw [same, LinkedList.Heap.setNext_same found, Option.some.injEq] at there
    rw [same, ← there]
    obtain ⟨readAfter, valueAfter⟩ := readOption_setNext value storable
    rw [read] at readAfter
    exact ⟨readAfter, valueAfter, capacity, listed, room⟩
  · rw [LinkedList.Heap.setNext_other _ _ same] at there
    obtain ⟨readOther, valueOther, size, member, roomOther⟩ := carries q other there
    have twelve : optionSize = 12 := rfl
    have length : (readOption memory q).entry.value.length = other.entry.value.length := by rw [readOther]
    have agree : ∀ i, q ≤ i → i < q + (optionSize + (readOption memory q).entry.value.length) →
        Bget.setNext memory p target i = memory i := by
      intro i low high
      have outside := places.elsewhere listed member (Ne.symm same) low (show i < q + size by omega)
      simp only at outside
      exact setNext_outside (by omega)
    have kept := readOption_congr valueOther agree
    exact ⟨kept.1.trans readOther, kept.2, size, member, roomOther⟩

/-- A new node is written. -/
theorem Carries.write (carries : Carries own memory heap) (places : Places own) (listed : (new, capacity) ∈ own)
    (room : optionSize + option.value.length ≤ capacity) (number : option.number < 65536)
    (length : option.value.length < 65536) (storable : Storable next) :
    Carries own (fillOption (Bget.setNext memory new next) new option) (heap.store new ⟨next, option⟩) := by
  have twelve : optionSize = 12 := rfl
  have fits : new + optionSize < addressSpace := by
    have whole := (places.storable _ listed).2.2
    simp only at whole
    omega
  intro q other there
  by_cases same : q = new
  · rw [same, LinkedList.Heap.store_same, Option.some.injEq] at there
    rw [same, ← there]
    obtain ⟨read, value⟩ := @readOption_fillOption (Bget.setNext memory new next) new option fits number length
    rw [loadPointer_setNext storable] at read
    exact ⟨read, value, capacity, listed, room⟩
  · rw [LinkedList.Heap.store_other _ _ same] at there
    obtain ⟨readOther, valueOther, size, member, roomOther⟩ := carries q other there
    have length : (readOption memory q).entry.value.length = other.entry.value.length := by rw [readOther]
    have agree : ∀ i, q ≤ i → i < q + (optionSize + (readOption memory q).entry.value.length) →
        fillOption (Bget.setNext memory new next) new option i = memory i := by
      intro i low high
      have outside := places.elsewhere listed member (Ne.symm same) low (show i < q + size by omega)
      simp only at outside
      rw [fillOption_outside fits (by omega), setNext_outside (by omega)]
    have kept := readOption_congr valueOther agree
    exact ⟨kept.1.trans readOther, kept.2, size, member, roomOther⟩

end

/-! ## The append -/

/-- What an append writes, to the bytes and to the nodes, once it knows what it got from the allocator. -/
inductive Edits (option : Opt) (got : Option Nat) (memory : Memory) (heap : LinkedList.Heap Opt) :
    Memory → LinkedList.Heap Opt → Prop
  | nothing : Edits option got memory heap memory heap
  | unlinked {p : Nat} {node : LinkedList.Node Opt} (found : heap p = some node) :
      Edits option got memory heap (setNext memory p none) (heap.setNext p none)
  | written {new : Nat} (isNew : got = some new) {next : Option Nat} (known : ∀ q ∈ next, ∃ node, heap q = some node) :
      Edits option got memory heap (fillOption (setNext memory new next) new option) (heap.store new ⟨next, option⟩)
  | linked {p new : Nat} {node : LinkedList.Node Opt} (found : heap p = some node) (isNew : got = some new)
      {next : Option Nat} (known : ∀ q ∈ next, ∃ node, heap q = some node) :
      Edits option got memory heap (fillOption (setNext (setNext memory p (some new)) new next) new option)
        ((heap.setNext p (some new)).store new ⟨next, option⟩)

section
variable {freelist fuel : Nat} {option : Opt} {list : OptionHeap} {nodes after : OptionMemory} {got : Option Nat}
  {allocated : Allocator} {code : CoapResult}

theorem optionHeap_agrees {memory : Memory} {heap : LinkedList.Heap Opt}
    (agree : ∀ p node, heap p = some node → readOption memory p = node) :
    ∀ p node, heap p = some node → optionHeap memory p = some node :=
  fun p node found => congrArg some (agree p node found)

theorem appendOptionToListEnd_simulates (start : list.start = nodes.start)
    (agree : ∀ p node, nodes.heap p = some node → readOption list.allocator.memory p = node)
    (obtained : OptionHeap.memGet freelist fuel option.value.length list.allocator = some (got, allocated))
    (result : nodes.appendOptionToListEnd fuel got option = some (code, after)) :
    ∃ final, list.appendOptionToListEnd freelist fuel option =
        some (code, ⟨{ allocated with memory := final }, after.start⟩) ∧
      Edits option got allocated.memory nodes.heap final after.heap := by
  cases first : nodes.start with
  | none =>
    simp only [OptionMemory.appendOptionToListEnd, first] at result
    simp only [OptionHeap.appendOptionToListEnd, start, first]
    rw [obtained, Option.bind_eq_bind, Option.bind_some]
    cases got with
    | none =>
      cases result
      exact ⟨_, rfl, .nothing⟩
    | some new =>
      cases result
      exact ⟨_, rfl, .written rfl (by simp)⟩
  | some pOption =>
    simp only [OptionMemory.appendOptionToListEnd, first, Option.bind_eq_bind] at result
    obtain ⟨stopped, walked, result⟩ := Option.bind_eq_some_iff.mp result
    obtain ⟨last, rfl, result⟩ := Option.bind_eq_some_iff.mp result
    obtain ⟨node, found⟩ := LinkedList.walk_found walked
    have same := LinkedList.walk_extends (optionHeap_agrees agree) walked
    simp only [OptionHeap.appendOptionToListEnd, start, first, Option.bind_eq_bind]
    rw [same, Option.bind_some, Option.bind_some, obtained, Option.bind_some]
    cases got with
    | none =>
      cases result
      exact ⟨_, rfl, .unlinked found⟩
    | some new =>
      cases result
      exact ⟨_, rfl, .linked found rfl (by simp)⟩

/-- The append on bytes does what the append on nodes does. -/
theorem appendOptionToList_simulates (start : list.start = nodes.start)
    (agree : ∀ p node, nodes.heap p = some node → readOption list.allocator.memory p = node)
    (obtained : OptionHeap.memGet freelist fuel option.value.length list.allocator = some (got, allocated))
    (result : nodes.appendOptionToList fuel got option = some (code, after)) :
    ∃ final, list.appendOptionToList freelist fuel option =
        some (code, ⟨{ allocated with memory := final }, after.start⟩) ∧
      Edits option got allocated.memory nodes.heap final after.heap := by
  cases first : nodes.start with
  | none =>
    simp only [OptionMemory.appendOptionToList, first] at result
    simp only [OptionHeap.appendOptionToList, start, first]
    exact appendOptionToListEnd_simulates start agree obtained result
  | some head =>
    simp only [OptionMemory.appendOptionToList, first, Option.bind_eq_bind] at result
    obtain ⟨stopped, walked, result⟩ := Option.bind_eq_some_iff.mp result
    have same := LinkedList.walk_extends (optionHeap_agrees agree) walked
    simp only [OptionHeap.appendOptionToList, start, first, Option.bind_eq_bind]
    rw [same, Option.bind_some]
    cases stopped with
    | none => exact appendOptionToListEnd_simulates start agree obtained result
    | some pOption =>
      have behind := LinkedList.walk_found walked
      by_cases front : pOption = head
      · simp only [if_pos front] at result ⊢
        rw [obtained, Option.bind_some]
        cases got with
        | none =>
          cases result
          exact ⟨_, rfl, .nothing⟩
        | some new =>
          cases result
          exact ⟨_, rfl, .written rfl (by simpa using behind)⟩
      · simp only [if_neg front] at result ⊢
        obtain ⟨previous, searched, result⟩ := Option.bind_eq_some_iff.mp result
        obtain ⟨previous, rfl, result⟩ := Option.bind_eq_some_iff.mp result
        obtain ⟨node, found⟩ := LinkedList.walk_found searched
        have sameSearch := LinkedList.walk_extends (optionHeap_agrees agree) searched
        rw [sameSearch, Option.bind_some, Option.bind_some, obtained, Option.bind_some]
        cases got with
        | none =>
          cases result
          rw [first]
          exact ⟨_, rfl, .nothing⟩
        | some new =>
          cases result
          exact ⟨_, rfl, .linked found rfl (by simpa using behind)⟩

end

section
variable {own : List (Nat × Nat)} {memory final : Memory} {heap after : LinkedList.Heap Opt} {p new capacity : Nat}
  {node : LinkedList.Node Opt} {option : Opt} {got target : Option Nat}

theorem Places.storable_of (places : Places own) (listed : (new, capacity) ∈ own) : Storable (some new) := by
  rintro q ⟨rfl⟩
  obtain ⟨positive, filled, fits⟩ := places.storable _ listed
  exact ⟨positive, Nat.lt_of_le_of_lt (Nat.le_add_right _ _) fits⟩

theorem Carries.storable (carries : Carries own memory heap) (places : Places own)
    (known : ∀ q ∈ target, ∃ node, heap q = some node) : Storable target := by
  intro q member
  obtain ⟨node, found⟩ := known q member
  obtain ⟨_, _, capacity, listed, _⟩ := carries q node found
  exact places.storable_of listed q rfl

/-- A `next` field lies in the buffer of its node. -/
theorem Carries.setNext_outside (carries : Carries own memory heap) (found : heap p = some node) :
    Outside own memory (Bget.setNext memory p target) := by
  intro i outside
  obtain ⟨_, _, capacity, listed, room⟩ := carries p node found
  have twelve : optionSize = 12 := rfl
  have apart := outside _ listed
  simp only at apart
  exact Bget.setNext_outside (by omega)

theorem fillOption_within (places : Places own) (listed : (new, capacity) ∈ own)
    (room : optionSize + option.value.length ≤ capacity) :
    Outside own memory (fillOption (setNext memory new target) new option) := by
  intro i outside
  have twelve : optionSize = 12 := rfl
  have apart := outside _ listed
  have whole := (places.storable _ listed).2.2
  simp only at apart whole
  rw [fillOption_outside (by omega) (by omega), Bget.setNext_outside (by omega)]

/-- What an append writes carries over, and lies in the buffers of the list. -/
theorem Edits.carries (edits : Edits option got memory heap final after) (carries : Carries own memory heap)
    (places : Places own) (number : option.number < 65536) (length : option.value.length < 65536)
    (listed : ∀ new ∈ got, ∃ capacity, (new, capacity) ∈ own ∧ optionSize + option.value.length ≤ capacity) :
    Carries own final after ∧ Outside own memory final := by
  cases edits with
  | nothing => exact ⟨carries, fun _ _ => rfl⟩
  | unlinked found =>
    exact ⟨carries.setNext places found fun _ missing => absurd missing (by simp), carries.setNext_outside found⟩
  | written isNew known =>
    obtain ⟨capacity, member, room⟩ := listed _ isNew
    exact ⟨carries.write places member room number length (carries.storable places known),
      fillOption_within places member room⟩
  | linked found isNew known =>
    obtain ⟨capacity, member, room⟩ := listed _ isNew
    have linked := carries.setNext places found (places.storable_of member)
    refine ⟨linked.write places member room number length (carries.storable places known), fun i outside => ?_⟩
    rw [fillOption_within places member room i outside, carries.setNext_outside found i outside]

end

end SmingCoap.Server.Bget
