import Mathlib.Logic.Relation
import SmingCoap.Wire.Message

/-! # Reading a message from the front

A parser stands at a `Cursor`: the next byte and the number of the option before
it.  `Spelled` says which options the bytes between two cursors are, built up one
exactly read option at a time (`Spelled.cons`), and `Spelled.message` turns a
header and the options up to an end of the format into the message that the whole
byte sequence is.

`Reader` is what an option parser with limits of its own has to provide: one turn
as a relation on cursors, which options it can read, and where it loses bits.
Its path to the end then either meets an option it loses bits of or spells a list
of options (`Reader.spelled_or_stray`), and over a list that was written it takes
the turns one after the other (`Reader.path_of_holds`) and loses nothing
(`Reader.not_overflows_of_holds`).
-/

namespace Wire

open Relation (ReflTransGen)

/-- Where a parser stands: the next option and the running number. -/
structure Cursor where
  position : Nat
  number : Nat
  deriving DecidableEq, Repr

/-- The options end here: no byte is left, or a marker with a payload behind it. -/
def Finishes (memory : Memory) (stop position : Nat) : Prop :=
  position = stop ∨ (memory position = 0xFF ∧ position + 1 < stop)

theorem Finishes.le {memory : Memory} {stop position : Nat} (finishes : Finishes memory stop position) :
    position ≤ stop := by
  rcases finishes with atEnd | ⟨_, filled⟩ <;> omega

theorem Finishes.payloadSection {memory : Memory} {stop position : Nat}
    (finishes : Finishes memory stop position) :
    payloadSection (memory.bytes (position + 1) (stop - position - 1)) =
      memory.bytes position (stop - position) := by
  rcases finishes with atEnd | ⟨marker, filled⟩
  · rw [atEnd, Nat.sub_self]
    rfl
  · obtain ⟨length, lengthEq⟩ : ∃ length, stop - position = length + 2 :=
      ⟨stop - position - 2, by omega⟩
    rw [lengthEq, Memory.bytes, marker]
    exact payloadSection_of_ne (List.cons_ne_nil _ _)

/-- `options` are the options whose bytes lie from `cursor` to `last`. -/
structure Spelled (memory : Memory) (cursor last : Cursor) (options : List Opt) : Prop where
  ascending : Ascending cursor.number options
  representable : Representable options
  holds : memory.Holds cursor.position (encodeOptions cursor.number options)
  position_eq : last.position = cursor.position + (encodeOptions cursor.number options).length

theorem Spelled.nil (memory : Memory) (cursor : Cursor) : Spelled memory cursor cursor [] :=
  ⟨trivial, (fun _ member => nomatch member), Memory.holds_nil .., rfl⟩

/-- The option at a position, its number counted from the one before. -/
def optionAt (memory : Memory) (cursor : Cursor) : Opt :=
  ⟨cursor.number + deltaAt memory cursor.position,
    memory.bytes (cursor.position + headerSize memory cursor.position)
      (lengthAt memory cursor.position)⟩

/-- The cursor behind that option. -/
def behind (memory : Memory) (cursor : Cursor) : Cursor :=
  ⟨cursor.position + (headerSize memory cursor.position + lengthAt memory cursor.position),
    cursor.number + deltaAt memory cursor.position⟩

/-- One more option in front, read without loss. -/
theorem Spelled.cons {memory : Memory} {cursor last : Cursor} {options : List Opt}
    (upper : upperNibble (memory cursor.position) ≤ 14)
    (lower : lowerNibble (memory cursor.position) ≤ 14)
    (numberBound : cursor.number + deltaAt memory cursor.position ≤ 65535)
    (lengthBound : lengthAt memory cursor.position ≤ 65535)
    (rest : Spelled memory (behind memory cursor) last options) :
    Spelled memory cursor last (optionAt memory cursor :: options) := by
  have spelled := bytes_of_option upper lower
  have size : (encodeOption (deltaAt memory cursor.position)
      (memory.bytes (cursor.position + headerSize memory cursor.position)
        (lengthAt memory cursor.position))).length =
      headerSize memory cursor.position + lengthAt memory cursor.position := by
    rw [← spelled, Memory.length_bytes]
  refine ⟨⟨Nat.le_add_right .., rest.ascending⟩, ?_, ?_, ?_⟩
  · intro member inside
    cases inside with
    | head => exact ⟨numberBound, by simpa [optionAt] using lengthBound⟩
    | tail _ inside => exact rest.representable member inside
  · simp only [encodeOptions, optionAt, Nat.add_sub_cancel_left, Memory.holds_append, size]
    rw [← spelled]
    exact ⟨Memory.holds_bytes .., rest.holds⟩
  · have total := rest.position_eq
    simp only [encodeOptions, optionAt, Nat.add_sub_cancel_left, List.length_append, size]
    rw [total, behind, Nat.add_assoc]

/-- What is spelled behind a pointer is spelled at its place in the whole. -/
theorem Spelled.of_offset {memory : Memory} {shift : Nat} {cursor last : Cursor} {options : List Opt}
    (spelled : Spelled (memory.offset shift) cursor last options) :
    Spelled memory ⟨shift + cursor.position, cursor.number⟩ ⟨shift + last.position, last.number⟩
      options := by
  have holds := spelled.holds
  rw [Memory.Holds, Memory.bytes_offset] at holds
  have positionEq := spelled.position_eq
  exact ⟨spelled.ascending, spelled.representable, holds, by simp only; omega⟩

theorem Finishes.of_offset {memory : Memory} {shift stop position : Nat} (inside : shift ≤ stop)
    (finishes : Finishes (memory.offset shift) (stop - shift) position) :
    Finishes memory stop (shift + position) := by
  rcases finishes with atEnd | ⟨marker, filled⟩
  · exact Or.inl (by omega)
  · exact Or.inr ⟨marker, by omega⟩

/-- The message a byte sequence is, once its options are spelled up to an end. -/
def messageAt (memory : Memory) (stop : Nat) (last : Cursor) (options : List Opt) : Message where
  type := (memory 0).toNat / 16 % 4
  code := memory 1
  messageID := bigEndian16 (memory 2) (memory 3)
  token := memory.bytes 4 ((memory 0).toNat % 16)
  options := options
  payload := memory.bytes (last.position + 1) (stop - last.position - 1)

theorem Spelled.message {memory : Memory} {stop : Nat} {last : Cursor} {options : List Opt}
    (version : (memory 0).toNat / 64 = 1) (tokenLength : (memory 0).toNat % 16 ≤ 8)
    (spelled : Spelled memory ⟨4 + (memory 0).toNat % 16, 0⟩ last options)
    (finishes : Finishes memory stop last.position) :
    (messageAt memory stop last options).Fits ∧
      (messageAt memory stop last options).encode = memory.bytes 0 stop := by
  have within := finishes.le
  have positionEq := spelled.position_eq
  have optionsEq := spelled.holds.eq_bytes rfl
  simp only at positionEq optionsEq
  refine ⟨⟨Nat.mod_lt _ (by decide), bigEndian16_le .., ?_, spelled.ascending,
    spelled.representable⟩, ?_⟩
  · simpa [messageAt] using tokenLength
  · simp only [Message.encode, Message.header, messageAt, Memory.length_bytes]
    rw [← bytes_header version, ← optionsEq, finishes.payloadSection, positionEq,
      Memory.bytes_append, Memory.bytes_append, Memory.bytes_append]
    congr 1
    omega

/-! ## Option parsers -/

/-- An option parser on the bytes up to `stop`. -/
structure Reader (memory : Memory) (stop : Nat) where
  /-- One turn, from an option to the next. -/
  step : Cursor → Cursor → Prop
  /-- The turn at this cursor loses bits of a number it reads. -/
  overflows : Cursor → Prop
  /-- Options the parser has no limit against. -/
  admits : Opt → Prop
  unique : ∀ cursor first second, step cursor first → step cursor second → first = second
  unfinished : ∀ cursor next, step cursor next → ¬ Finishes memory stop cursor.position
  upper : ∀ cursor next, step cursor next → upperNibble (memory cursor.position) ≤ 14
  lower : ∀ cursor next, step cursor next → lowerNibble (memory cursor.position) ≤ 14
  /-- A turn that loses nothing reads an option of the format. -/
  exact : ∀ cursor next, step cursor next → ¬ overflows cursor →
    next = behind memory cursor ∧ cursor.number + deltaAt memory cursor.position ≤ 65535 ∧
      lengthAt memory cursor.position ≤ 65535 ∧ admits (optionAt memory cursor)
  /-- An option of the format is read without loss. -/
  reads : ∀ position number option, number ≤ option.number → option.number ≤ 65535 →
    option.value.length ≤ 65535 → admits option →
    OptionAt memory position (option.number - number) option.value →
    position + (encodeOption (option.number - number) option.value).length ≤ stop →
    ¬ overflows ⟨position, number⟩ ∧ step ⟨position, number⟩
      ⟨position + (encodeOption (option.number - number) option.value).length, option.number⟩

namespace Reader

variable {memory : Memory} {stop : Nat} (reader : Reader memory stop)

/-- The parser loses bits of an option on a path from `start` to an end. -/
def Stray (start last : Cursor) : Prop :=
  ∃ stray next, ReflTransGen reader.step start stray ∧ reader.overflows stray ∧
    reader.step stray next ∧ ReflTransGen reader.step next last

theorem Stray.path {reader : Reader memory stop} {start last : Cursor} (stray : reader.Stray start last) :
    ReflTransGen reader.step start last := by
  obtain ⟨cursor, next, before, _, step, rest⟩ := stray
  exact before.trans (.head step rest)

theorem position_le (grows : ∀ cursor next, reader.step cursor next → cursor.position ≤ next.position)
    {cursor last : Cursor} (path : ReflTransGen reader.step cursor last) :
    cursor.position ≤ last.position := by
  induction path with
  | refl => exact Nat.le_refl _
  | tail _ step inductionHypothesis => exact Nat.le_trans inductionHypothesis (grows _ _ step)

/-- Induction on the path, from its last option back. -/
theorem spelled_or_stray {cursor last : Cursor} (path : ReflTransGen reader.step cursor last) :
    reader.Stray cursor last ∨
      ∃ options, Spelled memory cursor last options ∧ ∀ option ∈ options, reader.admits option := by
  induction path using ReflTransGen.head_induction_on with
  | refl => exact Or.inr ⟨[], Spelled.nil .., fun _ member => nomatch member⟩
  | head first rest inductionHypothesis =>
    rename_i cursor next
    by_cases overflows : reader.overflows cursor
    · exact Or.inl ⟨cursor, next, .refl, overflows, first, rest⟩
    · cases inductionHypothesis with
      | inl stray =>
        obtain ⟨stray, after, before, overflow, reads, behind⟩ := stray
        exact Or.inl ⟨stray, after, .head first before, overflow, reads, behind⟩
      | inr spelled =>
        obtain ⟨options, spelled, admitted⟩ := spelled
        obtain ⟨nextEq, numberBound, lengthBound, admits⟩ := reader.exact cursor next first overflows
        rw [nextEq] at spelled
        refine Or.inr ⟨_, spelled.cons (reader.upper cursor next first) (reader.lower cursor next first)
          numberBound lengthBound, ?_⟩
        intro option member
        cases member with
        | head => exact admits
        | tail _ member => exact admitted option member

/-- There is one end at most. -/
theorem end_unique {cursor first second : Cursor} (left : ReflTransGen reader.step cursor first)
    (leftEnds : Finishes memory stop first.position) (right : ReflTransGen reader.step cursor second)
    (rightEnds : Finishes memory stop second.position) : first = second := by
  induction left using ReflTransGen.head_induction_on with
  | refl =>
    cases right using ReflTransGen.head_induction_on with
    | refl => rfl
    | head step _ => exact absurd leftEnds (reader.unfinished _ _ step)
  | head step _ inductionHypothesis =>
    cases right using ReflTransGen.head_induction_on with
    | refl => exact absurd rightEnds (reader.unfinished _ _ step)
    | head other rest => exact inductionHypothesis (reader.unique _ _ _ other step ▸ rest)

/-- The first option of a written list: the parser reads it, and the rest of the list lies behind
it. -/
theorem cons {position number : Nat} {option : Opt} {rest : List Opt}
    (ascending : Ascending number (option :: rest)) (representable : Representable (option :: rest))
    (admitted : ∀ other ∈ option :: rest, reader.admits other)
    (holds : memory.Holds position (encodeOptions number (option :: rest)))
    (room : position + (encodeOptions number (option :: rest)).length ≤ stop) :
    let size := (encodeOption (option.number - number) option.value).length
    (¬ reader.overflows ⟨position, number⟩ ∧
      reader.step ⟨position, number⟩ ⟨position + size, option.number⟩) ∧
    memory.Holds (position + size) (encodeOptions option.number rest) ∧
    position + size + (encodeOptions option.number rest).length ≤ stop := by
  obtain ⟨written, restHolds⟩ := holds_cons_options representable holds
  have bounds := representable option (List.mem_cons_self ..)
  rw [encodeOptions, List.length_append] at room
  refine ⟨reader.reads _ _ _ ascending.1 bounds.1 bounds.2 (admitted option (List.mem_cons_self ..))
    written (by omega), ?_, by omega⟩
  rw [length_encodeOption]
  exact restHolds

/-- A written list is a path of the parser. -/
theorem path_of_holds (options : List Opt) (position number : Nat)
    (ascending : Ascending number options) (representable : Representable options)
    (admitted : ∀ option ∈ options, reader.admits option)
    (holds : memory.Holds position (encodeOptions number options))
    (room : position + (encodeOptions number options).length ≤ stop) :
    ReflTransGen reader.step ⟨position, number⟩
      ⟨position + (encodeOptions number options).length, lastNumber number options⟩ := by
  induction options generalizing position number with
  | nil => exact .refl
  | cons option rest inductionHypothesis =>
    obtain ⟨⟨_, turn⟩, restHolds, restRoom⟩ := reader.cons ascending representable admitted holds room
    have behind := inductionHypothesis _ _ ascending.2 representable.tail
      (fun other member => admitted other (List.mem_cons_of_mem _ member)) restHolds restRoom
    rw [Nat.add_assoc, ← List.length_append, ← encodeOptions] at behind
    exact .head turn behind

/-- No option on the way through a written list up to an end loses bits. -/
theorem not_overflows_of_holds (options : List Opt) (position number : Nat) {stray next : Cursor}
    (ascending : Ascending number options) (representable : Representable options)
    (admitted : ∀ option ∈ options, reader.admits option)
    (holds : memory.Holds position (encodeOptions number options))
    (room : position + (encodeOptions number options).length ≤ stop)
    (finishes : Finishes memory stop (position + (encodeOptions number options).length))
    (path : ReflTransGen reader.step ⟨position, number⟩ stray) (goesOn : reader.step stray next) :
    ¬ reader.overflows stray := by
  induction options generalizing position number with
  | nil =>
    -- the path cannot leave its end
    cases path using ReflTransGen.head_induction_on with
    | refl => exact absurd finishes (reader.unfinished _ _ goesOn)
    | head first _ => exact absurd finishes (reader.unfinished _ _ first)
  | cons option rest inductionHypothesis =>
    obtain ⟨⟨exact, turn⟩, restHolds, restRoom⟩ := reader.cons ascending representable admitted holds room
    rw [encodeOptions, List.length_append, ← Nat.add_assoc] at finishes
    cases path using ReflTransGen.head_induction_on with
    | refl => exact exact
    | head first behind =>
      rw [reader.unique _ _ _ first turn] at behind
      exact inductionHypothesis _ _ ascending.2 representable.tail
        (fun other member => admitted other (List.mem_cons_of_mem _ member)) restHolds restRoom
        finishes behind

end Reader

end Wire
