import Mathlib.Data.List.Induction
import Mathlib.Data.List.Sort

/-! # Stable sorting by insertion from the front

A container that keeps its entries in the order of a key and puts a new entry
behind those of the same key sorts stably: after any sequence of insertions it
holds `List.insertionSort` of what was inserted (`foldl_insertBehind`).  An entry
can be told from the result (`insertBehind_inj`), so a container that alters
entries on the way in never ends up with the sorted list.
-/

namespace Wire

variable {α : Type} (key : α → Nat)

/-- Puts `entry` behind the entries of a smaller or equal key. -/
def insertBehind (entry : α) : List α → List α
  | [] => [entry]
  | head :: rest =>
    if key entry < key head then entry :: head :: rest else head :: insertBehind entry rest

theorem insertBehind_eq (entry : α) (entries : List α) :
    insertBehind key entry entries =
      entries.takeWhile (fun other => key other ≤ key entry) ++
        entry :: entries.dropWhile (fun other => key other ≤ key entry) := by
  induction entries with
  | nil => rfl
  | cons head rest inductionHypothesis =>
    rw [insertBehind]
    by_cases before : key entry < key head
    · have stop : ¬ key head ≤ key entry := by omega
      simp [before, stop]
    · have go : key head ≤ key entry := by omega
      simp [before, go, inductionHypothesis]

/-- In an ordered list the entries up to a key stand in front, and those above it behind. -/
theorem split_ordered {entries : List α} (ordered : entries.Pairwise (fun a b => key a ≤ key b)) (bound : Nat) :
    entries.takeWhile (fun entry => key entry ≤ bound) = entries.filter (fun entry => key entry ≤ bound) ∧
      entries.dropWhile (fun entry => key entry ≤ bound) = entries.filter (fun entry => bound < key entry) := by
  induction ordered with
  | nil => exact ⟨rfl, rfl⟩
  | cons first ordered inductionHypothesis =>
    rename_i head rest
    by_cases low : key head ≤ bound
    · simp [low, Nat.not_lt.mpr low, inductionHypothesis]
    · have above : ∀ entry ∈ rest, bound < key entry := fun entry member =>
        Nat.lt_of_lt_of_le (Nat.lt_of_not_le low) (first entry member)
      have none : rest.filter (fun entry => key entry ≤ bound) = [] := by
        rw [List.filter_eq_nil_iff]
        intro entry member
        simpa using above entry member
      have all : rest.filter (fun entry => bound < key entry) = rest := by
        rw [List.filter_eq_self]
        intro entry member
        simpa using above entry member
      simp [low, Nat.lt_of_not_le low, none, all]

theorem length_insertBehind (entry : α) (entries : List α) :
    (insertBehind key entry entries).length = entries.length + 1 := by
  induction entries with
  | nil => rfl
  | cons head rest inductionHypothesis =>
    rw [insertBehind]
    split
    · rfl
    · rw [List.length_cons, inductionHypothesis, List.length_cons]

theorem mem_insertBehind {entry other : α} {entries : List α} :
    other ∈ insertBehind key entry entries ↔ other = entry ∨ other ∈ entries := by
  induction entries with
  | nil => simp [insertBehind]
  | cons head rest inductionHypothesis =>
    rw [insertBehind]
    split
    · rw [List.mem_cons]
    · rw [List.mem_cons, inductionHypothesis, List.mem_cons, or_left_comm]

/-- Inserting from either end of the sequence gives the same list. -/
theorem insertBehind_orderedInsert (first last : α) (entries : List α) :
    insertBehind key last (entries.orderedInsert (fun a b => key a ≤ key b) first) =
      (insertBehind key last entries).orderedInsert (fun a b => key a ≤ key b) first := by
  induction entries with
  | nil =>
    by_cases order : key first ≤ key last
    · simp [insertBehind, order, Nat.not_lt.mpr order]
    · simp [insertBehind, order, Nat.lt_of_not_le order]
  | cons head rest inductionHypothesis =>
    by_cases firstOrder : key first ≤ key head <;> by_cases lastOrder : key last < key head
    · by_cases order : key last < key first
      · simp [insertBehind, firstOrder, lastOrder, order, Nat.not_le.mpr order]
      · simp [insertBehind, firstOrder, lastOrder, order, Nat.le_of_not_lt order]
    · have order : ¬ key last < key first := by omega
      simp [insertBehind, firstOrder, lastOrder, order]
    · have order : ¬ key first ≤ key last := by omega
      simp [insertBehind, firstOrder, lastOrder, order]
    · simp [insertBehind, firstOrder, lastOrder, inductionHypothesis]

/-- Inserting the entries one after the other sorts them stably. -/
theorem foldl_insertBehind (entries : List α) :
    entries.foldl (fun sorted entry => insertBehind key entry sorted) [] =
      entries.insertionSort (fun a b => key a ≤ key b) := by
  have step : ∀ (entries : List α) (last : α),
      (entries ++ [last]).insertionSort (fun a b => key a ≤ key b) =
        insertBehind key last (entries.insertionSort (fun a b => key a ≤ key b)) := by
    intro entries last
    induction entries with
    | nil => rfl
    | cons head rest inductionHypothesis =>
      rw [List.cons_append, List.insertionSort_cons, inductionHypothesis, List.insertionSort_cons,
        insertBehind_orderedInsert]
  induction entries using List.reverseRecOn with
  | nil => rfl
  | append_singleton entries last inductionHypothesis =>
    rw [List.foldl_append, inductionHypothesis, step]
    rfl

/-- Entries that are inserted in order stay as they are. -/
theorem foldl_insertBehind_sorted {entries : List α} (sorted : entries.Pairwise (fun a b => key a ≤ key b)) :
    entries.foldl (fun sorted entry => insertBehind key entry sorted) [] = entries := by
  rw [foldl_insertBehind, sorted.insertionSort_eq]

/-- Sorting keeps a part of the entries as it is when that part is in order. -/
theorem filter_insertionSort (part : α → Bool) {entries : List α}
    (sorted : (entries.filter part).Pairwise (fun a b => key a ≤ key b)) :
    (entries.insertionSort (fun a b => key a ≤ key b)).filter part = entries.filter part := by
  have sublist := (List.sublist_insertionSort sorted List.filter_sublist).filter part
  have length := ((List.perm_insertionSort (fun a b => key a ≤ key b) entries).filter part).length_eq
  rw [List.filter_filter] at sublist
  simp only [Bool.and_self] at sublist
  exact (sublist.eq_of_length length.symm).symm

/-- The keys of the result depend on the keys alone. -/
theorem map_insertBehind {left right : α} {entries others : List α} (same : key left = key right)
    (keys : entries.map key = others.map key) :
    (insertBehind key left entries).map key = (insertBehind key right others).map key := by
  induction entries generalizing others with
  | nil =>
    cases others with
    | nil => simp [insertBehind, same]
    | cons head rest => simp at keys
  | cons head rest inductionHypothesis =>
    cases others with
    | nil => simp at keys
    | cons other others =>
      rw [List.map_cons, List.map_cons, List.cons.injEq] at keys
      rw [insertBehind, insertBehind, same, keys.1]
      split
      · simp [same, keys]
      · simp [keys.1, inductionHypothesis keys.2]

/-- With the keys known the entry and the list before can be read off the result. -/
theorem insertBehind_inj {left right : α} {entries others : List α} (same : key left = key right)
    (keys : entries.map key = others.map key) :
    insertBehind key left entries = insertBehind key right others ↔
      left = right ∧ entries = others := by
  constructor
  · intro equal
    induction entries generalizing others with
    | nil =>
      cases others with
      | nil => simpa [insertBehind] using equal
      | cons head rest => simp at keys
    | cons head rest inductionHypothesis =>
      cases others with
      | nil => simp at keys
      | cons other others =>
        rw [List.map_cons, List.map_cons, List.cons.injEq] at keys
        rw [insertBehind, insertBehind, same, keys.1] at equal
        split at equal
        · simpa [and_assoc] using equal
        · rw [List.cons.injEq] at equal
          obtain ⟨entryEq, restEq⟩ := inductionHypothesis keys.2 equal.2
          exact ⟨entryEq, by rw [equal.1, restEq]⟩
  · rintro ⟨rfl, rfl⟩
    rfl

end Wire
