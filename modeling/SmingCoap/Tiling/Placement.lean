import Mathlib

/-! # Pieces one behind the other

Pieces of some sizes fill a range of addresses without gaps.  `place` says where
each of them begins.  A piece is placed where the ones in front of it end
(`mem_place_iff`), so two of them do not overlap (`place_apart`), and of pieces
that are not empty no two begin at one address (`place_inj`).
-/

namespace Tiling

universe u

variable {α : Type u} (size : α → Nat)

/-- How far some pieces reach. -/
def total (pieces : List α) : Nat := (pieces.map size).sum

/-- Where each piece begins, if the first one begins at `base`. -/
def place : Nat → List α → List (Nat × α)
  | _, [] => []
  | base, piece :: rest => (base, piece) :: place (base + size piece) rest

@[simp] theorem total_nil : total size [] = 0 := rfl

@[simp] theorem total_cons (piece : α) (rest : List α) : total size (piece :: rest) = size piece + total size rest :=
  List.sum_cons

@[simp] theorem total_append (front back : List α) :
    total size (front ++ back) = total size front + total size back := by
  rw [total, List.map_append, List.sum_append]
  rfl

theorem place_append (base : Nat) (front back : List α) :
    place size base (front ++ back) = place size base front ++ place size (base + total size front) back := by
  induction front generalizing base with
  | nil => rfl
  | cons piece rest inductionHypothesis =>
    rw [List.cons_append, place, inductionHypothesis, place, total_cons, Nat.add_assoc, List.cons_append]

/-- The pieces in order. -/
theorem map_snd_place (base : Nat) (pieces : List α) : (place size base pieces).map Prod.snd = pieces := by
  induction pieces generalizing base with
  | nil => rfl
  | cons piece rest inductionHypothesis => rw [place, List.map_cons, inductionHypothesis]

section
variable {size} {base address other : Nat} {pieces : List α} {piece second : α}

theorem mem_place_iff : (address, piece) ∈ place size base pieces ↔
    ∃ front back, pieces = front ++ piece :: back ∧ address = base + total size front := by
  constructor
  · intro member
    induction pieces generalizing base with
    | nil => cases member
    | cons first rest inductionHypothesis =>
      cases member with
      | head => exact ⟨[], rest, rfl, rfl⟩
      | tail _ later =>
        obtain ⟨front, back, rfl, rfl⟩ := inductionHypothesis later
        exact ⟨first :: front, back, rfl, by rw [total_cons, Nat.add_assoc]⟩
  · rintro ⟨front, back, rfl, rfl⟩
    rw [place_append]
    exact List.mem_append_right _ List.mem_cons_self

theorem place_mem (member : (address, piece) ∈ place size base pieces) : piece ∈ pieces := by
  obtain ⟨front, back, rfl, -⟩ := mem_place_iff.mp member
  exact List.mem_append_right _ List.mem_cons_self

/-- A piece lies in the range. -/
theorem place_within (member : (address, piece) ∈ place size base pieces) :
    base ≤ address ∧ address + size piece ≤ base + total size pieces := by
  obtain ⟨front, back, rfl, rfl⟩ := mem_place_iff.mp member
  rw [total_append, total_cons]
  omega

/-- Each piece ends where a later one begins, or in front of it. -/
theorem place_pairwise (base : Nat) (pieces : List α) :
    (place size base pieces).Pairwise fun first second => first.1 + size first.2 ≤ second.1 := by
  induction pieces generalizing base with
  | nil => exact .nil
  | cons piece rest inductionHypothesis =>
    refine List.pairwise_cons.mpr ⟨?_, inductionHypothesis (base + size piece)⟩
    rintro ⟨address, later⟩ member
    exact (place_within member).1

/-- Two pieces do not overlap. -/
theorem place_apart (first : (address, piece) ∈ place size base pieces)
    (another : (other, second) ∈ place size base pieces) :
    (address = other ∧ piece = second) ∨ address + size piece ≤ other ∨ other + size second ≤ address := by
  have symmetric : Std.Symm fun first second : Nat × α => first ≠ second →
      first.1 + size first.2 ≤ second.1 ∨ second.1 + size second.2 ≤ first.1 :=
    ⟨fun _ _ apart differ => (apart differ.symm).symm⟩
  have ordered : (place size base pieces).Pairwise fun first second => first ≠ second →
      first.1 + size first.2 ≤ second.1 ∨ second.1 + size second.2 ≤ first.1 :=
    (place_pairwise base pieces).imp fun before _ => Or.inl before
  by_cases same : (address, piece) = (other, second)
  · exact .inl (Prod.mk.inj same)
  · exact .inr (ordered.forall first another same same)

/-- At most one piece begins at an address. -/
theorem place_inj (positive : ∀ piece ∈ pieces, 0 < size piece) (first : (address, piece) ∈ place size base pieces)
    (another : (address, second) ∈ place size base pieces) : piece = second := by
  have filled := positive piece (place_mem first)
  have too := positive second (place_mem another)
  rcases place_apart first another with ⟨_, same⟩ | before | behind
  · exact same
  · omega
  · omega

/-- Pieces that are not empty begin at different addresses. -/
theorem nodup_place (positive : ∀ piece ∈ pieces, 0 < size piece) :
    ((place size base pieces).map Prod.fst).Nodup := by
  rw [List.Nodup, List.pairwise_map]
  refine (place_pairwise base pieces).imp_of_mem ?_
  rintro ⟨address, piece⟩ ⟨other, second⟩ member _ before
  have filled := positive piece (place_mem member)
  simp only at before ⊢
  omega

end

end Tiling
