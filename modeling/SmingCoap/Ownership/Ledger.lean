import Mathlib.Data.List.Basic
import Mathlib.Data.List.Nodup
import Mathlib.Data.List.Pairwise
import Mathlib.Logic.Function.Basic

/-! # Blocks and their owners

A ledger knows the blocks that were allocated and not released, and a record for
each owner, which points to the blocks that the owner holds.  A ledger is
`Owned` by a list of owners when the live blocks are those of the owners, each
held once, and some loose ones, which only local variables point to.  The rules
say how each operation moves a block between the two.
-/

namespace Ownership

universe u v

structure Ledger (Owner : Type u) (Record : Type v) where
  next : Nat
  live : List Nat
  record : Owner → Record
  /-- How many blocks were released that were not live. -/
  faults : Nat

namespace Ledger

variable {Owner : Type u} {Record : Type v}

/-- A new block. -/
def get (ledger : Ledger Owner Record) : Nat × Ledger Owner Record :=
  (ledger.next, { ledger with next := ledger.next + 1, live := ledger.next :: ledger.live })

def release (ledger : Ledger Owner Record) (block : Nat) : Ledger Owner Record :=
  if block ∈ ledger.live then { ledger with live := ledger.live.erase block }
  else { ledger with faults := ledger.faults + 1 }

def releaseAll (ledger : Ledger Owner Record) (list : List Nat) : Ledger Owner Record :=
  list.foldl release ledger

/-- The record of an owner is written. -/
def assign [DecidableEq Owner] (ledger : Ledger Owner Record) (owner : Owner) (record : Record) :
    Ledger Owner Record :=
  { ledger with record := Function.update ledger.record owner record }

/-- The live blocks are loose or held by an owner, each once. -/
structure Owned (blocks : Record → List Nat) (ledger : Ledger Owner Record) (owners : List Owner)
    (loose : List Nat) : Prop where
  live : ledger.live.Perm (loose ++ owners.flatMap fun owner => blocks (ledger.record owner))
  nodup : ledger.live.Nodup
  owners : owners.Nodup
  fresh : ∀ block ∈ ledger.live, block < ledger.next
  faultless : ledger.faults = 0

section
variable {blocks : Record → List Nat} {ledger : Ledger Owner Record} {owners others : List Owner}
  {loose spare : List Nat} {owner : Owner} {record : Record} {block : Nat}

theorem record_release (ledger : Ledger Owner Record) (block : Nat) : (ledger.release block).record = ledger.record := by
  unfold release
  split
  next => rfl
  next => rfl

@[simp]
theorem record_releaseAll (list : List Nat) (ledger : Ledger Owner Record) :
    (ledger.releaseAll list).record = ledger.record := by
  induction list generalizing ledger with
  | nil => rfl
  | cons block rest inductionHypothesis => exact (inductionHypothesis _).trans (record_release ledger block)

@[simp]
theorem record_get (ledger : Ledger Owner Record) : ledger.get.2.record = ledger.record := rfl

/-- A release does not read the records. -/
theorem release_assign [DecidableEq Owner] (ledger : Ledger Owner Record) (block : Nat) (owner : Owner)
    (record : Record) : (ledger.release block).assign owner record = (ledger.assign owner record).release block := by
  by_cases member : block ∈ ledger.live
  · have too : block ∈ (ledger.assign owner record).live := member
    rw [release, if_pos member, release, if_pos too]
    rfl
  · have too : block ∉ (ledger.assign owner record).live := member
    rw [release, if_neg member, release, if_neg too]
    rfl

/-- The order of the loose blocks and of the owners does not matter. -/
theorem Owned.perm (owned : Owned blocks ledger owners loose) (sameOwners : owners.Perm others)
    (sameLoose : loose.Perm spare) : Owned blocks ledger others spare where
  live := owned.live.trans (sameLoose.append (sameOwners.flatMap_right _))
  nodup := owned.nodup
  owners := sameOwners.nodup owned.owners
  fresh := owned.fresh
  faultless := owned.faultless

/-- Without loose blocks every live block has exactly one owner. -/
theorem Owned.belongs (owned : Owned blocks ledger owners []) (live : block ∈ ledger.live) :
    ∃! owner, owner ∈ owners ∧ block ∈ blocks (ledger.record owner) := by
  obtain ⟨owner, member, held⟩ := List.mem_flatMap.mp (owned.live.subset live)
  refine ⟨owner, ⟨member, held⟩, ?_⟩
  rintro other ⟨listed, too⟩
  by_contra differs
  have distinct := (List.nodup_flatMap.mp (owned.live.nodup owned.nodup)).2
  have symmetric : Std.Symm (Function.onFun List.Disjoint fun owner => blocks (ledger.record owner)) :=
    ⟨fun _ _ apart _ here there => apart there here⟩
  exact distinct.forall listed member differs too held

theorem Owned.held (owned : Owned blocks ledger owners loose) (member : owner ∈ owners) :
    (∀ block ∈ blocks (ledger.record owner), block ∈ ledger.live) ∧ (blocks (ledger.record owner)).Nodup := by
  constructor
  · intro block held
    exact owned.live.symm.subset (List.mem_append_right _ (List.mem_flatMap.mpr ⟨owner, member, held⟩))
  · have among := (List.nodup_append.mp (owned.live.nodup owned.nodup)).2.1
    exact (List.nodup_flatMap.mp among).1 owner member

/-- A new block is loose. -/
theorem Owned.get (owned : Owned blocks ledger owners loose) :
    Owned blocks ledger.get.2 owners (ledger.get.1 :: loose) where
  live := owned.live.cons _
  nodup := List.nodup_cons.mpr ⟨fun member => Nat.lt_irrefl _ (owned.fresh _ member), owned.nodup⟩
  owners := owned.owners
  fresh := by
    intro block member
    cases List.mem_cons.mp member with
    | inl new =>
      rw [new]
      exact Nat.lt_succ_self _
    | inr earlier => exact Nat.lt_succ_of_lt (owned.fresh block earlier)
  faultless := owned.faultless

/-- A loose block is released. -/
theorem Owned.release (owned : Owned blocks ledger owners (block :: loose)) :
    Owned blocks (ledger.release block) owners loose := by
  have member : block ∈ ledger.live := owned.live.symm.subset List.mem_cons_self
  rw [Ledger.release, if_pos member]
  constructor
  · have erased := owned.live.erase block
    rwa [List.cons_append, List.erase_cons_head] at erased
  · exact owned.nodup.erase block
  · exact owned.owners
  · exact fun other among => owned.fresh other (List.mem_of_mem_erase among)
  · exact owned.faultless

theorem Owned.releaseAll (list : List Nat) {ledger : Ledger Owner Record}
    (owned : Owned blocks ledger owners (list ++ loose)) : Owned blocks (ledger.releaseAll list) owners loose := by
  induction list generalizing ledger with
  | nil => exact owned
  | cons block rest inductionHypothesis => exact inductionHypothesis owned.release

/-- An owner goes, and leaves its blocks behind. -/
theorem Owned.leave [DecidableEq Owner] (owned : Owned blocks ledger owners loose) (member : owner ∈ owners) :
    Owned blocks ledger (owners.erase owner) (blocks (ledger.record owner) ++ loose) where
  live := by
    have among : (owners.flatMap fun owner => blocks (ledger.record owner)).Perm
        (blocks (ledger.record owner) ++ (owners.erase owner).flatMap fun owner => blocks (ledger.record owner)) :=
      (List.perm_cons_erase member).flatMap_right _
    calc ledger.live.Perm (loose ++ owners.flatMap fun owner => blocks (ledger.record owner)) := owned.live
      _ |>.Perm (loose ++ (blocks (ledger.record owner) ++ _)) := among.append_left loose
      _ |>.Perm _ := by
        rw [← List.append_assoc]
        exact List.perm_append_comm.append_right _
  nodup := owned.nodup
  owners := owned.owners.erase owner
  fresh := owned.fresh
  faultless := owned.faultless

section
variable [DecidableEq Owner]

/-- A new owner takes loose blocks. -/
theorem Owned.join (owned : Owned blocks ledger owners (blocks record ++ loose)) (new : owner ∉ owners) :
    Owned blocks (ledger.assign owner record) (owners ++ [owner]) loose where
  live := by
    have others : (owners.flatMap fun other => blocks (Function.update ledger.record owner record other)) =
        owners.flatMap fun other => blocks (ledger.record other) := by
      apply List.flatMap_congr
      intro other member
      have differs : other ≠ owner := by
        rintro rfl
        exact new member
      rw [Function.update_of_ne differs]
    have own : ([owner].flatMap fun other => blocks (Function.update ledger.record owner record other)) =
        blocks record := by
      simp
    simp only [assign]
    rw [List.flatMap_append, others, own, ← List.append_assoc]
    calc ledger.live.Perm (blocks record ++ loose ++ owners.flatMap fun other => blocks (ledger.record other)) :=
        owned.live
      _ |>.Perm _ := by
        rw [List.append_assoc]
        exact List.perm_append_comm
  nodup := owned.nodup
  owners := by
    apply List.nodup_append.mpr
    refine ⟨owned.owners, List.nodup_singleton owner, ?_⟩
    intro other member last among
    rw [List.mem_singleton.mp among]
    exact fun same => new (same ▸ member)
  fresh := owned.fresh
  faultless := owned.faultless

/-- An owner takes loose blocks, or leaves some. -/
theorem Owned.assign (owned : Owned blocks ledger owners loose) (member : owner ∈ owners)
    (exchange : (blocks (ledger.record owner) ++ loose).Perm (blocks record ++ spare)) :
    Owned blocks (ledger.assign owner record) owners spare := by
  have left := (owned.leave member).perm (.refl _) exchange
  have joined := left.join fun among => (owned.owners.mem_erase_iff.mp among).1 rfl
  apply joined.perm _ (.refl _)
  exact List.perm_append_comm.trans (List.perm_cons_erase member).symm

end

end

end Ledger

end Ownership
