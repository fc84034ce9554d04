import Mathlib.Data.List.Nodup
import Mathlib.Logic.Function.Basic
import Mathlib.Order.Nat

/-!
# Memory carved from blocks

Pieces of memory are carved from blocks, one after another: the next piece is taken from
the front of what is left of a block (`Carved.take`), or a new block is obtained
(`Carved.grow`, `Carved.separate`).  No two pieces overlap, and every piece is within a
block, in whatever order the pieces are listed (`Carved.perm`).

When the pieces are listed by buckets, one more element in a bucket is one more piece
(`flatMap_update_perm`).
-/

set_option autoImplicit false

namespace Containers

universe u v

/-- Consecutive addresses. -/
structure Region where
  start : ℕ
  size : ℕ
  deriving DecidableEq

namespace Region

/-- No address is in both regions. -/
def Apart (r s : Region) : Prop := r.start + r.size ≤ s.start ∨ s.start + s.size ≤ r.start

def Within (r s : Region) : Prop := s.start ≤ r.start ∧ r.start + r.size ≤ s.start + s.size

instance (r s : Region) : Decidable (r.Apart s) := inferInstanceAs (Decidable (_ ∨ _))

variable {r s t b : Region}

theorem Apart.symm (apart : r.Apart s) : s.Apart r := Or.symm apart

theorem Within.trans (inner : r.Within s) (outer : s.Within t) : r.Within t :=
  ⟨outer.1.trans inner.1, inner.2.trans outer.2⟩

theorem Within.apart (within : r.Within b) (apart : b.Apart s) : r.Apart s := by
  obtain ⟨first, last⟩ := within
  rcases apart with before | after
  · exact .inl (last.trans before)
  · exact .inr (after.trans first)

end Region

/-- The pieces that have been carved from the blocks, and what is left of the last block. -/
structure Carved (blocks : List Region) (rest : Region) (pieces : List Region) : Prop where
  blocksApart : blocks.Pairwise Region.Apart
  piecesApart : pieces.Pairwise Region.Apart
  within : ∀ p ∈ pieces, ∃ b ∈ blocks, p.Within b
  restApart : ∀ p ∈ pieces, p.Apart rest
  restWithin : rest = ⟨0, 0⟩ ∨ ∃ b ∈ blocks, rest.Within b

namespace Carved

variable {blocks : List Region} {rest block : Region} {pieces pieces' : List Region}

/-- Nothing has been carved yet. -/
theorem nil : Carved [] ⟨0, 0⟩ [] where
  blocksApart := List.Pairwise.nil
  piecesApart := List.Pairwise.nil
  within := by simp
  restApart := by simp
  restWithin := .inl rfl

theorem perm (carved : Carved blocks rest pieces) (same : pieces'.Perm pieces) :
    Carved blocks rest pieces' where
  blocksApart := carved.blocksApart
  piecesApart := (same.pairwise_iff fun apart => apart.symm).mpr carved.piecesApart
  within p member := carved.within p (same.subset member)
  restApart p member := carved.restApart p (same.subset member)
  restWithin := carved.restWithin

/-- A new block is apart from all pieces and from the rest. -/
theorem apart_of_fresh (carved : Carved blocks rest pieces)
    (fresh : ∀ b ∈ blocks, b.Apart block) {p : Region} (member : p ∈ pieces) : p.Apart block := by
  obtain ⟨b, inside, within⟩ := carved.within p member
  exact within.apart (fresh b inside)

/-- **A piece is taken from the front of the rest.** -/
theorem take (carved : Carved blocks rest pieces) {size : ℕ} (positive : 0 < size)
    (fits : size ≤ rest.size) :
    Carved blocks ⟨rest.start + size, rest.size - size⟩ (⟨rest.start, size⟩ :: pieces) := by
  have front : Region.Within ⟨rest.start, size⟩ rest :=
    ⟨Nat.le_refl _, Nat.add_le_add_left fits _⟩
  have back : Region.Within ⟨rest.start + size, rest.size - size⟩ rest := by
    refine ⟨Nat.le_add_right _ _, Nat.le_of_eq ?_⟩
    rw [Nat.add_assoc, Nat.add_sub_cancel' fits]
  have nonempty : rest ≠ ⟨0, 0⟩ := by
    rintro rfl
    exact Nat.not_lt_zero 0 (Nat.lt_of_lt_of_le positive fits)
  obtain ⟨b, inside, within⟩ := carved.restWithin.resolve_left nonempty
  refine ⟨carved.blocksApart, ?_, fun p member => ?_, fun p member => ?_,
    .inr ⟨b, inside, back.trans within⟩⟩
  · exact List.pairwise_cons.mpr
      ⟨fun p member => front.apart (carved.restApart p member).symm, carved.piecesApart⟩
  · rcases List.mem_cons.mp member with rfl | earlier
    · exact ⟨b, inside, front.trans within⟩
    · exact carved.within p earlier
  · rcases List.mem_cons.mp member with rfl | earlier
    · exact .inl (Nat.le_refl _)
    · exact (back.apart (carved.restApart p earlier).symm).symm

/-- The next piece is taken from a new block behind its header. -/
theorem enlarge (carved : Carved blocks rest pieces) (fresh : ∀ b ∈ blocks, b.Apart block)
    {header size : ℕ} (fits : header + size ≤ block.size) {new : Region}
    (apart : ∀ p ∈ pieces, p.Apart new) (after : block.start + header + size ≤ new.start ∨
      Region.Apart new block) (within : new = ⟨0, 0⟩ ∨ ∃ b ∈ block :: blocks, new.Within b) :
    Carved (block :: blocks) new
      (⟨block.start + header, size⟩ :: ⟨block.start, header⟩ :: pieces) := by
  have first : Region.Within ⟨block.start, header⟩ block :=
    ⟨Nat.le_refl _, Nat.add_le_add_left ((Nat.le_add_right _ _).trans fits) _⟩
  have second : Region.Within ⟨block.start + header, size⟩ block := by
    refine ⟨Nat.le_add_right _ _, ?_⟩
    rw [Nat.add_assoc]
    exact Nat.add_le_add_left fits _
  have away : ∀ p ∈ pieces, block.Apart p := fun p member =>
    (carved.apart_of_fresh fresh member).symm
  refine ⟨List.pairwise_cons.mpr ⟨fun b inside => (fresh b inside).symm, carved.blocksApart⟩, ?_,
    fun p member => ?_, fun p member => ?_, within⟩
  · refine List.pairwise_cons.mpr ⟨fun p member => ?_, List.pairwise_cons.mpr
      ⟨fun p member => first.apart (away p member), carved.piecesApart⟩⟩
    rcases List.mem_cons.mp member with rfl | earlier
    · exact .inr (Nat.le_refl _)
    · exact second.apart (away p earlier)
  · rcases List.mem_cons.mp member with rfl | member
    · exact ⟨block, List.mem_cons_self, second⟩
    · rcases List.mem_cons.mp member with rfl | earlier
      · exact ⟨block, List.mem_cons_self, first⟩
      · obtain ⟨b, inside, within⟩ := carved.within p earlier
        exact ⟨b, List.mem_cons_of_mem _ inside, within⟩
  · rcases List.mem_cons.mp member with rfl | member
    · exact after.elim .inl fun apart => second.apart apart.symm
    · rcases List.mem_cons.mp member with rfl | earlier
      · refine after.elim (fun behind => .inl ?_) fun apart => first.apart apart.symm
        exact (Nat.le_add_right _ _).trans behind
      · exact apart p earlier

/-- **A new block is obtained, and the pieces to come are taken from it.** -/
theorem grow (carved : Carved blocks rest pieces) (block : Region)
    (fresh : ∀ b ∈ blocks, b.Apart block) {header size left : ℕ}
    (fits : header + size + left ≤ block.size) :
    Carved (block :: blocks) ⟨block.start + header + size, left⟩
      (⟨block.start + header, size⟩ :: ⟨block.start, header⟩ :: pieces) := by
  have inside : Region.Within ⟨block.start + header + size, left⟩ block := by
    refine ⟨(Nat.le_add_right _ _).trans (Nat.le_add_right _ _), ?_⟩
    rw [Nat.add_assoc, Nat.add_assoc, ← Nat.add_assoc header]
    exact Nat.add_le_add_left fits _
  exact carved.enlarge fresh ((Nat.le_add_right _ _).trans fits)
    (fun p member => (inside.apart (carved.apart_of_fresh fresh member).symm).symm)
    (.inl (Nat.le_refl _)) (.inr ⟨block, List.mem_cons_self, inside⟩)

/-- **A new block is obtained for one piece.** -/
theorem separate (carved : Carved blocks rest pieces) (block : Region)
    (fresh : ∀ b ∈ blocks, b.Apart block) {header size : ℕ} (fits : header + size ≤ block.size) :
    Carved (block :: blocks) rest
      (⟨block.start + header, size⟩ :: ⟨block.start, header⟩ :: pieces) := by
  rcases carved.restWithin with rfl | ⟨b, inside, within⟩
  · exact carved.enlarge fresh fits carved.restApart (.inr (.inl (Nat.zero_le _))) (.inl rfl)
  · exact carved.enlarge fresh fits carved.restApart (.inr (within.apart (fresh b inside)))
      (.inr ⟨b, List.mem_cons_of_mem _ inside, within⟩)

end Carved

/-! ## Buckets -/

variable {I : Type u} {α : Type v} [DecidableEq I]

/-- One more element in a bucket -/
theorem flatMap_update_perm {buckets : List I} (distinct : buckets.Nodup) {i : I}
    (member : i ∈ buckets) (f : I → List α) (a : α) :
    (buckets.flatMap (Function.update f i (f i ++ [a]))).Perm (a :: buckets.flatMap f) := by
  induction buckets with
  | nil => cases member
  | cons j buckets ih =>
      obtain ⟨notMember, distinct⟩ := List.nodup_cons.mp distinct
      rw [List.flatMap_cons, List.flatMap_cons]
      rcases List.mem_cons.mp member with rfl | later
      · have others : buckets.flatMap (Function.update f i (f i ++ [a])) = buckets.flatMap f := by
          refine List.flatMap_congr fun k other => Function.update_of_ne ?_ ..
          rintro rfl
          exact notMember other
        rw [Function.update_self, others, List.append_assoc, List.singleton_append]
        exact List.perm_middle
      · have different : j ≠ i := by
          rintro rfl
          exact notMember later
        rw [Function.update_of_ne different]
        exact ((ih distinct later).append_left (f j)).trans List.perm_middle

end Containers
