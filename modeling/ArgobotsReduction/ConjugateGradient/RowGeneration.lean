import Mathlib.Algebra.Order.Floor.Semiring
import ArgobotsReduction.Containers.SortedSums
import ArgobotsReduction.ConjugateGradient.Sparse

/-!
# `sprnvc` and `vecset`

`makea` draws a sparse vector for every row of the generated lists.  `sprnvc` draws positions
until it has enough different ones, and `vecset` sets one of them.  Positions are counted from
1, and stored counted from 0.

Whatever `randlc` returns, the columns of a row are distinct and below `n`, the row has its own
column, and it fits in the arrays (`generateRow_spec`).  `sprnvc` does not return when the
numbers never give enough positions; then there is no row.
-/

set_option autoImplicit false

namespace ArgobotsReduction.ConjugateGradient.Sparse

open Containers

variable {R : Type}

/-- Different positions from 1 to `n`. -/
structure Positions (n : ℕ) (vec : List (ℕ × R)) : Prop where
  distinct : (keys vec).Nodup
  within : ∀ k ∈ keys vec, 1 ≤ k ∧ k ≤ n

/-- A new position at the end. -/
theorem Positions.append {n i : ℕ} {vec : List (ℕ × R)} (positions : Positions n vec)
    (lower : 1 ≤ i) (upper : i ≤ n) (new : i ∉ keys vec) (val : R) :
    Positions n (vec ++ [(i, val)]) := by
  refine ⟨?_, fun k member => ?_⟩
  · rw [keys_append, List.nodup_append]
    refine ⟨positions.distinct, List.nodup_singleton _, fun k first l last same => ?_⟩
    obtain rfl := List.mem_singleton.mp last
    exact new (same ▸ first)
  · rw [keys_append, List.mem_append] at member
    rcases member with old | added
    · exact positions.within k old
    · obtain rfl := List.mem_singleton.mp added
      exact ⟨lower, upper⟩

/-! ## One position set -/

/-- `vecset`: the value at position `i` is set, at the end if there is none. -/
def vecset (vec : List (ℕ × R)) (i : ℕ) (val : R) : List (ℕ × R) :=
  let stored := vec.map fun item => (item.1, if item.1 = i then val else item.2)
  if i ∈ keys vec then stored else stored ++ [(i, val)]

theorem keys_stored (vec : List (ℕ × R)) (i : ℕ) (val : R) :
    keys (vec.map fun item => (item.1, if item.1 = i then val else item.2)) = keys vec := by
  simp [keys, Function.comp_def]

theorem vecset_spec {n i : ℕ} {vec : List (ℕ × R)} (positions : Positions n vec) (lower : 1 ≤ i)
    (upper : i ≤ n) (val : R) :
    Positions n (vecset vec i val) ∧ i ∈ keys (vecset vec i val) ∧
      (vecset vec i val).length ≤ vec.length + 1 := by
  have same := keys_stored vec i val
  have stored : Positions n (vec.map fun item => (item.1, if item.1 = i then val else item.2)) :=
    ⟨same ▸ positions.distinct, same ▸ positions.within⟩
  rw [vecset]
  split_ifs with present
  · refine ⟨stored, same ▸ present, ?_⟩
    rw [List.length_map]
    omega
  · refine ⟨stored.append lower upper (same ▸ present) val, ?_, ?_⟩
    · rw [keys_append]
      exact List.mem_append_right _ List.mem_cons_self
    · rw [List.length_append, List.length_map, List.length_singleton]

/-! ## Positions drawn -/

section Draws

variable [Semiring R] [LinearOrder R] [FloorSemiring R]

/-- `icnvrt`: `ipwr2 * x`, chopped. -/
def icnvrt (x : R) (ipwr2 : ℕ) : ℕ := ⌊ipwr2 * x⌋₊

/-- `sprnvc`: the positions from 1 to `n` it draws, and their values.  Each turn of its loop
takes two numbers of `randlc`. -/
def sprnvc (n nz nn1 : ℕ) : List (R × R) → List (ℕ × R) → Option (List (ℕ × R) × List (R × R))
  | [], vec => if vec.length < nz then none else some (vec, [])
  | (vecelt, vecloc) :: draws, vec =>
      if vec.length < nz then
        let i := icnvrt vecloc nn1 + 1
        if i > n then sprnvc n nz nn1 draws vec
        else if i ∈ keys vec then sprnvc n nz nn1 draws vec
        else sprnvc n nz nn1 draws (vec ++ [(i, vecelt)])
      else some (vec, (vecelt, vecloc) :: draws)

/-- Row `iouter` of the generated lists, and the numbers that are left for the next. -/
def generateRow (n nonzer nn1 : ℕ) (half : R) (iouter : ℕ) (draws : List (R × R)) :
    Option (List (ℕ × R) × List (R × R)) :=
  (sprnvc n nonzer nn1 draws []).map fun drawn =>
    ((vecset drawn.1 (iouter + 1) half).map fun item => (item.1 - 1, item.2), drawn.2)

/-- The first rows of the generated lists, one after the other. -/
def generateRows (n nonzer nn1 : ℕ) (half : R) (draws : List (R × R)) :
    ℕ → Option (List (List (ℕ × R)) × List (R × R))
  | 0 => some ([], draws)
  | iouter + 1 => (generateRows n nonzer nn1 half draws iouter).bind fun sofar =>
      (generateRow n nonzer nn1 half iouter sofar.2).map fun next =>
        (sofar.1 ++ [next.1], next.2)

theorem sprnvc_spec {n nz nn1 : ℕ} {draws rest : List (R × R)} {vec drawn : List (ℕ × R)}
    (positions : Positions n vec) (short : vec.length ≤ nz)
    (returned : sprnvc n nz nn1 draws vec = some (drawn, rest)) :
    Positions n drawn ∧ drawn.length = nz := by
  induction draws generalizing vec with
  | nil =>
      rw [sprnvc] at returned
      split_ifs at returned with more
      obtain ⟨rfl, rfl⟩ := Prod.mk.inj (Option.some.inj returned)
      exact ⟨positions, by omega⟩
  | cons draw draws ih =>
      rw [sprnvc] at returned
      dsimp only at returned
      split_ifs at returned with more outside again
      · exact ih positions short returned
      · exact ih positions short returned
      · refine ih (positions.append (by omega) (by omega) again _) ?_ returned
        rw [List.length_append, List.length_singleton]
        omega
      · obtain ⟨rfl, rfl⟩ := Prod.mk.inj (Option.some.inj returned)
        exact ⟨positions, by omega⟩

/-- **A generated row** has distinct columns below `n`, its own among them, and fits in the
arrays. -/
theorem generateRow_spec {n nonzer nn1 iouter : ℕ} {half : R} {draws rest : List (R × R)}
    {row : List (ℕ × R)} (below : iouter < n)
    (returned : generateRow n nonzer nn1 half iouter draws = some (row, rest)) :
    (keys row).Nodup ∧ iouter ∈ keys row ∧ (∀ k ∈ keys row, k < n) ∧
      row.length ≤ nonzer + 1 := by
  obtain ⟨⟨vec, left⟩, drawn, same⟩ := Option.map_eq_some_iff.mp returned
  obtain ⟨rfl, rfl⟩ := Prod.mk.inj same
  have none : Positions n ([] : List (ℕ × R)) := ⟨List.nodup_nil, fun _ member => nomatch member⟩
  obtain ⟨positions, length⟩ := sprnvc_spec none (Nat.zero_le _) drawn
  obtain ⟨set, present, fits⟩ := vecset_spec positions (Nat.le_add_left 1 iouter) below half
  have shifted : keys ((vecset vec (iouter + 1) half).map fun item => (item.1 - 1, item.2)) =
      (keys (vecset vec (iouter + 1) half)).map (· - 1) := by
    simp [keys, Function.comp_def]
  rw [shifted, List.length_map]
  refine ⟨?_, List.mem_map.mpr ⟨iouter + 1, present, rfl⟩, fun k member => ?_, ?_⟩
  · refine set.distinct.map_on fun k first l second same => ?_
    have lower := (set.within k first).1
    have lower' := (set.within l second).1
    omega
  · obtain ⟨l, inside, rfl⟩ := List.mem_map.mp member
    have bounds := set.within l inside
    omega
  · exact length ▸ fits

/-- Every row that `makea` generates is the row of some draws. -/
theorem generateRows_spec {n nonzer nn1 count : ℕ} {half : R} {draws rest : List (R × R)}
    {rows : List (List (ℕ × R))}
    (returned : generateRows n nonzer nn1 half draws count = some (rows, rest)) :
    rows.length = count ∧ ∀ i row, rows[i]? = some row →
      ∃ before after, generateRow n nonzer nn1 half i before = some (row, after) := by
  induction count generalizing rows rest with
  | zero =>
      obtain ⟨rfl, rfl⟩ := Prod.mk.inj (Option.some.inj returned)
      exact ⟨rfl, nofun⟩
  | succ count ih =>
      obtain ⟨⟨sofar, left⟩, earlier, last⟩ := Option.bind_eq_some_iff.mp returned
      obtain ⟨⟨next, after⟩, generated, same⟩ := Option.map_eq_some_iff.mp last
      obtain ⟨rfl, rfl⟩ := Prod.mk.inj same
      obtain ⟨length, rows⟩ := ih earlier
      refine ⟨by simp [length], fun i row there => ?_⟩
      rcases Nat.lt_or_ge i sofar.length with old | new
      · rw [List.getElem?_append_left old] at there
        exact rows i row there
      · rw [List.getElem?_append_right new] at there
        have within := (List.getElem?_eq_some_iff.mp there).1
        rw [List.length_singleton] at within
        obtain rfl := List.mem_singleton.mp (List.mem_of_getElem? there)
        obtain rfl : i = count := by omega
        exact ⟨left, after, generated⟩

/-- **What `makea` generates is what `sparse` asks for.** -/
theorem Problem.rows_of_generated (p : Problem R) {nn1 : ℕ} {half : R} {draws rest : List (R × R)}
    {rows : List (List (ℕ × R))}
    (returned : generateRows p.n p.nonzer nn1 half draws p.n = some (rows, rest))
    (stored : ∀ i < p.n, rows[i]? = some (p.row i)) :
    (∀ i < p.n, (keys (p.row i)).Nodup) ∧ ∀ i < p.n, i ∈ keys (p.row i) := by
  have each : ∀ i < p.n, (keys (p.row i)).Nodup ∧ i ∈ keys (p.row i) := by
    intro i within
    obtain ⟨before, after, generated⟩ := (generateRows_spec returned).2 i _ (stored i within)
    obtain ⟨distinct, own, -, -⟩ := generateRow_spec within generated
    exact ⟨distinct, own⟩
  exact ⟨fun i within => (each i within).1, fun i within => (each i within).2⟩

end Draws

end ArgobotsReduction.ConjugateGradient.Sparse
