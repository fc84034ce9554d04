import Mathlib.RingTheory.ZMod.UnitsCyclic
import ArgobotsReduction.ConjugateGradient.Generator

/-!
# The period of the generator

The comment on `randlc` promises `2 ^ 44` numbers before they repeat.  `amult` is the thirteenth
power of 5, and 5 has order `2 ^ 44` among the odd numbers modulo `2 ^ 46`; 13 is odd, so `amult`
has that order as well.  From an odd seed the first `2 ^ 44` numbers are therefore different, and
after them the seed is what it was (`randlc_period`).

Only every other number decides on a position.  The seeds of these are a quarter as many as there
are odd seeds, but `amult` squared is 1 modulo 8, and so they are all the seeds with the remainder
of the first one modulo 8 (`exists_seed`).
-/

set_option autoImplicit false

namespace ArgobotsReduction.ConjugateGradient.Generator

open Numerics

variable {p : ℕ} {fl : Rounding p} {x : ℕ}

theorem orderOf_amult : orderOf ((amult : ℕ) : ZMod (2 ^ 46)) = 2 ^ 44 := by
  have five : orderOf (5 : ZMod (2 ^ 46)) = 2 ^ 44 := ZMod.orderOf_five 44
  have power : amult = 5 ^ 13 := by decide
  have coprime : (orderOf (5 : ZMod (2 ^ 46))).Coprime 13 := by
    rw [five]
    exact Nat.Coprime.pow_left 44 (by decide)
  rw [power, Nat.cast_pow, Nat.cast_ofNat, coprime.orderOf_pow, five]

theorem amult_pow_modEq_iff (m n : ℕ) :
    amult ^ m ≡ amult ^ n [MOD 2 ^ 46] ↔ m ≡ n [MOD 2 ^ 44] := by
  have finite : IsOfFinOrder ((amult : ℕ) : ZMod (2 ^ 46)) := by
    rw [← orderOf_pos_iff, orderOf_amult]
    exact Nat.two_pow_pos 44
  rw [← ZMod.natCast_eq_natCast_iff, Nat.cast_pow, Nat.cast_pow, finite.pow_eq_pow_iff_modEq,
    orderOf_amult]

/-- **The seed comes back after `2 ^ 44` calls.** -/
theorem seed_eq_iff (odd : Odd x) (m n : ℕ) :
    seed amult x m = seed amult x n ↔ m ≡ n [MOD 2 ^ 44] := by
  rw [← amult_pow_modEq_iff]
  constructor
  · intro same
    have coprime : Nat.gcd (2 ^ 46) x = 1 := Nat.Coprime.pow_left 46 odd.coprime_two_left
    exact Nat.ModEq.cancel_right_of_coprime coprime same
  · intro same
    exact same.mul_right x

theorem seed_mod_two (odd : Odd x) (n : ℕ) : Odd (seed amult x n) := by
  have product : Odd (amult ^ n * x) := (Odd.pow (by decide)).mul odd
  rw [Nat.odd_iff] at product ⊢
  rw [seed, Nat.mod_mod_of_dvd _ (by decide), product]

theorem uniform_inj {x y : ℕ} : uniform x = uniform y ↔ x = y := by
  rw [uniform, uniform, div_left_inj' (by positivity), Nat.cast_inj]

theorem uniform_pos_lt_one (positive : 0 < x) (small : x < 2 ^ 46) :
    0 < uniform x ∧ uniform x < 1 := by
  have upper : (x : ℚ) < 2 ^ 46 := by exact_mod_cast small
  have lower : (0 : ℚ) < x := by exact_mod_cast positive
  exact ⟨div_pos lower (by positivity), (div_lt_one (by positivity)).mpr upper⟩

theorem nodup_uniforms_iff (odd : Odd x) (n : ℕ) : (uniforms amult x n).Nodup ↔ n ≤ 2 ^ 44 := by
  rw [uniforms_eq_map, List.nodup_map_iff_inj_on List.nodup_range]
  constructor
  · intro distinct
    by_contra more
    have repeated : seed amult x (0 + 1) = seed amult x (2 ^ 44 + 1) := by
      rw [seed_eq_iff odd]
      exact Nat.ModEq.add_right 1 (Nat.ModEq.symm (Nat.modEq_zero_iff_dvd.mpr dvd_rfl))
    have first : 0 ∈ List.range n := List.mem_range.mpr (by omega)
    have last : 2 ^ 44 ∈ List.range n := List.mem_range.mpr (by omega)
    have same := distinct 0 first (2 ^ 44) last (uniform_inj.mpr repeated)
    exact absurd same (Nat.two_pow_pos 44).ne
  · intro few i below j below' same
    rw [uniform_inj, seed_eq_iff odd] at same
    rw [List.mem_range] at below below'
    have cancelled : i ≡ j [MOD 2 ^ 44] := Nat.ModEq.add_right_cancel' 1 same
    exact Nat.ModEq.eq_of_lt_of_lt cancelled (by omega) (by omega)

/-- **From an odd seed, the numbers are between 0 and 1, different for `2 ^ 44` calls, and the seed
is the old one after every `2 ^ 44` calls.** -/
theorem randlc_period (digits : 47 ≤ p) (odd : Odd x) (small : x < 2 ^ 46) (n : ℕ) :
    ∃ numbers last, randlcs fl amult n x = some (numbers, last) ∧
      (∀ y ∈ numbers, 0 < y ∧ y < 1) ∧ (numbers.Nodup ↔ n ≤ 2 ^ 44) ∧
      (last = x ↔ 2 ^ 44 ∣ n) := by
  refine ⟨_, _, randlcs_natCast digits (by decide) small n, ?_, nodup_uniforms_iff odd n, ?_⟩
  · intro y member
    rw [uniforms_eq_map] at member
    obtain ⟨i, -, rfl⟩ := List.mem_map.mp member
    exact uniform_pos_lt_one (seed_mod_two odd _).pos (seed_lt _ _ _)
  · have start : seed amult x 0 = x := seed_zero small
    rw [Nat.cast_inj, ← Nat.modEq_zero_iff_dvd, ← seed_eq_iff odd, start]

theorem randlc_period_tran :
    ∃ numbers last, randlcs (nearestEven 53) amult 3 tran = some (numbers, last) ∧
      (∀ y ∈ numbers, 0 < y ∧ y < 1) ∧ (numbers.Nodup ↔ 3 ≤ 2 ^ 44) ∧
      (last = tran ↔ 2 ^ 44 ∣ 3) :=
  randlc_period (by decide) (by decide) (by decide) 3

/-! ## The seeds of every other number -/

theorem seed_mod_eight (x n : ℕ) : seed amult x (2 * n) % 8 = x % 8 := by
  have square : amult ^ 2 ≡ 1 [MOD 8] := by decide
  have power : amult ^ (2 * n) ≡ 1 [MOD 8] := by
    rw [pow_mul]
    calc (amult ^ 2) ^ n ≡ 1 ^ n [MOD 8] := square.pow n
      _ = 1 := one_pow n
  have product : amult ^ (2 * n) * x ≡ 1 * x [MOD 8] := power.mul_right x
  rw [one_mul] at product
  rw [seed, Nat.mod_mod_of_dvd _ (by decide)]
  exact product

/-- Where a seed stands among those with its remainder modulo 8 -/
def place (x : ℕ) (n : Fin (2 ^ 43)) : Fin (2 ^ 43) :=
  ⟨seed amult x (2 * n) / 8, by
    have below := seed_lt amult x (2 * n)
    omega⟩

theorem place_injective (odd : Odd x) : Function.Injective (place x) := by
  intro m n same
  have quotient : seed amult x (2 * m) / 8 = seed amult x (2 * n) / 8 := congrArg Fin.val same
  have remainder := seed_mod_eight x m
  have remainder' := seed_mod_eight x n
  have seeds : seed amult x (2 * m) = seed amult x (2 * n) := by omega
  have period : 2 * m.val ≡ 2 * n.val [MOD 2 * 2 ^ 43] := (seed_eq_iff odd _ _).mp seeds
  have half : m.val ≡ n.val [MOD 2 ^ 43] := Nat.ModEq.mul_left_cancel' two_ne_zero period
  exact Fin.ext (Nat.ModEq.eq_of_lt_of_lt half m.isLt n.isLt)

/-- **Every seed with the remainder of the first one comes.** -/
theorem exists_seed (odd : Odd x) {y : ℕ} (small : y < 2 ^ 46) (remainder : y % 8 = x % 8) :
    ∃ n, seed amult x (2 * (n + 1)) = y := by
  have onto : Function.Surjective (place x) :=
    Finite.surjective_of_injective (place_injective odd)
  obtain ⟨m, placed⟩ := onto ⟨y / 8, by omega⟩
  have quotient : seed amult x (2 * m) / 8 = y / 8 := congrArg Fin.val placed
  have same := seed_mod_eight x m
  -- After a whole period, there was a call before
  refine ⟨m.val + (2 ^ 43 - 1), ?_⟩
  have later : seed amult x (2 * (m.val + (2 ^ 43 - 1) + 1)) = seed amult x (2 * m.val) := by
    rw [seed_eq_iff odd]
    have shift : 2 * (m.val + (2 ^ 43 - 1) + 1) = 2 * m.val + 2 ^ 44 := by omega
    rw [shift]
    exact Nat.add_modEq_right
  rw [later]
  omega

end ArgobotsReduction.ConjugateGradient.Generator
