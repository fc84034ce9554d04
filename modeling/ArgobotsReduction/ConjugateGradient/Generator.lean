import ArgobotsReduction.Numerics.Floats

/-!
# The pseudorandom numbers

`randlc` multiplies two numbers of 46 bits modulo `2 ^ 46` with floating-point operations.  It
splits both into halves of 23 bits, so that no product has more than 47 bits, and its conversions
to `int` chop quotients that are less than `2 ^ 24`.  `vranlc` computes many numbers at once, and
splits the multiplier only once.

The operations round what they compute, and a conversion to `int` is undefined for a number that
does not fit.  With 47 digits or more no rounding changes a result, and everything fits.  The
numbers are those of the linear congruential generator (`randlc_exact`), and `vranlc` computes
what as many calls of `randlc` would (`vranlc_agrees`).
-/

set_option autoImplicit false

namespace ArgobotsReduction.ConjugateGradient.Generator

open Numerics

variable {p : ℕ} (fl : Rounding p)

/-- A number without what is behind the point -/
def chop (x : ℚ) : ℤ := if 0 ≤ x then ⌊x⌋ else ⌈x⌉

/-- `(int) x`, where the result fits -/
def toInt (x : ℚ) : Option ℤ :=
  if -2 ^ 31 ≤ chop x ∧ chop x < 2 ^ 31 then some (chop x) else none

/-- `r23`, as it is written -/
def r23 : ℚ := 11920928955078125 / 10 ^ 23

def r46 : ℚ := fl.mul r23 r23

def t23 : ℚ := 8388608

def t46 : ℚ := fl.mul t23 t23

/-- The two parts of a number, which is `t23` times the first and the second -/
def split (a : ℚ) : Option (ℚ × ℚ) := do
  let t1 := fl.mul r23 a
  let a1 ← toInt t1
  return (a1, fl.sub a (fl.mul t23 a1))

/-- The product of the number with the parts `a1` and `a2` and the seed, which is the new seed -/
def multiply (a1 a2 x : ℚ) : Option ℚ := do
  let (x1, x2) ← split fl x
  let t1 := fl.add (fl.mul a1 x2) (fl.mul a2 x1)
  let t2 ← toInt (fl.mul r23 t1)
  let z := fl.sub t1 (fl.mul t23 t2)
  let t3 := fl.add (fl.mul t23 z) (fl.mul a2 x2)
  let t4 ← toInt (fl.mul (r46 fl) t3)
  return fl.sub t3 (fl.mul (t46 fl) t4)

/-- `randlc`: the number, and the new seed -/
def randlc (x a : ℚ) : Option (ℚ × ℚ) := do
  let (a1, a2) ← split fl a
  let x ← multiply fl a1 a2 x
  return (fl.mul (r46 fl) x, x)

/-- The loop of `vranlc`: the numbers, and the new seed -/
def vranlcLoop (a1 a2 : ℚ) : ℕ → ℚ → Option (List ℚ × ℚ)
  | 0, x => some ([], x)
  | n + 1, x => do
      let x ← multiply fl a1 a2 x
      let y := fl.mul (r46 fl) x
      let (rest, x) ← vranlcLoop a1 a2 n x
      return (y :: rest, x)

/-- `vranlc` -/
def vranlc (n : ℕ) (x a : ℚ) : Option (List ℚ × ℚ) := do
  let (a1, a2) ← split fl a
  vranlcLoop fl a1 a2 n x

/-- So many calls of `randlc` in a row -/
def randlcs (a : ℚ) : ℕ → ℚ → Option (List ℚ × ℚ)
  | 0, x => some ([], x)
  | n + 1, x => do
      let (y, x) ← randlc fl x a
      let (rest, x) ← randlcs a n x
      return (y :: rest, x)

/-! ## Everything fits -/

variable {fl} {a x : ℕ}

theorem r23_eq : r23 = 1 / 2 ^ 23 := by
  rw [r23]
  norm_num

theorem t23_eq : t23 = ((2 ^ 23 : ℕ) : ℚ) := by
  rw [t23]
  norm_num

theorem toInt_div {m : ℕ} (k : ℕ) (small : m / 2 ^ k < 2 ^ 31) :
    toInt ((m : ℚ) / 2 ^ k) = some ((m / 2 ^ k : ℕ) : ℤ) := by
  have quotient : ⌊(m : ℚ) / 2 ^ k⌋ = ((m / 2 ^ k : ℕ) : ℤ) := by
    have floor := Rat.floor_intCast_div_natCast (m : ℤ) (2 ^ k)
    push_cast at floor
    rw [floor]
    norm_cast
  have positive : (0 : ℚ) ≤ (m : ℚ) / 2 ^ k := by positivity
  have chopped : chop ((m : ℚ) / 2 ^ k) = ((m / 2 ^ k : ℕ) : ℤ) := by
    rw [chop, if_pos positive, quotient]
  have below : ((m / 2 ^ k : ℕ) : ℤ) < 2 ^ 31 := by exact_mod_cast small
  have above : -2 ^ 31 ≤ ((m / 2 ^ k : ℕ) : ℤ) := le_trans (by decide) (Int.natCast_nonneg _)
  rw [toInt, chopped, if_pos ⟨above, below⟩]

/-- The same computation with natural numbers -/
theorem halves_mul (a1 a2 x1 x2 : ℕ) :
    (2 ^ 23 * a1 + a2) * (2 ^ 23 * x1 + x2) % 2 ^ 46 =
      (2 ^ 23 * ((a1 * x2 + a2 * x1) % 2 ^ 23) + a2 * x2) % 2 ^ 46 := by
  have expand : (2 ^ 23 * a1 + a2) * (2 ^ 23 * x1 + x2) =
      2 ^ 46 * (a1 * x1) + (2 ^ 23 * (a1 * x2 + a2 * x1) + a2 * x2) := by ring
  rw [expand, Nat.mul_add_mod]
  omega

section Digits

variable (digits : 47 ≤ p)
include digits

theorem small_of_lt {m k : ℕ} (small : m < 2 ^ k) (few : k ≤ 47) : m < 2 ^ p :=
  small.trans_le (Nat.pow_le_pow_right Nat.two_pos (few.trans digits))

theorem r46_eq : r46 fl = 1 / 2 ^ 46 := by
  rw [r46, Rounding.mul, r23_eq, fl.exact]
  · norm_num
  · have one : Representable p ((1 : ℕ) : ℚ) :=
      representable_natCast (small_of_lt digits (show 1 < 2 ^ 1 by decide) (by decide))
    have scaled := one.div 46
    convert scaled using 1
    norm_num

theorem t46_eq : t46 fl = ((2 ^ 46 : ℕ) : ℚ) := by
  have small : 2 ^ 23 * 2 ^ 23 < 2 ^ p :=
    small_of_lt digits (show 2 ^ 23 * 2 ^ 23 < 2 ^ 47 by decide) le_rfl
  rw [t46, t23_eq, Rounding.mul_natCast small, ← pow_add]

/-- The halves of a number with 46 bits -/
theorem split_natCast (small : a < 2 ^ 46) :
    split fl a = some (((a / 2 ^ 23 : ℕ) : ℚ), ((a % 2 ^ 23 : ℕ) : ℚ)) := by
  have scaled : fl.mul r23 a = (a : ℚ) / 2 ^ 23 := by
    rw [r23_eq]
    exact Rounding.mul_scale 23 (small_of_lt digits small (by decide))
  have fits : a / 2 ^ 23 < 2 ^ 31 := by omega
  have whole := Nat.div_add_mod a (2 ^ 23)
  have product : 2 ^ 23 * (a / 2 ^ 23) < 2 ^ p :=
    small_of_lt digits ((Nat.mul_div_le a (2 ^ 23)).trans_lt small) (by decide)
  have upper : fl.mul t23 ((a / 2 ^ 23 : ℕ) : ℚ) = ((2 ^ 23 * (a / 2 ^ 23) : ℕ) : ℚ) := by
    rw [t23_eq]
    exact Rounding.mul_natCast product
  have lower : fl.sub a ((2 ^ 23 * (a / 2 ^ 23) : ℕ) : ℚ) = ((a % 2 ^ 23 : ℕ) : ℚ) := by
    rw [Rounding.sub_natCast (by omega) (small_of_lt digits small (by decide))]
    congr 1
    omega
  rw [split, scaled, toInt_div 23 fits]
  simp only [Option.bind_eq_bind, Option.bind_some, Int.cast_natCast, upper, lower]
  rfl

/-- **The product of the two numbers modulo `2 ^ 46`** -/
theorem multiply_natCast (smallA : a < 2 ^ 46) (smallX : x < 2 ^ 46) :
    multiply fl ((a / 2 ^ 23 : ℕ) : ℚ) ((a % 2 ^ 23 : ℕ) : ℚ) x =
      some ((a * x % 2 ^ 46 : ℕ) : ℚ) := by
  obtain ⟨a1, upperA⟩ : ∃ a1, a1 = a / 2 ^ 23 := ⟨_, rfl⟩
  obtain ⟨a2, lowerA⟩ : ∃ a2, a2 = a % 2 ^ 23 := ⟨_, rfl⟩
  obtain ⟨x1, upperX⟩ : ∃ x1, x1 = x / 2 ^ 23 := ⟨_, rfl⟩
  obtain ⟨x2, lowerX⟩ : ∃ x2, x2 = x % 2 ^ 23 := ⟨_, rfl⟩
  have below : ∀ {m n : ℕ}, m < 2 ^ 23 → n < 2 ^ 23 → m * n < 2 ^ 46 := by
    intro m n first second
    calc m * n < 2 ^ 23 * 2 ^ 23 := Nat.mul_lt_mul'' first second
      _ = 2 ^ 46 := by decide
  have fits : ∀ {m : ℕ}, m < 2 ^ 47 → m < 2 ^ p := fun small => small_of_lt digits small le_rfl
  have cross := below (show a1 < 2 ^ 23 by omega) (show x2 < 2 ^ 23 by omega)
  have cross' := below (show a2 < 2 ^ 23 by omega) (show x1 < 2 ^ 23 by omega)
  have last := below (show a2 < 2 ^ 23 by omega) (show x2 < 2 ^ 23 by omega)
  obtain ⟨t1, sum⟩ : ∃ t1, t1 = a1 * x2 + a2 * x1 := ⟨_, rfl⟩
  obtain ⟨t3, total⟩ : ∃ t3, t3 = 2 ^ 23 * (t1 % 2 ^ 23) + a2 * x2 := ⟨_, rfl⟩
  -- The steps of the code, each with its exact result
  have step1 : fl.add (fl.mul a1 x2) (fl.mul a2 x1) = (t1 : ℚ) := by
    rw [Rounding.mul_natCast (fits (by omega)), Rounding.mul_natCast (fits (by omega)),
      Rounding.add_natCast (fits (by omega)), sum]
  have step2 : toInt (fl.mul r23 t1) = some ((t1 / 2 ^ 23 : ℕ) : ℤ) := by
    rw [r23_eq, Rounding.mul_scale 23 (fits (by omega)), toInt_div 23 (by omega)]
  have step3 : fl.sub t1 (fl.mul t23 ((t1 / 2 ^ 23 : ℕ) : ℚ)) = ((t1 % 2 ^ 23 : ℕ) : ℚ) := by
    rw [t23_eq, Rounding.mul_natCast (fits (by omega)),
      Rounding.sub_natCast (by omega) (fits (by omega))]
    congr 1
    omega
  have step4 : fl.add (fl.mul t23 ((t1 % 2 ^ 23 : ℕ) : ℚ)) (fl.mul a2 x2) = (t3 : ℚ) := by
    rw [t23_eq, Rounding.mul_natCast (fits (by omega)), Rounding.mul_natCast (fits (by omega)),
      Rounding.add_natCast (fits (by omega)), total]
  have step5 : toInt (fl.mul (r46 fl) t3) = some ((t3 / 2 ^ 46 : ℕ) : ℤ) := by
    rw [r46_eq digits, Rounding.mul_scale 46 (fits (by omega)), toInt_div 46 (by omega)]
  have step6 : fl.sub t3 (fl.mul (t46 fl) ((t3 / 2 ^ 46 : ℕ) : ℚ)) =
      ((t3 % 2 ^ 46 : ℕ) : ℚ) := by
    rw [t46_eq digits, Rounding.mul_natCast (fits (by omega)),
      Rounding.sub_natCast (by omega) (fits (by omega))]
    congr 1
    omega
  have product : a * x % 2 ^ 46 = t3 % 2 ^ 46 := by
    have wholeA : a = 2 ^ 23 * a1 + a2 := by omega
    have wholeX : x = 2 ^ 23 * x1 + x2 := by omega
    rw [total, sum, ← halves_mul, ← wholeA, ← wholeX]
  rw [multiply, split_natCast digits smallX, ← upperA, ← lowerA, ← upperX, ← lowerX]
  simp only [Option.bind_eq_bind, Option.bind_some, step1, step2, Int.cast_natCast, step3, step4,
    step5, step6, product]
  rfl

/-- The numbers that `randlc` returns, in exact arithmetic -/
def uniform (x : ℕ) : ℚ := x / 2 ^ 46

/-- **`randlc` is the generator.** -/
theorem randlc_natCast (smallA : a < 2 ^ 46) (smallX : x < 2 ^ 46) :
    randlc fl x a = some (uniform (a * x % 2 ^ 46), ((a * x % 2 ^ 46 : ℕ) : ℚ)) := by
  have below : a * x % 2 ^ 46 < 2 ^ 46 := Nat.mod_lt _ (Nat.two_pow_pos _)
  have scaled : fl.mul (r46 fl) ((a * x % 2 ^ 46 : ℕ) : ℚ) = uniform (a * x % 2 ^ 46) := by
    rw [r46_eq digits]
    exact Rounding.mul_scale 46 (small_of_lt digits below (by decide))
  rw [randlc, split_natCast digits smallA]
  simp only [Option.bind_eq_bind, Option.bind_some, multiply_natCast digits smallA smallX, scaled]
  rfl

/-- The seed after so many numbers -/
def seed (a x n : ℕ) : ℕ := a ^ n * x % 2 ^ 46

omit digits in
theorem seed_lt (a x n : ℕ) : seed a x n < 2 ^ 46 := Nat.mod_lt _ (Nat.two_pow_pos _)

omit digits in
theorem seed_zero (small : x < 2 ^ 46) : seed a x 0 = x := by
  rw [seed, pow_zero, one_mul, Nat.mod_eq_of_lt small]

omit digits in
theorem seed_one : seed a x 1 = a * x % 2 ^ 46 := by rw [seed, pow_one]

omit digits in
theorem seed_add (a x m n : ℕ) : seed a (seed a x m) n = seed a x (m + n) := by
  rw [seed, seed, seed, Nat.mul_mod, Nat.mod_mod, ← Nat.mul_mod, ← mul_assoc, ← pow_add, add_comm n]

/-- The next so many numbers after a seed -/
def uniforms (a x : ℕ) : ℕ → List ℚ
  | 0 => []
  | n + 1 => uniform (seed a x 1) :: uniforms a (seed a x 1) n

omit digits in
theorem uniforms_eq_map (a x n : ℕ) :
    uniforms a x n = (List.range n).map fun i => uniform (seed a x (i + 1)) := by
  induction n generalizing x with
  | zero => rfl
  | succ n ih =>
      rw [uniforms, ih, List.range_succ_eq_map, List.map_cons, List.map_map]
      congr 1
      apply List.map_congr_left
      intro i _
      rw [seed_add, add_comm 1, Function.comp_apply]

/-- **Calls of `randlc`** -/
theorem randlcs_natCast (smallA : a < 2 ^ 46) (smallX : x < 2 ^ 46) (n : ℕ) :
    randlcs fl a n x = some (uniforms a x n, (seed a x n : ℚ)) := by
  induction n generalizing x with
  | zero => rw [randlcs, uniforms, seed_zero smallX]
  | succ n ih =>
      rw [randlcs, randlc_natCast digits smallA smallX, ← seed_one]
      simp only [Option.bind_eq_bind, Option.bind_some, ih (seed_lt a x 1), seed_add, add_comm 1 n]
      rfl

theorem vranlcLoop_natCast (smallA : a < 2 ^ 46) (smallX : x < 2 ^ 46) (n : ℕ) :
    vranlcLoop fl ((a / 2 ^ 23 : ℕ) : ℚ) ((a % 2 ^ 23 : ℕ) : ℚ) n x =
      some (uniforms a x n, (seed a x n : ℚ)) := by
  induction n generalizing x with
  | zero => rw [vranlcLoop, uniforms, seed_zero smallX]
  | succ n ih =>
      have scaled : fl.mul (r46 fl) (seed a x 1 : ℚ) = uniform (seed a x 1) := by
        rw [r46_eq digits]
        exact Rounding.mul_scale 46 (small_of_lt digits (seed_lt a x 1) (by decide))
      rw [vranlcLoop, multiply_natCast digits smallA smallX, ← seed_one]
      simp only [Option.bind_eq_bind, Option.bind_some, ih (seed_lt a x 1), scaled, seed_add,
        add_comm 1 n]
      rfl

/-- **`randlc` computes the numbers of the generator**, whatever the rounding mode and the number of
digits, if there are 47 or more. -/
theorem randlc_exact (smallA : a < 2 ^ 46) (smallX : x < 2 ^ 46) (n : ℕ) :
    randlcs fl a n x = some
      ((List.range n).map fun i => ((a ^ (i + 1) * x % 2 ^ 46 : ℕ) : ℚ) / 2 ^ 46,
        ((a ^ n * x % 2 ^ 46 : ℕ) : ℚ)) := by
  rw [randlcs_natCast digits smallA smallX, uniforms_eq_map]
  rfl

/-- **`vranlc` agrees with `randlc`**, also when the two are rounded differently. -/
theorem vranlc_agrees {q : ℕ} {fl' : Rounding q} (digits' : 47 ≤ q) (smallA : a < 2 ^ 46)
    (smallX : x < 2 ^ 46) (n : ℕ) : vranlc fl n x a = randlcs fl' a n x := by
  rw [vranlc, split_natCast digits smallA, randlcs_natCast digits' smallA smallX]
  exact vranlcLoop_natCast digits smallA smallX n

end Digits

/-! ## Two numbers -/

/-- `amult` -/
def amult : ℕ := 1220703125

/-- `tran`, to begin with -/
def tran : ℕ := 314159265

/-- The first two numbers with double precision -/
theorem randlc_exact_tran :
    randlcs (nearestEven 53) amult 2 tran = some
      ((List.range 2).map fun i => ((amult ^ (i + 1) * tran % 2 ^ 46 : ℕ) : ℚ) / 2 ^ 46,
        ((amult ^ 2 * tran % 2 ^ 46 : ℕ) : ℚ)) :=
  randlc_exact (by decide) (by decide) (by decide) 2

theorem vranlc_agrees_tran :
    vranlc (nearestEven 53) 2 tran amult = randlcs (nearestEven 64) amult 2 tran :=
  vranlc_agrees (by decide) (by decide) (by decide) (by decide) 2

end ArgobotsReduction.ConjugateGradient.Generator
