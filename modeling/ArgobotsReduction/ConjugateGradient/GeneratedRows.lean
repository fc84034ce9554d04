import Mathlib.Algebra.Order.Floor.Semifield
import ArgobotsReduction.ConjugateGradient.GeneratorPeriod
import ArgobotsReduction.ConjugateGradient.RowGeneration
import ArgobotsReduction.ConjugateGradient.SparseNests

/-!
# The rows that the ULTs generate

Every ULT has a generator of its own, which it starts with the same seed.  It draws the positions of
all the rows before its last one, and stores those rows that are its own.

`sprnvc` draws until it has enough positions, and nothing in its code says that it ever has.  It
does: whatever positions there are already, a seed that gives a new one comes within a period of
the generator (`exists_seed`).  So every ULT returns, if there are not more than `max_threads`;
otherwise every ULT exits.  The rows it stores are the rows that one thread alone would generate,
whatever the number of ULTs, the order in which they store their rows and the rounding of their
operations (`rows_stored`).
-/

set_option autoImplicit false

namespace ArgobotsReduction.ConjugateGradient.Generator

open Numerics Containers Sparse

/-- The loop on `nn1` -/
def doubled (n : ℕ) : ℕ → ℕ → ℕ
  | 0, nn1 => nn1
  | turns + 1, nn1 => if 2 * nn1 < n then doubled n turns (2 * nn1) else 2 * nn1

/-- `nn1`, which has doubled at least once -/
def nn1 (n : ℕ) : ℕ := doubled n (n + 1) 1

section Code

variable {p : ℕ} (fl : Rounding p)

/-- The loop of `sprnvc`, for so many turns: the positions and their values, and the new seed -/
def sprnvcLoop (n nz nn1 : ℕ) : ℕ → ℚ → List (ℕ × ℚ) → Option (List (ℕ × ℚ) × ℚ)
  | 0, tran, vec => if vec.length < nz then none else some (vec, tran)
  | turns + 1, tran, vec =>
      if vec.length < nz then do
        let (vecelt, tran) ← randlc fl tran amult
        let (vecloc, tran) ← randlc fl tran amult
        let chopped ← toInt (fl.mul nn1 vecloc)
        if n < chopped.toNat + 1 then sprnvcLoop n nz nn1 turns tran vec
        else if chopped.toNat + 1 ∈ keys vec then sprnvcLoop n nz nn1 turns tran vec
        else sprnvcLoop n nz nn1 turns tran (vec ++ [(chopped.toNat + 1, vecelt)])
      else some (vec, tran)

/-- The loop of `makea` on `iouter`: the rows that are stored, and the new seed -/
def makeRows (n nonzer nn1 turns ilow : ℕ) (tran : ℚ) :
    ℕ → Option (List (List (ℕ × ℚ) × ℕ) × ℚ)
  | 0 => some ([], tran)
  | iouter + 1 => do
      let (stored, tran) ← makeRows n nonzer nn1 turns ilow tran iouter
      let (vec, tran) ← sprnvcLoop fl n nonzer nn1 turns tran []
      if ilow ≤ iouter then
        return (stored ++ [((vecset vec (iouter + 1) (1 / 2)).map fun item =>
          (item.1 - 1, item.2), iouter)], tran)
      else return (stored, tran)

/-- What becomes of a ULT before the barrier of `makea` -/
inductive Generated where
  | exits
  | rows (stored : List (List (ℕ × ℚ) × ℕ)) (tran : ℚ)

/-- What a ULT generates, with the first number thrown away -/
def generate (problem : Problem ℚ) (numThreads thread turns : ℕ) : Option Generated := do
  let (_, tran) ← randlc fl tran amult
  if problem.maxThreads < numThreads then return .exits
  else
    let (stored, tran) ← makeRows fl problem.n problem.nonzer (nn1 problem.n) turns
      (ilow problem numThreads thread) tran (ihigh problem numThreads thread)
    return .rows stored tran

end Code

/-- The lists `arow`, `acol` and `aelt` with one more row -/
def storeRow (lists : ℕ → List (ℕ × ℚ)) (item : List (ℕ × ℚ) × ℕ) : ℕ → List (ℕ × ℚ) :=
  Function.update lists item.2 item.1

/-! ## The power of two -/

theorem doubled_eq {n b turns c : ℕ} (bound : n ≤ 2 ^ b) (positive : 0 < b)
    (enough : n ≤ 2 ^ (c + turns)) (some : 0 < turns) (below : c = 0 ∨ 2 ^ c < n) :
    ∃ d, doubled n turns (2 ^ c) = 2 ^ d ∧ n ≤ 2 ^ d ∧ d ≤ b := by
  induction turns generalizing c with
  | zero => exact absurd some (Nat.lt_irrefl 0)
  | succ turns ih =>
      have twice : 2 * 2 ^ c = 2 ^ (c + 1) := (pow_succ' 2 c).symm
      rw [doubled, twice]
      split_ifs with more
      · cases turns with
        | zero => exact absurd enough (Nat.not_le.mpr more)
        | succ turns =>
            refine ih ?_ (Nat.succ_pos turns) (Or.inr more)
            rwa [Nat.add_right_comm c 1]
      · refine ⟨c + 1, rfl, Nat.not_lt.mp more, ?_⟩
        rcases below with rfl | below
        · exact positive
        · exact (Nat.pow_lt_pow_iff_right Nat.one_lt_two).mp (below.trans_le bound)

/-- `nn1` is a power of two that is not less than `n`. -/
theorem nn1_eq {n : ℕ} (bound : n ≤ 2 ^ 30) : ∃ b, nn1 n = 2 ^ b ∧ n ≤ 2 ^ b ∧ b ≤ 30 := by
  have enough : n ≤ 2 ^ (0 + (n + 1)) := by
    rw [zero_add]
    exact (Nat.lt_two_pow_self.trans (Nat.pow_lt_pow_right Nat.one_lt_two n.lt_succ_self)).le
  exact doubled_eq bound (by decide) enough n.succ_pos (Or.inl rfl)

/-! ## The draws -/

/-- The numbers of so many turns -/
def draws : ℕ → ℕ → List (ℚ × ℚ)
  | 0, _ => []
  | k + 1, x => (uniform (seed amult x 1), uniform (seed amult x 2)) :: draws k (seed amult x 2)

theorem draws_add (k l x : ℕ) (small : x < 2 ^ 46) :
    draws (k + l) x = draws k x ++ draws l (seed amult x (2 * k)) := by
  induction k generalizing x with
  | zero => rw [Nat.mul_zero, seed_zero small, Nat.zero_add, draws, List.nil_append]
  | succ k ih =>
      have turns : 2 + 2 * k = 2 * (k + 1) := by ring
      rw [Nat.add_right_comm, draws, draws, ih _ (seed_lt _ _ _), seed_add, List.cons_append, turns]

variable {n nz b x : ℕ} {vec drawn : List (ℕ × ℚ)}

/-- The position that a seed decides on, counted from 0 -/
def position (b x : ℕ) : ℕ := seed amult x 2 / 2 ^ (46 - b)

theorem scaled_uniform (few : b ≤ 46) :
    ((2 ^ b : ℕ) : ℚ) * uniform x = (x : ℚ) / 2 ^ (46 - b) := by
  have whole : (2 : ℚ) ^ 46 = 2 ^ b * 2 ^ (46 - b) := by rw [← pow_add, Nat.add_sub_cancel' few]
  rw [uniform, whole, Nat.cast_pow, Nat.cast_two]
  field_simp

theorem icnvrt_uniform (few : b ≤ 46) (x : ℕ) :
    icnvrt (uniform x) (2 ^ b) = x / 2 ^ (46 - b) := by
  have width : (2 : ℚ) ^ (46 - b) = ((2 ^ (46 - b) : ℕ) : ℚ) := by rw [Nat.cast_pow, Nat.cast_two]
  rw [icnvrt, scaled_uniform few, width, Nat.floor_div_eq_div]

/-- A turn with a position that is refused -/
theorem sprnvc_refused (few : b ≤ 46) (short : vec.length < nz)
    (refused : n < position b x + 1 ∨ position b x + 1 ∈ keys vec) (k : ℕ) :
    sprnvc n nz (2 ^ b) (draws (k + 1) x) vec =
      sprnvc n nz (2 ^ b) (draws k (seed amult x 2)) vec := by
  rw [draws, sprnvc, if_pos short]
  dsimp only
  rw [icnvrt_uniform few]
  rcases refused with outside | again
  · exact if_pos outside
  · rw [← position, if_pos again, ite_self]

/-- A turn with a new position -/
theorem sprnvc_accepted (few : b ≤ 46) (short : vec.length < nz)
    (inside : position b x + 1 ≤ n) (new : position b x + 1 ∉ keys vec) (k : ℕ) :
    sprnvc n nz (2 ^ b) (draws (k + 1) x) vec =
      sprnvc n nz (2 ^ b) (draws k (seed amult x 2))
        (vec ++ [(position b x + 1, uniform (seed amult x 1))]) := by
  rw [draws, sprnvc, if_pos short]
  dsimp only
  rw [icnvrt_uniform few, ← position, if_neg (Nat.not_lt.mpr inside), if_neg new]

/-! ## Enough positions come -/

theorem exists_free (short : vec.length < n) :
    ∃ i < n, i + 1 ∉ keys vec := by
  by_contra taken
  push Not at taken
  have all : (List.range n).map (· + 1) ⊆ keys vec := by
    intro k member
    obtain ⟨i, below, rfl⟩ := List.mem_map.mp member
    exact taken i (List.mem_range.mp below)
  have distinct : ((List.range n).map (· + 1)).Nodup :=
    List.nodup_range.map (fun i j same => Nat.succ.inj same)
  have long := (List.subperm_of_subset distinct all).length_le
  rw [List.length_map, List.length_range, keys, List.length_map] at long
  omega

/-- A seed for a position comes. -/
theorem exists_position (few : b ≤ 30) (odd : Odd x) {i : ℕ} (below : i < 2 ^ b) :
    ∃ m, position b (seed amult x (2 * m)) = i := by
  obtain ⟨c, width⟩ : ∃ c, 46 - b = c + 3 := ⟨43 - b, by omega⟩
  have whole : 2 ^ 46 = 2 ^ b * (2 ^ c * 8) := by
    rw [show 8 = 2 ^ 3 by decide, ← pow_add, ← pow_add]
    congr 1
    omega
  obtain ⟨y, target⟩ : ∃ y, y = 2 ^ c * 8 * i + x % 8 := ⟨_, rfl⟩
  have remainder : x % 8 < 8 := Nat.mod_lt _ (by decide)
  have wide : 8 ≤ 2 ^ c * 8 := Nat.le_mul_of_pos_left 8 (Nat.two_pow_pos c)
  have small : y < 2 ^ 46 := by
    calc y < 2 ^ c * 8 * i + 2 ^ c * 8 := by omega
      _ = (i + 1) * (2 ^ c * 8) := by ring
      _ ≤ 2 ^ b * (2 ^ c * 8) := Nat.mul_le_mul_right _ below
      _ = 2 ^ 46 := whole.symm
  have same : y % 8 = x % 8 := by
    rw [target, mul_comm (2 ^ c) 8, mul_assoc, Nat.mul_add_mod, Nat.mod_mod]
  obtain ⟨m, reached⟩ := exists_seed odd small same
  refine ⟨m, ?_⟩
  have spread : 2 ^ (46 - b) = 2 ^ c * 8 := by rw [width, pow_add, show 2 ^ 3 = 8 by decide]
  rw [position, seed_add, ← Nat.mul_succ, Nat.succ_eq_add_one, reached, target, spread,
    Nat.mul_add_div (by omega), Nat.div_eq_of_lt (by omega), Nat.add_zero]

/-- **`sprnvc` returns.** -/
theorem sprnvc_returns (few : b ≤ 30) (bound : n ≤ 2 ^ b) (enough : nz ≤ n)
    (positions : Positions n vec) (short : vec.length ≤ nz) (odd : Odd x) (small : x < 2 ^ 46) :
    ∃ k drawn, sprnvc n nz (2 ^ b) (draws k x) vec = some (drawn, []) := by
  obtain ⟨missing, count⟩ : ∃ missing, vec.length + missing = nz := ⟨_, Nat.add_sub_cancel' short⟩
  have few' : b ≤ 46 := few.trans (by decide)
  -- The positions that are missing, and for each the turns until a free one comes
  induction missing generalizing vec x with
  | zero => exact ⟨0, vec, if_neg (by omega)⟩
  | succ missing ih =>
      have short : vec.length < nz := by omega
      obtain ⟨i, below, free⟩ := exists_free (short.trans_le enough)
      obtain ⟨m, comes⟩ := exists_position few odd (below.trans_le bound)
      induction m generalizing x with
      | zero =>
          rw [Nat.mul_zero, seed_zero small] at comes
          have next := positions.append (Nat.succ_pos i) below free (uniform (seed amult x 1))
          obtain ⟨k, drawn, returned⟩ :=
            ih next (by simp; omega) (seed_mod_two odd 2) (seed_lt _ _ _) (by simp; omega)
          refine ⟨k + 1, drawn, ?_⟩
          rw [sprnvc_accepted few' short (by omega) (by rwa [comes]), comes, returned]
      | succ m later =>
          by_cases refused : n < position b x + 1 ∨ position b x + 1 ∈ keys vec
          · have comes' : position b (seed amult (seed amult x 2) (2 * m)) = i := by
              rw [seed_add, add_comm, ← Nat.mul_succ, comes]
            obtain ⟨k, drawn, returned⟩ := later (seed_mod_two odd 2) (seed_lt _ _ _) comes'
            exact ⟨k + 1, drawn, by rw [sprnvc_refused few' short refused, returned]⟩
          · obtain ⟨inside, new⟩ := not_or.mp refused
            have next := positions.append (Nat.succ_pos _) (Nat.not_lt.mp inside) new
              (uniform (seed amult x 1))
            obtain ⟨k, drawn, returned⟩ :=
              ih next (by simp; omega) (seed_mod_two odd 2) (seed_lt _ _ _) (by simp; omega)
            refine ⟨k + 1, drawn, ?_⟩
            rw [sprnvc_accepted few' short (Nat.not_lt.mp inside) new, returned]

/-! ## More draws than are taken -/

theorem sprnvc_append {nn1 : ℕ} {taken rest more : List (ℚ × ℚ)}
    (returned : sprnvc n nz nn1 taken vec = some (drawn, rest)) :
    sprnvc n nz nn1 (taken ++ more) vec = some (drawn, rest ++ more) := by
  induction taken generalizing vec with
  | nil =>
      rw [sprnvc] at returned
      split_ifs at returned with missing
      obtain ⟨rfl, rfl⟩ := Prod.mk.inj (Option.some.inj returned)
      cases more with
      | nil => exact if_neg missing
      | cons draw more => exact if_neg missing
  | cons draw taken ih =>
      rw [sprnvc] at returned
      dsimp only at returned
      rw [List.cons_append, sprnvc]
      dsimp only
      split_ifs at returned ⊢ with missing outside again
      · exact ih returned
      · exact ih returned
      · exact ih returned
      · obtain ⟨rfl, rfl⟩ := Prod.mk.inj (Option.some.inj returned)
        rfl

theorem generateRows_append {nn1 count : ℕ} {taken rest more : List (ℚ × ℚ)}
    {rows : List (List (ℕ × ℚ))}
    (returned : generateRows n nz nn1 (1 / 2) taken count = some (rows, rest)) :
    generateRows n nz nn1 (1 / 2) (taken ++ more) count = some (rows, rest ++ more) := by
  induction count generalizing rows rest with
  | zero =>
      obtain ⟨rfl, rfl⟩ := Prod.mk.inj (Option.some.inj returned)
      rfl
  | succ count ih =>
      obtain ⟨⟨sofar, left⟩, earlier, last⟩ := Option.bind_eq_some_iff.mp returned
      obtain ⟨⟨next, after⟩, generated, same⟩ := Option.map_eq_some_iff.mp last
      obtain ⟨⟨vec, unused⟩, drawn, row⟩ := Option.map_eq_some_iff.mp generated
      obtain ⟨rfl, rfl⟩ := Prod.mk.inj same
      obtain ⟨rfl, rfl⟩ := Prod.mk.inj row
      rw [generateRows, ih earlier, Option.bind_some, generateRow, sprnvc_append drawn]
      rfl

/-- **All the rows are generated.** -/
theorem generateRows_returns (few : b ≤ 30) (bound : n ≤ 2 ^ b) (enough : nz ≤ n) (odd : Odd x)
    (small : x < 2 ^ 46) (count : ℕ) :
    ∃ k rows, generateRows n nz (2 ^ b) (1 / 2) (draws k x) count = some (rows, []) := by
  induction count with
  | zero => exact ⟨0, [], rfl⟩
  | succ count ih =>
      obtain ⟨k, rows, earlier⟩ := ih
      have none : Positions n ([] : List (ℕ × ℚ)) := by
        refine ⟨List.nodup_nil, fun i member => ?_⟩
        cases member
      obtain ⟨l, drawn, last⟩ := sprnvc_returns few bound enough none (Nat.zero_le nz)
        (seed_mod_two odd (2 * k)) (seed_lt amult x (2 * k))
      have sofar : generateRows n nz (2 ^ b) (1 / 2)
          (draws k x ++ draws l (seed amult x (2 * k))) count =
            some (rows, draws l (seed amult x (2 * k))) := generateRows_append earlier
      refine ⟨k + l, rows ++ [(vecset drawn (count + 1) (1 / 2)).map fun item =>
        (item.1 - 1, item.2)], ?_⟩
      rw [draws_add k l x small, generateRows, sofar, Option.bind_some, generateRow, last]
      rfl

theorem generateRows_take {nn1 count : ℕ} {taken rest : List (ℚ × ℚ)}
    {rows : List (List (ℕ × ℚ))}
    (returned : generateRows n nz nn1 (1 / 2) taken count = some (rows, rest)) {m : ℕ}
    (fewer : m ≤ count) :
    ∃ left, generateRows n nz nn1 (1 / 2) taken m = some (rows.take m, left) := by
  induction count generalizing rows rest with
  | zero =>
      obtain rfl := Nat.le_zero.mp fewer
      obtain ⟨rfl, rfl⟩ := Prod.mk.inj (Option.some.inj returned)
      exact ⟨taken, rfl⟩
  | succ count ih =>
      obtain ⟨length, -⟩ := generateRows_spec returned
      rcases Nat.lt_or_eq_of_le fewer with fewer | rfl
      · obtain ⟨⟨sofar, left⟩, earlier, last⟩ := Option.bind_eq_some_iff.mp returned
        obtain ⟨⟨next, after⟩, -, same⟩ := Option.map_eq_some_iff.mp last
        obtain ⟨rfl, rfl⟩ := Prod.mk.inj same
        obtain ⟨length', -⟩ := generateRows_spec earlier
        have inside : m ≤ sofar.length := by omega
        rw [List.take_append_of_le_length inside]
        exact ih earlier (by omega)
      · exact ⟨rest, by rw [returned, List.take_of_length_le length.le]⟩

/-! ## What the code computes -/

section Digits

variable {p : ℕ} (fl : Rounding p) (digits : 47 ≤ p)
include digits

theorem randlc_seed (small : x < 2 ^ 46) :
    randlc fl x amult = some (uniform (seed amult x 1), (seed amult x 1 : ℚ)) := by
  rw [randlc_natCast digits (by decide) small, ← seed_one]

/-- `icnvrt` rounds nothing. -/
theorem toInt_scaled (few : b ≤ 30) (small : x < 2 ^ 46) :
    toInt (fl.mul ((2 ^ b : ℕ) : ℚ) (uniform x)) = some ((x / 2 ^ (46 - b) : ℕ) : ℤ) := by
  have exact : fl.mul ((2 ^ b : ℕ) : ℚ) (uniform x) = (x : ℚ) / 2 ^ (46 - b) := by
    rw [Rounding.mul, scaled_uniform (few.trans (by decide))]
    exact fl.exact _ ((representable_natCast (small_of_lt digits small (by decide))).div _)
  have whole : 2 ^ 46 = 2 ^ b * 2 ^ (46 - b) := by
    rw [← pow_add, Nat.add_sub_cancel' (few.trans (by decide))]
  have below : x / 2 ^ (46 - b) < 2 ^ b := by
    rw [Nat.div_lt_iff_lt_mul (Nat.two_pow_pos _), ← whole]
    exact small
  have bits : 2 ^ b ≤ 2 ^ 30 := Nat.pow_le_pow_right Nat.two_pos few
  rw [exact, toInt_div _ (below.trans_le (bits.trans (by decide)))]

/-- **The loop of `sprnvc` takes the draws one after the other.** -/
theorem sprnvcLoop_eq (few : b ≤ 30) {k turns : ℕ} {rest : List (ℚ × ℚ)} (small : x < 2 ^ 46)
    (returned : sprnvc n nz (2 ^ b) (draws k x) vec = some (drawn, rest)) (enough : k ≤ turns) :
    ∃ l ≤ k, rest = draws (k - l) (seed amult x (2 * l)) ∧
      sprnvcLoop fl n nz (2 ^ b) turns x vec = some (drawn, (seed amult x (2 * l) : ℚ)) := by
  induction turns generalizing k x vec with
  | zero =>
      obtain rfl := Nat.le_zero.mp enough
      rw [draws, sprnvc] at returned
      split_ifs at returned with missing
      obtain ⟨rfl, rfl⟩ := Prod.mk.inj (Option.some.inj returned)
      refine ⟨0, le_rfl, rfl, ?_⟩
      rw [sprnvcLoop, if_neg missing, Nat.mul_zero, seed_zero small]
  | succ turns ih =>
      by_cases missing : vec.length < nz
      · cases k with
        | zero =>
            rw [draws, sprnvc, if_pos missing] at returned
            cases returned
        | succ k =>
            have first : randlc fl x amult =
                some (uniform (seed amult x 1), (seed amult x 1 : ℚ)) :=
              randlc_seed fl digits small
            have second : randlc fl (seed amult x 1) amult =
                some (uniform (seed amult x 2), (seed amult x 2 : ℚ)) := by
              rw [randlc_seed fl digits (seed_lt amult x 1), seed_add]
            have chopped : toInt (fl.mul ((2 ^ b : ℕ) : ℚ) (uniform (seed amult x 2))) =
                some ((position b x : ℕ) : ℤ) := toInt_scaled fl digits few (seed_lt amult x 2)
            have next : ∀ {vec}, sprnvc n nz (2 ^ b) (draws k (seed amult x 2)) vec =
                some (drawn, rest) → ∃ l ≤ k + 1, rest = draws (k + 1 - l) (seed amult x (2 * l)) ∧
                  sprnvcLoop fl n nz (2 ^ b) turns (seed amult x 2 : ℚ) vec =
                    some (drawn, (seed amult x (2 * l) : ℚ)) := by
              intro vec returned
              obtain ⟨l, le, left, result⟩ := ih (seed_lt _ _ _) returned (by omega)
              rw [seed_add, add_comm, ← Nat.mul_succ] at left result
              exact ⟨l + 1, by omega, by rwa [Nat.add_sub_add_right], result⟩
            rw [sprnvcLoop, if_pos missing]
            simp only [first, second, Option.bind_eq_bind, Option.bind_some, chopped,
              Int.toNat_natCast]
            by_cases outside : n < position b x + 1
            · rw [sprnvc_refused (few.trans (by decide)) missing (Or.inl outside)] at returned
              rw [if_pos outside]
              exact next returned
            · rw [if_neg outside]
              by_cases present : position b x + 1 ∈ keys vec
              · rw [sprnvc_refused (few.trans (by decide)) missing (Or.inr present)] at returned
                rw [if_pos present]
                exact next returned
              · rw [sprnvc_accepted (few.trans (by decide)) missing (Nat.not_lt.mp outside)
                  present] at returned
                rw [if_neg present]
                exact next returned
      · have stopped : vec = drawn ∧ draws k x = rest := by
          cases k with
          | zero =>
              rw [draws, sprnvc, if_neg missing] at returned
              exact Prod.mk.inj (Option.some.inj returned)
          | succ k =>
              rw [draws, sprnvc, if_neg missing] at returned
              exact Prod.mk.inj (Option.some.inj returned)
        obtain ⟨rfl, rfl⟩ := stopped
        refine ⟨0, Nat.zero_le k, ?_, ?_⟩
        · rw [Nat.mul_zero, seed_zero small, Nat.sub_zero]
        · rw [sprnvcLoop, if_neg missing, Nat.mul_zero, seed_zero small]

/-- **A ULT stores those rows that are its own.** -/
theorem makeRows_eq (few : b ≤ 30) {k turns ilow count : ℕ} {rest : List (ℚ × ℚ)}
    {rows : List (List (ℕ × ℚ))} (small : x < 2 ^ 46)
    (returned : generateRows n nz (2 ^ b) (1 / 2) (draws k x) count = some (rows, rest))
    (enough : k ≤ turns) :
    ∃ l ≤ k, rest = draws (k - l) (seed amult x (2 * l)) ∧
      makeRows fl n nz (2 ^ b) turns ilow x count =
        some (rows.zipIdx.filter (ilow ≤ ·.2), (seed amult x (2 * l) : ℚ)) := by
  induction count generalizing rows rest with
  | zero =>
      obtain ⟨rfl, rfl⟩ := Prod.mk.inj (Option.some.inj returned)
      refine ⟨0, Nat.zero_le k, ?_, ?_⟩
      · rw [Nat.mul_zero, seed_zero small, Nat.sub_zero]
      · rw [makeRows, Nat.mul_zero, seed_zero small]
        rfl
  | succ count ih =>
      obtain ⟨⟨sofar, left⟩, earlier, last⟩ := Option.bind_eq_some_iff.mp returned
      obtain ⟨⟨next, after⟩, generated, same⟩ := Option.map_eq_some_iff.mp last
      obtain ⟨⟨vec, unused⟩, drawn, row⟩ := Option.map_eq_some_iff.mp generated
      obtain ⟨rfl, rfl⟩ := Prod.mk.inj same
      obtain ⟨rfl, rfl⟩ := Prod.mk.inj row
      obtain ⟨length, -⟩ := generateRows_spec earlier
      obtain ⟨l, le, rfl, stored⟩ := ih earlier
      obtain ⟨j, le', rfl, result⟩ :=
        sprnvcLoop_eq fl digits few (seed_lt amult x (2 * l)) drawn ((Nat.sub_le k l).trans enough)
      refine ⟨l + j, by omega, ?_, ?_⟩
      · rw [seed_add, Nat.sub_sub, ← mul_add]
      · rw [makeRows, stored, List.zipIdx_append, List.filter_append]
        simp only [Option.bind_eq_bind, Option.bind_some, result, seed_add, ← mul_add, length]
        split_ifs with own
        · simp [own]
        · simp [own]

end Digits

/-! ## The rows of all the ULTs -/

theorem foldl_storeRow {rows : List (List (ℕ × ℚ))} {order : List (List (ℕ × ℚ) × ℕ)}
    (right : ∀ item ∈ order, rows[item.2]? = some item.1) (lists : ℕ → List (ℕ × ℚ)) {i : ℕ}
    (stored : rows[i]? = some (lists i) ∨ i ∈ order.map Prod.snd) :
    rows[i]? = some (order.foldl storeRow lists i) := by
  induction order generalizing lists with
  | nil =>
      rcases stored with old | member
      · exact old
      · cases member
  | cons item order ih =>
      rw [List.foldl_cons]
      apply ih fun later member => right later (List.mem_cons_of_mem item member)
      by_cases same : i = item.2
      · left
        rw [storeRow, same, Function.update_self]
        exact right item List.mem_cons_self
      · rw [storeRow, Function.update_of_ne same]
        rcases stored with old | member
        · exact Or.inl old
        · rw [List.map_cons, List.mem_cons] at member
          exact Or.inr (member.resolve_left same)

/-- **Every ULT returns, and together they store the rows that one would**, if there are not too
many, and otherwise every ULT exits.  Each row is what `sparse` asks for: it has different columns,
its own among them, and fits in the arrays. -/
theorem rows_stored (problem : Problem ℚ) (bound : problem.n ≤ 2 ^ 30)
    (enough : problem.nonzer ≤ problem.n) :
    ∃ (rows : List (List (ℕ × ℚ))) (turns : ℕ), rows.length = problem.n ∧
      (∀ i row, rows[i]? = some row → (keys row).Nodup ∧ i ∈ keys row ∧
        (∀ k ∈ keys row, k < problem.n) ∧ row.length ≤ problem.nonzer + 1) ∧
      ∀ {p : ℕ} (fl : Rounding p), 47 ≤ p → ∀ numThreads, 0 < numThreads →
        (problem.maxThreads < numThreads → ∀ thread turns,
          generate fl problem numThreads thread turns = some .exits) ∧
        (numThreads ≤ problem.maxThreads → ∃ stored : ℕ → List (List (ℕ × ℚ) × ℕ),
          (∀ thread, ∃ seed, generate fl problem numThreads thread turns =
            some (.rows (stored thread) seed)) ∧
          ∀ order : List (List (ℕ × ℚ) × ℕ), order.Perm ((List.range numThreads).flatMap stored) →
            ∀ lists, ∀ i < problem.n, rows[i]? = some (order.foldl storeRow lists i)) := by
  obtain ⟨b, power, above, few⟩ := nn1_eq bound
  have odd : Odd (seed amult tran 1) := seed_mod_two (by decide) 1
  have small := seed_lt amult tran 1
  obtain ⟨k, rows, returned⟩ := generateRows_returns few above enough odd small problem.n
  obtain ⟨length, each⟩ := generateRows_spec returned
  refine ⟨rows, k, length, fun i row there => ?_, fun fl digits numThreads positive => ?_⟩
  · have below : i < problem.n := length ▸ (List.getElem?_eq_some_iff.mp there).1
    obtain ⟨before, after, generated⟩ := each i row there
    exact generateRow_spec below generated
  · refine ⟨fun many thread turns => ?_, fun allowed => ?_⟩
    · rw [generate, randlc_seed fl digits (by decide), Option.bind_eq_bind, Option.bind_some]
      exact if_pos many
    refine ⟨fun thread => ((rows.take (ihigh problem numThreads thread)).zipIdx).filter
      (ilow problem numThreads thread ≤ ·.2), fun thread => ?_, ?_⟩
    · obtain ⟨left, fewer⟩ := generateRows_take returned (ihigh_le problem numThreads thread)
      obtain ⟨l, -, -, result⟩ := makeRows_eq fl digits few small fewer le_rfl
      refine ⟨(seed amult (seed amult tran 1) (2 * l) : ℚ), ?_⟩
      rw [generate, randlc_seed fl digits (by decide), power, Option.bind_eq_bind,
        Option.bind_some]
      refine (if_neg (Nat.not_lt.mpr allowed)).trans ?_
      rw [result]
      rfl
    · intro order same lists i below
      apply foldl_storeRow
      · intro item member
        obtain ⟨thread, -, inside⟩ := List.mem_flatMap.mp (same.mem_iff.mp member)
        have there := List.mem_zipIdx_iff_getElem?.mp (List.mem_filter.mp inside).1
        rw [List.getElem?_take] at there
        split_ifs at there
        exact there
      · right
        obtain ⟨thread, low, high⟩ := exists_thread problem positive below
        have there : (rows.take (ihigh problem numThreads thread))[i]? = rows[i]? :=
          List.getElem?_take_of_lt high
        obtain ⟨row, stored⟩ : ∃ row, rows[i]? = some row :=
          ⟨rows[i], List.getElem?_eq_getElem (length ▸ below)⟩
        refine List.mem_map.mpr ⟨(row, i), same.mem_iff.mpr ?_, rfl⟩
        refine List.mem_flatMap.mpr ⟨thread, List.mem_range.mpr thread.isLt, ?_⟩
        refine List.mem_filter.mpr ⟨?_, decide_eq_true low⟩
        rw [List.mem_zipIdx_iff_getElem?, there, stored]

/-- A small matrix -/
def eightRows : Problem ℚ where
  n := 8
  nonzer := 2
  maxThreads := 4
  row _ := []
  row_length _ := Nat.zero_le _
  rcond := 1 / 10
  shift := 10
  ratio := 1

theorem rows_stored_eightRows :
    ∃ (rows : List (List (ℕ × ℚ))) (turns : ℕ), rows.length = 8 ∧
      (∀ i row, rows[i]? = some row → (keys row).Nodup ∧ i ∈ keys row ∧
        (∀ k ∈ keys row, k < 8) ∧ row.length ≤ 3) ∧
      ∀ {p : ℕ} (fl : Rounding p), 47 ≤ p → ∀ numThreads, 0 < numThreads →
        (4 < numThreads → ∀ thread turns,
          generate fl eightRows numThreads thread turns = some .exits) ∧
        (numThreads ≤ 4 → ∃ stored : ℕ → List (List (ℕ × ℚ) × ℕ),
          (∀ thread, ∃ seed, generate fl eightRows numThreads thread turns =
            some (.rows (stored thread) seed)) ∧
          ∀ order : List (List (ℕ × ℚ) × ℕ), order.Perm ((List.range numThreads).flatMap stored) →
            ∀ lists, ∀ i < 8, rows[i]? = some (order.foldl storeRow lists i)) :=
  rows_stored eightRows (by decide) (by decide)

end ArgobotsReduction.ConjugateGradient.Generator
