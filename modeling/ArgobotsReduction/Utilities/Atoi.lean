import Mathlib.Tactic.Ring
import ArgobotsReduction.Grammars.Numerals
import ArgobotsReduction.Grammars.Recognizers

/-!
# Numbers in strings

Argobots reads numbers with functions of its own.  A loop over the string skips blanks,
flips the sign with every minus, and collects the digits in 64 bits without a sign.  It
stops early where the next digit would pass the limit of 64 bits.  The functions for the
four types only clamp what the loop returns.

A string is what is left of it, and its end stands for the terminator.  The loop also
says whether a product or a sum of it has wrapped, which the program does not keep.
The overflow flag is stored where the caller asks for it.
-/

set_option autoImplicit false

namespace ArgobotsReduction.Utilities

open Numerals

/-! ## The loop -/

/-- The error codes of the parsers -/
inductive Code where
  /-- `ABT_ERR_INV_ARG` -/
  | invArg
  deriving DecidableEq

/-- `UINT64_MAX` -/
def uint64Max : ℕ := 2 ^ 64 - 1

/-- A value that is stored in a `uint64_t` -/
def asUint64 (n : ℕ) : ℕ := n % 2 ^ 64

/-- What `atoi_impl` stores: the sign, the value and the overflow flag -/
structure Scanned where
  isSigned : Bool
  val : ℕ
  overflow : Bool
  deriving DecidableEq

/-- The variables of the loop of `atoi_impl`, and whether a product or a sum has wrapped -/
structure Scan where
  val : ℕ := 0
  isSigned : Bool := false
  readChar : Bool := false
  readDigit : Bool := false
  wrapped : Bool := false

/-- The result of an operation is kept, and whether it has wrapped. -/
def Scan.store (s : Scan) (exact : ℕ) : Scan :=
  { s with val := asUint64 exact, wrapped := s.wrapped || asUint64 exact ≠ exact }

/-- The next digit would pass the limit. -/
def Scan.overflows (s : Scan) : Except Code Scanned × Bool :=
  (.ok ⟨s.isSigned, uint64Max, true⟩, s.wrapped)

/-- The end of the number -/
def Scan.stop (s : Scan) : Except Code Scanned × Bool :=
  (if s.readDigit = false then .error .invArg else .ok ⟨s.isSigned, s.val, false⟩, s.wrapped)

def isBlank (c : Char) : Bool := c = '\n' ∨ c = '\t' ∨ c = ' ' ∨ c = '\r'

def isSign (c : Char) : Bool := c = '+' ∨ c = '-'

def isDigit (c : Char) : Bool := '0' ≤ c ∧ c ≤ '9'

/-- The value of a digit -/
def digit (c : Char) : ℕ := c.toNat - '0'.toNat

/-- The loop of `atoi_impl` -/
def atoiImplLoop : List Char → Scan → Except Code Scanned × Bool
  | [], s => s.stop
  | c :: str, s =>
      if isBlank c ∧ s.readChar = false then atoiImplLoop str s
      else if c = '+' ∧ s.readDigit = false then atoiImplLoop str { s with readChar := true }
      else if c = '-' ∧ s.readDigit = false then
        atoiImplLoop str { s with readChar := true, isSigned := !s.isSigned }
      else if isDigit c then
        if uint64Max / 10 < s.val then s.overflows
        else
          -- The second test multiplies.
          let product := s.store (s.val * 10)
          if uint64Max - digit c < product.val then product.overflows
          else
            atoiImplLoop str
              { product.store (product.val + digit c) with readChar := true, readDigit := true }
      else s.stop

/-- `atoi_impl` -/
def atoiImpl (str : List Char) : Except Code Scanned := (atoiImplLoop str {}).1

/-- Whether a product or a sum of `atoi_impl` has wrapped -/
def atoiImplWraps (str : List Char) : Bool := (atoiImplLoop str {}).2

/-! ## The types -/

/-- A value that is stored in an `int` -/
def asInt32 (x : ℤ) : ℤ := x.bmod (2 ^ 32)

/-- A value that is stored in an `int64_t` -/
def asInt64 (x : ℤ) : ℤ := x.bmod (2 ^ 64)

/-- `INT_MIN` -/
def intMin : ℤ := -2 ^ 31

/-- `INT_MAX` -/
def intMax : ℤ := 2 ^ 31 - 1

/-- `UINT32_MAX` -/
def uint32Max : ℕ := 2 ^ 32 - 1

/-- `ABTU_atoi` -/
def atoi (str : List Char) : Except Code (ℤ × Bool) := do
  let s ← atoiImpl str
  if s.isSigned then
    if asInt64 (-intMin) < s.val then return (intMin, true)
    else return (asInt32 (asInt64 (-asInt64 s.val)), s.overflow)
  else if intMax < s.val then return (intMax, true)
  else return (asInt32 s.val, s.overflow)

/-- `ABTU_atoui32` -/
def atoui32 (str : List Char) : Except Code (ℕ × Bool) := do
  let s ← atoiImpl str
  if s.isSigned then return (0, if s.val ≠ 0 then true else s.overflow)
  else if uint32Max < s.val then return (uint32Max, true)
  else return (s.val % 2 ^ 32, s.overflow)

/-- `ABTU_atoui64` -/
def atoui64 (str : List Char) : Except Code (ℕ × Bool) := do
  let s ← atoiImpl str
  if s.isSigned then return (0, if s.val ≠ 0 then true else s.overflow)
  else return (s.val, s.overflow)

/-- `ABTU_atosz`, where a `size_t` has some bytes -/
def atosz (sizeofSize : ℕ) (str : List Char) : Except Code (ℕ × Bool) := do
  if sizeofSize = 4 then
    let (val, overflow) ← atoui32 str
    return (val % 2 ^ 32, overflow)
  else
    let (val, overflow) ← atoui64 str
    return (val % 2 ^ 64, overflow)

/-! ## Numerals -/

/-- The string begins with a numeral: blanks, signs and at least one digit. -/
def HasNumeral (str : List Char) : Prop :=
  ∃ space signs digits : List Char, space ++ signs ++ digits <+: str ∧
    (∀ c ∈ space, isBlank c) ∧ (∀ c ∈ signs, isSign c) ∧ (∀ c ∈ digits, isDigit c) ∧ digits ≠ []

/-- The signs and the digits of the numeral at the front of a string, which has all the digits
that follow one another. -/
structure IsNumeral (str signs digits : List Char) : Prop where
  spelled : ∃ space rest, str = space ++ (signs ++ (digits ++ rest)) ∧
    (∀ c ∈ space, isBlank c) ∧ ∀ c ∈ rest.head?, ¬ isDigit c
  areSigns : ∀ c ∈ signs, isSign c
  areDigits : ∀ c ∈ digits, isDigit c
  nonempty : digits ≠ []

/-- The value of the digits -/
def magnitude (digits : List Char) : ℕ := Nat.ofDigits 10 (digits.reverse.map digit)

/-- Every minus flips the sign. -/
def numeralValue (signs digits : List Char) : ℤ :=
  (-1) ^ signs.count '-' * magnitude digits

theorem HasNumeral.exists_isNumeral {str : List Char} (begins : HasNumeral str) :
    ∃ signs digits, IsNumeral str signs digits := by
  obtain ⟨space, signs, digits, ⟨rest, rfl⟩, blanks, areSigns, areDigits, nonempty⟩ := begins
  refine ⟨signs, digits ++ rest.takeWhile isDigit, ⟨space, rest.dropWhile isDigit, ?_, blanks, ?_⟩,
    areSigns, ?_, ?_⟩
  · simp only [List.append_assoc, List.takeWhile_append_dropWhile]
  · intro c first
    have stops := List.head?_dropWhile_not isDigit rest
    rw [Option.mem_def.mp first] at stops
    simpa using stops
  · intro c member
    rcases List.mem_append.mp member with inDigits | inRest
    · exact areDigits c inDigits
    · exact List.all_eq_true.mp List.all_takeWhile c inRest
  · intro empty
    exact nonempty (List.append_eq_nil_iff.mp empty).1

/-! ## What the loop reads -/

theorem asUint64_of_le {n : ℕ} (fits : n ≤ uint64Max) : asUint64 n = n :=
  Nat.mod_eq_of_lt (by unfold uint64Max at fits; omega)

theorem Scan.store_of_le {s : Scan} {exact : ℕ} (fits : exact ≤ uint64Max) :
    s.store exact = { s with val := exact } := by
  simp [store, asUint64_of_le fits]

theorem isDigit_iff {c : Char} : isDigit c ↔ '0' ≤ c ∧ c ≤ '9' := by
  simp [isDigit]

theorem digit_le {c : Char} (isDig : isDigit c) : digit c ≤ 9 := by
  have below : c.toNat ≤ '9'.toNat := (isDigit_iff.mp isDig).2
  have nine : '9'.toNat - '0'.toNat = 9 := rfl
  unfold digit
  omega

theorem not_isDigit_of_isBlank {c : Char} (blank : isBlank c) : ¬ isDigit c := by
  simp only [isBlank, decide_eq_true_eq] at blank
  rcases blank with rfl | rfl | rfl | rfl <;> decide

theorem not_isBlank_of_isSign {c : Char} (sign : isSign c) : ¬ isBlank c := by
  simp only [isSign, decide_eq_true_eq] at sign
  rcases sign with rfl | rfl <;> decide

/-- What the digits give from a value on -/
def Scan.result (s : Scan) (value : ℕ) : Except Code Scanned :=
  .ok (if value ≤ uint64Max then ⟨s.isSigned, value, false⟩ else ⟨s.isSigned, uint64Max, true⟩)

/-- **The digits are read to their end, or to the limit.** -/
theorem atoiImplLoop_digits {rest : List Char} (ends : ∀ c ∈ rest.head?, ¬ isDigit c)
    {digits : List Char} (areDigits : ∀ c ∈ digits, isDigit c) (s : Scan)
    (started : digits = [] → s.readChar ∧ s.readDigit) (fits : s.val ≤ uint64Max) :
    (atoiImplLoop (digits ++ rest) s).1 = s.result (horner 10 s.val (digits.map digit)) := by
  induction digits generalizing s with
  | nil =>
      obtain ⟨charRead, digitRead⟩ := started rfl
      have stops : atoiImplLoop rest s = s.stop := by
        cases rest with
        | nil => rfl
        | cons c rest =>
            have notDigit : ¬ isDigit c := ends c rfl
            simp [atoiImplLoop, charRead, digitRead, notDigit]
      rw [List.nil_append, stops, List.map_nil, horner_nil, Scan.stop, Scan.result, if_pos fits,
        if_neg (by simp [digitRead])]
  | cons c digits ih =>
      have isDig : isDigit c := areDigits c List.mem_cons_self
      have notBlank : ¬ isBlank c := fun blank => not_isDigit_of_isBlank blank isDig
      have notPlus : c ≠ '+' := by
        rintro rfl
        exact absurd isDig (by decide)
      have notMinus : c ≠ '-' := by
        rintro rfl
        exact absurd isDig (by decide)
      have small : digit c ≤ uint64Max := (digit_le isDig).trans (by decide)
      have grows : s.val * 10 + digit c ≤
          horner 10 (s.val * 10 + digit c) (digits.map digit) := le_horner (by decide) _ _
      have passes : uint64Max < s.val * 10 + digit c ↔
          uint64Max / 10 < s.val ∨ uint64Max - digit c < s.val * 10 := passes_iff (by decide) small
      rw [List.cons_append, atoiImplLoop, if_neg fun blank => notBlank blank.1,
        if_neg fun plus => notPlus plus.1, if_neg fun minus => notMinus minus.1, if_pos isDig,
        List.map_cons, horner_cons]
      by_cases quotient : uint64Max / 10 < s.val
      · have exceeded := passes.mpr (.inl quotient)
        rw [if_pos quotient, Scan.overflows, Scan.result, if_neg (exceeded.trans_le grows).not_ge]
      rw [if_neg quotient, Scan.store_of_le (product_le quotient)]
      by_cases product : uint64Max - digit c < s.val * 10
      · have exceeded := passes.mpr (.inr product)
        rw [if_pos product, Scan.overflows, Scan.result, if_neg (exceeded.trans_le grows).not_ge]
      have within : s.val * 10 + digit c ≤ uint64Max :=
        Nat.not_lt.mp fun exceeded => (passes.mp exceeded).elim quotient product
      dsimp only
      rw [if_neg product, Scan.store_of_le within]
      exact ih (fun d member => areDigits d (List.mem_cons_of_mem _ member)) _
        (fun _ => ⟨rfl, rfl⟩) within

theorem atoiImplLoop_signs {digits rest : List Char} (ends : ∀ c ∈ rest.head?, ¬ isDigit c)
    (areDigits : ∀ c ∈ digits, isDigit c) (nonempty : digits ≠ []) {signs : List Char}
    (areSigns : ∀ c ∈ signs, isSign c) (s : Scan) (noDigit : s.readDigit = false)
    (fits : s.val ≤ uint64Max) :
    (atoiImplLoop (signs ++ (digits ++ rest)) s).1 =
      Scan.result { s with isSigned := s.isSigned ^^ decide (signs.count '-' % 2 = 1) }
        (horner 10 s.val (digits.map digit)) := by
  induction signs generalizing s with
  | nil =>
      rw [List.nil_append, atoiImplLoop_digits ends areDigits s (fun none => absurd none nonempty)
        fits]
      simp [Scan.result]
  | cons c signs ih =>
      have later : ∀ d ∈ signs, isSign d := fun d member =>
        areSigns d (List.mem_cons_of_mem _ member)
      have sign := areSigns c List.mem_cons_self
      have notBlank := not_isBlank_of_isSign sign
      rw [List.cons_append, atoiImplLoop, if_neg fun blank => notBlank blank.1]
      simp only [isSign, decide_eq_true_eq] at sign
      rcases sign with rfl | rfl
      · rw [if_pos ⟨rfl, noDigit⟩, ih later { s with readChar := true } noDigit fits]
        simp [Scan.result]
      · rw [if_neg (by simp), if_pos ⟨rfl, noDigit⟩,
          ih later { s with readChar := true, isSigned := !s.isSigned } noDigit fits]
        have flips : (!s.isSigned ^^ decide (signs.count '-' % 2 = 1)) =
            (s.isSigned ^^ decide ((signs.count '-' + 1) % 2 = 1)) := by
          rcases Nat.mod_two_eq_zero_or_one (signs.count '-') with even | odd
          · simp [Nat.add_mod, even]
          · simp [Nat.add_mod, odd]
        simp only [Scan.result, List.count_cons_self, flips]

theorem atoiImplLoop_space {space : List Char} (blanks : ∀ c ∈ space, isBlank c)
    (str : List Char) : atoiImplLoop (space ++ str) {} = atoiImplLoop str {} := by
  have skips : ∀ c, isBlank c → ∀ str, atoiImplLoop (c :: str) {} = atoiImplLoop str {} := by
    intro c blank str
    rw [atoiImplLoop, if_pos ⟨blank, rfl⟩]
  exact @Grammars.skip_blanks Char _ (fun c => isBlank c) (atoiImplLoop · {}) skips _ blanks str

theorem atoiImpl_of_isNumeral {str signs digits : List Char}
    (numeral : IsNumeral str signs digits) :
    atoiImpl str =
      Scan.result { isSigned := decide (signs.count '-' % 2 = 1) } (magnitude digits) := by
  obtain ⟨space, rest, rfl, blanks, ends⟩ := numeral.spelled
  rw [atoiImpl, atoiImplLoop_space blanks, atoiImplLoop_signs ends numeral.areDigits numeral.nonempty
    numeral.areSigns _ rfl (Nat.zero_le _), horner_zero, magnitude, List.map_reverse]
  simp

/-- **Where the loop returns a number, the string begins with a numeral.** -/
theorem exists_of_atoiImplLoop {str : List Char} {s : Scan} {r : Scanned}
    (noDigit : s.readDigit = false) (returned : (atoiImplLoop str s).1 = .ok r) :
    ∃ space signs digits : List Char, space ++ signs ++ digits <+: str ∧
      (∀ c ∈ space, isBlank c) ∧ (∀ c ∈ signs, isSign c) ∧ (∀ c ∈ digits, isDigit c) ∧
      digits ≠ [] ∧ (s.readChar → space = []) := by
  induction str generalizing s with
  | nil => simp [atoiImplLoop, Scan.stop, noDigit] at returned
  | cons c str ih =>
      rw [atoiImplLoop] at returned
      split_ifs at returned with blank plus minus isDig
      · obtain ⟨space, signs, digits, front, blanks, others, areDigits, nonempty, -⟩ :=
          ih noDigit returned
        refine ⟨c :: space, signs, digits, ?_, List.forall_mem_cons.mpr ⟨blank.1, blanks⟩, others,
          areDigits, nonempty, fun charRead => ?_⟩
        · simpa using front
        · simp [blank.2] at charRead
      · obtain ⟨space, signs, digits, front, blanks, others, areDigits, nonempty, none⟩ :=
          ih (s := { s with readChar := true }) noDigit returned
        cases none rfl
        exact ⟨[], c :: signs, digits, by simpa using front, by simp,
          List.forall_mem_cons.mpr ⟨by simp [isSign, plus.1], others⟩, areDigits, nonempty,
          fun _ => rfl⟩
      · obtain ⟨space, signs, digits, front, blanks, others, areDigits, nonempty, none⟩ :=
          ih (s := { s with readChar := true, isSigned := !s.isSigned }) noDigit returned
        cases none rfl
        exact ⟨[], c :: signs, digits, by simpa using front, by simp,
          List.forall_mem_cons.mpr ⟨by simp [isSign, minus.1], others⟩, areDigits, nonempty,
          fun _ => rfl⟩
      all_goals first
        | exact ⟨[], [], [c], by simp, by simp, by simp, by simpa using isDig, by simp,
            fun _ => rfl⟩
        | simp [Scan.stop, noDigit] at returned

/-- **The functions reject exactly the strings that do not begin with a numeral.** -/
theorem atoiImpl_eq_error_iff {str : List Char} :
    atoiImpl str = .error .invArg ↔ ¬ HasNumeral str := by
  constructor
  · intro rejected begins
    obtain ⟨signs, digits, numeral⟩ := begins.exists_isNumeral
    rw [atoiImpl_of_isNumeral numeral] at rejected
    cases rejected
  · intro noNumeral
    cases returned : atoiImpl str with
    | error code =>
        cases code
        rfl
    | ok r =>
        obtain ⟨space, signs, digits, front, blanks, others, areDigits, nonempty, -⟩ :=
          exists_of_atoiImplLoop (s := {}) rfl returned
        exact absurd ⟨space, signs, digits, front, blanks, others, areDigits, nonempty⟩ noNumeral

/-- **No product and no sum of the loop wraps.** -/
theorem atoiImplLoop_wrapped (str : List Char) (s : Scan) (fits : s.val ≤ uint64Max) :
    (atoiImplLoop str s).2 = s.wrapped := by
  induction str generalizing s with
  | nil => rfl
  | cons c str ih =>
      rw [atoiImplLoop]
      split_ifs with blank plus minus isDig quotient
      · exact ih s fits
      · exact ih { s with readChar := true } fits
      · exact ih { s with readChar := true, isSigned := !s.isSigned } fits
      · rfl
      · have small : digit c ≤ uint64Max := (digit_le isDig).trans (by decide)
        rw [Scan.store_of_le (product_le quotient)]
        dsimp only
        split_ifs with product
        · rfl
        · have within : s.val * 10 + digit c ≤ uint64Max := by omega
          rw [Scan.store_of_le within]
          exact ih _ within
      · rfl

/-! ## The types -/

/-- A parser is exact for a type with the values of an interval. -/
structure Exact (parse : List Char → Except Code (ℤ × Bool)) (low high : ℤ) : Prop where
  accepts (str : List Char) : (∃ r, parse str = .ok r) ↔ HasNumeral str
  rejects (str : List Char) : parse str = .error .invArg ↔ ¬ HasNumeral str
  value {str signs digits : List Char} : IsNumeral str signs digits →
    parse str = .ok (clamp low high (numeralValue signs digits),
      decide (clamp low high (numeralValue signs digits) ≠ numeralValue signs digits))

/-- The value with the sign -/
def signed (isSigned : Bool) (n : ℕ) : ℤ := if isSigned then -n else n

theorem numeralValue_eq (signs digits : List Char) :
    numeralValue signs digits = signed (decide (signs.count '-' % 2 = 1)) (magnitude digits) := by
  rcases Nat.mod_two_eq_zero_or_one (signs.count '-') with even | odd
  · simp [numeralValue, signed, even, Even.neg_one_pow (Nat.even_iff.mpr even)]
  · simp [numeralValue, signed, odd, Odd.neg_one_pow (Nat.odd_iff.mpr odd)]

/-- **A parser is exact where it is exact on what the loop returns.** -/
theorem Exact.of_scanned {parse : List Char → Except Code (ℤ × Bool)} {low high : ℤ}
    (store : Scanned → ℤ × Bool) (eq : ∀ str, parse str = (atoiImpl str).map store)
    (stores : ∀ (isSigned : Bool) (n : ℕ),
      store (if n ≤ uint64Max then ⟨isSigned, n, false⟩ else ⟨isSigned, uint64Max, true⟩) =
        (clamp low high (signed isSigned n),
          decide (clamp low high (signed isSigned n) ≠ signed isSigned n))) :
    Exact parse low high where
  accepts str := by
    rw [eq, ← not_iff_not, ← atoiImpl_eq_error_iff]
    cases atoiImpl str with
    | error code =>
        cases code
        exact ⟨fun _ => rfl, fun _ => nofun⟩
    | ok r => exact ⟨fun none => absurd ⟨store r, rfl⟩ none, nofun⟩
  rejects str := by
    rw [eq, ← atoiImpl_eq_error_iff]
    cases atoiImpl str with
    | error code =>
        cases code
        exact ⟨fun _ => rfl, fun _ => rfl⟩
    | ok r => exact ⟨nofun, nofun⟩
  value {str signs digits} numeral := by
    rw [eq, atoiImpl_of_isNumeral numeral, numeralValue_eq, ← stores]
    rfl

/-- A value that is not clamped, and the flag -/
theorem clamped_of_mem {low high x : ℤ} (above : low ≤ x) (below : x ≤ high) :
    (clamp low high x, decide (clamp low high x ≠ x)) = (x, false) := by
  simp [clamp_of_mem above below]

/-- A value that is clamped from below, and the flag -/
theorem clamped_of_lt {low high x : ℤ} (below : x < low) :
    (clamp low high x, decide (clamp low high x ≠ x)) = (low, true) := by
  simp [clamp_of_lt below, below.ne']

/-- A value that is clamped from above, and the flag -/
theorem clamped_of_gt {low high x : ℤ} (nonempty : low ≤ high) (above : high < x) :
    (clamp low high x, decide (clamp low high x ≠ x)) = (high, true) := by
  simp [clamp_of_gt nonempty above, above.ne]

theorem asInt64_of_le {x : ℤ} (above : -2 ^ 31 ≤ x) (below : x ≤ 2 ^ 31) : asInt64 x = x :=
  Int.bmod_eq_of_le (by omega) (by omega)

theorem asInt32_of_le {x : ℤ} (above : intMin ≤ x) (below : x ≤ intMax) : asInt32 x = x := by
  unfold intMin at above
  unfold intMax at below
  exact Int.bmod_eq_of_le (by omega) (by omega)

/-- What `ABTU_atoi` stores -/
def storeInt (s : Scanned) : ℤ × Bool :=
  if s.isSigned then
    if asInt64 (-intMin) < s.val then (intMin, true)
    else (asInt32 (asInt64 (-asInt64 s.val)), s.overflow)
  else if intMax < s.val then (intMax, true)
  else (asInt32 s.val, s.overflow)

theorem atoi_eq (str : List Char) : atoi str = (atoiImpl str).map storeInt := by
  cases returned : atoiImpl str with
  | error code => simp [atoi, returned, Except.map, bind, Except.bind]
  | ok r =>
      simp only [atoi, returned, bind, Except.bind, Except.map, pure, Except.pure, storeInt]
      split_ifs <;> rfl

theorem storeInt_negative (n : ℕ) (overflow : Bool) (flag : overflow → 2 ^ 31 < n) :
    storeInt ⟨true, n, overflow⟩ =
      (clamp intMin intMax (-n), decide (clamp intMin intMax (-n) ≠ -n)) := by
  have low : intMin = -2 ^ 31 := rfl
  have high : intMax = 2 ^ 31 - 1 := rfl
  have limit : asInt64 (-intMin) = 2 ^ 31 := rfl
  rw [storeInt, if_pos rfl, limit]
  dsimp only
  split_ifs with large
  · rw [clamped_of_lt (by omega)]
  · have inside : overflow = false := by
      cases overflow with
      | false => rfl
      | true => exact absurd (flag rfl) (by omega)
    rw [asInt64_of_le (x := n) (by omega) (by omega), asInt64_of_le (by omega) (by omega),
      asInt32_of_le (by omega) (by omega), clamped_of_mem (by omega) (by omega), inside]

theorem storeInt_positive (n : ℕ) (overflow : Bool) (flag : overflow → 2 ^ 31 < n) :
    storeInt ⟨false, n, overflow⟩ =
      (clamp intMin intMax n, decide (clamp intMin intMax n ≠ n)) := by
  have low : intMin = -2 ^ 31 := rfl
  have high : intMax = 2 ^ 31 - 1 := rfl
  rw [storeInt, if_neg Bool.false_ne_true]
  dsimp only
  split_ifs with large
  · rw [clamped_of_gt (by omega) large]
  · have inside : overflow = false := by
      cases overflow with
      | false => rfl
      | true => exact absurd (flag rfl) (by omega)
    rw [asInt32_of_le (by omega) (by omega), clamped_of_mem (by omega) (by omega), inside]

/-- **`ABTU_atoi` is exact.** -/
theorem exact_atoi : Exact atoi intMin intMax := by
  have low : intMin = -2 ^ 31 := rfl
  have high : intMax = 2 ^ 31 - 1 := rfl
  have limit : uint64Max = 2 ^ 64 - 1 := rfl
  refine .of_scanned storeInt atoi_eq fun isSigned n => ?_
  by_cases fits : n ≤ uint64Max
  · rw [if_pos fits]
    cases isSigned with
    | false => exact storeInt_positive n false nofun
    | true => exact storeInt_negative n false nofun
  · rw [if_neg fits]
    cases isSigned with
    | false =>
        rw [storeInt_positive _ true fun _ => by omega, clamped_of_gt (by omega) (by omega), signed,
          if_neg Bool.false_ne_true, clamped_of_gt (by omega) (by omega)]
    | true =>
        rw [storeInt_negative _ true fun _ => by omega, clamped_of_lt (by omega), signed,
          if_pos rfl, clamped_of_lt (by omega)]

/-- What the other parsers store: a number without a sign, up to a limit -/
def storeUint (limit : ℕ) (s : Scanned) : ℕ × Bool :=
  if s.isSigned then (0, if s.val ≠ 0 then true else s.overflow)
  else if limit < s.val then (limit, true)
  else (s.val, s.overflow)

/-- A number without a sign, as an integer -/
def asInteger (parse : List Char → Except Code (ℕ × Bool)) (str : List Char) :
    Except Code (ℤ × Bool) :=
  (parse str).map fun (val, overflow) => ((val : ℤ), overflow)

/-- **A parser of an unsigned type is exact.** -/
theorem exact_of_storeUint {limit : ℕ} (atMost : limit ≤ uint64Max)
    {parse : List Char → Except Code (ℕ × Bool)}
    (eq : ∀ str, parse str = (atoiImpl str).map (storeUint limit)) :
    Exact (asInteger parse) 0 limit := by
  have positive : 0 < uint64Max := by decide
  refine .of_scanned (fun s => ((storeUint limit s).1, (storeUint limit s).2)) (fun str => ?_)
    fun isSigned n => ?_
  · rw [asInteger, eq]
    cases atoiImpl str with
    | error code => rfl
    | ok r => rfl
  · cases isSigned with
    | true =>
        rw [signed, if_pos rfl]
        by_cases zero : n = 0
        · subst zero
          rw [clamped_of_mem (by omega) (by omega)]
          rfl
        · rw [clamped_of_lt (by omega)]
          split_ifs with fits
          · simp [storeUint, zero]
          · simp [storeUint]
    | false =>
        rw [signed, if_neg Bool.false_ne_true]
        by_cases fits : n ≤ uint64Max
        · rw [if_pos fits, storeUint, if_neg Bool.false_ne_true]
          dsimp only
          split_ifs with large
          · rw [clamped_of_gt (by omega) (by omega)]
          · rw [clamped_of_mem (by omega) (by omega)]
        · rw [if_neg fits, clamped_of_gt (by omega) (by omega), storeUint,
            if_neg Bool.false_ne_true]
          dsimp only
          split_ifs with large
          · rfl
          · rw [show limit = uint64Max by omega]

theorem atoiImpl_val_le {str : List Char} {r : Scanned} (returned : atoiImpl str = .ok r) :
    r.val ≤ uint64Max := by
  have begins : HasNumeral str := by
    by_contra noNumeral
    rw [atoiImpl_eq_error_iff.mpr noNumeral] at returned
    cases returned
  obtain ⟨signs, digits, numeral⟩ := begins.exists_isNumeral
  rw [atoiImpl_of_isNumeral numeral] at returned
  cases returned
  dsimp only
  split_ifs with fits
  · exact fits
  · exact Nat.le_refl _

theorem atoui32_eq (str : List Char) :
    atoui32 str = (atoiImpl str).map (storeUint uint32Max) := by
  cases returned : atoiImpl str with
  | error code => simp [atoui32, returned, Except.map, bind, Except.bind]
  | ok r =>
      have limit : uint32Max = 2 ^ 32 - 1 := rfl
      simp only [atoui32, returned, bind, Except.bind, Except.map, pure, Except.pure, storeUint]
      split_ifs with negative nonzero large
      · rfl
      · rfl
      · rfl
      · rw [Nat.mod_eq_of_lt (by omega)]

theorem atoui64_eq (str : List Char) :
    atoui64 str = (atoiImpl str).map (storeUint uint64Max) := by
  cases returned : atoiImpl str with
  | error code => simp [atoui64, returned, Except.map, bind, Except.bind]
  | ok r =>
      have fits : ¬ uint64Max < r.val := Nat.not_lt.mpr (atoiImpl_val_le returned)
      simp only [atoui64, returned, bind, Except.bind, Except.map, pure, Except.pure, storeUint,
        if_neg fits]
      split_ifs <;> rfl

theorem storeUint_le (limit : ℕ) (s : Scanned) : (storeUint limit s).1 ≤ limit := by
  unfold storeUint
  split_ifs with negative nonzero large
  · exact Nat.zero_le limit
  · exact Nat.zero_le limit
  · exact Nat.le_refl limit
  · exact Nat.not_lt.mp large

theorem atosz_four_eq (str : List Char) :
    atosz 4 str = (atoiImpl str).map (storeUint uint32Max) := by
  rw [atosz, if_pos rfl, atoui32_eq]
  cases atoiImpl str with
  | error code => rfl
  | ok r =>
      have fits : (storeUint uint32Max r).1 < 2 ^ 32 := Nat.lt_succ_of_le (storeUint_le _ r)
      simp only [Except.map, bind, Except.bind, pure, Except.pure, Nat.mod_eq_of_lt fits]

theorem atosz_eight_eq (str : List Char) :
    atosz 8 str = (atoiImpl str).map (storeUint uint64Max) := by
  rw [atosz, if_neg (by decide), atoui64_eq]
  cases atoiImpl str with
  | error code => rfl
  | ok r =>
      have fits : (storeUint uint64Max r).1 < 2 ^ 64 := Nat.lt_succ_of_le (storeUint_le _ r)
      simp only [Except.map, bind, Except.bind, pure, Except.pure, Nat.mod_eq_of_lt fits]

/-- **The parsers accept exactly the numerals, and clamp their values to the types.**  No
product and no sum wraps. -/
theorem parsers_exact :
    Exact atoi intMin intMax ∧ Exact (asInteger atoui32) 0 uint32Max ∧
      Exact (asInteger atoui64) 0 uint64Max ∧ Exact (asInteger (atosz 4)) 0 uint32Max ∧
      Exact (asInteger (atosz 8)) 0 uint64Max ∧ ∀ str, atoiImplWraps str = false := by
  have short : uint32Max ≤ uint64Max := by decide
  refine ⟨exact_atoi, exact_of_storeUint short atoui32_eq,
    exact_of_storeUint (Nat.le_refl _) atoui64_eq, exact_of_storeUint short atosz_four_eq,
    exact_of_storeUint (Nat.le_refl _) atosz_eight_eq, fun str => ?_⟩
  exact atoiImplLoop_wrapped str {} (Nat.zero_le _)

end ArgobotsReduction.Utilities
