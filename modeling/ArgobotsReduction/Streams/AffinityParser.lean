import Mathlib.Algebra.Ring.Commute
import Mathlib.Algebra.Ring.Int.Defs
import Mathlib.Data.List.Range
import Mathlib.Tactic.Ring
import ArgobotsReduction.Streams.Affinity

/-!
# The affinity parser accepts its grammar

What a string denotes is found in two steps.  The tokens are read as intervals, and
every reader takes off exactly the phrases of its rule, since the token that comes next
always decides.  The intervals are then added to the lists, and the machine integers do
not wrap where the lists fit.
-/

set_option autoImplicit false

namespace ArgobotsReduction.Streams.Affinity

open Containers Grammars

universe u v

/-! ## Adding intervals -/

section Lists

/-- The number is of type `int`. -/
def IntFits (x : ℤ) : Prop := -2 ^ 31 ≤ x ∧ x < 2 ^ 31

theorem asInt_of_fits {x : ℤ} (fits : IntFits x) : asInt x = x := by
  obtain ⟨lower, upper⟩ := fits
  exact Int.bmod_eq_of_le (by omega) (by omega)

theorem IdList.length_toList (l : IdList) : l.toList.length = l.num := by simp [toList]

theorem AffinityList.length_toLists (l : AffinityList) : l.toLists.length = l.num := by
  simp [toLists]

/-- `id_list_add` appends an interval. -/
theorem IdList.toList_add {l : IdList} {id : ℤ} {num : ℕ} {stride : ℤ}
    (room : l.num + num < 2 ^ 32) (fits : ∀ i < num, IntFits (id + stride * i)) :
    (l.add id num stride).toList =
      l.toList ++ (List.range num).map fun i : ℕ => id + stride * i := by
  have place : ∀ i < num, asUint32 (l.num + i) = l.num + i := fun i below =>
    Nat.mod_eq_of_lt (by omega)
  have values : (List.range num).map (fun i : ℕ => asInt (id + stride * i)) =
      (List.range num).map fun i : ℕ => id + stride * i :=
    List.map_congr_left fun i member => asInt_of_fits (fits i (List.mem_range.mp member))
  rw [toList, add, asUint32, Nat.mod_eq_of_lt room, map_range_loop_store place, values, toList]

theorem IdList.toList_copy {base : IdList} {stride : ℤ} {i : ℕ}
    (fits : ∀ id ∈ base.toList, IntFits (id + stride * i)) :
    (base.copy stride i).toList = base.toList.map fun id => id + stride * i := by
  have stored := map_range_loop_store (n := 0) (m := base.num)
    (fun j _ => (Nat.zero_add j).symm) (fun j => asInt (base.ids j + stride * i)) fun _ => 0
  rw [Nat.zero_add, List.range_zero, List.map_nil, List.nil_append] at stored
  rw [toList, toList, copy, List.map_map]
  refine stored.trans (List.map_congr_left fun j member => ?_)
  exact asInt_of_fits (fits _ (List.mem_map_of_mem member))

/-- `list_add` appends an interval. -/
theorem AffinityList.toLists_add {l : AffinityList} {base : IdList} {num : ℕ} {stride : ℤ}
    (room : l.num + num < 2 ^ 32)
    (fits : ∀ i < num, ∀ id ∈ base.toList, IntFits (id + stride * i)) :
    (l.add base num stride).toLists =
      l.toLists ++ (List.range num).map fun i : ℕ => base.toList.map fun id => id + stride * i := by
  have place : ∀ i ∈ span 1 num, asUint32 (l.num + i) = l.num + i := fun i turn =>
    Nat.mod_eq_of_lt (by have := mem_span.mp turn; omega)
  rw [toLists, add, asUint32, Nat.mod_eq_of_lt room, List.range_add, List.map_append, List.map_map,
    toLists]
  refine congrArg₂ _ (List.map_congr_left fun k member => congrArg IdList.toList ?_)
    (List.map_congr_left fun i member => ?_)
  · have below := List.mem_range.mp member
    dsimp only
    rw [Function.update_of_ne below.ne]
    refine loop_update_of_ne (fun i => asUint32 (l.num + i)) (fun i turn => ?_) l.idLists
    rw [place i turn]
    omega
  · have below := List.mem_range.mp member
    dsimp only [Function.comp_apply]
    rcases Nat.eq_zero_or_pos i with rfl | later
    · simp
    · rw [Function.update_of_ne (by omega), ← IdList.toList_copy (fits i below)]
      refine congrArg IdList.toList (loop_store (fun i => asUint32 (l.num + i))
        (fun j turn same => ?_) (.inl ⟨i, mem_span.mpr ⟨later, below⟩,
          place i (mem_span.mpr ⟨later, below⟩)⟩))
      rw [place j turn] at same
      rw [Nat.add_left_cancel same]

/-- What `parse_es_id_list` adds. -/
def buildIds (intervals : List (Strided ℤ)) : IdList :=
  intervals.foldl (fun l r => l.add r.base r.num r.stride) .create

/-- What `parse_list` adds. -/
def buildLists (intervals : List (Strided (List (Strided ℤ)))) : AffinityList :=
  (intervals.map (Strided.map buildIds)).foldl (fun l r => l.add r.base r.num r.stride) .create

theorem toList_foldl_add {intervals : List (Strided ℤ)} {l : IdList}
    (room : l.num + (intervals.flatMap Strided.ids).length < 2 ^ 32)
    (fits : ∀ id ∈ intervals.flatMap Strided.ids, IntFits id) :
    (intervals.foldl (fun l r => l.add r.base r.num r.stride) l).toList =
      l.toList ++ intervals.flatMap Strided.ids := by
  induction intervals generalizing l with
  | nil => simp
  | cons r intervals ih =>
      rw [List.flatMap_cons, List.length_append] at room
      rw [List.flatMap_cons, List.forall_mem_append] at fits
      have ids : r.ids.length = r.num := by simp [Strided.ids]
      have added : (l.add r.base r.num r.stride).toList = l.toList ++ r.ids :=
        IdList.toList_add (by omega) fun i below =>
          fits.1 _ (List.mem_map_of_mem (List.mem_range.mpr below))
      have num : (l.add r.base r.num r.stride).num = l.num + r.num := by
        rw [← IdList.length_toList, added, List.length_append, IdList.length_toList, ids]
      rw [List.foldl_cons, ih (by omega) fits.2, added, List.flatMap_cons, List.append_assoc]

theorem toList_buildIds {intervals : List (Strided ℤ)}
    (length : (intervals.flatMap Strided.ids).length < 2 ^ 32)
    (fits : ∀ id ∈ intervals.flatMap Strided.ids, IntFits id) :
    (buildIds intervals).toList = intervals.flatMap Strided.ids :=
  toList_foldl_add (l := .create) (by rwa [IdList.create, Nat.zero_add]) fits

/-- The base of an interval is its first list. -/
theorem base_mem_idLists {r : Strided (List (Strided ℤ))} (positive : 0 < r.num) :
    r.base.flatMap Strided.ids ∈ r.idLists :=
  List.mem_map.mpr ⟨0, List.mem_range.mpr positive, by simp⟩

theorem toLists_foldl_add {intervals : List (Strided (List (Strided ℤ)))} {l : AffinityList}
    (positive : ∀ r ∈ intervals, 0 < r.num)
    (room : l.num + (intervals.flatMap Strided.idLists).length < 2 ^ 32)
    (lengths : ∀ ids ∈ intervals.flatMap Strided.idLists, ids.length < 2 ^ 32)
    (fits : ∀ ids ∈ intervals.flatMap Strided.idLists, ∀ id ∈ ids, IntFits id) :
    ((intervals.map (Strided.map buildIds)).foldl
        (fun l r => l.add r.base r.num r.stride) l).toLists =
      l.toLists ++ intervals.flatMap Strided.idLists := by
  induction intervals generalizing l with
  | nil => simp
  | cons r intervals ih =>
      rw [List.forall_mem_cons] at positive
      rw [List.flatMap_cons, List.length_append] at room
      rw [List.flatMap_cons, List.forall_mem_append] at lengths fits
      have lists : r.idLists.length = r.num := by simp [Strided.idLists]
      have base : (buildIds r.base).toList = r.base.flatMap Strided.ids :=
        toList_buildIds (lengths.1 _ (base_mem_idLists positive.1))
          (fits.1 _ (base_mem_idLists positive.1))
      have added : (l.add (buildIds r.base) r.num r.stride).toLists = l.toLists ++ r.idLists := by
        rw [AffinityList.toLists_add (by omega), base, Strided.idLists]
        intro i below id member
        rw [base] at member
        exact fits.1 _ (List.mem_map_of_mem (List.mem_range.mpr below)) _
          (List.mem_map_of_mem member)
      have num : (l.add (buildIds r.base) r.num r.stride).num = l.num + r.num := by
        rw [← AffinityList.length_toLists, added, List.length_append,
          AffinityList.length_toLists, lists]
      have rest : (l.add (buildIds r.base) r.num r.stride).num +
          (intervals.flatMap Strided.idLists).length < 2 ^ 32 := by omega
      rw [List.flatMap_cons, ← List.append_assoc, ← added]
      exact ih positive.2 rest lengths.2 fits.2

/-- **The lists are those that the intervals denote**, where they fit. -/
theorem toLists_buildLists {intervals : List (Strided (List (Strided ℤ)))}
    (positive : ∀ r ∈ intervals, 0 < r.num) (fits : ListsFit (intervals.flatMap Strided.idLists)) :
    (buildLists intervals).toLists = intervals.flatMap Strided.idLists :=
  toLists_foldl_add (l := .create) positive
    (by rw [AffinityList.create, Nat.zero_add]; exact fits.length) fits.lengths fits.ids

end Lists

/-! ## Reading symbols -/

section Symbols

theorem isWhitespace_char (symbol : Symbol) : isWhitespace symbol.char = false := by
  cases symbol <;> decide

theorem char_ne_terminator (symbol : Symbol) : symbol.char ≠ terminator := by
  cases symbol <;> decide

theorem char_injective : Function.Injective Symbol.char := by
  intro a b same
  cases a <;> cases b <;> first | rfl | exact absurd same (by decide)

theorem not_isDigit_char (symbol : Symbol) : ¬symbol.char.isDigit := by cases symbol <;> decide

theorem isWhitespace_of_isDigit {c : Char} (digit : c.isDigit) : isWhitespace c = false := by
  rw [isWhitespace, decide_eq_false_iff_not]
  rintro (rfl | rfl | rfl | rfl) <;> exact absurd digit (by decide)

theorem isWhitespace_of_isSign {c : Char} (isSign : c = '+' ∨ c = '-') :
    isWhitespace c = false := by
  rcases isSign with rfl | rfl <;> decide

/-- A number begins with a sign or a digit. -/
theorem exists_cons_of_integer {signs digits : List Char}
    (areSigns : ∀ c ∈ signs, c = '+' ∨ c = '-') (nonempty : digits ≠ [])
    (areDigits : ∀ c ∈ digits, c.isDigit) :
    ∃ c word, signs ++ digits = c :: word ∧ ((c = '+' ∨ c = '-') ∨ c.isDigit) := by
  cases signs with
  | cons c signs => exact ⟨c, signs ++ digits, rfl, .inl (areSigns c List.mem_cons_self)⟩
  | nil =>
      cases digits with
      | nil => exact absurd rfl nonempty
      | cons c digits => exact ⟨c, digits, rfl, .inr (areDigits c List.mem_cons_self)⟩

/-- Only blanks spell no tokens. -/
theorem eq_nil_of_spells {us : List Token} (spells : SpellsTokens [] us) : us = [] := by
  generalize string : ([] : List Char) = s at spells
  cases spells with
  | nil _ => rfl
  | cons blanks spelled others =>
      obtain ⟨-, empty⟩ := List.append_eq_nil_iff.mp string.symm
      obtain ⟨empty, -⟩ := List.append_eq_nil_iff.mp empty
      cases spelled with
      | symbol => cases empty
      | integer _ nonempty _ => exact absurd (List.append_eq_nil_iff.mp empty).2 nonempty

theorem consumeSymbol_space {symbol : Char} (visible : isWhitespace symbol = false)
    {space : List Char} (blanks : ∀ c ∈ space, isWhitespace c) (s : List Char) :
    consumeSymbol symbol (space ++ s) = consumeSymbol symbol s := by
  refine skip_blanks (fun c blank s => ?_) blanks s
  have other : c ≠ symbol := by
    rintro rfl
    rw [visible] at blank
    cases blank
  rw [consumeSymbol, if_neg other, if_pos blank]

/-- A symbol that is read comes after blanks, if it is not the terminator. -/
theorem exists_of_consumeSymbol {symbol : Char} {s rest : List Char}
    (consumed : consumeSymbol symbol s = some rest) :
    ∃ space, (∀ c ∈ space, isWhitespace c) ∧
      (s = space ++ symbol :: rest ∨ (symbol = terminator ∧ s = space ∧ rest = [])) := by
  induction s with
  | nil =>
      rw [consumeSymbol] at consumed
      split at consumed
      next same => exact ⟨[], by simp, .inr ⟨same, rfl, (Option.some.inj consumed).symm⟩⟩
      next => cases consumed
  | cons c s ih =>
      rw [consumeSymbol] at consumed
      split at consumed
      next here =>
        obtain rfl := Option.some.inj consumed
        exact ⟨[], by simp, .inl (by rw [here, List.nil_append])⟩
      next =>
        split at consumed
        next blank =>
          obtain ⟨space, blanks, found⟩ := ih consumed
          refine ⟨c :: space, List.forall_mem_cons.mpr ⟨blank, blanks⟩, ?_⟩
          rcases found with rfl | ⟨same, rfl, rfl⟩
          · exact .inl rfl
          · exact .inr ⟨same, rfl, rfl⟩
        next => cases consumed

theorem suffix_of_consumeSymbol {symbol : Char} {s rest : List Char}
    (consumed : consumeSymbol symbol s = some rest) : rest <:+ s := by
  obtain ⟨space, -, rfl | ⟨-, rfl, rfl⟩⟩ := exists_of_consumeSymbol consumed
  · exact (List.suffix_cons symbol rest).trans (List.suffix_append space _)
  · exact List.nil_suffix

variable {str : List Char}

theorem consumes_symbol (symbol : Symbol) :
    Consumes SpellsTokens str (consumeSymbol symbol.char) [.symbol symbol] fun _ => True where
  suffix := suffix_of_consumeSymbol
  sound _ consumed after := by
    obtain ⟨space, blanks, rfl | ⟨terminates, -⟩⟩ := exists_of_consumeSymbol consumed
    · exact .cons blanks (.symbol symbol) after
    · exact absurd terminates (char_ne_terminator symbol)
  complete spells _ := by
    obtain _ | ⟨blanks, spelled, others⟩ := spells
    cases spelled
    exact ⟨_, by rw [consumeSymbol_space (isWhitespace_char symbol) blanks, List.singleton_append,
      consumeSymbol, if_pos rfl], others⟩

theorem consumes_terminator (terminated : terminator ∉ str) :
    Consumes SpellsTokens str (consumeSymbol terminator) [] (· = []) where
  suffix := suffix_of_consumeSymbol
  sound inside consumed after := by
    obtain ⟨space, blanks, rfl | ⟨-, rfl, rfl⟩⟩ := exists_of_consumeSymbol consumed
    · exact absurd (inside.subset (by simp)) terminated
    · rw [eq_nil_of_spells after]
      exact .nil blanks
  complete := by
    rintro s _ spells rfl
    obtain ⟨blanks⟩ := spells
    refine ⟨[], ?_, .nil (by simp)⟩
    rw [← List.append_nil s, consumeSymbol_space (by decide) blanks, consumeSymbol, if_pos rfl]

theorem rejects_symbol {symbol : Symbol} {us : List Token}
    (other : us.head? ≠ some (.symbol symbol)) :
    Rejects SpellsTokens (consumeSymbol symbol.char) us := by
  intro s spells
  cases spells with
  | nil blanks =>
      rw [← List.append_nil s, consumeSymbol_space (isWhitespace_char symbol) blanks,
        consumeSymbol, if_neg (char_ne_terminator symbol)]
  | cons blanks spelled others =>
      rw [consumeSymbol_space (isWhitespace_char symbol) blanks]
      cases spelled with
      | symbol different =>
          have apart : different.char ≠ symbol.char := fun same =>
            other (by rw [char_injective same, List.head?_cons])
          rw [List.singleton_append, consumeSymbol, if_neg apart, isWhitespace_char, if_neg nofun]
      | integer areSigns nonempty areDigits =>
          obtain ⟨c, word, same, first⟩ := exists_cons_of_integer areSigns nonempty areDigits
          have apart : c ≠ symbol.char := by
            rintro rfl
            cases symbol <;> revert first <;> decide
          have visible : isWhitespace c = false :=
            first.elim isWhitespace_of_isSign isWhitespace_of_isDigit
          rw [same, List.cons_append, consumeSymbol, if_neg apart, visible, if_neg nofun]

end Symbols

/-! ## Reading integers -/

section Integers

/-- The value of digits after a number, as the loop computes it. -/
def appendDigits (digits : List Char) (val : ℤ) : ℤ :=
  digits.foldl (fun val c => asInt (val * 10 + (c.toNat - '0'.toNat : ℕ))) val

theorem appendDigits_eq {digits : List Char} {n : ℕ}
    (fits : Nat.ofDigitChars 10 digits n < 2 ^ 31) :
    appendDigits digits n = Nat.ofDigitChars 10 digits n := by
  induction digits generalizing n with
  | nil => simp [appendDigits]
  | cons c digits ih =>
      rw [Nat.ofDigitChars_cons] at fits ⊢
      have step : 10 * n + (c.toNat - '0'.toNat) < 2 ^ 31 := by
        rw [Nat.ofDigitChars_eq_ofDigitChars_zero] at fits
        have := Nat.le_mul_of_pos_left (10 * n + (c.toNat - '0'.toNat))
          (Nat.pow_pos (n := digits.length) (show 0 < 10 by decide))
        omega
      have exact : asInt ((n : ℤ) * 10 + (c.toNat - '0'.toNat : ℕ)) =
          (10 * n + (c.toNat - '0'.toNat) : ℕ) := by
        rw [asInt_of_fits ⟨by omega, by omega⟩]
        push_cast
        ring
      rw [appendDigits, List.foldl_cons, exact]
      exact ih fits

theorem sign_cons_minus (signs : List Char) : sign ('-' :: signs) = -sign signs := by
  rw [sign, List.count_cons_self, pow_succ, mul_neg_one, sign]

theorem sign_cons_plus (signs : List Char) : sign ('+' :: signs) = sign signs := by
  rw [sign, List.count_cons_of_ne (by decide), sign]

theorem intFits_sign_mul {signs : List Char} {n : ℕ} (fits : n < 2 ^ 31) :
    IntFits (sign signs * n) := by
  rcases neg_one_pow_eq_or ℤ (signs.count '-') with plus | minus
  · rw [sign, plus]
    exact ⟨by omega, by omega⟩
  · rw [sign, minus]
    exact ⟨by omega, by omega⟩

section Branches

variable {α : Type*} {c : Char} (minus plus blank digit other : α)

/-- The branch that `consume_int` takes at a blank, as long as it has read nothing else. -/
theorem branch_blank (isBlank : isWhitespace c) :
    (if Flag.n ≠ .v ∧ c = '-' then minus
      else if Flag.n ≠ .v ∧ c = '+' then plus
      else if Flag.n = .n ∧ isWhitespace c then blank
      else if c.isDigit then digit
      else other) = blank := by
  have notMinus : c ≠ '-' := by rintro rfl; exact absurd isBlank (by decide)
  have notPlus : c ≠ '+' := by rintro rfl; exact absurd isBlank (by decide)
  rw [if_neg fun h => notMinus h.2, if_neg fun h => notPlus h.2, if_pos ⟨rfl, isBlank⟩]

/-- The branch that `consume_int` takes at a digit. -/
theorem branch_digit (isDigit : c.isDigit) (flag : Flag) :
    (if flag ≠ .v ∧ c = '-' then minus
      else if flag ≠ .v ∧ c = '+' then plus
      else if flag = .n ∧ isWhitespace c then blank
      else if c.isDigit then digit
      else other) = digit := by
  have notMinus : c ≠ '-' := by rintro rfl; exact absurd isDigit (by decide)
  have notPlus : c ≠ '+' := by rintro rfl; exact absurd isDigit (by decide)
  have notBlank : ¬ (flag = .n ∧ isWhitespace c) := by
    rw [isWhitespace_of_isDigit isDigit]
    exact fun h => Bool.false_ne_true h.2
  rw [if_neg fun h => notMinus h.2, if_neg fun h => notPlus h.2, if_neg notBlank, if_pos isDigit]

end Branches

/-- Blanks before an integer are skipped. -/
theorem consumeInt_space {space : List Char} (blanks : ∀ c ∈ space, isWhitespace c)
    (s : List Char) : consumeInt (space ++ s) = consumeInt s :=
  skip_blanks (fun _ blank _ => branch_blank _ _ _ _ _ blank) blanks s

theorem consumeIntLoop_digit {c : Char} (digit : c.isDigit) (s : List Char) (val valSign : ℤ)
    (flag : Flag) : consumeIntLoop (c :: s) val valSign flag =
      consumeIntLoop s (asInt (val * 10 + (c.toNat - '0'.toNat : ℕ))) valSign .v :=
  branch_digit _ _ _ _ _ digit flag

theorem consumeIntLoop_digits {digits : List Char} (areDigits : ∀ c ∈ digits, c.isDigit)
    (s : List Char) (val valSign : ℤ) : consumeIntLoop (digits ++ s) val valSign .v =
      consumeIntLoop s (appendDigits digits val) valSign .v := by
  induction digits generalizing val with
  | nil => rfl
  | cons c digits ih =>
      obtain ⟨digit, areDigits⟩ := List.forall_mem_cons.mp areDigits
      rw [List.cons_append, consumeIntLoop_digit digit, ih areDigits]
      rfl

theorem consumeIntLoop_number {signs digits : List Char} (areSigns : ∀ c ∈ signs, c = '+' ∨ c = '-')
    (nonempty : digits ≠ []) (areDigits : ∀ c ∈ digits, c.isDigit) (s : List Char)
    (val valSign : ℤ) {flag : Flag} (early : flag ≠ .v) :
    consumeIntLoop (signs ++ (digits ++ s)) val valSign flag =
      consumeIntLoop s (appendDigits digits val) (valSign * sign signs) .v := by
  induction signs generalizing valSign flag with
  | nil =>
      obtain ⟨c, digits, rfl⟩ := List.exists_cons_of_ne_nil nonempty
      obtain ⟨digit, areDigits⟩ := List.forall_mem_cons.mp areDigits
      rw [List.nil_append, List.cons_append, consumeIntLoop_digit digit,
        consumeIntLoop_digits areDigits, sign, List.count_nil, pow_zero, mul_one]
      rfl
  | cons c signs ih =>
      obtain ⟨isSign, others⟩ := List.forall_mem_cons.mp areSigns
      have next : Flag.s ≠ .v := by decide
      rw [List.cons_append, consumeIntLoop]
      rcases isSign with rfl | rfl
      · rw [if_neg fun h => absurd h.2 (by decide), if_pos ⟨early, rfl⟩, ih others valSign next,
          sign_cons_plus]
      · rw [if_pos ⟨early, rfl⟩, ih others (-valSign) next, sign_cons_minus, mul_neg, neg_mul]

/-- No digit comes next. -/
def StopsDigits (s : List Char) : Prop := ∀ c ∈ s.head?, ¬c.isDigit

theorem consumeIntLoop_stop {s : List Char} (stops : StopsDigits s) (val valSign : ℤ) :
    consumeIntLoop s val valSign .v = some (asInt (val * valSign), s) := by
  cases s with
  | nil => rfl
  | cons c s =>
      rw [consumeIntLoop, if_neg fun h => h.1 rfl, if_neg fun h => h.1 rfl,
        if_neg fun h => (nomatch h.1), if_neg (stops c rfl), if_pos rfl]

/-- What the loop has read when it succeeds. -/
theorem exists_of_consumeIntLoop {s rest : List Char} {val valSign v : ℤ} {flag : Flag}
    (consumed : consumeIntLoop s val valSign flag = some (v, rest)) :
    ∃ space signs digits, s = space ++ (signs ++ (digits ++ rest)) ∧
      (∀ c ∈ space, isWhitespace c) ∧ (flag ≠ .n → space = []) ∧
      (∀ c ∈ signs, c = '+' ∨ c = '-') ∧ (flag = .v → signs = []) ∧
      (∀ c ∈ digits, c.isDigit) ∧ (flag ≠ .v → digits ≠ []) ∧
      v = asInt (appendDigits digits val * (valSign * sign signs)) := by
  induction s generalizing val valSign flag with
  | nil =>
      rw [consumeIntLoop] at consumed
      split at consumed
      next read =>
        obtain ⟨rfl, rfl⟩ := Prod.mk.inj (Option.some.inj consumed)
        exact ⟨[], [], [], rfl, by simp, fun _ => rfl, by simp, fun _ => rfl, by simp,
          fun other => absurd read other, by simp [appendDigits, sign]⟩
      next => cases consumed
  | cons c s ih =>
      rw [consumeIntLoop] at consumed
      split at consumed
      next minus =>
        obtain ⟨early, rfl⟩ := minus
        obtain ⟨space, signs, digits, rfl, -, noSpace, areSigns, -, areDigits, nonempty, rfl⟩ :=
          ih consumed
        refine ⟨[], '-' :: signs, digits, by rw [noSpace nofun]; rfl, by simp, fun _ => rfl,
          List.forall_mem_cons.mpr ⟨.inr rfl, areSigns⟩, fun late => absurd late early, areDigits,
          fun _ => nonempty nofun, ?_⟩
        rw [sign_cons_minus, mul_neg, neg_mul]
      next =>
        split at consumed
        next plus =>
          obtain ⟨early, rfl⟩ := plus
          obtain ⟨space, signs, digits, rfl, -, noSpace, areSigns, -, areDigits, nonempty, rfl⟩ :=
            ih consumed
          refine ⟨[], '+' :: signs, digits, by rw [noSpace nofun]; rfl, by simp, fun _ => rfl,
            List.forall_mem_cons.mpr ⟨.inl rfl, areSigns⟩, fun late => absurd late early,
            areDigits, fun _ => nonempty nofun, ?_⟩
          rw [sign_cons_plus]
        next =>
          split at consumed
          next blank =>
            obtain ⟨rfl, blank⟩ := blank
            obtain ⟨space, signs, digits, rfl, blanks, -, areSigns, -, areDigits, nonempty, rfl⟩ :=
              ih consumed
            exact ⟨c :: space, signs, digits, rfl, List.forall_mem_cons.mpr ⟨blank, blanks⟩,
              fun other => absurd rfl other, areSigns, nofun, areDigits, nonempty, rfl⟩
          next =>
            split at consumed
            next digit =>
              obtain ⟨space, signs, digits, rfl, -, noSpace, -, noSigns, areDigits, -, rfl⟩ :=
                ih consumed
              obtain rfl := noSpace nofun
              obtain rfl := noSigns rfl
              exact ⟨[], [], c :: digits, rfl, by simp, fun _ => rfl, by simp, fun _ => rfl,
                List.forall_mem_cons.mpr ⟨digit, areDigits⟩, fun _ => List.cons_ne_nil _ _, rfl⟩
            next =>
              split at consumed
              next read =>
                obtain ⟨rfl, rfl⟩ := Prod.mk.inj (Option.some.inj consumed)
                exact ⟨[], [], [], rfl, by simp, fun _ => rfl, by simp, fun _ => rfl, by simp,
                  fun other => absurd read other, by simp [appendDigits, sign]⟩
              next => cases consumed

/-- The next token is not an integer. -/
def NotInteger (us : List Token) : Prop := ∀ v, us.head? ≠ some (.integer v)

theorem notInteger_symbol (symbol : Symbol) (us : List Token) :
    NotInteger (.symbol symbol :: us) := nofun

theorem stopsDigits_of_spells {s : List Char} {us : List Token} (other : NotInteger us)
    (spells : SpellsTokens s us) : StopsDigits s := by
  rintro c head digit
  have visible := isWhitespace_of_isDigit digit
  cases spells with
  | nil blanks =>
      have blank := blanks c (List.mem_of_mem_head? head)
      rw [visible] at blank
      cases blank
  | @cons space word rest t us blanks spelled others =>
      cases space with
      | cons d space =>
          obtain rfl := Option.some.inj head
          have blank := blanks d List.mem_cons_self
          rw [visible] at blank
          cases blank
      | nil =>
          cases spelled with
          | integer => exact other _ rfl
          | symbol symbol =>
              obtain rfl := Option.some.inj head
              exact not_isDigit_char symbol digit

variable {str s rest : List Char} {us : List Token} {v : ℤ}

theorem number_eq (literals : LiteralsFit str) {signs digits : List Char}
    (infix_str : digits <:+: str) (areDigits : ∀ c ∈ digits, c.isDigit) :
    asInt (appendDigits digits 0 * (1 * sign signs)) =
      sign signs * Nat.ofDigitChars 10 digits 0 := by
  have fits := literals digits infix_str areDigits
  rw [one_mul, mul_comm, show (0 : ℤ) = (0 : ℕ) from rfl, appendDigits_eq fits]
  exact asInt_of_fits (intFits_sign_mul fits)

/-- **`consume_int` reads an integer**, and blanks before it. -/
theorem consumeInt_sound (literals : LiteralsFit str) (inside : s <:+ str)
    (consumed : consumeInt s = some (v, rest)) :
    rest <:+ s ∧ rest.length < s.length ∧
      ∀ us, SpellsTokens rest us → SpellsTokens s (.integer v :: us) := by
  obtain ⟨space, signs, digits, rfl, blanks, -, areSigns, -, areDigits, nonempty, rfl⟩ :=
    exists_of_consumeIntLoop consumed
  have digitsIn : digits <:+: str :=
    List.IsInfix.trans ⟨space ++ signs, rest, by simp⟩ inside.isInfix
  have positive := List.length_pos_of_ne_nil (nonempty nofun)
  refine ⟨⟨space ++ (signs ++ digits), by simp⟩, by simp only [List.length_append]; omega,
    fun us after => ?_⟩
  rw [number_eq literals digitsIn areDigits, ← List.append_assoc signs]
  exact .cons blanks (.integer areSigns (nonempty nofun) areDigits) after

theorem consumeInt_complete (literals : LiteralsFit str) (inside : s <:+ str)
    (other : NotInteger us) (spells : SpellsTokens s (.integer v :: us)) :
    ∃ rest, consumeInt s = some (v, rest) ∧ SpellsTokens rest us := by
  cases spells with
  | @cons space word rest _ _ blanks spelled others =>
      cases spelled with
      | @integer signs digits areSigns nonempty areDigits =>
          have digitsIn : digits <:+: str :=
            List.IsInfix.trans ⟨space ++ signs, rest, by simp⟩ inside.isInfix
          refine ⟨rest, ?_, others⟩
          rw [consumeInt_space blanks, consumeInt, List.append_assoc,
            consumeIntLoop_number areSigns nonempty areDigits _ _ _ (by decide : Flag.n ≠ .v),
            consumeIntLoop_stop (stopsDigits_of_spells other others),
            number_eq literals digitsIn areDigits]

theorem consumeInt_none (other : NotInteger us) (spells : SpellsTokens s us) :
    consumeInt s = none := by
  cases spells with
  | nil blanks => rw [← List.append_nil s, consumeInt_space blanks]; rfl
  | cons blanks spelled others =>
      cases spelled with
      | integer => exact absurd rfl (other _)
      | symbol symbol =>
          rw [consumeInt_space blanks]
          cases symbol <;> rfl

end Integers

/-! ## Reading intervals -/

section Intervals

variable {str s rest : List Char}

theorem parseId_eq_ok {result : ℤ × List Char} :
    parseId s = some (.ok result) ↔ consumeInt s = some result := by
  rw [parseId]
  cases consumeInt s <;> simp

theorem recognizes_id (literals : LiteralsFit str) :
    Recognizes SpellsTokens str parseId Id id NotInteger where
  returns _ := by
    rw [parseId]
    split <;> rfl
  suffix inside parsed := by
    obtain ⟨suffix, shorter, -⟩ := consumeInt_sound literals inside (parseId_eq_ok.mp parsed)
    exact ⟨suffix, shorter⟩
  sound {s rest id} inside parsed := by
    obtain ⟨-, -, spelled⟩ := consumeInt_sound literals inside (parseId_eq_ok.mp parsed)
    exact ⟨[.integer id], id, .integer id, rfl, spelled⟩
  complete inside derives follows spells := by
    cases derives
    obtain ⟨rest, consumed, after⟩ := consumeInt_complete literals inside follows spells
    exact ⟨rest, parseId_eq_ok.mpr consumed, after⟩

/-- The tokens after the base of an interval. -/
inductive NumStride : List Token → ℤ → ℤ → Prop
  | neither : NumStride [] 1 1
  | num {num : ℤ} : 0 < num → NumStride [.symbol .colon, .integer num] num 1
  | both {num : ℤ} (stride : ℤ) : 0 < num →
      NumStride [.symbol .colon, .integer num, .symbol .colon, .integer stride] num stride

theorem NumStride.positive {tail : List Token} {num stride : ℤ}
    (numStride : NumStride tail num stride) : 0 < num := by
  cases numStride with
  | neither => exact Int.one_pos
  | num positive | both _ positive => exact positive

theorem NumStride.notInteger {tail us : List Token} {num stride : ℤ}
    (numStride : NumStride tail num stride) (follows : NotInteger us) :
    NotInteger (tail ++ us) := by
  cases numStride with
  | neither => exact follows
  | num | both => exact notInteger_symbol .colon _

theorem stridedRule_iff {α : Type u} {base : List Token → α → Prop} {ts : List Token}
    {r : Strided α} : StridedRule base ts r ↔ ∃ us tail, base us r.base ∧
      NumStride tail r.num r.stride ∧ r.num < maxNumElems ∧ ts = us ++ tail := by
  constructor
  · intro derives
    cases derives with
    | numStride stride derives isNum =>
        exact ⟨_, _, derives, .both stride (Int.natCast_pos.mpr isNum.positive), isNum.bounded, rfl⟩
    | num derives isNum =>
        exact ⟨_, _, derives, .num (Int.natCast_pos.mpr isNum.positive), isNum.bounded, rfl⟩
    | base derives =>
        exact ⟨ts, [], derives, .neither, (by decide : 1 < maxNumElems), (List.append_nil ts).symm⟩
  · obtain ⟨a, num, stride⟩ := r
    rintro ⟨us, tail, derives, numStride, bounded, rfl⟩
    generalize count : (num : ℤ) = n at numStride
    cases numStride with
    | neither =>
        obtain rfl : num = 1 := Int.ofNat_inj.mp count
        rw [List.append_nil]
        exact .base derives
    | num positive =>
        subst count
        exact .num derives ⟨Int.natCast_pos.mp positive, bounded⟩
    | both _ positive =>
        subst count
        exact .numStride stride derives ⟨Int.natCast_pos.mp positive, bounded⟩

theorem consumePint_eq_some {v : ℤ} :
    consumePint s = some (v, rest) ↔ consumeInt s = some (v, rest) ∧ 0 < v := by
  rw [consumePint, Option.filter_eq_some_iff, decide_eq_true_iff]

/-- What may follow an interval. -/
structure AfterInterval (us : List Token) : Prop where
  notInteger : NotInteger us
  notColon : us.head? ≠ some (.symbol .colon)

theorem consumeNumStride_sound (literals : LiteralsFit str) (inside : s <:+ str) {num stride : ℤ}
    (consumed : consumeNumStride s = some ((num, stride), rest)) :
    rest <:+ s ∧ ∃ tail, NumStride tail num stride ∧
      ∀ us, SpellsTokens rest us → SpellsTokens s (tail ++ us) := by
  have colons : Consumes SpellsTokens str (consumeSymbol ':') [.symbol .colon] fun _ => True :=
    consumes_symbol .colon
  rw [consumeNumStride] at consumed
  split at consumed
  next =>
    obtain ⟨same, rfl⟩ := Prod.mk.inj (Option.some.inj consumed)
    obtain ⟨rfl, rfl⟩ := Prod.mk.inj same
    exact ⟨List.suffix_rfl, [], .neither, fun us after => after⟩
  next s₁ colon =>
    have inside₁ := (colons.suffix colon).trans inside
    obtain ⟨⟨n, s₂⟩, found, consumed⟩ := Option.bind_eq_some_iff.mp consumed
    obtain ⟨found, positive⟩ := consumePint_eq_some.mp found
    obtain ⟨suffix₂, -, spelled₂⟩ := consumeInt_sound literals inside₁ found
    dsimp only at consumed
    split at consumed
    next =>
      obtain ⟨same, rfl⟩ := Prod.mk.inj (Option.some.inj consumed)
      obtain ⟨rfl, rfl⟩ := Prod.mk.inj same
      exact ⟨suffix₂.trans (colons.suffix colon), _, .num positive, fun us after =>
        colons.sound inside colon (spelled₂ us after)⟩
    next s₃ colon₂ =>
      have inside₂ := suffix₂.trans inside₁
      obtain ⟨⟨n', s₄⟩, found', same⟩ := Option.map_eq_some_iff.mp consumed
      obtain ⟨values, rfl⟩ := Prod.mk.inj same
      obtain ⟨rfl, rfl⟩ := Prod.mk.inj values
      obtain ⟨suffix₄, -, spelled₄⟩ :=
        consumeInt_sound literals ((colons.suffix colon₂).trans inside₂) found'
      refine ⟨((suffix₄.trans (colons.suffix colon₂)).trans suffix₂).trans (colons.suffix colon),
        _, .both _ positive, fun us after => ?_⟩
      exact colons.sound inside colon (spelled₂ _
        (colons.sound inside₂ colon₂ (spelled₄ us after)))

theorem consumeNumStride_complete (literals : LiteralsFit str) (inside : s <:+ str)
    {num stride : ℤ} {tail us : List Token} (derives : NumStride tail num stride)
    (follows : AfterInterval us) (spells : SpellsTokens s (tail ++ us)) :
    ∃ rest, consumeNumStride s = some ((num, stride), rest) ∧ SpellsTokens rest us := by
  have colons : Consumes SpellsTokens str (consumeSymbol ':') [.symbol .colon] fun _ => True :=
    consumes_symbol .colon
  have rejects : Rejects SpellsTokens (consumeSymbol ':') us :=
    (rejects_symbol follows.notColon :
      Rejects SpellsTokens (consumeSymbol Symbol.colon.char) us)
  cases derives with
  | neither => exact ⟨s, by simp only [consumeNumStride, rejects s spells], spells⟩
  | num positive =>
      obtain ⟨s₁, colon, spells⟩ := colons.complete spells trivial
      obtain ⟨s₂, found, spells⟩ := consumeInt_complete literals
        ((colons.suffix colon).trans inside) follows.notInteger spells
      refine ⟨s₂, ?_, spells⟩
      simp only [consumeNumStride, colon, consumePint_eq_some.mpr ⟨found, positive⟩,
        Option.bind_some, rejects s₂ spells]
  | both stride positive =>
      obtain ⟨s₁, colon, spells⟩ := colons.complete spells trivial
      have inside₁ := (colons.suffix colon).trans inside
      obtain ⟨s₂, found, spells⟩ :=
        consumeInt_complete literals inside₁ (notInteger_symbol .colon _) spells
      have inside₂ := (consumeInt_sound literals inside₁ found).1.trans inside₁
      obtain ⟨s₃, colon₂, spells⟩ := colons.complete spells trivial
      obtain ⟨s₄, found', spells⟩ := consumeInt_complete literals
        ((colons.suffix colon₂).trans inside₂) follows.notInteger spells
      refine ⟨s₄, ?_, spells⟩
      simp only [consumeNumStride, colon, consumePint_eq_some.mpr ⟨found, positive⟩,
        Option.bind_some, colon₂, found', Option.map_some]

variable {α : Type u} {β : Type v} {parseBase : List Char → Reading Code Char β}
  {rule : List Token → α → Prop} {value : α → β}

theorem parseStrided_eq_ok {r : Strided β} :
    parseStrided parseBase s = some (.ok (r, rest)) ↔ ∃ middle num,
      parseBase s = some (.ok (r.base, middle)) ∧
        consumeNumStride middle = some ((num, r.stride), rest) ∧ num < maxNumElems ∧
          r.num = num.toNat := by
  obtain ⟨base, count, stride⟩ := r
  rw [parseStrided]
  split
  next stuck => simp [stuck]
  next failed => simp [failed]
  next b middle found =>
    dsimp only
    split
    next absent => simp [found, absent]
    next num stride' tail read =>
      split
      next => simp [found, read]; omega
      next => simp [found, read]; grind

/-- **An interval is read**, if its base is. -/
theorem recognizes_strided (literals : LiteralsFit str)
    (base : Recognizes SpellsTokens str parseBase rule value NotInteger) :
    Recognizes SpellsTokens str (parseStrided parseBase) (StridedRule rule) (Strided.map value)
      AfterInterval where
  returns inside := by
    obtain ⟨result, returned⟩ := Option.isSome_iff_exists.mp (base.returns inside)
    rw [parseStrided, returned]
    rcases result with code | ⟨b, middle⟩
    · rfl
    · dsimp only
      split
      · rfl
      · split <;> rfl
  suffix inside parsed := by
    obtain ⟨middle, num, found, read, -⟩ := parseStrided_eq_ok.mp parsed
    obtain ⟨suffix, shorter⟩ := base.suffix inside found
    obtain ⟨suffix', -⟩ := consumeNumStride_sound literals (suffix.trans inside) read
    exact ⟨suffix'.trans suffix, suffix'.length_le.trans_lt shorter⟩
  sound {s rest r} inside parsed := by
    obtain ⟨middle, num, found, read, bounded, count⟩ := parseStrided_eq_ok.mp parsed
    obtain ⟨ts, a, derives, same, spelled⟩ := base.sound inside found
    obtain ⟨-, tail, numStride, spelled'⟩ :=
      consumeNumStride_sound literals ((base.suffix inside found).1.trans inside) read
    have exact : ((r.num : ℕ) : ℤ) = num := by
      have := numStride.positive
      omega
    refine ⟨ts ++ tail, ⟨a, r.num, r.stride⟩, stridedRule_iff.mpr ⟨ts, tail, derives, ?_, ?_, rfl⟩,
      ?_, fun us after => ?_⟩
    · rw [exact]
      exact numStride
    · exact Int.ofNat_lt.mp (exact ▸ bounded)
    · rw [Strided.map, ← same]
    · rw [List.append_assoc]
      exact spelled _ (spelled' us after)
  complete {s ts us r} inside derives follows spells := by
    obtain ⟨bs, tail, first, numStride, bounded, rfl⟩ := stridedRule_iff.mp derives
    rw [List.append_assoc] at spells
    obtain ⟨middle, found, spells⟩ :=
      base.complete inside first (numStride.notInteger follows.notInteger) spells
    obtain ⟨rest, read, spells⟩ := consumeNumStride_complete literals
      ((base.suffix inside found).1.trans inside) numStride follows spells
    exact ⟨rest, parseStrided_eq_ok.mpr ⟨middle, r.num, found, read, Int.ofNat_lt.mpr bounded, rfl⟩,
      spells⟩

end Intervals

/-! ## Reading lists -/

section Reading

variable {str : List Char} {fuel : ℕ}

theorem afterInterval_comma (us : List Token) : AfterInterval (.symbol .comma :: us) where
  notInteger := notInteger_symbol .comma us
  notColon := nofun

theorem afterInterval_closing (us : List Token) : AfterInterval (.symbol .closing :: us) where
  notInteger := notInteger_symbol .closing us
  notColon := nofun

theorem afterInterval_nil : AfterInterval [] where
  notInteger := nofun
  notColon := nofun

variable {σ : Type v}

/-- The loop of `parse_es_id_list` reads an `<id-list>` and the brace after it. -/
theorem recognizes_idList (add : σ → Strided ℤ → σ) (create : σ) (literals : LiteralsFit str)
    (enough : str.length < fuel) :
    Recognizes SpellsTokens str
      (readSeparated (parseStrided parseId) add (consumeSymbol ',') (consumeSymbol '}') Code.other
        fuel create)
      (fun ts as => ∃ us, IdListRule us as ∧ ts = us ++ [.symbol .closing])
      (fun as => as.foldl add create) fun _ => True := by
  have values : (fun as : List (Strided ℤ) => as.foldl add create) =
      fun as => (as.map (Strided.map id)).foldl add create := by
    funext as
    rw [show Strided.map (id : ℤ → ℤ) = id from rfl, List.map_id]
  rw [values]
  exact Recognizes.separated SpellsTokens
    (recognizes_strided literals (recognizes_id literals)) (consumes_symbol .comma)
    (consumes_symbol .closing) afterInterval_comma (fun us _ => afterInterval_closing us)
    (fun us _ => rejects_symbol nofun) enough

/-- **`parse_es_id_list` reads an `<es-id-list>`.** -/
theorem recognizes_esIdList (add : σ → Strided ℤ → σ) (create : σ) (literals : LiteralsFit str)
    (enough : str.length < fuel) :
    Recognizes SpellsTokens str (parseEsIdListInto add create fuel) EsIdList
      (fun as => as.foldl add create) NotInteger := by
  have lists := recognizes_idList add create literals enough
  have opens : Consumes SpellsTokens str (consumeSymbol '{') [.symbol .opening] fun _ => True :=
    consumes_symbol .opening
  refine ⟨fun {s} inside => ?_, fun {s rest l} inside parsed => ?_,
    fun {s rest l} inside parsed => ?_, fun {s ts us as} inside derives follows spells => ?_⟩
  · rw [parseEsIdListInto]
    split
    · rfl
    · split
      next s₁ opening => exact lists.returns ((opens.suffix opening).trans inside)
      next => rfl
  · rw [parseEsIdListInto] at parsed
    split at parsed
    next val s₁ found =>
      obtain ⟨-, rfl⟩ := Prod.mk.inj (Except.ok.inj (Option.some.inj parsed))
      obtain ⟨suffix, shorter, -⟩ := consumeInt_sound literals inside found
      exact ⟨suffix, shorter⟩
    next =>
      split at parsed
      next s₁ opening =>
        have suffix₁ := opens.suffix opening
        obtain ⟨suffix, shorter⟩ := lists.suffix (suffix₁.trans inside) parsed
        exact ⟨suffix.trans suffix₁, shorter.trans_le suffix₁.length_le⟩
      next => cases parsed
  · rw [parseEsIdListInto] at parsed
    split at parsed
    next val s₁ found =>
      obtain ⟨rfl, rfl⟩ := Prod.mk.inj (Except.ok.inj (Option.some.inj parsed))
      obtain ⟨-, -, spelled⟩ := consumeInt_sound literals inside found
      exact ⟨[.integer val], [⟨val, 1, 1⟩], .id (.integer val), rfl, spelled⟩
    next =>
      split at parsed
      next s₁ opening =>
        obtain ⟨_, as, ⟨ts, derives, rfl⟩, rfl, spelled⟩ :=
          lists.sound ((opens.suffix opening).trans inside) parsed
        exact ⟨_, as, .idList derives, rfl, fun us after =>
          opens.sound inside opening (spelled us after)⟩
      next => cases parsed
  · cases derives with
    | id id =>
        cases id
        obtain ⟨rest, found, after⟩ := consumeInt_complete literals inside follows spells
        exact ⟨rest, by simp only [parseEsIdListInto, found]; rfl, after⟩
    | idList derives =>
        have absent := consumeInt_none (notInteger_symbol .opening _) spells
        obtain ⟨s₁, opening, spells⟩ := opens.complete spells trivial
        obtain ⟨rest, parsed, after⟩ := lists.complete ((opens.suffix opening).trans inside)
          ⟨_, derives, rfl⟩ trivial spells
        exact ⟨rest, by simp only [parseEsIdListInto, absent, opening, parsed], after⟩

variable {β : Type u} {parseBase : List Char → Reading Code Char β}
  {value : List (Strided ℤ) → β} (add : σ → Strided β → σ) (create : σ)

/-- **`parse_list` reads a `<list>`** up to the terminator. -/
theorem recognizes_list (literals : LiteralsFit str) (terminated : terminator ∉ str)
    (enough : str.length < fuel)
    (base : Recognizes SpellsTokens str parseBase EsIdList value NotInteger) :
    Recognizes SpellsTokens str (parseListInto parseBase add create fuel)
      (fun ts as => ∃ us, ListRule us as ∧ ts = us ++ [])
      (fun as => (as.map (Strided.map value)).foldl add create) (· = []) :=
  Recognizes.separated SpellsTokens (recognizes_strided literals base) (consumes_symbol .comma)
    (consumes_terminator terminated) afterInterval_comma
    (fun us follows => by rw [follows]; exact afterInterval_nil)
    (fun us follows => rejects_symbol (by rw [follows]; nofun)) enough

/-- Nothing is left of a string that has been parsed. -/
theorem rest_eq_nil (literals : LiteralsFit str) (terminated : terminator ∉ str)
    (base : Recognizes SpellsTokens str parseBase EsIdList value NotInteger) {l : σ}
    {rest : List Char}
    (parsed : parseListInto parseBase add create fuel str = some (.ok (l, rest))) :
    rest = [] := by
  obtain ⟨middle, inside, ended⟩ := exists_ending_of_readSeparated SpellsTokens
    (recognizes_strided literals base) (consumes_symbol .comma) List.suffix_rfl parsed
  obtain ⟨space, -, rfl | ⟨-, -, rfl⟩⟩ := exists_of_consumeSymbol ended
  · exact absurd (inside.subset (by simp)) terminated
  · rfl

theorem positive_of_listRule {ts : List Token} {as : List (Strided (List (Strided ℤ)))}
    (derives : ListRule ts as) : ∀ r ∈ as, 0 < r.num := by
  have one : ∀ {ts r}, Interval ts r → 0 < r.num := fun derives => by
    cases derives with
    | numStride _ _ isNum | num _ isNum => exact isNum.positive
    | base _ => exact Nat.one_pos
  induction derives with
  | one first => simpa using one first
  | more _ last ih =>
      rw [List.forall_mem_append]
      exact ⟨ih, by simpa using one last⟩

/-- The parser, where it lists the intervals instead of adding them. -/
def readIntervals (fuel : ℕ) :
    List Char → Reading Code Char (List (Strided (List (Strided ℤ)))) :=
  parseListInto (parseEsIdListInto (fun as a => as ++ [a]) [] fuel) (fun as a => as ++ [a]) [] fuel

theorem foldl_snoc {α : Type u} (as front : List α) :
    as.foldl (fun l a => l ++ [a]) front = front ++ as := by
  induction as generalizing front with
  | nil => rw [List.foldl_nil, List.append_nil]
  | cons a as ih => rw [List.foldl_cons, ih, List.append_assoc, List.singleton_append]

theorem readIntervals_complete (literals : LiteralsFit str) (terminated : terminator ∉ str)
    (enough : str.length < fuel) {ts : List Token} {as : List (Strided (List (Strided ℤ)))}
    (spells : SpellsTokens str ts) (derives : ListRule ts as) :
    ∃ rest, readIntervals fuel str = some (.ok (as, rest)) := by
  have values : (as.map (Strided.map fun as => as.foldl (fun l a => l ++ [a]) [])).foldl
      (fun l a => l ++ [a]) [] = as := by
    have same :
        (Strided.map fun as : List (Strided ℤ) => as.foldl (fun l a => l ++ [a]) []) = id := by
      funext r
      rw [Strided.map, foldl_snoc]
      rfl
    rw [same, List.map_id, foldl_snoc, List.nil_append]
  have reader := recognizes_list (fun l a => l ++ [a]) [] literals terminated enough
    (recognizes_esIdList (fun l a => l ++ [a]) [] literals enough)
  obtain ⟨rest, parsed, -⟩ := reader.complete List.suffix_rfl
    ⟨ts, derives, (List.append_nil ts).symm⟩ rfl ((List.append_nil ts).symm ▸ spells)
  exact ⟨rest, parsed.trans (by rw [values])⟩

/-- The grammar is unambiguous. -/
theorem intervals_unique (literals : LiteralsFit str) (terminated : terminator ∉ str)
    {ts ts' : List Token} {as as' : List (Strided (List (Strided ℤ)))}
    (spells : SpellsTokens str ts) (derives : ListRule ts as) (spells' : SpellsTokens str ts')
    (derives' : ListRule ts' as') : as = as' := by
  have enough := Nat.lt_succ_self str.length
  obtain ⟨rest, read⟩ := readIntervals_complete literals terminated enough spells derives
  obtain ⟨rest', read'⟩ := readIntervals_complete literals terminated enough spells' derives'
  exact (Prod.mk.inj (Except.ok.inj (Option.some.inj (read.symm.trans read')))).1

end Reading

/-- **The affinity parser accepts its grammar and yields its meaning.** -/
theorem affinityListCreate_denotes {str : CString} (literals : LiteralsFit str.chars)
    (fits : ∀ lists, Denotes str.chars lists → ListsFit lists) :
    ∃ result, affinityListCreate (some str) = some result ∧
      ((∃ l, result = .ok l) ↔ ∃ lists, Denotes str.chars lists) ∧
        ∀ l, result = .ok l → ∀ lists, Denotes str.chars lists ↔ lists = l.toLists := by
  have enough := Nat.lt_succ_self str.chars.length
  have base : Recognizes SpellsTokens str.chars (parseEsIdList (str.chars.length + 1)) EsIdList
      buildIds NotInteger := recognizes_esIdList _ _ literals enough
  have reader : Recognizes SpellsTokens str.chars (parseList (str.chars.length + 1))
      (fun ts as => ∃ us, ListRule us as ∧ ts = us ++ []) buildLists (· = []) :=
    recognizes_list _ _ literals str.terminated enough base
  -- A derivation determines what the parser builds.
  have complete : ∀ lists, Denotes str.chars lists →
      ∃ l, affinityListCreate (some str) = some (.ok l) ∧ l.toLists = lists := by
    rintro lists ⟨ts, as, spells, derives, rfl⟩
    obtain ⟨rest, parsed, -⟩ := reader.complete List.suffix_rfl
      ⟨ts, derives, (List.append_nil ts).symm⟩ rfl ((List.append_nil ts).symm ▸ spells)
    refine ⟨buildLists as, ?_, toLists_buildLists (positive_of_listRule derives)
      (fits _ ⟨ts, as, spells, derives, rfl⟩)⟩
    rw [affinityListCreate]
    exact congrArg (Option.map (Except.map Prod.fst)) parsed
  have sound : ∀ l, affinityListCreate (some str) = some (.ok l) →
      ∃ lists, Denotes str.chars lists := by
    intro l created
    obtain ⟨result, parsed, same⟩ := Option.map_eq_some_iff.mp created
    obtain code | ⟨l', rest⟩ := result
    · cases same
    · obtain rfl := rest_eq_nil _ _ literals str.terminated base parsed
      obtain ⟨_, as, ⟨ts, derives, rfl⟩, -, spelled⟩ := reader.sound List.suffix_rfl parsed
      have spells := spelled [] (.nil (by simp))
      rw [List.append_nil, List.append_nil] at spells
      exact ⟨_, ts, as, spells, derives, rfl⟩
  obtain ⟨parsed, returned⟩ := Option.isSome_iff_exists.mp (reader.returns List.suffix_rfl)
  have created : affinityListCreate (some str) = some (Except.map Prod.fst parsed) := by
    rw [affinityListCreate]
    exact congrArg (Option.map (Except.map Prod.fst)) returned
  refine ⟨_, created, ⟨?_, ?_⟩, fun l same lists => ?_⟩
  · rintro ⟨l, same⟩
    exact sound l (by rw [created, same])
  · rintro ⟨lists, denotes⟩
    obtain ⟨l, again, -⟩ := complete lists denotes
    exact ⟨l, Option.some.inj (created.symm.trans again)⟩
  · have denoted : ∀ other, Denotes str.chars other → other = l.toLists := fun other denotes => by
      obtain ⟨l', again, exact⟩ := complete other denotes
      have := Option.some.inj (again.symm.trans created)
      rw [same] at this
      rw [← exact, Except.ok.inj this]
    refine ⟨denoted lists, ?_⟩
    rintro rfl
    obtain ⟨other, denotes⟩ := sound l (by rw [created, same])
    rw [← denoted other denotes]
    exact denotes

theorem ofDigitChars_lt {digits : List Char} (areDigits : ∀ c ∈ digits, c.isDigit) (n : ℕ) :
    Nat.ofDigitChars 10 digits n < (n + 1) * 10 ^ digits.length := by
  induction digits generalizing n with
  | nil => simp
  | cons c digits ih =>
      obtain ⟨digit, areDigits⟩ := List.forall_mem_cons.mp areDigits
      have small : c.toNat - '0'.toNat ≤ 9 := by
        simp only [Char.isDigit, Bool.and_eq_true, decide_eq_true_eq] at digit
        have upper : c.toNat ≤ 57 := digit.2
        have zero : '0'.toNat = 48 := rfl
        omega
      calc Nat.ofDigitChars 10 (c :: digits) n
          = Nat.ofDigitChars 10 digits (10 * n + (c.toNat - '0'.toNat)) := Nat.ofDigitChars_cons
        _ < (10 * n + (c.toNat - '0'.toNat) + 1) * 10 ^ digits.length := ih areDigits _
        _ ≤ (10 * (n + 1)) * 10 ^ digits.length := Nat.mul_le_mul_right _ (by omega)
        _ = (n + 1) * 10 ^ (c :: digits).length := by rw [List.length_cons, pow_succ]; ring

/-- The literals of a short string fit. -/
theorem literalsFit_of_length {str : List Char} (short : str.length < 10) : LiteralsFit str := by
  intro digits part areDigits
  calc Nat.ofDigitChars 10 digits 0
      < (0 + 1) * 10 ^ digits.length := ofDigitChars_lt areDigits 0
    _ ≤ 1 * 10 ^ 9 :=
        Nat.mul_le_mul_left _ (Nat.pow_le_pow_right (by decide) (by have := part.length_le; omega))
    _ < 2 ^ 31 := by decide

/-- A list of two IDs that is repeated, and one more. -/
def repeatedList : CString where
  chars := ['{', '1', ':', '2', '}', ':', '2', ',', '7']
  terminated := by decide
  short := by decide

theorem affinityListCreate_denotes_repeated : ∃ l, affinityListCreate (some repeatedList) = some l ∧
    l.toOption.map AffinityList.toLists = some [[1, 2], [2, 3], [7]] := by
  have literals : LiteralsFit repeatedList.chars := literalsFit_of_length (by decide)
  have fits : ∀ lists, Denotes repeatedList.chars lists → ListsFit lists := by
    rintro _ ⟨ts, as, spells, derives, rfl⟩
    obtain ⟨rest, read⟩ := readIntervals_complete literals repeatedList.terminated
      (Nat.lt_succ_self _) spells derives
    have evaluated : (readIntervals (repeatedList.chars.length + 1) repeatedList.chars).bind
        Except.toOption =
        some ([⟨[⟨1, 2, 1⟩], 2, 1⟩, ⟨[⟨7, 1, 1⟩], 1, 1⟩], []) := by decide +kernel
    rw [read] at evaluated
    obtain ⟨rfl, -⟩ := Prod.mk.inj (Option.some.inj evaluated)
    exact ⟨by decide, by decide, by decide⟩
  obtain ⟨l, created, -⟩ := affinityListCreate_denotes literals fits
  refine ⟨l, created, ?_⟩
  have evaluated : (affinityListCreate (some repeatedList)).map
      (fun l => l.toOption.map AffinityList.toLists) = some (some [[1, 2], [2, 3], [7]]) := by
    decide +kernel
  rw [created] at evaluated
  exact Option.some.inj evaluated

end ArgobotsReduction.Streams.Affinity
