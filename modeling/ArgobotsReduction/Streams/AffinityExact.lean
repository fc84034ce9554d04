import ArgobotsReduction.Streams.AffinityNumbers

/-!
# Exact runs of the affinity parser

If no number wraps, the parser returns, and the lists of a string that it accepts are those that
the string denotes (`ensures_affinityListCreate`).  Every reader of the calculation takes off a
phrase of its rule, and every interval is added with its own IDs.

It is also seen from such a run that the literals of the string fit, and so do its lists.
-/

set_option autoImplicit false

namespace ArgobotsReduction.Streams.AffinityNumbers

open Containers Calculation Grammars Affinity

/-! ## Stores -/

theorem exact_pure {α : Type} (a : α) : Exact Number.keep (pure a) := nofun

theorem exact_storeInt {x : ℤ} : Exact Number.keep (storeInt x) ↔ IntFits x := by
  rw [storeInt, exact_store, Number.keep_eq_iff]
  exact and_iff_left fun _ => nofun

theorem exact_storeUint32 {n : ℕ} : Exact Number.keep (storeUint32 n) ↔ n < 2 ^ 32 := by
  rw [storeUint32, exact_store, Number.keep_eq_iff]
  exact and_iff_left fun _ => nofun

theorem ensures_storeInt (x : ℤ) :
    Ensures Number.keep (storeInt x) fun y => y = x ∧ IntFits x :=
  .store fun same => .pure ⟨rfl, (Number.keep_eq_iff (.int x)).mp same⟩

/-! ## The literals of a string -/

section Literals

variable {digits front rest : List Char}

theorem le_ofDigitChars (digits : List Char) (n : ℕ) : n ≤ Nat.ofDigitChars 10 digits n := by
  rw [Nat.ofDigitChars_eq_ofDigitChars_zero]
  have := Nat.le_mul_of_pos_left n (Nat.pow_pos (n := digits.length) (show 0 < 10 by decide))
  omega

/-- The value of a part is at most that of all digits. -/
theorem ofDigitChars_part_le {part : List Char} (inside : part <:+: digits) :
    Nat.ofDigitChars 10 part 0 ≤ Nat.ofDigitChars 10 digits 0 := by
  obtain ⟨before, after, rfl⟩ := inside
  rw [Nat.ofDigitChars_append, Nat.ofDigitChars_append]
  refine le_trans ?_ (le_ofDigitChars after _)
  calc Nat.ofDigitChars 10 part 0
      ≤ 10 ^ part.length * Nat.ofDigitChars 10 before 0 + Nat.ofDigitChars 10 part 0 :=
        Nat.le_add_left _ _
    _ = Nat.ofDigitChars 10 part (Nat.ofDigitChars 10 before 0) :=
        Nat.ofDigitChars_eq_ofDigitChars_zero.symm

theorem literalsFit_append_of_no_digits (none : ∀ c ∈ front, ¬c.isDigit)
    (literals : LiteralsFit rest) : LiteralsFit (front ++ rest) := by
  intro part inside areDigits
  have absent : ∀ cs ⊆ front, (∀ c ∈ cs, c.isDigit) → cs = [] := fun cs within digits =>
    List.eq_nil_iff_forall_not_mem.mpr fun c member => none c (within member) (digits c member)
  rcases List.infix_append_iff.mp inside with before | after | ⟨cs, ds, rfl, suffix, head⟩
  · rw [absent part before.subset areDigits]
    decide
  · exact literals part after areDigits
  · rw [List.forall_mem_append] at areDigits
    rw [absent cs suffix.subset areDigits.1]
    exact literals ds head.isInfix areDigits.2

theorem literalsFit_append_of_digits (fits : Nat.ofDigitChars 10 digits 0 < 2 ^ 31)
    (stops : StopsDigits rest) (literals : LiteralsFit rest) : LiteralsFit (digits ++ rest) := by
  intro part inside areDigits
  rcases List.infix_append_iff.mp inside with before | after | ⟨cs, ds, rfl, suffix, head⟩
  · exact (ofDigitChars_part_le before).trans_lt fits
  · exact literals part after areDigits
  · rw [List.forall_mem_append] at areDigits
    have none : ds = [] := by
      cases ds with
      | nil => rfl
      | cons c ds =>
          obtain ⟨others, rfl⟩ := head
          exact absurd (areDigits.2 c List.mem_cons_self) (stops c rfl)
    rw [none, List.append_nil]
    exact (ofDigitChars_part_le suffix.isInfix).trans_lt fits

theorem not_isDigit_of_isWhitespace {c : Char} (blank : isWhitespace c) : ¬c.isDigit := by
  intro digit
  rw [isWhitespace_of_isDigit digit] at blank
  cases blank

theorem not_isDigit_of_isSign {c : Char} (isSign : c = '+' ∨ c = '-') : ¬c.isDigit := by
  rcases isSign with rfl | rfl <;> decide

end Literals

/-! ## Tokens -/

/-- The string begins with the tokens, and this is the rest of it.  The literals of the tokens
fit. -/
structure Takes (s rest : List Char) (ts : List Token) : Prop where
  suffix : rest <:+ s
  spells : ∀ us, SpellsTokens rest us → SpellsTokens s (ts ++ us)
  literals : LiteralsFit rest → LiteralsFit s

theorem Takes.refl (s : List Char) : Takes s s [] :=
  ⟨List.suffix_rfl, fun _ after => after, fun fit => fit⟩

theorem Takes.trans {s middle rest : List Char} {ts us : List Token} (first : Takes s middle ts)
    (second : Takes middle rest us) : Takes s rest (ts ++ us) := by
  refine ⟨second.suffix.trans first.suffix, fun vs after => ?_,
    fun fit => first.literals (second.literals fit)⟩
  rw [List.append_assoc]
  exact first.spells _ (second.spells vs after)

theorem takes_symbol {s rest : List Char} (symbol : Symbol)
    (consumed : consumeSymbol symbol.char s = some rest) : Takes s rest [.symbol symbol] := by
  have consumes : Consumes SpellsTokens s (consumeSymbol symbol.char) [.symbol symbol]
      fun _ => True := consumes_symbol symbol
  refine ⟨consumes.suffix consumed,
    fun _ after => consumes.sound List.suffix_rfl consumed after, fun fit => ?_⟩
  obtain ⟨space, blanks, rfl | ⟨terminates, -⟩⟩ := exists_of_consumeSymbol consumed
  · rw [List.append_cons]
    refine literalsFit_append_of_no_digits (List.forall_mem_append.mpr ⟨fun c member => ?_, ?_⟩) fit
    · exact not_isDigit_of_isWhitespace (blanks c member)
    · rw [List.forall_mem_singleton]
      exact not_isDigit_char symbol
  · exact absurd terminates (char_ne_terminator symbol)

theorem stopsDigits_nil : StopsDigits [] := nofun

/-- What the loop of `consume_int` has read when it succeeds. -/
def ReadsNumber (s rest : List Char) (val : ℕ) (valSign v : ℤ) (flag : Flag) : Prop :=
  ∃ space signs digits, s = space ++ (signs ++ (digits ++ rest)) ∧
    (∀ c ∈ space, isWhitespace c) ∧ (flag ≠ .n → space = []) ∧
    (∀ c ∈ signs, c = '+' ∨ c = '-') ∧ (flag = .v → signs = []) ∧
    (∀ c ∈ digits, c.isDigit) ∧ (flag ≠ .v → digits ≠ []) ∧ StopsDigits rest ∧
    Nat.ofDigitChars 10 digits val < 2 ^ 31 ∧
    v = Nat.ofDigitChars 10 digits val * (valSign * sign signs)

namespace ReadsNumber

variable {s rest : List Char} {val : ℕ} {valSign v : ℤ} {flag : Flag} {c : Char}

theorem stop (stops : StopsDigits s) (fits : val < 2 ^ 31) (valSign : ℤ) :
    ReadsNumber s s val valSign (val * valSign) .v :=
  ⟨[], [], [], rfl, by simp, fun _ => rfl, by simp, fun _ => rfl, by simp,
    fun other => absurd rfl other, stops, fits, by simp [sign]⟩

theorem minus (reads : ReadsNumber s rest val (-valSign) v .s) (early : flag ≠ .v) :
    ReadsNumber ('-' :: s) rest val valSign v flag := by
  obtain ⟨space, signs, digits, rfl, -, noSpace, areSigns, -, areDigits, nonempty, stops, fits,
    rfl⟩ := reads
  refine ⟨[], '-' :: signs, digits, by rw [noSpace nofun]; rfl, by simp, fun _ => rfl,
    List.forall_mem_cons.mpr ⟨.inr rfl, areSigns⟩, fun late => absurd late early, areDigits,
    fun _ => nonempty nofun, stops, fits, ?_⟩
  rw [sign_cons_minus, mul_neg, neg_mul]

theorem plus (reads : ReadsNumber s rest val valSign v .s) (early : flag ≠ .v) :
    ReadsNumber ('+' :: s) rest val valSign v flag := by
  obtain ⟨space, signs, digits, rfl, -, noSpace, areSigns, -, areDigits, nonempty, stops, fits,
    rfl⟩ := reads
  refine ⟨[], '+' :: signs, digits, by rw [noSpace nofun]; rfl, by simp, fun _ => rfl,
    List.forall_mem_cons.mpr ⟨.inl rfl, areSigns⟩, fun late => absurd late early, areDigits,
    fun _ => nonempty nofun, stops, fits, ?_⟩
  rw [sign_cons_plus]

theorem blank (reads : ReadsNumber s rest val valSign v .n) (isBlank : isWhitespace c) :
    ReadsNumber (c :: s) rest val valSign v .n := by
  obtain ⟨space, signs, digits, rfl, blanks, -, areSigns, -, areDigits, nonempty, stops, fits,
    rfl⟩ := reads
  exact ⟨c :: space, signs, digits, rfl, List.forall_mem_cons.mpr ⟨isBlank, blanks⟩,
    fun other => absurd rfl other, areSigns, nofun, areDigits, nonempty, stops, fits, rfl⟩

theorem digit (reads : ReadsNumber s rest (10 * val + (c.toNat - '0'.toNat)) valSign v .v)
    (isDigit : c.isDigit) : ReadsNumber (c :: s) rest val valSign v flag := by
  obtain ⟨space, signs, digits, rfl, -, noSpace, -, noSigns, areDigits, -, stops, fits, rfl⟩ := reads
  obtain rfl := noSpace nofun
  obtain rfl := noSigns rfl
  refine ⟨[], [], c :: digits, rfl, by simp, fun _ => rfl, by simp, fun _ => rfl,
    List.forall_mem_cons.mpr ⟨isDigit, areDigits⟩, fun _ => List.cons_ne_nil _ _, stops, ?_, ?_⟩
  · rw [Nat.ofDigitChars_cons]
    exact fits
  · rw [Nat.ofDigitChars_cons]

theorem shorter (reads : ReadsNumber s rest val valSign v .n) : rest.length < s.length := by
  obtain ⟨space, signs, digits, rfl, -, -, -, -, -, nonempty, -, -, -⟩ := reads
  have positive := List.length_pos_of_ne_nil (nonempty nofun)
  simp only [List.length_append]
  omega

/-- A number with the blanks before it is a token. -/
theorem takes (reads : ReadsNumber s rest 0 1 v .n) : Takes s rest [.integer v] := by
  obtain ⟨space, signs, digits, rfl, blanks, -, areSigns, -, areDigits, nonempty, stops, fits,
    rfl⟩ := reads
  refine ⟨⟨space ++ (signs ++ digits), by simp⟩, fun us after => ?_, fun fit => ?_⟩
  · rw [one_mul, mul_comm, ← List.append_assoc signs]
    exact .cons blanks (.integer areSigns (nonempty nofun) areDigits) after
  · refine literalsFit_append_of_no_digits (fun c blank => ?_)
      (literalsFit_append_of_no_digits (fun c isSign => ?_)
        (literalsFit_append_of_digits fits stops fit))
    · exact not_isDigit_of_isWhitespace (blanks c blank)
    · exact not_isDigit_of_isSign (areSigns c isSign)

end ReadsNumber

theorem ensures_consumeIntLoop (s : List Char) {val : ℕ} (fits : val < 2 ^ 31) (valSign : ℤ)
    (flag : Flag) :
    Ensures Number.keep (consumeIntLoop s val valSign flag) fun result =>
      ∀ v rest, result = some (v, rest) → ReadsNumber s rest val valSign v flag := by
  induction s generalizing val valSign flag with
  | nil =>
      rw [consumeIntLoop]
      split_ifs with read
      · refine .bind (ensures_storeInt _) ?_
        rintro _ ⟨rfl, -⟩
        refine .pure ?_
        rintro _ _ ⟨⟩
        rw [read]
        exact .stop stopsDigits_nil fits valSign
      · refine .pure ?_
        rintro _ _ ⟨⟩
  | cons c s ih =>
      rw [consumeIntLoop]
      split_ifs with minus plus blank digit read
      · obtain ⟨early, rfl⟩ := minus
        exact (ih fits (-valSign) .s).mono fun _ reads v rest same => (reads v rest same).minus early
      · obtain ⟨early, rfl⟩ := plus
        exact (ih fits valSign .s).mono fun _ reads v rest same => (reads v rest same).plus early
      · obtain ⟨rfl, isBlank⟩ := blank
        exact (ih fits valSign .n).mono fun _ reads v rest same => (reads v rest same).blank isBlank
      · refine .bind (ensures_storeInt _) ?_
        rintro _ ⟨rfl, -, upper⟩
        have next : (val : ℤ) * 10 + (c.toNat - '0'.toNat : ℕ) =
            (10 * val + (c.toNat - '0'.toNat) : ℕ) := by
          push_cast
          ring
        rw [next] at upper ⊢
        refine (ih (by omega) valSign .v).mono fun _ reads v rest same => ?_
        exact (reads v rest same).digit digit
      · refine .bind (ensures_storeInt _) ?_
        rintro _ ⟨rfl, -⟩
        refine .pure ?_
        rintro _ _ ⟨⟩
        rw [read]
        refine .stop ?_ fits _
        rintro _ ⟨⟩
        exact digit
      · refine .pure ?_
        rintro _ _ ⟨⟩

/-- **`consume_int` reads the exact value of a literal.** -/
theorem ensures_consumeInt (s : List Char) :
    Ensures Number.keep (consumeInt s) fun result =>
      ∀ v rest, result = some (v, rest) → rest.length < s.length ∧ Takes s rest [.integer v] := by
  refine (ensures_consumeIntLoop s (Nat.two_pow_pos 31) 1 .n).mono fun result reads v rest same => ?_
  exact ⟨(reads v rest same).shorter, (reads v rest same).takes⟩

theorem ensures_consumePint (s : List Char) :
    Ensures Number.keep (consumePint s) fun result =>
      ∀ v rest, result = some (v, rest) → 0 < v ∧ Takes s rest [.integer v] := by
  refine .bind (ensures_consumeInt s) fun result takes => .pure fun v rest same => ?_
  obtain ⟨found, positive⟩ := Option.filter_eq_some_iff.mp same
  exact ⟨of_decide_eq_true positive, (takes v rest found).2⟩

theorem ensures_consumeNumStride (s : List Char) :
    Ensures Number.keep (consumeNumStride s) fun result => ∀ num stride rest,
      result = some ((num, stride), rest) →
        ∃ tail, NumStride tail num stride ∧ Takes s rest tail := by
  rw [consumeNumStride]
  cases colon : consumeSymbol ':' s with
  | none =>
      refine .pure ?_
      rintro _ _ _ ⟨⟩
      exact ⟨[], .neither, .refl s⟩
  | some s₁ =>
      have first : Takes s s₁ [.symbol .colon] := takes_symbol .colon colon
      refine .bind (ensures_consumePint s₁) fun result found => ?_
      rcases result with - | ⟨n, s₂⟩
      · refine .pure ?_
        rintro _ _ _ ⟨⟩
      obtain ⟨positive, number⟩ := found n s₂ rfl
      dsimp only
      cases colon₂ : consumeSymbol ':' s₂ with
      | none =>
          refine .pure ?_
          rintro _ _ _ ⟨⟩
          exact ⟨_, .num positive, first.trans number⟩
      | some s₃ =>
          have second : Takes s₂ s₃ [.symbol .colon] := takes_symbol .colon colon₂
          refine .bind (ensures_consumeInt s₃) fun result found => .pure ?_
          intro num stride rest same
          obtain ⟨⟨stride', rest'⟩, rfl, values⟩ := Option.map_eq_some_iff.mp same
          obtain ⟨-, third⟩ := found stride' rest' rfl
          cases values
          exact ⟨_, .both _ positive, first.trans (number.trans (second.trans third))⟩

/-! ## Adding intervals -/

/-- An interval of IDs is exact when its IDs and their number fit. -/
theorem exact_idListAdd {l : IdList} {id : ℤ} {num : ℕ} {stride : ℤ} :
    Exact Number.keep (idListAdd l id num stride) ↔
      l.num + num < 2 ^ 32 ∧ ∀ i ∈ List.range num, IntFits (id + stride * i) := by
  rw [idListAdd, exact_bind, exact_storeUint32, exact_bind]
  refine and_congr_right fun _ => ?_
  rw [exact_foldlM]
  · exact and_iff_left (exact_pure _)
  · intro ids i
    rw [exact_bind, exact_storeInt]
    exact and_iff_left (exact_pure _)

/-- The copy of a list is exact when its IDs fit. -/
theorem exact_idListCopy {base : IdList} {stride : ℤ} {i : ℕ} :
    Exact Number.keep (idListCopy base stride i) ↔
      ∀ id ∈ base.toList, IntFits (id + stride * i) := by
  rw [idListCopy, exact_bind, exact_foldlM, IdList.toList, List.forall_mem_map]
  · exact and_iff_left (exact_pure _)
  · intro ids j
    rw [exact_bind, exact_storeInt]
    exact and_iff_left (exact_pure _)

/-- An interval of lists is exact when the IDs of the copies and the number of lists fit. -/
theorem exact_listAdd {l : AffinityList} {base : IdList} {num : ℕ} {stride : ℤ} :
    Exact Number.keep (listAdd l base num stride) ↔ l.num + num < 2 ^ 32 ∧
      ∀ i ∈ span 1 num, ∀ id ∈ base.toList, IntFits (id + stride * i) := by
  rw [listAdd, exact_bind, exact_storeUint32, exact_bind]
  refine and_congr_right fun _ => ?_
  rw [exact_foldlM]
  · exact and_iff_left (exact_pure _)
  · intro lists i
    rw [exact_bind, exact_idListCopy]
    exact and_iff_left (exact_pure _)

/-- The list consists of the IDs of the intervals, and fits. -/
structure HasIds (intervals : List (Strided ℤ)) (l : IdList) : Prop where
  ids : l.toList = intervals.flatMap Strided.ids
  fits : ∀ id ∈ l.toList, IntFits id
  short : l.num < 2 ^ 32

theorem HasIds.create : HasIds [] .create := ⟨rfl, nofun, Nat.two_pow_pos 32⟩

theorem HasIds.add {intervals : List (Strided ℤ)} {l : IdList} (has : HasIds intervals l)
    (r : Strided ℤ) :
    Ensures Number.keep (idListAdd l r.base r.num r.stride) (HasIds (intervals ++ [r])) := by
  intro exact
  obtain ⟨room, fits⟩ := exact_idListAdd.mp exact
  have added : (l.add r.base r.num r.stride).toList = l.toList ++ r.ids :=
    IdList.toList_add room fun i below => fits i (List.mem_range.mpr below)
  rw [run_idListAdd]
  constructor
  · rw [added, has.ids, List.flatMap_append, List.flatMap_singleton]
  · rw [added, List.forall_mem_append]
    exact ⟨has.fits, List.forall_mem_map.mpr fits⟩
  · exact Nat.mod_lt _ (Nat.two_pow_pos 32)

/-- The list consists of the lists of the intervals, and fits. -/
structure HasLists (intervals : List (Strided (List (Strided ℤ)))) (l : AffinityList) : Prop where
  lists : l.toLists = intervals.flatMap Strided.idLists
  fits : ListsFit l.toLists

theorem HasLists.create : HasLists [] .create := ⟨rfl, Nat.two_pow_pos 32, nofun, nofun⟩

/-- The intervals repeat related bases in the same way. -/
structure Related {α β : Type} (value : α → β → Prop) (r : Strided α) (r' : Strided β) : Prop where
  base : value r.base r'.base
  num : r.num = r'.num
  stride : r.stride = r'.stride

theorem HasLists.add {intervals : List (Strided (List (Strided ℤ)))} {l : AffinityList}
    (has : HasLists intervals l) {r : Strided (List (Strided ℤ))} {r' : Strided IdList}
    (related : Related HasIds r r') :
    Ensures Number.keep (listAdd l r'.base r'.num r'.stride) (HasLists (intervals ++ [r])) := by
  intro exact
  obtain ⟨room, copies⟩ := exact_listAdd.mp exact
  have fits : ∀ i < r'.num, ∀ id ∈ r'.base.toList, IntFits (id + r'.stride * i) := by
    intro i below
    rcases Nat.eq_zero_or_pos i with rfl | later
    · intro id member
      rw [Nat.cast_zero, mul_zero, add_zero]
      exact related.base.fits id member
    · exact copies i (mem_span.mpr ⟨later, below⟩)
  have added : (l.add r'.base r'.num r'.stride).toLists = l.toLists ++
      (List.range r'.num).map fun i : ℕ => r'.base.toList.map fun id => id + r'.stride * i :=
    AffinityList.toLists_add room fits
  rw [run_listAdd]
  refine ⟨?_, ?_, ?_, ?_⟩
  · rw [added, has.lists, related.base.ids, List.flatMap_append, List.flatMap_singleton,
      Strided.idLists, related.num, related.stride]
  · rw [AffinityList.length_toLists]
    exact Nat.mod_lt _ (Nat.two_pow_pos 32)
  · rw [added, List.forall_mem_append]
    refine ⟨has.fits.lengths, List.forall_mem_map.mpr fun i _ => ?_⟩
    rw [List.length_map, IdList.length_toList]
    exact related.base.short
  · rw [added, List.forall_mem_append]
    refine ⟨has.fits.ids, List.forall_mem_map.mpr fun i turn => List.forall_mem_map.mpr ?_⟩
    exact fits i (List.mem_range.mp turn)

/-! ## Phrases -/

section Phrases

variable {α β σ : Type} {rule : List Token → α → Prop} {value : α → β → Prop}

/-- A reader returns, and what it takes off is a phrase of the rule. -/
def ReadsPhrase (rule : List Token → α → Prop) (value : α → β → Prop) (s : List Char)
    (result : Reading Code Char β) : Prop :=
  ∃ read, result = some read ∧ ∀ b rest, read = .ok (b, rest) → rest.length < s.length ∧
    ∃ ts a, rule ts a ∧ value a b ∧ Takes s rest ts

theorem readsPhrase_error (code : Code) (s : List Char) :
    ReadsPhrase rule value s (some (.error code)) := ⟨_, rfl, nofun⟩

theorem readsPhrase_ok {s rest : List Char} {b : β} (shorter : rest.length < s.length)
    {ts : List Token} {a : α} (derives : rule ts a) (holds : value a b) (takes : Takes s rest ts) :
    ReadsPhrase rule value s (some (.ok (b, rest))) := by
  refine ⟨_, rfl, ?_⟩
  rintro _ _ ⟨⟩
  exact ⟨shorter, ts, a, derives, holds, takes⟩

theorem ensures_parseId (s : List Char) :
    Ensures Number.keep (parseId s) (ReadsPhrase Id Eq s) := by
  refine .bind (ensures_consumeInt s) fun result found => ?_
  rcases result with - | ⟨v, rest⟩
  · exact .pure (readsPhrase_error ..)
  · obtain ⟨shorter, takes⟩ := found v rest rfl
    exact .pure (readsPhrase_ok shorter (.integer v) rfl takes)

theorem ensures_parseStrided {parseBase : List Char → Calculation Number (Reading Code Char β)}
    {s : List Char} (base : Ensures Number.keep (parseBase s) (ReadsPhrase rule value s)) :
    Ensures Number.keep (parseStrided parseBase s)
      (ReadsPhrase (StridedRule rule) (Related value) s) := by
  refine .bind base ?_
  rintro _ ⟨code | ⟨b, s₁⟩, rfl, found⟩
  · exact .pure (readsPhrase_error ..)
  obtain ⟨shorter, ts, a, derives, holds, takes⟩ := found b s₁ rfl
  refine .bind (ensures_consumeNumStride s₁) fun result found => ?_
  rcases result with - | ⟨⟨num, stride⟩, s₂⟩
  · exact .pure (readsPhrase_error ..)
  obtain ⟨tail, numStride, takesTail⟩ := found num stride s₂ rfl
  have count : ((num.toNat : ℕ) : ℤ) = num := Int.toNat_of_nonneg numStride.positive.le
  dsimp only
  split_ifs with most
  · exact .pure (readsPhrase_error ..)
  · refine .pure (readsPhrase_ok (takesTail.suffix.length_le.trans_lt shorter)
      (a := ⟨a, num.toNat, stride⟩) (stridedRule_iff.mpr ⟨ts, tail, derives, ?_, ?_, rfl⟩)
      ⟨holds, rfl, rfl⟩ (takes.trans takesTail))
    · rw [count]
      exact numStride
    · show num.toNat < maxNumElems
      omega

/-- The loop returns if it has enough turns, and adds every interval that it reads. -/
theorem ensures_parseSeparated {read : List Char → Calculation Number (Reading Code Char β)}
    {add : σ → β → Calculation Number σ} {built : List α → σ → Prop} {bound : ℕ}
    (reads : ∀ s, s.length < bound → Ensures Number.keep (read s) (ReadsPhrase rule value s))
    (adds : ∀ {as l a b}, built as l → value a b →
      Ensures Number.keep (add l b) (built (as ++ [a])))
    (ending : List Char → Option (List Char)) {fuel : ℕ} {s : List Char}
    (short : s.length < bound) (enough : s.length < fuel) {as : List α} {l : σ}
    (before : built as l) :
    Ensures Number.keep (parseSeparated read add (consumeSymbol ',') ending fuel l s) fun result =>
      ∃ parsed, result = some parsed ∧ ∀ l' rest, parsed = .ok (l', rest) →
        ∃ ts others middle, Chain (.symbol .comma) rule ts others ∧ built (as ++ others) l' ∧
          Takes s middle ts ∧ middle.length < s.length ∧ ending middle = some rest := by
  induction fuel generalizing s as l with
  | zero => cases enough
  | succ fuel ih =>
      refine .bind (reads s short) ?_
      rintro _ ⟨code | ⟨b, s₁⟩, rfl, found⟩
      · exact .pure ⟨_, rfl, nofun⟩
      obtain ⟨shorter, ts, a, derives, holds, takes⟩ := found b s₁ rfl
      refine .bind (adds before holds) fun l after => ?_
      cases comma : consumeSymbol ',' s₁ with
      | some s₂ =>
          have separates : Takes s₁ s₂ [.symbol .comma] := takes_symbol .comma comma
          have less := separates.suffix.length_le
          refine (ih (by omega) (by omega) after).mono ?_
          rintro _ ⟨parsed, rfl, rest⟩
          refine ⟨parsed, rfl, fun l' tail same => ?_⟩
          obtain ⟨us, others, middle, chain, holds', takes', shorter', ended⟩ := rest l' tail same
          refine ⟨ts ++ .symbol .comma :: us, a :: others, middle, .cons derives chain, ?_,
            takes.trans (separates.trans takes'), by omega, ended⟩
          rw [← List.append_cons] at holds'
          exact holds'
      | none =>
          dsimp only
          cases ended : ending s₁ with
          | none => exact .pure ⟨_, rfl, nofun⟩
          | some s₂ =>
              refine .pure ⟨_, rfl, ?_⟩
              rintro _ _ ⟨⟩
              exact ⟨ts, [a], s₁, .one derives, after, takes, shorter, ended⟩

end Phrases

/-- **`parse_es_id_list` builds the IDs of an `<es-id-list>`.** -/
theorem ensures_parseEsIdList {fuel : ℕ} {s : List Char} (enough : s.length < fuel) :
    Ensures Number.keep (parseEsIdList fuel s) (ReadsPhrase EsIdList HasIds s) := by
  refine .bind (ensures_consumeInt s) fun result found => ?_
  rcases result with - | ⟨val, rest⟩
  · cases brace : consumeSymbol '{' s with
    | none => exact .pure (readsPhrase_error ..)
    | some s₁ =>
        have opens : Takes s s₁ [.symbol .opening] := takes_symbol .opening brace
        have less := opens.suffix.length_le
        refine (ensures_parseSeparated (fun s _ => ensures_parseStrided (ensures_parseId s)) ?_
          (consumeSymbol '}') (less.trans_lt enough) (less.trans_lt enough) HasIds.create).mono ?_
        · rintro as l a b has ⟨base, num, stride⟩
          rw [← base, ← num, ← stride]
          exact has.add a
        · rintro _ ⟨parsed, rfl, found⟩
          refine ⟨parsed, rfl, fun l rest same => ?_⟩
          obtain ⟨ts, as, middle, chain, has, takes, shorter, ended⟩ := found l rest same
          have closes : Takes middle rest [.symbol .closing] := takes_symbol .closing ended
          have less' := closes.suffix.length_le
          exact ⟨by omega, _, as, .idList (separated_iff_chain.mpr chain), has,
            opens.trans (takes.trans closes)⟩
  · obtain ⟨shorter, takes⟩ := found val rest rfl
    refine .bind (HasIds.create.add ⟨val, 1, 1⟩) fun l has => .pure ?_
    exact readsPhrase_ok shorter (.id (.integer val)) has takes

/-- What is known of a list that an exact run of the parser returns. -/
structure Parsed (str : CString) (l : AffinityList) : Prop where
  denotes : Denotes str.chars l.toLists
  literals : LiteralsFit str.chars
  fits : ListsFit l.toLists

/-- **The parser returns, and builds the lists that the string denotes.** -/
theorem ensures_affinityListCreate (str : CString) :
    Ensures Number.keep (affinityListCreate str) fun result =>
      ∃ created, result = some created ∧ ∀ l, created = .ok l → Parsed str l := by
  have enough := Nat.lt_succ_self str.chars.length
  refine .bind (ensures_parseSeparated
    (fun s short => ensures_parseStrided (ensures_parseEsIdList short)) ?_
    (consumeSymbol terminator) enough enough HasLists.create) ?_
  · rintro as l r r' has related
    exact has.add related
  · rintro _ ⟨parsed, rfl, found⟩
    refine .pure ⟨_, rfl, fun l created => ?_⟩
    rcases parsed with code | ⟨l, rest⟩
    · cases created
    cases created
    obtain ⟨ts, as, middle, chain, has, takes, -, ended⟩ := found l rest rfl
    have blank : ∀ c ∈ middle, isWhitespace c := by
      obtain ⟨space, blanks, rfl | ⟨-, rfl, -⟩⟩ := exists_of_consumeSymbol ended
      · exact absurd (takes.suffix.subset (by simp)) str.terminated
      · exact blanks
    have spells := takes.spells [] (.nil blank)
    rw [List.append_nil] at spells
    refine ⟨⟨ts, as, spells, separated_iff_chain.mpr chain, has.lists⟩, takes.literals ?_, has.fits⟩
    rw [← List.append_nil middle]
    refine literalsFit_append_of_no_digits (fun c member => ?_) fun part none _ => ?_
    · exact not_isDigit_of_isWhitespace (blank c member)
    · rw [List.infix_nil.mp none]
      decide

end ArgobotsReduction.Streams.AffinityNumbers
