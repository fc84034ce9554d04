import ArgobotsReduction.Streams.AffinityExact

/-!
# When the affinity parser wraps a number

The parser checks how often an ID or a list is repeated, and nothing else.  So no number wraps
exactly when the numbers of the string fit, where the string is read with exact numbers as far as
the parser reads it (`affinity_exact_iff`); a string may be rejected after a number has wrapped.

For a string that is accepted, these numbers are its literals and the lists that it denotes: each
literal must be at most `INT_MAX`, each ID an `int`, and there must be fewer than `2 ^ 32` lists
and fewer than `2 ^ 32` IDs in each.
-/

set_option autoImplicit false

namespace ArgobotsReduction.Streams.AffinityNumbers

open Containers Calculation Grammars Affinity

/-! ## Literals -/

section Literals

variable {s rest space signs digits : List Char} {valSign : ℤ}

theorem consumeInt_space (blanks : ∀ c ∈ space, isWhitespace c) (s : List Char) :
    consumeInt (space ++ s) = consumeInt s :=
  skip_blanks (fun _ blank _ => branch_blank _ _ _ _ _ blank) blanks s

theorem consumeIntLoop_digit {c : Char} (digit : c.isDigit) (s : List Char) (val valSign : ℤ)
    (flag : Flag) : consumeIntLoop (c :: s) val valSign flag = (do
      let val ← storeInt (val * 10 + (c.toNat - '0'.toNat : ℕ))
      consumeIntLoop s val valSign .v) :=
  branch_digit _ _ _ _ _ digit flag

/-- A value fits with either sign. -/
theorem intFits_mul_sign {val : ℕ} (fits : val < 2 ^ 31) (unit : valSign = 1 ∨ valSign = -1) :
    IntFits (val * valSign) := by
  rcases unit with rfl | rfl
  · exact ⟨by omega, by omega⟩
  · exact ⟨by omega, by omega⟩

theorem neg_unit (unit : valSign = 1 ∨ valSign = -1) : -valSign = 1 ∨ -valSign = -1 := by
  rcases unit with rfl | rfl
  · exact .inr rfl
  · exact .inl (neg_neg 1)

theorem next_value (val : ℕ) (c : Char) : (val : ℤ) * 10 + (c.toNat - '0'.toNat : ℕ) =
    (10 * val + (c.toNat - '0'.toNat) : ℕ) := by
  push_cast
  ring

theorem exact_consumeIntLoop_stop (stops : StopsDigits rest) {val : ℕ} (fits : val < 2 ^ 31)
    (unit : valSign = 1 ∨ valSign = -1) :
    Exact Number.keep (consumeIntLoop rest val valSign .v) := by
  have stores : consumeIntLoop rest val valSign .v = (do
      let val ← storeInt (val * valSign)
      return some (val, rest)) := by
    cases rest with
    | nil => rfl
    | cons c rest =>
        rw [consumeIntLoop, if_neg fun h => h.1 rfl, if_neg fun h => h.1 rfl,
          if_neg fun h => absurd h.1 (by decide), if_neg (stops c rfl), if_pos rfl]
  rw [stores, exact_bind, exact_storeInt]
  exact ⟨intFits_mul_sign fits unit, exact_pure _⟩

/-- The digits are exact when the value of all of them fits, since the values before are less. -/
theorem exact_consumeIntLoop_digits (areDigits : ∀ c ∈ digits, c.isDigit)
    (stops : StopsDigits rest) {val : ℕ} (fits : val < 2 ^ 31)
    (unit : valSign = 1 ∨ valSign = -1) :
    Exact Number.keep (consumeIntLoop (digits ++ rest) val valSign .v) ↔
      Nat.ofDigitChars 10 digits val < 2 ^ 31 := by
  induction digits generalizing val with
  | nil => exact iff_of_true (exact_consumeIntLoop_stop stops fits unit) fits
  | cons c digits ih =>
      obtain ⟨digit, areDigits⟩ := List.forall_mem_cons.mp areDigits
      rw [List.cons_append, consumeIntLoop_digit digit, exact_bind, exact_storeInt, run_storeInt,
        next_value, Nat.ofDigitChars_cons]
      by_cases small : 10 * val + (c.toNat - '0'.toNat) < 2 ^ 31
      · have intFits : IntFits (10 * val + (c.toNat - '0'.toNat) : ℕ) := ⟨by omega, by omega⟩
        rw [asInt_of_fits intFits, ih areDigits small]
        exact and_iff_right intFits
      · have least := le_ofDigitChars digits (10 * val + (c.toNat - '0'.toNat))
        refine iff_of_false ?_ (by omega)
        rintro ⟨⟨-, upper⟩, -⟩
        omega

theorem exact_consumeIntLoop_number (areSigns : ∀ c ∈ signs, c = '+' ∨ c = '-')
    (nonempty : digits ≠ []) (areDigits : ∀ c ∈ digits, c.isDigit) (stops : StopsDigits rest)
    (unit : valSign = 1 ∨ valSign = -1) {flag : Flag} (early : flag ≠ .v) :
    Exact Number.keep (consumeIntLoop (signs ++ (digits ++ rest)) 0 valSign flag) ↔
      Nat.ofDigitChars 10 digits 0 < 2 ^ 31 := by
  induction signs generalizing valSign flag with
  | nil =>
      obtain ⟨c, digits, rfl⟩ := List.exists_cons_of_ne_nil nonempty
      have same : consumeIntLoop (c :: (digits ++ rest)) 0 valSign flag =
          consumeIntLoop (c :: (digits ++ rest)) 0 valSign .v := by
        rw [consumeIntLoop_digit (areDigits c List.mem_cons_self),
          consumeIntLoop_digit (areDigits c List.mem_cons_self)]
      rw [List.nil_append, List.cons_append, same, ← List.cons_append]
      exact exact_consumeIntLoop_digits areDigits stops (Nat.two_pow_pos 31) unit
  | cons c signs ih =>
      obtain ⟨isSign, others⟩ := List.forall_mem_cons.mp areSigns
      have next : Flag.s ≠ .v := by decide
      rw [List.cons_append, consumeIntLoop]
      rcases isSign with rfl | rfl
      · rw [if_neg fun h => absurd h.2 (by decide), if_pos ⟨early, rfl⟩]
        exact ih others unit next
      · rw [if_pos ⟨early, rfl⟩]
        exact ih others (neg_unit unit) next

/-- **A literal is exact when its value is at most `INT_MAX`.** -/
theorem exact_consumeInt_iff (blanks : ∀ c ∈ space, isWhitespace c)
    (areSigns : ∀ c ∈ signs, c = '+' ∨ c = '-') (nonempty : digits ≠ [])
    (areDigits : ∀ c ∈ digits, c.isDigit) (stops : StopsDigits rest) :
    Exact Number.keep (consumeInt (space ++ (signs ++ (digits ++ rest)))) ↔
      Nat.ofDigitChars 10 digits 0 < 2 ^ 31 := by
  rw [consumeInt_space blanks]
  exact exact_consumeIntLoop_number areSigns nonempty areDigits stops (.inl rfl) nofun

end Literals

/-! ## Exact readers -/

section Readers

variable {str s : List Char}

theorem exact_consumeIntLoop {val : ℕ} {valSign : ℤ} (unit : valSign = 1 ∨ valSign = -1)
    {flag : Flag}
    (numbers : ∀ digits, digits <+: s → (∀ c ∈ digits, c.isDigit) →
      Nat.ofDigitChars 10 digits val < 2 ^ 31)
    (early : flag ≠ .v → val = 0 ∧ LiteralsFit s) :
    Exact Number.keep (consumeIntLoop s val valSign flag) := by
  induction s generalizing val valSign flag with
  | nil =>
      have fits : val < 2 ^ 31 := numbers [] List.nil_prefix nofun
      rw [consumeIntLoop]
      split_ifs
      · rw [exact_bind, exact_storeInt]
        exact ⟨intFits_mul_sign fits unit, exact_pure _⟩
      · exact exact_pure _
  | cons c s ih =>
      have later : LiteralsFit (c :: s) → LiteralsFit s := fun fit digits part =>
        fit digits (part.trans (List.suffix_cons c s).isInfix)
      rw [consumeIntLoop]
      split_ifs with minus plus blank digit read
      · obtain ⟨rfl, fit⟩ := early minus.1
        exact ih (neg_unit unit) (fun digits head => later fit digits head.isInfix)
          fun _ => ⟨rfl, later fit⟩
      · obtain ⟨rfl, fit⟩ := early plus.1
        exact ih unit (fun digits head => later fit digits head.isInfix)
          fun _ => ⟨rfl, later fit⟩
      · obtain ⟨rfl, fit⟩ := early (by rw [blank.1]; decide)
        exact ih unit (fun digits head => later fit digits head.isInfix)
          fun _ => ⟨rfl, later fit⟩
      · have after : ∀ digits, digits <+: s → (∀ d ∈ digits, d.isDigit) →
            Nat.ofDigitChars 10 digits (10 * val + (c.toNat - '0'.toNat)) < 2 ^ 31 := by
          intro digits head areDigits
          rw [← Nat.ofDigitChars_cons]
          exact numbers _ (List.prefix_cons_inj c |>.mpr head)
            (List.forall_mem_cons.mpr ⟨digit, areDigits⟩)
        have small : 10 * val + (c.toNat - '0'.toNat) < 2 ^ 31 := after [] List.nil_prefix nofun
        have intFits : IntFits (10 * val + (c.toNat - '0'.toNat) : ℕ) := ⟨by omega, by omega⟩
        rw [exact_bind, exact_storeInt, run_storeInt, next_value, asInt_of_fits intFits]
        exact ⟨intFits, ih unit after fun other => absurd rfl other⟩
      · have fits : val < 2 ^ 31 := numbers [] List.nil_prefix nofun
        rw [exact_bind, exact_storeInt]
        exact ⟨intFits_mul_sign fits unit, exact_pure _⟩
      · exact exact_pure _

/-- An integer is read exactly where the literals fit. -/
theorem exact_consumeInt (literals : LiteralsFit str) (inside : s <:+ str) :
    Exact Number.keep (consumeInt s) := by
  have fit : LiteralsFit s := fun digits part => literals digits (part.trans inside.isInfix)
  exact exact_consumeIntLoop (.inl rfl) (fun digits head => fit digits head.isInfix)
    fun _ => ⟨rfl, fit⟩

theorem exact_consumeNumStride (literals : LiteralsFit str) (inside : s <:+ str) :
    Exact Number.keep (consumeNumStride s) := by
  rw [consumeNumStride]
  cases colon : consumeSymbol ':' s with
  | none => exact exact_pure _
  | some s₁ =>
      have inside₁ := (suffix_of_consumeSymbol colon).trans inside
      refine exact_bind.mpr ⟨exact_bind.mpr ⟨exact_consumeInt literals inside₁, exact_pure _⟩, ?_⟩
      rw [run_consumePint]
      rcases found : Affinity.consumePint s₁ with - | ⟨num, s₂⟩
      · exact exact_pure _
      obtain ⟨read, -⟩ := consumePint_eq_some.mp found
      have inside₂ := (consumeInt_sound literals inside₁ read).1.trans inside₁
      dsimp only
      cases colon₂ : consumeSymbol ':' s₂ with
      | none => exact exact_pure _
      | some s₃ =>
          have inside₃ := (suffix_of_consumeSymbol colon₂).trans inside₂
          exact exact_bind.mpr ⟨exact_consumeInt literals inside₃, exact_pure _⟩

theorem exact_parseId (literals : LiteralsFit str) (inside : s <:+ str) :
    Exact Number.keep (parseId s) := by
  refine exact_bind.mpr ⟨exact_consumeInt literals inside, ?_⟩
  rcases (consumeInt s).run Number.keep with - | result
  · exact exact_pure _
  · exact exact_pure _

variable {α β σ : Type} {rule : List Token → α → Prop} {value : α → β}

theorem exact_parseStrided {parseBase : List Char → Calculation Number (Reading Code Char β)}
    {machineBase : List Char → Reading Code Char β}
    (same : ∀ s, (parseBase s).run Number.keep = machineBase s)
    (base : Recognizes SpellsTokens str machineBase rule value NotInteger)
    (literals : LiteralsFit str) (inside : s <:+ str) (exact : Exact Number.keep (parseBase s)) :
    Exact Number.keep (parseStrided parseBase s) := by
  refine exact_bind.mpr ⟨exact, ?_⟩
  rw [same]
  rcases found : machineBase s with - | code | ⟨b, s₁⟩
  · exact exact_pure _
  · exact exact_pure _
  have inside₁ := (base.suffix inside found).1.trans inside
  refine exact_bind.mpr ⟨exact_consumeNumStride literals inside₁, ?_⟩
  rcases (consumeNumStride s₁).run Number.keep with - | ⟨⟨num, stride⟩, s₂⟩
  · exact exact_pure _
  · dsimp only
    split_ifs
    · exact exact_pure _
    · exact exact_pure _

/-- The loop over the intervals of a list is exact, if they are read and added exactly. -/
theorem exact_parseSeparated {read : List Char → Calculation Number (Reading Code Char β)}
    {machineRead : List Char → Reading Code Char β} {add : σ → β → Calculation Number σ}
    {all : List α} {built : List α → σ → Prop} {itemFollow : List Token → Prop}
    {ending : List Char → Option (List Char)} (last : List Token) (follow : List Token → Prop)
    (same : ∀ s, (read s).run Number.keep = machineRead s)
    (items : Recognizes SpellsTokens str machineRead rule value itemFollow)
    (afterSep : ∀ us, itemFollow (.symbol .comma :: us))
    (afterItem : ∀ us, follow us → itemFollow (last ++ us))
    (rejects : ∀ us, follow us → Rejects SpellsTokens (consumeSymbol ',') (last ++ us))
    (reads : ∀ {s ts us a}, a ∈ all → s <:+ str → rule ts a → itemFollow us →
      SpellsTokens s (ts ++ us) → Exact Number.keep (read s))
    (adds : ∀ {front a back l}, all = front ++ a :: back → built front l →
      Exact Number.keep (add l (value a)) ∧
        built (front ++ [a]) ((add l (value a)).run Number.keep))
    {ts us : List Token} {as front : List α} (chain : Chain (.symbol .comma) rule ts as)
    (split : all = front ++ as) (follows : follow us) {fuel : ℕ} {l : σ}
    (inside : s <:+ str) (before : built front l) (spelled : SpellsTokens s (ts ++ (last ++ us))) :
    Exact Number.keep (parseSeparated read add (consumeSymbol ',') ending fuel l s) := by
  have separates : Consumes SpellsTokens str (consumeSymbol ',') [.symbol .comma] fun _ => True :=
    consumes_symbol .comma
  induction chain generalizing fuel l s front with
  | @one ts a derives =>
      cases fuel with
      | zero => exact exact_pure _
      | succ fuel =>
          obtain ⟨middle, found, spelled'⟩ :=
            items.complete inside derives (afterItem us follows) spelled
          have readExact := reads (by rw [split]; simp) inside derives (afterItem us follows) spelled
          obtain ⟨addExact, -⟩ := adds split before
          refine exact_bind.mpr ⟨readExact, ?_⟩
          rw [same, found]
          refine exact_bind.mpr ⟨addExact, ?_⟩
          rw [rejects us follows middle spelled']
          dsimp only
          cases ending middle with
          | none => exact exact_pure _
          | some rest => exact exact_pure _
  | @cons ts others a as derives chain ih =>
      cases fuel with
      | zero => exact exact_pure _
      | succ fuel =>
          rw [List.append_assoc] at spelled
          obtain ⟨middle, found, spelled'⟩ := items.complete inside derives (afterSep _) spelled
          obtain ⟨tail, separated, spelled'⟩ := separates.complete spelled' trivial
          have tailIn := ((separates.suffix separated).trans
            (items.suffix inside found).1).trans inside
          have readExact := reads (by rw [split]; simp) inside derives (afterSep _) spelled
          obtain ⟨addExact, after⟩ := adds split before
          refine exact_bind.mpr ⟨readExact, ?_⟩
          rw [same, found]
          refine exact_bind.mpr ⟨addExact, ?_⟩
          rw [separated]
          exact ih (by rw [split, List.append_assoc, List.singleton_append]) tailIn after spelled'

end Readers

/-! ## Strings of the grammar -/

section Grammar

variable {str s : List Char} {ts us : List Token}

theorem rejects_comma (other : us.head? ≠ some (.symbol .comma)) :
    Rejects SpellsTokens (consumeSymbol ',') us := @rejects_symbol .comma us other

/-- There are fewer than `2 ^ 32` IDs, and these are of type `int`. -/
structure IdsFit (ids : List ℤ) : Prop where
  short : ids.length < 2 ^ 32
  fits : ∀ id ∈ ids, IntFits id

theorem exact_add_ids {front back : List (Strided ℤ)} {r : Strided ℤ} {l : IdList}
    (fit : IdsFit ((front ++ r :: back).flatMap Strided.ids)) (has : HasIds front l) :
    Exact Number.keep (idListAdd l r.base r.num r.stride) := by
  have num : l.num = (front.flatMap Strided.ids).length := by
    rw [← has.ids, IdList.length_toList]
  have ids : r.ids.length = r.num := by rw [Strided.ids, List.length_map, List.length_range]
  have short := fit.short
  rw [List.flatMap_append, List.flatMap_cons, List.length_append, List.length_append] at short
  refine exact_idListAdd.mpr ⟨by omega, fun i turn => fit.fits _ ?_⟩
  rw [List.flatMap_append, List.flatMap_cons]
  exact List.mem_append_right _ (List.mem_append_left _ (List.mem_map_of_mem turn))

/-- An `<es-id-list>` is read exactly, if its literals and its IDs fit. -/
theorem exact_parseEsIdList {fuel : ℕ} {as : List (Strided ℤ)} (literals : LiteralsFit str)
    (inside : s <:+ str) (derives : EsIdList ts as) (follows : NotInteger us)
    (spells : SpellsTokens s (ts ++ us)) (fit : IdsFit (as.flatMap Strided.ids)) :
    Exact Number.keep (parseEsIdList fuel s) := by
  refine exact_bind.mpr ⟨exact_consumeInt literals inside, ?_⟩
  rw [run_consumeInt]
  cases derives with
  | @id _ v id =>
      cases id
      obtain ⟨rest, found, -⟩ := consumeInt_complete literals inside follows spells
      rw [found]
      exact exact_bind.mpr ⟨exact_add_ids (r := ⟨v, 1, 1⟩) (l := .create) fit .create, exact_pure _⟩
  | @idList ts _ derives =>
      rw [List.cons_append, List.append_assoc] at spells
      rw [consumeInt_none (notInteger_symbol .opening _) spells]
      have opens : Consumes SpellsTokens str (consumeSymbol '{') [.symbol .opening]
          fun _ => True := consumes_symbol .opening
      obtain ⟨s₁, opening, spells⟩ := opens.complete spells trivial
      have inside₁ := (opens.suffix opening).trans inside
      dsimp only
      rw [opening]
      refine exact_parseSeparated [.symbol .closing] (fun _ => True)
        (run_parseStrided run_parseId) (recognizes_strided literals (recognizes_id literals))
        afterInterval_comma (fun us _ => afterInterval_closing us)
        (fun us _ => rejects_comma nofun) ?_ ?_ (separated_iff_chain.mp derives)
        (List.nil_append _).symm trivial inside₁ HasIds.create spells
      · intro s ts us r _ within _ _ _
        exact exact_parseStrided run_parseId (recognizes_id literals) literals within
          (exact_parseId literals within)
      · intro front r back l split has
        have exact := exact_add_ids (split.symm ▸ fit) has
        exact ⟨exact, has.add r exact⟩

theorem hasIds_buildIds {as : List (Strided ℤ)} (fit : IdsFit (as.flatMap Strided.ids)) :
    HasIds as (buildIds as) := by
  have ids : (buildIds as).toList = as.flatMap Strided.ids := toList_buildIds fit.short fit.fits
  refine ⟨ids, ?_, ?_⟩
  · rw [ids]
    exact fit.fits
  · rw [← IdList.length_toList, ids]
    exact fit.short

/-- The base of an interval is its first list, and so it fits. -/
theorem idsFit_base {front back : List (Strided (List (Strided ℤ)))}
    {r : Strided (List (Strided ℤ))} (positive : 0 < r.num)
    (fits : ListsFit ((front ++ r :: back).flatMap Strided.idLists)) :
    IdsFit (r.base.flatMap Strided.ids) := by
  have member : r.base.flatMap Strided.ids ∈ (front ++ r :: back).flatMap Strided.idLists :=
    List.mem_flatMap.mpr ⟨r, by simp, base_mem_idLists positive⟩
  exact ⟨fits.lengths _ member, fits.ids _ member⟩

theorem exact_add_lists {front back : List (Strided (List (Strided ℤ)))}
    {r : Strided (List (Strided ℤ))} {l : AffinityList} (positive : 0 < r.num)
    (fits : ListsFit ((front ++ r :: back).flatMap Strided.idLists)) (has : HasLists front l) :
    Exact Number.keep (listAdd l (buildIds r.base) r.num r.stride) := by
  have num : l.num = (front.flatMap Strided.idLists).length := by
    rw [← has.lists, AffinityList.length_toLists]
  have lists : r.idLists.length = r.num := by
    rw [Strided.idLists, List.length_map, List.length_range]
  have length := fits.length
  rw [List.flatMap_append, List.flatMap_cons, List.length_append, List.length_append] at length
  refine exact_listAdd.mpr ⟨by omega, fun i turn id member => ?_⟩
  rw [(hasIds_buildIds (idsFit_base positive fits)).ids] at member
  have below := List.mem_range.mpr (mem_span.mp turn).2
  have copy : (r.base.flatMap Strided.ids).map (fun id => id + r.stride * i) ∈
      (front ++ r :: back).flatMap Strided.idLists :=
    List.mem_flatMap.mpr ⟨r, by simp, List.mem_map.mpr ⟨i, below, rfl⟩⟩
  exact fits.ids _ copy _ (List.mem_map.mpr ⟨id, member, rfl⟩)

/-- **A string that denotes lists is read exactly, if its literals and the lists fit.** -/
theorem exact_affinityListCreate {str : CString} {lists : List (List ℤ)}
    (literals : LiteralsFit str.chars) (denotes : Denotes str.chars lists)
    (fits : ListsFit lists) : Exact Number.keep (affinityListCreate str) := by
  obtain ⟨ts, as, spells, derives, rfl⟩ := denotes
  have enough := Nat.lt_succ_self str.chars.length
  have base : Recognizes SpellsTokens str.chars (Affinity.parseEsIdList (str.chars.length + 1))
      EsIdList buildIds NotInteger := recognizes_esIdList _ _ literals enough
  have positive : ∀ r ∈ as, 0 < r.num := positive_of_listRule derives
  rw [← List.append_nil ts] at spells
  refine exact_bind.mpr ⟨?_, exact_pure _⟩
  refine exact_parseSeparated [] (· = []) (run_parseStrided (run_parseEsIdList _))
    (recognizes_strided literals base) afterInterval_comma ?_ ?_ ?_ ?_
    (separated_iff_chain.mp derives) (List.nil_append as).symm rfl List.suffix_rfl HasLists.create
    spells
  · rintro _ rfl
    exact afterInterval_nil
  · rintro _ rfl
    exact rejects_comma nofun
  · intro s ts us r member inside rule follows spells
    obtain ⟨front, back, split⟩ := List.append_of_mem member
    obtain ⟨bs, tail, first, numStride, -, rfl⟩ := stridedRule_iff.mp rule
    rw [List.append_assoc] at spells
    refine exact_parseStrided (run_parseEsIdList _) base literals inside ?_
    exact exact_parseEsIdList literals inside first (numStride.notInteger follows.notInteger)
      spells (idsFit_base (positive r member) (split ▸ fits))
  · intro front r back l split has
    have isPositive := positive r (by rw [split]; simp)
    have exact := exact_add_lists isPositive (split ▸ fits) has
    refine ⟨exact, has.add ⟨?_, rfl, rfl⟩ exact⟩
    exact hasIds_buildIds (idsFit_base isPositive (split ▸ fits))

end Grammar

/-! ## The parser -/

/-- No number that the parser stores wraps.  It returns, and the lists of a string that it accepts
are those that the string denotes. -/
structure NeverWraps (str : CString) : Prop where
  exact : Exact Number.keep (affinityListCreate str)
  returns : ∃ result, Affinity.affinityListCreate (some str) = some result
  denotes : ∀ l, Affinity.affinityListCreate (some str) = some (.ok l) →
    Denotes str.chars l.toLists

/-- Every number fits that is met where the string is read with exact numbers. -/
def NumbersFit (str : CString) : Prop := ∀ x ∈ (affinityListCreate str).stored id, x.Fits

/-- The string denotes lists that fit, and its literals fit. -/
def DenotesFitting (str : CString) : Prop :=
  LiteralsFit str.chars ∧ ∃ lists, Denotes str.chars lists ∧ ListsFit lists

theorem exact_iff_numbersFit (str : CString) :
    Exact Number.keep (affinityListCreate str) ↔ NumbersFit str :=
  (exact_iff_stored _).trans (forall₂_congr fun x _ => Number.keep_eq_iff x)

/-- **The parser never wraps a number exactly when the numbers of the string fit.**  For a string
that it accepts, these are its literals and the lists that it denotes. -/
theorem affinity_exact_iff (str : CString) : (NeverWraps str ↔ NumbersFit str) ∧
    ∀ l, Affinity.affinityListCreate (some str) = some (.ok l) →
      (NumbersFit str ↔ DenotesFitting str) := by
  rw [← exact_iff_numbersFit]
  have parsed : Exact Number.keep (affinityListCreate str) →
      ∃ created, Affinity.affinityListCreate (some str) = some created ∧
        ∀ l, created = .ok l → Parsed str l := by
    rw [← run_affinityListCreate]
    exact ensures_affinityListCreate str
  refine ⟨⟨NeverWraps.exact, fun exact => ?_⟩, fun l accepted => ⟨fun exact => ?_, ?_⟩⟩
  · obtain ⟨created, returned, lists⟩ := parsed exact
    refine ⟨exact, ⟨created, returned⟩, fun l accepted => (lists l ?_).denotes⟩
    exact Option.some.inj (returned.symm.trans accepted)
  · obtain ⟨created, returned, lists⟩ := parsed exact
    have result := lists l (Option.some.inj (returned.symm.trans accepted))
    exact ⟨result.literals, l.toLists, result.denotes, result.fits⟩
  · rintro ⟨literals, lists, denotes, fits⟩
    exact exact_affinityListCreate literals denotes fits

/-- The parser looks for an integer first. -/
theorem NeverWraps.first {str : CString} (never : NeverWraps str) :
    Exact Number.keep (consumeInt str.chars) := by
  obtain ⟨list, -⟩ := exact_bind.mp never.exact
  obtain ⟨interval, -⟩ := exact_bind.mp list
  obtain ⟨base, -⟩ := exact_bind.mp interval
  obtain ⟨first, -⟩ := exact_bind.mp base
  exact first

/-- A string of one literal, which is `2 ^ 32` -/
def wrappingLiteral : CString where
  chars := "4294967296".toList
  terminated := by decide
  short := by decide

theorem wrappingLiteral_accepted :
    (∃ l, Affinity.affinityListCreate (some wrappingLiteral) = some (.ok l) ∧
      l.toLists = [[0]]) ∧ ¬NeverWraps wrappingLiteral := by
  constructor
  · have evaluated : (Affinity.affinityListCreate (some wrappingLiteral)).bind
        (fun created => created.toOption.map AffinityList.toLists) = some [[0]] := by
      decide +kernel
    obtain ⟨code | l, accepted, lists⟩ := Option.bind_eq_some_iff.mp evaluated
    · cases lists
    · exact ⟨l, accepted, Option.some.inj lists⟩
  · intro never
    have areDigits : ∀ c ∈ "4294967296".toList, c.isDigit := List.all_eq_true.mp rfl
    have literal := @exact_consumeInt_iff [] [] [] "4294967296".toList nofun nofun (by decide)
      areDigits nofun
    have value : Nat.ofDigitChars 10 "4294967296".toList 0 = 4294967296 := rfl
    have small := literal.mp never.first
    rw [value] at small
    exact absurd small (by decide)

end ArgobotsReduction.Streams.AffinityNumbers
