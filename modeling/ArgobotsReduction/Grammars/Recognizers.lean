import Mathlib.Data.List.Infix

/-!
# Reading a string by a grammar

A grammar has rules over tokens, and a string spells a list of tokens when it is their
words in order, with blanks between them.  A reader takes a token or a phrase off the
front of a string, and returns the rest of the string.

A reader is right when it is sound, that is, what it takes off spells a phrase of its
rule, and complete, that is, it takes a phrase off every string that begins with one
and goes on with a token that may follow.  The main result is about the loop that reads
a list with separators (`Recognizes.separated`): grammars give such lists
by left recursion, and the loop reads them from the left to the right.
-/

set_option autoImplicit false

namespace Grammars

universe u v w x

variable {χ : Type u} {τ : Type v}

/-! ## Spelling -/

/-- A string spells tokens. -/
inductive Spells (blank : χ → Prop) (spelling : τ → List χ → Prop) : List χ → List τ → Prop
  | nil {space : List χ} (blanks : ∀ c ∈ space, blank c) : Spells blank spelling space []
  | cons {space word rest : List χ} {t : τ} {ts : List τ} (blanks : ∀ c ∈ space, blank c)
      (spelled : spelling t word) (others : Spells blank spelling rest ts) :
      Spells blank spelling (space ++ (word ++ rest)) (t :: ts)

/-- A function of a string that skips a blank at its front skips all of them. -/
theorem skip_blanks {β : Type w} {blank : χ → Prop} {read : List χ → β}
    (skips : ∀ c, blank c → ∀ s, read (c :: s) = read s) {space : List χ}
    (blanks : ∀ c ∈ space, blank c) (s : List χ) : read (space ++ s) = read s := by
  induction space with
  | nil => rfl
  | cons c space ih =>
      obtain ⟨isBlank, others⟩ := List.forall_mem_cons.mp blanks
      rw [List.cons_append, skips c isBlank, ih others]

/-! ## Lists with separators -/

section Separated

variable {α : Type w} {sep : τ} {item : List τ → α → Prop}

/-- A list of items with separators, by left recursion. -/
inductive Separated (sep : τ) (item : List τ → α → Prop) : List τ → List α → Prop
  | one {ts : List τ} {a : α} : item ts a → Separated sep item ts [a]
  | more {ts us : List τ} {as : List α} {a : α} : Separated sep item ts as → item us a →
      Separated sep item (ts ++ sep :: us) (as ++ [a])

/-- The same lists, by right recursion. -/
inductive Chain (sep : τ) (item : List τ → α → Prop) : List τ → List α → Prop
  | one {ts : List τ} {a : α} : item ts a → Chain sep item ts [a]
  | cons {ts us : List τ} {a : α} {as : List α} : item ts a → Chain sep item us as →
      Chain sep item (ts ++ sep :: us) (a :: as)

theorem Chain.snoc {ts us : List τ} {as : List α} {a : α} (chain : Chain sep item ts as)
    (last : item us a) : Chain sep item (ts ++ sep :: us) (as ++ [a]) := by
  induction chain with
  | one first => exact .cons first (.one last)
  | cons first _ ih =>
      rw [List.append_assoc, List.cons_append]
      exact .cons first ih

theorem Separated.cons {ts us : List τ} {a : α} {as : List α} (first : item ts a)
    (others : Separated sep item us as) : Separated sep item (ts ++ sep :: us) (a :: as) := by
  induction others with
  | one second => exact .more (.one first) second
  | more _ last ih =>
      rw [← List.cons_append, ← List.append_assoc]
      exact .more ih last

theorem separated_iff_chain {ts : List τ} {as : List α} :
    Separated sep item ts as ↔ Chain sep item ts as := by
  constructor
  · intro separated
    induction separated with
    | one only => exact .one only
    | more _ last ih => exact ih.snoc last
  · intro chain
    induction chain with
    | one only => exact .one only
    | cons first _ ih => exact ih.cons first

end Separated

/-! ## Readers -/

/-- What a reader returns: the value and the rest of the string, or an error.  It is none where the
reader has not returned yet. -/
abbrev Reading (ε : Type*) (χ : Type*) (β : Type*) := Option (Except ε (β × List χ))

variable (spells : List χ → List τ → Prop)

/-- The reader takes some tokens off that are known.  This is about the suffixes of one string. -/
structure Consumes (str : List χ) (consume : List χ → Option (List χ)) (word : List τ)
    (follow : List τ → Prop) : Prop where
  suffix {s rest : List χ} : consume s = some rest → rest <:+ s
  sound {s rest : List χ} {us : List τ} : s <:+ str → consume s = some rest → spells rest us →
    spells s (word ++ us)
  complete {s : List χ} {us : List τ} : spells s (word ++ us) → follow us →
    ∃ rest, consume s = some rest ∧ spells rest us

/-- The reader takes nothing off where the tokens are others. -/
def Rejects (consume : List χ → Option (List χ)) (us : List τ) : Prop :=
  ∀ s, spells s us → consume s = none

/-- The reader takes phrases of a rule off, and returns their values. -/
structure Recognizes {ε : Type*} {α : Type w} {β : Type x} (str : List χ)
    (read : List χ → Reading ε χ β) (rule : List τ → α → Prop) (value : α → β)
    (follow : List τ → Prop) : Prop where
  returns {s : List χ} : s <:+ str → (read s).isSome
  suffix {s rest : List χ} {b : β} : s <:+ str → read s = some (.ok (b, rest)) →
    rest <:+ s ∧ rest.length < s.length
  sound {s rest : List χ} {b : β} : s <:+ str → read s = some (.ok (b, rest)) →
    ∃ ts a, rule ts a ∧ b = value a ∧ ∀ us, spells rest us → spells s (ts ++ us)
  complete {s : List χ} {ts us : List τ} {a : α} : s <:+ str → rule ts a → follow us →
    spells s (ts ++ us) → ∃ rest, read s = some (.ok (value a, rest)) ∧ spells rest us

section Loop

variable {ε : Type*} {α : Type w} {β : Type x} {σ : Type*}

/-- The loop that reads items into an accumulator.  A separator goes before the next item, and the
ending after the last one. -/
def readSeparated (read : List χ → Reading ε χ β) (add : σ → β → σ)
    (separator ending : List χ → Option (List χ)) (failure : ε) : ℕ → σ → List χ → Reading ε χ σ
  | 0, _, _ => none
  | fuel + 1, l, s =>
      match read s with
      | none => none
      | some (.error code) => some (.error code)
      | some (.ok (b, s)) =>
          match separator s with
          | some s => readSeparated read add separator ending failure fuel (add l b) s
          | none =>
              match ending s with
              | some s => some (.ok (add l b, s))
              | none => some (.error failure)

variable {str : List χ} {read : List χ → Reading ε χ β} {rule : List τ → α → Prop} {value : α → β}
  {itemFollow follow : List τ → Prop} {add : σ → β → σ}
  {separator ending : List χ → Option (List χ)}
  {failure : ε} {sep : τ} {last : List τ}

/-- Every turn makes the rest shorter. -/
theorem isSome_readSeparated (items : Recognizes spells str read rule value itemFollow)
    (separates : Consumes spells str separator [sep] fun _ => True) {fuel : ℕ} {l : σ} {s : List χ}
    (inside : s <:+ str) (enough : s.length < fuel) :
    (readSeparated read add separator ending failure fuel l s).isSome := by
  induction fuel generalizing l s with
  | zero => cases enough
  | succ fuel ih =>
      obtain ⟨result, returned⟩ := Option.isSome_iff_exists.mp (items.returns inside)
      rw [readSeparated, returned]
      rcases result with code | ⟨b, rest⟩
      · rfl
      · obtain ⟨restOf, shorter⟩ := items.suffix inside returned
        dsimp only
        split
        next tail separated =>
          have tailOf := separates.suffix separated
          refine ih ((tailOf.trans restOf).trans inside) ?_
          have := tailOf.length_le
          omega
        next => split <;> rfl

theorem suffix_readSeparated (items : Recognizes spells str read rule value itemFollow)
    (separates : Consumes spells str separator [sep] fun _ => True)
    (ends : Consumes spells str ending last follow) {fuel : ℕ} {l l' : σ} {s rest : List χ}
    (inside : s <:+ str)
    (returned : readSeparated read add separator ending failure fuel l s = some (.ok (l', rest))) :
    rest <:+ s ∧ rest.length < s.length := by
  induction fuel generalizing l s with
  | zero => cases returned
  | succ fuel ih =>
      rw [readSeparated] at returned
      split at returned
      next => cases returned
      next => cases returned
      next b middle found =>
        obtain ⟨middleOf, shorter⟩ := items.suffix inside found
        split at returned
        next tail separated =>
          have tailOf := (separates.suffix separated).trans middleOf
          obtain ⟨restOf, less⟩ := ih (tailOf.trans inside) returned
          exact ⟨restOf.trans tailOf, less.trans_le tailOf.length_le⟩
        next =>
          split at returned
          next tail ended =>
            obtain ⟨-, rfl⟩ := Prod.mk.inj (Except.ok.inj (Option.some.inj returned))
            have tailOf := ends.suffix ended
            exact ⟨tailOf.trans middleOf, tailOf.length_le.trans_lt shorter⟩
          next => cases returned

/-- The rest is what the ending leaves. -/
theorem exists_ending_of_readSeparated (items : Recognizes spells str read rule value itemFollow)
    (separates : Consumes spells str separator [sep] fun _ => True) {fuel : ℕ} {l l' : σ}
    {s rest : List χ} (inside : s <:+ str)
    (returned : readSeparated read add separator ending failure fuel l s = some (.ok (l', rest))) :
    ∃ middle, middle <:+ str ∧ ending middle = some rest := by
  induction fuel generalizing l s with
  | zero => cases returned
  | succ fuel ih =>
      rw [readSeparated] at returned
      split at returned
      next => cases returned
      next => cases returned
      next b middle found =>
        have middleIn := (items.suffix inside found).1.trans inside
        split at returned
        next tail separated => exact ih ((separates.suffix separated).trans middleIn) returned
        next =>
          split at returned
          next tail ended =>
            obtain ⟨-, rfl⟩ := Prod.mk.inj (Except.ok.inj (Option.some.inj returned))
            exact ⟨middle, middleIn, ended⟩
          next => cases returned

theorem sound_readSeparated (items : Recognizes spells str read rule value itemFollow)
    (separates : Consumes spells str separator [sep] fun _ => True)
    (ends : Consumes spells str ending last follow) {fuel : ℕ} {l l' : σ} {s rest : List χ}
    (inside : s <:+ str)
    (returned : readSeparated read add separator ending failure fuel l s = some (.ok (l', rest))) :
    ∃ ts as, Chain sep rule ts as ∧ l' = (as.map value).foldl add l ∧
      ∀ us, spells rest us → spells s (ts ++ (last ++ us)) := by
  induction fuel generalizing l s with
  | zero => cases returned
  | succ fuel ih =>
      rw [readSeparated] at returned
      split at returned
      next => cases returned
      next => cases returned
      next b middle found =>
        obtain ⟨ts, a, derives, rfl, spelled⟩ := items.sound inside found
        have middleOf := (items.suffix inside found).1
        split at returned
        next tail separated =>
          have tailOf := (separates.suffix separated).trans (middleOf.trans inside)
          obtain ⟨others, as, chain, rfl, spelledOthers⟩ := ih tailOf returned
          refine ⟨ts ++ sep :: others, a :: as, .cons derives chain, rfl, fun us after => ?_⟩
          rw [List.append_assoc]
          exact spelled _
            (separates.sound (middleOf.trans inside) separated (spelledOthers us after))
        next =>
          split at returned
          next tail ended =>
            obtain ⟨rfl, rfl⟩ := Prod.mk.inj (Except.ok.inj (Option.some.inj returned))
            exact ⟨ts, [a], .one derives, rfl, fun us after =>
              spelled _ (ends.sound (middleOf.trans inside) ended after)⟩
          next => cases returned

theorem complete_readSeparated (items : Recognizes spells str read rule value itemFollow)
    (separates : Consumes spells str separator [sep] fun _ => True)
    (ends : Consumes spells str ending last follow)
    (afterSep : ∀ us, itemFollow (sep :: us))
    (afterItem : ∀ us, follow us → itemFollow (last ++ us))
    (rejects : ∀ us, follow us → Rejects spells separator (last ++ us)) {ts us : List τ}
    {as : List α} (chain : Chain sep rule ts as) (follows : follow us) {fuel : ℕ} {l : σ}
    {s : List χ} (inside : s <:+ str) (enough : s.length < fuel)
    (spelled : spells s (ts ++ (last ++ us))) :
    ∃ rest, readSeparated read add separator ending failure fuel l s =
        some (.ok ((as.map value).foldl add l, rest)) ∧ spells rest us := by
  induction chain generalizing fuel l s with
  | one derives =>
      obtain ⟨fuel, rfl⟩ := Nat.exists_eq_add_one_of_ne_zero (Nat.ne_zero_of_lt enough)
      obtain ⟨middle, found, spelled⟩ :=
        items.complete inside derives (afterItem us follows) spelled
      obtain ⟨rest, ended, after⟩ := ends.complete spelled follows
      refine ⟨rest, ?_, after⟩
      simp only [readSeparated, found, rejects us follows middle spelled, ended]
      rfl
  | @cons _ _ a _ derives chain ih =>
      obtain ⟨fuel, rfl⟩ := Nat.exists_eq_add_one_of_ne_zero (Nat.ne_zero_of_lt enough)
      rw [List.append_assoc] at spelled
      obtain ⟨middle, found, spelled⟩ := items.complete inside derives (afterSep _) spelled
      obtain ⟨tail, separated, spelled⟩ := separates.complete spelled trivial
      obtain ⟨middleOf, shorter⟩ := items.suffix inside found
      have tailOf := separates.suffix separated
      have less : tail.length < fuel := by
        have := tailOf.length_le
        omega
      obtain ⟨rest, returned, after⟩ :=
        ih ((tailOf.trans middleOf).trans inside) less spelled (l := add l (value a))
      refine ⟨rest, ?_, after⟩
      simp only [readSeparated, found, separated]
      exact returned

/-- **The loop reads a list with separators and its ending.** -/
theorem Recognizes.separated (items : Recognizes spells str read rule value itemFollow)
    (separates : Consumes spells str separator [sep] fun _ => True)
    (ends : Consumes spells str ending last follow)
    (afterSep : ∀ us, itemFollow (sep :: us))
    (afterItem : ∀ us, follow us → itemFollow (last ++ us))
    (rejects : ∀ us, follow us → Rejects spells separator (last ++ us)) {fuel : ℕ} {l : σ}
    (enough : str.length < fuel) :
    Recognizes spells str (readSeparated read add separator ending failure fuel l)
      (fun ts as => ∃ us, Separated sep rule us as ∧ ts = us ++ last)
      (fun as => (as.map value).foldl add l) follow where
  returns inside :=
    isSome_readSeparated spells items separates inside (inside.length_le.trans_lt enough)
  suffix inside returned := suffix_readSeparated spells items separates ends inside returned
  sound inside returned := by
    obtain ⟨ts, as, chain, rfl, spelled⟩ :=
      sound_readSeparated spells items separates ends inside returned
    refine ⟨ts ++ last, as, ⟨ts, separated_iff_chain.mpr chain, rfl⟩, rfl, fun us after => ?_⟩
    rw [List.append_assoc]
    exact spelled us after
  complete inside := by
    rintro ⟨ts, separated, rfl⟩ follows spelled
    rw [List.append_assoc] at spelled
    exact complete_readSeparated spells items separates ends afterSep afterItem rejects
      (separated_iff_chain.mp separated) follows inside (inside.length_le.trans_lt enough) spelled

end Loop

end Grammars
