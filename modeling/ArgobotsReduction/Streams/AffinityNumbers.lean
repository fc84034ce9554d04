import ArgobotsReduction.Containers.Calculations
import ArgobotsReduction.Streams.AffinityParser

/-!
# The numbers of the affinity parser

The affinity parser as a calculation: it is the parser of `Affinity`, but every number is stored
in its type where the parser stores it.  An `int` is stored for every digit of a literal, for its
sign, and for every ID that an interval adds or that the copy of a list has; a `uint32_t` is
stored for the number of IDs of a list and for the number of lists.  The products of a stride
are taken without a sign, so that only the ID that is stored may differ from the exact one.

On the machine this is the parser itself (`run_affinityListCreate`).
-/

set_option autoImplicit false

namespace ArgobotsReduction.Streams.AffinityNumbers

open Containers Calculation Grammars Affinity

/-! ## Numbers -/

/-- A number and the type that it is stored in -/
inductive Number where
  | int (x : ℤ)
  | uint32 (n : ℕ)
  deriving DecidableEq

namespace Number

/-- What is kept of a number -/
def keep : Number → Number
  | int x => int (asInt x)
  | uint32 n => uint32 (asUint32 n)

/-- The number is of its type. -/
def Fits : Number → Prop
  | int x => IntFits x
  | uint32 n => n < 2 ^ 32

instance : DecidablePred Fits
  | int _ => inferInstanceAs (Decidable (_ ∧ _))
  | uint32 _ => inferInstanceAs (Decidable (_ < _))

def toInt : Number → ℤ
  | int x => x
  | uint32 n => n

def toNat : Number → ℕ
  | int x => x.toNat
  | uint32 n => n

theorem keep_eq_iff (x : Number) : x.keep = x ↔ x.Fits := by
  cases x with
  | int x =>
      rw [keep, int.injEq, Fits]
      constructor
      · intro same
        have lower := Int.le_bmod (x := x) (m := 2 ^ 32) (by decide)
        have upper := Int.bmod_lt (x := x) (m := 2 ^ 32) (by decide)
        rw [← asInt, same] at lower upper
        exact ⟨by omega, by omega⟩
      · exact asInt_of_fits
  | uint32 n =>
      rw [keep, uint32.injEq, Fits, asUint32]
      constructor
      · intro same
        have less := Nat.mod_lt n (Nat.two_pow_pos 32)
        omega
      · exact Nat.mod_eq_of_lt

end Number

def storeInt (x : ℤ) : Calculation Number ℤ := .store (.int x) fun kept => .done kept.toInt

def storeUint32 (n : ℕ) : Calculation Number ℕ := .store (.uint32 n) fun kept => .done kept.toNat

/-! ## Lists -/

/-- `id_list_add` -/
def idListAdd (l : IdList) (id : ℤ) (num : ℕ) (stride : ℤ) : Calculation Number IdList := do
  let total ← storeUint32 (l.num + num)
  let ids ← (List.range num).foldlM
    (fun ids (i : ℕ) => do
      let id ← storeInt (id + stride * i)
      return Function.update ids (asUint32 (l.num + i)) id)
    l.ids
  return ⟨total, ids⟩

/-- The copy of a list that `list_add` makes. -/
def idListCopy (base : IdList) (stride : ℤ) (i : ℕ) : Calculation Number IdList := do
  let ids ← (List.range base.num).foldlM
    (fun ids (j : ℕ) => do
      let id ← storeInt (base.ids j + stride * i)
      return Function.update ids j id)
    fun _ => 0
  return ⟨base.num, ids⟩

/-- `list_add` -/
def listAdd (l : AffinityList) (base : IdList) (num : ℕ) (stride : ℤ) :
    Calculation Number AffinityList := do
  let total ← storeUint32 (l.num + num)
  let lists ← (span 1 num).foldlM
    (fun lists (i : ℕ) => do
      let copy ← idListCopy base stride i
      return Function.update lists (asUint32 (l.num + i)) copy)
    l.idLists
  return ⟨total, Function.update lists l.num base⟩

/-! ## Tokens -/

/-- The loop of `consume_int` -/
def consumeIntLoop :
    List Char → ℤ → ℤ → Flag → Calculation Number (Option (ℤ × List Char))
  | [], val, valSign, flag =>
      if flag = .v then do
        let val ← storeInt (val * valSign)
        return some (val, [])
      else return none
  | c :: rest, val, valSign, flag =>
      if flag ≠ .v ∧ c = '-' then consumeIntLoop rest val (-valSign) .s
      else if flag ≠ .v ∧ c = '+' then consumeIntLoop rest val valSign .s
      else if flag = .n ∧ isWhitespace c then consumeIntLoop rest val valSign flag
      else if c.isDigit then do
        let val ← storeInt (val * 10 + (c.toNat - '0'.toNat : ℕ))
        consumeIntLoop rest val valSign .v
      else if flag = .v then do
        let val ← storeInt (val * valSign)
        return some (val, c :: rest)
      else return none

/-- `consume_int` -/
def consumeInt (s : List Char) : Calculation Number (Option (ℤ × List Char)) :=
  consumeIntLoop s 0 1 .n

/-- `consume_pint` -/
def consumePint (s : List Char) : Calculation Number (Option (ℤ × List Char)) := do
  let result ← consumeInt s
  return result.filter fun (val, _) => 0 < val

/-! ## Parsing -/

/-- The optional `":" <num>` and `":" <stride>` -/
def consumeNumStride (s : List Char) : Calculation Number (Option ((ℤ × ℤ) × List Char)) :=
  match consumeSymbol ':' s with
  | none => return some ((1, 1), s)
  | some s => do
      match ← consumePint s with
      | none => return none
      | some (num, s) =>
          match consumeSymbol ':' s with
          | none => return some ((num, 1), s)
          | some s => do
              let result ← consumeInt s
              return result.map fun (stride, s) => ((num, stride), s)

section Intervals

variable {β σ : Type}

/-- The head of the loops, up to adding the interval -/
def parseStrided (parseBase : List Char → Calculation Number (Reading Code Char β))
    (s : List Char) : Calculation Number (Reading Code Char (Strided β)) := do
  match ← parseBase s with
  | none => return none
  | some (.error code) => return some (.error code)
  | some (.ok (base, s)) =>
      match ← consumeNumStride s with
      | none => return some (.error .other)
      | some ((num, stride), s) =>
          if (maxNumElems : ℤ) ≤ num then return some (.error .other)
          else return some (.ok (⟨base, num.toNat, stride⟩, s))

/-- The loops of `parse_es_id_list` and `parse_list` -/
def parseSeparated (read : List Char → Calculation Number (Reading Code Char β))
    (add : σ → β → Calculation Number σ) (separator ending : List Char → Option (List Char)) :
    ℕ → σ → List Char → Calculation Number (Reading Code Char σ)
  | 0, _, _ => return none
  | fuel + 1, l, s => do
      match ← read s with
      | none => return none
      | some (.error code) => return some (.error code)
      | some (.ok (b, s)) =>
          let l ← add l b
          match separator s with
          | some s => parseSeparated read add separator ending fuel l s
          | none =>
              match ending s with
              | some s => return some (.ok (l, s))
              | none => return some (.error .other)

end Intervals

/-- `consume_int`, where an `<id>` is expected -/
def parseId (s : List Char) : Calculation Number (Reading Code Char ℤ) := do
  match ← consumeInt s with
  | none => return some (.error .other)
  | some result => return some (.ok result)

/-- `parse_es_id_list` -/
def parseEsIdList (fuel : ℕ) (s : List Char) : Calculation Number (Reading Code Char IdList) := do
  match ← consumeInt s with
  | some (val, s) =>
      let l ← idListAdd .create val 1 1
      return some (.ok (l, s))
  | none =>
      match consumeSymbol '{' s with
      | some s =>
          parseSeparated (parseStrided parseId) (fun l r => idListAdd l r.base r.num r.stride)
            (consumeSymbol ',') (consumeSymbol '}') fuel .create s
      | none => return some (.error .other)

/-- `parse_list` -/
def parseList (fuel : ℕ) : List Char → Calculation Number (Reading Code Char AffinityList) :=
  parseSeparated (parseStrided (parseEsIdList fuel))
    (fun l r => listAdd l r.base r.num r.stride) (consumeSymbol ',') (consumeSymbol terminator)
    fuel .create

/-- `ABTD_affinity_list_create` -/
def affinityListCreate (str : CString) :
    Calculation Number (Option (Except Code AffinityList)) := do
  let result ← parseList (str.chars.length + 1) str.chars
  return result.map (Except.map Prod.fst)

/-! ## On the machine -/

section Machine

@[simp] theorem run_storeInt (x : ℤ) : (storeInt x).run Number.keep = asInt x := rfl

@[simp] theorem run_storeUint32 (n : ℕ) : (storeUint32 n).run Number.keep = asUint32 n := rfl

@[simp] theorem run_idListAdd (l : IdList) (id : ℤ) (num : ℕ) (stride : ℤ) :
    (idListAdd l id num stride).run Number.keep = l.add id num stride := by
  simp only [idListAdd, run_bind, run_foldlM, run_pure, run_storeInt, run_storeUint32]
  rfl

@[simp] theorem run_idListCopy (base : IdList) (stride : ℤ) (i : ℕ) :
    (idListCopy base stride i).run Number.keep = base.copy stride i := by
  simp only [idListCopy, run_bind, run_foldlM, run_pure, run_storeInt]
  rfl

@[simp] theorem run_listAdd (l : AffinityList) (base : IdList) (num : ℕ) (stride : ℤ) :
    (listAdd l base num stride).run Number.keep = l.add base num stride := by
  simp only [listAdd, run_bind, run_foldlM, run_pure, run_idListCopy, run_storeUint32]
  rfl

theorem run_consumeIntLoop (s : List Char) (val valSign : ℤ) (flag : Flag) :
    (consumeIntLoop s val valSign flag).run Number.keep =
      Affinity.consumeIntLoop s val valSign flag := by
  induction s generalizing val valSign flag with
  | nil =>
      rw [consumeIntLoop, Affinity.consumeIntLoop]
      split_ifs
      · rfl
      · rfl
  | cons c s ih =>
      rw [consumeIntLoop, Affinity.consumeIntLoop]
      split_ifs
      · exact ih ..
      · exact ih ..
      · exact ih ..
      · exact ih ..
      · rfl
      · rfl

@[simp] theorem run_consumeInt (s : List Char) :
    (consumeInt s).run Number.keep = Affinity.consumeInt s := run_consumeIntLoop s 0 1 .n

@[simp] theorem run_consumePint (s : List Char) :
    (consumePint s).run Number.keep = Affinity.consumePint s := by
  rw [consumePint, run_bind, run_consumeInt]
  rfl

@[simp] theorem run_consumeNumStride (s : List Char) :
    (consumeNumStride s).run Number.keep = Affinity.consumeNumStride s := by
  rw [consumeNumStride, Affinity.consumeNumStride]
  cases consumeSymbol ':' s with
  | none => rfl
  | some s =>
      dsimp only
      rw [run_bind, run_consumePint]
      rcases Affinity.consumePint s with - | ⟨num, s⟩
      · rfl
      · dsimp only [Option.bind_some]
        cases consumeSymbol ':' s with
        | none => rfl
        | some s =>
            dsimp only
            rw [run_bind, run_consumeInt]
            rfl

variable {β σ : Type}

theorem run_parseStrided {parseBase : List Char → Calculation Number (Reading Code Char β)}
    {machineBase : List Char → Reading Code Char β}
    (same : ∀ s, (parseBase s).run Number.keep = machineBase s) (s : List Char) :
    (parseStrided parseBase s).run Number.keep = Affinity.parseStrided machineBase s := by
  rw [parseStrided, Affinity.parseStrided, run_bind, same]
  rcases machineBase s with - | code | ⟨base, s⟩
  · rfl
  · rfl
  · dsimp only
    rw [run_bind, run_consumeNumStride]
    rcases Affinity.consumeNumStride s with - | ⟨⟨num, stride⟩, s⟩
    · rfl
    · dsimp only
      split_ifs
      · rfl
      · rfl

theorem run_parseSeparated {read : List Char → Calculation Number (Reading Code Char β)}
    {machineRead : List Char → Reading Code Char β} {add : σ → β → Calculation Number σ}
    {machineAdd : σ → β → σ} (reads : ∀ s, (read s).run Number.keep = machineRead s)
    (adds : ∀ l b, (add l b).run Number.keep = machineAdd l b)
    (separator ending : List Char → Option (List Char)) (fuel : ℕ) (l : σ) (s : List Char) :
    (parseSeparated read add separator ending fuel l s).run Number.keep =
      readSeparated machineRead machineAdd separator ending .other fuel l s := by
  induction fuel generalizing l s with
  | zero => rfl
  | succ fuel ih =>
      rw [parseSeparated, readSeparated, run_bind, reads]
      rcases machineRead s with - | code | ⟨b, s⟩
      · rfl
      · rfl
      · dsimp only
        rw [run_bind, adds]
        cases separator s with
        | some s => exact ih ..
        | none =>
            dsimp only
            cases ending s with
            | some s => rfl
            | none => rfl

theorem run_parseId (s : List Char) : (parseId s).run Number.keep = Affinity.parseId s := by
  rw [parseId, Affinity.parseId, run_bind, run_consumeInt]
  cases Affinity.consumeInt s with
  | none => rfl
  | some result => rfl

theorem run_parseEsIdList (fuel : ℕ) (s : List Char) :
    (parseEsIdList fuel s).run Number.keep = Affinity.parseEsIdList fuel s := by
  rw [parseEsIdList, Affinity.parseEsIdList, parseEsIdListInto, run_bind, run_consumeInt]
  rcases Affinity.consumeInt s with - | ⟨val, s⟩
  · dsimp only
    cases consumeSymbol '{' s with
    | none => rfl
    | some s =>
        exact run_parseSeparated (run_parseStrided run_parseId) (fun l r => run_idListAdd ..)
          (consumeSymbol ',') (consumeSymbol '}') fuel .create s
  · dsimp only
    rw [run_bind, run_idListAdd]
    rfl

/-- **The calculation on the machine is the parser.** -/
theorem run_affinityListCreate (str : CString) :
    (affinityListCreate str).run Number.keep = Affinity.affinityListCreate (some str) := by
  rw [affinityListCreate, Affinity.affinityListCreate, run_bind, parseList, Affinity.parseList,
    parseListInto, run_parseSeparated (run_parseStrided (run_parseEsIdList _))
      fun l r => run_listAdd ..]
  rfl

end Machine

end ArgobotsReduction.Streams.AffinityNumbers
