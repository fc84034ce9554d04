import Mathlib.Data.Int.Basic
import ArgobotsReduction.Containers.Loops
import ArgobotsReduction.Grammars.Recognizers

/-!
# The affinity of execution streams

The affinity is a string with lists of CPU IDs, and may repeat IDs and whole lists with
strides.  The parser is a recursive descent over the string.  It skips blanks before
each token, and appends to the lists as it goes.

A string is what is left of it from the current index on.  It is too short for the
index to wrap, and its end stands for the terminator.  Memory can always be allocated.
-/

set_option autoImplicit false

namespace ArgobotsReduction.Streams.Affinity

open Containers Grammars

universe u v

/-! ## Lists -/

/-- A value that is stored in an `int` -/
def asInt (x : ℤ) : ℤ := x.bmod (2 ^ 32)

/-- A value that is stored in a `uint32_t` -/
def asUint32 (n : ℕ) : ℕ := n % 2 ^ 32

/-- `ABTD_affinity_id_list` -/
structure IdList where
  num : ℕ
  ids : ℕ → ℤ

namespace IdList

/-- `id_list_create` -/
def create : IdList where
  num := 0
  ids _ := 0

/-- `id_list_add` -/
def add (l : IdList) (id : ℤ) (num : ℕ) (stride : ℤ) : IdList where
  num := asUint32 (l.num + num)
  ids := loop (List.range num)
    (fun i ids => Function.update ids (asUint32 (l.num + i)) (asInt (id + stride * i))) l.ids

/-- The copy of a list that `list_add` makes. -/
def copy (base : IdList) (stride : ℤ) (i : ℕ) : IdList where
  num := base.num
  ids := loop (List.range base.num)
    (fun j ids => Function.update ids j (asInt (base.ids j + stride * i))) fun _ => 0

def toList (l : IdList) : List ℤ := (List.range l.num).map l.ids

end IdList

/-- `ABTD_affinity_list` -/
structure AffinityList where
  num : ℕ
  idLists : ℕ → IdList

namespace AffinityList

/-- `list_create` -/
def create : AffinityList where
  num := 0
  idLists _ := .create

/-- `list_add` -/
def add (l : AffinityList) (base : IdList) (num : ℕ) (stride : ℤ) : AffinityList where
  num := asUint32 (l.num + num)
  idLists := Function.update
    (loop (span 1 num)
      (fun i lists => Function.update lists (asUint32 (l.num + i)) (base.copy stride i)) l.idLists)
    l.num base

def toLists (l : AffinityList) : List (List ℤ) :=
  (List.range l.num).map fun i => (l.idLists i).toList

end AffinityList

/-! ## Tokens -/

/-- `is_whitespace` -/
def isWhitespace (c : Char) : Bool := c = ' ' ∨ c = '\t' ∨ c = '\r' ∨ c = '\n'

/-- The character at the end of a string. -/
def terminator : Char := Char.ofNat 0

inductive Flag where
  | n
  | s
  | v
  deriving DecidableEq

/-- The loop of `consume_int` -/
def consumeIntLoop : List Char → ℤ → ℤ → Flag → Option (ℤ × List Char)
  | [], val, valSign, flag => if flag = .v then some (asInt (val * valSign), []) else none
  | c :: rest, val, valSign, flag =>
      if flag ≠ .v ∧ c = '-' then consumeIntLoop rest val (-valSign) .s
      else if flag ≠ .v ∧ c = '+' then consumeIntLoop rest val valSign .s
      else if flag = .n ∧ isWhitespace c then consumeIntLoop rest val valSign flag
      else if c.isDigit then
        consumeIntLoop rest (asInt (val * 10 + (c.toNat - '0'.toNat : ℕ))) valSign .v
      else if flag = .v then some (asInt (val * valSign), c :: rest)
      else none

/-- `consume_int` -/
def consumeInt (s : List Char) : Option (ℤ × List Char) := consumeIntLoop s 0 1 .n

/-- `consume_pint` -/
def consumePint (s : List Char) : Option (ℤ × List Char) :=
  (consumeInt s).filter fun (val, _) => 0 < val

/-- `consume_symbol` -/
def consumeSymbol (symbol : Char) : List Char → Option (List Char)
  | [] => if symbol = terminator then some [] else none
  | c :: rest =>
      if c = symbol then some rest
      else if isWhitespace c then consumeSymbol symbol rest
      else none

/-! ## Parsing -/

/-- The error codes, where memory can be allocated. -/
inductive Code where
  | other
  deriving DecidableEq

/-- `MAX_NUM_ELEMS` -/
def maxNumElems : ℕ := 1024 * 1024

/-- A base that is repeated. -/
structure Strided (β : Type u) where
  base : β
  num : ℕ
  stride : ℤ
  deriving DecidableEq

def Strided.map {α β : Type*} (f : α → β) (r : Strided α) : Strided β where
  base := f r.base
  num := r.num
  stride := r.stride

/-- The optional `":" <num>` and `":" <stride>`, which both intervals have. -/
def consumeNumStride (s : List Char) : Option ((ℤ × ℤ) × List Char) :=
  match consumeSymbol ':' s with
  | none => some ((1, 1), s)
  | some s =>
      (consumePint s).bind fun (num, s) =>
        match consumeSymbol ':' s with
        | none => some ((num, 1), s)
        | some s => (consumeInt s).map fun (stride, s) => ((num, stride), s)

/-- The head of the loops of `parse_es_id_list` and `parse_list`, up to adding the interval. -/
def parseStrided {β : Type u} (parseBase : List Char → Reading Code Char β) (s : List Char) :
    Reading Code Char (Strided β) :=
  match parseBase s with
  | none => none
  | some (.error code) => some (.error code)
  | some (.ok (base, s)) =>
      match consumeNumStride s with
      | none => some (.error .other)
      | some ((num, stride), s) =>
          if (maxNumElems : ℤ) ≤ num then some (.error .other)
          else some (.ok (⟨base, num.toNat, stride⟩, s))

/-- `consume_int`, where an `<id>` is expected -/
def parseId (s : List Char) : Reading Code Char ℤ :=
  match consumeInt s with
  | none => some (.error .other)
  | some result => some (.ok result)

/-- `parse_es_id_list`, whatever the intervals are added to -/
def parseEsIdListInto {σ : Type u} (add : σ → Strided ℤ → σ) (create : σ) (fuel : ℕ)
    (s : List Char) : Reading Code Char σ :=
  match consumeInt s with
  | some (val, s) => some (.ok (add create ⟨val, 1, 1⟩, s))
  | none =>
      match consumeSymbol '{' s with
      | some s =>
          readSeparated (parseStrided parseId) add (consumeSymbol ',') (consumeSymbol '}') .other
            fuel create s
      | none => some (.error .other)

/-- `parse_list` of a string that is not null, whatever the intervals are added to -/
def parseListInto {β : Type u} {σ : Type v} (parseBase : List Char → Reading Code Char β)
    (add : σ → Strided β → σ) (create : σ) (fuel : ℕ) (s : List Char) : Reading Code Char σ :=
  readSeparated (parseStrided parseBase) add (consumeSymbol ',') (consumeSymbol terminator) .other
    fuel create s

/-- `parse_es_id_list` -/
def parseEsIdList : ℕ → List Char → Reading Code Char IdList :=
  parseEsIdListInto (fun l r => l.add r.base r.num r.stride) .create

/-- `parse_list` -/
def parseList (fuel : ℕ) : List Char → Reading Code Char AffinityList :=
  parseListInto (parseEsIdList fuel) (fun l r => l.add r.base r.num r.stride) .create fuel

/-- A string that ends with its first terminator, and with an index of type `uint32_t`. -/
structure CString where
  chars : List Char
  terminated : terminator ∉ chars
  short : chars.length < 2 ^ 32

/-- `ABTD_affinity_list_create`.  A string has fewer intervals than characters, and so the loops
return. -/
def affinityListCreate (str : Option CString) : Option (Except Code AffinityList) :=
  match str with
  | none => some (.error .other)
  | some str => (parseList (str.chars.length + 1) str.chars).map (Except.map Prod.fst)

/-! ## The grammar -/

inductive Symbol where
  | colon
  | comma
  | opening
  | closing
  deriving DecidableEq

def Symbol.char : Symbol → Char
  | .colon => ':'
  | .comma => ','
  | .opening => '{'
  | .closing => '}'

inductive Token where
  | integer (v : ℤ)
  | symbol (symbol : Symbol)

/-- The sign that a sequence of signs has. -/
def sign (signs : List Char) : ℤ := (-1) ^ signs.count '-'

/-- A word spells a token.  A number is in decimal, and has any sequence of signs before it. -/
inductive Token.Spelled : Token → List Char → Prop
  | integer {signs digits : List Char} (areSigns : ∀ c ∈ signs, c = '+' ∨ c = '-')
      (nonempty : digits ≠ []) (areDigits : ∀ c ∈ digits, c.isDigit) :
      Spelled (.integer (sign signs * Nat.ofDigitChars 10 digits 0)) (signs ++ digits)
  | symbol (symbol : Symbol) : Spelled (.symbol symbol) [symbol.char]

/-- The string spells the tokens, with blanks between them. -/
abbrev SpellsTokens : List Char → List Token → Prop :=
  Spells (fun c => isWhitespace c) Token.Spelled

/-- `<id>` -/
inductive Id : List Token → ℤ → Prop
  | integer (v : ℤ) : Id [.integer v] v

/-- `<num>` -/
structure IsNum (num : ℕ) : Prop where
  positive : 0 < num
  bounded : num < maxNumElems

/-- `<base> ":" <num> ":" <stride>`, `<base> ":" <num>` or `<base>` -/
inductive StridedRule {α : Type u} (base : List Token → α → Prop) :
    List Token → Strided α → Prop
  | numStride {ts : List Token} {a : α} {num : ℕ} (stride : ℤ) : base ts a → IsNum num →
      StridedRule base (ts ++ [.symbol .colon, .integer num, .symbol .colon, .integer stride])
        ⟨a, num, stride⟩
  | num {ts : List Token} {a : α} {num : ℕ} : base ts a → IsNum num →
      StridedRule base (ts ++ [.symbol .colon, .integer num]) ⟨a, num, 1⟩
  | base {ts : List Token} {a : α} : base ts a → StridedRule base ts ⟨a, 1, 1⟩

/-- `<id-interval>` -/
abbrev IdInterval : List Token → Strided ℤ → Prop := StridedRule Id

/-- `<id-list>` -/
abbrev IdListRule : List Token → List (Strided ℤ) → Prop :=
  Separated (.symbol .comma) IdInterval

/-- `<es-id-list>` -/
inductive EsIdList : List Token → List (Strided ℤ) → Prop
  | id {ts : List Token} {id : ℤ} : Id ts id → EsIdList ts [⟨id, 1, 1⟩]
  | idList {ts : List Token} {as : List (Strided ℤ)} : IdListRule ts as →
      EsIdList (.symbol .opening :: (ts ++ [.symbol .closing])) as

/-- `<interval>` -/
abbrev Interval : List Token → Strided (List (Strided ℤ)) → Prop := StridedRule EsIdList

/-- `<list>` -/
abbrev ListRule : List Token → List (Strided (List (Strided ℤ))) → Prop :=
  Separated (.symbol .comma) Interval

/-! ## Its meaning -/

/-- The IDs of an `<id-interval>` -/
def Strided.ids (r : Strided ℤ) : List ℤ :=
  (List.range r.num).map fun i : ℕ => r.base + r.stride * i

/-- The lists of an `<interval>` -/
def Strided.idLists (r : Strided (List (Strided ℤ))) : List (List ℤ) :=
  (List.range r.num).map fun i : ℕ => (r.base.flatMap Strided.ids).map fun id => id + r.stride * i

/-- The string can be derived, and these are the lists that it denotes. -/
def Denotes (str : List Char) (lists : List (List ℤ)) : Prop :=
  ∃ tokens intervals, SpellsTokens str tokens ∧ ListRule tokens intervals ∧
    lists = intervals.flatMap Strided.idLists

/-- Every integer literal of the string is at most `INT_MAX`. -/
def LiteralsFit (str : List Char) : Prop :=
  ∀ digits, digits <:+: str → (∀ c ∈ digits, c.isDigit) → Nat.ofDigitChars 10 digits 0 < 2 ^ 31

/-- The lists have fewer than `2 ^ 32` entries, and these are of type `int`. -/
structure ListsFit (lists : List (List ℤ)) : Prop where
  length : lists.length < 2 ^ 32
  lengths : ∀ ids ∈ lists, ids.length < 2 ^ 32
  ids : ∀ ids ∈ lists, ∀ id ∈ ids, -2 ^ 31 ≤ id ∧ id < 2 ^ 31

end ArgobotsReduction.Streams.Affinity
