import ArgobotsReduction.Utilities.Hashtable

/-!
# Configurations of schedulers and pools

A configuration maps indices to values that carry their types.  It is a hash table of elements,
which `ABT_sched_config_create` fills from a list of arguments; the functions of `pool_config.c`
are the same, with an empty list.

A configuration is a finite map in all its operations, whether they succeed or not: what has been
set last is what is read, with its type, a value of an unknown type changes nothing, and neither
does a value for which there is no memory.  The memory of a creation that fails is all released,
and so is that of a configuration that is freed, each block once (`config_refines`).
-/

set_option autoImplicit false

namespace ArgobotsReduction.Scheduling.SchedConfig

open Containers Utilities.Hashtable

/-! ## Elements -/

/-- `ABT_sched_config_type` -/
inductive ConfigType where
  | int
  | double
  | ptr
  deriving DecidableEq

/-- The type that a number stands for -/
def configType : ℤ → Option ConfigType
  | 0 => some .int
  | 1 => some .double
  | 2 => some .ptr
  | _ => none

/-- The bits of a value -/
abbrev Bits : ConfigType → Type
  | .int => BitVec 32
  | .double => BitVec 64
  | .ptr => BitVec 64

/-- `sched_config_element`: the union is read as what it has been set to. -/
structure ConfigElement where
  type : ConfigType
  val : Bits type

/-- What is read through a pointer, as a value of each type -/
abbrev Pointed := (type : ConfigType) → Bits type

/-- `sched_config_create_element_typed` -/
def createElementTyped (type : ℤ) (val : Pointed) : Option ConfigElement :=
  (configType type).map fun known => ⟨known, val known⟩

/-- The error codes -/
inductive Code where
  | success
  /-- `ABT_ERR_MEM` -/
  | mem
  /-- `ABT_ERR_INV_ARG` -/
  | invArg
  deriving DecidableEq

/-! ## Operations -/

abbrev Config := Table ConfigElement

/-- `ABTU_hashtable_create` with `SCHED_CONFIG_HTABLE_SIZE`, which is `POOL_CONFIG_HTABLE_SIZE`
as well -/
def newTable : Config := create 8 16 (by decide) (by decide) ⟨.int, 0⟩

/-- `ABTU_hashtable_set` without a flag -/
def setElement (t : Config) (allocates : Bool) (idx : ℤ) (data : ConfigElement) :
    Option (Config × Code) :=
  (t.set allocates idx data none).map fun r =>
    (r.1, match r.2.1 with
      | .success => .success
      | .mem => .mem)

/-- `ABT_sched_config_set`, where a null pointer deletes -/
def set (t : Config) (allocates : Bool) (idx type : ℤ) (val : Option Pointed) :
    Option (Config × Code) :=
  match val with
  | some val =>
      match createElementTyped type val with
      | some data => setElement t allocates idx data
      | none => some (t, .invArg)
  | none => (t.delete idx none).map fun r => (r.1, .success)

/-- `ABT_sched_config_get` and `ABTI_sched_config_read`: the element, if it is found -/
def get (t : Config) (idx : ℤ) : Option (Code × Option ConfigElement) :=
  (t.get idx).map fun r => if r.2 then (.success, r.1) else (.invArg, none)

/-- The loop of `ABT_sched_config_read` from an index on: what is written through each pointer,
unless it is null -/
def readLoop (t : Config) : ℤ → List Bool → Option (List (Option ConfigElement))
  | _, [] => some []
  | idx, wanted :: others => do
      let data ← if wanted then (t.get idx).map Prod.fst else some none
      let rest ← readLoop t (idx + 1) others
      return data :: rest

/-- `ABT_sched_config_read` -/
def read (t : Config) (wanted : List Bool) : Option (List (Option ConfigElement)) :=
  readLoop t 0 wanted

/-! ## Memory -/

/-- What is allocated for a configuration -/
inductive Block where
  | config
  | table
  | element (n : ℕ)
  deriving DecidableEq

/-- The loop of `ABTU_hashtable_free` on the elements of a bucket -/
def freeLoop (t : Config) : ℕ → Option Element → List Block
  | turns + 1, some (.heap n) => .element n :: freeLoop t turns (t.next (.heap n))
  | _, _ => []

/-- `ABTU_hashtable_free` -/
def freeTable (t : Config) : List Block :=
  (List.range t.numEntries).flatMap (fun i => freeLoop t t.allocated (t.next (.entry i))) ++
    [.table]

/-- `ABT_sched_config_free` -/
def free (t : Config) : List Block := freeTable t ++ [.config]

/-- All that has been allocated -/
def allocated (t : Config) : List Block :=
  (List.range t.allocated).map .element ++ [.table, .config]

/-- What has been released by the operations -/
def released (t : Config) : List Block := t.freed.map .element

/-! ## The list of arguments -/

/-- An argument: a variable, with what follows it -/
structure Argument where
  idx : ℤ
  type : ℤ
  val : Pointed

/-- The index of `ABT_sched_config_var_end` -/
def endIdx : ℤ := -1

/-- The loop of `ABT_sched_config_create`.  `memory` says which allocations succeed. -/
def addArguments (memory : ℕ → Bool) : ℕ → List Argument → Config → Option (Config × Code)
  | _, [], t => some (t, .success)
  | i, argument :: others, t =>
      if argument.idx = endIdx then some (t, .success)
      else
        match createElementTyped argument.type argument.val with
        | none => some (t, .invArg)
        | some data =>
            (setElement t (memory i) argument.idx data).bind fun r =>
              match r.2 with
              | .success => addArguments memory (i + 1) others r.1
              | _ => some r

/-- How a creation ends -/
inductive Created where
  | failed (code : Code) (allocated released : List Block)
  | made (t : Config)

/-- `ABT_sched_config_create` -/
def createConfig (memory : ℕ → Bool) (arguments : List Argument) : Option Created :=
  if memory 0 then
    if memory 1 then
      (addArguments memory 2 arguments newTable).map fun r =>
        if r.2 = .success then .made r.1
        else .failed r.2 (allocated r.1) (released r.1 ++ freeTable r.1 ++ [.config])
    else some (.failed .mem [.config] [.config])
  else some (.failed .mem [] [])

/-- `ABT_pool_config_create` -/
def createPoolConfig (memory : ℕ → Bool) : Option Created := createConfig memory []

/-! ## What has to hold -/

inductive Op where
  | set (idx type : ℤ) (val : Option Pointed) (allocates : Bool)
  | get (idx : ℤ)
  | read (wanted : List Bool)

inductive Result where
  | set (code : Code)
  | got (code : Code) (data : Option ConfigElement)
  | read (data : List (Option ConfigElement))

def perform (t : Config) : Op → Option (Config × Result)
  | .set idx type val allocates => (set t allocates idx type val).map fun r => (r.1, .set r.2)
  | .get idx => (get t idx).map fun r => (t, .got r.1 r.2)
  | .read wanted => (read t wanted).map fun data => (t, .read data)

/-- The operations of a finite map of elements -/
inductive MapStep (f : ℤ → Option ConfigElement) :
    Op → Result → (ℤ → Option ConfigElement) → Prop where
  | set {type : ℤ} {known : ConfigType} (idx : ℤ) (val : Pointed) (allocates : Bool)
      (isType : configType type = some known) :
      MapStep f (.set idx type (some val) allocates) (.set .success)
        (Function.update f idx (some ⟨known, val known⟩))
  | setUnknown {type : ℤ} (idx : ℤ) (val : Pointed) (allocates : Bool)
      (unknown : configType type = none) :
      MapStep f (.set idx type (some val) allocates) (.set .invArg) f
  | setFails {type : ℤ} {idx : ℤ} (val : Pointed) (absent : f idx = none) :
      MapStep f (.set idx type (some val) false) (.set .mem) f
  | delete (idx type : ℤ) (allocates : Bool) :
      MapStep f (.set idx type none allocates) (.set .success) (Function.update f idx none)
  | get {idx : ℤ} {data : ConfigElement} (here : f idx = some data) :
      MapStep f (.get idx) (.got .success (some data)) f
  | getAbsent {idx : ℤ} (absent : f idx = none) : MapStep f (.get idx) (.got .invArg none) f
  | read (wanted : List Bool) :
      MapStep f (.read wanted)
        (.read (wanted.mapIdx fun i asked => if asked then f i else none)) f

/-- The operations are those of a map, and at any time the configuration can be freed: then
everything has been released once. -/
def Refines : List Op → Config → (ℤ → Option ConfigElement) → Prop
  | [], t, _ => (released t ++ free t).Perm (allocated t)
  | op :: ops, t, f => (released t ++ free t).Perm (allocated t) ∧
      ∃ t' result f', perform t op = some (t', result) ∧ MapStep f op result f' ∧ Refines ops t' f'

/-- What some arguments set.  The last value of an index counts. -/
def valuesOf : List Argument → (ℤ → Option ConfigElement) → ℤ → Option ConfigElement
  | [], f => f
  | argument :: others, f =>
      if argument.idx = endIdx then f
      else valuesOf others
        (Function.update f argument.idx (createElementTyped argument.type argument.val))

/-! ## Freeing -/

variable {t : Config} {f : ℤ → Option ConfigElement} {elements : ℕ → List Element}

/-- The block of an element that has been allocated by itself -/
def block : Element → Option Block
  | .heap n => some (.element n)
  | .entry _ => none

theorem freeLoop_eq {rest : List Element} {pointer : Option Element} {turns : ℕ}
    (linked : Linked t.next pointer rest) (heap : ∀ e ∈ rest, ∃ n, e = .heap n)
    (enough : rest.length ≤ turns) : freeLoop t turns pointer = rest.filterMap block := by
  induction rest generalizing pointer turns with
  | nil =>
      obtain rfl : pointer = none := linked
      cases turns with
      | zero => rfl
      | succ turns => rfl
  | cons e rest ih =>
      obtain ⟨rfl, tail⟩ := linked
      obtain ⟨n, rfl⟩ := heap e List.mem_cons_self
      cases turns with
      | zero => exact absurd enough (Nat.not_succ_le_zero _)
      | succ turns =>
          have others := ih tail (fun e member => heap e (List.mem_cons_of_mem _ member))
            (Nat.le_of_succ_le_succ enough)
          rw [freeLoop, others]
          rfl

/-- The elements of a bucket that have been allocated are freed. -/
theorem freeLoop_bucket {i : ℕ} {es : List Element} (bucket : t.Bucket i es) :
    freeLoop t t.allocated (t.next (.entry i)) = es.filterMap block := by
  cases es with
  | nil =>
      rw [(bucket.empty rfl).2]
      cases t.allocated with
      | zero => rfl
      | succ n => rfl
  | cons e rest =>
      obtain ⟨first, tail⟩ := bucket.linked (List.cons_ne_nil e rest)
      obtain rfl := Option.some.inj first
      obtain ⟨notFirst, -⟩ := List.nodup_cons.mp bucket.nodup
      have heap : ∀ e ∈ rest, ∃ n, e = .heap n := by
        intro e member
        rcases bucket.known e (List.mem_cons_of_mem _ member) with rfl | ⟨n, -, rfl⟩
        · exact absurd member notFirst
        · exact ⟨n, rfl⟩
      rw [freeLoop_eq tail heap (Nat.le_of_lt_succ bucket.length_le)]
      rfl

theorem mem_filterMap_block {es : List Element} {b : Block} :
    b ∈ es.filterMap block ↔ ∃ n, .heap n ∈ es ∧ b = .element n := by
  rw [List.mem_filterMap]
  constructor
  · rintro ⟨e, member, same⟩
    cases e with
    | entry i => cases same
    | heap n =>
        obtain rfl := Option.some.inj same
        exact ⟨n, member, rfl⟩
  · rintro ⟨n, member, rfl⟩
    exact ⟨_, member, rfl⟩

theorem nodup_filterMap_block {es : List Element} (distinct : es.Nodup) :
    (es.filterMap block).Nodup := by
  refine distinct.filterMap fun e e' b first second => ?_
  cases e with
  | entry i => cases first
  | heap n =>
      cases e' with
      | entry i => cases second
      | heap m =>
          obtain rfl := Option.some.inj first
          obtain same := Option.some.inj second
          rw [Block.element.inj same]

/-- The elements that are freed with the table -/
def chained (t : Config) (elements : ℕ → List Element) : List Block :=
  (List.range t.numEntries).flatMap fun i => (elements i).filterMap block

theorem freeTable_eq (represents : t.Represents f elements) :
    freeTable t = chained t elements ++ [.table] := by
  rw [freeTable, chained]
  congr 1
  apply List.flatMap_congr
  intro i member
  exact freeLoop_bucket (represents.bucket i (List.mem_range.mp member))

theorem mem_chained {b : Block} : b ∈ chained t elements ↔
    ∃ i < t.numEntries, ∃ n, .heap n ∈ elements i ∧ b = .element n := by
  rw [chained, List.mem_flatMap]
  refine exists_congr fun i => ?_
  rw [List.mem_range, mem_filterMap_block]

theorem nodup_chained (represents : t.Represents f elements) : (chained t elements).Nodup := by
  rw [chained, List.nodup_flatMap]
  constructor
  · intro i member
    exact nodup_filterMap_block (represents.bucket i (List.mem_range.mp member)).nodup
  · refine (List.pairwise_lt_range).imp_of_mem fun {i j} first second less b inFirst inSecond => ?_
    obtain ⟨n, member, rfl⟩ := mem_filterMap_block.mp inFirst
    obtain ⟨m, member', same⟩ := mem_filterMap_block.mp inSecond
    obtain rfl := Block.element.inj same
    rw [List.mem_range] at first second
    exact Nat.ne_of_lt less (represents.apart i first j second _ member member')

/-- **A configuration is released once, and as a whole.** -/
theorem released_perm (represents : t.Represents f elements) :
    (released t ++ free t).Perm (allocated t) := by
  have elementInj : Function.Injective Block.element := fun _ _ same => Block.element.inj same
  have once : (released t).Nodup := represents.once.map elementInj
  have apart : List.Disjoint (released t) (chained t elements) := by
    intro b inReleased inChained
    obtain ⟨n, member, rfl⟩ := List.mem_map.mp inReleased
    obtain ⟨i, below, m, there, same⟩ := mem_chained.mp inChained
    obtain rfl := Block.element.inj same
    exact ((represents.freed n).mp member).2 i below there
  have elementsPerm : (released t ++ chained t elements).Perm
      ((List.range t.allocated).map Block.element) := by
    refine (List.perm_ext_iff_of_nodup (List.nodup_append'.mpr
      ⟨once, nodup_chained represents, apart⟩) (List.nodup_range.map elementInj)).mpr fun b => ?_
    rw [List.mem_append, mem_chained, List.mem_map, released, List.mem_map]
    constructor
    · rintro (⟨n, member, rfl⟩ | ⟨i, below, n, member, rfl⟩)
      · exact ⟨n, List.mem_range.mpr ((represents.freed n).mp member).1, rfl⟩
      · exact ⟨n, List.mem_range.mpr (represents.lt_allocated below member), rfl⟩
    · rintro ⟨n, member, rfl⟩
      by_cases nowhere : ∀ i < t.numEntries, .heap n ∉ elements i
      · exact Or.inl ⟨n, (represents.freed n).mpr ⟨List.mem_range.mp member, nowhere⟩, rfl⟩
      · push Not at nowhere
        obtain ⟨i, below, there⟩ := nowhere
        exact Or.inr ⟨i, below, n, there, rfl⟩
  rw [free, freeTable_eq represents, allocated, List.append_assoc, ← List.append_assoc]
  exact elementsPerm.append_right _

/-! ## The operations -/

theorem setElement_eq (represents : t.Represents f elements) (allocates : Bool) (idx : ℤ)
    (data : ConfigElement) :
    (∃ t' elements', setElement t allocates idx data = some (t', .success) ∧
      t'.Represents (Function.update f idx (some data)) elements') ∨
    allocates = false ∧ f idx = none ∧ setElement t allocates idx data = some (t, .mem) := by
  rcases represents.set_eq allocates idx data none with ⟨t', elements', done, after⟩ |
    ⟨nothing, absent, failed⟩
  · exact Or.inl ⟨t', elements', by rw [setElement, done]; rfl, after⟩
  · exact Or.inr ⟨nothing, absent, by rw [setElement, failed]; rfl⟩

theorem readLoop_eq (represents : t.Represents f elements) (idx : ℤ) (wanted : List Bool) :
    readLoop t idx wanted =
      some (wanted.mapIdx fun i asked => if asked then f (idx + i) else none) := by
  induction wanted generalizing idx with
  | nil => rfl
  | cons asked others ih =>
      have shifted : ∀ i : ℕ, idx + 1 + i = idx + (i + 1 : ℕ) := by
        intro i
        omega
      rw [readLoop, ih, List.mapIdx_cons, represents.get_eq]
      simp only [shifted]
      cases asked with
      | false => simp
      | true => simp

/-- **Every operation is one of the map.** -/
theorem perform_eq (represents : t.Represents f elements) (op : Op) :
    ∃ t' result f' elements', perform t op = some (t', result) ∧ MapStep f op result f' ∧
      t'.Represents f' elements' := by
  cases op with
  | set idx type val allocates =>
      cases val with
      | none =>
          obtain ⟨t', elements', after, done⟩ := represents.delete_eq idx none
          have deleted : t.delete idx none = some (t', none) := by
            rcases done with ⟨-, done⟩ | ⟨-, -, done⟩
            · exact done
            · exact done
          exact ⟨t', _, _, elements', by rw [perform, set, deleted]; rfl,
            .delete idx type allocates, after⟩
      | some val =>
          cases known : configType type with
          | none =>
              have unknown : createElementTyped type val = none := by
                rw [createElementTyped, known]
                rfl
              exact ⟨t, _, f, elements, by rw [perform, set]; simp only [unknown]; rfl,
                .setUnknown idx val allocates known, represents⟩
          | some isType =>
              have data : createElementTyped type val = some ⟨isType, val isType⟩ := by
                rw [createElementTyped, known]
                rfl
              rcases setElement_eq represents allocates idx ⟨isType, val isType⟩ with
                ⟨t', elements', done, after⟩ | ⟨rfl, absent, failed⟩
              · exact ⟨t', _, _, elements', by rw [perform, set]; simp only [data, done]; rfl,
                  .set idx val allocates known, after⟩
              · exact ⟨t, _, f, elements, by rw [perform, set]; simp only [data, failed]; rfl,
                  .setFails val absent, represents⟩
  | get idx =>
      have got := represents.get_eq idx
      cases here : f idx with
      | none =>
          rw [here] at got
          exact ⟨t, _, f, elements, by rw [perform, get, got]; rfl, .getAbsent here, represents⟩
      | some data =>
          rw [here] at got
          exact ⟨t, _, f, elements, by rw [perform, get, got]; rfl, .get here, represents⟩
  | read wanted =>
      have all := readLoop_eq represents 0 wanted
      simp only [zero_add] at all
      exact ⟨t, _, f, elements, by rw [perform, read, all]; rfl, .read wanted, represents⟩

/-- **From then on, the operations are those of the map.** -/
theorem refines (represents : t.Represents f elements) (ops : List Op) : Refines ops t f := by
  induction ops generalizing t f elements with
  | nil => exact released_perm represents
  | cons op ops ih =>
      obtain ⟨t', result, f', elements', performed, step, after⟩ := perform_eq represents op
      exact ⟨released_perm represents, t', result, f', performed, step, ih after⟩

/-! ## Creation -/

/-- The code of a creation that fails says why. -/
def Reason (memory : ℕ → Bool) (arguments : List Argument) : Code → Prop
  | .success => False
  | .mem => ∃ i, memory i = false
  | .invArg => ∃ argument ∈ arguments, configType argument.type = none

theorem Reason.later {memory : ℕ → Bool} {arguments : List Argument} {code : Code}
    (reason : Reason memory arguments code) (argument : Argument) :
    Reason memory (argument :: arguments) code := by
  cases code with
  | success => exact reason
  | mem => exact reason
  | invArg =>
      obtain ⟨other, member, unknown⟩ := reason
      exact ⟨other, List.mem_cons_of_mem _ member, unknown⟩

/-- **The arguments are added one after the other**, until one cannot be. -/
theorem addArguments_eq (represents : t.Represents f elements) (memory : ℕ → Bool) (i : ℕ)
    (arguments : List Argument) :
    ∃ t' code f' elements', addArguments memory i arguments t = some (t', code) ∧
      t'.Represents f' elements' ∧ (code = .success → f' = valuesOf arguments f) ∧
      (code ≠ .success → Reason memory arguments code) := by
  induction arguments generalizing t f elements i with
  | nil => exact ⟨t, _, f, elements, rfl, represents, fun _ => rfl, fun failed => absurd rfl failed⟩
  | cons argument others ih =>
      rw [addArguments, valuesOf]
      split_ifs with ends
      · exact ⟨t, _, f, elements, rfl, represents, fun _ => rfl, fun failed => absurd rfl failed⟩
      · cases known : configType argument.type with
        | none =>
            have unknown : createElementTyped argument.type argument.val = none := by
              rw [createElementTyped, known]
              rfl
            simp only [unknown]
            refine ⟨t, _, f, elements, rfl, represents, fun same => ?_, fun _ =>
              ⟨argument, List.mem_cons_self, known⟩⟩
            cases same
        | some isType =>
            have data : createElementTyped argument.type argument.val =
                some ⟨isType, argument.val isType⟩ := by
              rw [createElementTyped, known]
              rfl
            simp only [data]
            rcases setElement_eq represents (memory i) argument.idx ⟨isType, argument.val isType⟩
              with ⟨t', elements', done, after⟩ | ⟨nothing, absent, failed⟩
            · obtain ⟨last, code, f', elements'', added, stands, values, reason⟩ :=
                ih after (i + 1)
              exact ⟨last, code, f', elements'', by rw [done]; exact added, stands, values,
                fun failed => (reason failed).later argument⟩
            · refine ⟨t, .mem, f, elements, by rw [failed]; rfl, represents, fun same => ?_,
                fun _ => ⟨i, nothing⟩⟩
              cases same

theorem represents_newTable : newTable.Represents (fun _ => none) fun _ => [] :=
  Table.represents_create 8 16 _ _ _

/-- **A creation that fails has released all that it has allocated, and says why it fails.  A
configuration that has been created is the map of its arguments, and stays a map.** -/
theorem config_refines (memory : ℕ → Bool) (arguments : List Argument) :
    (∃ code blocks gone, createConfig memory arguments = some (.failed code blocks gone) ∧
        gone.Perm blocks ∧ Reason memory arguments code) ∨
      ∃ t, createConfig memory arguments = some (.made t) ∧
        ∀ ops, Refines ops t (valuesOf arguments fun _ => none) := by
  rw [createConfig]
  cases first : memory 0 with
  | false => exact Or.inl ⟨.mem, [], [], by simp, .refl _, 0, first⟩
  | true =>
      cases second : memory 1 with
      | false => exact Or.inl ⟨.mem, [.config], [.config], by simp, .refl _, 1, second⟩
      | true =>
          obtain ⟨t, code, f, elements, added, stands, values, reason⟩ :=
            addArguments_eq represents_newTable memory 2 arguments
          rw [if_pos rfl, if_pos rfl, added, Option.map_some]
          by_cases made : code = .success
          · refine Or.inr ⟨t, by rw [if_pos made], fun ops => ?_⟩
            rw [← values made]
            exact refines stands ops
          · refine Or.inl ⟨code, _, _, by rw [if_neg made], ?_, reason made⟩
            rw [List.append_assoc]
            exact released_perm stands

end ArgobotsReduction.Scheduling.SchedConfig
