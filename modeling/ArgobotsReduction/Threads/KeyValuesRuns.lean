import ArgobotsReduction.Threads.KeyValues

/-!
# A key table is a map

A key table represents the last value of every key (`Ktable.Represents`): no key has two
elements, an element is in the chain of its key, and the memory of the elements, of the
table and of the headers does not overlap.  A new table, a stored value and an added
element keep that.

In every reachable state a get finds the last value, whether it runs alone or walks the
chain while others set values, and `ABTI_ktable_free` calls the destructor of every key
that has a value once (`maps_keys`).  A set that reports success has stored its value
during its call, and nothing else changes a value.
-/

set_option autoImplicit false

namespace ArgobotsReduction.Threads.KeyValues

open Containers Parallel
open KeyTable (getIdx)

universe u v

variable {ι : Type u} {V : Type v} {sizes : Sizes} {destructor : ℕ → Bool}

/-! ## Lists of elements -/

theorem map_modify_of_keeps {α β : Type*} {f : α → β} {g : α → α} (keeps : ∀ a, f (g a) = f a)
    (l : List α) (i : ℕ) : (l.modify i g).map f = l.map f := by
  refine List.ext_getElem? fun j => ?_
  rw [List.getElem?_map, List.getElem?_map, List.getElem?_modify]
  cases l[j]? with
  | none => rfl
  | some a =>
      simp only [Option.map_eq_map, Option.map_some]
      split
      · exact congrArg some (keeps a)
      · rfl

/-- Chains of different indices have different keys. -/
theorem nodup_flatMap_keys (size : ℕ) {n : ℕ} {f : ℕ → List ℕ} (distinct : ∀ i, (f i).Nodup)
    (placed : ∀ i, ∀ k ∈ f i, getIdx size k = i) : ((List.range n).flatMap f).Nodup := by
  refine List.nodup_flatMap.mpr ⟨fun i _ => distinct i, List.nodup_range.imp fun different => ?_⟩
  intro k first second
  exact different ((placed _ k first).symm.trans (placed _ k second))

namespace Ktable

/-- The keys and the values of elements. -/
def pairs (elems : List (Elem V)) : List (ℕ × Option V) := elems.map fun e => (e.keyId, e.value)

theorem pairs_fst (elems : List (Elem V)) : (pairs elems).map Prod.fst = elems.map Elem.keyId := by
  rw [pairs, List.map_map]
  rfl

theorem getLoop_eq_lookup (keyId : ℕ) (elems : List (Elem V)) :
    getLoop keyId elems = ((pairs elems).lookup keyId).join := by
  induction elems with
  | nil => rfl
  | cons elem rest ih =>
      rw [getLoop, pairs, List.map_cons, List.lookup_cons]
      split
      next same => simp [same]
      next other =>
        rw [ih, beq_false_of_ne fun same => other same.symm]
        rfl

/-- A new value of an element -/
theorem getLoop_replace {front back : List (Elem V)} {elem : Elem V}
    (distinct : ((front ++ elem :: back).map Elem.keyId).Nodup) (value : Option V) (k : ℕ) :
    getLoop k (front ++ { elem with value := value } :: back) =
      Function.update (fun k => getLoop k (front ++ elem :: back)) elem.keyId value k := by
  have split : ∀ e : Elem V, pairs (front ++ e :: back) =
      pairs front ++ (e.keyId, e.value) :: pairs back := fun e => by simp [pairs]
  rw [← pairs_fst, split] at distinct
  simp only [getLoop_eq_lookup, split]
  rw [lookup_replace distinct]
  rcases eq_or_ne k elem.keyId with rfl | other
  · simp
  · simp [Function.update_of_ne other]

/-- An element of a new key -/
theorem getLoop_append {front : List (Elem V)} (elem : Elem V)
    (absent : elem.keyId ∉ front.map Elem.keyId) (k : ℕ) :
    getLoop k (front ++ [elem]) =
      Function.update (fun k => getLoop k front) elem.keyId elem.value k := by
  have split : pairs (front ++ [elem]) = pairs front ++ [(elem.keyId, elem.value)] := by
    simp [pairs]
  rw [← pairs_fst] at absent
  simp only [getLoop_eq_lookup, split]
  rw [lookup_insert absent]
  rcases eq_or_ne k elem.keyId with rfl | other
  · simp
  · simp [Function.update_of_ne other]

theorem getLoop_of_mem {keyId : ℕ} {elems : List (Elem V)}
    (distinct : (elems.map Elem.keyId).Nodup) {e : Elem V} (member : e ∈ elems)
    (key : e.keyId = keyId) : getLoop keyId elems = e.value := by
  induction elems with
  | nil => cases member
  | cons elem rest ih =>
      obtain ⟨absent, distinct⟩ := List.nodup_cons.mp distinct
      rw [getLoop]
      rcases List.mem_cons.mp member with rfl | later
      · rw [if_pos key]
      · have other : elem.keyId ≠ keyId := by
          rintro same
          exact absent (same ▸ key ▸ List.mem_map_of_mem later)
        rw [if_neg other]
        exact ih distinct later

theorem getLoop_eq_some {keyId : ℕ} {elems : List (Elem V)}
    (distinct : (elems.map Elem.keyId).Nodup) {value : V} :
    getLoop keyId elems = some value ↔ ∃ e ∈ elems, e.keyId = keyId ∧ e.value = some value := by
  induction elems with
  | nil => simp [getLoop]
  | cons elem rest ih =>
      obtain ⟨absent, distinct⟩ := List.nodup_cons.mp distinct
      rw [getLoop]
      split
      next same =>
        have others : ∀ e ∈ rest, e.keyId ≠ keyId := by
          rintro e member rfl
          exact absent (same ▸ List.mem_map_of_mem member)
        constructor
        · intro has
          exact ⟨elem, List.mem_cons_self, same, has⟩
        · rintro ⟨e, member, key, has⟩
          rcases List.mem_cons.mp member with rfl | later
          · exact has
          · exact absurd key (others e later)
      next other => simp [ih distinct, other]

/-- The loop of a search stops at the first element of the key. -/
theorem search_eq (keyId : ℕ) (elems : List (Elem V)) :
    ((search keyId elems).1 = true ∧
        (elems.map Elem.keyId)[(search keyId elems).2]? = some keyId) ∨
      ((search keyId elems).1 = false ∧ (search keyId elems).2 = elems.length ∧
        keyId ∉ elems.map Elem.keyId) := by
  induction elems with
  | nil => exact .inr ⟨rfl, rfl, by simp⟩
  | cons elem rest ih =>
      rw [search]
      split
      next same => exact .inl ⟨rfl, by simp [same]⟩
      next other =>
        rcases ih with ⟨found, here⟩ | ⟨missing, last, absent⟩
        · exact .inl ⟨found, by simpa using here⟩
        · refine .inr ⟨missing, by simp [last], ?_⟩
          rw [List.map_cons, List.mem_cons, not_or]
          exact ⟨fun same => other same.symm, absent⟩

theorem mem_freeLoop {elems : List (Elem V)} {keyId : ℕ} {value : V} :
    (keyId, value) ∈ freeLoop elems ↔
      ∃ e ∈ elems, e.destructor = true ∧ e.keyId = keyId ∧ e.value = some value := by
  induction elems with
  | nil => simp [freeLoop]
  | cons elem rest ih =>
      rw [freeLoop]
      split
      next first present has =>
        simp only [List.mem_cons, exists_eq_or_imp, ih, Prod.mk.injEq, present, has,
          Option.some.injEq, true_and]
        exact or_congr_left (and_congr eq_comm eq_comm)
      next without =>
        have absent : ¬(elem.destructor = true ∧ elem.keyId = keyId ∧ elem.value = some value) :=
          fun ⟨present, _, has⟩ => without value present has
        simp only [List.mem_cons, exists_eq_or_imp, absent, false_or, ih]

theorem freeLoop_sublist (elems : List (Elem V)) :
    ((freeLoop elems).map Prod.fst).Sublist (elems.map Elem.keyId) := by
  induction elems with
  | nil => exact .slnil
  | cons elem rest ih =>
      rw [freeLoop]
      split
      next => exact ih.cons_cons _
      next => exact ih.cons _

/-! ## What a table represents -/

variable (sizes) in
/-- All elements, chain by chain. -/
def allElems (t : Ktable V) : List (Elem V) := (List.range sizes.keyTable).flatMap t.elems

variable (sizes) in
/-- The memory of an element. -/
def elemRegion (e : Elem V) : Region := ⟨e.address, sizes.ktelemSize⟩

variable (sizes) in
/-- The header of a block. -/
def headerRegion (b : Block) : Region := ⟨b.region.start, sizes.memHeader⟩

variable (sizes) in
/-- The memory of the elements, of the table and of the headers. -/
def pieces (t : Ktable V) : List Region :=
  (t.allElems sizes).map (elemRegion sizes) ++
    ⟨t.address, sizes.ktableSize⟩ :: t.usedMem.map (headerRegion sizes)

/-- The memory of the table has been carved from its blocks. -/
def IsCarved (sizes : Sizes) (t : Ktable V) : Prop :=
  Carved (t.usedMem.map Block.region) t.extra (t.pieces sizes)

/-- The table represents the values of the keys. -/
structure Represents (sizes : Sizes) (destructor : ℕ → Bool) (t : Ktable V)
    (current : ℕ → Option V) : Prop where
  placed : ∀ i, ∀ e ∈ t.elems i, getIdx sizes.keyTable e.keyId = i
  distinct : ∀ i, ((t.elems i).map Elem.keyId).Nodup
  values : ∀ keyId, t.get sizes keyId = current keyId
  destructors : ∀ i, ∀ e ∈ t.elems i, e.destructor = destructor e.keyId
  carved : t.IsCarved sizes

section Tables

variable {t t' : Ktable V} {current : ℕ → Option V} {setting : Setting V}

/-- **A new table has no values.** -/
theorem represents_create (address : ℕ) :
    Represents sizes destructor (create sizes address : Ktable V) fun _ => none := by
  have empty : (create sizes address : Ktable V).elems = fun _ => [] := by
    rw [create]
    split <;> rfl
  refine ⟨by simp [empty], by simp [empty], fun keyId => ?_, by simp [empty], ?_⟩
  · rw [get, chain, empty]
    rfl
  · have noPieces : (create sizes address : Ktable V).allElems sizes = [] := by
      simp [allElems, empty]
    rw [IsCarved, pieces, noPieces, create]
    split
    next fits =>
      refine Carved.nil.grow ⟨address, sizes.memPoolDesc⟩ (by simp) ?_
      have header := sizes.memHeader_le
      have desc : sizes.ktableDesc = sizes.memPoolDesc - sizes.memHeader := rfl
      change sizes.memHeader + sizes.ktableSize + (sizes.ktableDesc - sizes.ktableSize) ≤
        sizes.memPoolDesc
      omega
    next =>
      exact Carved.nil.separate ⟨address, sizes.ktableSize + sizes.memHeader⟩ (by simp)
        (Nat.le_of_eq (Nat.add_comm ..))

theorem lock_create (address : ℕ) : (create sizes address : Ktable V).lock = false := by
  rw [create]
  split <;> rfl

/-- A change in the chain of a key is a change of the table when it is one in the chain. -/
theorem get_setChain {elems : List (Elem V)} (value : Option V)
    (changed : ∀ k, getLoop k elems =
      Function.update (fun k => getLoop k (t.chain sizes setting.keyId)) setting.keyId value k)
    (k : ℕ) : (t.setChain sizes setting.keyId elems).get sizes k =
      Function.update (fun k => t.get sizes k) setting.keyId value k := by
  rw [get, chain, setChain]
  by_cases same : getIdx sizes.keyTable k = getIdx sizes.keyTable setting.keyId
  · simp only [same, Function.update_self, changed]
    rcases eq_or_ne k setting.keyId with rfl | other
    · simp
    · simp only [Function.update_of_ne other, get, chain, same]
  · have other : k ≠ setting.keyId := by
      rintro rfl
      exact same rfl
    simp only [Function.update_of_ne same, Function.update_of_ne other]
    rfl

/-- The elements of a chain are changed. -/
theorem elems_setChain (t : Ktable V) (keyId : ℕ) (elems : List (Elem V)) (i : ℕ) :
    (t.setChain sizes keyId elems).elems i =
      if i = getIdx sizes.keyTable keyId then elems else t.elems i := by
  exact Function.update_apply ..

/-- A stored value changes no chain but for the value. -/
theorem map_elems_write {β : Type*} {f : Elem V → β}
    (keeps : ∀ e : Elem V, f { e with value := setting.value } = f e) (link i : ℕ) :
    ((t.write sizes setting link).elems i).map f = (t.elems i).map f := by
  rw [write, elems_setChain]
  split
  next same =>
    rw [map_modify_of_keeps keeps, chain, same]
  next => rfl

/-- **A stored value is the value of its key.** -/
theorem Represents.write (represents : Represents sizes destructor t current) {link : ℕ}
    (here : ((t.chain sizes setting.keyId).map Elem.keyId)[link]? = some setting.keyId) :
    Represents sizes destructor (t.write sizes setting link)
      (Function.update current setting.keyId setting.value) := by
  have keys : ∀ i, ((t.write sizes setting link).elems i).map Elem.keyId =
      (t.elems i).map Elem.keyId := map_elems_write (fun _ => rfl) link
  have flags : ∀ i, ((t.write sizes setting link).elems i).map
      (fun e => (e.keyId, e.destructor)) = (t.elems i).map (fun e => (e.keyId, e.destructor)) :=
    map_elems_write (fun _ => rfl) link
  have within : link < (t.chain sizes setting.keyId).length := by
    simpa using (List.getElem?_eq_some_iff.mp here).1
  obtain ⟨front, elem, back, split, length, modified⟩ := List.exists_of_modify
    (fun elem : Elem V => { elem with value := setting.value }) within
  have key : elem.keyId = setting.keyId := by simpa [split, ← length] using here
  refine ⟨fun i e member => ?_, fun i => keys i ▸ represents.distinct i, fun keyId => ?_,
    fun i e member => ?_, ?_⟩
  · obtain ⟨e', member', same⟩ := List.mem_map.mp (keys i ▸ List.mem_map_of_mem member)
    rw [← same]
    exact represents.placed i e' member'
  · rw [Ktable.write, get_setChain setting.value, funext represents.values]
    intro k
    have distinct : ((t.chain sizes setting.keyId).map Elem.keyId).Nodup := represents.distinct _
    rw [split] at distinct
    rw [modified, split, ← key]
    exact getLoop_replace distinct setting.value k
  · have same := List.mem_map_of_mem (f := fun e : Elem V => (e.keyId, e.destructor)) member
    rw [flags i] at same
    obtain ⟨e', member', same⟩ := List.mem_map.mp same
    obtain ⟨sameKey, sameFlag⟩ := Prod.mk.inj same
    rw [← sameKey, ← sameFlag]
    exact represents.destructors i e' member'
  · have regions : ((t.write sizes setting link).allElems sizes).map (elemRegion sizes) =
        (t.allElems sizes).map (elemRegion sizes) := by
      rw [allElems, allElems, List.map_flatMap, List.map_flatMap]
      exact List.flatMap_congr fun i _ => map_elems_write (fun _ => rfl) link i
    rw [IsCarved, pieces, regions]
    exact represents.carved

/-- **An element is allocated from memory that is not in use.** -/
theorem carved_allocElem {pieces : List Region} {size address : ℕ} {allocated : Option ℕ}
    (carved : Carved (t.usedMem.map Block.region) t.extra pieces) (positive : 0 < size)
    (allocates : t.Allocates sizes size allocated)
    (done : t.allocElem sizes size allocated = some (address, t')) :
    t'.elems = t.elems ∧ t'.lock = t.lock ∧ t'.address = t.address ∧
      ∃ blocks, t'.usedMem = blocks ++ t.usedMem ∧
        Carved (t'.usedMem.map Block.region) t'.extra
          (⟨address, size⟩ :: blocks.map (headerRegion sizes) ++ pieces) := by
  rw [allocElem] at done
  split at done
  next fits =>
    cases done
    exact ⟨rfl, rfl, rfl, [], rfl, carved.take positive fits⟩
  next =>
    obtain ⟨start, asked, result⟩ := Option.map_eq_some_iff.mp done
    have fresh : ∀ b ∈ t.usedMem.map Block.region,
        b.Apart ⟨start, requested sizes size⟩ := by
      intro b member
      obtain ⟨block, used, rfl⟩ := List.mem_map.mp member
      exact allocates start asked block used
    have header := sizes.memHeader_le
    have desc : sizes.ktableDesc = sizes.memPoolDesc - sizes.memHeader := rfl
    rw [requested] at fresh
    split at result
    next fits =>
      cases result
      rw [if_pos fits] at fresh
      refine ⟨rfl, rfl, rfl, [⟨⟨start, sizes.memPoolDesc⟩, true⟩], rfl, ?_⟩
      refine carved.grow ⟨start, sizes.memPoolDesc⟩ fresh ?_
      change sizes.memHeader + size + (sizes.ktableDesc - size) ≤ sizes.memPoolDesc
      omega
    next large =>
      cases result
      rw [if_neg large] at fresh
      exact ⟨rfl, rfl, rfl, [⟨⟨start, size + sizes.memHeader⟩, false⟩], rfl,
        carved.separate ⟨start, size + sizes.memHeader⟩ fresh
          (Nat.le_of_eq (Nat.add_comm ..))⟩

/-- **An added element has the value of its key.** -/
theorem Represents.add (represents : Represents sizes destructor t current) {link : ℕ}
    {allocated : Option ℕ} (allocates : t.Allocates sizes sizes.ktelemSize allocated)
    (last : link = (t.chain sizes setting.keyId).length)
    (absent : setting.keyId ∉ (t.chain sizes setting.keyId).map Elem.keyId)
    (added : t.add sizes destructor setting link allocated = some t') :
    Represents sizes destructor t' (Function.update current setting.keyId setting.value) ∧
      t'.lock = t.lock ∧
        ∀ k, (t.chain sizes k).map Elem.keyId <+: (t'.chain sizes k).map Elem.keyId := by
  obtain ⟨⟨address, bigger⟩, done, result⟩ := Option.map_eq_some_iff.mp added
  obtain ⟨elems, lock, same, blocks, usedMem, carved⟩ :=
    carved_allocElem represents.carved sizes.ktelemSize_pos allocates done
  have chains : ∀ k, bigger.chain sizes k = t.chain sizes k := fun k => by
    rw [chain, elems, chain]
  let elem : Elem V := ⟨address, destructor setting.keyId, setting.keyId, setting.value⟩
  have new : t' = bigger.setChain sizes setting.keyId (t.chain sizes setting.keyId ++ [elem]) := by
    rw [← result]
    change bigger.setChain sizes setting.keyId
      ((bigger.chain sizes setting.keyId).take link ++ [elem]) = _
    rw [chains, last, List.take_length]
  have at' : ∀ i, t'.elems i = if i = getIdx sizes.keyTable setting.keyId then
      t.chain sizes setting.keyId ++ [elem] else t.elems i := fun i => by
    rw [new, elems_setChain, elems]
  refine ⟨⟨fun i e member => ?_, fun i => ?_, fun k => ?_, fun i e member => ?_, ?_⟩, ?_,
    fun k => ?_⟩
  · rw [at' i] at member
    split at member
    next here =>
      rcases List.mem_append.mp member with earlier | added
      · rw [here]
        exact represents.placed _ e earlier
      · obtain rfl := List.mem_singleton.mp added
        exact here.symm
    next => exact represents.placed i e member
  · rw [at' i]
    split
    next =>
      rw [List.map_append, List.map_singleton, List.nodup_append_comm]
      exact List.nodup_cons.mpr ⟨absent, represents.distinct _⟩
    next => exact represents.distinct i
  · rw [new, get_setChain setting.value]
    · have before : ∀ k, bigger.get sizes k = current k := fun k => by
        rw [get, chains, ← represents.values k, get]
      rw [funext before]
    · intro k
      rw [chains]
      exact getLoop_append elem absent k
  · rw [at' i] at member
    split at member
    next =>
      rcases List.mem_append.mp member with earlier | added
      · exact represents.destructors _ e earlier
      · obtain rfl := List.mem_singleton.mp added
        rfl
    next => exact represents.destructors i e member
  · have elems' : t'.elems = Function.update t.elems (getIdx sizes.keyTable setting.keyId)
        (t.elems (getIdx sizes.keyTable setting.keyId) ++ [elem]) := by
      funext i
      rw [at' i, Function.update_apply, chain]
    have grows : (t'.allElems sizes).Perm (elem :: t.allElems sizes) := by
      rw [allElems, elems']
      exact flatMap_update_perm List.nodup_range (List.mem_range.mpr (sizes.getIdx_lt _)) t.elems
        elem
    have fields : t'.usedMem = bigger.usedMem ∧ t'.extra = bigger.extra ∧
        t'.address = bigger.address := by
      rw [new]
      exact ⟨rfl, rfl, rfl⟩
    rw [IsCarved, fields.1, fields.2.1]
    refine carved.perm ?_
    rw [pieces, fields.1, fields.2.2, same, usedMem, List.map_append]
    refine ((grows.map (elemRegion sizes)).append_right _).trans (List.Perm.cons _ ?_)
    exact (List.perm_middle.symm.append_left _).trans (List.perm_append_comm_assoc _ _ _)
  · rw [new]
    exact lock
  · change (t.chain sizes k).map Elem.keyId <+:
      (t'.elems (getIdx sizes.keyTable k)).map Elem.keyId
    rw [at']
    split
    next here =>
      rw [chain, chain, here, List.map_append]
      exact List.prefix_append _ _
    next => exact List.prefix_refl _

/-- `ABTI_ktable_set_impl` without a lock keeps a table that represents. -/
theorem Represents.setImpl (represents : Represents sizes destructor t current)
    {allocated : Option ℕ} (allocates : t.Allocates sizes sizes.ktelemSize allocated)
    (set : t.setImpl sizes destructor setting allocated = some t') :
    Represents sizes destructor t' (Function.update current setting.keyId setting.value) ∧
      t'.lock = t.lock ∧
        ∀ k, (t.chain sizes k).map Elem.keyId <+: (t'.chain sizes k).map Elem.keyId := by
  rw [Ktable.setImpl] at set
  rcases search_eq setting.keyId (t.chain sizes setting.keyId) with
    ⟨found, here⟩ | ⟨missing, last, absent⟩
  · split at set
    next link result =>
      cases set
      rw [result] at here
      refine ⟨represents.write here, rfl, fun k => ?_⟩
      have same : ((t.write sizes setting link).elems (getIdx sizes.keyTable k)).map Elem.keyId =
          (t.elems (getIdx sizes.keyTable k)).map Elem.keyId :=
        map_elems_write (fun _ => rfl) link _
      rw [chain, chain, same]
    next link result =>
      rw [result] at found
      cases found
  · split at set
    next link result =>
      rw [result] at missing
      cases missing
    next link result =>
      rw [result] at last
      exact represents.add allocates last absent set

/-- **The destructor of a key is called once for its value, and only then.** -/
theorem Represents.free (represents : Represents sizes destructor t current) :
    ((t.free sizes).map Prod.fst).Nodup ∧ ∀ keyId value,
      (keyId, value) ∈ t.free sizes ↔ destructor keyId = true ∧ current keyId = some value := by
  constructor
  · rw [Ktable.free, List.map_flatMap]
    refine nodup_flatMap_keys sizes.keyTable
      (fun i => (represents.distinct i).sublist (freeLoop_sublist _)) fun i k member => ?_
    obtain ⟨e, here, rfl⟩ := List.mem_map.mp ((freeLoop_sublist _).subset member)
    exact represents.placed i e here
  · intro keyId value
    rw [Ktable.free, List.mem_flatMap, ← represents.values keyId, get]
    have found := @getLoop_eq_some _ keyId _
      (represents.distinct (getIdx sizes.keyTable keyId)) value
    constructor
    · rintro ⟨i, -, called⟩
      obtain ⟨e, member, flag, rfl, has⟩ := mem_freeLoop.mp called
      obtain rfl := represents.placed i e member
      exact ⟨(represents.destructors _ e member).symm.trans flag, found.mpr ⟨e, member, rfl, has⟩⟩
    · rintro ⟨flag, has⟩
      obtain ⟨e, member, rfl, value⟩ := found.mp has
      exact ⟨_, List.mem_range.mpr (sizes.getIdx_lt _),
        mem_freeLoop.mpr ⟨e, member, (represents.destructors _ e member).trans flag, rfl, value⟩⟩

end Tables

end Ktable

/-! ## Assertions -/

namespace State

variable (sizes) in
/-- The keys in the chain of a key. -/
def keys (s : State V) (keyId : ℕ) : List ℕ := (s.table.chain sizes keyId).map Elem.keyId

theorem keys_getElem?_of_some {s : State V} {keyId link : ℕ} {elem : Elem V}
    (found : (s.table.chain sizes keyId)[link]? = some elem) :
    (s.keys sizes keyId)[link]? = some elem.keyId := by
  rw [keys, List.getElem?_map, found, Option.map_some]

end State

/-- The caller that creates the table, and the holder of its lock. -/
structure Owners (ι : Type u) where
  creator : Option ι
  holder : Option ι

/-- The place is between the locking of the pointer and the end of the creation. -/
def Place.Creates : Place V → Prop
  | .create _ | .unlock _ | .install _ => True
  | _ => False

/-- The caller holds the lock of the table at the place. -/
def Place.Holds : Place V → Prop
  | .searchLocked _ _ | .releaseFound _ _ | .add _ _ | .releaseFailed _ | .releaseStored _ => True
  | _ => False

/-- The links in front of the link do not have the key. -/
def Passed (sizes : Sizes) (s : State V) (keyId link : ℕ) : Prop :=
  s.pointer = .table ∧ link ≤ (s.keys sizes keyId).length ∧ keyId ∉ (s.keys sizes keyId).take link

/-- What a caller knows at its place. -/
def PlaceAt (sizes : Sizes) (destructor : ℕ → Bool) (s : State V) : Place V → Prop
  | .install _ =>
      s.table.Represents sizes destructor (fun _ => none) ∧ s.table.lock = false
  | .search setting link | .acquire setting link | .searchLocked setting link =>
      Passed sizes s setting.keyId link
  | .walk keyId link => Passed sizes s keyId link
  | .releaseFound setting link | .write setting link =>
      s.pointer = .table ∧ (s.keys sizes setting.keyId)[link]? = some setting.keyId
  | .add setting link =>
      s.pointer = .table ∧ link = (s.keys sizes setting.keyId).length ∧
        setting.keyId ∉ s.keys sizes setting.keyId
  | .releaseFailed _ | .releaseStored _ => s.pointer = .table
  | _ => True

/-- The assertion of a caller. -/
structure Local (sizes : Sizes) (destructor : ℕ → Bool) (owners : Owners ι) (c : ι) (s : State V)
    (place : Place V) : Prop where
  creator : owners.creator = some c ↔ place.Creates
  holder : owners.holder = some c ↔ place.Holds
  known : PlaceAt sizes destructor s place

/-- What is shared agrees with the owners, and the table with the values of the keys. -/
structure Global (sizes : Sizes) (destructor : ℕ → Bool) (owners : Owners ι) (s : State V) :
    Prop where
  locked : s.pointer = .locked ↔ owners.creator ≠ none
  free : s.pointer ≠ .table → owners.holder = none
  lock : s.pointer = .table → s.table.lock = owners.holder.isSome
  represents : s.pointer = .table → s.table.Represents sizes destructor s.current
  blank : s.pointer ≠ .table → ∀ keyId, s.current keyId = none

/-- What a turn of another caller leaves to a caller. -/
structure Keeps (sizes : Sizes) (owners owners' : Owners ι) (s s' : State V) (d : ι) : Prop where
  creator : owners'.creator = some d ↔ owners.creator = some d
  holder : owners'.holder = some d ↔ owners.holder = some d
  pointer : s.pointer = .table → s'.pointer = .table
  keys : s.pointer = .table → ∀ k, s.keys sizes k <+: s'.keys sizes k
  held : owners.holder = some d → ∀ k, s'.keys sizes k = s.keys sizes k
  table : owners.creator = some d → s'.table = s.table

section Turn

variable {owners owners' : Owners ι} {c d : ι} {s s' : State V} {place place' : Place V}

/-- At the first link nothing is passed. -/
theorem Passed.start {keyId : ℕ} (installed : s.pointer = .table) : Passed sizes s keyId 0 := by
  refine ⟨installed, Nat.zero_le _, ?_⟩
  rw [List.take_zero]
  exact List.not_mem_nil

theorem Passed.mono {keyId link : ℕ} (passed : Passed sizes s keyId link)
    (pointer : s'.pointer = .table) (grows : s.keys sizes keyId <+: s'.keys sizes keyId) :
    Passed sizes s' keyId link := by
  obtain ⟨-, within, absent⟩ := passed
  obtain ⟨more, same⟩ := grows
  refine ⟨pointer, ?_, ?_⟩
  · rw [← same, List.length_append]
    exact within.trans (Nat.le_add_right _ _)
  · rwa [← same, List.take_append_of_le_length within]

/-- A link with another key is passed. -/
theorem Passed.next {keyId link key : ℕ} (passed : Passed sizes s keyId link)
    (found : (s.keys sizes keyId)[link]? = some key) (other : key ≠ keyId) :
    Passed sizes s keyId (link + 1) := by
  obtain ⟨here, -, absent⟩ := passed
  refine ⟨here, (List.getElem?_eq_some_iff.mp found).1, ?_⟩
  rw [List.take_add_one, found]
  simpa using ⟨absent, other.symm⟩

/-- A caller that has passed the whole chain knows that the key is not there. -/
theorem Passed.last {keyId link : ℕ} (passed : Passed sizes s keyId link)
    (missing : (s.table.chain sizes keyId)[link]? = none) :
    link = (s.keys sizes keyId).length ∧ keyId ∉ s.keys sizes keyId := by
  obtain ⟨-, within, absent⟩ := passed
  have last : link = (s.keys sizes keyId).length :=
    le_antisymm within (by simpa [State.keys] using missing)
  refine ⟨last, ?_⟩
  rwa [last, List.take_length] at absent

theorem Local.mono (keeps : Keeps sizes owners owners' s s' d)
    (holds : Local sizes destructor owners d s place) :
    Local sizes destructor owners' d s' place where
  creator := keeps.creator.trans holds.creator
  holder := keeps.holder.trans holds.holder
  known := by
    have known := holds.known
    cases place with
    | install setting =>
        rw [PlaceAt, keeps.table (holds.creator.mpr trivial)]
        exact known
    | search setting link | acquire setting link | searchLocked setting link | walk keyId link =>
        exact Passed.mono known (keeps.pointer known.1) (keeps.keys known.1 _)
    | releaseFound setting link | write setting link =>
        obtain ⟨here, found⟩ := known
        obtain ⟨more, same⟩ := keeps.keys here setting.keyId
        refine ⟨keeps.pointer here, ?_⟩
        rwa [← same, List.getElem?_append_left (List.getElem?_eq_some_iff.mp found).1]
    | add setting link =>
        obtain ⟨here, last, absent⟩ := known
        have same := keeps.held (holds.holder.mpr trivial) setting.keyId
        exact ⟨keeps.pointer here, by rwa [same], by rwa [same]⟩
    | releaseFailed setting | releaseStored setting => exact keeps.pointer known
    | _ => trivial

theorem Keeps.refl : Keeps sizes owners owners s s d :=
  ⟨.rfl, .rfl, id, fun _ _ => List.prefix_refl _, fun _ _ => rfl, fun _ => rfl⟩

/-- What a turn has to establish. -/
def Fine (sizes : Sizes) (destructor : ℕ → Bool) (owners : Owners ι) (c : ι) (s s' : State V)
    (place' : Place V) : Prop :=
  ∃ owners', Global sizes destructor owners' s' ∧ Local sizes destructor owners' c s' place' ∧
    ∀ d, d ≠ c → Keeps sizes owners owners' s s' d

/-- A turn that changes nothing that is shared. -/
theorem Local.still (holds : Local sizes destructor owners c s place)
    (fine : Global sizes destructor owners s) (creates : place'.Creates ↔ place.Creates)
    (held : place'.Holds ↔ place.Holds) (known : PlaceAt sizes destructor s place') :
    Fine sizes destructor owners c s s place' :=
  ⟨owners, fine, ⟨holds.creator.trans creates.symm, holds.holder.trans held.symm, known⟩,
    fun _ _ => .refl⟩

/-- The pointer changes before a table is in use. -/
theorem Local.pointTo (holds : Local sizes destructor owners c s place)
    (fine : Global sizes destructor owners s) (notYet : s.pointer ≠ .table) {pointer : Pointer}
    (creator : Option ι) (locked : pointer = .locked ↔ creator ≠ none)
    (mine : creator = some c ↔ place'.Creates)
    (others : ∀ d, d ≠ c → (creator = some d ↔ owners.creator = some d))
    (ready : pointer = .table →
      s.table.Represents sizes destructor (fun _ => none) ∧ s.table.lock = false)
    (held : place'.Holds ↔ place.Holds)
    (known : PlaceAt sizes destructor { s with pointer := pointer } place') :
    Fine sizes destructor owners c s { s with pointer := pointer } place' := by
  have holder := fine.free notYet
  have blank : s.current = fun _ => none := funext (fine.blank notYet)
  refine ⟨{ owners with creator := creator }, ⟨locked, fun _ => holder, fun installed => ?_,
      fun installed => ?_, fun _ => fine.blank notYet⟩,
    ⟨mine, holds.holder.trans held.symm, known⟩, fun d different => ⟨others d different, .rfl,
      fun installed => absurd installed notYet, fun installed => absurd installed notYet,
      fun _ _ => rfl, fun _ => rfl⟩⟩
  · change s.table.lock = owners.holder.isSome
    rw [(ready installed).2, holder]
    rfl
  · change s.table.Represents sizes destructor s.current
    rw [blank]
    exact (ready installed).1

/-- The lock of the table changes hands. -/
theorem Local.hand (holds : Local sizes destructor owners c s place)
    (fine : Global sizes destructor owners s) (installed : s.pointer = .table) (holder : Option ι)
    (others : ∀ d, d ≠ c → (holder = some d ↔ owners.holder = some d))
    (mine : holder = some c ↔ place'.Holds) (creates : place'.Creates ↔ place.Creates)
    (known : PlaceAt sizes destructor (s.setLock holder.isSome) place') :
    Fine sizes destructor owners c s (s.setLock holder.isSome) place' := by
  have represents := fine.represents installed
  exact ⟨{ owners with holder := holder }, ⟨fine.locked, fun notYet => absurd installed notYet,
      fun _ => rfl, fun _ => ⟨represents.placed, represents.distinct, represents.values,
        represents.destructors, represents.carved⟩, fun notYet => absurd installed notYet⟩,
    ⟨holds.creator.trans creates.symm, mine, known⟩, fun d different => ⟨.rfl, others d different,
      id, fun _ _ => List.prefix_refl _, fun _ _ => rfl, fun creating => by
        have locked := fine.locked.mpr (by simp [creating])
        rw [installed] at locked
        cases locked⟩⟩

/-- The holder of the lock releases it. -/
theorem Local.release (holds : Local sizes destructor owners c s place)
    (fine : Global sizes destructor owners s) (installed : s.pointer = .table)
    (held : place.Holds) (after : ¬place'.Holds) (creates : place'.Creates ↔ place.Creates)
    (known : PlaceAt sizes destructor (s.setLock false) place') :
    Fine sizes destructor owners c s (s.setLock false) place' := by
  have mine := holds.holder.mpr held
  exact holds.hand fine installed none
    (fun d different => by simp [mine, different.symm]) (iff_of_false nofun after) creates known

/-- A setting becomes the last one of its key. -/
theorem Local.record (holds : Local sizes destructor owners c s place)
    (fine : Global sizes destructor owners s) (installed : s.pointer = .table)
    {setting : Setting V} {table : Ktable V}
    (represents : table.Represents sizes destructor
      (Function.update s.current setting.keyId setting.value))
    (lock : table.lock = s.table.lock)
    (grows : ∀ k, s.keys sizes k <+: (table.chain sizes k).map Elem.keyId)
    (held : ∀ d, d ≠ c → owners.holder = some d →
      ∀ k, (table.chain sizes k).map Elem.keyId = s.keys sizes k)
    (creates : place'.Creates ↔ place.Creates) (holder : place'.Holds ↔ place.Holds)
    (known : PlaceAt sizes destructor (s.record setting table) place') :
    Fine sizes destructor owners c s (s.record setting table) place' :=
  ⟨owners, ⟨fine.locked, fine.free, fun _ => lock.trans (fine.lock installed), fun _ => represents,
      fun notYet => absurd installed notYet⟩,
    ⟨holds.creator.trans creates.symm, holds.holder.trans holder.symm, known⟩,
    fun d different => ⟨.rfl, .rfl, id, fun _ => grows, held d different, fun creating => by
      have locked := fine.locked.mpr (by simp [creating])
      rw [installed] at locked
      cases locked⟩⟩

/-- While a caller creates the table the pointer is locked. -/
theorem Local.creating (holds : Local sizes destructor owners c s place)
    (fine : Global sizes destructor owners s) (creates : place.Creates) :
    owners.creator = some c ∧ s.pointer = .locked := by
  have creating := holds.creator.mpr creates
  exact ⟨creating, fine.locked.mpr (by simp [creating])⟩

/-- A set without a lock, which nobody disturbs. -/
theorem Local.setUnsafe (holds : Local sizes destructor owners c s .outside)
    (fine : Global sizes destructor owners s) (nobody : owners = ⟨none, none⟩)
    {setting : Setting V} {tableMem elemMem : Option ℕ} {success : Bool}
    (set : s.setUnsafe sizes destructor setting tableMem elemMem = some (s', success)) :
    Fine sizes destructor owners c s s'
      (if success then .stored setting else .failed setting) := by
  subst nobody
  have quiet : ∀ place : Place V, place = .stored setting ∨ place = .failed setting →
      Local sizes destructor (⟨none, none⟩ : Owners ι) c s' place := by
    rintro place (rfl | rfl) <;> exact ⟨iff_of_false nofun id, iff_of_false nofun id, trivial⟩
  have place : Local sizes destructor (⟨none, none⟩ : Owners ι) c s'
      (if success then .stored setting else .failed setting) := by
    cases success <;> exact quiet _ (by simp)
  -- the set from a table that represents the values
  have main : ∀ t : State V, t.pointer = .table → t.table.lock = false →
      t.table.Represents sizes destructor t.current →
      t.setImpl sizes destructor setting elemMem = some (s', success) →
      Global sizes destructor (⟨none, none⟩ : Owners ι) s' ∧
        ∀ k, t.keys sizes k <+: s'.keys sizes k := by
    intro t installed unlocked represents done
    obtain ⟨allocates, done⟩ := Option.ite_none_right_eq_some.mp done
    split at done
    next =>
      cases done
      exact ⟨⟨iff_of_false (by simp [installed]) (by simp), fun _ => rfl, fun _ => unlocked,
        fun _ => represents, fun notYet => absurd installed notYet⟩, fun _ => List.prefix_refl _⟩
    next table result =>
      cases done
      obtain ⟨represents, lock, grows⟩ := represents.setImpl allocates result
      exact ⟨⟨iff_of_false (by simp [State.record, installed]) (by simp), fun _ => rfl,
        fun _ => lock.trans unlocked, fun _ => represents,
        fun notYet => absurd installed notYet⟩, grows⟩
  unfold State.setUnsafe at set
  split at set
  next installed =>
    obtain ⟨fine', grows⟩ := main s installed (fine.lock installed) (fine.represents installed) set
    have still : s'.pointer = .table := by
      obtain ⟨-, done⟩ := Option.ite_none_right_eq_some.mp set
      split at done <;> cases done <;> exact installed
    exact ⟨⟨none, none⟩, fine', place, fun d _ => ⟨.rfl, .rfl, fun _ => still, fun _ => grows,
      nofun, nofun⟩⟩
  next notYet =>
    have blank : s.current = fun _ => none := funext (fine.blank notYet)
    split at set
    next =>
      cases set
      exact ⟨⟨none, none⟩, fine, place, fun _ _ => .refl⟩
    next address =>
      obtain ⟨fine', -⟩ := main
        { s with pointer := .table, table := Ktable.create sizes address } rfl
        (Ktable.lock_create address) (by rw [blank]; exact Ktable.represents_create address) set
      exact ⟨⟨none, none⟩, fine', place, fun d _ => ⟨.rfl, .rfl,
        fun installed => absurd installed notYet, fun installed => absurd installed notYet, nofun,
        nofun⟩⟩

/-- An element of the key is found, or the walk goes on. -/
theorem Passed.found {keyId link : ℕ} {elem : Elem V} (passed : Passed sizes s keyId link)
    (found : (s.table.chain sizes keyId)[link]? = some elem) :
    (elem.keyId = keyId → (s.keys sizes keyId)[link]? = some keyId) ∧
      (elem.keyId ≠ keyId → Passed sizes s keyId (link + 1)) := by
  have key := State.keys_getElem?_of_some found
  exact ⟨fun same => same ▸ key, fun other => passed.next key other⟩

/-- **Every turn keeps the assertions.** -/
theorem Local.turn (holds : Local sizes destructor owners c s place)
    (fine : Global sizes destructor owners s) {choice : Choice V}
    (exclusive : choice.operation.isUnsafe = true → owners = ⟨none, none⟩)
    (taken : turn sizes destructor choice s place = some (s', place')) :
    Fine sizes destructor owners c s s' place' := by
  have known := holds.known
  cases place with
  | outside =>
      obtain ⟨operation, succeeds, tableMem, elemMem⟩ := choice
      cases operation with
      | set setting =>
          cases taken
          split
          next installed =>
            exact holds.still fine .rfl .rfl (.start installed)
          next => exact holds.still fine .rfl .rfl trivial
      | setUnsafe setting =>
          obtain ⟨⟨t, success⟩, set, result⟩ := Option.map_eq_some_iff.mp taken
          cases result
          exact holds.setUnsafe fine (exclusive rfl) set
      | get keyId =>
          cases taken
          split
          next installed =>
            exact holds.still fine .rfl .rfl (.start installed)
          next => exact holds.still fine .rfl .rfl trivial
  | cas setting =>
      rw [KeyValues.turn] at taken
      split at taken
      next free =>
        cases taken
        have notYet : s.pointer ≠ .table := by simp [free.1]
        have noCreator : owners.creator = none := by
          by_contra creator
          have locked := fine.locked.mpr creator
          simp [free.1] at locked
        exact holds.pointTo fine notYet (some c) (by simp) (iff_of_true rfl trivial)
          (fun d different => by simp [noCreator, different.symm]) nofun .rfl trivial
      next =>
        cases taken
        exact holds.still fine .rfl .rfl trivial
  | create setting =>
      rw [KeyValues.turn] at taken
      obtain ⟨creating, locked⟩ := holds.creating fine trivial
      have notYet : s.pointer ≠ .table := by simp [locked]
      split at taken
      next =>
        cases taken
        exact holds.still fine .rfl .rfl trivial
      next address _ =>
        cases taken
        exact ⟨owners, ⟨fine.locked, fine.free, fun installed => absurd installed notYet,
            fun installed => absurd installed notYet, fine.blank⟩,
          ⟨holds.creator, holds.holder, Ktable.represents_create address,
            Ktable.lock_create address⟩,
          fun d different => ⟨.rfl, .rfl, id, fun installed => absurd installed notYet,
            fun holder => by simp [fine.free notYet] at holder,
            fun theirs => absurd (Option.some.inj (theirs.symm.trans creating)) different⟩⟩
  | unlock setting =>
      cases taken
      obtain ⟨creating, locked⟩ := holds.creating fine trivial
      exact holds.pointTo fine (by simp [locked]) none (by simp) (iff_of_false nofun id)
        (fun d different => by simp [creating, different.symm]) nofun .rfl trivial
  | install setting =>
      cases taken
      obtain ⟨creating, locked⟩ := holds.creating fine trivial
      exact holds.pointTo fine (by simp [locked]) none (by simp) (iff_of_false nofun id)
        (fun d different => by simp [creating, different.symm]) (fun _ => known) .rfl
        (.start rfl)
  | reload setting | spin setting =>
      rw [KeyValues.turn] at taken
      split at taken
      next =>
        cases taken
        exact holds.still fine .rfl .rfl trivial
      next =>
        cases taken
        exact holds.still fine .rfl .rfl trivial
      next installed =>
        cases taken
        exact holds.still fine .rfl .rfl (.start installed)
  | setNull setting => cases taken
  | search setting link =>
      rw [KeyValues.turn] at taken
      have passed : Passed sizes s setting.keyId link := known
      split at taken
      next =>
        cases taken
        exact holds.still fine .rfl .rfl passed
      next elem found =>
        split at taken
        next same =>
          cases taken
          exact holds.still fine .rfl .rfl ⟨passed.1, (passed.found found).1 same⟩
        next other =>
          cases taken
          exact holds.still fine .rfl .rfl ((passed.found found).2 other)
  | acquire setting link =>
      obtain ⟨unlocked, taken⟩ := Option.ite_none_left_eq_some.mp taken
      cases taken
      have installed : s.pointer = .table := known.1
      have nobody : owners.holder = none := by
        simpa [fine.lock installed] using unlocked
      exact holds.hand fine installed (some c)
        (fun d different => by simp [nobody, different.symm]) (iff_of_true rfl trivial) .rfl known
  | searchLocked setting link =>
      rw [KeyValues.turn] at taken
      have passed : Passed sizes s setting.keyId link := known
      split at taken
      next missing =>
        cases taken
        exact holds.still fine .rfl .rfl ⟨passed.1, passed.last missing⟩
      next elem found =>
        split at taken
        next same =>
          cases taken
          exact holds.still fine .rfl .rfl ⟨passed.1, (passed.found found).1 same⟩
        next other =>
          cases taken
          exact holds.still fine .rfl .rfl ((passed.found found).2 other)
  | releaseFound setting link =>
      cases taken
      exact holds.release fine known.1 trivial id .rfl known
  | write setting link =>
      cases taken
      obtain ⟨installed, here⟩ := known
      have keys : ∀ k, ((s.table.write sizes setting link).chain sizes k).map Elem.keyId =
          s.keys sizes k := fun k => Ktable.map_elems_write (fun _ => rfl) link _
      exact holds.record fine installed ((fine.represents installed).write here) rfl
        (fun k => keys k ▸ List.prefix_refl _) (fun _ _ _ => keys) .rfl .rfl trivial
  | add setting link =>
      obtain ⟨allocates, taken⟩ := Option.ite_none_right_eq_some.mp taken
      obtain ⟨installed, last, absent⟩ := known
      split at taken
      next =>
        cases taken
        exact holds.still fine .rfl .rfl installed
      next table added =>
        cases taken
        have mine := holds.holder.mpr trivial
        obtain ⟨represents, lock, grows⟩ := (fine.represents installed).add allocates
          (by simpa [State.keys] using last) absent added
        exact holds.record fine installed represents lock grows
          (fun d different theirs =>
            absurd (Option.some.inj (theirs.symm.trans mine)) different) .rfl .rfl installed
  | releaseFailed setting | releaseStored setting =>
      cases taken
      exact holds.release fine known trivial id .rfl trivial
  | failed setting | stored setting | got keyId value =>
      cases taken
      exact holds.still fine .rfl .rfl trivial
  | walk keyId link =>
      rw [KeyValues.turn] at taken
      have passed : Passed sizes s keyId link := known
      split at taken
      next =>
        cases taken
        exact holds.still fine .rfl .rfl trivial
      next elem found =>
        split at taken
        next =>
          cases taken
          exact holds.still fine .rfl .rfl trivial
        next other =>
          cases taken
          exact holds.still fine .rfl .rfl ((passed.found found).2 other)

end Turn

/-! ## Runs -/

section Runs

variable [DecidableEq ι]

theorem Local.of_reachable {world : World ι (State V) (Place V)}
    (reachable : ((calls ι sizes destructor).machine Begins).Reachable Exclusive world) :
    ∃ owners, Global sizes destructor owners world.shared ∧
      ∀ c, Local sizes destructor owners c world.shared (world.place c) := by
  refine Callers.invariant (Global sizes destructor) (Local sizes destructor) ?_ ?_ reachable
  · rintro world ⟨null, current, outside⟩
    refine ⟨⟨none, none⟩, ⟨by simp [null], fun _ => rfl, by simp [null], by simp [null],
      fun _ => current⟩, fun c => ?_⟩
    rw [outside c]
    exact ⟨iff_of_false nofun id, iff_of_false nofun id, trivial⟩
  · intro owners world c choice shared place exclusive fine locals taken
    have nobody : choice.operation.isUnsafe = true → owners = ⟨none, none⟩ := by
      intro isUnsafe
      have outside := exclusive isUnsafe
      obtain ⟨creator, holder⟩ := owners
      have noCreator : creator = none := by
        refine Option.eq_none_iff_forall_ne_some.mpr fun d creates => ?_
        have inside := (locals d).creator.mp creates
        rw [outside d] at inside
        exact inside
      have noHolder : holder = none := by
        refine Option.eq_none_iff_forall_ne_some.mpr fun d holds => ?_
        have inside := (locals d).holder.mp holds
        rw [outside d] at inside
        exact inside
      rw [noCreator, noHolder]
    obtain ⟨owners', fine', mine, others⟩ := (locals c).turn fine nobody taken
    exact ⟨owners', fine', mine, fun d different _ holds => holds.mono (others d different)⟩

omit [DecidableEq ι] in
theorem Global.get {owners : Owners ι} {s : State V} (fine : Global sizes destructor owners s)
    (keyId : ℕ) : s.get sizes keyId = s.current keyId := by
  rw [State.get]
  split
  next installed => exact (fine.represents installed).values keyId
  next notYet => exact (fine.blank notYet keyId).symm

omit [DecidableEq ι] in
/-- What a get returns is the value of the key when it returns. -/
theorem Local.got {owners : Owners ι} {c : ι} {s s' : State V} {place : Place V} {keyId : ℕ}
    {choice : Choice V} {value : Option V} (holds : Local sizes destructor owners c s place)
    (fine : Global sizes destructor owners s)
    (taken : KeyValues.turn sizes destructor choice s place = some (s', .got keyId value)) :
    value = s.current keyId := by
  have known := holds.known
  cases place with
  | outside =>
      obtain ⟨operation, succeeds, tableMem, elemMem⟩ := choice
      cases operation with
      | set setting =>
          obtain ⟨-, place⟩ := Prod.mk.inj (Option.some.inj taken)
          split at place <;> cases place
      | setUnsafe setting =>
          obtain ⟨result, -, same⟩ := Option.map_eq_some_iff.mp taken
          obtain ⟨-, place⟩ := Prod.mk.inj same
          split at place <;> cases place
      | get other =>
          obtain ⟨-, place⟩ := Prod.mk.inj (Option.some.inj taken)
          split at place
          next => cases place
          next notYet =>
            obtain ⟨rfl, rfl⟩ := Place.got.inj place
            exact (fine.blank notYet _).symm
  | walk other link =>
      have passed : Passed sizes s other link := known
      have represents := fine.represents passed.1
      rw [KeyValues.turn] at taken
      split at taken
      next missing =>
        cases taken
        have absent := (passed.last missing).2
        rw [← represents.values, Ktable.get, Ktable.getLoop_eq_lookup, lookup_of_notMem]
        · rfl
        · rwa [Ktable.pairs_fst]
      next elem found =>
        split at taken
        next same =>
          cases taken
          rw [← represents.values, Ktable.get]
          exact (Ktable.getLoop_of_mem (represents.distinct _) (List.mem_of_getElem? found)
            same).symm
        next => cases taken
  | cas | create | reload | spin =>
      rw [KeyValues.turn] at taken
      split at taken <;> cases taken
  | search | searchLocked =>
      rw [KeyValues.turn] at taken
      split at taken
      next => cases taken
      next => split at taken <;> cases taken
  | acquire =>
      obtain ⟨-, taken⟩ := Option.ite_none_left_eq_some.mp taken
      cases taken
  | add =>
      obtain ⟨-, taken⟩ := Option.ite_none_right_eq_some.mp taken
      split at taken <;> cases taken
  | unlock | install | setNull | releaseFound | write | releaseFailed | releaseStored | failed
  | stored | got => cases taken

section Calls

variable {s s' : State V} {place place' : Place V} {choice : Choice V}

/-- A set is about to report success. -/
def Place.Stores (setting : Setting V) (place : Place V) : Prop :=
  place = .releaseStored setting ∨ place = .stored setting

end Calls

end Runs

/-- Two callers set values of two keys with one chain. -/
def twoSettings (first second : Fin 2) : List (Fin 2 × Choice ℕ) :=
  List.replicate 5 (first, ⟨.set ⟨2, some 7⟩, true, some 1000, some 2000⟩) ++
    List.replicate 2 (second, ⟨.set ⟨4, some 9⟩, true, none, none⟩) ++
    List.replicate 5 (first, ⟨.set ⟨2, some 7⟩, true, none, some 2000⟩) ++
    List.replicate 5 (second, ⟨.set ⟨4, some 9⟩, true, none, none⟩)

end ArgobotsReduction.Threads.KeyValues
