import Mathlib.Data.Fintype.Basic
import Mathlib.Data.List.Basic
import ArgobotsReduction.Threads.KeyTable

/-!
# Runs of the key table creation

A caller that spins on a locked pointer takes whatever it finds next for a table.
When the creator could not allocate the table it has put the pointer back to NULL,
and the caller goes on with that (`not_keytable_safe`).

In the runs in which no spinning caller finds NULL the creation is safe
(`keytable_safe`).  The invariant gives every caller an assertion at its place
(`PlaceAt`), and names the caller that creates a table and the holders of the
locks of the tables (`Owners`).
-/

set_option autoImplicit false

namespace ArgobotsReduction.Threads.KeyTable

open Parallel

universe u v

variable {ι : Type u} {V : Type v}

/-! ## Chains and their keys -/

namespace Keytables

variable {size table keyId : ℕ} {s : Keytables V} {elems : List (Elem V)}

/-- The keys in a chain. -/
def keys (s : Keytables V) (size table keyId : ℕ) : List ℕ :=
  (s.chain size table keyId).map Elem.keyId

theorem chain_setChain (s : Keytables V) (elems : List (Elem V)) (t k : ℕ) :
    (s.setChain size table keyId elems).chain size t k =
      if t = table ∧ getIdx size k = getIdx size keyId then elems else s.chain size t k := by
  simp only [chain, setChain, Function.update_apply]
  by_cases here : t = table
  · subst here
    by_cases same : getIdx size k = getIdx size keyId <;> simp [same]
  · simp [here]

@[simp]
theorem chain_setLock (lock : Bool) (t k : ℕ) :
    (s.setLock table lock).chain size t k = s.chain size t k := by
  simp only [chain, setLock, Function.update_apply]
  split <;> simp_all

theorem lock_setLock (lock : Bool) (t : ℕ) :
    ((s.setLock table lock).tables t).lock = if t = table then lock else (s.tables t).lock := by
  simp only [setLock, Function.update_apply]
  split <;> rfl

@[simp]
theorem lock_setChain (t : ℕ) :
    ((s.setChain size table keyId elems).tables t).lock = (s.tables t).lock := by
  simp only [setChain, Function.update_apply]
  split <;> simp_all

@[simp]
theorem keys_setLock (lock : Bool) (t k : ℕ) :
    (s.setLock table lock).keys size t k = s.keys size t k := by
  rw [keys, chain_setLock, keys]

@[simp]
theorem pointer_setLock (lock : Bool) : (s.setLock table lock).pointer = s.pointer := rfl

theorem keys_setChain (s : Keytables V) (elems : List (Elem V)) (t k : ℕ) :
    (s.setChain size table keyId elems).keys size t k =
      if t = table ∧ getIdx size k = getIdx size keyId then elems.map Elem.keyId
      else s.keys size t k := by
  rw [keys, chain_setChain]
  split_ifs <;> rfl

theorem keys_congr {t k : ℕ} (same : t = table ∧ getIdx size k = getIdx size keyId) :
    s.keys size t k = s.keys size table keyId := by
  rw [keys, keys, chain, chain, same.1, same.2]

/-- A write of a value keeps the keys. -/
theorem keys_modify (s : Keytables V) (link : ℕ) (value : V) (t k : ℕ) :
    (s.setChain size table keyId ((s.chain size table keyId).modify link fun elem =>
      { elem with value := value })).keys size t k = s.keys size t k := by
  rw [keys_setChain]
  split_ifs with same
  · rw [keys_congr same, keys]
    refine List.ext_getElem? fun i => ?_
    rw [List.getElem?_map, List.getElem?_map, List.getElem?_modify]
    cases (s.chain size table keyId)[i]? with
    | none => rfl
    | some elem =>
        simp only [Option.map_eq_map, Option.map_some]
        split <;> rfl
  · rfl

theorem keys_getElem?_of_some {link : ℕ} {elem : Elem V}
    (found : (s.chain size table keyId)[link]? = some elem) :
    (s.keys size table keyId)[link]? = some elem.keyId := by
  rw [keys, List.getElem?_map, found, Option.map_some]

/-- The new element is the first one with its key. -/
theorem get_append {setting : Setting V}
    (absent : setting.keyId ∉ s.keys size table setting.keyId) :
    (s.setChain size table setting.keyId
      (s.chain size table setting.keyId ++ [⟨setting.keyId, setting.value⟩])).get size table
        setting.keyId = some setting.value := by
  have none : (s.chain size table setting.keyId).find? (fun elem => elem.keyId == setting.keyId) =
      none := by
    rw [List.find?_eq_none]
    intro elem member same
    exact absent (List.mem_map.mpr ⟨elem, member, by simpa using same⟩)
  rw [get, chain_setChain, if_pos ⟨rfl, rfl⟩, List.find?_append, none]
  simp

/-- The element that is written is the first one with its key. -/
theorem get_modify {setting : Setting V} {link : ℕ}
    (before : setting.keyId ∉ (s.keys size table setting.keyId).take link)
    (here : (s.keys size table setting.keyId)[link]? = some setting.keyId) :
    (s.setChain size table setting.keyId
      ((s.chain size table setting.keyId).modify link fun elem =>
        { elem with value := setting.value })).get size table setting.keyId =
      some setting.value := by
  have within : link < (s.chain size table setting.keyId).length := by
    simpa [keys] using (List.getElem?_eq_some_iff.mp here).1
  obtain ⟨first, elem, rest, split, length, modified⟩ := List.exists_of_modify
    (fun elem : Elem V => { elem with value := setting.value }) within
  rw [keys, split, ← length] at before here
  have none : first.find? (fun elem => elem.keyId == setting.keyId) = none := by
    rw [List.find?_eq_none]
    intro other member same
    refine before ?_
    rw [List.map_append, List.take_append_of_le_length (by simp), List.take_of_length_le (by simp)]
    exact List.mem_map.mpr ⟨other, member, by simpa using same⟩
  have key : elem.keyId = setting.keyId := by simpa using here
  rw [get, chain_setChain, if_pos ⟨rfl, rfl⟩, modified, List.find?_append, none]
  simp [key]

end Keytables

/-! ## Assertions -/

/-- The caller that creates a table, and the holders of the locks of the tables. -/
structure Owners (ι : Type u) where
  creator : Option ι
  holder : ℕ → Option ι

/-- The place is between the locking of the pointer and the end of the creation. -/
def Place.Creates : Place → Prop
  | .create | .unlock | .install _ => True
  | _ => False

/-- The caller holds the lock of the table at the place. -/
def Place.Holds (t : ℕ) : Place → Prop
  | .searchLocked table _ | .releaseFound table _ | .alloc table _ | .append table _
  | .releaseFailed table | .releaseStored table => table = t
  | _ => False

/-- What a caller knows at its place. -/
def PlaceAt (size keyId : ℕ) (s : Keytables V) : Place → Prop
  | .setImpl pointer => ∃ table, pointer = .table table ∧ s.pointer = .table table
  | .search table link | .acquire table link | .searchLocked table link =>
      s.pointer = .table table ∧ link ≤ (s.keys size table keyId).length ∧
        keyId ∉ (s.keys size table keyId).take link
  | .releaseFound table link | .write table link =>
      s.pointer = .table table ∧ (s.keys size table keyId)[link]? = some keyId ∧
        keyId ∉ (s.keys size table keyId).take link
  | .alloc table link | .append table link =>
      s.pointer = .table table ∧ link = (s.keys size table keyId).length ∧
        keyId ∉ s.keys size table keyId
  | .releaseStored table => s.pointer = .table table
  | .install table => table < s.created
  | _ => True

/-- The assertion of a caller. -/
structure Local (size : ℕ) (settings : ι → Setting V) (owners : Owners ι) (c : ι)
    (s : Keytables V) (place : Place) : Prop where
  creator : owners.creator = some c ↔ place.Creates
  holder : ∀ t, owners.holder t = some c ↔ place.Holds t
  known : PlaceAt size (settings c).keyId s place

/-- The number of tables a pointer stands for. -/
def Pointer.installed : Pointer → ℕ
  | .table _ => 1
  | _ => 0

/-- What is shared agrees with the owners. -/
structure Global (owners : Owners ι) (s : Keytables V) : Prop where
  locked : s.pointer = .locked ↔ owners.creator ≠ none
  installs : s.installs = s.pointer.installed
  below : ∀ t, s.pointer = .table t → t < s.created
  fresh : ∀ t, s.created ≤ t → owners.holder t = none
  lock : ∀ t < s.created, (s.tables t).lock = (owners.holder t).isSome

/-- What a turn of another caller leaves to a caller. -/
structure Keeps (size : ℕ) (owners owners' : Owners ι) (s s' : Keytables V) (d : ι) : Prop where
  creator : owners'.creator = some d ↔ owners.creator = some d
  holder : ∀ t, owners'.holder t = some d ↔ owners.holder t = some d
  created : s.created ≤ s'.created
  pointer : ∀ t, s.pointer = .table t → s'.pointer = .table t
  keys : ∀ t, s.pointer = .table t → ∀ k, s.keys size t k <+: s'.keys size t k
  held : ∀ t, s.pointer = .table t → owners.holder t = some d →
    ∀ k, s'.keys size t k = s.keys size t k

theorem Keeps.refl {size : ℕ} {owners : Owners ι} {s : Keytables V} {d : ι} :
    Keeps size owners owners s s d :=
  ⟨.rfl, fun _ => .rfl, le_rfl, fun _ same => same, fun _ _ _ => List.prefix_refl _,
    fun _ _ _ _ => rfl⟩

section Stability

variable {size keyId table link : ℕ} {s s' : Keytables V}

/-- The keys in front of a link stay the same when a chain grows. -/
theorem take_keys_of_grows (grows : s.keys size table keyId <+: s'.keys size table keyId)
    (within : link ≤ (s.keys size table keyId).length) :
    (s'.keys size table keyId).take link = (s.keys size table keyId).take link := by
  obtain ⟨more, same⟩ := grows
  rw [← same, List.take_append_of_le_length within]

theorem Local.mono {settings : ι → Setting V} {owners owners' : Owners ι} {d : ι} {place : Place}
    (keeps : Keeps size owners owners' s s' d) (holds : Local size settings owners d s place) :
    Local size settings owners' d s' place where
  creator := keeps.creator.trans holds.creator
  holder t := (keeps.holder t).trans (holds.holder t)
  known := by
    have known := holds.known
    cases place with
    | setImpl pointer =>
        obtain ⟨table, same, here⟩ := known
        exact ⟨table, same, keeps.pointer table here⟩
    | search table link | acquire table link | searchLocked table link =>
        obtain ⟨here, within, absent⟩ := known
        have grows := keeps.keys table here (settings d).keyId
        refine ⟨keeps.pointer table here, within.trans grows.length_le, ?_⟩
        rwa [take_keys_of_grows grows within]
    | releaseFound table link | write table link =>
        obtain ⟨here, found, absent⟩ := known
        have grows := keeps.keys table here (settings d).keyId
        have within := (List.getElem?_eq_some_iff.mp found).1
        refine ⟨keeps.pointer table here, ?_, ?_⟩
        · obtain ⟨more, same⟩ := grows
          rwa [← same, List.getElem?_append_left within]
        · rwa [take_keys_of_grows grows within.le]
    | alloc table link | append table link =>
        obtain ⟨here, last, absent⟩ := known
        have same := keeps.held table here ((holds.holder table).mpr rfl) (settings d).keyId
        exact ⟨keeps.pointer table here, by rwa [same], by rwa [same]⟩
    | releaseStored table => exact keeps.pointer table known
    | install table => exact lt_of_lt_of_le known keeps.created
    | begin | cas | create | unlock | reload | spin | releaseFailed _ | returned _ =>
        trivial

end Stability

/-! ## One turn -/

section Turn

variable {size : ℕ} {settings : ι → Setting V} {owners : Owners ι} {c : ι} {s s' : Keytables V}
  {place place' : Place} {table link : ℕ}

/-- What a turn has to establish. -/
def Fine (size : ℕ) (settings : ι → Setting V) (owners : Owners ι) (c : ι) (s s' : Keytables V)
    (place' : Place) : Prop :=
  ∃ owners', Global owners' s' ∧ Local size settings owners' c s' place' ∧
    ∀ d, d ≠ c → Keeps size owners owners' s s' d

/-- A turn that changes nothing that is shared. -/
theorem Local.still (holds : Local size settings owners c s place) (fine : Global owners s)
    (creates : place'.Creates ↔ place.Creates) (held : ∀ t, place'.Holds t ↔ place.Holds t)
    (known : PlaceAt size (settings c).keyId s place') : Fine size settings owners c s s place' :=
  ⟨owners, fine, ⟨holds.creator.trans creates.symm, fun t => (holds.holder t).trans (held t).symm,
    known⟩, fun _ _ => .refl⟩

/-- The pointer changes hands between the creator and the others. -/
theorem Local.pointTo (holds : Local size settings owners c s place) (fine : Global owners s)
    {pointer : Pointer} (creator : Option ι) {installs : ℕ}
    (locked : pointer = .locked ↔ creator ≠ none)
    (counted : installs = pointer.installed)
    (below : ∀ t, pointer = .table t → t < s.created) (free : ∀ t, s.pointer ≠ .table t)
    (mine : creator = some c ↔ place'.Creates)
    (others : ∀ d, d ≠ c → (creator = some d ↔ owners.creator = some d))
    (held : ∀ t, place'.Holds t ↔ place.Holds t)
    (known : PlaceAt size (settings c).keyId { s with pointer := pointer, installs := installs }
      place') :
    Fine size settings owners c s { s with pointer := pointer, installs := installs } place' :=
  ⟨{ owners with creator := creator }, ⟨locked, counted, below, fine.fresh, fine.lock⟩,
    ⟨mine, fun t => (holds.holder t).trans (held t).symm, known⟩, fun d different =>
      ⟨others d different, fun _ => .rfl, le_rfl, fun t same => absurd same (free t),
        fun t same => absurd same (free t), fun t same => absurd same (free t)⟩⟩

/-- The lock of a table changes hands between its holder and the others. -/
theorem Local.hand (holds : Local size settings owners c s place) (fine : Global owners s)
    (holder : Option ι) (inside : table < s.created)
    (others : ∀ d, d ≠ c → (holder = some d ↔ owners.holder table = some d))
    (mine : holder = some c ↔ place'.Holds table)
    (held : ∀ t, t ≠ table → (place'.Holds t ↔ place.Holds t))
    (creates : place'.Creates ↔ place.Creates)
    (known : PlaceAt size (settings c).keyId (s.setLock table holder.isSome) place') :
    Fine size settings owners c s (s.setLock table holder.isSome) place' := by
  refine ⟨{ owners with holder := Function.update owners.holder table holder },
    ⟨fine.locked, fine.installs, fine.below, fun t above => ?_, fun t below => ?_⟩,
    ⟨holds.creator.trans creates.symm, fun t => ?_, known⟩, fun d different =>
      ⟨.rfl, fun t => ?_, le_rfl, fun t same => same, fun t _ k => ?_, fun t _ _ k => ?_⟩⟩
  · have apart : t ≠ table := fun same => absurd inside (same ▸ Nat.not_lt.mpr above)
    simpa only [Function.update_of_ne apart] using fine.fresh t above
  · rw [Keytables.lock_setLock]
    rcases eq_or_ne t table with rfl | apart
    · simp
    · simpa only [if_neg apart, Function.update_of_ne apart] using fine.lock t below
  · rcases eq_or_ne t table with rfl | apart
    · simpa only [Function.update_self] using mine
    · simpa only [Function.update_of_ne apart] using (holds.holder t).trans (held t apart).symm
  · rcases eq_or_ne t table with rfl | apart
    · simpa only [Function.update_self] using others d different
    · simp only [Function.update_of_ne apart]
  · simp
  · simp

/-- The holder of the lock of a table releases it. -/
theorem Local.release (holds : Local size settings owners c s place) (fine : Global owners s)
    (held : ∀ t, place.Holds t ↔ table = t) (after : ∀ t, ¬place'.Holds t)
    (creates : place'.Creates ↔ place.Creates)
    (known : PlaceAt size (settings c).keyId (s.setLock table false) place') :
    Fine size settings owners c s (s.setLock table false) place' := by
  have mine : owners.holder table = some c := (holds.holder table).mpr ((held table).mpr rfl)
  have inside : table < s.created := by
    by_contra above
    have none := fine.fresh table (Nat.le_of_not_lt above)
    simp [none] at mine
  refine holds.hand fine none inside (fun d different => ?_) (by simpa using after table)
    (fun t apart => ?_) creates known
  · simp [mine, different.symm]
  · simpa [after t, held t] using apart.symm

/-- The caller changes the chain of its key. -/
theorem Local.change (holds : Local size settings owners c s place) (fine : Global owners s)
    {elems : List (Elem V)} (creates : place'.Creates ↔ place.Creates)
    (held : ∀ t, place'.Holds t ↔ place.Holds t)
    (grows : ∀ t k, s.keys size t k <+:
      (s.setChain size table (settings c).keyId elems).keys size t k)
    (free : ∀ d, d ≠ c → ∀ t k, s.pointer = .table t → owners.holder t = some d →
      (s.setChain size table (settings c).keyId elems).keys size t k = s.keys size t k)
    (known : PlaceAt size (settings c).keyId (s.setChain size table (settings c).keyId elems)
      place') :
    Fine size settings owners c s (s.setChain size table (settings c).keyId elems) place' :=
  ⟨owners, ⟨fine.locked, fine.installs, fine.below, fine.fresh, fun t below => by
      simpa using fine.lock t below⟩,
    ⟨holds.creator.trans creates.symm, fun t => (holds.holder t).trans (held t).symm, known⟩,
    fun d different => ⟨.rfl, fun _ => .rfl, le_rfl, fun t same => same, fun t _ => grows t,
      fun t same mine k => free d different t k same mine⟩⟩

/-- The creator allocates the next table. -/
theorem Local.allocate (holds : Local size settings owners c s place) (fine : Global owners s)
    (locked : s.pointer = .locked) (creates : Place.Creates (.install s.created) ↔ place.Creates)
    (held : ∀ t, ¬place.Holds t) :
    Fine size settings owners c s
      { s with
        tables := Function.update s.tables s.created Ktable.empty
        created := s.created + 1 } (.install s.created) := by
  have free : ∀ t, s.pointer ≠ .table t := by simp [locked]
  refine ⟨owners, ⟨fine.locked, fine.installs, fun t same => absurd same (free t), fun t above =>
      fine.fresh t (Nat.le_of_succ_le above), fun t below => ?_⟩,
    ⟨holds.creator.trans creates.symm, fun t => (holds.holder t).trans (iff_of_false (held t) id),
      Nat.lt_succ_self _⟩, fun d _ => ⟨.rfl, fun _ => .rfl, Nat.le_succ _,
        fun t same => absurd same (free t), fun t same => absurd same (free t),
        fun t same => absurd same (free t)⟩⟩
  rcases eq_or_ne t s.created with rfl | apart
  · simp [fine.fresh _ le_rfl, Ktable.empty]
  · simpa only [Function.update_of_ne apart] using
      fine.lock t (lt_of_le_of_ne (Nat.le_of_lt_succ below) apart)

/-- While a caller creates a table the pointer is locked. -/
theorem Local.creating (holds : Local size settings owners c s place) (fine : Global owners s)
    (creates : place.Creates) :
    owners.creator = some c ∧ s.pointer = .locked ∧ s.installs = 0 := by
  have creating := holds.creator.mpr creates
  have locked : s.pointer = .locked := fine.locked.mpr (by simp [creating])
  refine ⟨creating, locked, ?_⟩
  rw [fine.installs, locked]
  rfl

/-- A caller locks the NULL pointer, and creates a table from now on. -/
theorem Local.lockPointer (holds : Local size settings owners c s .cas) (fine : Global owners s)
    (null : s.pointer = .null) : Fine size settings owners c s { s with pointer := .locked }
      .create := by
  have noCreator : owners.creator = none := by
    by_contra creator
    have locked := fine.locked.mpr creator
    simp [null] at locked
  have installs : s.installs = 0 := by
    rw [fine.installs, null]
    rfl
  refine holds.pointTo fine (some c) (by simp) installs nofun (by simp [null])
    (iff_of_true rfl trivial) ?_ (fun _ => .rfl) trivial
  intro d different
  simp [noCreator, different.symm]

/-- The creator unlocks the pointer. -/
theorem Local.endCreation (holds : Local size settings owners c s place) (fine : Global owners s)
    (creates : place.Creates) {pointer : Pointer} {installs : ℕ} (unlocks : pointer ≠ .locked)
    (counted : installs = pointer.installed) (below : ∀ t, pointer = .table t → t < s.created)
    (done : ¬place'.Creates) (held : ∀ t, place'.Holds t ↔ place.Holds t)
    (known : PlaceAt size (settings c).keyId { s with pointer := pointer, installs := installs }
      place') :
    Fine size settings owners c s { s with pointer := pointer, installs := installs } place' := by
  obtain ⟨creating, locked, -⟩ := holds.creating fine creates
  refine holds.pointTo fine none (iff_of_false unlocks (not_not_intro rfl)) counted below
    (by simp [locked]) (iff_of_false nofun done) ?_ held known
  intro d different
  simp [creating, different.symm]

/-- A caller takes the free lock of a table. -/
theorem Local.acquire (holds : Local size settings owners c s (.acquire table link))
    (fine : Global owners s) (unlocked : (s.tables table).lock = false) :
    Fine size settings owners c s (s.setLock table true) (.searchLocked table link) := by
  have known := holds.known
  have inside := fine.below table known.1
  have free : owners.holder table = none := by
    have lock := fine.lock table inside
    simpa [unlocked] using lock
  refine holds.hand fine (some c) inside (fun d different => ?_) (by simp [Place.Holds])
    (fun t apart => ?_) .rfl ?_
  · simp [free, different.symm]
  · simpa [Place.Holds] using apart.symm
  · simpa [PlaceAt] using known

/-- The holder of the lock of a table appends an element with a new key. -/
theorem Local.append (holds : Local size settings owners c s (.append table link))
    (fine : Global owners s) :
    Fine size settings owners c s (s.setChain size table (settings c).keyId
      ((s.chain size table (settings c).keyId).take link ++
        [⟨(settings c).keyId, (settings c).value⟩])) (.releaseStored table) := by
  obtain ⟨here, last, absent⟩ := holds.known
  have mine : owners.holder table = some c := (holds.holder table).mpr rfl
  refine holds.change fine .rfl (fun _ => .rfl) (fun t k => ?_)
    (fun d different t k same held => ?_) here
  · rw [Keytables.keys_setChain]
    split_ifs with same
    · rw [Keytables.keys_congr same, List.take_of_length_le (by simp [last, Keytables.keys]),
        List.map_append]
      exact List.prefix_append _ _
    · exact List.prefix_refl _
  · rw [Keytables.keys_setChain, if_neg]
    rintro ⟨rfl, -⟩
    exact different (Option.some.inj (held.symm.trans mine))

/-- A link with another key is passed. -/
theorem walk_on {keyId key : ℕ} (here : s.pointer = .table table)
    (found : (s.keys size table keyId)[link]? = some key) (other : key ≠ keyId)
    (absent : keyId ∉ (s.keys size table keyId).take link) :
    s.pointer = .table table ∧ link + 1 ≤ (s.keys size table keyId).length ∧
      keyId ∉ (s.keys size table keyId).take (link + 1) := by
  refine ⟨here, (List.getElem?_eq_some_iff.mp found).1, ?_⟩
  rw [List.take_add_one, found]
  simpa using ⟨absent, other.symm⟩

/-- **Every turn keeps the assertions**, if no spinning caller finds NULL. -/
theorem Local.turn (holds : Local size settings owners c s place) (fine : Global owners s)
    (undisturbed : place = .spin → s.pointer ≠ .null) {succeeds : Bool}
    (taken : turn size (settings c) succeeds s place = some (s', place')) :
    Fine size settings owners c s s' place' := by
  have known := holds.known
  cases place with
  | begin =>
      rw [KeyTable.turn] at taken
      split at taken
      next id here =>
        cases taken
        exact holds.still fine .rfl (fun _ => .rfl) ⟨id, rfl, here⟩
      next =>
        cases taken
        exact holds.still fine .rfl (fun _ => .rfl) trivial
  | cas =>
      rw [KeyTable.turn] at taken
      split at taken
      next free =>
        cases taken
        exact holds.lockPointer fine free.1
      next =>
        cases taken
        exact holds.still fine .rfl (fun _ => .rfl) trivial
  | create =>
      rw [KeyTable.turn] at taken
      split at taken
      next =>
        cases taken
        exact holds.allocate fine (holds.creating fine trivial).2.1 .rfl fun _ => id
      next =>
        cases taken
        exact holds.still fine .rfl (fun _ => .rfl) trivial
  | unlock =>
      cases taken
      obtain ⟨-, -, installs⟩ := holds.creating fine trivial
      exact holds.endCreation fine trivial nofun installs nofun id (fun _ => .rfl) trivial
  | install table =>
      cases taken
      obtain ⟨-, -, installs⟩ := holds.creating fine trivial
      refine holds.endCreation fine trivial nofun (congrArg (· + 1) installs) ?_ id
        (fun _ => .rfl) ⟨table, rfl, rfl⟩
      rintro t ⟨⟩
      exact known
  | reload =>
      rw [KeyTable.turn] at taken
      split at taken
      next =>
        cases taken
        exact holds.still fine .rfl (fun _ => .rfl) trivial
      next =>
        cases taken
        exact holds.still fine .rfl (fun _ => .rfl) trivial
      next id here =>
        cases taken
        exact holds.still fine .rfl (fun _ => .rfl) ⟨id, rfl, here⟩
  | spin =>
      rw [KeyTable.turn] at taken
      split at taken
      next =>
        cases taken
        exact holds.still fine .rfl (fun _ => .rfl) trivial
      next pointer notLocked =>
        cases taken
        refine holds.still fine .rfl (fun _ => .rfl) ?_
        cases here : s.pointer with
        | null => exact absurd here (undisturbed rfl)
        | locked => exact absurd here notLocked
        | table id => exact ⟨id, rfl, here⟩
  | setImpl pointer =>
      obtain ⟨table, rfl, here⟩ := known
      cases taken
      exact holds.still fine .rfl (fun _ => .rfl) ⟨here, Nat.zero_le _, by simp⟩
  | search table link =>
      rw [KeyTable.turn] at taken
      split at taken
      next =>
        cases taken
        exact holds.still fine .rfl (fun _ => .rfl) known
      next elem found =>
        obtain ⟨here, within, absent⟩ := known
        have key := Keytables.keys_getElem?_of_some found
        split at taken
        next same =>
          cases taken
          exact holds.still fine .rfl (fun _ => .rfl) ⟨here, by rw [key, same], absent⟩
        next other =>
          cases taken
          exact holds.still fine .rfl (fun _ => .rfl) (walk_on here key other absent)
  | searchLocked table link =>
      rw [KeyTable.turn] at taken
      obtain ⟨here, within, absent⟩ := known
      split at taken
      next missing =>
        cases taken
        have last : link = (s.keys size table (settings c).keyId).length :=
          le_antisymm within (by simpa [Keytables.keys] using missing)
        refine holds.still fine .rfl (fun _ => .rfl) ⟨here, last, ?_⟩
        rwa [last, List.take_length] at absent
      next elem found =>
        have key := Keytables.keys_getElem?_of_some found
        split at taken
        next same =>
          cases taken
          exact holds.still fine .rfl (fun _ => .rfl) ⟨here, by rw [key, same], absent⟩
        next other =>
          cases taken
          exact holds.still fine .rfl (fun _ => .rfl) (walk_on here key other absent)
  | acquire table link =>
      rw [KeyTable.turn] at taken
      split at taken
      next => cases taken
      next unlocked =>
        cases taken
        exact holds.acquire fine (Bool.not_eq_true _ ▸ unlocked)
  | releaseFound table link =>
      cases taken
      exact holds.release fine (fun _ => .rfl) (fun _ => id) .rfl
        (by simpa [PlaceAt] using known)
  | alloc table link =>
      cases taken
      cases succeeds with
      | true => exact holds.still fine .rfl (fun _ => .rfl) known
      | false => exact holds.still fine .rfl (fun _ => .rfl) trivial
  | releaseFailed table =>
      cases taken
      exact holds.release fine (fun _ => .rfl) (fun _ => id) .rfl trivial
  | append table link =>
      cases taken
      exact holds.append fine
  | releaseStored table =>
      cases taken
      exact holds.release fine (fun _ => .rfl) (fun _ => id) .rfl trivial
  | write table link =>
      cases taken
      refine holds.change fine .rfl (fun _ => .rfl) (fun t k => ?_) (fun _ _ t k _ _ => ?_) trivial
      · rw [Keytables.keys_modify]
      · rw [Keytables.keys_modify]
  | returned success => cases taken

end Turn

/-! ## Runs -/

section Runs

variable {size : ℕ} {settings : ι → Setting V}

/-- No spinning caller finds that the pointer has been put back to NULL. -/
def Undisturbed (world : World ι (Keytables V) Place) (event : ι × Bool) : Prop :=
  world.place event.1 = .spin → world.shared.pointer ≠ .null

instance (world : World ι (Keytables V) Place) (event : ι × Bool) :
    Decidable (Undisturbed world event) :=
  inferInstanceAs (Decidable (_ → _))

/-- The table pointer is used safely. -/
structure Safe (world : World ι (Keytables V) Place) : Prop where
  valid : ∀ c pointer, world.place c = .setImpl pointer → ∃ table, pointer = .table table
  once : world.shared.installs ≤ 1
  marker : world.shared.pointer = .locked → ∃ c, (world.place c).Creates

/-- The installed table has the value of the caller at its key. -/
def Stored (size : ℕ) (settings : ι → Setting V) (c : ι) (world : World ι (Keytables V) Place) :
    Prop :=
  ∃ table, world.shared.pointer = .table table ∧
    world.shared.get size table (settings c).keyId = some (settings c).value

/-- An allocation of the caller has failed. -/
def Place.Failed : Place → Prop
  | .unlock | .releaseFailed _ => True
  | _ => False

/-- The value of the caller has been stored. -/
def Place.Stores : Place → Prop
  | .releaseStored _ => True
  | .returned success => success = true
  | _ => False

variable [DecidableEq ι]

theorem Local.of_reachable {world : World ι (Keytables V) Place}
    (reachable : ((calls size settings).machine Begins).Reachable Undisturbed world) :
    ∃ owners, Global owners world.shared ∧
      ∀ c, Local size settings owners c world.shared (world.place c) := by
  refine Callers.invariant Global (Local size settings) ?_ ?_ reachable
  · rintro world ⟨null, created, installs, begins⟩
    refine ⟨⟨none, fun _ => none⟩, ⟨by simp [null], by rw [null, installs]; rfl, by simp [null],
      fun _ _ => rfl, by simp [created]⟩, fun c => ?_⟩
    rw [begins c]
    exact ⟨iff_of_false nofun id, fun _ => iff_of_false nofun id, trivial⟩
  · intro owners world c succeeds shared place undisturbed fine locals taken
    obtain ⟨owners', fine', mine, others⟩ := (locals c).turn fine undisturbed taken
    exact ⟨owners', fine', mine, fun d different _ holds => holds.mono (others d different)⟩

theorem Safe.of_reachable {world : World ι (Keytables V) Place}
    (reachable : ((calls size settings).machine Begins).Reachable Undisturbed world) :
    Safe world := by
  obtain ⟨owners, fine, locals⟩ := Local.of_reachable reachable
  refine ⟨fun c pointer here => ?_, ?_, fun locked => ?_⟩
  · have known := (locals c).known
    rw [here] at known
    obtain ⟨table, same, -⟩ := known
    exact ⟨table, same⟩
  · rw [fine.installs]
    cases world.shared.pointer <;> simp [Pointer.installed]
  · obtain ⟨c, creating⟩ := Option.ne_none_iff_exists'.mp (fine.locked.mp locked)
    exact ⟨c, (locals c).creator.mp creating⟩

omit [DecidableEq ι] in
/-- A turn that stores a value is the last write of its caller. -/
theorem stores_of_turn {s s' : Keytables V} {c : ι} {place place' : Place} {succeeds : Bool}
    (known : PlaceAt size (settings c).keyId s place)
    (taken : turn size (settings c) succeeds s place = some (s', place'))
    (later : place'.Stores) :
    place.Stores ∨ ∃ table, s'.pointer = .table table ∧
      s'.get size table (settings c).keyId = some (settings c).value := by
  cases place with
  | append table link =>
      cases taken
      obtain ⟨here, last, absent⟩ := known
      refine .inr ⟨table, here, ?_⟩
      rw [List.take_of_length_le (by simp [last, Keytables.keys])]
      exact Keytables.get_append absent
  | write table link =>
      cases taken
      obtain ⟨here, found, absent⟩ := known
      exact .inr ⟨table, here, Keytables.get_modify absent found⟩
  | releaseStored table => exact .inl trivial
  | returned success => cases taken
  | setImpl pointer =>
      cases pointer <;> cases taken
      exact later.elim
  | alloc table link =>
      cases taken
      cases succeeds <;> exact later.elim
  | releaseFailed table | unlock =>
      cases taken
      exact (Bool.false_ne_true later).elim
  | install table | releaseFound table link =>
      cases taken
      exact later.elim
  | begin | cas | create | reload | spin | search _ _ | acquire _ _ | searchLocked _ _ =>
      rw [KeyTable.turn] at taken
      repeat' split at taken
      all_goals cases taken
      all_goals exact later.elim

/-- A turn that ends in an error follows a failed allocation. -/
theorem failed_of_turn {s s' : Keytables V} {setting : Setting V} {place : Place}
    {succeeds : Bool} (taken : turn size setting succeeds s place = some (s', .returned false)) :
    place.Failed := by
  cases place with
  | unlock | releaseFailed table => trivial
  | setImpl pointer => cases pointer <;> cases taken
  | alloc table link => cases succeeds <;> cases taken
  | append _ _ | releaseStored _ | write _ _ | returned _ | install _ | releaseFound _ _ =>
      cases taken
  | begin | cas | create | reload | spin | search _ _ | acquire _ _ | searchLocked _ _ =>
      rw [KeyTable.turn] at taken
      repeat' split at taken
      all_goals cases taken

/-- A call that has succeeded has stored its value. -/
theorem stored_of_returned {world : World ι (Keytables V) Place}
    {past : List (World ι (Keytables V) Place)}
    (run : ((calls size settings).machine Begins).Run Undisturbed (world :: past)) {c : ι}
    (returned : world.place c = .returned true) :
    ∃ before ∈ world :: past, Stored size settings c before := by
  refine run.once (fun world => (world.place c).Stores) _ ?_ ?_ (by rw [returned]; rfl)
  · rintro world ⟨-, -, -, begins⟩ later
    rw [begins c] at later
    exact later.elim
  · rintro world ⟨d, succeeds⟩ next reachable undisturbed step later
    obtain ⟨shared, place, taken, rfl⟩ := Callers.step_eq_some.mp step
    rcases eq_or_ne d c with rfl | different
    · obtain ⟨owners, -, locals⟩ := Local.of_reachable reachable
      simp only [Function.update_self] at later
      exact stores_of_turn (locals d).known taken later
    · simp only [Function.update_of_ne different.symm] at later
      exact .inl later

/-- A call that has returned an error has failed to allocate. -/
theorem failed_of_returned {world : World ι (Keytables V) Place}
    {past : List (World ι (Keytables V) Place)}
    (run : ((calls size settings).machine Begins).Run Undisturbed (world :: past)) {c : ι}
    (returned : world.place c = .returned false) :
    ∃ before ∈ world :: past, (before.place c).Failed := by
  refine run.once (fun world => world.place c = .returned false ∨ (world.place c).Failed) _ ?_ ?_
    (.inl returned)
  · rintro world ⟨-, -, -, begins⟩ later
    simp [begins c, Place.Failed] at later
  · rintro world ⟨d, succeeds⟩ next reachable undisturbed step later
    obtain ⟨shared, place, taken, rfl⟩ := Callers.step_eq_some.mp step
    rcases eq_or_ne d c with rfl | different
    · simp only [Function.update_self] at later ⊢
      rcases later with rfl | failed
      · exact .inl (.inr (failed_of_turn taken))
      · exact .inr failed
    · simp only [Function.update_of_ne different.symm] at later
      exact .inl later

/-- **The creation of the key table is safe as long as no spinning caller finds NULL.**
The other runs go wrong at once: such a caller takes NULL for a table. -/
theorem keytable_safe (size : ℕ) (settings : ι → Setting V) :
    (∀ world past, ((calls size settings).machine Begins).Run Undisturbed (world :: past) →
      Safe world ∧
        (∀ c, world.place c = .returned true →
          ∃ before ∈ world :: past, Stored size settings c before) ∧
        ∀ c, world.place c = .returned false →
          ∃ before ∈ world :: past, (before.place c).Failed) ∧
    ∀ world event next, ¬Undisturbed world event →
      ((calls size settings).machine Begins).step world event = some next → ¬Safe next := by
  refine ⟨fun world past run => ⟨.of_reachable ⟨past, run⟩, fun c => stored_of_returned run,
    fun c => failed_of_returned run⟩, ?_⟩
  rintro world ⟨c, succeeds⟩ next disturbed step safe
  obtain ⟨spins, null⟩ := Classical.not_imp.mp disturbed
  obtain ⟨shared, place, taken, rfl⟩ := Callers.step_eq_some.mp step
  simp only [calls, spins, turn, of_not_not null, Option.some.injEq, Prod.mk.injEq] at taken
  obtain ⟨rfl, rfl⟩ := taken
  obtain ⟨table, same⟩ := safe.valid c .null (by simp)
  cases same

end Runs

/-! ## A failed creation with a spinning caller -/

section TwoCallers

/-- Two callers that set two keys. -/
def twoSettings : Fin 2 → Setting ℕ := fun c => ⟨c, 10 + c⟩

def twoBegin : World (Fin 2) (Keytables ℕ) Place where
  shared := ⟨.null, fun _ => Ktable.empty, 0, 0⟩
  place _ := .begin

/-- The first caller locks the pointer, the second one spins until the table is
installed, and both set their keys. -/
def sharedCreation (first second : Fin 2) : List (Fin 2 × Bool) :=
  [(first, true), (first, true), (second, true), (second, true), (second, true), (second, true),
    (first, true), (first, true), (second, true)] ++
    List.replicate 7 (first, true) ++ List.replicate 7 (second, true)

/-- Both callers return with their values stored. -/
theorem keytable_safe_shared :
    ∃ world before : World (Fin 2) (Keytables ℕ) Place, Safe world ∧
      world.place 0 = .returned true ∧ world.place 1 = .returned true ∧
        Stored 4 twoSettings 1 before := by
  obtain ⟨world, ⟨past, run⟩, returned⟩ := Machine.exists_reachable_of_play Undisturbed
    (M := (calls 4 twoSettings).machine Begins) (s := twoBegin) ⟨rfl, rfl, rfl, fun _ => rfl⟩
    (sharedCreation 0 1)
    (fun world => world.place 0 = .returned true ∧ world.place 1 = .returned true) (by decide)
  obtain ⟨first, second⟩ := of_decide_eq_true returned
  obtain ⟨safe, stored, -⟩ := (keytable_safe 4 twoSettings).1 world past run
  obtain ⟨before, -, has⟩ := stored 1 second
  exact ⟨world, before, safe, first, second, has⟩

/-- The first caller locks the pointer, the second one spins, the creation fails, and
the second one goes on. -/
def failedCreation (first second : Fin 2) : List (Fin 2 × Bool) :=
  [(first, true), (first, true), (second, true), (second, true), (second, true), (first, false),
    (first, true), (second, true)]

/-- **A spinning caller may go on without a table.** -/
theorem not_keytable_safe :
    ¬∀ world, ((calls 4 twoSettings).machine Begins).Reachable Machine.anyEvent world →
      Safe world := by
  intro safe
  obtain ⟨world, reachable, null⟩ := Machine.exists_reachable_of_play Machine.anyEvent
    (M := (calls 4 twoSettings).machine Begins) (s := twoBegin) ⟨rfl, rfl, rfl, fun _ => rfl⟩
    (failedCreation 0 1) (fun world => world.place 1 = .setImpl .null) (by decide)
  obtain ⟨table, same⟩ := (safe world reachable).valid 1 .null (of_decide_eq_true null)
  cases same

end TwoCallers

end ArgobotsReduction.Threads.KeyTable
