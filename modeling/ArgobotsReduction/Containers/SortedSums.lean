import Mathlib.Algebra.BigOperators.Group.List.Basic
import Mathlib.Data.Finset.Card
import Mathlib.Data.List.Induction
import Mathlib.Order.Defs.LinearOrder

/-!
# Sums kept in the order of their keys

A list of pairs with increasing keys holds one amount for each of them.  An amount is added to
the pair with its key, and a key without a pair is inserted where it belongs (`addTo`).  Adding
one pair after the other keeps the keys increasing (`increasing_sums`), makes the keys those of
the pairs (`mem_keys_sums`), and every amount the sum of the pairs with its key
(`coefficient_sums`).
-/

set_option autoImplicit false

namespace Containers

universe u v

variable {K : Type u} {M : Type v}

/-- The keys of the pairs, in order. -/
def keys (items : List (K × M)) : List K := items.map Prod.fst

@[simp] theorem keys_nil : keys ([] : List (K × M)) = [] := rfl

@[simp] theorem keys_cons (item : K × M) (items : List (K × M)) :
    keys (item :: items) = item.1 :: keys items := rfl

@[simp] theorem keys_append (first second : List (K × M)) :
    keys (first ++ second) = keys first ++ keys second :=
  List.map_append

theorem mem_keys {items : List (K × M)} {k : K} : k ∈ keys items ↔ ∃ x, (k, x) ∈ items := by
  simp [keys]

section Coefficients

variable [DecidableEq K]

theorem filter_key_of_notMem {items : List (K × M)} {k : K} (absent : k ∉ keys items) :
    items.filter (fun item => decide (item.1 = k)) = [] := by
  rw [List.filter_eq_nil_iff]
  intro item member same
  exact absent (List.mem_map.mpr ⟨item, member, of_decide_eq_true same⟩)

/-- Among different keys, a key selects its pair. -/
theorem filter_key_of_mem {items : List (K × M)} (distinct : (keys items).Nodup) {k : K} {x : M}
    (member : (k, x) ∈ items) : items.filter (fun item => decide (item.1 = k)) = [(k, x)] := by
  obtain ⟨before, after, rfl⟩ := List.append_of_mem member
  rw [keys_append, keys_cons, List.nodup_middle, List.nodup_cons, List.mem_append, not_or]
    at distinct
  rw [List.filter_append, List.filter_cons, if_pos (by simp), filter_key_of_notMem distinct.1.1,
    filter_key_of_notMem distinct.1.2]
  rfl

variable [AddCommMonoid M]

/-- The sum of the amounts with a key. -/
def coefficient (items : List (K × M)) (k : K) : M :=
  ((items.filter fun item => decide (item.1 = k)).map Prod.snd).sum

@[simp] theorem coefficient_nil (k : K) : coefficient ([] : List (K × M)) k = 0 := rfl

theorem coefficient_cons (item : K × M) (items : List (K × M)) (k : K) :
    coefficient (item :: items) k = (if item.1 = k then item.2 else 0) + coefficient items k := by
  by_cases same : item.1 = k <;> simp [coefficient, same]

theorem coefficient_append (first second : List (K × M)) (k : K) :
    coefficient (first ++ second) k = coefficient first k + coefficient second k := by
  simp [coefficient]

theorem coefficient_flatMap {ι : Type*} (items : List ι) (f : ι → List (K × M)) (k : K) :
    coefficient (items.flatMap f) k = (items.map fun i => coefficient (f i) k).sum := by
  induction items with
  | nil => rfl
  | cons i items ih => rw [List.flatMap_cons, coefficient_append, ih, List.map_cons, List.sum_cons]

/-- The amounts with other keys count as nothing. -/
theorem coefficient_eq_sum_map (items : List (K × M)) (k : K) :
    coefficient items k = (items.map fun item => if item.1 = k then item.2 else 0).sum := by
  induction items with
  | nil => rfl
  | cons item items ih => rw [coefficient_cons, ih, List.map_cons, List.sum_cons]

/-- A key that does not occur has no amount. -/
theorem coefficient_of_notMem {items : List (K × M)} {k : K} (absent : k ∉ keys items) :
    coefficient items k = 0 := by
  rw [coefficient, filter_key_of_notMem absent]
  rfl

/-- A key that occurs once has the amount of its pair. -/
theorem coefficient_of_mem {items : List (K × M)} (distinct : (keys items).Nodup) {k : K} {x : M}
    (member : (k, x) ∈ items) : coefficient items k = x := by
  rw [coefficient, filter_key_of_mem distinct member]
  exact add_zero x

/-- Amounts that are computed from the pairs, when the keys are different. -/
theorem coefficient_map {N : Type*} [AddCommMonoid N] {items : List (K × M)}
    (distinct : (keys items).Nodup) (f : K × M → N) (k : K) :
    coefficient (items.map fun item => (item.1, f item)) k =
      if k ∈ keys items then f (k, coefficient items k) else 0 := by
  have sameKeys : keys (items.map fun item => (item.1, f item)) = keys items := by
    simp [keys, Function.comp_def]
  by_cases present : k ∈ keys items
  · obtain ⟨x, member⟩ := mem_keys.mp present
    have mapped : (k, f (k, x)) ∈ items.map fun item => (item.1, f item) :=
      List.mem_map.mpr ⟨(k, x), member, rfl⟩
    rw [if_pos present, coefficient_of_mem distinct member,
      coefficient_of_mem (sameKeys ▸ distinct) mapped]
  · rw [if_neg present, coefficient_of_notMem (sameKeys ▸ present)]

end Coefficients

/-! ## Increasing keys -/

section Order

variable [LinearOrder K]

/-- The keys of the pairs are increasing. -/
def Increasing (items : List (K × M)) : Prop := (keys items).Pairwise (· < ·)

theorem Increasing.nodup {items : List (K × M)} (increasing : Increasing items) :
    (keys items).Nodup :=
  increasing.imp fun less => less.ne

variable [AddCommMonoid M]

/-- An amount added to a list with increasing keys. -/
def addTo (k : K) (x : M) : List (K × M) → List (K × M)
  | [] => [(k, x)]
  | (l, y) :: rest =>
      if k < l then (k, x) :: (l, y) :: rest
      else if k = l then (l, y + x) :: rest
      else (l, y) :: addTo k x rest

theorem mem_keys_addTo {k l : K} {x : M} {items : List (K × M)} :
    l ∈ keys (addTo k x items) ↔ l = k ∨ l ∈ keys items := by
  induction items with
  | nil => simp [addTo]
  | cons item items ih =>
      rw [addTo]
      split_ifs with before here
      · simp
      · simp [here]
      · simp only [keys_cons, List.mem_cons, ih]
        exact or_left_comm

theorem Increasing.addTo {items : List (K × M)} (increasing : Increasing items) (k : K) (x : M) :
    Increasing (addTo k x items) := by
  induction items with
  | nil => exact List.pairwise_singleton _ _
  | cons item items ih =>
      obtain ⟨first, rest⟩ := List.pairwise_cons.mp increasing
      rw [Containers.addTo]
      split_ifs with before here
      · refine List.pairwise_cons.mpr ⟨fun l member => ?_, increasing⟩
        rcases List.mem_cons.mp member with rfl | later
        · exact before
        · exact before.trans (first l later)
      · exact increasing
      · refine List.pairwise_cons.mpr ⟨fun l member => ?_, ih rest⟩
        rcases mem_keys_addTo.mp member with rfl | old
        · exact lt_of_le_of_ne (not_lt.mp before) (Ne.symm here)
        · exact first l old

theorem coefficient_addTo (k l : K) (x : M) (items : List (K × M)) :
    coefficient (addTo k x items) l = coefficient items l + if k = l then x else 0 := by
  induction items with
  | nil => simp [addTo, coefficient_cons]
  | cons item items ih =>
      obtain ⟨m, y⟩ := item
      rw [addTo]
      rcases lt_trichotomy k m with before | rfl | after
      · rw [if_pos before, coefficient_cons, add_comm]
      · rw [if_neg (lt_irrefl k), if_pos rfl, coefficient_cons, coefficient_cons]
        by_cases same : k = l
        · simp only [if_pos same]
          exact add_right_comm _ _ _
        · simp only [if_neg same, add_zero]
      · rw [if_neg after.not_gt, if_neg after.ne', coefficient_cons, coefficient_cons, ih,
          add_assoc]

/-- Pairs with smaller keys stay where they are. -/
theorem addTo_append {k : K} {before : List (K × M)} (smaller : ∀ item ∈ before, item.1 < k) (x : M)
    (after : List (K × M)) : addTo k x (before ++ after) = before ++ addTo k x after := by
  induction before with
  | nil => rfl
  | cons item before ih =>
      have less := smaller item List.mem_cons_self
      rw [List.cons_append, addTo, if_neg less.not_gt, if_neg less.ne',
        ih fun other member => smaller other (List.mem_cons_of_mem _ member)]
      rfl

omit [AddCommMonoid M] in
/-- A list is cut before the first key that is not below the given one. -/
theorem exists_cut (k : K) (items : List (K × M)) :
    ∃ before after, items = before ++ after ∧ (∀ item ∈ before, item.1 < k) ∧
      ∀ item ∈ after.head?, k ≤ item.1 := by
  induction items with
  | nil => exact ⟨[], [], rfl, nofun, nofun⟩
  | cons item items ih =>
      rcases lt_or_ge item.1 k with less | notLess
      · obtain ⟨before, after, rfl, smaller, cut⟩ := ih
        exact ⟨item :: before, after, rfl, List.forall_mem_cons.mpr ⟨less, smaller⟩, cut⟩
      · refine ⟨[], item :: items, rfl, nofun, fun other first => ?_⟩
        obtain rfl := Option.some.inj first
        exact notLess

/-! ## A list of pairs, added up -/

/-- The pairs added one after the other. -/
def sums (items : List (K × M)) : List (K × M) :=
  items.foldl (fun sofar item => addTo item.1 item.2 sofar) []

@[simp] theorem sums_nil : sums ([] : List (K × M)) = [] := rfl

theorem sums_concat (items : List (K × M)) (item : K × M) :
    sums (items ++ [item]) = addTo item.1 item.2 (sums items) := by
  simp [sums]

theorem increasing_sums (items : List (K × M)) : Increasing (sums items) := by
  induction items using List.reverseRecOn with
  | nil => exact List.Pairwise.nil
  | append_singleton items item ih =>
      rw [sums_concat]
      exact ih.addTo _ _

theorem mem_keys_sums {items : List (K × M)} {k : K} : k ∈ keys (sums items) ↔ k ∈ keys items := by
  induction items using List.reverseRecOn with
  | nil => rfl
  | append_singleton items item ih =>
      rw [sums_concat, mem_keys_addTo, ih]
      simp [or_comm]

/-- **Every amount is the sum of the pairs with its key.** -/
theorem coefficient_sums (items : List (K × M)) (k : K) :
    coefficient (sums items) k = coefficient items k := by
  induction items using List.reverseRecOn with
  | nil => rfl
  | append_singleton items item ih =>
      rw [sums_concat, coefficient_addTo, ih, coefficient_append, coefficient_cons,
        coefficient_nil, add_zero]

/-- There is one pair for each key. -/
theorem length_sums (items : List (K × M)) : (sums items).length = (keys items).toFinset.card := by
  have same : (keys items).toFinset = (keys (sums items)).toFinset := by
    ext k
    rw [List.mem_toFinset, List.mem_toFinset, mem_keys_sums]
  rw [same, List.toFinset_card_of_nodup (increasing_sums items).nodup, keys, List.length_map]

end Order

end Containers
