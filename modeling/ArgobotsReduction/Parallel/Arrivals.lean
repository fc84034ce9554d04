import Mathlib.Data.Fintype.Card
import Mathlib.Data.Nat.Basic
import Mathlib.Logic.Function.Basic

/-!
# Arrivals in rounds

Callers arrive again and again.  The arrivals are numbered in their order, and the
next `N` of them make up a round.  The record keeps the number of arrivals, and for
every caller the number of its last arrival and how often it has arrived.

A caller that only arrives when its last round is complete arrives at most once in a
round.  When there are `N` such callers, each of them arrives once in every complete
round, so that its rounds are its calls.
-/

set_option autoImplicit false

namespace Parallel

universe u

/-- The arrivals so far, the number of the last one of a caller, and how often it has
arrived. -/
@[ext]
structure Arrivals (ι : Type u) where
  count : ℕ
  number : ι → ℕ
  calls : ι → ℕ

/-! ## The last arrival of a round, and the other ones -/

section Division

variable {N a k : ℕ}

/-- The next arrival of a round that has others to come. -/
theorem div_succ_of_lt (rest : a % N = k) (more : k + 1 < N) :
    (a + 1) / N = a / N ∧ (a + 1) % N = k + 1 := by
  have whole : a + 1 = N * (a / N) + (k + 1) := by rw [← rest, ← Nat.add_assoc, Nat.div_add_mod]
  have positive : 0 < N := Nat.zero_lt_of_lt more
  constructor
  · rw [whole, Nat.mul_add_div positive, Nat.div_eq_of_lt more, Nat.add_zero]
  · rw [whole, Nat.mul_add_mod, Nat.mod_eq_of_lt more]

/-- The last arrival of a round. -/
theorem div_succ_of_eq (rest : a % N = k) (last : k + 1 = N) :
    (a + 1) / N = a / N + 1 ∧ (a + 1) % N = 0 := by
  have whole : a + 1 = N * (a / N) + N := by
    conv_rhs => rw [← last, ← Nat.add_assoc, last, ← rest, Nat.div_add_mod]
  have positive : 0 < N := last ▸ Nat.succ_pos k
  constructor
  · rw [whole, Nat.mul_add_div positive, Nat.div_self positive]
  · rw [whole, Nat.mul_add_mod, Nat.mod_self]

end Division

namespace Arrivals

variable {ι : Type u}

/-- Nobody has arrived. -/
def none : Arrivals ι := ⟨0, fun _ => 0, fun _ => 0⟩

/-- The caller arrives. -/
def arrive [DecidableEq ι] (record : Arrivals ι) (c : ι) : Arrivals ι where
  count := record.count + 1
  number := Function.update record.number c record.count
  calls := Function.update record.calls c (record.calls c + 1)

/-- All arrivals of the round of the caller's last arrival have happened. -/
def Complete (N : ℕ) (record : Arrivals ι) (c : ι) : Prop :=
  record.calls c = 0 ∨ record.number c / N < record.count / N

/-- The last arrival of the caller belongs to the round that is not complete. -/
def Current (N : ℕ) (record : Arrivals ι) (c : ι) : Prop :=
  0 < record.calls c ∧ record.number c / N = record.count / N

instance (N : ℕ) (record : Arrivals ι) : DecidablePred (Complete N record) := fun _ =>
  inferInstanceAs (Decidable (_ ∨ _))

instance (N : ℕ) (record : Arrivals ι) : DecidablePred (Current N record) := fun _ =>
  inferInstanceAs (Decidable (_ ∧ _))

variable {N : ℕ} {record : Arrivals ι} {c d : ι}

theorem complete_none : Complete N (none : Arrivals ι) c := .inl rfl

theorem not_current_none : ¬Current N (none : Arrivals ι) c := fun current =>
  absurd current.1 (lt_irrefl 0)

theorem Complete.not_current (complete : Complete N record c) : ¬Current N record c := by
  rintro ⟨called, current⟩
  exact (complete.resolve_left called.ne').ne current

section Arrive

variable [DecidableEq ι]

@[simp]
theorem count_arrive : (record.arrive c).count = record.count + 1 := rfl

@[simp]
theorem number_arrive_self : (record.arrive c).number c = record.count :=
  Function.update_self c _ _

@[simp]
theorem calls_arrive_self : (record.arrive c).calls c = record.calls c + 1 :=
  Function.update_self c _ _

theorem number_arrive_of_ne (other : d ≠ c) : (record.arrive c).number d = record.number d :=
  Function.update_of_ne other _ _

theorem calls_arrive_of_ne (other : d ≠ c) : (record.arrive c).calls d = record.calls d :=
  Function.update_of_ne other _ _

/-- A complete round stays complete when others arrive. -/
theorem Complete.arrive_of_ne (complete : Complete N record d) (other : d ≠ c) :
    Complete N (record.arrive c) d := by
  rw [Complete, number_arrive_of_ne other, calls_arrive_of_ne other]
  exact complete.imp_right fun before => before.trans_le (Nat.div_le_div_right (Nat.le_succ _))

/-- The last arrival of a round completes it. -/
theorem complete_arrive_self (last : record.count % N + 1 = N) :
    Complete N (record.arrive c) c := by
  refine .inr ?_
  rw [number_arrive_self, count_arrive, (div_succ_of_eq rfl last).1]
  exact Nat.lt_succ_self _

/-- Another arrival does not complete its round. -/
theorem current_arrive_self (more : record.count % N + 1 < N) : Current N (record.arrive c) c := by
  refine ⟨?_, ?_⟩
  · rw [calls_arrive_self]
    exact Nat.succ_pos _
  · rw [number_arrive_self, count_arrive, (div_succ_of_lt rfl more).1]

end Arrive

/-! ## As many callers as arrivals in a round -/

/-- Every caller has arrived once in every complete round, and at most once in the other
one. -/
structure InStep [Fintype ι] (N : ℕ) (record : Arrivals ι) : Prop where
  calls : ∀ c, record.calls c = record.count / N + if Current N record c then 1 else 0
  own : ∀ c, 0 < record.calls c → record.number c / N + 1 = record.calls c
  card : (Finset.univ.filter (Current N record)).card = record.count % N

theorem InStep.none [Fintype ι] : InStep N (none : Arrivals ι) where
  calls c := by
    rw [if_neg not_current_none, Nat.add_zero]
    exact (Nat.zero_div N).symm
  own c called := absurd called (lt_irrefl 0)
  card := by
    have nobody : Finset.univ.filter (Current N (Arrivals.none : Arrivals ι)) = ∅ :=
      Finset.filter_eq_empty_iff.mpr fun _ _ => not_current_none
    rw [nobody, Finset.card_empty, Arrivals.none, Nat.zero_mod]

/-- No caller is ahead of another one by more than the round that is not complete. -/
theorem InStep.calls_le [Fintype ι] (inStep : InStep N record) (c d : ι) :
    record.calls c ≤ record.calls d + if Current N record c then 1 else 0 := by
  rw [inStep.calls c, inStep.calls d, Nat.add_right_comm]
  exact Nat.le_add_right _ _

section Arrive

variable [DecidableEq ι] [Fintype ι]

/-- The rounds of the callers after an arrival are their calls. -/
theorem InStep.own_arrive (inStep : InStep N record) (complete : Complete N record c)
    (called : 0 < (record.arrive c).calls d) :
    (record.arrive c).number d / N + 1 = (record.arrive c).calls d := by
  rcases eq_or_ne d c with rfl | other
  · rw [number_arrive_self, calls_arrive_self, inStep.calls, if_neg complete.not_current,
      Nat.add_zero]
  · rw [calls_arrive_of_ne other] at called ⊢
    rw [number_arrive_of_ne other]
    exact inStep.own d called

/-- The callers of the round after an arrival. -/
theorem InStep.card_insert (inStep : InStep N record) (complete : Complete N record c) :
    (insert c (Finset.univ.filter (Current N record))).card = record.count % N + 1 := by
  rw [Finset.card_insert_of_notMem (by simpa using complete.not_current), inStep.card]

theorem InStep.arrive_of_lt (inStep : InStep N record) (complete : Complete N record c)
    (more : record.count % N + 1 < N) : InStep N (record.arrive c) := by
  obtain ⟨same, remainder⟩ := div_succ_of_lt rfl more
  have current : ∀ d, Current N (record.arrive c) d ↔ d = c ∨ Current N record d := by
    intro d
    rcases eq_or_ne d c with rfl | other
    · exact iff_of_true (current_arrive_self more) (.inl rfl)
    · rw [Current, calls_arrive_of_ne other, number_arrive_of_ne other, count_arrive, same]
      exact (or_iff_right other).symm
  refine ⟨fun d => ?_, fun d => inStep.own_arrive complete, ?_⟩
  · have before := inStep.calls d
    rw [count_arrive, same]
    rcases eq_or_ne d c with rfl | other
    · rw [if_neg complete.not_current] at before
      rw [calls_arrive_self, before, if_pos ((current d).mpr (.inl rfl))]
    · simpa only [calls_arrive_of_ne other, current, other, false_or] using before
  · have set : Finset.univ.filter (Current N (record.arrive c)) =
        insert c (Finset.univ.filter (Current N record)) := by
      ext d
      simp [current]
    rw [set, inStep.card_insert complete, count_arrive, remainder]

theorem InStep.arrive_of_eq (participants : Fintype.card ι = N) (inStep : InStep N record)
    (complete : Complete N record c) (last : record.count % N + 1 = N) :
    InStep N (record.arrive c) := by
  obtain ⟨next, remainder⟩ := div_succ_of_eq rfl last
  -- All callers have arrived in the round, and the last arrival starts a new one.
  have everyone : ∀ d, d ≠ c → Current N record d := by
    have whole : insert c (Finset.univ.filter (Current N record)) = Finset.univ :=
      Finset.eq_univ_of_card _
        ((inStep.card_insert complete).trans (last.trans participants.symm))
    intro d other
    have member : d ∈ insert c (Finset.univ.filter (Current N record)) := by
      rw [whole]
      exact Finset.mem_univ d
    simpa [other] using member
  have current : ∀ d, ¬Current N (record.arrive c) d := by
    intro d
    rcases eq_or_ne d c with rfl | other
    · exact (complete_arrive_self last).not_current
    · rintro ⟨-, same⟩
      rw [number_arrive_of_ne other, count_arrive, next, (everyone d other).2] at same
      exact absurd same (Nat.lt_succ_self _).ne
  refine ⟨fun d => ?_, fun d => inStep.own_arrive complete, ?_⟩
  · have before := inStep.calls d
    rw [count_arrive, next, if_neg (current d), Nat.add_zero]
    rcases eq_or_ne d c with rfl | other
    · rw [if_neg complete.not_current] at before
      rw [calls_arrive_self, before, Nat.add_zero]
    · rw [calls_arrive_of_ne other, before, if_pos (everyone d other)]
  · rw [count_arrive, remainder, Finset.card_eq_zero, Finset.filter_eq_empty_iff]
    exact fun d _ => current d

/-- **The callers stay in step.** -/
theorem InStep.arrive (participants : Fintype.card ι = N) (inStep : InStep N record)
    (complete : Complete N record c) : InStep N (record.arrive c) := by
  have positive : 0 < N := participants ▸ Fintype.card_pos_iff.mpr ⟨c⟩
  rcases Nat.lt_or_eq_of_le (Nat.mod_lt record.count positive) with more | last
  · exact inStep.arrive_of_lt complete more
  · exact inStep.arrive_of_eq participants complete last

end Arrive

end Arrivals

end Parallel
