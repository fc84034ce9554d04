import Mathlib.Algebra.Order.Ring.Nat
import Mathlib.Data.List.TakeWhile
import Mathlib.Tactic.Positivity
import ArgobotsReduction.Containers.FirstSeen

/-!
# The dump of all stacks

`print_all_thread_stacks` goes through the list of streams, collects the pools of their
main schedulers in a set, and prints the stacks of the work units in each of these pools.
The set is an array that doubles when it is full.

A stream is in the list before its main scheduler is set.  The loop skips such a stream
with a `continue` that leaves out the step to the next one, and so stays there.  It ends
if and only if there is no such stream, or an allocation fails first
(`dumpsAll_iff`).
-/

set_option autoImplicit false

namespace ArgobotsReduction.Streams.ThreadStacks

open Containers

universe u

variable {Pool : Type u}

/-! ## The set of pools -/

/-- The error codes -/
inductive Code where
  | success
  /-- `ABT_ERR_MEM` -/
  | mem
  /-- `ABT_ERR_POOL` -/
  | pool
  deriving DecidableEq

/-- `info_pool_set_t`: the pools, the length of the array, and how often it has been enlarged -/
structure PoolSet (Pool : Type u) where
  pools : List Pool
  len : ℕ
  grown : ℕ
  len_eq : len = 16 * 2 ^ grown
  num_le : pools.length ≤ len

/-- `info_initialize_pool_set`, after its allocation -/
def PoolSet.create : PoolSet Pool where
  pools := []
  len := 16
  grown := 0
  len_eq := rfl
  num_le := Nat.zero_le 16

/-- A longer array with the same pools -/
def PoolSet.realloc (set : PoolSet Pool) : PoolSet Pool where
  pools := set.pools
  len := set.len * 2
  grown := set.grown + 1
  len_eq := by rw [set.len_eq, pow_succ, Nat.mul_assoc]
  num_le := set.num_le.trans (Nat.le_mul_of_pos_right _ Nat.two_pos)

theorem PoolSet.realloc_room {set : PoolSet Pool} (full : set.pools.length = set.len) :
    set.realloc.pools.length < set.realloc.len := by
  have positive : 0 < set.len := by
    rw [set.len_eq]
    positivity
  show set.pools.length < set.len * 2
  omega

/-- A pool is stored behind the others. -/
def PoolSet.push (set : PoolSet Pool) (pool : Pool) (room : set.pools.length < set.len) :
    PoolSet Pool where
  pools := set.pools ++ [pool]
  len := set.len
  grown := set.grown
  len_eq := set.len_eq
  num_le := by
    rw [List.length_append]
    exact room

/-- `info_add_pool_set`.  There is an outcome for each reallocation. -/
def PoolSet.add [DecidableEq Pool] (reallocates : ℕ → Bool) (pool : Pool) (set : PoolSet Pool) :
    Except Code (PoolSet Pool) :=
  if pool ∈ set.pools then .ok set
  else if full : set.pools.length = set.len then
    if reallocates set.grown then .ok (set.realloc.push pool (realloc_room full))
    else .error .mem
  else .ok (set.push pool (Nat.lt_of_le_of_ne set.num_le full))

/-! ## The dump -/

/-- A stream with its rank, and with the pools of its main scheduler if that is set -/
structure Xstream (Pool : Type u) where
  rank : ℕ
  mainSched : Option (List Pool)

/-- What is printed -/
inductive Line (Pool : Type u) where
  | start
  | xstream (rank : ℕ)
  | mainSched (isSet : Bool)
  | schedPool (i : ℕ) (pool : Pool)
  | nullPool
  | pool (pool : Pool)
  /-- `p_print_all` prints the stacks of all units in the pool. -/
  | printAll (pool : Pool)
  | failed (code : Code)
  | finish
  deriving DecidableEq

/-- The variables of the dump: the set, and what has been printed -/
structure Dump (Pool : Type u) where
  set : PoolSet Pool
  lines : List (Line Pool)

def Dump.print (dump : Dump Pool) (lines : List (Line Pool)) : Dump Pool :=
  { dump with lines := dump.lines ++ lines }

section Code

variable [DecidableEq Pool]

/-- The loop over the pools of a main scheduler, from pool `i` on -/
def addPools (reallocates : ℕ → Bool) : ℕ → List Pool → Dump Pool → Code × Dump Pool
  | _, [], dump => (.success, dump)
  | i, pool :: pools, dump =>
      match dump.set.add reallocates pool with
      | .error code => (code, dump.print [.schedPool i pool])
      | .ok set => addPools reallocates (i + 1) pools ⟨set, dump.lines ++ [.schedPool i pool]⟩

/-- Some turns of the loop over the streams.  It returns nothing where it has not ended. -/
def xstreamLoop (reallocates : ℕ → Bool) :
    ℕ → List (Xstream Pool) → Dump Pool → Option (Code × Dump Pool)
  | 0, _, _ => none
  | _ + 1, [], dump => some (.success, dump)
  | turns + 1, xstream :: rest, dump =>
      let dump := dump.print [.xstream xstream.rank, .mainSched xstream.mainSched.isSome]
      match xstream.mainSched with
      | none => xstreamLoop reallocates turns (xstream :: rest) dump
      | some pools =>
          match addPools reallocates 0 pools dump with
          | (.success, dump) => xstreamLoop reallocates turns rest dump
          | (code, dump) => some (code, dump)

/-- `info_print_thread_stacks_in_pool`, with the pools that can print all their units -/
def printThreadStacksInPool (hasPrintAll : Pool → Bool) : Option Pool → Code × List (Line Pool)
  | none => (.success, [.nullPool])
  | some pool =>
      if hasPrintAll pool then (.success, [.pool pool, .printAll pool]) else (.pool, [])

/-- The body of the loop over the set -/
def printPool (hasPrintAll : Pool → Bool) (pool : Pool) : List (Line Pool) :=
  let (code, lines) := printThreadStacksInPool hasPrintAll (some pool)
  lines ++ if code ≠ .success then [.failed code] else []

/-- `print_all_thread_stacks`, with some turns of its loop.  The first outcome is that of the
allocation of the set. -/
def printAllThreadStacks (allocates : ℕ → Bool) (hasPrintAll : Pool → Bool) (turns : ℕ)
    (xstreams : List (Xstream Pool)) : Option (Code × List (Line Pool)) :=
  if allocates 0 = false then some (.mem, [])
  else
    match xstreamLoop (fun j => allocates (j + 1)) turns xstreams ⟨.create, [.start]⟩ with
    | none => none
    | some (.success, dump) =>
        some (.success, dump.lines ++ dump.set.pools.flatMap (printPool hasPrintAll) ++ [.finish])
    | some (code, dump) => some (code, dump.lines)

/-! ## What has to hold -/

/-- The pools of the main schedulers, stream by stream -/
def schedPools (xstreams : List (Xstream Pool)) : List Pool :=
  xstreams.flatMap fun xstream => xstream.mainSched.getD []

/-- What is printed about the streams -/
def listing (xstreams : List (Xstream Pool)) : List (Line Pool) :=
  xstreams.flatMap fun xstream =>
    [.xstream xstream.rank, .mainSched xstream.mainSched.isSome] ++
      (xstream.mainSched.getD []).mapIdx .schedPool

/-- The dump ends.  If memory can be allocated, it prints each pool once, in first-seen order. -/
structure DumpsAll (allocates : ℕ → Bool) (hasPrintAll : Pool → Bool)
    (xstreams : List (Xstream Pool)) : Prop where
  ends : ∃ turns, (printAllThreadStacks allocates hasPrintAll turns xstreams).isSome
  prints : (∀ k, allocates k = true) → ∃ turns, ∃ pools : List Pool,
    pools = (schedPools xstreams).eraseDups ∧ pools.Nodup ∧
      printAllThreadStacks allocates hasPrintAll turns xstreams =
        some (.success, .start :: listing xstreams ++ pools.flatMap (printPool hasPrintAll) ++
          [.finish])

/-- The main schedulers of all streams are set. -/
def AllSet (xstreams : List (Xstream Pool)) : Prop :=
  ∀ xstream ∈ xstreams, xstream.mainSched.isSome

/-- The streams in front of the first one without a main scheduler -/
def inFront (xstreams : List (Xstream Pool)) : List (Xstream Pool) :=
  xstreams.takeWhile fun xstream => xstream.mainSched.isSome

/-- An allocation fails that is made for the set, or for the pools of some streams. -/
def AllocationFails (allocates : ℕ → Bool) (xstreams : List (Xstream Pool)) : Prop :=
  allocates 0 = false ∨
    GrowthFails 16 (fun j => allocates (j + 1)) (schedPools xstreams).eraseDups.length

/-! ## The set and what it has seen -/

/-- The set has the pools it has been offered, and no reallocation has failed. -/
structure PoolSet.Sound (reallocates : ℕ → Bool) (seen : List Pool) (set : PoolSet Pool) :
    Prop where
  pools : set.pools = seen.eraseDups
  succeeded : ∀ j < set.grown, reallocates j = true

variable {reallocates : ℕ → Bool} {seen : List Pool}

theorem PoolSet.sound_create : (PoolSet.create : PoolSet Pool).Sound reallocates [] where
  pools := rfl
  succeeded _ before := absurd before (Nat.not_lt_zero _)

theorem PoolSet.Sound.not_growthFails {set : PoolSet Pool} (sound : set.Sound reallocates seen) :
    ¬ GrowthFails 16 reallocates seen.eraseDups.length := by
  refine Containers.not_growthFails ?_ sound.succeeded
  rw [← sound.pools, ← set.len_eq]
  exact set.num_le

theorem PoolSet.Sound.push {set : PoolSet Pool} (sound : set.Sound reallocates seen) {pool : Pool}
    (new : pool ∉ seen) (room : set.pools.length < set.len) :
    (set.push pool room).Sound reallocates (seen ++ [pool]) where
  pools := by
    rw [eraseDups_snoc_of_not_mem new, ← sound.pools]
    rfl
  succeeded := sound.succeeded

theorem PoolSet.Sound.realloc {set : PoolSet Pool} (sound : set.Sound reallocates seen)
    (succeeds : reallocates set.grown = true) : set.realloc.Sound reallocates seen where
  pools := sound.pools
  succeeded j before := by
    rcases Nat.lt_succ_iff_lt_or_eq.mp before with earlier | rfl
    · exact sound.succeeded j earlier
    · exact succeeds

/-- **The set has one more pool, or an allocation has failed that was needed.** -/
theorem PoolSet.Sound.add {set : PoolSet Pool} (sound : set.Sound reallocates seen) (pool : Pool) :
    (∃ next, set.add reallocates pool = .ok next ∧ next.Sound reallocates (seen ++ [pool])) ∨
      set.add reallocates pool = .error .mem ∧
        GrowthFails 16 reallocates (seen ++ [pool]).eraseDups.length := by
  unfold PoolSet.add
  by_cases old : pool ∈ seen
  · refine .inl ⟨set, if_pos ?_, ?_, sound.succeeded⟩
    · rw [sound.pools]
      exact List.mem_eraseDups.mpr old
    · rw [eraseDups_snoc_of_mem old]
      exact sound.pools
  have notIn : pool ∉ set.pools := by
    rw [sound.pools]
    exact fun inSet => old (List.mem_eraseDups.mp inSet)
  rw [if_neg notIn]
  by_cases full : set.pools.length = set.len
  · rw [dif_pos full]
    by_cases succeeds : reallocates set.grown = true
    · rw [if_pos succeeds]
      exact .inl ⟨_, rfl, (sound.realloc succeeds).push old _⟩
    · rw [if_neg succeeds]
      refine .inr ⟨rfl, set.grown, ?_, Bool.eq_false_iff.mpr succeeds⟩
      rw [eraseDups_snoc_of_not_mem old, ← sound.pools, ← set.len_eq, List.length_append, full]
      exact Nat.lt_succ_self _
  · rw [dif_neg full]
    exact .inl ⟨_, rfl, sound.push old _⟩

theorem addPools_spec (pools : List Pool) (dump : Dump Pool) (i : ℕ)
    (sound : dump.set.Sound reallocates seen) :
    (∃ next : Dump Pool, addPools reallocates i pools dump = (.success, next) ∧
        next.set.Sound reallocates (seen ++ pools) ∧
        next.lines = dump.lines ++ pools.mapIdx fun k => .schedPool (i + k)) ∨
      ∃ next, addPools reallocates i pools dump = (.mem, next) ∧
        GrowthFails 16 reallocates (seen ++ pools).eraseDups.length := by
  induction pools generalizing i seen dump with
  | nil => exact .inl ⟨dump, rfl, by rwa [List.append_nil], by simp⟩
  | cons pool pools ih =>
      have snoc : seen ++ pool :: pools = seen ++ [pool] ++ pools := by simp
      rw [addPools, snoc]
      rcases sound.add pool with ⟨set, added, soundSet⟩ | ⟨failed, fails⟩
      · rw [added]
        rcases ih ⟨set, dump.lines ++ [.schedPool i pool]⟩ (i + 1) soundSet with
          ⟨next, adds, soundNext, lines⟩ | failing
        · refine .inl ⟨next, adds, soundNext, ?_⟩
          rw [lines, List.append_assoc, List.mapIdx_cons]
          simp [Nat.add_assoc, Nat.add_comm 1]
        · exact .inr failing
      · rw [failed]
        exact .inr ⟨_, rfl, fails.mono (length_eraseDups_le_append _ _)⟩

/-! ## The loop over the streams -/

omit [DecidableEq Pool] in
theorem schedPools_cons_of_some {xstream : Xstream Pool} {pools : List Pool}
    (isSet : xstream.mainSched = some pools) (rest : List (Xstream Pool)) :
    schedPools (xstream :: rest) = pools ++ schedPools rest := by
  simp [schedPools, isSet]

/-- **The loop passes the streams in front, or an allocation has failed that was needed.** -/
theorem xstreamLoop_append {front : List (Xstream Pool)} (allSet : AllSet front)
    (more : List (Xstream Pool)) (dump : Dump Pool) (sound : dump.set.Sound reallocates seen) :
    (∃ next : Dump Pool, next.set.Sound reallocates (seen ++ schedPools front) ∧
        next.lines = dump.lines ++ listing front ∧
        ∀ turns, xstreamLoop reallocates (front.length + turns) (front ++ more) dump =
          xstreamLoop reallocates turns more next) ∨
      GrowthFails 16 reallocates (seen ++ schedPools front).eraseDups.length ∧
        ∃ next, ∀ turns, xstreamLoop reallocates (front.length + turns) (front ++ more) dump =
          some (.mem, next) := by
  induction front generalizing seen dump with
  | nil => exact .inl ⟨dump, by simpa [schedPools] using sound, by simp [listing], by simp⟩
  | cons xstream front ih =>
      obtain ⟨isSome, others⟩ := List.forall_mem_cons.mp allSet
      obtain ⟨pools, isSet⟩ := Option.isSome_iff_exists.mp isSome
      have turn (turns : ℕ) : (xstream :: front).length + turns = front.length + turns + 1 := by
        rw [List.length_cons]
        omega
      simp only [turn, List.cons_append, xstreamLoop, isSet, Option.isSome_some,
        schedPools_cons_of_some isSet, ← List.append_assoc]
      have soundPrint : (dump.print [.xstream xstream.rank, .mainSched true]).set.Sound
        reallocates seen := sound
      rcases addPools_spec pools _ 0 soundPrint with
        ⟨next, adds, soundNext, lines⟩ | ⟨next, fails, growth⟩
      · rw [adds]
        rcases ih others _ soundNext with ⟨last, soundLast, linesLast, passes⟩ | failing
        · refine .inl ⟨last, soundLast, ?_, passes⟩
          rw [linesLast, lines, Dump.print]
          simp [listing, isSet]
        · exact .inr failing
      · rw [fails]
        exact .inr ⟨growth.mono (length_eraseDups_le_append _ _), next, fun _ => rfl⟩

/-- The loop stays at a stream without a main scheduler. -/
theorem xstreamLoop_of_none {xstream : Xstream Pool} (notSet : xstream.mainSched = none)
    (rest : List (Xstream Pool)) (turns : ℕ) (dump : Dump Pool) :
    xstreamLoop reallocates turns (xstream :: rest) dump = none := by
  induction turns generalizing dump with
  | zero => rfl
  | succ turns ih =>
      simp only [xstreamLoop, notSet]
      exact ih _

/-- What has been returned does not depend on the turns that are left. -/
theorem xstreamLoop_mono {xstreams : List (Xstream Pool)} {turns : ℕ} {dump : Dump Pool}
    {result : Code × Dump Pool} (more : ℕ)
    (ended : xstreamLoop reallocates turns xstreams dump = some result) :
    xstreamLoop reallocates (more + turns) xstreams dump = some result := by
  induction turns generalizing xstreams dump with
  | zero => cases ended
  | succ turns ih =>
      rw [← Nat.add_assoc]
      cases xstreams with
      | nil => exact ended
      | cons xstream rest =>
          simp only [xstreamLoop] at ended ⊢
          cases isSet : xstream.mainSched with
          | none =>
              rw [isSet] at ended
              exact ih ended
          | some pools =>
              rw [isSet] at ended
              dsimp only at ended ⊢
              split at ended
              · exact ih ended
              · exact ended

omit [DecidableEq Pool] in
theorem allSet_inFront (xstreams : List (Xstream Pool)) : AllSet (inFront xstreams) := by
  intro xstream member
  exact List.all_eq_true.mp List.all_takeWhile xstream member

omit [DecidableEq Pool] in
theorem inFront_of_allSet {xstreams : List (Xstream Pool)} (allSet : AllSet xstreams) :
    inFront xstreams = xstreams :=
  List.takeWhile_eq_self_iff.mpr allSet

omit [DecidableEq Pool] in
/-- The first stream without a main scheduler -/
theorem exists_not_set {xstreams : List (Xstream Pool)} (notAll : ¬ AllSet xstreams) :
    ∃ xstream rest, xstreams = inFront xstreams ++ xstream :: rest ∧ xstream.mainSched = none := by
  have split : inFront xstreams ++ xstreams.dropWhile (fun xstream => xstream.mainSched.isSome) =
      xstreams := List.takeWhile_append_dropWhile
  cases behind : xstreams.dropWhile (fun xstream => xstream.mainSched.isSome) with
  | nil =>
      rw [behind, List.append_nil] at split
      exact absurd (split ▸ allSet_inFront xstreams) notAll
  | cons xstream rest =>
      rw [behind] at split
      refine ⟨xstream, rest, split.symm, ?_⟩
      have stops := List.head?_dropWhile_not (fun xstream => xstream.mainSched.isSome) xstreams
      rw [behind] at stops
      simpa using stops

variable {allocates : ℕ → Bool} {hasPrintAll : Pool → Bool} {xstreams : List (Xstream Pool)}

/-- **A failed allocation ends the dump.** -/
theorem ends_of_allocationFails (fails : AllocationFails allocates (inFront xstreams)) :
    ∃ turns, (printAllThreadStacks allocates hasPrintAll turns xstreams).isSome := by
  unfold printAllThreadStacks
  rcases fails with setFails | growth
  · exact ⟨0, by simp [setFails]⟩
  obtain ⟨rest, whole⟩ : inFront xstreams <+: xstreams := List.takeWhile_prefix _
  have passes := @xstreamLoop_append _ _ (fun j => allocates (j + 1)) [] _
    (allSet_inFront xstreams) rest ⟨.create, [.start]⟩ PoolSet.sound_create
  rw [whole] at passes
  rcases passes with ⟨next, sound, -⟩ | ⟨-, next, failed⟩
  · exact absurd growth sound.not_growthFails
  · refine ⟨(inFront xstreams).length + 0, ?_⟩
    rw [failed 0]
    split_ifs <;> rfl

/-- **The dump prints every pool once where all main schedulers are set.** -/
theorem printAllThreadStacks_of_allSet (allSet : AllSet xstreams)
    (succeeds : ¬ AllocationFails allocates xstreams) :
    printAllThreadStacks allocates hasPrintAll (xstreams.length + 1) xstreams =
      some (.success, .start :: listing xstreams ++
        (schedPools xstreams).eraseDups.flatMap (printPool hasPrintAll) ++ [.finish]) := by
  obtain ⟨setSucceeds, noGrowth⟩ := not_or.mp succeeds
  have passes := @xstreamLoop_append _ _ (fun j => allocates (j + 1)) [] _ allSet []
    ⟨.create, [.start]⟩ PoolSet.sound_create
  rw [List.append_nil, List.nil_append] at passes
  obtain ⟨next, sound, lines, passes⟩ := passes.resolve_right fun failing => noGrowth failing.1
  rw [printAllThreadStacks, if_neg setSucceeds, passes 1]
  simp [xstreamLoop, lines, sound.pools]

/-- The dump does not end at a stream without a main scheduler. -/
theorem allocationFails_of_ends (notAll : ¬ AllSet xstreams) {turns : ℕ}
    (ends : (printAllThreadStacks allocates hasPrintAll turns xstreams).isSome) :
    AllocationFails allocates (inFront xstreams) := by
  by_contra succeeds
  obtain ⟨setSucceeds, noGrowth⟩ := not_or.mp succeeds
  obtain ⟨xstream, rest, whole, notSet⟩ := exists_not_set notAll
  have passes := @xstreamLoop_append _ _ (fun j => allocates (j + 1)) [] _
    (allSet_inFront xstreams) (xstream :: rest) ⟨.create, [.start]⟩ PoolSet.sound_create
  rw [List.nil_append, ← whole] at passes
  obtain ⟨next, -, -, passes⟩ := passes.resolve_right fun failing => noGrowth failing.1
  rw [printAllThreadStacks, if_neg setSucceeds] at ends
  cases loop : xstreamLoop (fun j => allocates (j + 1)) turns xstreams ⟨.create, [.start]⟩ with
  | none =>
      rw [loop] at ends
      cases ends
  | some result =>
      have later := xstreamLoop_mono (inFront xstreams).length loop
      rw [passes turns, xstreamLoop_of_none notSet] at later
      cases later

/-- **The dump ends and prints every pool once if and only if all main schedulers are set, or an
allocation fails for the streams in front of the first one without.** -/
theorem dumpsAll_iff (allocates : ℕ → Bool) (hasPrintAll : Pool → Bool)
    (xstreams : List (Xstream Pool)) :
    DumpsAll allocates hasPrintAll xstreams ↔
      AllSet xstreams ∨ AllocationFails allocates (inFront xstreams) := by
  have noFailure (succeed : ∀ k, allocates k = true) (front : List (Xstream Pool)) :
      ¬ AllocationFails allocates front := by
    rintro (failed | ⟨j, -, failed⟩)
    · rw [succeed] at failed
      cases failed
    · dsimp only at failed
      rw [succeed] at failed
      cases failed
  constructor
  · intro dumps
    by_cases allSet : AllSet xstreams
    · exact .inl allSet
    · obtain ⟨turns, ends⟩ := dumps.ends
      exact .inr (allocationFails_of_ends allSet ends)
  · rintro (allSet | fails)
    · refine ⟨?_, fun succeed => ⟨xstreams.length + 1, _, rfl, nodup_eraseDups _,
        printAllThreadStacks_of_allSet allSet (noFailure succeed xstreams)⟩⟩
      by_cases fails : AllocationFails allocates xstreams
      · exact ends_of_allocationFails ((inFront_of_allSet allSet).symm ▸ fails)
      · exact ⟨_, Option.isSome_iff_exists.mpr
          ⟨_, printAllThreadStacks_of_allSet allSet fails⟩⟩
    · exact ⟨ends_of_allocationFails fails, fun succeed => absurd fails (noFailure succeed _)⟩

/-- A stream has just been created. -/
theorem not_dumpsAll :
    ¬ DumpsAll (fun _ => true) (fun _ : ℕ => true) [⟨0, some [0]⟩, ⟨1, none⟩] := by
  intro dumps
  obtain ⟨turns, ends⟩ := dumps.ends
  have notAll : ¬ AllSet [(⟨0, some [0]⟩ : Xstream ℕ), ⟨1, none⟩] := by
    intro allSet
    have isSome := allSet ⟨1, none⟩ (by simp)
    cases isSome
  rcases allocationFails_of_ends notAll ends with failed | ⟨j, -, failed⟩
  · cases failed
  · cases failed

end Code

end ArgobotsReduction.Streams.ThreadStacks
