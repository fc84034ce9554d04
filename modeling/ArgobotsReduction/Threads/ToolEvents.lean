import Mathlib.Algebra.Group.Nat.Defs
import Mathlib.Data.Nat.Bitwise
import Mathlib.Logic.Function.Basic
import ArgobotsReduction.Parallel.Machine

/-!
# The callback of the tool interface

A tool registers a function, an argument and a mask of events.  The three values are stored
one by one, under a lock that keeps other writers out, and are read without it.  The word of
the mask has a tag in its upper half, which counts the updates modulo `2 ^ 20`, and a bit that is
set while an update is in progress.  A reader loads the word, the function and the argument, and
starts again when the word has changed or has the bit.

Each access to a shared variable is one turn.  Fewer than `2 ^ 20` updates may begin while a
reader is between its two loads of the word, since otherwise the tag may come back.  Then a
reader never mixes two updates.  What it calls has been registered for the event, by an update
that had not been replaced when the event began (`event_consistent`).
-/

set_option autoImplicit false

namespace ArgobotsReduction.Threads.ToolEvents

open Parallel

universe u v w

/-! ## The word -/

/-- `ABTI_TOOL_EVENT_TAG_SIZE` -/
def tagSize : ℕ := 20

/-- `ABTI_TOOL_EVENT_TAG_MASK` -/
def tagMask : ℕ := (1 <<< tagSize - 1) <<< (64 - 1 - tagSize)

/-- `ABTI_TOOL_EVENT_TAG_INC` -/
def tagInc : ℕ := 1 <<< (64 - 1 - tagSize)

/-- `ABTI_TOOL_EVENT_TAG_DIRTY_BIT` -/
def dirtyBit : ℕ := 1 <<< (64 - 1)

/-- `ABT_TOOL_EVENT_THREAD_NONE` -/
def threadNone : ℕ := 0

/-- `ABT_TOOL_EVENT_THREAD_ALL` -/
def threadAll : ℕ := 1 <<< 12 - 1

/-- `new_mask`, from the word that is loaded.  The complement is one of 64 bits. -/
def newMask (current eventMask : ℕ) : ℕ :=
  ((current + tagInc) % 2 ^ 64 &&& tagMask) |||
    (eventMask &&& threadAll &&& (2 ^ 64 - 1 - dirtyBit))

/-- `dirty_mask` -/
def dirtyMask (current eventMask : ℕ) : ℕ := dirtyBit ||| newMask current eventMask

/-- The word after so many updates, between two of them -/
def word (count mask : ℕ) : ℕ := (count % 2 ^ 20) <<< 43 ||| mask

theorem and_tagMask (n : ℕ) : n &&& tagMask = (n / 2 ^ 43 % 2 ^ 20) <<< 43 := by
  have mask : tagMask = (2 ^ 20 - 1) <<< 43 := by decide
  apply Nat.eq_of_testBit_eq
  intro i
  rw [mask, Nat.testBit_and, Nat.testBit_shiftLeft, Nat.testBit_shiftLeft,
    Nat.testBit_two_pow_sub_one, Nat.testBit_mod_two_pow, Nat.testBit_div_two_pow]
  by_cases upper : 43 ≤ i
  · rw [Nat.sub_add_cancel upper]
    simp [upper, Bool.and_comm]
  · simp [upper]

theorem and_threadAll (n : ℕ) : n &&& threadAll = n % 2 ^ 12 := by
  have mask : threadAll = 2 ^ 12 - 1 := by decide
  rw [mask, Nat.and_two_pow_sub_one_eq_mod]

theorem and_dirtyBit (n : ℕ) : n &&& dirtyBit = (n.testBit 63).toNat * 2 ^ 63 := by
  have bit : dirtyBit = 2 ^ 63 := by decide
  rw [bit, Nat.and_two_pow]

/-- The bits of an update that are stored -/
theorem and_notDirtyBit (n : ℕ) :
    n &&& threadAll &&& (2 ^ 64 - 1 - dirtyBit) = n &&& threadAll := by
  have mask : 2 ^ 64 - 1 - dirtyBit = 2 ^ 63 - 1 := by decide
  have small : n % 2 ^ 12 < 2 ^ 63 := (Nat.mod_lt _ (Nat.two_pow_pos _)).trans (by decide)
  rw [mask, and_threadAll, Nat.and_two_pow_sub_one_eq_mod, Nat.mod_eq_of_lt small]

variable {count mask : ℕ}

theorem word_eq_add (small : mask < 2 ^ 43) : word count mask = count % 2 ^ 20 * 2 ^ 43 + mask := by
  rw [word, ← Nat.shiftLeft_add_eq_or_of_lt small, Nat.shiftLeft_eq]

theorem word_lt (small : mask < 2 ^ 43) : word count mask < 2 ^ 63 := by
  rw [word_eq_add small]
  omega

/-- **An update counts one on, and takes over the mask.** -/
theorem newMask_word (small : mask < 2 ^ 43) (eventMask : ℕ) :
    newMask (word count mask) eventMask = word (count + 1) (eventMask &&& threadAll) := by
  have inc : tagInc = 2 ^ 43 := by decide
  have tag : (word count mask + tagInc) % 2 ^ 64 / 2 ^ 43 % 2 ^ 20 = (count + 1) % 2 ^ 20 := by
    rw [word_eq_add small, inc]
    omega
  rw [newMask, and_tagMask, and_notDirtyBit, tag, word]

theorem threadAll_small (n : ℕ) : n &&& threadAll < 2 ^ 43 := by
  rw [and_threadAll]
  exact (Nat.mod_lt _ (Nat.two_pow_pos _)).trans (by decide)

/-- Between two updates the bit is not set. -/
theorem word_clean (small : mask < 2 ^ 43) : word count mask &&& dirtyBit = 0 := by
  rw [and_dirtyBit, Nat.testBit_lt_two_pow (word_lt small), Bool.toNat_false, Nat.zero_mul]

theorem dirtyMask_dirty (current eventMask : ℕ) : dirtyMask current eventMask &&& dirtyBit ≠ 0 := by
  have bit : dirtyBit = 2 ^ 63 := by decide
  rw [and_dirtyBit, dirtyMask, Nat.testBit_or, bit, Nat.testBit_two_pow_self, Bool.true_or]
  decide

/-- The tag does not look like an event. -/
theorem word_and_event {event : ℕ} (code : event &&& threadAll = event) :
    word count mask &&& event = mask &&& event := by
  apply Nat.eq_of_testBit_eq
  intro i
  rw [word, Nat.testBit_and, Nat.testBit_and, Nat.testBit_or, Nat.testBit_shiftLeft]
  by_cases upper : 43 ≤ i
  · have none : event.testBit i = false := by
      apply Nat.testBit_lt_two_pow
      exact (code ▸ threadAll_small event).trans_le (Nat.pow_le_pow_right Nat.two_pos upper)
    rw [none, Bool.and_false, Bool.and_false]
  · simp [upper]

/-- Two words of the same tag, fewer than `2 ^ 20` updates apart, are of one update. -/
theorem count_eq_of_word_eq {count' mask' : ℕ} (small : mask < 2 ^ 43) (small' : mask' < 2 ^ 43)
    (later : count ≤ count') (few : count' < count + 2 ^ 20)
    (same : word count mask = word count' mask') : count = count' := by
  rw [word_eq_add small, word_eq_add small'] at same
  omega

/-! ## Writers and readers -/

variable {F : Type u} {A : Type v}

/-- The values of one update.  A null pointer is `none`. -/
structure Update (F : Type u) (A : Type v) where
  callback : Option F
  mask : ℕ
  arg : Option A
  deriving DecidableEq

/-- `ABT_tool_register_thread_callback`, up to the update.  `ABT_finalize` updates with no callback
and no event. -/
def register (callback : Option F) (eventMask : ℕ) (arg : Option A) : Update F A :=
  { callback := callback
    mask := (if callback.isNone then threadNone else eventMask) &&& threadAll
    arg := arg }

/-- What readers rely on.  No function means no event. -/
structure Update.Valid (update : Update F A) : Prop where
  mask : update.mask &&& threadAll = update.mask
  callback : update.callback = none → update.mask = 0

theorem register_valid (callback : Option F) (eventMask : ℕ) (arg : Option A) :
    (register callback eventMask arg).Valid where
  mask := by
    rw [register, Nat.and_assoc, Nat.and_self]
  callback none := by
    obtain rfl : callback = Option.none := none
    exact Nat.zero_and _

/-- `tool_writer_lock` with the caller that holds it, `tool_thread_event_mask_tagged`,
`tool_thread_cb_f` and `tool_thread_user_arg`, and the updates that have begun so far. -/
structure Shared (ι : Type w) (F : Type u) (A : Type v) where
  lock : Option ι
  tagged : ℕ
  callback : Option F
  arg : Option A
  updates : List (Update F A)
  deriving DecidableEq

/-- The places of `ABTI_tool_event_thread_update_callback` and of `ABTI_tool_event_thread`.  A
reader keeps how many updates were complete when its event began (`since`), and how many had begun
when it loaded the word (`seen`). -/
inductive Place (F : Type u) (A : Type v) where
  | outside
  | acquires (update : Update F A)
  | loads (update : Update F A)
  | marks (update : Update F A) (current : ℕ)
  | storesCallback (update : Update F A) (new : ℕ)
  | storesArg (update : Update F A) (new : ℕ)
  | publishes (update : Update F A) (new : ℕ)
  | releases
  | reads (event since : ℕ)
  | loadsCallback (event since mask seen : ℕ)
  | loadsArg (event since mask seen : ℕ) (callback : Option F)
  | checks (event since mask seen : ℕ) (callback : Option F) (arg : Option A)
  | calls (event since seen : ℕ) (callback : Option F) (arg : Option A)
  deriving DecidableEq

/-- What a caller begins outside. -/
inductive Choice (F : Type u) (A : Type v) where
  | update (callback : Option F) (eventMask : ℕ) (arg : Option A)
  | event (code : ℕ)
  | goOn

variable {ι : Type w}

namespace Shared

/-- The updates that are complete -/
def complete (s : Shared ι F A) : ℕ :=
  if s.tagged &&& dirtyBit = 0 then s.updates.length else s.updates.length - 1

/-- The newest update -/
def newest (s : Shared ι F A) : Update F A := s.updates.getLastD ⟨none, threadNone, none⟩

end Shared

/-- A turn.  The codes of the events are bits of `threadAll`. -/
def turn (c : ι) (choice : Choice F A) (s : Shared ι F A) :
    Place F A → Option (Shared ι F A × Place F A)
  | .outside =>
      match choice with
      | .update callback eventMask arg => some (s, .acquires (register callback eventMask arg))
      | .event code =>
          if code &&& threadAll = code then some (s, .reads code s.complete) else none
      | .goOn => none
  | .acquires update =>
      if s.lock = none then some ({ s with lock := some c }, .loads update) else none
  | .loads update => some (s, .marks update s.tagged)
  | .marks update current =>
      some ({ s with
        tagged := dirtyMask current update.mask
        updates := s.updates ++ [update] }, .storesCallback update (newMask current update.mask))
  | .storesCallback update new =>
      some ({ s with callback := update.callback }, .storesArg update new)
  | .storesArg update new => some ({ s with arg := update.arg }, .publishes update new)
  | .publishes _ new => some ({ s with tagged := new }, .releases)
  | .releases => some ({ s with lock := none }, .outside)
  | .reads event since =>
      if s.tagged &&& event ≠ 0 then
        some (s, .loadsCallback event since s.tagged s.updates.length)
      else some (s, .outside)
  | .loadsCallback event since mask seen =>
      some (s, .loadsArg event since mask seen s.callback)
  | .loadsArg event since mask seen callback =>
      some (s, .checks event since mask seen callback s.arg)
  | .checks event since mask seen callback arg =>
      if mask ≠ s.tagged ∨ mask &&& dirtyBit ≠ 0 then some (s, .reads event since)
      else some (s, .calls event since seen callback arg)
  | .calls .. => some (s, .outside)

/-- Updates and events, again and again -/
def calls (ι : Type w) [DecidableEq ι] (F : Type u) (A : Type v) :
    Callers ι (Shared ι F A) (Place F A) (Choice F A) where
  turn c choice s place := turn c choice s place

/-- `init_library` -/
def Begins (world : World ι (Shared ι F A) (Place F A)) : Prop :=
  world.shared = ⟨none, 0, none, none, []⟩ ∧ ∀ c, world.place c = .outside

/-- The interface with its callers -/
def interface (ι : Type w) [DecidableEq ι] (F : Type u) (A : Type v) :
    Machine (World ι (Shared ι F A) (Place F A)) (ι × Choice F A) :=
  (calls ι F A).machine Begins

/-- Fewer than `2 ^ 20` updates have begun since a reader loaded the word. -/
def Place.Few (updates : ℕ) : Place F A → Prop
  | .checks _ _ _ seen _ _ => updates < seen + 2 ^ 20
  | _ => True

/-- Fewer than `2 ^ 20` updates begin between the two loads of a reader. -/
def FewUpdates (world : World ι (Shared ι F A) (Place F A)) (event : ι × Choice F A) : Prop :=
  (world.place event.1).Few world.shared.updates.length

instance (updates : ℕ) : (place : Place F A) → Decidable (place.Few updates)
  | .checks _ _ _ seen _ _ => inferInstanceAs (Decidable (updates < seen + 2 ^ 20))
  | .outside | .acquires _ | .loads _ | .marks .. | .storesCallback .. | .storesArg ..
  | .publishes .. | .releases | .reads .. | .loadsCallback .. | .loadsArg .. | .calls .. =>
      .isTrue trivial

instance (world : World ι (Shared ι F A) (Place F A)) (event : ι × Choice F A) :
    Decidable (FewUpdates world event) :=
  inferInstanceAs (Decidable ((world.place event.1).Few world.shared.updates.length))

/-! ## Assertions -/

/-- The word between two updates -/
def Shared.cleanWord (s : Shared ι F A) : ℕ := word s.updates.length s.newest.mask

/-- No update is in progress. -/
structure Clean (s : Shared ι F A) : Prop where
  tagged : s.tagged = s.cleanWord
  callback : s.callback = s.newest.callback
  arg : s.arg = s.newest.arg

/-- No update is in progress when the bit is not set or the lock is free. -/
structure Global (s : Shared ι F A) : Prop where
  valid : ∀ update ∈ s.updates, update.Valid
  clean : s.tagged &&& dirtyBit = 0 → Clean s
  free : s.lock = none → Clean s

/-- The caller has stored the word of its update, with the bit. -/
structure Marked (c : ι) (s : Shared ι F A) (update : Update F A) (new : ℕ) : Prop where
  holds : s.lock = some c
  newest : s.newest = update
  dirty : s.tagged &&& dirtyBit ≠ 0
  unmarked : new = s.cleanWord

/-- The reader has loaded a word after `seen` updates.  What it has loaded since then is of the
last of these, unless another update has begun. -/
structure Reading (s : Shared ι F A) (event since mask seen : ℕ) (loaded : Update F A → Prop) :
    Prop where
  code : event &&& threadAll = event
  begun : since ≤ seen
  still : since ≤ s.complete
  sofar : seen ≤ s.updates.length
  clean : mask &&& dirtyBit = 0 → 0 < seen ∧ seen ≤ s.complete ∧
    ∃ update, s.updates[seen - 1]? = some update ∧ mask = word seen update.mask ∧
      mask &&& event ≠ 0 ∧ (seen = s.updates.length → loaded update)

/-- What a caller knows at its place -/
def Knows (c : ι) (s : Shared ι F A) : Place F A → Prop
  | .outside => True
  | .acquires update => update.Valid
  | .loads update => update.Valid ∧ s.lock = some c ∧ Clean s
  | .marks update current => update.Valid ∧ s.lock = some c ∧ Clean s ∧ current = s.cleanWord
  | .storesCallback update new => Marked c s update new
  | .storesArg update new => Marked c s update new ∧ s.callback = update.callback
  | .publishes update new =>
      Marked c s update new ∧ s.callback = update.callback ∧ s.arg = update.arg
  | .releases => s.lock = some c ∧ Clean s
  | .reads event since => event &&& threadAll = event ∧ since ≤ s.complete
  | .loadsCallback event since mask seen => Reading s event since mask seen fun _ => True
  | .loadsArg event since mask seen callback =>
      Reading s event since mask seen fun update => callback = update.callback
  | .checks event since mask seen callback arg =>
      Reading s event since mask seen fun update =>
        callback = update.callback ∧ arg = update.arg
  | .calls event since seen callback arg =>
      since ≤ seen ∧ 0 < seen ∧ ∃ update, s.updates[seen - 1]? = some update ∧
        callback = update.callback ∧ arg = update.arg ∧ update.mask &&& event ≠ 0

section Assertions

variable {s t : Shared ι F A} {c d : ι} {update : Update F A}

theorem Global.newest_valid (fine : Global s) : s.newest.Valid := by
  have member : s.newest ∈ ⟨none, threadNone, none⟩ :: s.updates := List.getLastD_mem_cons
  rcases List.mem_cons.mp member with first | registered
  · rw [first]
    exact ⟨Nat.zero_and _, fun _ => rfl⟩
  · exact fine.valid _ registered

theorem Update.Valid.small (valid : update.Valid) : update.mask < 2 ^ 43 :=
  valid.mask ▸ threadAll_small update.mask

theorem Clean.lock (clean : Clean s) (lock : Option ι) : Clean { s with lock := lock } :=
  ⟨clean.tagged, clean.callback, clean.arg⟩

theorem Clean.not_dirty (clean : Clean s) (fine : Global s) : s.tagged &&& dirtyBit = 0 := by
  rw [clean.tagged]
  exact word_clean fine.newest_valid.small

theorem Shared.getElem?_newest (nonempty : s.updates ≠ []) :
    s.updates[s.updates.length - 1]? = some s.newest := by
  rw [← List.getLast?_eq_getElem?, Shared.newest, List.getLastD_eq_getLast?,
    List.getLast?_eq_some_getLast nonempty, Option.getD_some]

theorem Shared.complete_of_clean (clean : s.tagged &&& dirtyBit = 0) :
    s.complete = s.updates.length := if_pos clean

theorem Shared.complete_of_dirty (dirty : s.tagged &&& dirtyBit ≠ 0) :
    s.complete = s.updates.length - 1 := if_neg dirty

theorem Shared.complete_le : s.complete ≤ s.updates.length := by
  rw [Shared.complete]
  split
  · exact le_rfl
  · exact Nat.sub_le _ _

/-! ### What the turns of others leave -/

/-- What another caller may have done.  Nothing changes for the caller that has the lock. -/
structure Extends (d : ι) (s t : Shared ι F A) : Prop where
  holder : s.lock = some d → t = s
  updates : s.updates <+: t.updates
  complete : s.complete ≤ t.complete

theorem Extends.refl (d : ι) (s : Shared ι F A) : Extends d s s :=
  ⟨fun _ => rfl, List.prefix_rfl, le_rfl⟩

/-- A write of the caller that has the lock -/
theorem Extends.of_holder (holds : s.lock = some c) (other : d ≠ c)
    (updates : s.updates <+: t.updates) (complete : s.complete ≤ t.complete) : Extends d s t :=
  ⟨fun mine => absurd (Option.some.inj (mine.symm.trans holds)) other, updates, complete⟩

theorem Extends.getElem? (extended : Extends d s t) {i : ℕ} {update : Update F A}
    (there : s.updates[i]? = some update) : t.updates[i]? = some update := by
  obtain ⟨more, whole⟩ := extended.updates
  rw [← whole, List.getElem?_append_left (List.getElem?_eq_some_iff.mp there).1]
  exact there

theorem Reading.extend {event since mask seen : ℕ} {loaded : Update F A → Prop}
    (reading : Reading s event since mask seen loaded) (extended : Extends d s t) :
    Reading t event since mask seen loaded where
  code := reading.code
  begun := reading.begun
  still := reading.still.trans extended.complete
  sofar := reading.sofar.trans extended.updates.length_le
  clean notDirty := by
    obtain ⟨positive, complete, update, there, same, enabled, current⟩ := reading.clean notDirty
    refine ⟨positive, complete.trans extended.complete, update, extended.getElem? there, same,
      enabled, fun last => current ?_⟩
    exact le_antisymm reading.sofar (extended.updates.length_le.trans last.ge)

/-- **What a caller knows is kept by the turns of others.** -/
theorem Knows.extend {place : Place F A} (known : Knows d s place) (extended : Extends d s t) :
    Knows d t place := by
  cases place with
  | outside | acquires => exact known
  | loads =>
      obtain rfl := extended.holder known.2.1
      exact known
  | marks =>
      obtain rfl := extended.holder known.2.1
      exact known
  | storesCallback =>
      obtain rfl := extended.holder known.holds
      exact known
  | storesArg =>
      obtain rfl := extended.holder known.1.holds
      exact known
  | publishes =>
      obtain rfl := extended.holder known.1.holds
      exact known
  | releases =>
      obtain rfl := extended.holder known.1
      exact known
  | reads => exact ⟨known.1, known.2.trans extended.complete⟩
  | loadsCallback | loadsArg | checks => exact Reading.extend known extended
  | calls =>
      obtain ⟨begun, positive, update, there, rest⟩ := known
      exact ⟨begun, positive, update, extended.getElem? there, rest⟩

/-! ### What a turn does -/

/-- A turn leaves what all rely on, and what is known at the next place. -/
def Keeps (c : ι) (s t : Shared ι F A) (place : Place F A) : Prop :=
  Global t ∧ Knows c t place ∧ ∀ d, d ≠ c → Extends d s t

/-- A turn that only reads -/
theorem Keeps.same (fine : Global s) {place : Place F A} (known : Knows c s place) :
    Keeps c s s place := ⟨fine, known, fun d _ => .refl d s⟩

/-- **The word is marked, and the update has begun.** -/
theorem Keeps.mark (fine : Global s) (valid : update.Valid) (holds : s.lock = some c)
    (clean : Clean s) :
    Keeps c s { s with
      tagged := dirtyMask s.cleanWord update.mask
      updates := s.updates ++ [update] }
      (.storesCallback update (newMask s.cleanWord update.mask)) := by
  have dirty := dirtyMask_dirty s.cleanWord update.mask
  have newest : (s.updates ++ [update]).getLastD ⟨none, threadNone, none⟩ = update :=
    List.getLastD_concat
  refine ⟨⟨?_, fun notDirty => absurd notDirty dirty, ?_⟩, ⟨holds, newest, dirty, ?_⟩, ?_⟩
  · intro other member
    rcases List.mem_append.mp member with old | new
    · exact fine.valid other old
    · obtain rfl := List.mem_singleton.mp new
      exact valid
  · intro free
    rw [holds] at free
    cases free
  · rw [Shared.cleanWord, newMask_word fine.newest_valid.small, valid.mask, Shared.cleanWord]
    show _ = word (s.updates ++ [update]).length (Update.mask (List.getLastD _ _))
    rw [newest, List.length_append, List.length_singleton]
  · intro d other
    refine .of_holder holds other (List.prefix_append _ _) ?_
    rw [Shared.complete_of_clean (clean.not_dirty fine), Shared.complete_of_dirty dirty,
      List.length_append, List.length_singleton, Nat.add_sub_cancel]

/-- A store of the function or of the argument, while the word is marked -/
theorem Keeps.store (fine : Global s) {new : ℕ} (marked : Marked c s update new)
    (lock : t.lock = s.lock) (tagged : t.tagged = s.tagged) (updates : t.updates = s.updates)
    {place : Place F A} (known : Marked c t update new → Knows c t place) : Keeps c s t place := by
  have newest : t.newest = s.newest := by rw [Shared.newest, Shared.newest, updates]
  have dirty : t.tagged &&& dirtyBit ≠ 0 := tagged ▸ marked.dirty
  refine ⟨⟨updates ▸ fine.valid, fun clean => absurd clean dirty, fun free => ?_⟩, known ?_, ?_⟩
  · rw [lock, marked.holds] at free
    cases free
  · refine ⟨lock.trans marked.holds, newest.trans marked.newest, dirty, ?_⟩
    rw [Shared.cleanWord, updates, newest]
    exact marked.unmarked
  · intro d other
    refine .of_holder marked.holds other (updates ▸ List.prefix_rfl) ?_
    rw [Shared.complete, Shared.complete, tagged, updates]

/-- **The word is stored without the bit, and the update is complete.** -/
theorem Keeps.publish (fine : Global s) {new : ℕ} (marked : Marked c s update new)
    (callback : s.callback = update.callback) (arg : s.arg = update.arg) :
    Keeps c s { s with tagged := new } .releases := by
  have clean : Clean { s with tagged := new } :=
    ⟨marked.unmarked, callback.trans (congrArg Update.callback marked.newest.symm),
      arg.trans (congrArg Update.arg marked.newest.symm)⟩
  have global : Global { s with tagged := new } := ⟨fine.valid, fun _ => clean, fun _ => clean⟩
  refine ⟨global, ⟨marked.holds, clean⟩, fun d other => ?_⟩
  refine .of_holder marked.holds other List.prefix_rfl ?_
  rw [Shared.complete_of_clean (clean.not_dirty global)]
  exact Shared.complete_le

/-- **The first load of the word.** A word without the bit is that of the newest update, which is
not the state before all updates, since that has no event. -/
theorem Reading.load (fine : Global s) {event since : ℕ} (code : event &&& threadAll = event)
    (still : since ≤ s.complete) (enabled : s.tagged &&& event ≠ 0) :
    Reading s event since s.tagged s.updates.length fun _ => True where
  code := code
  begun := still.trans Shared.complete_le
  still := still
  sofar := le_rfl
  clean notDirty := by
    have tagged := (fine.clean notDirty).tagged
    have nonempty : s.updates ≠ [] := by
      intro none
      rw [tagged, Shared.cleanWord, word_and_event code, Shared.newest, none] at enabled
      exact enabled (Nat.zero_and _)
    exact ⟨List.length_pos_iff.mpr nonempty, (Shared.complete_of_clean notDirty).ge, s.newest,
      Shared.getElem?_newest nonempty, tagged, enabled, fun _ => trivial⟩

/-- **The other loads.** As long as no other update has begun, the values are those of the newest
one, which is complete. -/
theorem Reading.next (fine : Global s) {event since mask seen : ℕ}
    {loaded more : Update F A → Prop} (reading : Reading s event since mask seen loaded)
    (gives : Clean s → loaded s.newest → more s.newest) :
    Reading s event since mask seen more where
  code := reading.code
  begun := reading.begun
  still := reading.still
  sofar := reading.sofar
  clean notDirty := by
    obtain ⟨positive, complete, update, there, same, enabled, current⟩ := reading.clean notDirty
    refine ⟨positive, complete, update, there, same, enabled, fun last => ?_⟩
    have nonempty : s.updates ≠ [] := List.length_pos_iff.mp (last ▸ positive)
    obtain rfl : s.newest = update := by
      rw [last, Shared.getElem?_newest nonempty] at there
      exact Option.some.inj there
    have clean : s.tagged &&& dirtyBit = 0 := by
      by_contra dirty
      rw [Shared.complete_of_dirty dirty] at complete
      omega
    exact gives (fine.clean clean) (current last)

/-- **The second load of the word.** The same word without the bit means the same update. -/
theorem Reading.check (fine : Global s) {event since mask seen : ℕ} {loaded : Update F A → Prop}
    (reading : Reading s event since mask seen loaded) (few : s.updates.length < seen + 2 ^ 20)
    (same : mask = s.tagged) (notDirty : mask &&& dirtyBit = 0) :
    since ≤ seen ∧ 0 < seen ∧ ∃ update, s.updates[seen - 1]? = some update ∧ loaded update ∧
      update.mask &&& event ≠ 0 := by
  obtain ⟨positive, -, update, there, tagged, enabled, current⟩ := reading.clean notDirty
  have valid := fine.valid update (List.mem_of_getElem? there)
  have last : seen = s.updates.length := by
    refine count_eq_of_word_eq valid.small fine.newest_valid.small reading.sofar few ?_
    exact tagged.symm.trans (same.trans (fine.clean (same ▸ notDirty)).tagged)
  refine ⟨reading.begun, positive, update, there, current last, ?_⟩
  rwa [tagged, word_and_event reading.code] at enabled

end Assertions

/-! ## Runs -/

/-- **Every turn keeps the assertions.** -/
theorem Knows.turn {s t : Shared ι F A} {c : ι} {choice : Choice F A} {place next : Place F A}
    (fine : Global s) (known : Knows c s place) (few : place.Few s.updates.length)
    (taken : turn c choice s place = some (t, next)) : Keeps c s t next := by
  cases place with
  | outside =>
      cases choice with
      | update callback eventMask arg =>
          cases taken
          exact .same fine (register_valid callback eventMask arg)
      | event code =>
          obtain ⟨code, same⟩ := Option.ite_none_right_eq_some.mp taken
          cases same
          exact .same fine ⟨code, le_rfl⟩
      | goOn => cases taken
  | acquires update =>
      obtain ⟨free, same⟩ := Option.ite_none_right_eq_some.mp taken
      cases same
      have clean := (fine.free free).lock (some c)
      refine ⟨⟨fine.valid, fun _ => clean, fun _ => clean⟩, ⟨known, rfl, clean⟩, fun d _ => ?_⟩
      refine ⟨fun mine => ?_, List.prefix_rfl, le_rfl⟩
      rw [free] at mine
      cases mine
  | loads update =>
      cases taken
      exact .same fine ⟨known.1, known.2.1, known.2.2, known.2.2.tagged⟩
  | marks update current =>
      cases taken
      obtain ⟨valid, holds, clean, rfl⟩ := known
      exact .mark fine valid holds clean
  | storesCallback update new =>
      cases taken
      apply Keeps.store fine known
      · rfl
      · rfl
      · rfl
      · intro marked
        exact ⟨marked, rfl⟩
  | storesArg update new =>
      cases taken
      apply Keeps.store fine known.1
      · rfl
      · rfl
      · rfl
      · intro marked
        exact ⟨marked, known.2, rfl⟩
  | publishes update new =>
      cases taken
      exact .publish fine known.1 known.2.1 known.2.2
  | releases =>
      cases taken
      obtain ⟨holds, clean⟩ := known
      have free := clean.lock none
      refine ⟨⟨fine.valid, fun _ => free, fun _ => free⟩, trivial, fun d other => ?_⟩
      exact .of_holder holds other List.prefix_rfl le_rfl
  | reads event since =>
      rw [ToolEvents.turn] at taken
      split at taken
      · next enabled =>
          cases taken
          exact .same fine (.load fine known.1 known.2 enabled)
      · cases taken
        exact .same fine trivial
  | loadsCallback event since mask seen =>
      cases taken
      have loaded : Reading s event since mask seen fun update => s.callback = update.callback :=
        Reading.next fine known fun clean _ => clean.callback
      exact .same fine loaded
  | loadsArg event since mask seen callback =>
      cases taken
      have loaded : Reading s event since mask seen fun update =>
          callback = update.callback ∧ s.arg = update.arg :=
        Reading.next fine known fun clean earlier => ⟨earlier, clean.arg⟩
      exact .same fine loaded
  | checks event since mask seen callback arg =>
      rw [ToolEvents.turn] at taken
      split at taken
      · cases taken
        exact .same fine ⟨known.code, known.still⟩
      · next unchanged =>
          cases taken
          rw [not_or, not_not, not_not] at unchanged
          obtain ⟨begun, positive, update, there, ⟨function, argument⟩, enabled⟩ :=
            Reading.check fine known few unchanged.1 unchanged.2
          exact .same fine ⟨begun, positive, update, there, function, argument, enabled⟩
  | calls =>
      cases taken
      exact .same fine trivial

section Runs

variable [DecidableEq ι] {world : World ι (Shared ι F A) (Place F A)}

theorem Knows.of_reachable (reachable : (interface ι F A).Reachable FewUpdates world) :
    Global world.shared ∧ ∀ c, Knows c world.shared (world.place c) := by
  suffices holds : ∃ _ : Unit, Global world.shared ∧ ∀ c, Knows c world.shared (world.place c) by
    obtain ⟨-, known⟩ := holds
    exact known
  refine Callers.invariant (fun _ s => Global s) (fun _ => Knows) ?_ ?_ reachable
  · rintro world ⟨shared, places⟩
    rw [shared]
    have start : word 0 0 = 0 := by decide
    have clean : Clean (⟨none, 0, none, none, []⟩ : Shared ι F A) := ⟨start.symm, rfl, rfl⟩
    refine ⟨(), ⟨fun _ none => absurd none List.not_mem_nil, fun _ => clean, fun _ => clean⟩, ?_⟩
    intro c
    rw [places c]
    exact trivial
  · intro _ world c choice shared place few fine known taken
    obtain ⟨fine', mine, others⟩ := (known c).turn fine few taken
    exact ⟨(), fine', mine, fun d other place knows => knows.extend (others d other)⟩

/-- **A callback is called with the argument of its own update**, for an event of its mask.  The
update was not older than the newest one that was complete when the event began. -/
theorem event_consistent (reachable : (interface ι F A).Reachable FewUpdates world) {c : ι}
    {event since seen : ℕ} {callback : Option F} {arg : Option A}
    (calling : world.place c = .calls event since seen callback arg) :
    since ≤ seen ∧ ∃ number function, number + 1 = seen ∧ callback = some function ∧
      ∃ update, world.shared.updates[number]? = some update ∧ update.callback = some function ∧
        update.arg = arg ∧ update.mask &&& event ≠ 0 := by
  obtain ⟨fine, known⟩ := Knows.of_reachable reachable
  have mine := known c
  rw [calling] at mine
  obtain ⟨begun, positive, update, there, rfl, rfl, enabled⟩ := mine
  have valid := fine.valid update (List.mem_of_getElem? there)
  cases found : update.callback with
  | none =>
      rw [valid.callback found, Nat.zero_and] at enabled
      exact absurd rfl enabled
  | some function =>
      exact ⟨begun, seen - 1, function, Nat.sub_add_cancel positive, rfl, update, there, found, rfl,
        enabled⟩

end Runs

/-! ## Two updates during one event -/

/-- Caller 0 registers one function, caller 1 begins to read, and caller 0 registers another one.
The reader has loaded the first function and the second argument, and starts again. -/
def twoUpdates (first second : ℕ) : List (ℕ × Choice ℕ ℕ) :=
  let update (value : ℕ) : List (ℕ × Choice ℕ ℕ) :=
    (0, .update (some value) 1 (some value)) :: List.replicate 7 (0, .goOn)
  update first ++ [(1, .event 1), (1, .goOn), (1, .goOn)] ++ update second ++
    List.replicate 6 (1, .goOn)

theorem event_consistent_twoUpdates :
    ∃ world : World ℕ (Shared ℕ ℕ ℕ) (Place ℕ ℕ),
      world.place 1 = .calls 1 1 2 (some 8) (some 8) ∧
      1 ≤ 2 ∧ ∃ number function, number + 1 = 2 ∧ some 8 = some function ∧
        ∃ update, world.shared.updates[number]? = some update ∧
          update.callback = some function ∧ update.arg = some 8 ∧ update.mask &&& 1 ≠ 0 := by
  obtain ⟨world, reachable, calling⟩ := Machine.exists_reachable_of_play
    (M := interface ℕ ℕ ℕ) FewUpdates (s := ⟨⟨none, 0, none, none, []⟩, fun _ => .outside⟩)
    ⟨rfl, fun _ => rfl⟩ (twoUpdates 7 8)
    (fun world => decide (world.place 1 = .calls 1 1 2 (some 8) (some 8))) (by decide +kernel)
  have calling := of_decide_eq_true calling
  exact ⟨world, calling, event_consistent reachable calling⟩

end ArgobotsReduction.Threads.ToolEvents
