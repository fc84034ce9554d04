import ArgobotsReduction.Streams.StreamCreate

/-!
# The creation of an execution stream is atomic

What has been created and not freed grows with the stages (`Stand`), and every branch of the
clean-up gives back what its stage has created.  The local pools are destroyed after the ULTs that
may be from them, so all frees have a result.  When a creation fails, the list of streams, the
scheduler and the pools are as before, every object that was created has been freed once, and the
creation can be tried again (`stream_creation_atomic`).
-/

set_option autoImplicit false

namespace ArgobotsReduction.Streams

open Containers

/-! ## The list -/

section Lists

variable {ι : Type} [DecidableEq ι] {l₀ l : State ι} {nodes : List ι} {p : ι} {rank : ℤ}

/-- The list with a new stream. -/
structure Taken (l₀ l : State ι) (p : ι) (nodes : List ι) : Prop where
  lists : ∃ front back, nodes = front ++ back ∧ l.Lists (front ++ p :: back)
  count : l.numXstreams = nodes.length + 1
  kept : ∀ q, q ≠ p →
    l.rank q = l₀.rank q ∧ l.type q = l₀.type q ∧ l.allocated q = l₀.allocated q

/-- A list in which every allocated stream is. -/
structure Whole (l : State ι) (nodes : List ι) : Prop where
  numbered : l.Numbered nodes
  live : ∀ q, l.allocated q = true ↔ q ∈ nodes

omit [DecidableEq ι] in
/-- The lists of all runs -/
theorem State.Represents.whole (represents : l.Represents nodes) : Whole l nodes :=
  ⟨represents.toNumbered, represents.live⟩

omit [DecidableEq ι] in
theorem Whole.absent (whole : Whole l nodes) (fresh : l.allocated p = false) : p ∉ nodes := by
  rw [← whole.live, fresh]
  exact Bool.false_ne_true

/-- A new stream with an unused rank -/
theorem Whole.takeRank (whole : Whole l₀ nodes) (fresh : l₀.allocated p = false) (nonneg : 0 ≤ rank)
    (unused : ∀ q ∈ nodes, l₀.rank q ≠ rank) :
    ∃ l, (l₀.malloc p).takeRank p rank = some (l, true) ∧ Taken l₀ l p nodes := by
  have absent := whole.absent fresh
  have numbered := whole.numbered.malloc absent
  have others : ∀ q ∈ nodes, ((l₀.malloc p).setRank p rank).rank q = l₀.rank q := fun q member =>
    Function.update_of_ne (ne_of_mem_of_not_mem member absent) _ _
  have own : ((l₀.malloc p).setRank p rank).rank p = rank := by simp [State.setRank]
  have lists : ((l₀.malloc p).setRank p rank).Lists nodes :=
    numbered.lists.congr rfl (fun _ _ => rfl) (fun _ _ => rfl) others
  have free : ∀ q ∈ nodes, ((l₀.malloc p).setRank p rank).rank q ≠
      ((l₀.malloc p).setRank p rank).rank p := by
    intro q member
    rw [others q member, own]
    exact unused q member
  have later : ∀ q ∈ nodes.head?, ((l₀.malloc p).setRank p rank).rank q <
      ((l₀.malloc p).setRank p rank).rank p := by
    intro q first
    rw [others q (List.mem_of_mem_head? first), own]
    exact whole.numbered.notFirst nonneg unused q first
  obtain ⟨l, front, back, added, rfl, after, same⟩ :=
    lists.add numbered.enough absent free later
  have count : l.numXstreams + 1 = ((front ++ back).length : ℤ) + 1 := by
    rw [same, ← whole.numbered.count]
    rfl
  refine ⟨_, by rw [State.takeRank, added, Option.map_some], ⟨front, back, rfl, ?_⟩, count, ?_⟩
  · rw [State.updateMaxXstreams_eq]
    exact after.congr rfl (fun _ _ => rfl) (fun _ _ => rfl) fun _ _ => rfl
  · intro q other
    rw [State.updateMaxXstreams_eq, same]
    exact ⟨Function.update_of_ne other _ _, rfl, Function.update_of_ne other _ _⟩

/-- **`xstream_set_new_rank`** puts the new stream in the list, or changes nothing. -/
theorem Whole.setNewRank (whole : Whole l₀ nodes) (fresh : l₀.allocated p = false)
    (valid : rank = -1 ∨ 0 ≤ rank) :
    (∃ l, (l₀.malloc p).setNewRank p rank = some (l, true) ∧ Taken l₀ l p nodes) ∨
      (l₀.malloc p).setNewRank p rank = some (l₀.malloc p, false) ∧
        ∃ q ∈ nodes, l₀.rank q = rank := by
  have numbered := whole.numbered.malloc (whole.absent fresh)
  rcases valid with rfl | nonneg
  · obtain ⟨unused, least, found⟩ := numbered.setNewRank_auto p
    obtain ⟨l, taken, after⟩ := whole.takeRank fresh least.1.1 least.1.2
    exact .inl ⟨l, found.trans taken, after⟩
  · have chosen := numbered.setNewRank_chosen (p := p) nonneg
    by_cases unused : ∀ q ∈ nodes, l₀.rank q ≠ rank
    · obtain ⟨l, taken, after⟩ := whole.takeRank fresh nonneg unused
      exact .inl ⟨l, (chosen.trans (if_pos unused)).trans taken, after⟩
    · refine .inr ⟨chosen.trans (if_neg unused), ?_⟩
      push Not at unused
      exact unused

omit [DecidableEq ι] in
/-- The list is the same when its streams are. -/
theorem Same.of_lists (whole : Whole l₀ nodes) (lists : l.Lists nodes)
    (count : l.numXstreams = nodes.length)
    (kept : ∀ q, l.allocated q = l₀.allocated q ∧
      (q ∈ nodes → l.rank q = l₀.rank q ∧ l.type q = l₀.type q)) : Same l₀ l where
  head := lists.head.trans whole.numbered.lists.head.symm
  numXstreams := count.trans whole.numbered.count.symm
  allocated := funext fun q => (kept q).1
  xstreams q live := by
    have member := (whole.live q).mp live
    obtain ⟨ranks, types⟩ := (kept q).2 member
    obtain ⟨front, back, rfl⟩ := List.append_of_mem member
    refine ⟨?_, ?_, ranks, types⟩
    · rw [lists.linked.next_eq, whole.numbered.lists.linked.next_eq]
    · rw [lists.linked.prev_eq, whole.numbered.lists.linked.prev_eq]

omit [DecidableEq ι] in
theorem Same.whole (same : Same l₀ l) (whole : Whole l₀ nodes) : Whole l nodes := by
  have kept := fun q (member : q ∈ nodes) => same.xstreams q ((whole.live q).mpr member)
  refine ⟨⟨whole.numbered.congr same.head (fun q member => (kept q member).1)
    (fun q member => (kept q member).2.1) fun q member => (kept q member).2.2.1,
    same.numXstreams.trans whole.numbered.count⟩, fun q => ?_⟩
  rw [same.allocated]
  exact whole.live q

/-- **A stream that returns its rank leaves the list as it was.** -/
theorem Taken.returned (taken : Taken l₀ l p nodes) (whole : Whole l₀ nodes)
    (fresh : l₀.allocated p = false) :
    ∃ l', l.returnRank p = some l' ∧ Same l₀ (l'.free p) := by
  obtain ⟨⟨front, back, rfl, lists⟩, count, kept⟩ := taken
  have absent := whole.absent fresh
  obtain ⟨l', removed, after, same⟩ := lists.remove
  refine ⟨{ l' with numXstreams := l'.numXstreams - 1 }, ?_, ?_⟩
  · rw [State.returnRank, removed, Option.map_some]
  · refine .of_lists whole (after.congr rfl (fun _ _ => rfl) (fun _ _ => rfl) fun _ _ => rfl) ?_ ?_
    · have before : l'.numXstreams = l.numXstreams := by rw [same]
      change l'.numXstreams - 1 = _
      rw [before, count]
      omega
    · intro q
      rcases eq_or_ne q p with rfl | other
      · exact ⟨(Function.update_self ..).trans fresh.symm, fun member => absurd member absent⟩
      · obtain ⟨ranks, types, allocated⟩ := kept q other
        refine ⟨(Function.update_of_ne other _ _).trans ?_, fun _ => ?_⟩
        · rw [same]
          exact allocated
        · change l'.rank q = _ ∧ l'.type q = _
          rw [same]
          exact ⟨ranks, types⟩

/-- A stream that got no rank leaves the list as it was. -/
theorem Whole.freed (whole : Whole l₀ nodes) (fresh : l₀.allocated p = false) :
    Same l₀ ((l₀.malloc p).free p) := by
  have absent := whole.absent fresh
  have numbered := whole.numbered.malloc absent
  refine .of_lists whole
    (numbered.lists.congr rfl (fun _ _ => rfl) (fun _ _ => rfl) fun _ _ => rfl) numbered.count ?_
  intro q
  refine ⟨?_, fun _ => ⟨rfl, rfl⟩⟩
  rcases eq_or_ne q p with rfl | other
  · exact (Function.update_self ..).trans fresh.symm
  · exact (Function.update_of_ne other _ _).trans (Function.update_of_ne other _ _)

theorem Taken.setType (taken : Taken l₀ l p nodes) (type : XstreamType) :
    Taken l₀ (l.setType p type) p nodes := by
  obtain ⟨⟨front, back, split, lists⟩, count, kept⟩ := taken
  refine ⟨⟨front, back, split,
    lists.congr rfl (fun _ _ => rfl) (fun _ _ => rfl) fun _ _ => rfl⟩, count, fun q other => ?_⟩
  obtain ⟨ranks, types, allocated⟩ := kept q other
  exact ⟨ranks, (Function.update_of_ne other _ _).trans types, allocated⟩

end Lists

namespace StreamCreate

open Objects

variable {ι κ : Type} [DecidableEq ι] [DecidableEq κ] {w₀ w w' : World ι κ} {l : State ι}
  {nodes : List ι} {p : ι} {sched : κ} {x : Xstream κ} {owed : Multiset ℕ} {used : κ → Used}
  {pYthread : κ → Option Ythread} {succeeds : ℕ → Bool} {object block : ℕ}

/-- **What a creation has done so far**: the objects that it owes, the list, and the members of
the schedulers.  The pools of others are as they were. -/
structure Stand (w₀ w : World ι κ) (l : State ι) (owed : Multiset ℕ) (used : κ → Used)
    (pYthread : κ → Option Ythread) : Prop where
  list : w.list = l
  owes : Owes w₀.objects w.objects owed
  units : ∀ pool < w₀.objects.next, w.units pool = w₀.units pool
  used : w.used = used
  pYthread : w.pYthread = pYthread

/-- **A failed creation**: the streams, the schedulers and the pools are as before, and the objects
that were created have been freed, each of them once, and no others. -/
structure Restored (w₀ w : World ι κ) : Prop where
  list : Same w₀.list w.list
  freed : ∀ object, w.objects.freed.count object = w₀.objects.freed.count object +
    if w₀.objects.next ≤ object ∧ object < w.objects.next then 1 else 0
  units : ∀ pool < w₀.objects.next, w.units pool = w₀.units pool
  used : w.used = w₀.used
  pYthread : w.pYthread = w₀.pYthread

/-- A stream can be created with this scheduler. -/
structure Ready (w : World ι κ) (p : ι) (sched : κ) (nodes : List ι) : Prop where
  whole : Whole w.list nodes
  fresh : w.list.allocated p = false
  unused : w.used sched = .notUsed
  noUlt : w.pYthread sched = none

/-- A step failed. -/
def Lacking (succeeds : ℕ → Bool) : Prop := ∃ step, succeeds step = false

omit [DecidableEq κ] in
/-- With both local pools, memory of every kind is there. -/
theorem Xstream.backs (x : Xstream κ) {stack desc : ℕ} (hasStack : x.memPoolStack = some stack)
    (hasDesc : x.memPoolDesc = some desc) (backing : Backing) : x.Backs backing = true := by
  cases backing <;> simp [Xstream.Backs, hasStack, hasDesc]

namespace Stand

omit [DecidableEq ι] [DecidableEq κ] in
theorem refl (w : World ι κ) : Stand w w w.list 0 w.used w.pYthread :=
  ⟨rfl, .refl _, fun _ _ => rfl, rfl, rfl⟩

omit [DecidableEq ι] [DecidableEq κ] in
theorem create (stand : Stand w₀ w l owed used pYthread) (succeeds : ℕ → Bool) :
    (∃ w', w.create succeeds = (w', none) ∧ Stand w₀ w' l owed used pYthread ∧ Lacking succeeds) ∨
      ∃ w' object, w.create succeeds = (w', some object) ∧
        Stand w₀ w' l (object ::ₘ owed) used pYthread ∧ w₀.objects.next ≤ object := by
  obtain ⟨list, owes, units, hasUsed, hasYthread⟩ := stand
  cases decided : succeeds w.steps with
  | false =>
      refine .inl ⟨_, if_neg (by rw [decided]; exact Bool.false_ne_true), ?_, _, decided⟩
      exact ⟨list, owes, units, hasUsed, hasYthread⟩
  | true =>
      refine .inr ⟨_, _, if_pos decided, ?_, owes.le⟩
      exact ⟨list, owes.create, units, hasUsed, hasYthread⟩

omit [DecidableEq ι] [DecidableEq κ] in
theorem free (stand : Stand w₀ w l (object ::ₘ owed) used pYthread) :
    Stand w₀ (w.free object) l owed used pYthread :=
  ⟨stand.list, stand.owes.free, stand.units, stand.used, stand.pYthread⟩

omit [DecidableEq ι] in
theorem setUsed (stand : Stand w₀ w l owed used pYthread) (sched : κ) (value : Used) :
    Stand w₀ (w.setUsed sched value) l owed (Function.update used sched value) pYthread :=
  ⟨stand.list, stand.owes, stand.units, by rw [World.setUsed, stand.used], stand.pYthread⟩

omit [DecidableEq ι] in
theorem setYthread (stand : Stand w₀ w l owed used pYthread) (sched : κ)
    (value : Option Ythread) :
    Stand w₀ (w.setYthread sched value) l owed used (Function.update pYthread sched value) :=
  ⟨stand.list, stand.owes, stand.units, stand.used, by rw [World.setYthread, stand.pYthread]⟩

omit [DecidableEq ι] [DecidableEq κ] in
theorem setList (stand : Stand w₀ w l owed used pYthread) (list : State ι) :
    Stand w₀ { w with list := list } list owed used pYthread :=
  ⟨rfl, stand.owes, stand.units, stand.used, stand.pYthread⟩

omit [DecidableEq ι] [DecidableEq κ] in
/-- The pool of a push is a new one. -/
theorem push (stand : Stand w₀ w l owed used pYthread) {pool : ℕ}
    (new : w₀.objects.next ≤ pool) (unit : ℕ) :
    Stand w₀ (w.push pool unit) l owed used pYthread := by
  refine ⟨stand.list, stand.owes, fun other below => ?_, stand.used, stand.pYthread⟩
  have different : other ≠ pool := (Nat.lt_of_lt_of_le below new).ne
  exact (Function.update_of_ne different _ _).trans (stand.units other below)

omit [DecidableEq ι] [DecidableEq κ] in
theorem createPool (stand : Stand w₀ w l owed used pYthread) (succeeds : ℕ → Bool) :
    (∃ w', w.createPool succeeds = (w', none) ∧ Stand w₀ w' l owed used pYthread ∧
        Lacking succeeds) ∨
      ∃ w' pool, w.createPool succeeds = (w', some pool) ∧
        Stand w₀ w' l (pool ::ₘ owed) used pYthread ∧ w₀.objects.next ≤ pool := by
  rw [World.createPool]
  rcases stand.create succeeds with ⟨v, ran, after, lacking⟩ | ⟨v, pool, ran, after, new⟩
  · rw [ran]
    exact .inl ⟨v, rfl, after, lacking⟩
  · rw [ran]
    refine .inr ⟨_, pool, rfl, ?_, new⟩
    refine ⟨after.list, after.owes, fun other below => ?_, after.used, after.pYthread⟩
    have different : other ≠ pool := (Nat.lt_of_lt_of_le below new).ne
    exact (Function.update_of_ne different _ _).trans (after.units other below)

omit [DecidableEq ι] [DecidableEq κ] in
theorem memInitLocal (stand : Stand w₀ w l owed used pYthread) (succeeds : ℕ → Bool)
    (x : Xstream κ) :
    (∃ w', memInitLocal succeeds w x = (w', none) ∧ Stand w₀ w' l owed used pYthread ∧
        Lacking succeeds) ∨
      ∃ w' stack desc, memInitLocal succeeds w x =
          (w', some { x with memPoolStack := some stack, memPoolDesc := some desc }) ∧
        Stand w₀ w' l (desc ::ₘ stack ::ₘ owed) used pYthread := by
  rw [StreamCreate.memInitLocal]
  rcases stand.create succeeds with ⟨v, ran, after, lacking⟩ | ⟨v, stack, ran, first, -⟩
  · rw [ran]
    exact .inl ⟨v, rfl, after, lacking⟩
  · rw [ran]
    dsimp only
    rcases first.create succeeds with ⟨u, ran, after, lacking⟩ | ⟨u, desc, ran, after, -⟩
    · rw [ran]
      exact .inl ⟨_, rfl, after.free, lacking⟩
    · rw [ran]
      exact .inr ⟨u, stack, desc, rfl, after⟩

omit [DecidableEq ι] [DecidableEq κ] in
theorem ythreadCreate (stand : Stand w₀ w l owed used pYthread) (config : Config)
    (succeeds : ℕ → Bool) (backs : ∀ backing, x.Backs backing = true) (stacksize : ℕ) :
    (∃ w', ythreadCreate config succeeds w x stacksize = some (w', none) ∧
        Stand w₀ w' l owed used pYthread ∧ Lacking succeeds) ∨
      ∃ w' ythread, ythreadCreate config succeeds w x stacksize = some (w', some ythread) ∧
        Stand w₀ w' l (ythread.object ::ₘ owed) used pYthread := by
  have opened : StreamCreate.ythreadCreate config succeeds w x stacksize = _ := if_pos (backs _)
  rw [opened]
  rcases stand.create succeeds with ⟨v, ran, after, lacking⟩ | ⟨v, object, ran, after, -⟩
  · rw [ran]
    exact .inl ⟨v, rfl, after, lacking⟩
  · rw [ran]
    exact .inr ⟨v, _, rfl, after⟩

omit [DecidableEq ι] [DecidableEq κ] in
theorem ythreadCreateRoot (stand : Stand w₀ w l owed used pYthread) (config : Config)
    (succeeds : ℕ → Bool) (backs : ∀ backing, x.Backs backing = true) (type : XstreamType) :
    (∃ w', ythreadCreateRoot config succeeds w x type = some (w', none) ∧
        Stand w₀ w' l owed used pYthread ∧ Lacking succeeds) ∨
      ∃ w' root, ythreadCreateRoot config succeeds w x type = some (w', some root) ∧
        Stand w₀ w' l (root.object ::ₘ owed) used pYthread := by
  cases type with
  | primary => exact stand.ythreadCreate config succeeds backs config.schedStacksize
  | secondary => exact stand.ythreadCreate config succeeds backs 0

omit [DecidableEq ι] in
theorem ythreadCreateMainSched (stand : Stand w₀ w l owed used pYthread) (config : Config)
    (succeeds : ℕ → Bool) (backs : ∀ backing, x.Backs backing = true) {pool : ℕ}
    (hasPool : x.rootPool = some pool) (new : w₀.objects.next ≤ pool)
    (hasSched : x.mainSched = some sched) :
    (∃ w', ythreadCreateMainSched config succeeds w x = some (w', false) ∧
        Stand w₀ w' l owed used pYthread ∧ Lacking succeeds) ∨
      ∃ w' main, ythreadCreateMainSched config succeeds w x = some (w', true) ∧
        Stand w₀ w' l (main.object ::ₘ owed) used
          (Function.update pYthread sched (some main)) := by
  rw [StreamCreate.ythreadCreateMainSched, hasPool, hasSched, Option.bind_eq_bind,
    Option.bind_some, Option.bind_eq_bind, Option.bind_some]
  rcases stand.ythreadCreate config succeeds backs config.schedStacksize with
    ⟨v, ran, after, lacking⟩ | ⟨v, main, ran, after⟩
  · rw [ran]
    exact .inl ⟨v, rfl, after, lacking⟩
  · rw [ran]
    exact .inr ⟨_, main, rfl, (after.push new main.object).setYthread sched (some main)⟩

omit [DecidableEq ι] [DecidableEq κ] in
/-- A ULT whose memory is from a pool that is there is freed. -/
theorem threadFree {ythread : Ythread}
    (stand : Stand w₀ w l (ythread.object ::ₘ owed) used pYthread)
    (backs : x.Backs ythread.backing = true) :
    ∃ w', threadFree w x ythread = some w' ∧ Stand w₀ w' l owed used pYthread :=
  ⟨_, if_pos backs, stand.free⟩

/-! ## The clean-up -/

omit [DecidableEq ι] [DecidableEq κ] in
/-- Nothing is owed any more. -/
theorem restored (stand : Stand w₀ w l 0 w₀.used w₀.pYthread) (same : Same w₀.list l) :
    Restored w₀ w := by
  obtain ⟨rfl, owes, units, hasUsed, hasYthread⟩ := stand
  exact ⟨same, owes.count_freed, units, hasUsed, hasYthread⟩

omit [DecidableEq κ] in
/-- The last steps of the clean-up -/
theorem ended (stand : Stand w₀ w l {block} w₀.used w₀.pYthread)
    (same : Same w₀.list (l.free p)) :
    Restored w₀ ({ w with list := w.list.free p }.free block) := by
  have freed : Stand w₀ (w.free block) l 0 w₀.used w₀.pYthread := free stand
  refine (freed.setList (w.list.free p)).restored ?_
  rw [stand.list]
  exact same

theorem failed_zero (stand : Stand w₀ w l {block} w₀.used w₀.pYthread)
    (same : Same w₀.list (l.free p)) :
    ∃ w', failed p sched block 0 w x = some w' ∧ Restored w₀ w' :=
  ⟨_, rfl, stand.ended same⟩

/-- After the rank was taken. -/
theorem failed_one (stand : Stand w₀ w l {block} w₀.used w₀.pYthread)
    (ready : Ready w₀ p sched nodes) (taken : Taken w₀.list l p nodes) :
    ∃ w', failed p sched block 1 w x = some w' ∧ Restored w₀ w' := by
  obtain ⟨l', returned, same⟩ := taken.returned ready.whole ready.fresh
  refine ⟨_, ?_, (stand.setList l').ended same⟩
  rw [← stand.list] at returned
  simp [failed, ifReached, undoRank, returned]

/-- After the local memory was set up, and the scheduler perhaps set. -/
theorem failed_two {stack desc : ℕ} {value : Used}
    (stand : Stand w₀ w l (desc ::ₘ stack ::ₘ {block}) (Function.update w₀.used sched value)
      w₀.pYthread)
    (ready : Ready w₀ p sched nodes) (hasStack : x.memPoolStack = some stack)
    (hasDesc : x.memPoolDesc = some desc) (taken : Taken w₀.list l p nodes) :
    ∃ w', failed p sched block 2 w x = some w' ∧ Restored w₀ w' := by
  have returned : Function.update (Function.update w₀.used sched value) sched .notUsed =
      w₀.used := by
    rw [Function.update_idem, ← ready.unused, Function.update_eq_self]
  have back := stand.setUsed sched .notUsed
  rw [returned, Multiset.cons_swap] at back
  obtain ⟨w', ended, restored⟩ :
      ∃ w', failed p sched block 1 _ { x with memPoolStack := none, memPoolDesc := none } =
        some w' ∧ Restored w₀ w' := back.free.free.failed_one ready taken
  refine ⟨w', ?_, restored⟩
  rw [← ended]
  simp [failed, ifReached, undoLocal, memFinalizeLocal, hasStack, hasDesc]

/-- After the root ULT was created. -/
theorem failed_three {stack desc : ℕ} {value : Used} {root : Ythread}
    (stand : Stand w₀ w l (root.object ::ₘ desc ::ₘ stack ::ₘ {block})
      (Function.update w₀.used sched value) w₀.pYthread)
    (ready : Ready w₀ p sched nodes) (hasStack : x.memPoolStack = some stack)
    (hasDesc : x.memPoolDesc = some desc) (hasRoot : x.rootYthread = some root)
    (taken : Taken w₀.list l p nodes) :
    ∃ w', failed p sched block 3 w x = some w' ∧ Restored w₀ w' := by
  obtain ⟨v, freed, back⟩ := stand.threadFree (x.backs hasStack hasDesc root.backing)
  obtain ⟨w', ended, restored⟩ := back.failed_two ready hasStack hasDesc taken
  refine ⟨w', ?_, restored⟩
  rw [← ended]
  simp [failed, ifReached, undoRootYthread, hasRoot, freed]

/-- After the root pool was created. -/
theorem failed_four {stack desc pool : ℕ} {value : Used} {root : Ythread}
    (stand : Stand w₀ w l (pool ::ₘ root.object ::ₘ desc ::ₘ stack ::ₘ {block})
      (Function.update w₀.used sched value) w₀.pYthread)
    (ready : Ready w₀ p sched nodes) (hasStack : x.memPoolStack = some stack)
    (hasDesc : x.memPoolDesc = some desc) (hasRoot : x.rootYthread = some root)
    (hasPool : x.rootPool = some pool) (taken : Taken w₀.list l p nodes) :
    ∃ w', failed p sched block 4 w x = some w' ∧ Restored w₀ w' := by
  obtain ⟨w', ended, restored⟩ :=
    stand.free.failed_three ready hasStack hasDesc hasRoot taken
  refine ⟨w', ?_, restored⟩
  rw [← ended]
  simp [failed, ifReached, undoRootPool, hasPool]

/-- After the ULT of the main scheduler was created. -/
theorem failed_five {stack desc pool : ℕ} {value : Used} {root main : Ythread}
    (stand : Stand w₀ w l (main.object ::ₘ pool ::ₘ root.object ::ₘ desc ::ₘ stack ::ₘ {block})
      (Function.update w₀.used sched value) (Function.update w₀.pYthread sched (some main)))
    (ready : Ready w₀ p sched nodes)
    (hasStack : x.memPoolStack = some stack) (hasDesc : x.memPoolDesc = some desc)
    (hasSched : x.mainSched = some sched) (hasRoot : x.rootYthread = some root)
    (hasPool : x.rootPool = some pool) (taken : Taken w₀.list l p nodes) :
    ∃ w', failed p sched block 5 w x = some w' ∧ Restored w₀ w' := by
  have set : w.pYthread sched = some main := by
    rw [stand.pYthread, Function.update_self]
  have cleared : Function.update (Function.update w₀.pYthread sched (some main)) sched none =
      w₀.pYthread := by
    rw [Function.update_idem, ← ready.noUlt, Function.update_eq_self]
  obtain ⟨v, freed, back⟩ := stand.threadFree (x.backs hasStack hasDesc main.backing)
  replace back := back.setYthread sched none
  rw [cleared] at back
  obtain ⟨w', ended, restored⟩ :=
    back.failed_four ready hasStack hasDesc hasRoot hasPool taken
  refine ⟨w', ?_, restored⟩
  rw [← ended]
  simp [failed, ifReached, undoMainSched, hasSched, set, freed]

end Stand

/-! ## The creation -/

/-- **What a creation ends with.**  With the list alone, a creation that succeeds is the one of
`State.xstreamCreate`. -/
structure Ended (w₀ w : World ι κ) (nodes : List ι) (p : ι) (type : XstreamType) (rank : ℤ)
    (succeeds : ℕ → Bool) (code : Code) : Prop where
  codes : code = .success ∨ code = .invXstreamRank ∨ code = .resource
  restored : code ≠ .success → Restored w₀ w
  taken : code = .invXstreamRank → ∃ q ∈ nodes, w₀.list.rank q = rank
  lacking : code = .resource → Lacking succeeds
  created : code = .success → w₀.list.xstreamCreate p type rank true = some (w.list, .success)

variable {type : XstreamType} {rank : ℤ}

omit [DecidableEq κ] in
theorem Ended.success (created : w₀.list.xstreamCreate p type rank true = some (w.list, .success)) :
    Ended w₀ w nodes p type rank succeeds .success :=
  ⟨.inl rfl, fun failed => absurd rfl failed, nofun, nofun, fun _ => created⟩

omit [DecidableEq κ] in
/-- A step that fails and the clean-up after it -/
theorem Ended.resource (undone : Option (World ι κ)) (lacking : Lacking succeeds)
    (restored : ∃ w, undone = some w ∧ Restored w₀ w) :
    ∃ w code, undone.map (fun w => (w, Code.resource)) = some (w, code) ∧
      Ended w₀ w nodes p type rank succeeds code := by
  obtain ⟨w, rfl, restored⟩ := restored
  exact ⟨w, .resource, rfl, .inr (.inr rfl), fun _ => restored, nofun, fun _ => lacking, nofun⟩

theorem xstreamCreate_ended (config : Config) (succeeds : ℕ → Bool)
    (ready : Ready w p sched nodes) (valid : rank = -1 ∨ 0 ≤ rank) (type : XstreamType)
    {start : Bool} (starts : start = true → type = .secondary) :
    ∃ w' code, xstreamCreate config succeeds w p sched type rank start = some (w', code) ∧
      Ended w w' nodes p type rank succeeds code := by
  rw [xstreamCreate]
  rcases (Stand.refl w).create succeeds with ⟨w₁, ran, stand, lacking⟩ | ⟨w₁, block, ran, stand, -⟩
  · rw [ran]
    exact Ended.resource (some w₁) lacking ⟨w₁, rfl, stand.restored (.refl _)⟩
  rw [ran]
  dsimp only
  rw [stand.list]
  rcases ready.whole.setNewRank ready.fresh valid with ⟨l, set, taken⟩ | ⟨refused, used⟩
  swap
  · -- the rank is taken
    rw [refused, Option.bind_eq_bind, Option.bind_some]
    obtain ⟨w', ended, restored⟩ :
        ∃ w', failed p sched block 0 _ ⟨none, none, none, none, none⟩ = some w' ∧
          Restored w w' :=
      (stand.setList (w.list.malloc p)).failed_zero (ready.whole.freed ready.fresh)
    refine ⟨w', .invXstreamRank, ?_, .inr (.inl rfl), fun _ => restored, fun _ => used, nofun,
      nofun⟩
    exact congrArg (Option.map fun w => (w, Code.invXstreamRank)) ended
  rw [set, Option.bind_eq_bind, Option.bind_some]
  have created : w.list.xstreamCreate p type rank true = some (l.setType p type, .success) := by
    rw [State.xstreamCreate, set]
    rfl
  replace taken := taken.setType type
  replace stand := stand.setList (l.setType p type)
  dsimp only
  rw [if_neg (by decide)]
  rcases stand.memInitLocal succeeds ⟨none, none, none, none, none⟩ with
    ⟨w₂, ran, stand, lacking⟩ | ⟨w₂, stack, desc, ran, stand⟩
  · rw [ran]
    exact Ended.resource _ lacking (stand.failed_one ready taken)
  rw [ran]
  dsimp only
  replace stand := stand.setUsed sched .main
  have backs := Xstream.backs ⟨some stack, some desc, some sched, none, none⟩ rfl rfl
  rcases stand.ythreadCreateRoot config succeeds backs type with
    ⟨w₃, ran, stand, lacking⟩ | ⟨w₃, root, ran, stand⟩
  · rw [ran, Option.bind_eq_bind, Option.bind_some]
    exact Ended.resource _ lacking (stand.failed_two ready rfl rfl taken)
  rw [ran, Option.bind_eq_bind, Option.bind_some]
  dsimp only
  rcases stand.createPool succeeds with ⟨w₄, ran, stand, lacking⟩ | ⟨w₄, pool, ran, stand, new⟩
  · rw [ran]
    exact Ended.resource _ lacking (stand.failed_three ready rfl rfl rfl taken)
  rw [ran]
  dsimp only
  replace backs := Xstream.backs ⟨some stack, some desc, some sched, some root, some pool⟩ rfl rfl
  rcases stand.ythreadCreateMainSched config succeeds backs rfl new rfl with
    ⟨w₅, ran, stand, lacking⟩ | ⟨w₅, main, ran, stand⟩
  · rw [ran, Option.bind_eq_bind, Option.bind_some]
    exact Ended.resource _ lacking (stand.failed_four ready rfl rfl rfl rfl taken)
  rw [ran, Option.bind_eq_bind, Option.bind_some]
  dsimp only
  rw [if_neg (by decide)]
  cases start with
  | false => exact ⟨w₅, .success, rfl, .success (by rw [created, stand.list])⟩
  | true =>
      obtain rfl := starts rfl
      rw [if_pos rfl, if_neg (by decide)]
      rcases stand.create succeeds with ⟨w₆, ran, stand, lacking⟩ | ⟨w₆, context, ran, stand, -⟩
      · rw [ran]
        exact Ended.resource _ lacking (stand.failed_five ready rfl rfl rfl rfl rfl taken)
      · rw [ran]
        exact ⟨w₆, .success, rfl, .success (by rw [created, stand.list])⟩

omit [DecidableEq ι] [DecidableEq κ] in
/-- A stream can be created again. -/
theorem Restored.ready (restored : Restored w w') (ready : Ready w p sched nodes) :
    Ready w' p sched nodes where
  whole := restored.list.whole ready.whole
  fresh := by
    rw [restored.list.allocated]
    exact ready.fresh
  unused := by
    rw [restored.used]
    exact ready.unused
  noUlt := by
    rw [restored.pYthread]
    exact ready.noUlt

/-- A creation whose steps all succeed. -/
theorem xstreamCreate_succeeds (config : Config) (all : ∀ step, succeeds step = true)
    (ready : Ready w p sched nodes) (valid : rank = -1 ∨ 0 ≤ rank)
    (free : ∀ q ∈ nodes, w.list.rank q ≠ rank) (type : XstreamType) {start : Bool}
    (starts : start = true → type = .secondary) :
    ∃ w', xstreamCreate config succeeds w p sched type rank start = some (w', .success) := by
  obtain ⟨w', code, created, ended⟩ :=
    xstreamCreate_ended config succeeds ready valid type starts
  rcases ended.codes with rfl | rfl | rfl
  · exact ⟨w', created⟩
  · obtain ⟨q, member, same⟩ := ended.taken rfl
    exact absurd same (free q member)
  · obtain ⟨step, failed⟩ := ended.lacking rfl
    rw [all step] at failed
    exact absurd failed.symm Bool.false_ne_true

/-- **The creation of a stream is atomic.**  It always ends; when it fails, everything is as
before, and it succeeds with the same scheduler and rank as soon as no step fails, unless a stream
has that rank. -/
theorem stream_creation_atomic (config : Config) (succeeds : ℕ → Bool)
    (ready : Ready w p sched nodes) (valid : rank = -1 ∨ 0 ≤ rank) (type : XstreamType)
    (start : Bool) (starts : start = true → type = .secondary) :
    ∃ w' code, xstreamCreate config succeeds w p sched type rank start = some (w', code) ∧
      (code ≠ .success → Restored w w' ∧ w'.used sched = .notUsed ∧ w'.pYthread sched = none ∧
        (code = .invXstreamRank → ∃ q ∈ nodes, w.list.rank q = rank) ∧
        ((∀ q ∈ nodes, w.list.rank q ≠ rank) → ∀ later, (∀ step, later step = true) →
          ∃ w'', xstreamCreate config later w' p sched type rank start = some (w'', .success))) := by
  obtain ⟨w', code, created, ended⟩ :=
    xstreamCreate_ended config succeeds ready valid type starts
  refine ⟨w', code, created, fun failed => ?_⟩
  have restored := ended.restored failed
  have again := restored.ready ready
  refine ⟨restored, again.unused, again.noUlt, ended.taken, fun free later all => ?_⟩
  refine xstreamCreate_succeeds config all again valid (fun q member => ?_) type starts
  rw [(restored.list.xstreams q ((ready.whole.live q).mpr member)).2.2.1]
  exact free q member

/-- The context of a secondary stream cannot be created; the creation undoes six steps and succeeds
when it is tried again. -/
theorem stream_creation_atomic_no_context :
    let config : Config := ⟨16384, 4194304, false⟩
    let w : World ℕ Unit := ⟨primaryOnly, 0, ⟨0, 0⟩, fun _ => [], fun _ => .notUsed, fun _ => none⟩
    ∃ w', xstreamCreate config (fun step => step < 6) w 1 () .secondary (-1) true =
        some (w', .resource) ∧
      Restored w w' ∧ w'.objects.next = 6 ∧ w'.objects.freed = {0, 1, 2, 3, 4, 5} ∧
        ∃ w'', xstreamCreate config (fun _ => true) w' 1 () .secondary (-1) true =
          some (w'', .success) := by
  intro config w
  have begins : Begins primaryOnly := ⟨emptyList, 0, rfl, rfl, fun _ => rfl, rfl⟩
  obtain ⟨nodes, represents⟩ := Represents.of_begins begins
  have ready : Ready w 1 () nodes := ⟨represents.whole, rfl, rfl, rfl⟩
  obtain ⟨w', code, created, ended⟩ :=
    stream_creation_atomic config (fun step => step < 6) ready (.inl rfl) .secondary true
      fun _ => rfl
  have result : (xstreamCreate config (fun step => step < 6) w 1 () .secondary (-1) true).map
      (fun outcome => (outcome.1.objects.next, outcome.1.objects.freed, outcome.2)) =
        some (6, {0, 1, 2, 3, 4, 5}, .resource) := by
    decide +kernel
  rw [created] at result
  obtain ⟨next, rest⟩ := Prod.mk.inj (Option.some.inj result)
  obtain ⟨freed, rfl⟩ := Prod.mk.inj rest
  obtain ⟨restored, -, -, -, retried⟩ := ended nofun
  refine ⟨w', created, restored, next, freed, ?_⟩
  refine retried (fun q member => ?_) _ fun _ => rfl
  have nonneg : 0 ≤ w.list.rank q := represents.nonneg member
  omega

end StreamCreate

end ArgobotsReduction.Streams
