import ArgobotsReduction.Streams.StreamList

/-!
# Runs of the list of execution streams

In every run from initialization, the list has the allocated streams, in the order of
their ranks, and the primary stream is the first one.  Every operation returns, and succeeds
if its rank can be taken and the stream is not the primary one.  Then its stream is in the
list with that rank, or not in it any more, and the others stay.  One that fails leaves the
list as it was.
-/

set_option autoImplicit false

namespace ArgobotsReduction.Streams

open Containers Parallel

universe u

variable {ι : Type u}

namespace State

/-- The first stream of the list has rank 0. -/
structure Ranked (s : State ι) (nodes : List ι) : Prop where
  lists : s.Lists nodes
  zero : ∀ q ∈ nodes.head?, s.rank q = 0

/-- The list is counted. -/
structure Numbered (s : State ι) (nodes : List ι) : Prop extends s.Ranked nodes where
  count : s.numXstreams = nodes.length

/-- The list has the allocated streams, and its first one is the primary stream. -/
structure Represents (s : State ι) (nodes : List ι) : Prop extends s.Numbered nodes where
  live : ∀ p, s.allocated p = true ↔ p ∈ nodes
  primary : ∀ p ∈ nodes, s.type p = .primary ↔ nodes.head? = some p
  nonempty : nodes ≠ []

theorem updateMaxXstreams_eq (s : State ι) (newrank : ℤ) :
    s.updateMaxXstreams newrank =
      { s with maxXstreams := (s.updateMaxXstreams newrank).maxXstreams } := by
  rw [updateMaxXstreams]
  split
  · rfl
  · rfl

namespace Ranked

variable {s s' : State ι} {nodes front back : List ι} {p q : ι} {rank : ℤ}

theorem nonneg (ranked : s.Ranked nodes) (member : q ∈ nodes) : 0 ≤ s.rank q := by
  cases nodes with
  | nil => cases member
  | cons first rest =>
      have zero := ranked.zero first rfl
      rcases List.mem_cons.mp member with rfl | later
      · exact zero.ge
      · exact zero ▸ (List.rel_of_pairwise_cons ranked.lists.sorted later).le

/-- An unused rank comes after the one of the first stream. -/
theorem notFirst (ranked : s.Ranked nodes) (nonneg : 0 ≤ rank)
    (unused : ∀ q ∈ nodes, s.rank q ≠ rank) : ∀ q ∈ nodes.head?, s.rank q < rank := by
  intro q first
  have zero := ranked.zero q first
  have other := unused q (List.mem_of_mem_head? first)
  rw [zero] at other ⊢
  exact lt_of_le_of_ne nonneg other

theorem congr (ranked : s.Ranked nodes) (head : s'.xstreamHead = s.xstreamHead)
    (next : ∀ q ∈ nodes, s'.next q = s.next q) (prev : ∀ q ∈ nodes, s'.prev q = s.prev q)
    (rank : ∀ q ∈ nodes, s'.rank q = s.rank q) : s'.Ranked nodes where
  lists := ranked.lists.congr head next prev rank
  zero q first := (rank q (List.mem_of_mem_head? first)).trans (ranked.zero q first)

variable [DecidableEq ι]

/-- **A stream is put in the list with an unused rank.** -/
theorem add (ranked : s.Ranked nodes) (enough : nodes.length < s.bound) (absent : p ∉ nodes)
    (nonneg : 0 ≤ rank) (unused : ∀ q ∈ nodes, s.rank q ≠ rank) (start : nodes = [] → rank = 0) :
    ∃ s' front back, (s.setRank p rank).addXstreamList p = some s' ∧ nodes = front ++ back ∧
      s'.Ranked (front ++ p :: back) ∧
      s' = { s with xstreamHead := s'.xstreamHead, next := s'.next, prev := s'.prev,
                    rank := Function.update s.rank p rank } := by
  have others : ∀ q ∈ nodes, (s.setRank p rank).rank q = s.rank q := fun q member =>
    Function.update_of_ne (ne_of_mem_of_not_mem member absent) _ _
  have own : (s.setRank p rank).rank p = rank := by simp [setRank]
  have before : (s.setRank p rank).Ranked nodes :=
    ranked.congr rfl (fun _ _ => rfl) (fun _ _ => rfl) others
  have free : ∀ q ∈ nodes, (s.setRank p rank).rank q ≠ (s.setRank p rank).rank p := by
    intro q member
    rw [others q member, own]
    exact unused q member
  have later := before.notFirst (own.symm ▸ nonneg) free
  obtain ⟨s', front, back, added, rfl, lists, same⟩ := before.lists.add enough absent free later
  refine ⟨s', front, back, added, rfl, ⟨lists, fun q first => ?_⟩, same⟩
  rw [same]
  cases front with
  | nil =>
      obtain rfl := Option.some.inj first
      cases back with
      | nil => exact own.trans (start rfl)
      | cons q back =>
          have above := List.rel_of_pairwise_cons lists.sorted (List.mem_cons_self : q ∈ q :: back)
          rw [same] at above
          exact absurd above (later q rfl).not_gt
  | cons other front => exact before.zero q first

/-- **A stream is taken out of the list**, if it is not the first one. -/
theorem remove (ranked : s.Ranked (front ++ p :: back)) (inner : front ≠ []) :
    ∃ s', s.removeXstreamList p = some s' ∧ s'.Ranked (front ++ back) ∧
      s' = { s with xstreamHead := s'.xstreamHead, next := s'.next, prev := s'.prev } := by
  obtain ⟨s', removed, lists, same⟩ := ranked.lists.remove
  refine ⟨s', removed, ⟨lists, fun q first => ?_⟩, same⟩
  rw [same]
  cases front with
  | nil => exact absurd rfl inner
  | cons other front => exact ranked.zero q first

end Ranked

namespace Numbered

variable {s s' : State ι} {nodes front back : List ι} {p q : ι} {rank : ℤ}

theorem enough (numbered : s.Numbered nodes) : nodes.length < s.bound := by
  rw [bound, numbered.count, Int.toNat_natCast]
  exact Nat.lt_succ_self _

variable [DecidableEq ι]

/-- **A new stream gets a rank.** -/
theorem takeRank (numbered : s.Numbered nodes) (absent : p ∉ nodes) (nonneg : 0 ≤ rank)
    (unused : ∀ q ∈ nodes, s.rank q ≠ rank) (start : nodes = [] → rank = 0) :
    ∃ s' front back, s.takeRank p rank = some (s', true) ∧ nodes = front ++ back ∧
      s'.Numbered (front ++ p :: back) ∧ s'.rank = Function.update s.rank p rank ∧
        s'.type = s.type ∧ s'.allocated = s.allocated := by
  obtain ⟨s', front, back, added, rfl, ranked, same⟩ :=
    numbered.add numbered.enough absent nonneg unused start
  have count : s'.numXstreams + 1 = ((front ++ p :: back).length : ℤ) := by
    rw [same]
    change s.numXstreams + 1 = _
    rw [numbered.count]
    simp
    omega
  refine ⟨_, front, back, by rw [State.takeRank, added, Option.map_some], rfl, ?_, ?_, ?_, ?_⟩
  · rw [updateMaxXstreams_eq]
    exact ⟨ranked.congr rfl (fun _ _ => rfl) (fun _ _ => rfl) fun _ _ => rfl, count⟩
  all_goals
    rw [updateMaxXstreams_eq, same]

/-- `xstream_set_new_rank` with an automatic rank -/
theorem setNewRank_auto (numbered : s.Numbered nodes) (p : ι) :
    ∃ unused, IsLeast {k : ℤ | 0 ≤ k ∧ ∀ q ∈ nodes, s.rank q ≠ k} unused ∧
      s.setNewRank p (-1) = s.takeRank p unused := by
  have whole : s.Lists ([] ++ nodes) := numbered.lists
  obtain ⟨unused, found, least⟩ := whole.findUnused numbered.enough le_rfl (by simp)
    (fun k positive less => absurd positive less.not_ge) fun q member => numbered.nonneg member
  refine ⟨unused, least, ?_⟩
  rw [setNewRank, if_pos rfl, numbered.lists.head, found, Option.bind_some]

/-- `xstream_set_new_rank` with a rank that the creator has chosen -/
theorem setNewRank_chosen (numbered : s.Numbered nodes) (nonneg : 0 ≤ rank) :
    s.setNewRank p rank =
      if ∀ q ∈ nodes, s.rank q ≠ rank then s.takeRank p rank else some (s, false) := by
  have whole : s.Lists ([] ++ nodes) := numbered.lists
  have other : rank ≠ -1 := by omega
  rw [setNewRank, if_neg other, numbered.lists.head, whole.isAvailable numbered.enough,
    Option.bind_some]
  simp only [decide_eq_true_eq]

/-- **A stream returns its rank.** -/
theorem returnRank (numbered : s.Numbered (front ++ p :: back)) (inner : front ≠ []) :
    ∃ s', s.returnRank p = some s' ∧ s'.Numbered (front ++ back) ∧ s'.rank = s.rank ∧
      s'.type = s.type ∧ s'.allocated = s.allocated := by
  obtain ⟨s', removed, ranked, same⟩ := numbered.remove inner
  have count : s'.numXstreams - 1 = ((front ++ back).length : ℤ) := by
    rw [same]
    change s.numXstreams - 1 = _
    rw [numbered.count]
    simp
    omega
  refine ⟨{ s' with numXstreams := s'.numXstreams - 1 },
    by rw [State.returnRank, removed, Option.map_some],
    ⟨ranked.congr rfl (fun _ _ => rfl) (fun _ _ => rfl) fun _ _ => rfl, count⟩, ?_, ?_, ?_⟩
  all_goals
    rw [same]

/-- **A stream changes its rank**, if the new one is not in use. -/
theorem changeRank (numbered : s.Numbered (front ++ p :: back)) (inner : front ≠ [])
    (nonneg : 0 ≤ rank) (unused : ∀ q ∈ front ++ p :: back, s.rank q ≠ rank) :
    ∃ s' front' back', s.changeRank p rank = some (s', true) ∧ front ++ back = front' ++ back' ∧
      s'.Numbered (front' ++ p :: back') ∧ s'.rank = Function.update s.rank p rank ∧
        s'.type = s.type ∧ s'.allocated = s.allocated := by
  have whole : s.Lists ([] ++ (front ++ p :: back)) := numbered.lists
  have absent : p ∉ front ++ back := (List.nodup_middle.mp numbered.lists.nodup).notMem
  have kept : ∀ q ∈ front ++ back, q ∈ front ++ p :: back := fun q member =>
    ((List.sublist_cons_self p back).append_left front).mem member
  obtain ⟨s₁, removed, ranked, same₁⟩ := numbered.remove inner
  have enough : (front ++ back).length < s₁.bound := by
    have bound : s₁.bound = s.bound := by rw [same₁]; rfl
    rw [bound]
    refine lt_of_le_of_lt ?_ numbered.enough
    simp
  have free : ∀ q ∈ front ++ back, s₁.rank q ≠ rank := by
    intro q member
    rw [same₁]
    exact unused q (kept q member)
  obtain ⟨s₂, front', back', added, split, ranked₂, same₂⟩ :=
    ranked.add enough absent nonneg free fun empty =>
      absurd (List.append_eq_nil_iff.mp empty).1 inner
  have count : s₂.numXstreams = ((front' ++ p :: back').length : ℤ) := by
    have lengths := congrArg List.length split
    rw [same₂, same₁]
    change s.numXstreams = _
    rw [numbered.count]
    simp only [List.length_append, List.length_cons] at lengths ⊢
    omega
  refine ⟨s₂.updateMaxXstreams rank, front', back', ?_, split, ?_, ?_, ?_, ?_⟩
  · rw [State.changeRank, if_neg (unused p (by simp)), numbered.lists.head,
      whole.isAvailable numbered.enough, Option.bind_some, decide_eq_true unused, if_pos rfl,
      removed, Option.bind_some, added, Option.map_some]
  · rw [updateMaxXstreams_eq]
    exact ⟨ranked₂.congr rfl (fun _ _ => rfl) (fun _ _ => rfl) fun _ _ => rfl, count⟩
  all_goals
    rw [updateMaxXstreams_eq, same₂, same₁]

/-- A rank that is in use is refused. -/
theorem changeRank_refused (numbered : s.Numbered nodes) (other : s.rank p ≠ rank)
    (used : ∃ q ∈ nodes, s.rank q = rank) : s.changeRank p rank = some (s, false) := by
  have whole : s.Lists ([] ++ nodes) := numbered.lists
  have taken : ¬∀ q ∈ nodes, s.rank q ≠ rank := by
    obtain ⟨q, member, same⟩ := used
    exact fun unused => unused q member same
  rw [State.changeRank, if_neg other, numbered.lists.head, whole.isAvailable numbered.enough,
    Option.bind_some, decide_eq_false taken, if_neg Bool.false_ne_true]

/-- A stream that has not been allocated is not in the list. -/
theorem malloc (numbered : s.Numbered nodes) (absent : p ∉ nodes) : (s.malloc p).Numbered nodes :=
  ⟨numbered.congr rfl
    (fun _ member => Function.update_of_ne (ne_of_mem_of_not_mem member absent) _ _)
    (fun _ member => Function.update_of_ne (ne_of_mem_of_not_mem member absent) _ _)
    fun _ _ => rfl, numbered.count⟩

/-- A stream that has taken an unused rank is not the first one. -/
theorem inner (numbered : s.Numbered nodes) (nonempty : nodes ≠ [])
    (unused : ∀ q ∈ nodes, s.rank q ≠ rank) (after : s'.Numbered (front ++ p :: back))
    (same : s'.rank = Function.update s.rank p rank) : front ≠ [] := by
  rintro rfl
  obtain ⟨first, rest, rfl⟩ := List.exists_cons_of_ne_nil nonempty
  have zero := after.zero p rfl
  rw [same, Function.update_self] at zero
  exact unused first List.mem_cons_self ((numbered.zero first rfl).trans zero.symm)

variable (type : XstreamType)

/-- **A creation with a rank that is not in use.** -/
theorem xstreamCreate (numbered : s.Numbered nodes) (absent : p ∉ nodes) (nonneg : 0 ≤ rank)
    (unused : ∀ q ∈ nodes, s.rank q ≠ rank) (start : nodes = [] → rank = 0) {chosen : ℤ}
    (found : (s.malloc p).setNewRank p chosen = (s.malloc p).takeRank p rank) :
    ∃ s' front back, s.xstreamCreate p type chosen true = some (s', .success) ∧
      nodes = front ++ back ∧ s'.Numbered (front ++ p :: back) ∧
        s'.rank = Function.update s.rank p rank ∧ s'.type = Function.update s.type p type ∧
          s'.allocated = Function.update s.allocated p true := by
  obtain ⟨s', front, back, taken, split, after, ranks, types, allocated⟩ :=
    (numbered.malloc absent).takeRank absent nonneg unused start
  refine ⟨s'.setType p type, front, back, ?_, split,
    ⟨after.congr rfl (fun _ _ => rfl) (fun _ _ => rfl) fun _ _ => rfl, after.count⟩, ranks, ?_,
    allocated⟩
  · rw [State.xstreamCreate, found, taken, Option.bind_some]
    rfl
  · rw [setType, types]
    rfl

/-- A creation that fails after it has taken a rank. -/
theorem xstreamCreate_failed (numbered : s.Numbered nodes) (nonempty : nodes ≠ [])
    (absent : p ∉ nodes) (nonneg : 0 ≤ rank) (unused : ∀ q ∈ nodes, s.rank q ≠ rank) {chosen : ℤ}
    (found : (s.malloc p).setNewRank p chosen = (s.malloc p).takeRank p rank) :
    ∃ s', s.xstreamCreate p type chosen false = some (s', .resource) ∧ s'.Numbered nodes ∧
      s'.rank = Function.update s.rank p rank ∧ s'.type = Function.update s.type p type ∧
        s'.allocated = Function.update s.allocated p false := by
  obtain ⟨s₁, front, back, taken, rfl, after, ranks, types, allocated⟩ :=
    (numbered.malloc absent).takeRank absent nonneg unused fun empty => absurd empty nonempty
  have typed : (s₁.setType p type).Numbered (front ++ p :: back) :=
    ⟨after.congr rfl (fun _ _ => rfl) (fun _ _ => rfl) fun _ _ => rfl, after.count⟩
  obtain ⟨s₂, returned, before, ranks₂, types₂, allocated₂⟩ := typed.returnRank
    (numbered.inner nonempty unused after ranks)
  refine ⟨s₂.free p, ?_,
    ⟨before.congr rfl (fun _ _ => rfl) (fun _ _ => rfl) fun _ _ => rfl, before.count⟩,
    ranks₂.trans ranks, ?_, ?_⟩
  · rw [State.xstreamCreate, found, taken, Option.bind_some]
    simp only [if_true, Bool.false_eq_true, if_false, returned, Option.map_some]
  · change s₂.type = _
    rw [types₂, setType, types]
    rfl
  · rw [State.free, setAllocated, allocated₂]
    change Function.update s₁.allocated p false = _
    rw [allocated]
    exact Function.update_idem _ _ _

/-- A creation with a rank that is in use. -/
theorem xstreamCreate_refused (numbered : s.Numbered nodes) (absent : p ∉ nodes) (nonneg : 0 ≤ rank)
    (used : ∃ q ∈ nodes, s.rank q = rank) (initialized : Bool) :
    ∃ s', s.xstreamCreate p type rank initialized = some (s', .invXstreamRank) ∧
      s'.Numbered nodes ∧ s'.rank = s.rank ∧ s'.type = s.type ∧
        s'.allocated = Function.update s.allocated p false := by
  have allocated := numbered.malloc absent
  have taken : ¬∀ q ∈ nodes, (s.malloc p).rank q ≠ rank := by
    obtain ⟨q, member, same⟩ := used
    exact fun unused => unused q member same
  refine ⟨(s.malloc p).free p, ?_,
    ⟨allocated.congr rfl (fun _ _ => rfl) (fun _ _ => rfl) fun _ _ => rfl, allocated.count⟩, rfl,
    rfl, Function.update_idem _ _ _⟩
  rw [State.xstreamCreate, allocated.setNewRank_chosen nonneg, if_neg taken, Option.bind_some]
  rfl

end Numbered

namespace Represents

variable {s s' : State ι} {nodes nodes' front back front' back' : List ι} {p q : ι} {rank : ℤ}

/-- The list after an operation that leaves the first stream. -/
theorem next (before : s.Represents nodes) (after : s'.Numbered nodes')
    (head : nodes'.head? = nodes.head?) (live : ∀ q, s'.allocated q = true ↔ q ∈ nodes')
    (types : ∀ q ∈ nodes', (q ∈ nodes ∧ s'.type q = s.type q) ∨
      (q ∉ nodes ∧ s'.type q = .secondary)) : s'.Represents nodes' where
  toNumbered := after
  live := live
  nonempty := by
    rintro rfl
    exact before.nonempty (List.head?_eq_none_iff.mp head.symm)
  primary q member := by
    rw [head]
    rcases types q member with ⟨old, same⟩ | ⟨new, secondary⟩
    · rw [same]
      exact before.primary q old
    · refine iff_of_false (by simp [secondary]) fun first => new ?_
      exact List.mem_of_mem_head? first

/-- The list after an operation that has failed. -/
theorem keep (before : s.Represents nodes) (after : s'.Numbered nodes)
    (types : ∀ q ∈ nodes, s'.type q = s.type q) (allocated : s'.allocated = s.allocated) :
    s'.Represents nodes :=
  before.next after rfl (fun q => allocated ▸ before.live q) fun q member =>
    .inl ⟨member, types q member⟩

theorem absent (represents : s.Represents nodes) (fresh : s.allocated p = false) : p ∉ nodes :=
  fun member => by simp [(represents.live p).mpr member] at fresh

/-- A secondary stream is not the first one. -/
theorem inner (represents : s.Represents (front ++ p :: back)) (secondary : s.type p ≠ .primary) :
    front ≠ [] := by
  rintro rfl
  exact secondary ((represents.primary p (by simp)).mpr rfl)

variable [DecidableEq ι]

/-- The list with a new stream. -/
theorem insert (before : s.Represents nodes) (absent : p ∉ nodes) (split : nodes = front ++ back)
    (inner : front ≠ []) (after : s'.Numbered (front ++ p :: back))
    (types : s'.type = Function.update s.type p .secondary)
    (allocated : s'.allocated = Function.update s.allocated p true) :
    s'.Represents (front ++ p :: back) := by
  subst split
  have members : ∀ q, q ∈ front ++ p :: back ↔ q = p ∨ q ∈ front ++ back := by
    intro q
    simp only [List.mem_append, List.mem_cons]
    tauto
  refine before.next after ?_ (fun q => ?_) fun q member => ?_
  · rw [List.head?_append_of_ne_nil _ inner, List.head?_append_of_ne_nil _ inner]
  · rw [members, allocated]
    rcases eq_or_ne q p with rfl | other
    · simp
    · rw [Function.update_of_ne other, before.live]
      exact (or_iff_right other).symm
  · rw [types]
    rcases (members q).mp member with rfl | old
    · exact .inr ⟨absent, Function.update_self _ _ _⟩
    · exact .inl ⟨old, Function.update_of_ne (ne_of_mem_of_not_mem old absent) _ _⟩

/-- The list without a stream. -/
theorem erase (before : s.Represents (front ++ p :: back)) (inner : front ≠ [])
    (after : s'.Numbered (front ++ back)) (types : s'.type = s.type)
    (allocated : s'.allocated = Function.update s.allocated p false) :
    s'.Represents (front ++ back) := by
  have absent : p ∉ front ++ back := (List.nodup_middle.mp before.lists.nodup).notMem
  have kept : ∀ q ∈ front ++ back, q ∈ front ++ p :: back := fun q member =>
    ((List.sublist_cons_self p back).append_left front).mem member
  refine before.next after ?_ (fun q => ?_) fun q member => ?_
  · rw [List.head?_append_of_ne_nil _ inner, List.head?_append_of_ne_nil _ inner]
  · rw [allocated]
    rcases eq_or_ne q p with rfl | other
    · simpa using absent
    · rw [Function.update_of_ne other, before.live]
      simp [other]
  · exact .inl ⟨kept q member, by rw [types]⟩

/-- The list with a stream at another place. -/
theorem move (before : s.Represents (front ++ p :: back)) (inner : front ≠ [])
    (split : front ++ back = front' ++ back') (inner' : front' ≠ [])
    (after : s'.Numbered (front' ++ p :: back')) (types : s'.type = s.type)
    (allocated : s'.allocated = s.allocated) : s'.Represents (front' ++ p :: back') := by
  have members : ∀ q, q ∈ front' ++ p :: back' ↔ q ∈ front ++ p :: back := by
    intro q
    have same : q ∈ front ++ back ↔ q ∈ front' ++ back' := by rw [split]
    simp only [List.mem_append, List.mem_cons] at same ⊢
    tauto
  refine before.next after ?_ (fun q => ?_) fun q member => ?_
  · have heads := congrArg List.head? split
    rw [List.head?_append_of_ne_nil _ inner, List.head?_append_of_ne_nil _ inner'] at heads
    rw [List.head?_append_of_ne_nil _ inner, List.head?_append_of_ne_nil _ inner', heads]
  · rw [allocated, before.live, members]
  · exact .inl ⟨(members q).mp member, by rw [types]⟩

end Represents

end State

/-! ## Operations -/

section Operations

variable {s s' : State ι} {nodes : List ι} {operation : Operation ι} {code : Code}

/-- The list, its streams and their number are the same. -/
structure Same (s s' : State ι) : Prop where
  head : s'.xstreamHead = s.xstreamHead
  numXstreams : s'.numXstreams = s.numXstreams
  allocated : s'.allocated = s.allocated
  xstreams : ∀ q, s.allocated q = true →
    s'.next q = s.next q ∧ s'.prev q = s.prev q ∧ s'.rank q = s.rank q ∧ s'.type q = s.type q

/-- A rank that no stream has. -/
def Unused (s : State ι) (rank : ℤ) : Prop := 0 ≤ rank ∧ ∀ q, s.allocated q = true → s.rank q ≠ rank

/-- An operation can be carried out. -/
def Operation.Succeeds (s : State ι) : Operation ι → Prop
  | .create _ initialized => initialized = true
  | .createWithRank _ rank initialized => Unused s rank ∧ initialized = true
  | .setRank p rank => s.type p ≠ .primary ∧ 0 ≤ rank ∧
      ∀ q, q ≠ p → s.allocated q = true → s.rank q ≠ rank
  | .free p => s.type p ≠ .primary

/-- What an operation does. -/
structure Outcome (s s' : State ι) (operation : Operation ι) (code : Code) : Prop where
  succeeds : code = .success ↔ operation.Succeeds s
  failed : code ≠ .success → Same s s'
  listed : code = .success → s'.allocated operation.xstream = operation.listed
  count : code = .success → s'.numXstreams = s.numXstreams + operation.added
  others : ∀ q, q ≠ operation.xstream → s'.allocated q = s.allocated q ∧
    (s.allocated q = true → s'.rank q = s.rank q)
  automatic : ∀ p initialized, operation = .create p initialized → code = .success →
    IsLeast {rank | Unused s rank} (s'.rank p)
  chosen : ∀ rank, operation.rank = some rank → code = .success →
    s'.rank operation.xstream = rank
  taken : ∀ rank, operation.rank = some rank →
    (∃ q, q ≠ operation.xstream ∧ s.allocated q = true ∧ s.rank q = rank) → code ≠ .success
  refused : code = .invXstreamRank → ∃ rank, operation.rank = some rank ∧
    (rank < 0 ∨ ∃ q, q ≠ operation.xstream ∧ s.allocated q = true ∧ s.rank q = rank)

/-- Two states with the same list have the same links. -/
theorem Same.of_represents (before : s.Represents nodes) (after : s'.Represents nodes)
    (kept : ∀ q ∈ nodes, s'.rank q = s.rank q ∧ s'.type q = s.type q) : Same s s' where
  head := after.lists.head.trans before.lists.head.symm
  numXstreams := after.count.trans before.count.symm
  allocated := by
    funext q
    rw [Bool.eq_iff_iff, before.live, after.live]
  xstreams q live := by
    have member := (before.live q).mp live
    obtain ⟨front, back, rfl⟩ := List.append_of_mem member
    refine ⟨?_, ?_, kept q member⟩
    · rw [after.lists.linked.next_eq, before.lists.linked.next_eq]
    · rw [after.lists.linked.prev_eq, before.lists.linked.prev_eq]

variable [DecidableEq ι]

/-- **A creation of a secondary stream with an unused rank.** -/
theorem create_unused (before : s.Represents nodes) {p : ι} (fresh : s.allocated p = false)
    {rank chosen : ℤ} (unused : Unused s rank)
    (found : (s.malloc p).setNewRank p chosen = (s.malloc p).takeRank p rank) (initialized : Bool) :
    ∃ s' nodes', s.xstreamCreate p .secondary chosen initialized =
        some (s', if initialized then .success else .resource) ∧ s'.Represents nodes' ∧
      (initialized = false → Same s s') ∧ (initialized = true → s'.numXstreams = s.numXstreams + 1) ∧
        s'.rank = Function.update s.rank p rank ∧
          s'.allocated = Function.update s.allocated p initialized := by
  have absent := before.absent fresh
  have free : ∀ q ∈ nodes, s.rank q ≠ rank := fun q member =>
    unused.2 q ((before.live q).mpr member)
  cases initialized with
  | true =>
      obtain ⟨s', front, back, created, split, after, ranks, types, allocated⟩ :=
        before.xstreamCreate .secondary absent unused.1 free
          (fun empty => absurd empty before.nonempty) found
      refine ⟨s', _, created, before.insert absent split
        (before.toNumbered.inner before.nonempty free after ranks) after types allocated,
        nofun, fun _ => ?_, ranks, allocated⟩
      rw [after.count, before.count, split]
      simp only [List.length_append, List.length_cons, Nat.cast_add, Nat.cast_one]
      omega
  | false =>
      obtain ⟨s', created, after, ranks, types, allocated⟩ :=
        before.xstreamCreate_failed .secondary before.nonempty absent unused.1 free found
      have live : s'.allocated = s.allocated := by
        rw [allocated, ← fresh, Function.update_eq_self]
      have kept : ∀ q ∈ nodes, s'.rank q = s.rank q ∧ s'.type q = s.type q := by
        intro q member
        have other := ne_of_mem_of_not_mem member absent
        rw [ranks, types, Function.update_of_ne other, Function.update_of_ne other]
        exact ⟨rfl, rfl⟩
      have represents := before.keep after (fun q member => (kept q member).2) live
      exact ⟨s', nodes, created, represents, fun _ => .of_represents before represents kept, nofun,
        ranks, allocated⟩

omit [DecidableEq ι] in
theorem Same.refl (s : State ι) : Same s s := ⟨rfl, rfl, rfl, fun _ _ => ⟨rfl, rfl, rfl, rfl⟩⟩

omit [DecidableEq ι] in
/-- An operation that changes nothing. -/
theorem Outcome.unchanged (failed : code ≠ .success) (fails : ¬operation.Succeeds s)
    (refused : code = .invXstreamRank → ∃ rank, operation.rank = some rank ∧
      (rank < 0 ∨ ∃ q, q ≠ operation.xstream ∧ s.allocated q = true ∧ s.rank q = rank)) :
    Outcome s s operation code where
  succeeds := iff_of_false failed fails
  failed _ := .refl s
  listed success := absurd success failed
  count success := absurd success failed
  others _ _ := ⟨rfl, fun _ => rfl⟩
  automatic _ _ _ success := absurd success failed
  chosen _ _ success := absurd success failed
  taken _ _ _ := failed
  refused := refused

/-- The code of a creation that has taken its rank -/
theorem created_iff (initialized : Bool) :
    (if initialized then Code.success else .resource) = .success ↔ initialized = true := by
  cases initialized <;> decide

theorem perform_create (before : s.Represents nodes) {p : ι} (fresh : s.allocated p = false)
    (initialized : Bool) :
    ∃ s' code nodes', (Operation.create p initialized).perform s = some (s', code) ∧
      s'.Represents nodes' ∧ Outcome s s' (.create p initialized) code := by
  obtain ⟨rank, least, found⟩ :=
    (before.malloc (before.absent fresh)).setNewRank_auto p
  have same : {rank : ℤ | Unused s rank} =
      {k : ℤ | 0 ≤ k ∧ ∀ q ∈ nodes, (s.malloc p).rank q ≠ k} := by
    ext k
    exact and_congr_right fun _ => forall_congr' fun q => by rw [before.live]; rfl
  rw [← same] at least
  obtain ⟨s', nodes', created, after, failed, count, ranks, allocated⟩ :=
    create_unused before fresh least.1 found initialized
  have own : s'.allocated p = initialized := by rw [allocated, Function.update_self]
  refine ⟨s', _, nodes', created, after, ⟨created_iff initialized, fun unsuccessful => ?_,
    fun success => ?_, fun success => count ((created_iff initialized).mp success),
    fun q (other : q ≠ p) => ⟨?_, fun _ => ?_⟩, ?_, nofun, nofun, fun refused => ?_⟩⟩
  · exact failed (eq_false_of_ne_true fun is => unsuccessful ((created_iff _).mpr is))
  · exact own.trans ((created_iff initialized).mp success)
  · rw [allocated, Function.update_of_ne other]
  · rw [ranks, Function.update_of_ne other]
  · rintro q _ ⟨⟩ -
    rw [ranks, Function.update_self]
    exact least
  · cases initialized <;> cases refused

theorem perform_createWithRank (before : s.Represents nodes) {p : ι} (fresh : s.allocated p = false)
    (rank : ℤ) (initialized : Bool) :
    ∃ s' code nodes', (Operation.createWithRank p rank initialized).perform s = some (s', code) ∧
      s'.Represents nodes' ∧ Outcome s s' (.createWithRank p rank initialized) code := by
  have absent := before.absent fresh
  rw [Operation.perform]
  split
  next nonneg =>
    by_cases unused : ∀ q ∈ nodes, s.rank q ≠ rank
    · have found : (s.malloc p).setNewRank p rank = (s.malloc p).takeRank p rank :=
        ((before.malloc absent).setNewRank_chosen nonneg).trans (if_pos unused)
      have free : Unused s rank := ⟨nonneg, fun q live => unused q ((before.live q).mp live)⟩
      obtain ⟨s', nodes', created, after, failed, count, ranks, allocated⟩ :=
        create_unused before fresh free found initialized
      have own : s'.allocated p = initialized := by rw [allocated, Function.update_self]
      refine ⟨s', _, nodes', created, after, ⟨(created_iff initialized).trans
        (and_iff_right free).symm, fun unsuccessful => ?_, fun success => ?_,
        fun success => count ((created_iff initialized).mp success),
        fun q (other : q ≠ p) => ⟨?_, fun _ => ?_⟩, nofun, ?_, ?_, fun refused => ?_⟩⟩
      · exact failed (eq_false_of_ne_true fun is => unsuccessful ((created_iff _).mpr is))
      · exact own.trans ((created_iff initialized).mp success)
      · rw [allocated, Function.update_of_ne other]
      · rw [ranks, Function.update_of_ne other]
      · rintro _ ⟨⟩ -
        exact ranks ▸ Function.update_self p rank s.rank
      · rintro _ ⟨⟩ ⟨q, -, live, same⟩
        exact absurd same (free.2 q live)
      · cases initialized <;> cases refused
    · push Not at unused
      obtain ⟨s', created, after, ranks, types, allocated⟩ :=
        before.xstreamCreate_refused .secondary absent nonneg unused initialized
      have live : s'.allocated = s.allocated := by
        rw [allocated, ← fresh, Function.update_eq_self]
      have represents := before.keep after (fun q _ => by rw [types]) live
      obtain ⟨q, member, same⟩ := unused
      have alive := (before.live q).mpr member
      refine ⟨s', .invXstreamRank, nodes, created, represents, ⟨iff_of_false nofun ?_,
        fun _ => .of_represents before represents fun q _ => by rw [ranks, types]; exact ⟨rfl, rfl⟩,
        nofun, nofun, fun q _ => ⟨by rw [live], fun _ => by rw [ranks]⟩, nofun, nofun,
        fun _ _ _ => nofun, fun _ => ⟨rank, rfl, .inr ⟨q, ?_, alive, same⟩⟩⟩⟩
      · exact fun succeeds => succeeds.1.2 q alive same
      · exact ne_of_mem_of_not_mem member absent
  next negative =>
    exact ⟨s, .invXstreamRank, nodes, rfl, before, .unchanged nofun
      (fun succeeds => negative succeeds.1.1) fun _ => ⟨rank, rfl, .inl (not_le.mp negative)⟩⟩

theorem perform_setRank (before : s.Represents nodes) {p : ι} (live : s.allocated p = true)
    (rank : ℤ) :
    ∃ s' code nodes', (Operation.setRank p rank).perform s = some (s', code) ∧
      s'.Represents nodes' ∧ Outcome s s' (.setRank p rank) code := by
  obtain ⟨front, back, rfl⟩ := List.append_of_mem ((before.live p).mp live)
  rw [Operation.perform]
  split
  next primary =>
    exact ⟨s, .invXstream, _, rfl, before, .unchanged nofun (fun succeeds => succeeds.1 primary)
      nofun⟩
  next secondary =>
    have inner := before.inner secondary
    split
    next nonneg =>
      by_cases unused : ∀ q ∈ front ++ p :: back, s.rank q ≠ rank
      · obtain ⟨s', front', back', changed, split, after, ranks, types, allocated⟩ :=
          before.changeRank inner nonneg unused
        have inner' : front' ≠ [] := before.toNumbered.inner before.nonempty unused after ranks
        have lengths := congrArg List.length split
        refine ⟨s', .success, _, by rw [changed]; rfl,
          before.move inner split inner' after types allocated, ⟨iff_of_true rfl ⟨secondary, nonneg,
            fun q _ alive => unused q ((before.live q).mp alive)⟩, fun failed => absurd rfl failed,
          fun _ => ?_, fun _ => ?_,
          fun q (other : q ≠ p) => ⟨by rw [allocated], fun _ => ?_⟩, nofun, ?_, ?_, nofun⟩⟩
        · exact (congrFun allocated p).trans live
        · rw [after.count, before.count]
          simp only [List.length_append, List.length_cons, Operation.added] at lengths ⊢
          omega
        · rw [ranks, Function.update_of_ne other]
        · rintro _ ⟨⟩ -
          exact ranks ▸ Function.update_self p rank s.rank
        · rintro _ ⟨⟩ ⟨q, -, alive, same⟩
          exact absurd same (unused q ((before.live q).mp alive))
      · push Not at unused
        obtain ⟨q, member, same⟩ := unused
        rcases eq_or_ne (s.rank p) rank with own | other
        · have free : ∀ r, r ≠ p → s.allocated r = true → s.rank r ≠ rank := by
            intro r differs alive taken
            have member := (before.live r).mp alive
            have distinct := before.lists.rank_ne member ((before.live p).mp live) differs
            exact absurd (taken.trans own.symm) distinct
          refine ⟨s, .success, _, by rw [State.changeRank, if_pos own]; rfl, before,
            ⟨iff_of_true rfl ⟨secondary, nonneg, free⟩, fun failed => absurd rfl failed,
            fun _ => live, fun _ => (Int.add_zero _).symm, fun _ _ => ⟨rfl, fun _ => rfl⟩, nofun,
            ?_, ?_, nofun⟩⟩
          · rintro _ ⟨⟩ -
            exact own
          · rintro _ ⟨⟩ ⟨r, differs, alive, taken⟩
            exact absurd taken (free r differs alive)
        · have distinct : q ≠ p := by
            rintro rfl
            exact other same
          have alive := (before.live q).mpr member
          refine ⟨s, .invXstreamRank, _, ?_, before, .unchanged nofun
            (fun succeeds => succeeds.2.2 q distinct alive same)
            fun _ => ⟨rank, rfl, .inr ⟨q, distinct, alive, same⟩⟩⟩
          rw [before.changeRank_refused other ⟨q, member, same⟩]
          rfl
    next negative =>
      exact ⟨s, .invXstreamRank, _, rfl, before, .unchanged nofun
        (fun succeeds => negative succeeds.2.1) fun _ => ⟨rank, rfl, .inl (not_le.mp negative)⟩⟩

theorem perform_free (before : s.Represents nodes) {p : ι} (live : s.allocated p = true) :
    ∃ s' code nodes', (Operation.free p).perform s = some (s', code) ∧
      s'.Represents nodes' ∧ Outcome s s' (.free p) code := by
  obtain ⟨front, back, rfl⟩ := List.append_of_mem ((before.live p).mp live)
  rw [Operation.perform]
  split
  next primary =>
    exact ⟨s, .invXstream, _, rfl, before, .unchanged nofun (fun succeeds => succeeds primary)
      nofun⟩
  next secondary =>
    have inner := before.inner secondary
    obtain ⟨s', returned, after, ranks, types, allocated⟩ := before.returnRank inner
    have freed : (s'.free p).allocated = Function.update s.allocated p false := by
      rw [State.free, State.setAllocated, allocated]
    have numbered : (s'.free p).Numbered (front ++ back) :=
      ⟨after.congr rfl (fun _ _ => rfl) (fun _ _ => rfl) fun _ _ => rfl, after.count⟩
    refine ⟨s'.free p, .success, _, by rw [returned]; rfl,
      before.erase inner numbered types freed, ⟨iff_of_true rfl secondary,
      fun failed => absurd rfl failed, fun _ => ?_, fun _ => ?_,
      fun q (other : q ≠ p) => ⟨?_, fun _ => congrFun ranks q⟩, nofun, nofun, nofun, nofun⟩⟩
    · exact (congrFun freed p).trans (Function.update_self ..)
    · rw [numbered.count, before.count]
      simp only [List.length_append, List.length_cons, Operation.added]
      omega
    · rw [freed, Function.update_of_ne other]

theorem Represents.perform (before : s.Represents nodes) (valid : operation.Valid s) :
    ∃ s' code nodes', operation.perform s = some (s', code) ∧ s'.Represents nodes' ∧
      Outcome s s' operation code := by
  cases operation with
  | create p initialized => exact perform_create before valid initialized
  | createWithRank p rank initialized => exact perform_createWithRank before valid rank initialized
  | setRank p rank => exact perform_setRank before valid rank
  | free p => exact perform_free before valid

/-- The list after initialization. -/
theorem Represents.of_begins (begins : Begins s) : ∃ nodes, s.Represents nodes := by
  obtain ⟨empty, p, head, count, fresh, created⟩ := begins
  have numbered : empty.Numbered [] := ⟨⟨⟨head, .nil, .nil⟩, nofun⟩, count⟩
  obtain ⟨rank, least, found⟩ := (numbered.malloc (List.not_mem_nil : p ∉ [])).setNewRank_auto p
  have zero : rank = 0 := least.unique ⟨⟨le_rfl, by simp⟩, fun k inSet => inSet.1⟩
  obtain ⟨s', front, back, again, split, after, ranks, types, allocated⟩ :=
    numbered.xstreamCreate .primary List.not_mem_nil least.1.1 (by simp) (fun _ => zero) found
  obtain ⟨rfl, rfl⟩ := List.append_eq_nil_iff.mp split.symm
  obtain rfl : s' = s := congrArg Prod.fst (Option.some.inj (again.symm.trans created))
  refine ⟨[p], after, fun q => ?_, fun q member => ?_, List.cons_ne_nil p []⟩
  · rcases eq_or_ne q p with rfl | other
    · simp [allocated]
    · simp [allocated, other, fresh q]
  · obtain rfl := List.mem_singleton.mp member
    simp [types]

end Operations

/-! ## Runs -/

/-- **The list of execution streams stays sorted by unique ranks**, headed by the primary stream,
and every operation returns and does what it is for. -/
theorem streamList_sorted {ι : Type u} [DecidableEq ι] {s : State ι}
    (reachable : (streamLists ι).Reachable (fun s operation => operation.Valid s) s) :
    (∃ nodes, s.Represents nodes) ∧ ∀ operation : Operation ι, operation.Valid s →
      ∃ s' code, operation.perform s = some (s', code) ∧ (∃ nodes, s'.Represents nodes) ∧
        Outcome s s' operation code := by
  have represents : ∃ nodes, s.Represents nodes := by
    refine Machine.invariant_of_returns Operation.perform (fun s => ∃ nodes, s.Represents nodes)
      (fun _ _ => rfl) (fun _ => Represents.of_begins) ?_ reachable
    rintro s operation valid ⟨nodes, before⟩
    obtain ⟨s', code, nodes', performed, after, -⟩ := Represents.perform before valid
    exact ⟨s', code, performed, nodes', after⟩
  refine ⟨represents, fun operation valid => ?_⟩
  obtain ⟨nodes, before⟩ := represents
  obtain ⟨s', code, nodes', performed, after, outcome⟩ := Represents.perform before valid
  exact ⟨s', code, performed, ⟨nodes', after⟩, outcome⟩

def emptyList : State ℕ where
  xstreamHead := none
  numXstreams := 0
  maxXstreams := 4
  prev _ := none
  next _ := none
  rank _ := 0
  type _ := .secondary
  allocated _ := false

def primaryOnly : State ℕ :=
  ((emptyList.xstreamCreate 0 .primary (-1) true).map Prod.fst).getD emptyList

/-- Three secondary streams are created and one changes its rank, while the rank that it leaves is
taken by the last one. -/
theorem streamList_sorted_four : ∃ s : State ℕ, (∃ nodes, s.Represents nodes) ∧
    s.xstreamHead = some 0 ∧ s.next 0 = some 3 ∧ s.next 3 = some 2 ∧ s.next 2 = some 1 := by
  have begins : Begins primaryOnly := ⟨emptyList, 0, rfl, rfl, fun _ => rfl, rfl⟩
  obtain ⟨s, reachable, links⟩ := Machine.exists_reachable_of_play
    (fun s (operation : Operation ℕ) => operation.Valid s) (M := streamLists ℕ) begins
    [.create 1 true, .createWithRank 2 5 true, .createWithRank 3 5 true, .setRank 1 7,
      .create 3 true]
    (fun s => s.xstreamHead = some 0 ∧ s.next 0 = some 3 ∧ s.next 3 = some 2 ∧ s.next 2 = some 1)
    (by decide +kernel)
  exact ⟨s, (streamList_sorted reachable).1, of_decide_eq_true links⟩

end ArgobotsReduction.Streams
