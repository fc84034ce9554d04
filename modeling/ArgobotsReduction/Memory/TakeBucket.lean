import ArgobotsReduction.Memory.PartialBucket

/-!
# Taking a bucket

Without a bucket in the LIFO, headers are carved from pages until there are
enough for a bucket.  The headers of one page are new (`Found.fresh`), and are
linked in front of those taken before (`linkHeaders_linked`).  The loop never
fails its assertion: it ends with a full bucket, or has carved all that the
pages left and the granted allocations provide (`allocateHeaders_spec`).  A
header carved before is not written (`allocateHeaders_frame`).
-/

set_option autoImplicit false

namespace ArgobotsReduction.Memory.MemPool

open Containers

variable {config : Config} {pool : GlobalPool}

/-! ## The headers of a page -/

theorem mem_headersAt {page memExtra count : ℕ} {header : Header} :
    header ∈ headersAt config page memExtra count ↔ header.page = page ∧
      ∃ index < count, header.offset = memExtra + config.headerSize * index +
        config.headerOffset := by
  induction count with
  | zero => simp [headersAt]
  | succ count ih =>
      rw [headersAt, List.mem_cons, ih]
      constructor
      · rintro (rfl | ⟨samePage, index, below, offset⟩)
        · exact ⟨rfl, count, Nat.lt_succ_self count, rfl⟩
        · exact ⟨samePage, index, Nat.lt_succ_of_lt below, offset⟩
      · rintro ⟨rfl, index, below, offset⟩
        rcases Nat.lt_succ_iff_lt_or_eq.mp below with less | rfl
        · exact Or.inr ⟨rfl, index, less, offset⟩
        · exact Or.inl (by cases header; simp_all)

@[simp]
theorem length_headersAt {page memExtra count : ℕ} :
    (headersAt config page memExtra count).length = count := by
  induction count with
  | zero => rfl
  | succ count ih => rw [headersAt, List.length_cons, ih]

theorem nodup_headersAt (config : Config) (page memExtra count : ℕ) :
    (headersAt config page memExtra count).Nodup := by
  induction count with
  | zero => exact List.nodup_nil
  | succ count ih =>
      refine List.nodup_cons.mpr ⟨fun member => ?_, ih⟩
      obtain ⟨-, index, below, offset⟩ := mem_headersAt.mp member
      have same : config.headerSize * count = config.headerSize * index := by
        have : memExtra + config.headerSize * count + config.headerOffset =
          memExtra + config.headerSize * index + config.headerOffset := offset
        omega
      exact Nat.ne_of_gt below (Nat.eq_of_mul_eq_mul_left config.headerSize_pos same)

theorem linkHeaders_of_notMem {page memExtra count : ℕ} {next : Header → Option Header}
    {head : Option Header} {header : Header}
    (absent : header ∉ headersAt config page memExtra count) :
    (linkHeaders config page memExtra next head count).1 header = next header := by
  induction count with
  | zero => rfl
  | succ count ih =>
      rw [headersAt, List.mem_cons, not_or] at absent
      exact (Function.update_of_ne absent.1 _ _).trans (ih absent.2)

/-- **The headers of a page are linked in front of those taken before.** -/
theorem linkHeaders_linked {page memExtra count : ℕ} {next : Header → Option Header}
    {head : Option Header} {taken : List Header} (linked : Linked next head taken)
    (fresh : ∀ header ∈ headersAt config page memExtra count, header ∉ taken) :
    Linked (linkHeaders config page memExtra next head count).1
      (linkHeaders config page memExtra next head count).2
      (headersAt config page memExtra count ++ taken) := by
  induction count with
  | zero => exact linked
  | succ count ih =>
      have nodup := nodup_headersAt config page memExtra (count + 1)
      rw [headersAt, List.cons_append]
      refine ⟨rfl, ?_⟩
      simp only [linkHeaders, Function.update_self]
      refine (ih fun header member => fresh header (List.mem_cons_of_mem _ member)).congr ?_
      intro header member
      refine Function.update_of_ne (ne_of_mem_of_not_mem member fun again => ?_) _ _
      rcases List.mem_append.mp again with here | there
      · exact (List.nodup_cons.mp nodup).1 here
      · exact fresh _ List.mem_cons_self there

/-! ## Pages -/

/-- What is known of a page that was taken, and of the pool without it. -/
structure Found (config : Config) (grants : ℕ) (pool : GlobalPool) (page left : ℕ)
    (found : GlobalPool) : Prop where
  next : found.next = pool.next
  bucketInfo : found.bucketInfo = pool.bucketInfo
  bucketLifo : found.bucketLifo = pool.bucketLifo
  partialBucket : found.partialBucket = pool.partialBucket
  carved : ∀ header, Carved config found header ↔ Carved config pool header
  pages : PagesRight config found
  page_lt : page < found.numPages
  notLifo : page ∉ found.memPageLifo
  room : config.headerSize ≤ (found.pages page).memExtraSize
  supply : available config grants pool =
    (found.pages page).memExtraSize / config.headerSize + available config left found

theorem takePage_none {grants : ℕ} (failed : takePage config grants pool = none) :
    available config grants pool = 0 := by
  unfold takePage at failed
  split at failed
  · exact absurd failed (by simp)
  · rename_i empty
    split at failed
    · simp [available, empty]
    · exact absurd failed (by simp)

/-- **A page taken has room for a header.** -/
theorem takePage_found {grants page left : ℕ} {found : GlobalPool}
    (right : PagesRight config pool)
    (taken : takePage config grants pool = some (page, left, found)) :
    Found config grants pool page left found := by
  unfold takePage at taken
  split at taken
  · rename_i first rest lifo
    obtain ⟨rfl, rfl, rfl⟩ := by simpa using taken
    have nodup := right.nodup
    rw [lifo, List.nodup_cons] at nodup
    have atFirst := right.room first (lifo ▸ List.mem_cons_self)
    exact
      { next := rfl
        bucketInfo := rfl
        bucketLifo := rfl
        partialBucket := rfl
        carved := fun _ => Iff.rfl
        pages :=
          { whole := right.whole
            room := fun page member => right.room page (lifo ▸ List.mem_cons_of_mem _ member)
            nodup := nodup.2 }
        page_lt := atFirst.1
        notLifo := nodup.1
        room := atFirst.2
        supply := by simp [available, lifo, Nat.add_assoc] }
  · rename_i empty
    split at taken
    · exact absurd taken (by simp)
    · rename_i less
      obtain ⟨rfl, rfl, rfl⟩ := by simpa using taken
      exact
        { next := rfl
          bucketInfo := rfl
          bucketLifo := rfl
          partialBucket := rfl
          carved := by
            intro header
            rcases eq_or_ne header.page pool.numPages with same | different
            · simp [Carved, same]
            · simp only [Carved, Function.update_of_ne different]
              refine and_congr_left fun _ => ?_
              omega
          pages :=
            { whole := by
                intro page
                rcases eq_or_ne page pool.numPages with rfl | different
                · simp
                · simp only [Function.update_of_ne different]
                  exact right.whole page
              room := by simp [empty]
              nodup := by simp [empty] }
          page_lt := Nat.lt_succ_self _
          notLifo := by simp [empty]
          room := by simpa using config.page_provides
          supply := by
            simp [available, empty, Nat.add_mul, Nat.add_comm] }

theorem Found.mem_headersAt_iff {grants page left : ℕ} {found : GlobalPool}
    (here : Found config grants pool page left found) {count : ℕ} {header : Header} :
    header ∈ headersAt config page (found.pages page).memExtra count ↔ header.page = page ∧
      ∃ index, (found.pages page).memExtra / config.headerSize ≤ index ∧
        index < (found.pages page).memExtra / config.headerSize + count ∧
        header.offset = config.headerSize * index + config.headerOffset := by
  obtain ⟨multiple, whole⟩ := here.pages.whole page
  rw [mem_headersAt, whole, Nat.mul_div_cancel_left _ config.headerSize_pos]
  refine and_congr_right fun _ => ⟨?_, ?_⟩
  · rintro ⟨index, below, offset⟩
    exact ⟨multiple + index, Nat.le_add_right _ _, Nat.add_lt_add_left below _, by
      rw [offset, Nat.mul_add]⟩
  · rintro ⟨index, atLeast, below, offset⟩
    obtain ⟨more, rfl⟩ := Nat.exists_eq_add_of_le atLeast
    exact ⟨more, Nat.lt_of_add_lt_add_left below, by rw [offset, Nat.mul_add]⟩

/-- **The headers carved from a page were not carved before.** -/
theorem Found.fresh {grants page left : ℕ} {found : GlobalPool}
    (here : Found config grants pool page left found) {count : ℕ} {header : Header}
    (member : header ∈ headersAt config page (found.pages page).memExtra count) :
    ¬Carved config pool header := by
  rw [← here.carved]
  rintro ⟨-, index, below, offset⟩
  obtain ⟨rfl, other, atLeast, -, otherOffset⟩ := here.mem_headersAt_iff.mp member
  have same : config.headerSize * index = config.headerSize * other := by omega
  have equal := Nat.eq_of_mul_eq_mul_left config.headerSize_pos same
  omega

/-- The pool after headers of the page are carved and linked. -/
theorem Found.carved_fill {grants page left : ℕ} {found : GlobalPool}
    (here : Found config grants pool page left found) {count : ℕ} {next : Header → Option Header}
    (header : Header) :
    Carved config { takeMemory config found page count with next := next } header ↔
      header ∈ headersAt config page (found.pages page).memExtra count ∨
        Carved config pool header := by
  rw [← here.carved, here.mem_headersAt_iff]
  rcases eq_or_ne header.page page with rfl | different
  · simp only [Carved, takeMemory, Function.update_self, true_and, here.page_lt,
      Nat.add_mul_div_left _ _ config.headerSize_pos]
    constructor
    · rintro ⟨index, below, offset⟩
      rcases Nat.lt_or_ge index ((found.pages header.page).memExtra / config.headerSize) with
        less | atLeast
      · exact Or.inr ⟨index, less, offset⟩
      · exact Or.inl ⟨index, atLeast, below, offset⟩
    · rintro (⟨index, -, below, offset⟩ | ⟨index, below, offset⟩)
      · exact ⟨index, below, offset⟩
      · exact ⟨index, Nat.lt_add_right _ below, offset⟩
  · simp only [Carved, takeMemory, Function.update_of_ne different, different, false_and,
      false_or]

theorem Found.pages_fill {grants page left : ℕ} {found : GlobalPool}
    (here : Found config grants pool page left found) {count : ℕ} {next : Header → Option Header} :
    PagesRight config { takeMemory config found page count with next := next } where
  whole := by
    intro other
    rcases eq_or_ne other page with rfl | different
    · simp only [takeMemory, Function.update_self]
      exact Nat.dvd_add (here.pages.whole other) (Nat.dvd_mul_right _ _)
    · simp only [takeMemory, Function.update_of_ne different]
      exact here.pages.whole other
  room := by
    intro other member
    have old : other ∈ found.memPageLifo → other < found.numPages ∧
        config.headerSize ≤ ((takeMemory config found page count).pages other).memExtraSize := by
      intro before
      simp only [takeMemory,
        Function.update_of_ne (ne_of_mem_of_not_mem before here.notLifo)]
      exact here.pages.room other before
    simp only [takeMemory] at member
    split at member
    · rename_i room
      rcases List.mem_cons.mp member with rfl | before
      · exact ⟨here.page_lt, by simpa only [takeMemory, Function.update_self] using room⟩
      · exact old before
    · exact old member
  nodup := by
    simp only [takeMemory]
    split
    · exact List.nodup_cons.mpr ⟨here.notLifo, here.pages.nodup⟩
    · exact here.pages.nodup

theorem Found.supply_fill {grants page left : ℕ} {found : GlobalPool}
    (here : Found config grants pool page left found) (next : Header → Option Header) {count : ℕ}
    (bound : count ≤ (found.pages page).memExtraSize / config.headerSize) :
    count + available config left { takeMemory config found page count with next := next } =
      available config grants pool := by
  have others : (found.memPageLifo.map fun other =>
      ((takeMemory config found page count).pages other).memExtraSize / config.headerSize) =
      found.memPageLifo.map fun other =>
        (found.pages other).memExtraSize / config.headerSize := by
    refine List.map_congr_left fun other member => ?_
    simp only [takeMemory, Function.update_of_ne (ne_of_mem_of_not_mem member here.notLifo)]
  have rest : ((found.pages page).memExtraSize - config.headerSize * count) / config.headerSize =
      (found.pages page).memExtraSize / config.headerSize - count := Nat.sub_mul_div _ _ _
  rw [here.supply, available, available]
  simp only [takeMemory] at others ⊢
  split
  · rw [List.map_cons, List.sum_cons, others, Function.update_self, rest]
    omega
  · rename_i full
    have none_left := Nat.div_eq_of_lt (Nat.lt_of_not_le full)
    rw [rest] at none_left
    rw [others]
    omega

/-! ## The loop -/

/-- The number of headers is written to the first of those outside the pool. -/
theorem Laid.setNumHeaders {outside : Multiset Header} {full : List (List Header)}
    {part taken : List Header} {bucket : Header} (count : ℤ)
    (laid : Laid config pool (outside + (taken : Multiset Header)) full part)
    (member : bucket ∈ taken) :
    Laid config (pool.setNumHeaders (some bucket) count) (outside + (taken : Multiset Header))
      full part := by
  have apart := laid.apart
  refine laid.rearrange (laid.chains.frame rfl rfl (fun _ _ => rfl) fun header inPart => ?_)
    rfl rfl rfl rfl
  exact Function.update_of_ne (ne_of_mem_of_not_mem inPart (apart.notPart bucket member)) _ _

/-- **One round of the loop carves new headers and links them in front.** -/
theorem Found.fill {outside : Multiset Header} {full : List (List Header)}
    {part taken : List Header} {head : Option Header} {grants page left : ℕ} {found : GlobalPool}
    (here : Found config grants pool page left found)
    (laid : Laid config pool (outside + (taken : Multiset Header)) full part)
    (linked : Linked pool.next head taken) (count : ℕ) {next : Header → Option Header}
    (written : next =
      (linkHeaders config page (found.pages page).memExtra found.next head count).1) :
    Laid config { takeMemory config found page count with next := next }
        (outside + (headersAt config page (found.pages page).memExtra count ++ taken :
          List Header)) full part ∧
      Linked next
        (linkHeaders config page (found.pages page).memExtra found.next head count).2
        (headersAt config page (found.pages page).memExtra count ++ taken) := by
  have old : ∀ header ∈ headersAt config page (found.pages page).memExtra count,
      header ∉ outside + (taken : Multiset Header) + (full.flatten + part : Multiset Header) :=
    fun header member inside => here.fresh member ((laid.complete header).mp inside)
  have sameNext : ∀ header ∉ headersAt config page (found.pages page).memExtra count,
      next header = pool.next header := by
    intro header absent
    rw [written, linkHeaders_of_notMem absent, here.next]
  have same : outside + (headersAt config page (found.pages page).memExtra count ++ taken :
      List Header) + (full.flatten + part : Multiset Header) =
      headersAt config page (found.pages page).memExtra count +
        (outside + (taken : Multiset Header) + (full.flatten + part : Multiset Header)) := by
    rw [← Multiset.coe_add]
    abel
  constructor
  · exact
      { chains := by
          refine laid.chains.frame here.bucketLifo here.partialBucket ?_ ?_
          · intro header member
            refine sameNext header fun fresh => old header fresh ?_
            rcases List.mem_append.mp member with inFull | inPart
            · exact Multiset.mem_add.mpr (Or.inr (Multiset.mem_add.mpr (Or.inl inFull)))
            · exact Multiset.mem_add.mpr (Or.inr (Multiset.mem_add.mpr (Or.inr inPart)))
          · intro header _
            exact congrFun here.bucketInfo header
        pages := here.pages_fill
        nodup := by
          rw [same, Multiset.nodup_add]
          exact ⟨Multiset.coe_nodup.mpr (nodup_headersAt _ _ _ _), laid.nodup,
            Multiset.disjoint_left.mpr fun {header} member => old header member⟩
        complete := by
          intro header
          rw [same, Multiset.mem_add, laid.complete, here.carved_fill]
          rfl }
  · rw [written]
    refine linkHeaders_linked (by rw [here.next]; exact linked) fun header member inTaken => ?_
    exact old header member
      (Multiset.mem_add.mpr (Or.inl (Multiset.mem_add.mpr (Or.inr inTaken))))

/-- **The loop of a take** ends with a full bucket outside the pool, or fails with
all headers carved that the pages and the granted allocations provide. -/
theorem allocateHeaders_spec {outside : Multiset Header} {full : List (List Header)}
    {part taken : List Header} {head : Option Header} (grants : ℕ)
    (laid : Laid config pool (outside + (taken : Multiset Header)) full part)
    (linked : Linked pool.next head taken)
    (short : taken.length < config.numHeadersPerBucket) :
    ∃ (after : GlobalPool) (headers : List Header),
      Laid config after (outside + (headers : Multiset Header)) full part ∧
      Linked after.next headers.head? headers ∧
      (allocateHeaders config grants pool taken.length head =
          (after.setNumHeaders headers.head? config.numHeadersPerBucket,
            .success headers.head?) ∧
        headers.length = config.numHeadersPerBucket ∧
        config.numHeadersPerBucket ≤ taken.length + available config grants pool ∨
      allocateHeaders config grants pool taken.length head =
          failAllocation config after headers.length headers.head? ∧
        headers.length = taken.length + available config grants pool ∧
        headers.length < config.numHeadersPerBucket) := by
  generalize missing : config.numHeadersPerBucket - taken.length = rounds
  induction rounds using Nat.strong_induction_on generalizing pool taken head grants with
  | _ rounds ih =>
    unfold allocateHeaders
    cases taking : takePage config grants pool with
    | none =>
        refine ⟨pool, taken, laid, linked.head ▸ linked, Or.inr ⟨?_, ?_, short⟩⟩
        · simp only [linked.head]
        · rw [takePage_none taking, Nat.add_zero]
    | some triple =>
        obtain ⟨page, left, found⟩ := triple
        have here := takePage_found laid.pages taking
        have provides : 0 < numProvided config found page taken.length :=
          lt_min (Nat.div_pos here.room config.headerSize_pos) (Nat.sub_pos_of_lt short)
        have bound := numProvided_le config found page taken.length
        obtain ⟨laidAfter, linkedAfter⟩ := here.fill laid linked
          (numProvided config found page taken.length) rfl
        have supply := here.supply_fill (linkHeaders config page (found.pages page).memExtra
          found.next head (numProvided config found page taken.length)).1
          (min_le_left _ _ : numProvided config found page taken.length ≤ _)
        have length : (headersAt config page (found.pages page).memExtra
            (numProvided config found page taken.length) ++ taken).length =
            taken.length + numProvided config found page taken.length := by
          rw [List.length_append, length_headersAt, Nat.add_comm]
        simp only [Nat.ne_of_gt provides, if_false]
        split
        · rename_i enough
          refine ⟨_, _, laidAfter, linkedAfter.head ▸ linkedAfter, Or.inl ⟨?_, ?_, ?_⟩⟩
          · rw [linkedAfter.head]
          · rw [length, enough]
          · exact enough.ge.trans (Nat.add_le_add_left (supply ▸ Nat.le_add_right _ _) _)
        · rename_i notEnough
          have less : taken.length + numProvided config found page taken.length <
              config.numHeadersPerBucket := by omega
          obtain ⟨after, headers, laidEnd, linkedEnd, result⟩ := ih
            (config.numHeadersPerBucket -
              (taken.length + numProvided config found page taken.length)) (by omega) left
            laidAfter linkedAfter (length ▸ less) (by rw [length])
          rw [length] at result
          refine ⟨after, headers, laidEnd, linkedEnd, ?_⟩
          have total := congrArg (taken.length + ·) supply
          rcases result with ⟨equation, isFull, enough⟩ | ⟨equation, all, notFull⟩
          · exact Or.inl ⟨equation, isFull, enough.trans_eq ((Nat.add_assoc _ _ _).trans total)⟩
          · exact Or.inr ⟨equation, all.trans ((Nat.add_assoc _ _ _).trans total), notFull⟩

/-! ## What a take leaves alone -/

theorem linkHeaders_snd_mem {page memExtra count : ℕ} {next : Header → Option Header}
    {head : Option Header} (isPos : 0 < count) :
    ∃ bucket ∈ headersAt config page memExtra count,
      (linkHeaders config page memExtra next head count).2 = some bucket := by
  cases count with
  | zero => exact absurd isPos (Nat.lt_irrefl 0)
  | succ count => exact ⟨_, List.mem_cons_self, rfl⟩

theorem failAllocation_ne_success {numHeaders : ℕ} {head bucket : Option Header}
    {after : GlobalPool} : failAllocation config pool numHeaders head ≠ (after, .success bucket) := by
  intro failed
  cases head with
  | none => simp [failAllocation] at failed
  | some head =>
      rw [failAllocation] at failed
      split at failed <;> simp at failed

/-- A take writes to no header that has been carved before. -/
theorem allocateHeaders_frame {grants numHeaders : ℕ} {head bucket : Option Header}
    {after : GlobalPool} (pages : PagesRight config pool)
    (taken : allocateHeaders config grants pool numHeaders head = (after, .success bucket)) :
    (∀ header, Carved config pool header → after.next header = pool.next header ∧
      after.bucketInfo header = pool.bucketInfo header) ∧
      ∀ header, bucket = some header →
        after.bucketInfo header = .numHeaders config.numHeadersPerBucket := by
  fun_induction allocateHeaders config grants pool numHeaders head with
  | case1 grants pool numHeaders head failed => exact absurd taken failAllocation_ne_success
  | case2 grants pool numHeaders head page left found taking provided zero => simp at taken
  | case3 grants pool numHeaders head page left found taking provided isPos linked filled enough =>
      have here := takePage_found pages taking
      obtain ⟨rfl, rfl⟩ := by simpa using taken
      obtain ⟨first, member, isFirst⟩ : ∃ first ∈
          headersAt config page (found.pages page).memExtra provided, linked.2 = some first :=
        linkHeaders_snd_mem (Nat.pos_of_ne_zero isPos)
      rw [isFirst]
      refine ⟨fun header carved => ⟨?_, ?_⟩, fun header same => ?_⟩
      · have old : linked.1 header = found.next header :=
          linkHeaders_of_notMem fun fresh => here.fresh fresh carved
        exact old.trans (congrFun here.next header)
      · have other : header ≠ first := by
          rintro rfl
          exact here.fresh member carved
        exact (Function.update_of_ne other _ _).trans (congrFun here.bucketInfo header)
      · cases same
        exact Function.update_self ..
  | case4 grants pool numHeaders head page left found taking provided isPos linked filled more ih =>
      have here := takePage_found pages taking
      obtain ⟨same, counted⟩ := ih here.pages_fill taken
      refine ⟨fun header carved => ?_, counted⟩
      obtain ⟨link, info⟩ := same header ((here.carved_fill header).mpr (.inr carved))
      have old : linked.1 header = found.next header :=
        linkHeaders_of_notMem fun fresh => here.fresh fresh carved
      exact ⟨link.trans (old.trans (congrFun here.next header)),
        info.trans (congrFun here.bucketInfo header)⟩

end ArgobotsReduction.Memory.MemPool
