import Mair.AsanAllocator.Blocks

/-! # What each operation does to the uses of the blocks -/

namespace Mair.AsanAllocator

variable {s s' s'' : Heap} {use : Block → Option Use} {b : Block} {u v : Use}
  {a p used size : ℕ} {state : ChunkState} {l : Live}

/-! ## Writes inside a block -/

theorem SameOutside.of_eq (hshadow : s'.shadow = s.shadow) (hheaders : s'.headers = s.headers)
    (hgiven : ∀ p ∈ s.withHeader, p ∈ s'.withHeader) : SameOutside b s s' where
  shadow a _ := congrFun hshadow a
  headers a _ := congrFun hheaders a
  withHeader := hgiven

theorem SameOutside.poisonShadow {value : Shadow} (h : SameOutside b s s') (hbeg : b.beg ≤ a)
    (hend : a + size ≤ b.beg + b.size) : SameOutside b s (s'.poisonShadow a size value) where
  shadow x hx := by
    rw [← h.shadow x hx]
    apply if_neg
    intro hin
    rw [← Bool.not_eq_true, Block.contains_iff] at hx
    omega
  headers := h.headers
  withHeader := h.withHeader

theorem SameOutside.fillHeaders (h : SameOutside b s s') (fill : ℕ → ChunkHeader) (hbeg : b.beg ≤ a)
    (hend : a + size ≤ b.beg + b.size) : SameOutside b s (s'.fillHeaders a size fill) where
  shadow := h.shadow
  headers x hx := by
    rw [← h.headers x hx]
    apply if_neg
    intro hin
    rw [← Bool.not_eq_true, Block.contains_iff] at hx
    omega
  withHeader := h.withHeader

theorem SameOutside.setHeader (h : SameOutside b s s') (header : ChunkHeader)
    (ha : b.contains a = true) : SameOutside b s (s'.setHeader a header) where
  shadow := h.shadow
  headers x hx := by
    rw [← h.headers x hx]
    apply if_neg
    intro heq
    rw [heq, ha] at hx
    cases hx
  withHeader := h.withHeader

/-! ## The underlying allocator -/

theorem mem_recycled_forget (hp : p ∈ (s.forget b).recycled) :
    p ∈ s.recycled ∧ ¬b.contains p = true := by
  simpa [Heap.forget] using List.mem_filter.mp hp

theorem mem_internalFreed_forget (hp : p ∈ (s.forget b).internalFreed) :
    p ∈ s.internalFreed ∧ ¬b.contains p = true := by
  simpa [Heap.forget] using List.mem_filter.mp hp

namespace Represents

theorem take_free (h : Represents s use) (hmem : b ∈ s.mapped) (hfree : b.beg ∈ s.free) :
    Represents ({ s with free := s.free.erase b.beg }.forget b)
      (Function.update use b (some .taken)) := by
  obtain ⟨c, hbeg, hc⟩ := (h.free _).mp hfree
  have huse : use b = some .free := by
    obtain ⟨w, hw⟩ := Option.ne_none_iff_exists'.mp ((h.mapped b).mp hmem)
    have heq : c = b := by
      apply h.eq_of_contains hc hw _ b.contains_beg
      rw [← hbeg]
      exact c.contains_beg
    rwa [heq] at hc
  apply h.update
  · intro c w hc hne
    exact h.separate_of_ne huse hc (Ne.symm hne)
  · exact .of_eq rfl rfl fun _ hp => hp
  · intro w hw
    cases hw
    trivial
  · intro c
    by_cases heq : c = b
    · simp [Heap.forget, heq, hmem]
    · simp [Heap.forget, heq]
  · exact h.separate
  · intro a
    simp [Heap.forget, h.freeNodup.mem_erase_iff, huse, and_comm]
  · exact h.freeNodup.erase _
  · intro l
    simp [Heap.forget, huse]
  · intro p
    simp [Heap.forget, huse]
  · exact h.quarantineNodup
  · intro p hp
    have hp := mem_recycled_forget hp
    exact ⟨.inl hp.1, fun hcontains => absurd hcontains hp.2⟩
  · intro p hp
    have hp := mem_internalFreed_forget hp
    exact ⟨.inl hp.1, fun hcontains => absurd hcontains hp.2⟩

theorem take_fresh (h : Represents s use) (hall : s.mapped.all b.separate = true)
    (hout : SameOutside b s s') (hmapped : s'.mapped = b :: s.mapped) (hfree : s'.free = s.free)
    (hlive : s'.live = s.live) (hquarantine : s'.quarantine = s.quarantine)
    (hrecycled : ∀ p ∈ s'.recycled, p ∈ s.recycled ∧ ¬b.contains p = true)
    (hinternalFreed : ∀ p ∈ s'.internalFreed, p ∈ s.internalFreed ∧ ¬b.contains p = true) :
    Represents s' (Function.update use b (some .taken)) := by
  have hsep : ∀ c ∈ s.mapped, b.separate c = true := List.all_eq_true.mp hall
  have huse : use b = none := by
    by_contra hne
    exact Block.separate_ne (hsep b ((h.mapped b).mpr hne)) rfl
  apply h.update
  · intro c w hc hne
    exact hsep c (h.mem_mapped hc)
  · exact hout
  · intro w hw
    cases hw
    trivial
  · intro c
    by_cases heq : c = b
    · simp [hmapped, heq]
    · simp [hmapped, heq]
  · rw [hmapped]
    exact List.pairwise_cons.mpr ⟨hsep, h.separate⟩
  · intro a
    simp [hfree, huse]
  · rw [hfree]
    exact h.freeNodup
  · intro l
    simp [hlive, huse]
  · intro p
    simp [hquarantine, huse]
  · rw [hquarantine]
    exact h.quarantineNodup
  · intro p hp
    obtain ⟨hp, hnot⟩ := hrecycled p hp
    exact ⟨.inl hp, fun hcontains => absurd hcontains hnot⟩
  · intro p hp
    obtain ⟨hp, hnot⟩ := hinternalFreed p hp
    exact ⟨.inl hp, fun hcontains => absurd hcontains hnot⟩

theorem take (h : Represents s use) (htake : s.take b = some s') :
    Represents s' (Function.update use b (some .taken)) := by
  rw [Heap.take] at htake
  split at htake
  case isTrue hmem =>
    split at htake
    case isFalse => cases htake
    case isTrue hfree =>
      cases htake
      simp only [Bool.and_eq_true, decide_eq_true_eq] at hfree
      exact h.take_free hmem hfree.2
  case isFalse hmem =>
    split at htake
    case isFalse => cases htake
    case isTrue hall =>
      cases htake
      have hout : SameOutside b s ({ s with mapped := b :: s.mapped }.forget b) :=
        .of_eq rfl rfl fun _ hp => hp
      have hrecycled : ∀ p ∈ (s.forget b).recycled, p ∈ s.recycled ∧ ¬b.contains p = true :=
        fun p hp => mem_recycled_forget hp
      have hinternalFreed : ∀ p ∈ (s.forget b).internalFreed,
          p ∈ s.internalFreed ∧ ¬b.contains p = true :=
        fun p hp => mem_internalFreed_forget hp
      split
      · exact h.take_fresh hall (hout.poisonShadow (Nat.le_refl _) (Nat.le_refl _)) rfl rfl rfl
          rfl hrecycled hinternalFreed
      · exact h.take_fresh hall hout rfl rfl rfl rfl hrecycled hinternalFreed

theorem not_mem_free (h : Represents s use) (hb : use b = some u) (hfree : u ≠ .free) :
    b.beg ∉ s.free := by
  intro ha
  obtain ⟨c, hbeg, hc⟩ := (h.free _).mp ha
  have heq : c = b := by
    apply h.eq_of_contains hc hb c.contains_beg
    rw [hbeg]
    exact b.contains_beg
  rw [heq, hb, Option.some.injEq] at hc
  exact hfree hc

theorem release_eq (h : Represents s use) (hb : use b = some u) :
    s.release b.beg =
      if b.fromPrimary then { s with free := b.beg :: s.free }
      else { s with mapped := s.mapped.erase b }.poisonShadow b.beg b.size .addressable := by
  have hunique : ∀ c ∈ s.mapped, c.beg = b.beg → c = b := by
    intro c hc hbeg
    obtain ⟨w, hw⟩ := Option.ne_none_iff_exists'.mp ((h.mapped c).mp hc)
    apply h.eq_of_contains hw hb c.contains_beg
    rw [hbeg]
    exact b.contains_beg
  rw [Heap.release]
  split
  case h_1 c hfind =>
    have hc := List.find?_some hfind
    simp only [Bool.and_eq_true, decide_eq_true_eq, Bool.not_eq_true'] at hc
    have heq := hunique c (List.mem_of_find?_eq_some hfind) hc.1
    rw [heq] at hc
    simp [heq, hc.2]
  case h_2 hfind =>
    have := List.find?_eq_none.mp hfind b (h.mem_mapped hb)
    simp only [decide_true, Bool.true_and, Bool.not_eq_true, Bool.not_eq_false'] at this
    simp [this]

/-- A block that the runtime holds goes back to the underlying allocator. -/
theorem release (h : Represents s use) (hb : use b = some .taken) {recycled internalFreed : List ℕ}
    (hrecycled : ∀ p ∈ recycled, p ∈ s.recycled ∨ p ∈ s.withHeader ∧ b.contains p = true ∧
      (b.fromPrimary = true → ∃ used, UserChunk s b p used .invalid))
    (hinternalFreed : ∀ p ∈ internalFreed, p ∈ s.internalFreed ∨ b.contains p = true) :
    Consistent { s.release b.beg with recycled := recycled, internalFreed := internalFreed } := by
  have hsep : ∀ c w, use c = some w → c ≠ b → b.separate c = true :=
    fun c w hc hne => h.separate_of_ne hb hc (Ne.symm hne)
  have hnotin := h.not_mem_free hb nofun
  have hold : ∀ p ∈ s.recycled, ¬b.contains p = true := by
    intro p hp hcontains
    cases (h.recycled p hp b _ hb hcontains).1
  rw [h.release_eq hb]
  by_cases hprimary : b.fromPrimary = true
  · rw [if_pos hprimary]
    refine ⟨Function.update use b (some .free), ?_⟩
    apply h.update hsep
    · exact .of_eq rfl rfl fun _ hp => hp
    · intro w hw
      cases hw
      exact hprimary
    · intro c
      by_cases heq : c = b
      · simp [heq, h.mem_mapped hb]
      · simp [heq]
    · exact h.separate
    · intro a
      simp [hb]
    · exact List.nodup_cons.mpr ⟨hnotin, h.freeNodup⟩
    · intro l
      simp [hb]
    · intro p
      simp [hb]
    · exact h.quarantineNodup
    · intro p hp
      rcases hrecycled p hp with hp | ⟨hgiven, hcontains, hchunk⟩
      · exact ⟨.inl hp, fun hcontains => absurd hcontains (hold p hp)⟩
      · refine ⟨.inr ⟨hgiven, hcontains⟩, ?_⟩
        intro _ w hw
        cases hw
        obtain ⟨used, hchunk⟩ := hchunk hprimary
        exact ⟨rfl, used, hchunk.beg_le, hchunk.used_pos, hchunk.le_end, hchunk.header,
          hchunk.shadow, hchunk.given⟩
    · intro p hp
      refine ⟨hinternalFreed p hp, ?_⟩
      intro _ w hw
      cases hw
      rfl
  · rw [if_neg hprimary]
    refine ⟨Function.update use b none, ?_⟩
    apply h.update hsep
    · have hout : SameOutside b s
          ({ s with mapped := s.mapped.erase b }.poisonShadow b.beg b.size .addressable) :=
        .poisonShadow (.of_eq rfl rfl fun _ hp => hp) (Nat.le_refl _) (Nat.le_refl _)
      exact ⟨hout.shadow, hout.headers, hout.withHeader⟩
    · intro w hw
      cases hw
    · intro c
      by_cases heq : c = b
      · simp [Heap.poisonShadow, heq, h.mapped_nodup.mem_erase_iff]
      · simp [Heap.poisonShadow, heq, h.mapped_nodup.mem_erase_iff]
    · exact h.separate.sublist List.erase_sublist
    · intro a
      simp [Heap.poisonShadow, hb]
    · exact h.freeNodup
    · intro l
      simp [Heap.poisonShadow, hb]
    · intro p
      simp [Heap.poisonShadow, hb]
    · exact h.quarantineNodup
    · intro p hp
      refine ⟨?_, fun _ w hw => by cases hw⟩
      rcases hrecycled p hp with hp | ⟨hgiven, hcontains, -⟩
      · exact .inl hp
      · exact .inr ⟨hgiven, hcontains⟩
    · intro p hp
      exact ⟨hinternalFreed p hp, fun _ w hw => by cases hw⟩

theorem recycled_release (s : Heap) (a : ℕ) : (s.release a).recycled = s.recycled := by
  rw [Heap.release]
  split <;> rfl

theorem internalFreed_release (s : Heap) (a : ℕ) :
    (s.release a).internalFreed = s.internalFreed := by
  rw [Heap.release]
  split <;> rfl

/-- A block goes back for good, and its pointers count as freed. -/
theorem release_internal (h : Represents s use) (hb : use b = some .taken)
    {internalFreed : List ℕ}
    (hinternalFreed : ∀ p ∈ internalFreed, p ∈ s.internalFreed ∨ b.contains p = true) :
    Consistent { s.release b.beg with internalFreed := internalFreed } := by
  obtain ⟨use', h'⟩ := h.release hb (fun p hp => .inl hp) hinternalFreed
  rw [← recycled_release s b.beg] at h'
  exact ⟨use', h'⟩

theorem release_recycled (h : Represents s use) (hb : use b = some .taken) {recycled : List ℕ}
    (hrecycled : ∀ p ∈ recycled, p ∈ s.recycled ∨ p ∈ s.withHeader ∧ b.contains p = true ∧
      (b.fromPrimary = true → ∃ used, UserChunk s b p used .invalid)) :
    Consistent { s.release b.beg with recycled := recycled } := by
  obtain ⟨use', h'⟩ := h.release hb hrecycled (fun p hp => .inl hp)
  rw [← internalFreed_release s b.beg] at h'
  exact ⟨use', h'⟩

theorem release_only (h : Represents s use) (hb : use b = some .taken) :
    Consistent (s.release b.beg) := by
  obtain ⟨use', h'⟩ := h.release_internal hb (fun p hp => .inl hp)
  rw [← internalFreed_release s b.beg] at h'
  exact ⟨use', h'⟩

/-- A block that the runtime holds is given to an owner. -/
theorem handOut (h : Represents s use) (hb : use b = some .taken) (hout : SameOutside b s s')
    (hfits : Fits s' b (.live l)) (hmapped : s'.mapped = s.mapped) (hfree : s'.free = s.free)
    (hlive : s'.live = l :: s.live) (hquarantine : s'.quarantine = s.quarantine)
    (hrecycled : s'.recycled = s.recycled) (hinternalFreed : s'.internalFreed = s.internalFreed) :
    Represents s' (Function.update use b (some (.live l))) := by
  refine h.replace hb nofun nofun hout hfits hmapped hfree ?_ ?_ ?_ hrecycled hinternalFreed
  · intro l'
    simp [hlive, eq_comm]
  · intro p
    simp [hquarantine]
  · rw [hquarantine]
    exact h.quarantineNodup

/-- A block comes back from its owner. -/
theorem handBack (h : Represents s use) (hb : use b = some (.live l)) :
    Represents (s.forgetLive l.ptr) (Function.update use b (some .taken)) := by
  refine h.replace hb nofun nofun (.of_eq rfl rfl fun _ hp => hp) trivial rfl rfl ?_ ?_
    h.quarantineNodup rfl rfl
  · intro l'
    have hiff : l' ∈ s.live → (l'.ptr ≠ l.ptr ↔ l ≠ l') := by
      intro hl'
      constructor
      · intro hne heq
        exact hne (by rw [heq])
      · intro hne hptr
        have heq := h.live_eq hb hl' (by
          rw [hptr]
          exact (h.fits b _ hb).contains_live)
        cases heq
        exact hne rfl
    simp only [Heap.forgetLive, List.mem_filter, decide_eq_true_eq, reduceCtorEq, false_or, ne_eq,
      Use.live.injEq]
    exact and_congr_right hiff
  · intro p
    simp [Heap.forgetLive]

theorem blockLive_eq_false (h : Represents s use) (hb : use b = some u)
    (hne : ∀ l, u ≠ .live l) (hcontains : b.contains a = true) : s.blockLive a = false := by
  rw [← Bool.not_eq_true, Heap.blockLive, List.any_eq_true]
  intro hany
  obtain ⟨l, hl, hblock⟩ := hany
  obtain ⟨c, hc⟩ := (h.live l).mp hl
  rw [(h.fits c _ hc).1] at hblock
  have heq := h.eq_of_contains hc hb hblock hcontains
  rw [heq, hb, Option.some.injEq] at hc
  exact hne l hc

theorem isLive_eq_false {owner : Owner} (h : Represents s use) (hb : use b = some u)
    (hne : ∀ l, u = .live l → l.owner ≠ owner) (hcontains : b.contains a = true) :
    s.isLive owner a = false := by
  rw [← Bool.not_eq_true, Heap.isLive, List.any_eq_true]
  intro hany
  obtain ⟨l, hl, hptr⟩ := hany
  simp only [Bool.and_eq_true, decide_eq_true_eq] at hptr
  refine hne l (h.live_eq hb hl ?_) hptr.2
  rw [hptr.1]
  exact hcontains

theorem exists_of_isLive {owner : Owner} (h : Represents s use) (hlive : s.isLive owner a = true) :
    ∃ b l, use b = some (.live l) ∧ l.ptr = a ∧ l.owner = owner := by
  rw [Heap.isLive, List.any_eq_true] at hlive
  obtain ⟨l, hl, hptr⟩ := hlive
  simp only [Bool.and_eq_true, decide_eq_true_eq] at hptr
  obtain ⟨b, hb⟩ := (h.live l).mp hl
  exact ⟨b, l, hb, hptr⟩

end Represents

/-! ## Writes of the owners -/

theorem Fits.live_bounds (h : Fits s b (.live l)) :
    b.beg ≤ l.ptr ∧ l.ptr + l.size ≤ b.beg + b.size := by
  obtain ⟨-, h⟩ := h
  have hraw (h : RawBlock b l) : b.beg ≤ l.ptr ∧ l.ptr + l.size ≤ b.beg + b.size := by
    have := h.ptr_eq
    have := h.size_le
    omega
  cases howner : l.owner with
  | user =>
      rw [howner] at h
      have := h.beg_le
      have := h.le_end
      have := le_roundUpTo l.size
      omega
  | internal =>
      rw [howner] at h
      exact hraw h.1
  | quarantineBatch =>
      rw [howner] at h
      exact hraw h

/-- Writes to the memory of a live allocation. -/
theorem Represents.write (h : Represents s use) (hb : use b = some (.live l))
    {headers : ℕ → ChunkHeader}
    (hheaders : ∀ a, a < l.ptr ∨ l.ptr + l.size ≤ a → headers a = s.headers a) :
    Represents { s with headers := headers } use := by
  have hfits := h.fits b _ hb
  have hbounds := hfits.live_bounds
  have hupdate : use = Function.update use b (some (.live l)) := by
    rw [← hb, Function.update_eq_self]
  rw [hupdate]
  refine h.replace hb nofun nofun ⟨fun _ _ => rfl, ?_, fun _ hp => hp⟩ ?_ rfl rfl ?_ ?_
    h.quarantineNodup rfl rfl
  · intro a ha
    rw [← Bool.not_eq_true, Block.contains_iff] at ha
    exact hheaders a (by omega)
  · obtain ⟨hblock, hfits⟩ := hfits
    refine ⟨hblock, ?_⟩
    cases howner : l.owner with
    | user =>
        rw [howner] at hfits
        have hheader : headers (l.ptr - 16) = s.headers (l.ptr - 16) := by
          have := hfits.beg_le
          exact hheaders _ (by omega)
        exact ⟨hfits.beg_le, hfits.used_pos, hfits.le_end, hheader.trans hfits.header,
          hfits.shadow, hfits.given⟩
    | internal =>
        rw [howner] at hfits
        exact hfits
    | quarantineBatch =>
        rw [howner] at hfits
        exact hfits
  · intro l'
    have hl : l ∈ s.live := (h.live l).mpr ⟨b, hb⟩
    constructor
    · intro hl'
      by_cases heq : l = l'
      · exact .inl (congrArg Use.live heq)
      · exact .inr ⟨hl', fun hlive => heq (Use.live.inj hlive)⟩
    · intro hl'
      rcases hl' with hl' | hl'
      · cases hl'
        exact hl
      · exact hl'.1
  · intro p
    simp

end Mair.AsanAllocator
