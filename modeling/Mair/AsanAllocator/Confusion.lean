import Mair.AsanAllocator.Requests
import Mair.Library.Runs

/-! # Internal and user blocks along the runs

A stale pointer is not told from a live one by its shadow: a freed internal block keeps the
shadow of a live one, and a block that changed hands shows its new owner's. Runs whose calls
pass no such pointer never confuse the two kinds of blocks. -/

namespace Mair.AsanAllocator

/-- The header-less path is taken exactly for live internal blocks, headers are read only where
there was one, a freed pointer whose memory was left alone is reported, nothing live or queued
enters a free list, and the copy of an internal block has the right size. -/
def Observation.Good : Observation → Prop
  | .freed path liveInternal hadHeader untouched =>
      (path = .headerless ↔ liveInternal = true) ∧ (path ≠ .headerless → hadHeader = true) ∧
        (untouched = true → path = .reported)
  | .entered live queued => live = false ∧ queued = false
  | .copied liveInternal hadHeader count oldSize newSize =>
      hadHeader = true ∧ (liveInternal = true → count = min oldSize newSize)

/-- The pointers that a deallocation tells apart: null, a live one, a freed chunk whose block is
still mapped and was left alone, and a stale user pointer behind which neither an internal block
nor the header of an allocated chunk shows now. -/
def Deallocatable (s : Heap) (ptr : ℕ) : Prop :=
  ptr = 0 ∨ s.isLive .internal ptr = true ∨ s.isLive .user ptr = true ∨ ptr ∈ s.quarantine ∨
    (ptr ∈ s.recycled ∧ ∃ b ∈ s.mapped, b.contains ptr = true) ∨
    (ptr ∈ s.withHeader ∧ s.untouched ptr = false ∧ isHeapAllocatedIntenally s ptr = false ∧
      (s.headers (ptr - 16)).chunkState ≠ .allocated)

/-- A reallocation passes its pointer to the deallocation after the copy into the new block. -/
def Distinguished (options : Options) (s : Heap) : Event → Prop
  | .deallocate ptr _ => Deallocatable s ptr
  | .reallocate ptr request copied _ =>
      ∀ s' newPtr, allocate options s request = some (s', newPtr) → newPtr ≠ 0 →
        Deallocatable (s'.fillHeaders newPtr (memcpySize s' ptr request.size) copied) ptr ∧
          s'.isLive .internal ptr = false
  | _ => True

variable {s s' : Heap} {use : Block → Option Use} {b : Block} {u : Use}
  {a p ptr used size : ℕ} {state : ChunkState} {l : Live} {fill : ℕ → ChunkHeader}
  {options : Options} {obs : List Observation}

/-! ## Deallocation -/

namespace Represents

theorem deallocateInternal (h : Represents s use) (hlive : s.isLive .internal ptr = true) :
    Consistent (Mair.AsanAllocator.deallocateInternal s ptr).1 ∧
      ∀ o ∈ (Mair.AsanAllocator.deallocateInternal s ptr).2, o.Good := by
  obtain ⟨b, l, hb, rfl, howner⟩ := h.exists_of_isLive hlive
  have hfits := h.fits b _ hb
  have hback := h.handBack hb
  have hself : Function.update use b (some Use.taken) b = some .taken := Function.update_self _ _ _
  have hcontains := hfits.contains_live
  obtain ⟨hblock, hfits⟩ := hfits
  rw [howner] at hfits
  obtain ⟨⟨hptr, -⟩, -⟩ := hfits
  constructor
  · have hfreed : ∀ p ∈ l.ptr :: s.internalFreed, p ∈ s.internalFreed ∨ b.contains p = true := by
      intro p hp
      rcases List.mem_cons.mp hp with hp | hp
      · rw [hp]
        exact .inr hcontains
      · exact .inl hp
    obtain ⟨use', h'⟩ := hback.release_internal hself hfreed
    rw [← hptr] at h'
    exact ⟨use', h'⟩
  · have huntouched : s.untouched l.ptr = false :=
      h.untouched_eq_false hb nofun nofun hcontains
    have hnotLive : (s.forgetLive l.ptr).blockLive l.ptr = false :=
      hback.blockLive_eq_false hself nofun hcontains
    have hnotQueued : l.ptr ∉ s.free := by
      rw [hptr]
      exact h.not_mem_free hb nofun
    intro o ho
    simp only [Mair.AsanAllocator.deallocateInternal, List.mem_cons, List.not_mem_nil,
      or_false] at ho
    rcases ho with rfl | rfl
    · exact ⟨by simp [hlive], nofun, by simp [huntouched]⟩
    · exact ⟨hnotLive, by simp [hnotQueued]⟩

/-- A user chunk that is freed the first time goes into the quarantine. -/
theorem quarantineChunk (h : Represents s use) (hb : use b = some (.live l))
    (hchunk : UserChunk s b l.ptr l.size .allocated) :
    Consistent (Mair.AsanAllocator.quarantineChunk s l.ptr fill) := by
  have hused : (s.headers (l.ptr - 16)).usedSize = l.size := by rw [hchunk.header]
  have hpos := hchunk.used_pos
  have hbeg := hchunk.beg_le
  have hend := hchunk.le_end
  have hle := le_roundUpTo l.size
  have hback := h.handBack hb
  have hself : Function.update use b (some Use.taken) b = some .taken := Function.update_self _ _ _
  have hout : SameOutside b (s.forgetLive l.ptr)
      ((((s.forgetLive l.ptr).fillHeaders l.ptr l.size fill).setHeader (l.ptr - 16)
        ⟨.quarantine, l.size⟩).poisonShadow l.ptr (roundUpTo l.size 8) .heapFree) := by
    apply SameOutside.poisonShadow _ (by omega) hend
    apply SameOutside.setHeader _ _ hchunk.contains_header
    exact SameOutside.fillHeaders (.of_eq rfl rfl fun _ hp => hp) _ (by omega) (by omega)
  have hnotQuarantined : l.ptr ∉ s.quarantine := by
    intro hp
    cases h.quarantine_eq hb hp hchunk.contains
  refine ⟨_, hback.replace (v := .quarantined l.ptr) hself nofun nofun ?_ ?_ rfl rfl ?_ ?_ ?_ rfl
    rfl⟩
  · rw [Mair.AsanAllocator.quarantineChunk, hused]
    exact ⟨hout.shadow, hout.headers, hout.withHeader⟩
  · refine ⟨l.size, hbeg, hpos, hend, ?_, ?_, hchunk.given⟩
    · rw [Mair.AsanAllocator.quarantineChunk, hused]
      exact if_pos rfl
    · rw [Mair.AsanAllocator.quarantineChunk, hused]
      have hshadow : (((s.forgetLive l.ptr).fillHeaders l.ptr l.size fill).setHeader (l.ptr - 16)
          ⟨.quarantine, l.size⟩ |>.poisonShadow l.ptr (roundUpTo l.size 8) .heapFree).shadow
            l.ptr = .heapFree :=
        Heap.shadow_poisonShadow_of_mem (Nat.le_refl _) (by omega)
      intro heq
      cases hshadow.symm.trans heq
  · intro l'
    simp [Mair.AsanAllocator.quarantineChunk, Heap.poisonShadow, Heap.setHeader, Heap.fillHeaders]
  · intro p
    simp [Mair.AsanAllocator.quarantineChunk, Heap.forgetLive, eq_comm]
  · exact List.nodup_cons.mpr ⟨hnotQuarantined, h.quarantineNodup⟩

/-- A user chunk that is not allocated any more is reported. -/
theorem deallocate_chunk (fill : ℕ → ChunkHeader) (h : Represents s use) (hb : use b = some u)
    (hchunk : UserChunk s b ptr used state) (hstate : state ≠ .allocated)
    (hlive : ∀ l, u ≠ .live l) :
    (Mair.AsanAllocator.deallocate s ptr fill).1 = s ∧
      ∀ o ∈ (Mair.AsanAllocator.deallocate s ptr fill).2, o.Good := by
  have hne : ptr ≠ 0 := by
    have := hchunk.beg_le
    omega
  have hnotInternal : isHeapAllocatedIntenally s ptr = false := decide_eq_false hchunk.shadow
  have hbegin := h.getBlockBegin_eq hb hchunk.contains_header
  have hheader : (s.headers (ptr - 16)).chunkState ≠ .allocated := by
    rw [hchunk.header]
    exact hstate
  have hnotLive : s.isLive .internal ptr = false :=
    h.isLive_eq_false hb (fun l hl => absurd hl (hlive l)) hchunk.contains
  simp [Mair.AsanAllocator.deallocate, hne, hnotInternal, hbegin, hheader, Observation.Good,
    hnotLive, hchunk.given]

theorem deallocate (fill : ℕ → ChunkHeader) (h : Represents s use) (hptr : Deallocatable s ptr) :
    Consistent (Mair.AsanAllocator.deallocate s ptr fill).1 ∧
      ∀ o ∈ (Mair.AsanAllocator.deallocate s ptr fill).2, o.Good := by
  rcases hptr with rfl | hlive | hlive | hq | ⟨hr, b, hb, hcontains⟩ | ⟨hgiven, hu, hi, hstate⟩
  · simp only [Mair.AsanAllocator.deallocate, if_true]
    exact ⟨⟨use, h⟩, nofun⟩
  · obtain ⟨b, l, hb, hptr, howner⟩ := h.exists_of_isLive hlive
    obtain ⟨-, hfits⟩ := h.fits b _ hb
    rw [howner, hptr] at hfits
    have hne : ptr ≠ 0 := by
      have := hfits.1.ptr_eq
      have := b.beg_pos
      omega
    have hinternal : isHeapAllocatedIntenally s ptr = true := decide_eq_true hfits.2
    rw [Mair.AsanAllocator.deallocate, if_neg hne, if_pos hinternal]
    exact h.deallocateInternal hlive
  · obtain ⟨b, l, hb, rfl, howner⟩ := h.exists_of_isLive hlive
    obtain ⟨-, hfits⟩ := h.fits b _ hb
    rw [howner] at hfits
    have hchunk : UserChunk s b l.ptr l.size .allocated := hfits
    have hne : l.ptr ≠ 0 := by
      have := hchunk.beg_le
      omega
    have hnotInternal : ¬isHeapAllocatedIntenally s l.ptr = true :=
      fun hi => hchunk.shadow (of_decide_eq_true hi)
    have hbegin := h.getBlockBegin_eq hb hchunk.contains_header
    have hheader : (s.headers (l.ptr - 16)).chunkState = .allocated := by rw [hchunk.header]
    have huntouched := h.untouched_eq_false hb nofun nofun hchunk.contains
    have hnotLive : s.isLive .internal l.ptr = false := by
      apply h.isLive_eq_false hb _ hchunk.contains
      intro l' hl'
      cases hl'
      rw [howner]
      nofun
    rw [Mair.AsanAllocator.deallocate, if_neg hne, if_neg hnotInternal, hbegin]
    simp only [if_pos hheader]
    refine ⟨h.quarantineChunk hb hchunk, ?_⟩
    intro o ho
    rw [List.mem_singleton] at ho
    rw [ho]
    exact ⟨by simp [hnotLive], fun _ => decide_eq_true hchunk.given, by simp [huntouched]⟩
  · obtain ⟨b, hb⟩ := (h.quarantine ptr).mp hq
    obtain ⟨used, hchunk⟩ := h.fits b _ hb
    obtain ⟨heq, hgood⟩ := h.deallocate_chunk fill hb hchunk nofun nofun
    exact ⟨⟨use, by rwa [heq]⟩, hgood⟩
  · obtain ⟨u, hb⟩ := Option.ne_none_iff_exists'.mp ((h.mapped b).mp hb)
    obtain ⟨rfl, used, hchunk⟩ := h.recycled ptr hr b u hb hcontains
    obtain ⟨heq, hgood⟩ := h.deallocate_chunk fill hb hchunk nofun nofun
    exact ⟨⟨use, by rwa [heq]⟩, hgood⟩
  · have hnotLive : s.isLive .internal ptr = false := by
      rw [← Bool.not_eq_true]
      intro hlive
      obtain ⟨b, l, hb, rfl, howner⟩ := h.exists_of_isLive hlive
      obtain ⟨-, hfits⟩ := h.fits b _ hb
      rw [howner] at hfits
      rw [isHeapAllocatedIntenally, hfits.2] at hi
      cases hi
    by_cases hne : ptr = 0
    · simp only [Mair.AsanAllocator.deallocate, if_pos hne]
      exact ⟨⟨use, h⟩, nofun⟩
    · rw [Mair.AsanAllocator.deallocate, if_neg hne, if_neg (by simp [hi])]
      cases hbegin : s.getBlockBegin (ptr - 16) with
      | none => exact ⟨⟨use, h⟩, by simp [Observation.Good, hnotLive, hgiven, hu]⟩
      | some b =>
          simp only [if_neg hstate]
          exact ⟨⟨use, h⟩, by simp [Observation.Good, hnotLive, hgiven, hu]⟩

/-- The header that a reallocation reads is one of a user chunk, and it is there unless the
block of the chunk is gone. -/
theorem reallocate_header (h : Represents s use) (hptr : Deallocatable s ptr) (hne : ptr ≠ 0)
    (hnotLive : s.isLive .internal ptr = false) :
    ptr ∈ s.withHeader ∧ (s.getBlockBegin (ptr - 16) = none → s.untouched ptr = false) := by
  have hfound {b : Block} {u : Use} {used : ℕ} {state : ChunkState} (hb : use b = some u)
      (hchunk : UserChunk s b ptr used state) :
      ptr ∈ s.withHeader ∧ (s.getBlockBegin (ptr - 16) = none → s.untouched ptr = false) := by
    refine ⟨hchunk.given, ?_⟩
    rw [h.getBlockBegin_eq hb hchunk.contains_header]
    nofun
  rcases hptr with heq | hlive | hlive | hq | ⟨hr, b, hb, hcontains⟩ | ⟨hgiven, hu, -, -⟩
  · exact absurd heq hne
  · rw [hnotLive] at hlive
    cases hlive
  · obtain ⟨b, l, hb, rfl, howner⟩ := h.exists_of_isLive hlive
    obtain ⟨-, hfits⟩ := h.fits b _ hb
    rw [howner] at hfits
    exact hfound hb hfits
  · obtain ⟨b, hb⟩ := (h.quarantine ptr).mp hq
    obtain ⟨used, hchunk⟩ := h.fits b _ hb
    exact hfound hb hchunk
  · obtain ⟨u, hb⟩ := Option.ne_none_iff_exists'.mp ((h.mapped b).mp hb)
    obtain ⟨-, used, hchunk⟩ := h.recycled ptr hr b u hb hcontains
    exact hfound hb hchunk
  · exact ⟨hgiven, fun _ => hu⟩

theorem reallocate {request : Request} {copied : ℕ → ChunkHeader} (h : Represents s use)
    (hptr : Distinguished options s (.reallocate ptr request copied fill))
    (hstep : Mair.AsanAllocator.reallocate options s ptr request copied fill = some (s', obs)) :
    Consistent s' ∧ ∀ o ∈ obs, o.Good := by
  rw [Mair.AsanAllocator.reallocate] at hstep
  split at hstep
  case isTrue => cases hstep
  case isFalse hne =>
    simp only [Bool.or_eq_true, decide_eq_true_eq, not_or] at hne
    obtain ⟨⟨t, newPtr⟩, hallocate, heq⟩ := Option.map_eq_some_iff.mp hstep
    obtain ⟨useT, ht, hnew⟩ := h.allocate hallocate
    by_cases hnull : newPtr = 0
    · simp only [if_pos hnull] at heq
      cases heq
      exact ⟨⟨useT, ht⟩, nofun⟩
    · simp only [if_neg hnull] at heq
      obtain ⟨hdeallocatable, hnotLive⟩ := hptr t newPtr hallocate hnull
      obtain ⟨b, l, hb, rfl, hsize⟩ := hnew hnull
      have hcopy :
          Represents (t.fillHeaders l.ptr (memcpySize t ptr request.size) copied) useT := by
        apply ht.write hb
        intro a ha
        have : memcpySize t ptr request.size ≤ request.size := Nat.min_le_left _ _
        exact if_neg (by omega)
      obtain ⟨hgiven, huntouched⟩ := hcopy.reallocate_header hdeallocatable hne.1 hnotLive
      cases hbegin : t.getBlockBegin (ptr - 16) with
      | none =>
          have hu : t.untouched ptr = false := huntouched hbegin
          have hgiven : ptr ∈ t.withHeader := hgiven
          rw [hbegin] at heq
          cases heq
          exact ⟨⟨useT, ht⟩, by simp [Observation.Good, hnotLive, hgiven, hu]⟩
      | some c =>
          rw [hbegin] at heq
          cases heq
          obtain ⟨huse, hgood⟩ := hcopy.deallocate fill hdeallocatable
          refine ⟨huse, ?_⟩
          intro o ho
          rcases List.mem_cons.mp ho with rfl | ho
          · exact ⟨decide_eq_true hgiven, by simp [hnotLive]⟩
          · exact hgood o ho

/-! ## The quarantine -/

theorem clearChunk_eq (s : Heap) (b : Block) (ptr : ℕ) :
    ∃ shadow headers, clearChunk s b ptr = { s with shadow := shadow, headers := headers } := by
  rw [clearChunk]
  by_cases hbeg : b.beg = ptr - 16
  · rw [if_pos hbeg]
    split <;> exact ⟨_, _, rfl⟩
  · rw [if_neg hbeg]
    split <;> exact ⟨_, _, rfl⟩

theorem sameOutside_clearChunk (hchunk : UserChunk s b ptr used state) :
    SameOutside b s (clearChunk s b ptr) := by
  have hbeg := hchunk.beg_le
  have hused : (s.headers (ptr - 16)).usedSize = used := by rw [hchunk.header]
  have hself : SameOutside b s s := .of_eq rfl rfl fun _ hp => hp
  rw [clearChunk, hused]
  split
  · apply SameOutside.poisonShadow _ (by omega) hchunk.le_end
    apply SameOutside.setHeader _ _ hchunk.contains_header
    split
    · exact hself
    · exact hself.setHeader _ b.contains_beg
  · exact hself

/-- A chunk of the primary allocator is left with an invalid header. -/
theorem clearChunk_chunk (hchunk : UserChunk s b ptr used state) (hprimary : b.fromPrimary = true) :
    UserChunk (clearChunk s b ptr) b ptr used .invalid := by
  have hpos := hchunk.used_pos
  have hle := le_roundUpTo used
  have hused : (s.headers (ptr - 16)).usedSize = used := by rw [hchunk.header]
  have hgiven := (sameOutside_clearChunk hchunk).withHeader ptr hchunk.given
  refine ⟨hchunk.beg_le, hpos, hchunk.le_end, ?_, ?_, hgiven⟩
  · rw [clearChunk, if_pos hprimary, hused]
    exact if_pos rfl
  · rw [clearChunk, if_pos hprimary, hused,
      Heap.shadow_poisonShadow_of_mem (Nat.le_refl _) (by omega)]
    nofun

theorem recycle (h : Represents s use) (hp : ptr ∈ s.quarantine)
    (hstep : Mair.AsanAllocator.recycle s ptr = some (s', obs)) :
    Consistent s' ∧ ∀ o ∈ obs, o.Good := by
  obtain ⟨b, hb⟩ := (h.quarantine ptr).mp hp
  obtain ⟨used, hchunk⟩ := h.fits b _ hb
  rw [Mair.AsanAllocator.recycle, h.getBlockBegin_eq hb hchunk.contains_header,
    Option.bind_some] at hstep
  split at hstep
  case isTrue => cases hstep
  case isFalse =>
    cases hstep
    constructor
    · have hout := sameOutside_clearChunk hchunk
      have hprimary := clearChunk_chunk hchunk
      obtain ⟨shadow, headers, hclear⟩ := clearChunk_eq s b ptr
      rw [hclear] at hout hprimary ⊢
      have ht : Represents { s with
          shadow := shadow, headers := headers, quarantine := s.quarantine.erase ptr }
          (Function.update use b (some .taken)) :=
        h.replace hb nofun nofun ⟨hout.shadow, hout.headers, hout.withHeader⟩ trivial rfl rfl
          (by simp) (by simp [h.quarantineNodup.mem_erase_iff, eq_comm, and_comm])
          (h.quarantineNodup.erase _) rfl rfl
      apply ht.release_recycled (Function.update_self _ _ _)
      intro p hp
      rcases List.mem_cons.mp hp with hp | hp
      · rw [hp]
        refine .inr ⟨hchunk.given, hchunk.contains, ?_⟩
        intro hfrom
        have hinvalid := hprimary hfrom
        exact ⟨used, hinvalid.beg_le, hinvalid.used_pos, hinvalid.le_end, hinvalid.header,
          hinvalid.shadow, hinvalid.given⟩
      · exact .inl hp
    · intro o ho
      rw [List.mem_singleton] at ho
      rw [ho]
      exact ⟨h.blockLive_eq_false hb nofun b.contains_beg,
        decide_eq_false (h.not_mem_free hb nofun)⟩

/-! ## Runs -/

theorem step {e : Event} (h : Represents s use) (he : Distinguished options s e)
    (hstep : Mair.AsanAllocator.step options s e = some (s', obs)) :
    Consistent s' ∧ ∀ o ∈ obs, o.Good := by
  cases e with
  | allocate request =>
      obtain ⟨⟨t, newPtr⟩, hallocate, heq⟩ := Option.map_eq_some_iff.mp hstep
      cases heq
      obtain ⟨use', h', -⟩ := h.allocate hallocate
      exact ⟨⟨use', h'⟩, nofun⟩
  | deallocate ptr fill =>
      rw [Mair.AsanAllocator.step] at hstep
      split at hstep
      case isFalse => cases hstep
      case isTrue =>
        have hdeallocate := h.deallocate fill he
        rw [Option.some.inj hstep] at hdeallocate
        exact hdeallocate
  | reallocate ptr request copied fill =>
      rw [Mair.AsanAllocator.step] at hstep
      split at hstep
      case isFalse => cases hstep
      case isTrue => exact h.reallocate he hstep
  | recycle ptr =>
      rw [Mair.AsanAllocator.step] at hstep
      split at hstep
      case isFalse => cases hstep
      case isTrue hp => exact h.recycle hp hstep
  | write a header =>
      rw [Mair.AsanAllocator.step] at hstep
      split at hstep
      case isFalse => cases hstep
      case isTrue hany =>
        cases hstep
        obtain ⟨l, hl, ha⟩ := List.any_eq_true.mp hany
        simp only [Bool.and_eq_true, decide_eq_true_eq] at ha
        obtain ⟨b, hb⟩ := (h.live l).mp hl
        refine ⟨⟨use, h.write hb ?_⟩, nofun⟩
        intro x hx
        exact if_neg (by omega)
  | batchAllocate size b fill =>
      rw [Mair.AsanAllocator.step] at hstep
      split at hstep
      case isTrue => cases hstep
      case isFalse hsize =>
        obtain ⟨t, htake, heq⟩ := Option.map_eq_some_iff.mp hstep
        cases heq
        have ht := h.take htake
        have hout : SameOutside b t (t.fillHeaders b.beg b.size fill) :=
          .fillHeaders (.of_eq rfl rfl fun _ hp => hp) _ (Nat.le_refl _) (Nat.le_refl _)
        exact ⟨⟨_, ht.handOut (l := ⟨b.beg, size, b, .quarantineBatch⟩) (Function.update_self _ _ _)
          ⟨hout.shadow, hout.headers, hout.withHeader⟩ ⟨rfl, rfl, Nat.le_of_not_lt hsize⟩ rfl rfl
          rfl rfl rfl rfl⟩, nofun⟩
  | batchDeallocate ptr =>
      rw [Mair.AsanAllocator.step] at hstep
      split at hstep
      case isFalse => cases hstep
      case isTrue hlive =>
        cases hstep
        obtain ⟨b, l, hb, rfl, howner⟩ := h.exists_of_isLive hlive
        obtain ⟨-, hfits⟩ := h.fits b _ hb
        rw [howner] at hfits
        have hptr : l.ptr = b.beg := RawBlock.ptr_eq hfits
        have hback := h.handBack hb
        have hself : Function.update use b (some Use.taken) b = some .taken :=
          Function.update_self _ _ _
        rw [hptr] at hback ⊢
        refine ⟨hback.release_only hself, ?_⟩
        intro o ho
        rw [List.mem_singleton] at ho
        rw [ho]
        exact ⟨hback.blockLive_eq_false hself nofun b.contains_beg,
          decide_eq_false (h.not_mem_free hb nofun)⟩

end Represents

theorem represents_initialHeap : Represents initialHeap fun _ => none where
  mapped b := by simp [initialHeap]
  separate := List.Pairwise.nil
  free a := by simp [initialHeap]
  freeNodup := List.nodup_nil
  live l := by simp [initialHeap]
  quarantine p := by simp [initialHeap]
  quarantineNodup := List.nodup_nil
  fits _ _ hb := by cases hb
  recycled _ hp := by cases hp
  recycledGiven _ hp := by cases hp
  internalFreed _ hp := by cases hp

/-- Along every run whose calls pass pointers that the deallocation tells apart, internal and user
blocks are never confused. -/
theorem run_good {events : List Event}
    (hmeets : Runs.Meets (Mair.AsanAllocator.step options) (Distinguished options) initialHeap
      events)
    (hrun : Runs.run (Mair.AsanAllocator.step options) initialHeap events = some (s', obs)) :
    Consistent s' ∧ ∀ o ∈ obs, o.Good := by
  refine Runs.run_meets ?_ ⟨_, represents_initialHeap⟩ hmeets hrun
  intro s e s' obs hs he hstep
  obtain ⟨use, h⟩ := hs
  exact h.step he hstep

def smallBlock : Block where
  beg := 1024
  size := 64
  fromPrimary := true
  beg_pos := by decide
  size_pos := by decide
  beg_aligned := by decide
  size_aligned := by decide

def blank (_ : ℕ) : ChunkHeader := ⟨.invalid, 0⟩

/-- A user chunk is freed twice. -/
theorem run_good_doubleFree :
    Consistent (((Runs.run (Mair.AsanAllocator.step ⟨0, 7⟩) initialHeap
      [.allocate ⟨false, 8, 0, some smallBlock, blank⟩, .deallocate 1040 blank,
        .deallocate 1040 blank]).map Prod.fst).getD initialHeap) ∧
      (∀ o ∈ [Observation.freed .quarantined false true false,
        Observation.freed .reported false true true], o.Good) := by
  refine @run_good _ ⟨0, 7⟩ _ [.allocate ⟨false, 8, 0, some smallBlock, blank⟩,
    .deallocate 1040 blank, .deallocate 1040 blank] ?_ ?_
  · refine ⟨trivial, ?_⟩
    intro s' obs hstep
    cases hstep
    refine ⟨.inr (.inr (.inl rfl)), ?_⟩
    intro s' obs hstep
    cases hstep
    refine ⟨.inr (.inr (.inr (.inl List.mem_cons_self))), ?_⟩
    intro s' obs hstep
    trivial
  · rfl

/-- An internal block is freed twice. -/
theorem internal_doubleFree_confused :
    ¬∀ (options : Options) (events : List Event) (s' : Heap) (obs : List Observation),
      Runs.run (Mair.AsanAllocator.step options) initialHeap events = some (s', obs) →
        ∀ o ∈ obs, o.Good := by
  intro h
  have hgood := h ⟨0, 7⟩ [.allocate ⟨true, 16, 4, some smallBlock, blank⟩, .deallocate 1024 blank,
    .deallocate 1024 blank] _ _ rfl (.freed .headerless false false true)
    (by decide)
  exact absurd (hgood.1.mp rfl) (by decide)

end Mair.AsanAllocator
