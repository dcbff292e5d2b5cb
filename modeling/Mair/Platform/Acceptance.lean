import Mair.Platform.Coverage

/-! # Which layouts are accepted

`CheckAndProtect` looks at where each mapped segment starts. A segment that starts in application
memory is accepted whatever it runs into. -/

namespace Mair.Platform

/-! ## Mapped segments -/

/-- A line of the process map. -/
structure Segment where
  range : Range
  protection : ℕ
  nonempty : range.beg < range.fin

/-- The lines come in address order. -/
structure ProcMaps where
  segments : List Segment
  sorted : segments.Pairwise fun s t => s.range.fin ≤ t.range.beg

/-- A platform header with the start of the vdso, and the memory that the allocator takes behind
the heap. -/
structure RuntimeMapping extends Mapping where
  kVdsoBeg : Uptr
  additionalSize : Uptr

namespace RuntimeMapping

variable (m : RuntimeMapping)

def heapEnd : Uptr := m.kHeapMemEnd + m.additionalSize

/-- The loop over the process map. -/
def checkSegments (ignoreHeap : Bool) : List Segment → Bool
  | [] => true
  | segment :: rest =>
      if segment.range.beg ≥ m.kHeapMemEnd ∧ segment.range.fin ≤ m.heapEnd then
        if ignoreHeap then checkSegments ignoreHeap rest else false
      else if m.isAppMem segment.range.beg then checkSegments ignoreHeap rest
      else if segment.range.beg ≥ m.kHeapMemEnd ∧ segment.range.beg < m.heapEnd then
        checkSegments ignoreHeap rest
      else if segment.protection = 0 then checkSegments ignoreHeap rest
      else if segment.range.beg ≥ m.kVdsoBeg then true
      else false

/-- `none` is the fatal overlap of two needed ranges. -/
def checkAndProtect (protect ignoreHeap : Bool) (maps : ProcMaps) : Option Bool :=
  if !m.checkSegments ignoreHeap maps.segments then some false
  else if !protect then some true
  else m.protectedGaps.map fun _ => true

/-! ## What acceptance should mean -/

/-- An accessible segment that is not the vdso. -/
def Mapped (segment : Segment) : Prop :=
  segment.protection ≠ 0 ∧ segment.range.beg < m.kVdsoBeg

/-- No mapped byte lies in a range that a sanitizer needs. -/
def MetadataFree (maps : ProcMaps) : Prop :=
  ∀ segment ∈ maps.segments, m.Mapped segment → ∀ b, segment.range.Contains b →
    ∀ f, ∀ range ∈ m.ownerRanges f, ¬range.Contains b

/-! ## When it does -/

/-- Segments that are accepted for where they start. -/
def StartsAccepted (segment : Segment) : Prop :=
  m.isAppMem segment.range.beg = true ∨
    m.kHeapMemEnd ≤ segment.range.beg ∧ segment.range.beg < m.heapEnd

def neededRanges : List Range :=
  m.asanNeededMapRanges ++ m.msanNeededMapRanges ++ m.tsanNeededMapRanges

/-- Where the first needed range begins that ends behind the address. -/
def nextNeeded (addr : Uptr) : Option ℕ :=
  ((m.neededRanges.filter fun range => range.beg < range.fin ∧ addr < range.fin).map
    fun range => range.beg.toNat).min?

/-- The accepted segments end before the next needed range. -/
def EndsInTime (maps : ProcMaps) : Prop :=
  ∀ segment ∈ maps.segments, m.Mapped segment → m.StartsAccepted segment →
    ∀ limit ∈ m.nextNeeded segment.range.beg, segment.range.fin.toNat ≤ limit

section Acceptance

variable {m} {maps : ProcMaps} {segments : List Segment} {segment : Segment} {range : Range}
  {protect ignoreHeap : Bool}

theorem mem_neededRanges_iff : range ∈ m.neededRanges ↔ ∃ f, range ∈ m.ownerRanges f := by
  rw [neededRanges, List.mem_append, List.mem_append]
  constructor
  · intro h
    rcases h with (h | h) | h
    · exact ⟨.asanShadow, h⟩
    · exact ⟨.msanShadow, h⟩
    · exact ⟨.tsanShadow, h⟩
  · intro h
    obtain ⟨f, h⟩ := h
    cases f with
    | asanShadow => exact Or.inl (Or.inl h)
    | msanShadow => exact Or.inl (Or.inr h)
    | msanOrigin => exact Or.inl (Or.inr h)
    | tsanShadow => exact Or.inr h
    | tsanMeta => exact Or.inr h

theorem checkSegments_cons {rest : List Segment}
    (hcheck : m.checkSegments ignoreHeap (segment :: rest) = true) :
    (m.StartsAccepted segment ∨ ¬m.Mapped segment) ∧
      (m.checkSegments ignoreHeap rest = true ∨ m.kVdsoBeg ≤ segment.range.beg) := by
  rw [checkSegments] at hcheck
  split at hcheck
  · next hheap =>
      have hstart := BitVec.lt_def.mpr
        (Nat.lt_of_lt_of_le (BitVec.lt_def.mp segment.nonempty) (BitVec.le_def.mp hheap.2))
      split at hcheck
      · exact ⟨Or.inl (Or.inr ⟨hheap.1, hstart⟩), Or.inl hcheck⟩
      · cases hcheck
  · split at hcheck
    · next happ => exact ⟨Or.inl (Or.inl happ), Or.inl hcheck⟩
    · split at hcheck
      · next hguard => exact ⟨Or.inl (Or.inr hguard), Or.inl hcheck⟩
      · split at hcheck
        · next hnone => exact ⟨Or.inr fun hmapped => hmapped.1 hnone, Or.inl hcheck⟩
        · split at hcheck
          · next hvdso =>
              exact ⟨Or.inr fun hmapped => BitVec.not_lt.mpr hvdso hmapped.2, Or.inr hvdso⟩
          · cases hcheck

/-- Every mapped segment of an accepted process map has been accepted for where it starts. -/
theorem startsAccepted_of_checkSegments (hcheck : m.checkSegments ignoreHeap segments = true)
    (hsorted : segments.Pairwise fun s t => s.range.fin ≤ t.range.beg)
    (hmem : segment ∈ segments) (hmapped : m.Mapped segment) : m.StartsAccepted segment := by
  induction segments with
  | nil => cases hmem
  | cons first rest ih =>
      obtain ⟨hfirst, hrest⟩ := List.pairwise_cons.mp hsorted
      obtain ⟨hstart, hnext⟩ := checkSegments_cons hcheck
      rcases List.mem_cons.mp hmem with rfl | hmem
      · exact hstart.resolve_right fun hnot => hnot hmapped
      · rcases hnext with hnext | hvdso
        · exact ih hnext hrest hmem
        · have hbehind := BitVec.le_trans (BitVec.le_of_lt first.nonempty) (hfirst segment hmem)
          exact absurd hmapped.2 (BitVec.not_lt.mpr (BitVec.le_trans hvdso hbehind))

theorem mem_filtered_iff {addr : Uptr} {limit : ℕ} :
    limit ∈ (m.neededRanges.filter fun range => range.beg < range.fin ∧ addr < range.fin).map
        (fun range => range.beg.toNat) ↔
      ∃ f, ∃ range ∈ m.ownerRanges f, range.beg < range.fin ∧ addr < range.fin ∧
        range.beg.toNat = limit := by
  rw [List.mem_map]
  constructor
  · intro h
    obtain ⟨range, hrange, hlimit⟩ := h
    rw [List.mem_filter, mem_neededRanges_iff, decide_eq_true_eq] at hrange
    obtain ⟨⟨f, hf⟩, hne, haddr⟩ := hrange
    exact ⟨f, range, hf, hne, haddr, hlimit⟩
  · intro h
    obtain ⟨f, range, hf, hne, haddr, hlimit⟩ := h
    refine ⟨range, ?_, hlimit⟩
    rw [List.mem_filter, mem_neededRanges_iff, decide_eq_true_eq]
    exact ⟨⟨f, hf⟩, hne, haddr⟩

/-- A segment holds no byte of a needed range if and only if it ends before the next one. -/
theorem endsInTime_iff : (∀ limit ∈ m.nextNeeded segment.range.beg,
      segment.range.fin.toNat ≤ limit) ↔
    ∀ b, segment.range.Contains b → ∀ f, ∀ range ∈ m.ownerRanges f, ¬range.Contains b := by
  constructor
  · intro hends b hb f range hrange hcontains
    have hne := Nat.lt_of_le_of_lt (BitVec.le_def.mp hcontains.1) (BitVec.lt_def.mp hcontains.2)
    have haddr := Nat.lt_of_le_of_lt (BitVec.le_def.mp hb.1) (BitVec.lt_def.mp hcontains.2)
    have hlimit := mem_filtered_iff.mpr
      ⟨f, range, hrange, BitVec.lt_def.mpr hne, BitVec.lt_def.mpr haddr, rfl⟩
    obtain ⟨limit, hmin⟩ := Option.isSome_iff_exists.mp (List.isSome_min?_of_mem hlimit)
    have hle := (List.min?_eq_some_iff.mp hmin).2 _ hlimit
    have hfin := hends limit hmin
    have hlo := BitVec.le_def.mp hcontains.1
    have hhi := BitVec.lt_def.mp hb.2
    omega
  · intro hfree limit hlimit
    obtain ⟨f, range, hrange, hne, haddr, hbeg⟩ :=
      mem_filtered_iff.mp (List.min?_eq_some_iff.mp hlimit).1
    by_contra hover
    rw [BitVec.lt_def] at hne haddr
    have hsegment := BitVec.lt_def.mp segment.nonempty
    rcases Nat.le_total segment.range.beg.toNat range.beg.toNat with hle | hle
    · have hin : segment.range.Contains range.beg :=
        ⟨BitVec.le_def.mpr hle, BitVec.lt_def.mpr (by omega)⟩
      exact hfree _ hin f range hrange ⟨BitVec.le_refl _, BitVec.lt_def.mpr hne⟩
    · have hin : range.Contains segment.range.beg :=
        ⟨BitVec.le_def.mpr hle, BitVec.lt_def.mpr haddr⟩
      exact hfree _ ⟨BitVec.le_refl _, segment.nonempty⟩ f range hrange hin

end Acceptance

end RuntimeMapping

/-! ## A segment that runs out of low memory -/

/-- The header for x86-64, with one page behind the heap. -/
def runtimeX64_48 : RuntimeMapping :=
  { mappingX64_48 with kVdsoBeg := 0xf000000000000000, additionalSize := 4096 }

def executable (fin : Uptr) (h : 0x400000 < fin) : ProcMaps where
  segments := [⟨⟨0x400000, fin⟩, 3, h⟩]
  sorted := List.pairwise_singleton _ _

end Mair.Platform
