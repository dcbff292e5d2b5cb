import Mathlib.Data.BitVec
import Mathlib.Data.Fintype.Basic
import Mathlib.Data.Nat.Notation
import Mair.Library.HeapSort

/-! # The composed address-space layouts

The generated platform headers, the address codecs of the three tools, and the list of
ranges that `CheckAndProtect` sorts and protects. Addresses are 64-bit machine words. -/

namespace Mair.Platform

abbrev Uptr := BitVec 64

/-! ## Platform parameters -/

/-- The constants of one generated platform header. -/
structure Mapping where
  kHeapMemBeg : Uptr
  kHeapMemEnd : Uptr
  kLoAppMemBeg : Uptr
  kLoAppMemEnd : Uptr
  kAsanLoAppMemEnd : Uptr
  kMidAppMemBeg : Uptr
  kMidAppMemEnd : Uptr
  kHiAppMemBeg : Uptr
  kHiAppMemEnd : Uptr
  kAsanShadowOffset : Uptr
  kAsanShadowScale : ℕ
  kMSanShadowXor : Uptr
  kMSanShadowAdd : Uptr
  kTsanShadowXor : Uptr
  kTsanShadowAdd : Uptr
  kTsanShadowMsk : Uptr
  kTsanMetaShadowBeg : Uptr
  kTsanMetaShadowEnd : Uptr
  kTsanShadowBeg : Uptr
  kTsanShadowEnd : Uptr

def mappingX64_48 : Mapping where
  kHeapMemBeg := 0x620000000000
  kHeapMemEnd := 0x640000000000
  kLoAppMemBeg := 0x000000000000
  kLoAppMemEnd := 0x010000000000
  kAsanLoAppMemEnd := 0x00007fff7000
  kMidAppMemBeg := 0x550000000000
  kMidAppMemEnd := 0x5a0000000000
  kHiAppMemBeg := 0x7a0000000000
  kHiAppMemEnd := 0x800000000000
  kAsanShadowOffset := 0x00007fff8000
  kAsanShadowScale := 3
  kMSanShadowXor := 0x400000000000
  kMSanShadowAdd := 0x2f0000000000
  kTsanShadowXor := 0x000000000000
  kTsanShadowAdd := 0x1a0000000000
  kTsanShadowMsk := 0x700000000000
  kTsanMetaShadowBeg := 0x700000000000
  kTsanMetaShadowEnd := 0x780000000000
  kTsanShadowBeg := 0x1a0000000000
  kTsanShadowEnd := 0x3a0000000000

def mappingAarch64_48 : Mapping where
  kHeapMemBeg := 0xd80000000000
  kHeapMemEnd := 0xda0000000000
  kLoAppMemBeg := 0x000000000000
  kLoAppMemEnd := 0x010000000000
  kAsanLoAppMemEnd := 0x000ffffff000
  kMidAppMemBeg := 0xaaaa00000000
  kMidAppMemEnd := 0xac0000000000
  kHiAppMemBeg := 0xfc0000000000
  kHiAppMemEnd := 0x1000000000000
  kAsanShadowOffset := 0x001000000000
  kAsanShadowScale := 3
  kMSanShadowXor := 0x900000000000
  kMSanShadowAdd := 0x2c0000000000
  kTsanShadowXor := 0x000000000000
  kTsanShadowAdd := 0xaf0000000000
  kTsanShadowMsk := 0xf00000000000
  kTsanMetaShadowBeg := 0xd00000000000
  kTsanMetaShadowEnd := 0xd80000000000
  kTsanShadowBeg := 0xaf0000000000
  kTsanShadowEnd := 0xcf0000000000

/-- The two layouts the runtime is built for. -/
def platforms : List Mapping := [mappingX64_48, mappingAarch64_48]

/-- The four regions of application memory. -/
inductive Region where
  | lo | mid | hi | heap
  deriving DecidableEq

instance : Fintype Region where
  elems := {.lo, .mid, .hi, .heap}
  complete r := by cases r <;> decide

def Mapping.memBeg (m : Mapping) : Region → Uptr
  | .lo => m.kLoAppMemBeg
  | .mid => m.kMidAppMemBeg
  | .hi => m.kHiAppMemBeg
  | .heap => m.kHeapMemBeg

def Mapping.memEnd (m : Mapping) : Region → Uptr
  | .lo => m.kLoAppMemEnd
  | .mid => m.kMidAppMemEnd
  | .hi => m.kHiAppMemEnd
  | .heap => m.kHeapMemEnd

def Mapping.InRegion (m : Mapping) (r : Region) (mem : Uptr) : Prop :=
  m.memBeg r ≤ mem ∧ mem < m.memEnd r

def Mapping.isAppMem (m : Mapping) (mem : Uptr) : Bool :=
  (mem ≥ m.kHeapMemBeg && mem < m.kHeapMemEnd) ||
  (mem ≥ m.kMidAppMemBeg && mem < m.kMidAppMemEnd) ||
  (mem ≥ m.kLoAppMemBeg && mem < m.kLoAppMemEnd) ||
  (mem ≥ m.kHiAppMemBeg && mem < m.kHiAppMemEnd)

theorem Mapping.isAppMem_iff (m : Mapping) (mem : Uptr) :
    m.isAppMem mem = true ↔ ∃ r, m.InRegion r mem := by
  simp only [isAppMem, ge_iff_le, Bool.or_eq_true, Bool.and_eq_true, decide_eq_true_eq]
  constructor
  · rintro (((h | h) | h) | h)
    · exact ⟨.heap, h⟩
    · exact ⟨.mid, h⟩
    · exact ⟨.lo, h⟩
    · exact ⟨.hi, h⟩
  · rintro ⟨r, h⟩
    cases r with
    | lo => exact Or.inl (Or.inr h)
    | mid => exact Or.inl (Or.inl (Or.inr h))
    | hi => exact Or.inr h
    | heap => exact Or.inl (Or.inl (Or.inl h))

/-! ## ASan and MSan -/

def Mapping.asanMemToShadow (m : Mapping) (mem : Uptr) : Uptr :=
  (mem >>> m.kAsanShadowScale) + m.kAsanShadowOffset

def Mapping.msanMemToShadow (m : Mapping) (p : Uptr) : Uptr :=
  p ^^^ m.kMSanShadowXor

def Mapping.msanShadowToOrigin (m : Mapping) (p : Uptr) : Uptr :=
  p + m.kMSanShadowAdd

def Mapping.msanMemToOrigin (m : Mapping) (p : Uptr) : Uptr :=
  m.msanShadowToOrigin (m.msanMemToShadow p)

/-! ## TSan -/

def kShadowCnt : ℕ := 4
def kShadowCell : Uptr := 8
def kShadowSize : ℕ := 4
def kShadowMultiplier : Uptr := 2
def kMetaShadowCell : Uptr := 8
def kMetaShadowSize : Uptr := 4
def kCompressedAddrBits : ℕ := 44

def Mapping.memToShadow (m : Mapping) (x : Uptr) : Uptr :=
  ((x &&& ~~~(m.kTsanShadowMsk ||| (kShadowCell - 1))) ^^^ m.kTsanShadowXor) *
    kShadowMultiplier + m.kTsanShadowAdd

def Mapping.memToMeta (m : Mapping) (x : Uptr) : Uptr :=
  ((x &&& ~~~(m.kTsanShadowMsk ||| (kMetaShadowCell - 1))) / kMetaShadowCell *
    kMetaShadowSize) ||| m.kTsanMetaShadowBeg

def Mapping.isShadowMem (m : Mapping) (mem : Uptr) : Bool :=
  mem ≥ m.kTsanShadowBeg && mem < m.kTsanShadowEnd

def Mapping.isMetaMem (m : Mapping) (mem : Uptr) : Bool :=
  mem ≥ m.kTsanMetaShadowBeg && mem < m.kTsanMetaShadowEnd

/-- `ShadowToMemImpl::ApplySpecialization`, which both composed layouts select. -/
def Mapping.shadowToMem (m : Mapping) (shadow : Uptr) : Uptr :=
  if m.isShadowMem shadow then
    let midBeg := m.kMidAppMemBeg &&& ~~~m.kTsanShadowMsk
    let midEnd := m.kMidAppMemEnd &&& ~~~m.kTsanShadowMsk
    let hiBeg := m.kHiAppMemBeg &&& ~~~m.kTsanShadowMsk
    let hiEnd := m.kHiAppMemEnd &&& ~~~m.kTsanShadowMsk
    let heapBeg := m.kHeapMemBeg &&& ~~~m.kTsanShadowMsk
    let heapEnd := m.kHeapMemEnd &&& ~~~m.kTsanShadowMsk
    let p := ((shadow - m.kTsanShadowAdd) / kShadowMultiplier) ^^^ m.kTsanShadowXor
    if p ≥ midBeg ∧ p < midEnd then p ||| (m.kMidAppMemBeg &&& m.kTsanShadowMsk)
    else if p ≥ hiBeg ∧ p < hiEnd then p ||| (m.kHiAppMemBeg &&& m.kTsanShadowMsk)
    else if p ≥ heapBeg ∧ p < heapEnd then p ||| (m.kHeapMemBeg &&& m.kTsanShadowMsk)
    else p
  else 0

def compressAddr (addr : Uptr) : Uptr :=
  addr &&& ((1 <<< kCompressedAddrBits) - 1)

def indicator : Uptr := 0x0e0000000000
def indLsb : Uptr := 1 <<< 41

def roundDownTo (x boundary : Uptr) : Uptr :=
  x &&& ~~~(boundary - 1)

/-- The probe points of one region: `beg`, then every multiple of `indLsb` below `fin`.
The fuel bounds the number of probes. -/
def probes : ℕ → Uptr → Uptr → List Uptr
  | 0, _, _ => []
  | fuel + 1, p, fin =>
      if p < fin then p :: probes fuel (roundDownTo (p + indLsb) indLsb) fin else []

/-- A region is probed at most once in every stretch of `indLsb` addresses it touches. -/
def probeCount (beg fin : Uptr) : ℕ :=
  fin.toNat / indLsb.toNat - beg.toNat / indLsb.toNat + 1

def Mapping.restoreProbes (m : Mapping) : List Uptr :=
  [Region.lo, .mid, .hi, .heap].flatMap fun r =>
    if m.memBeg r = m.memEnd r then []
    else probes (probeCount (m.memBeg r) (m.memEnd r)) (m.memBeg r) (m.memEnd r)

/-- `RestoreAddrImpl`: the first probe whose indicator bits match supplies the high bits.
`none` is the `Die` at the end of the source function. -/
def Mapping.restoreAddr (m : Mapping) (addr : Uptr) : Option Uptr :=
  (m.restoreProbes.find? fun p => addr &&& indicator == p &&& indicator).map fun p =>
    addr ||| (p &&& ~~~(indLsb - 1))

/-! ## The ranges that `CheckAndProtect` protects between -/

/-- A half-open address range. -/
structure Range where
  beg : Uptr
  fin : Uptr
  deriving DecidableEq

def Range.Apart (lh rh : Range) : Prop :=
  lh.fin ≤ rh.beg ∨ rh.fin ≤ lh.beg

instance (lh rh : Range) : Decidable (lh.Apart rh) :=
  inferInstanceAs (Decidable (lh.fin ≤ rh.beg ∨ rh.fin ≤ lh.beg))

def kMmapGranularity : Uptr := 4096

def Mapping.asanNeededMapRanges (m : Mapping) : List Range :=
  [⟨m.kAsanShadowOffset - kMmapGranularity,
    (m.kHiAppMemEnd >>> m.kAsanShadowScale) + m.kAsanShadowOffset⟩]

def Mapping.msanShadowRange (m : Mapping) (r : Region) : Range :=
  ⟨m.msanMemToShadow (m.memBeg r), m.msanMemToShadow (m.memEnd r - 1) + 1⟩

def Mapping.msanOriginRange (m : Mapping) (r : Region) : Range :=
  ⟨m.msanMemToOrigin (m.memBeg r), m.msanMemToOrigin (m.memEnd r - 1) + 1⟩

def Mapping.msanNeededMapRanges (m : Mapping) : List Range :=
  [m.msanShadowRange .lo, m.msanShadowRange .mid, m.msanShadowRange .hi, m.msanShadowRange .heap,
    m.msanOriginRange .lo, m.msanOriginRange .mid, m.msanOriginRange .hi, m.msanOriginRange .heap]

/-- `APP2SHADOW`: the pointer increment by `kShadowCnt` counts `RawShadow` values. -/
def Mapping.app2Shadow (m : Mapping) (r : Region) : Range :=
  ⟨m.memToShadow (m.memBeg r),
    m.memToShadow (m.memEnd r - 1) + BitVec.ofNat 64 (kShadowCnt * kShadowSize)⟩

/-- `APP2META`: the pointer increment by one counts 32-bit meta values. -/
def Mapping.app2Meta (m : Mapping) (r : Region) : Range :=
  ⟨m.memToMeta (m.memBeg r), m.memToMeta (m.memEnd r - 1) + kMetaShadowSize⟩

def Mapping.tsanNeededMapRanges (m : Mapping) : List Range :=
  [m.app2Shadow .lo, m.app2Shadow .mid, m.app2Shadow .hi, m.app2Shadow .heap,
    m.app2Meta .lo, m.app2Meta .mid, m.app2Meta .hi, m.app2Meta .heap]

/-- The list assembled by `CheckAndProtect` when all three tools are built in. -/
def Mapping.mapRanges (m : Mapping) : List Range :=
  [⟨m.kLoAppMemBeg, m.kAsanLoAppMemEnd⟩, ⟨m.kMidAppMemBeg, m.kMidAppMemEnd⟩,
    ⟨m.kHeapMemBeg, m.kHeapMemEnd⟩, ⟨m.kHiAppMemBeg, m.kHiAppMemEnd⟩] ++
  m.asanNeededMapRanges ++ m.tsanNeededMapRanges ++ m.msanNeededMapRanges

/-- The walk over the sorted ranges: `none` is the fatal overlap, otherwise the gaps that
`ProtectRange` makes inaccessible, in order. -/
def protectGaps : Uptr → List Range → Option (List Range)
  | _, [] => some []
  | lastEnd, cur :: rest =>
      if cur.beg < lastEnd then none
      else (protectGaps cur.fin rest).map fun gaps =>
        if lastEnd = cur.beg then gaps else ⟨lastEnd, cur.beg⟩ :: gaps

instance : Inhabited Range := ⟨⟨0, 0⟩⟩

/-- `Sort` by the beginnings of the ranges. -/
def sortRanges (ranges : List Range) : List Range :=
  HeapSort.sortList (fun lh rh => lh.beg < rh.beg) ranges

def Mapping.protectedGaps (m : Mapping) : Option (List Range) :=
  protectGaps 0 (sortRanges m.mapRanges)

end Mair.Platform
