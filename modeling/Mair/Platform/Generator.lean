import Mathlib.Tactic.MkIffOfInductiveProp
import Mair.Platform.Mapping

/-! # The layout generator

The constraint system of `gen_mapping_via_z3.py`: an assignment gives its variables values,
and a header is emitted from each assignment that satisfies every constraint. Comparisons,
divisions and shifts are those of 64-bit vectors as the script overloads them. -/

namespace Mair.Platform

/-! ## Platform configurations -/

/-- `PlatformConfig` together with the configurations of its three mappers. A region bound
that is left to the solver is `none`. -/
structure PlatformConfig where
  loAppMemBeg : Uptr
  loAppMemEnd : Uptr
  loAppMemEndLoose : Uptr
  midAppBeg : Uptr
  hiAppEnd : Uptr
  hiAppBeg : Option Uptr := none
  hiAppBegHint : Uptr := 0
  midAppEnd : Option Uptr := none
  heapBeg : Option Uptr := none
  heapEnd : Option Uptr := none
  alignment : Uptr := 0x010000000000
  minMidAppSize : Uptr := 0
  minHiAppSize : Uptr := 0
  minHeapSize : Uptr := 0
  shadowOffset : Uptr
  shadowScale : ℕ := 3
  xorAlignment : Uptr := 0x100000000000
  shadowMask : Uptr
  shadowCell : Uptr := 8
  shadowMultiplier : Uptr := 2
  metaShadowCell : Uptr := 8
  metaShadowSize : Uptr := 4
  metaAlignment : Uptr := 0x100000000000

/-- `__post_init__`: a given lower bound of high memory is also its hint. -/
def PlatformConfig.postInit (p : PlatformConfig) : PlatformConfig :=
  match p.hiAppBeg with
  | some beg => { p with hiAppBegHint := beg }
  | none => p

/-- The command line may override the alignment. -/
def PlatformConfig.alignHint (p : PlatformConfig) : Option Uptr → PlatformConfig
  | some align => { p with alignment := align }
  | none => p

def configX64_48 : PlatformConfig := PlatformConfig.postInit
  { alignment := 0x010000000000
    loAppMemBeg := 0x000000000000
    loAppMemEnd := 0x00007fff8000 - 0x1000
    loAppMemEndLoose := 0x010000000000
    midAppBeg := 0x550000000000
    midAppEnd := some 0x5a0000000000
    hiAppBeg := some 0x7a0000000000
    hiAppEnd := 0x800000000000
    minMidAppSize := 0x050000000000
    minHiAppSize := 0x060000000000
    minHeapSize := 0x020000000000
    shadowOffset := 0x00007fff8000
    shadowMask := 0x700000000000 }

def configAarch64_48 : PlatformConfig := PlatformConfig.postInit
  { alignment := 0x010000000000
    loAppMemBeg := 0x000000000000
    loAppMemEnd := 0x001000000000 - 0x1000
    loAppMemEndLoose := 0x010000000000
    midAppBeg := 0xaaaa00000000
    midAppEnd := some 0xac0000000000
    hiAppBeg := some 0xfc0000000000
    hiAppEnd := 0x1000000000000
    minHeapSize := 0x020000000000
    shadowOffset := 0x001000000000
    shadowMask := 0xf00000000000 }

/-- `PLATFORMS`. -/
def platformConfigs : List PlatformConfig := [configX64_48, configAarch64_48]

/-! ## Assignments and regions -/

/-- Values of the solver's variables. -/
structure Assignment where
  kLoAppMemBeg : Uptr
  kLoAppMemEnd : Uptr
  kMidAppMemBeg : Uptr
  kMidAppMemEnd : Uptr
  kHiAppMemBeg : Uptr
  kHiAppMemEnd : Uptr
  kHeapMemBeg : Uptr
  kHeapMemEnd : Uptr
  kMSanShadowXor : Uptr
  kMSanShadowAdd : Uptr
  kTsanShadowXor : Uptr
  kTsanShadowAdd : Uptr
  kTsanMetaShadowBeg : Uptr

/-- The names of the regions that the generator places. -/
inductive RegionName where
  | app (r : Region)
  | asanLoApp
  | asanRest
  | msanShadow (r : Region)
  | msanOrigin (r : Region)
  | tsanShadow (r : Region)
  | tsanMeta (r : Region)
  deriving DecidableEq

def Assignment.app (a : Assignment) : Region → Range
  | .lo => ⟨a.kLoAppMemBeg, a.kLoAppMemEnd⟩
  | .mid => ⟨a.kMidAppMemBeg, a.kMidAppMemEnd⟩
  | .hi => ⟨a.kHiAppMemBeg, a.kHiAppMemEnd⟩
  | .heap => ⟨a.kHeapMemBeg, a.kHeapMemEnd⟩

section Mappers

variable (p : PlatformConfig) (a : Assignment)

/-- `ASanMapper._mem_to_shadow`; the solver's right shift is arithmetic. -/
def PlatformConfig.asanMemToShadow (mem : Uptr) : Uptr :=
  mem.sshiftRight p.shadowScale + p.shadowOffset

/-- `MSanMapper._mem_to_shadow`. -/
def Assignment.msanMemToShadow (mem : Uptr) (isEnd : Bool) : Uptr :=
  let mem := if isEnd then mem - 1 else mem
  let shadow := mem ^^^ a.kMSanShadowXor
  if isEnd then shadow + 1 else shadow

/-- `MSanMapper._mem_to_origin`. -/
def Assignment.msanMemToOrigin (mem : Uptr) (isEnd : Bool) : Uptr :=
  a.msanMemToShadow mem isEnd + a.kMSanShadowAdd

/-- `TSanMapper._mem_to_shadow`. -/
def PlatformConfig.tsanMemToShadow (mem : Uptr) (isEnd : Bool) : Uptr :=
  let mem := if isEnd then mem - 1 else mem
  let shadow := ((mem &&& ~~~(p.shadowMask ||| (p.shadowCell - 1))) ^^^ a.kTsanShadowXor) *
    p.shadowMultiplier + a.kTsanShadowAdd
  if isEnd then shadow + p.shadowCell * p.shadowMultiplier else shadow

/-- `TSanMapper._mem_to_meta`. -/
def PlatformConfig.tsanMemToMeta (mem : Uptr) (isEnd : Bool) : Uptr :=
  let mem := if isEnd then mem - 1 else mem
  let metaShadow := ((mem &&& ~~~(p.shadowMask ||| (p.metaShadowCell - 1))) / p.metaShadowCell *
    p.metaShadowSize) ||| a.kTsanMetaShadowBeg
  if isEnd then metaShadow + p.metaShadowSize else metaShadow

def PlatformConfig.region : RegionName → Range
  | .app r => a.app r
  | .asanLoApp => ⟨p.shadowOffset, p.asanMemToShadow p.shadowOffset⟩
  | .asanRest =>
      let restShadowEnd := p.asanMemToShadow a.kHiAppMemEnd
      ⟨p.asanMemToShadow restShadowEnd, restShadowEnd⟩
  | .msanShadow r =>
      ⟨a.msanMemToShadow (a.app r).beg false, a.msanMemToShadow (a.app r).fin true⟩
  | .msanOrigin r =>
      ⟨a.msanMemToOrigin (a.app r).beg false, a.msanMemToOrigin (a.app r).fin true⟩
  | .tsanShadow r =>
      ⟨p.tsanMemToShadow a (a.app r).beg false, p.tsanMemToShadow a (a.app r).fin true⟩
  | .tsanMeta r =>
      ⟨p.tsanMemToMeta a (a.app r).beg false, p.tsanMemToMeta a (a.app r).fin true⟩

end Mappers

def appRegions : List Region := [.lo, .mid, .hi, .heap]

/-- The regions that the mappers make from each application region. -/
def mappedRegions : List RegionName :=
  (appRegions.flatMap fun r => [.msanShadow r, .msanOrigin r]) ++
    appRegions.flatMap fun r => [.tsanShadow r, .tsanMeta r]

def allRegions : List RegionName :=
  appRegions.map .app ++ [.asanLoApp, .asanRest] ++ mappedRegions

/-! ## Constraints -/

/-- `_add_min_max_constraints`. -/
def Assignment.MinMax (a : Assignment) (range : Range) : Prop :=
  a.kLoAppMemEnd < range.beg ∧ range.beg < range.fin ∧ range.fin < a.kHiAppMemBeg

instance (a : Assignment) (range : Range) : Decidable (a.MinMax range) :=
  inferInstanceAs (Decidable (_ ∧ _ ∧ _))

/-- A bound given by the configuration fixes the variable. -/
def Specified : Option Uptr → Uptr → Prop
  | some v, var => var = v
  | none, _ => True

instance : ∀ (spec : Option Uptr) (var : Uptr), Decidable (Specified spec var)
  | some v, var => inferInstanceAs (Decidable (var = v))
  | none, _ => inferInstanceAs (Decidable True)

/-- `add_basic_constraints`. -/
@[mk_iff]
structure PlatformConfig.BasicConstraints (p : PlatformConfig) (a : Assignment) : Prop where
  loMid : a.kLoAppMemEnd < a.kMidAppMemBeg
  mid : a.kMidAppMemBeg < a.kMidAppMemEnd
  midHi : a.kMidAppMemEnd < a.kHiAppMemBeg
  hi : a.kHiAppMemBeg < a.kHiAppMemEnd
  heap : a.MinMax (a.app .heap)
  heapMid : a.kHeapMemBeg > a.kMidAppMemEnd
  hiHint : a.kHiAppMemBeg ≥ p.hiAppBegHint
  loBeg : a.kLoAppMemBeg = p.loAppMemBeg
  loEnd : a.kLoAppMemEnd = p.loAppMemEndLoose
  midBeg : a.kMidAppMemBeg = p.midAppBeg
  midEnd : Specified p.midAppEnd a.kMidAppMemEnd
  hiBeg : Specified p.hiAppBeg a.kHiAppMemBeg
  hiEnd : a.kHiAppMemEnd = p.hiAppEnd
  heapBeg : Specified p.heapBeg a.kHeapMemBeg
  heapEnd : Specified p.heapEnd a.kHeapMemEnd

/-- `add_size_constraints`. -/
@[mk_iff]
structure PlatformConfig.SizeConstraints (p : PlatformConfig) (a : Assignment) : Prop where
  mid : a.kMidAppMemEnd - a.kMidAppMemBeg ≥ p.minMidAppSize
  hi : a.kHiAppMemEnd - a.kHiAppMemBeg ≥ p.minHiAppSize
  heap : a.kHeapMemEnd - a.kHeapMemBeg ≥ p.minHeapSize

/-- `MSanMapper.add_constraints`; the solver's remainder is signed. -/
@[mk_iff]
structure PlatformConfig.MSanConstraints (p : PlatformConfig) (a : Assignment) : Prop where
  add : a.kMSanShadowAdd < p.hiAppBegHint
  xorAligned : a.kMSanShadowXor.smod p.xorAlignment = 0
  addAligned : a.kMSanShadowAdd.smod p.alignment = 0

/-- `_add_app_distinguishable_constraints` for one pair of regions. -/
def Assignment.Distinguishable (a : Assignment) (r r' : Region) : Prop :=
  (a.app r).fin &&& indicator ≤ (a.app r').beg &&& indicator ∨
    (a.app r').fin &&& indicator ≤ (a.app r).beg &&& indicator

instance (a : Assignment) (r r' : Region) : Decidable (a.Distinguishable r r') :=
  inferInstanceAs (Decidable (_ ∨ _))

/-- `TSanMapper.add_constraints`. -/
@[mk_iff]
structure PlatformConfig.TSanConstraints (p : PlatformConfig) (a : Assignment) : Prop where
  add : a.kTsanShadowAdd < p.hiAppBegHint
  xor : a.kTsanShadowXor = 0
  addAligned : a.kTsanShadowAdd.smod p.alignment = 0
  metaBeg : a.kTsanMetaShadowBeg ≥ p.loAppMemEndLoose
  metaAligned : a.kTsanMetaShadowBeg.smod p.metaAlignment = 0
  distinguishable : appRegions.Pairwise a.Distinguishable

/-- The constraints that `solve` asserts. The alignment of the region bounds is only an
objective of the optimizer. -/
@[mk_iff]
structure PlatformConfig.Satisfies (p : PlatformConfig) (a : Assignment) : Prop where
  regions : ∀ n ∈ mappedRegions, a.MinMax (p.region a n)
  basic : p.BasicConstraints a
  size : p.SizeConstraints a
  msan : p.MSanConstraints a
  tsan : p.TSanConstraints a
  nonOverlap : (allRegions.filter (· ≠ .app .lo)).Pairwise fun n n' =>
    (p.region a n).Apart (p.region a n')

section Decidability

variable (p : PlatformConfig) (a : Assignment)

instance : Decidable (p.BasicConstraints a) :=
  decidable_of_iff _ (p.basicConstraints_iff a).symm

instance : Decidable (p.SizeConstraints a) :=
  decidable_of_iff _ (p.sizeConstraints_iff a).symm

instance : Decidable (p.MSanConstraints a) :=
  decidable_of_iff _ (p.mSanConstraints_iff a).symm

instance : Decidable (p.TSanConstraints a) :=
  decidable_of_iff _ (p.tSanConstraints_iff a).symm

instance : Decidable (p.Satisfies a) :=
  decidable_of_iff _ (p.satisfies_iff a).symm

end Decidability

/-! ## The emitted header -/

section Header

variable (p : PlatformConfig) (a : Assignment)

def PlatformConfig.availableUserSpaceSize : Uptr :=
  (~~~p.shadowMask + 1) &&& ((1 <<< (Nat.log2 p.shadowMask.toNat + 1)) - 1)

/-- `kTsanShadowBeg`: the least start of a TSan shadow region. -/
def PlatformConfig.tsanShadowBeg : Uptr :=
  appRegions.foldl (fun beg r =>
    let sbeg := (p.region a (.tsanShadow r)).beg
    if sbeg < beg then sbeg else beg) 0xffffffffffffffff

/-- `kTsanShadowEnd`: the greatest end of a TSan shadow region. -/
def PlatformConfig.tsanShadowEnd : Uptr :=
  appRegions.foldl (fun fin r =>
    let send := (p.region a (.tsanShadow r)).fin
    if send > fin then send else fin) 0

/-- `extract_solution` and the header printed from it. -/
def PlatformConfig.layout : Mapping where
  kHeapMemBeg := a.kHeapMemBeg
  kHeapMemEnd := a.kHeapMemEnd
  kLoAppMemBeg := a.kLoAppMemBeg
  kLoAppMemEnd := a.kLoAppMemEnd
  kAsanLoAppMemEnd := p.loAppMemEnd
  kMidAppMemBeg := a.kMidAppMemBeg
  kMidAppMemEnd := a.kMidAppMemEnd
  kHiAppMemBeg := a.kHiAppMemBeg
  kHiAppMemEnd := a.kHiAppMemEnd
  kAsanShadowOffset := p.shadowOffset
  kAsanShadowScale := p.shadowScale
  kMSanShadowXor := a.kMSanShadowXor
  kMSanShadowAdd := a.kMSanShadowAdd
  kTsanShadowXor := a.kTsanShadowXor
  kTsanShadowAdd := a.kTsanShadowAdd
  kTsanShadowMsk := p.shadowMask
  kTsanMetaShadowBeg := a.kTsanMetaShadowBeg
  kTsanMetaShadowEnd := a.kTsanMetaShadowBeg +
    p.availableUserSpaceSize / p.metaShadowCell * p.metaShadowSize
  kTsanShadowBeg := p.tsanShadowBeg a
  kTsanShadowEnd := p.tsanShadowEnd a

end Header

end Mair.Platform
