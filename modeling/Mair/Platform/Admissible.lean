import Mathlib.Data.List.Pairwise
import Mair.Platform.Generator
import Mair.Platform.Separation

/-! # What the generator's constraints say about a header

A satisfying assignment fixes low, middle and high memory, places the heap between the last
two, and keeps the ranges of the metadata functions apart. The header is described by these
facts alone, whichever platform it is generated for. -/

namespace Mair.Platform

/-! ## The ranges of the metadata functions -/

/-- The range that the generator reserves for a metadata function on a region. All of ASan's
shadow above low memory shares one range. -/
def Mapping.metaRange (m : Mapping) : MetaFn → Region → Range
  | .asanShadow, _ =>
      ⟨m.asanMemToShadow (m.asanMemToShadow m.kHiAppMemEnd), m.asanMemToShadow m.kHiAppMemEnd⟩
  | .msanShadow, r => m.msanShadowRange r
  | .msanOrigin, r => m.msanOriginRange r
  | .tsanShadow, r => m.app2Shadow r
  | .tsanMeta, r => m.app2Meta r

def MetaFn.regionName : MetaFn → Region → RegionName
  | .asanShadow, _ => .asanRest
  | .msanShadow, r => .msanShadow r
  | .msanOrigin, r => .msanOrigin r
  | .tsanShadow, r => .tsanShadow r
  | .tsanMeta, r => .tsanMeta r

theorem MetaFn.regionName_ne {k k' : MetaFn} (h : k ≠ k') (r r' : Region) :
    k.regionName r ≠ k'.regionName r' := by
  cases k <;> cases k' <;> first | exact absurd rfl h | (intro heq; cases heq)

/-- The description of a generated header. -/
structure Mapping.Admissible (m : Mapping) : Prop where
  loBeg : (m.memBeg .lo).toNat = 0
  loEnd : (m.memEnd .lo).toNat = 2 ^ 40
  midLo : 2 ^ 40 < (m.memBeg .mid).toNat
  mid : (m.memBeg .mid).toNat < (m.memEnd .mid).toNat
  heapMid : (m.memEnd .mid).toNat < (m.memBeg .heap).toNat
  heap : (m.memBeg .heap).toNat < (m.memEnd .heap).toNat
  heapHi : (m.memEnd .heap).toNat < (m.memBeg .hi).toNat
  hi : (m.memBeg .hi).toNat < (m.memEnd .hi).toNat
  hiEnd : (m.memEnd .hi).toNat ≤ 2 ^ 48
  midBlock : ((m.memEnd .mid).toNat - 1) / 2 ^ 44 = m.block .mid
  hiBlock : ((m.memEnd .hi).toNat - 1) / 2 ^ 44 = m.block .hi
  midBegAligned : (m.memBeg .mid).toNat % 4 = 0
  midEndAligned : (m.memEnd .mid).toNat % 2 ^ 41 = 0
  hiBegAligned : (m.memBeg .hi).toNat % 2 ^ 41 = 0
  hiEndAligned : (m.memEnd .hi).toNat % 8 = 0
  loIndicator : 0 < (m.memBeg .mid).toNat / 2 ^ 41 % 8
  midIndicator :
    ((m.memEnd .mid).toNat - 1) / 2 ^ 41 % 8 < (m.memBeg .hi).toNat / 2 ^ 41 % 8
  asanScale : m.kAsanShadowScale = 3
  asanLoEnd : m.kAsanLoAppMemEnd.toNat ≤ m.kAsanShadowOffset.toNat
  asanLo : m.kAsanShadowOffset.toNat + 2 ^ 37 ≤ 2 ^ 40
  asanRestBeg : (m.metaRange .asanShadow .mid).beg.toNat ≤
    m.kAsanShadowOffset.toNat + (m.memBeg .mid).toNat / 8
  msanXor : m.kMSanShadowXor.toNat % 2 ^ 44 = 0
  msanXorLt : m.kMSanShadowXor.toNat < 2 ^ 48
  msanAdd : m.kMSanShadowAdd.toNat < 2 ^ 48
  tsanMsk : m.kTsanShadowMsk.toNat = 2 ^ 44 * m.tsanMskBlock
  tsanMskClears : ∀ b < 2 ^ 4, 2 ^ 44 * b < (m.memEnd .hi).toNat →
    b &&& (2 ^ 20 - 1 - m.tsanMskBlock) = 0
  tsanXor : m.kTsanShadowXor = 0#64
  tsanAdd : m.kTsanShadowAdd.toNat < 2 ^ 48
  metaBeg : m.kTsanMetaShadowBeg.toNat % 2 ^ 44 = 0
  metaBegLt : m.kTsanMetaShadowBeg.toNat < 2 ^ 48
  mapped : ∀ k ≠ .asanShadow, ∀ r, (m.metaRange k r).beg < (m.metaRange k r).fin ∧
    (m.metaRange k r).fin < m.memBeg .hi
  aboveLo : ∀ k r, m.memEnd .lo < (m.metaRange k r).beg
  apart : ∀ k k', k ≠ k' → ∀ r r', (m.metaRange k r).Apart (m.metaRange k' r')
  appApart : ∀ k r r', r' ≠ .lo → (m.metaRange k r).Apart ⟨m.memBeg r', m.memEnd r'⟩

/-! ## Signed remainders -/

/-- A signed remainder by a positive power of two vanishes on its multiples only. -/
theorem toNat_mod_of_smod {x y : Uptr} {k : ℕ} (hk : k < 63) (hy : y.toNat = 2 ^ k)
    (h : x.smod y = 0) : x.toNat % 2 ^ k = 0 := by
  have hyint : y.toInt = 2 ^ k := by
    have hlt : (2 : ℕ) ^ k < 2 ^ 63 := Nat.pow_lt_pow_right (by decide) hk
    rw [BitVec.toInt_eq_toNat_of_lt (by omega), hy]
    norm_cast
  have hint := congrArg BitVec.toInt h
  rw [BitVec.toInt_smod, hyint, show (0 : Uptr).toInt = 0 from rfl] at hint
  have hdvd : (2 ^ k : ℤ) ∣ x.toInt := Int.dvd_of_fmod_eq_zero hint
  have hword : (2 ^ k : ℤ) ∣ (2 ^ 64 : ℕ) := by
    exact_mod_cast Nat.pow_dvd_pow 2 (by omega : k ≤ 64)
  have hnat : (2 ^ k : ℤ) ∣ (x.toNat : ℤ) := by
    rw [BitVec.toInt_eq_toNat_cond] at hdvd
    split at hdvd
    · exact hdvd
    · simpa using Int.dvd_add hdvd hword
  exact Nat.mod_eq_zero_of_dvd (by exact_mod_cast hnat)

/-! ## Reading the constraints -/

section Satisfies

variable {p : PlatformConfig} {a : Assignment} {hint : Option Uptr}

theorem app_eq (p : PlatformConfig) (a : Assignment) (r : Region) :
    a.app r = ⟨(p.layout a).memBeg r, (p.layout a).memEnd r⟩ := by
  cases r <;> rfl

theorem metaRange_eq (hp : p ∈ platformConfigs) (ha : (p.alignHint hint).Satisfies a)
    (k : MetaFn) (r : Region) :
    ((p.alignHint hint).layout a).metaRange k r =
      (p.alignHint hint).region a (k.regionName r) := by
  have hhi := ha.basic.hiEnd
  simp only [platformConfigs, List.mem_cons, List.not_mem_nil, or_false] at hp
  cases k with
  | asanShadow =>
      simp only [Mapping.metaRange, MetaFn.regionName, PlatformConfig.region,
        PlatformConfig.layout, hhi, PlatformConfig.asanMemToShadow, Mapping.asanMemToShadow]
      rcases hp with rfl | rfl <;> cases hint <;>
        simp only [PlatformConfig.alignHint] <;> decide +kernel
  | msanShadow => cases r <;> rfl
  | msanOrigin =>
      simp only [Mapping.metaRange, MetaFn.regionName, PlatformConfig.region,
        Mapping.msanOriginRange, Mapping.msanMemToOrigin, Mapping.msanShadowToOrigin,
        Mapping.msanMemToShadow, Assignment.msanMemToOrigin, Assignment.msanMemToShadow,
        app_eq (p.alignHint hint), if_true, Bool.false_eq_true, if_false, Range.mk.injEq]
      exact ⟨rfl, add_right_comm _ _ _⟩
  | tsanShadow => rcases hp with rfl | rfl <;> cases hint <;> cases r <;> rfl
  | tsanMeta => rcases hp with rfl | rfl <;> cases hint <;> cases r <;> rfl

/-- The numbers that a configuration fixes in its headers. -/
structure Mapping.Fixed (m : Mapping) (midBeg midEnd hiBeg hiEnd offset asanEnd msk : ℕ) :
    Prop where
  loBeg : (m.memBeg .lo).toNat = 0
  loEnd : (m.memEnd .lo).toNat = 2 ^ 40
  midBeg : (m.memBeg .mid).toNat = midBeg
  midEnd : (m.memEnd .mid).toNat = midEnd
  hiBeg : (m.memBeg .hi).toNat = hiBeg
  hiEnd : (m.memEnd .hi).toNat = hiEnd
  asanScale : m.kAsanShadowScale = 3
  asanOffset : m.kAsanShadowOffset.toNat = offset
  asanLoEnd : m.kAsanLoAppMemEnd.toNat = asanEnd
  tsanMsk : m.kTsanShadowMsk.toNat = msk

theorem fixed_of_satisfies (hp : p ∈ platformConfigs) (ha : (p.alignHint hint).Satisfies a) :
    ((p.alignHint hint).layout a).Fixed 0x550000000000 0x5a0000000000 0x7a0000000000
        0x800000000000 0x7fff8000 0x7fff7000 0x700000000000 ∨
      ((p.alignHint hint).layout a).Fixed 0xaaaa00000000 0xac0000000000 0xfc0000000000
        0x1000000000000 0x1000000000 0xffffff000 0xf00000000000 := by
  simp only [platformConfigs, List.mem_cons, List.not_mem_nil, or_false] at hp
  obtain ⟨-, hbasic, -, -, -, -⟩ := ha
  rcases hp with rfl | rfl
  · left
    cases hint <;> exact
      ⟨congrArg BitVec.toNat hbasic.loBeg, congrArg BitVec.toNat hbasic.loEnd,
        congrArg BitVec.toNat hbasic.midBeg, congrArg BitVec.toNat hbasic.midEnd,
        congrArg BitVec.toNat hbasic.hiBeg, congrArg BitVec.toNat hbasic.hiEnd,
        rfl, rfl, rfl, rfl⟩
  · right
    cases hint <;> exact
      ⟨congrArg BitVec.toNat hbasic.loBeg, congrArg BitVec.toNat hbasic.loEnd,
        congrArg BitVec.toNat hbasic.midBeg, congrArg BitVec.toNat hbasic.midEnd,
        congrArg BitVec.toNat hbasic.hiBeg, congrArg BitVec.toNat hbasic.hiEnd,
        rfl, rfl, rfl, rfl⟩

/-- Ranges of different names do not overlap; low memory is left out of the constraint. -/
theorem region_apart (ha : p.Satisfies a) {n n' : RegionName} (hn : n ∈ allRegions)
    (hn' : n' ∈ allRegions) (hlo : n ≠ .app .lo) (hlo' : n' ≠ .app .lo) (hne : n ≠ n') :
    (p.region a n).Apart (p.region a n') := by
  have hsymm : Std.Symm fun n n' => (p.region a n).Apart (p.region a n') :=
    ⟨fun _ _ h => Or.symm h⟩
  exact ha.nonOverlap.forall (by simpa using ⟨hn, hlo⟩) (by simpa using ⟨hn', hlo'⟩) hne

theorem regionName_mem_allRegions (k : MetaFn) (r : Region) : k.regionName r ∈ allRegions := by
  cases k <;> cases r <;> decide

theorem app_mem_allRegions (r : Region) : .app r ∈ allRegions := by
  cases r <;> decide

theorem regionName_ne_app (k : MetaFn) (r r' : Region) : k.regionName r ≠ .app r' := by
  cases k <;> exact RegionName.noConfusion

theorem metaRange_minMax (hp : p ∈ platformConfigs) (ha : (p.alignHint hint).Satisfies a)
    {k : MetaFn} (hk : k ≠ .asanShadow) (r : Region) :
    a.MinMax (((p.alignHint hint).layout a).metaRange k r) := by
  rw [metaRange_eq hp ha]
  apply ha.regions
  cases k with
  | asanShadow => exact absurd rfl hk
  | msanShadow => cases r <;> decide
  | msanOrigin => cases r <;> decide
  | tsanShadow => cases r <;> decide
  | tsanMeta => cases r <;> decide

theorem asanRange_aboveLo (hp : p ∈ platformConfigs) (ha : (p.alignHint hint).Satisfies a)
    (r : Region) :
    ((p.alignHint hint).layout a).memEnd .lo <
      (((p.alignHint hint).layout a).metaRange .asanShadow r).beg := by
  have hlo := ha.basic.loEnd
  have hhi := ha.basic.hiEnd
  simp only [platformConfigs, List.mem_cons, List.not_mem_nil, or_false] at hp
  simp only [Mapping.metaRange, Mapping.memEnd, Mapping.asanMemToShadow, PlatformConfig.layout,
    hlo, hhi]
  rcases hp with rfl | rfl <;> cases hint <;>
    simp only [PlatformConfig.alignHint] <;> decide +kernel

theorem asanRange_beg_le (hp : p ∈ platformConfigs) (ha : (p.alignHint hint).Satisfies a) :
    (((p.alignHint hint).layout a).metaRange .asanShadow .mid).beg.toNat ≤
      ((p.alignHint hint).layout a).kAsanShadowOffset.toNat +
        (((p.alignHint hint).layout a).memBeg .mid).toNat / 8 := by
  have hmid := ha.basic.midBeg
  have hhi := ha.basic.hiEnd
  simp only [platformConfigs, List.mem_cons, List.not_mem_nil, or_false] at hp
  simp only [Mapping.metaRange, Mapping.memBeg, Mapping.asanMemToShadow, PlatformConfig.layout,
    hmid, hhi]
  rcases hp with rfl | rfl <;> cases hint <;>
    simp only [PlatformConfig.alignHint] <;> decide +kernel

/-- The alignments and the bound on the offsets are those of the configuration. -/
theorem config_toNat (hp : p ∈ platformConfigs) :
    (p.alignHint hint).xorAlignment.toNat = 2 ^ 44 ∧
      (p.alignHint hint).metaAlignment.toNat = 2 ^ 44 ∧
      (p.alignHint hint).hiAppBegHint.toNat < 2 ^ 48 := by
  simp only [platformConfigs, List.mem_cons, List.not_mem_nil, or_false] at hp
  rcases hp with rfl | rfl <;> cases hint <;>
    simp only [PlatformConfig.alignHint] <;> decide +kernel

theorem mskClears {msk hiEnd : ℕ} (h : msk = 7 ∨ msk = 15) (hend : hiEnd ≤ 2 ^ 44 * (msk + 1))
    {b : ℕ} (hb : b < 2 ^ 4) (hhi : 2 ^ 44 * b < hiEnd) : b &&& (2 ^ 20 - 1 - msk) = 0 := by
  rcases h with rfl | rfl
  · have hclear : ∀ b < 8, b &&& (2 ^ 20 - 1 - 7) = 0 := by decide
    exact hclear b (by omega)
  · have hclear : ∀ b < 2 ^ 4, b &&& (2 ^ 20 - 1 - 15) = 0 := by decide
    exact hclear b hb

/-- The xor constant is where the shadow of address zero starts. -/
theorem msanXor_lt (hp : p ∈ platformConfigs) (ha : (p.alignHint hint).Satisfies a) :
    a.kMSanShadowXor < a.kHiAppMemBeg := by
  have hlo : a.kLoAppMemBeg = 0#64 := by
    apply BitVec.eq_of_toNat_eq
    rcases fixed_of_satisfies hp ha with h | h <;> exact h.loBeg
  obtain ⟨-, hbeg, hend⟩ := ha.regions (.msanShadow .lo) (by decide)
  have hstart : ((p.alignHint hint).region a (.msanShadow .lo)).beg = a.kMSanShadowXor := by
    change a.kLoAppMemBeg ^^^ a.kMSanShadowXor = _
    rw [hlo, BitVec.zero_xor]
  rw [hstart] at hbeg
  exact BitVec.lt_trans hbeg hend

/-- The meta base is where the meta cells of address zero start. -/
theorem metaBeg_lt (hp : p ∈ platformConfigs) (ha : (p.alignHint hint).Satisfies a) :
    a.kTsanMetaShadowBeg < a.kHiAppMemBeg := by
  have hlo : a.kLoAppMemBeg = 0#64 := by
    apply BitVec.eq_of_toNat_eq
    rcases fixed_of_satisfies hp ha with h | h <;> exact h.loBeg
  have hrange := metaRange_minMax hp ha (k := .tsanMeta) (by decide) .lo
  obtain ⟨-, hbeg, hend⟩ := hrange
  have hstart : (((p.alignHint hint).layout a).metaRange .tsanMeta .lo).beg =
      a.kTsanMetaShadowBeg := by
    change ((p.alignHint hint).layout a).memToMeta a.kLoAppMemBeg = _
    rw [hlo, Mapping.memToMeta, BitVec.zero_and, BitVec.zero_udiv, BitVec.zero_mul,
      BitVec.zero_or]
    rfl
  rw [hstart] at hbeg
  exact BitVec.lt_trans hbeg hend

/-- Every header generated from a satisfying assignment is admissible. -/
theorem admissible_of_satisfies (hp : p ∈ platformConfigs)
    (ha : (p.alignHint hint).Satisfies a) : ((p.alignHint hint).layout a).Admissible := by
  obtain ⟨hxorAlign, hmetaAlign, hhint⟩ := @config_toNat p hint hp
  have hxor := toNat_mod_of_smod (by decide) hxorAlign ha.msan.xorAligned
  have hmeta := toNat_mod_of_smod (by decide) hmetaAlign ha.tsan.metaAligned
  have hmapped : ∀ k ≠ .asanShadow, ∀ r,
      (((p.alignHint hint).layout a).metaRange k r).beg <
        (((p.alignHint hint).layout a).metaRange k r).fin ∧
      (((p.alignHint hint).layout a).metaRange k r).fin <
        ((p.alignHint hint).layout a).memBeg .hi :=
    fun k hk r => (metaRange_minMax hp ha hk r).2
  have haboveLo : ∀ k r, ((p.alignHint hint).layout a).memEnd .lo <
      (((p.alignHint hint).layout a).metaRange k r).beg := by
    intro k r
    by_cases hk : k = .asanShadow
    · subst hk
      exact asanRange_aboveLo hp ha r
    · exact (metaRange_minMax hp ha hk r).1
  have hapart : ∀ k k', k ≠ k' → ∀ r r', (((p.alignHint hint).layout a).metaRange k r).Apart
      (((p.alignHint hint).layout a).metaRange k' r') := by
    intro k k' hne r r'
    rw [metaRange_eq hp ha, metaRange_eq hp ha]
    exact region_apart ha (regionName_mem_allRegions k r) (regionName_mem_allRegions k' r')
      (regionName_ne_app k r .lo) (regionName_ne_app k' r' .lo) (MetaFn.regionName_ne hne r r')
  have happApart : ∀ k r r', r' ≠ .lo → (((p.alignHint hint).layout a).metaRange k r).Apart
      ⟨((p.alignHint hint).layout a).memBeg r', ((p.alignHint hint).layout a).memEnd r'⟩ := by
    intro k r r' hne
    rw [metaRange_eq hp ha, ← app_eq]
    exact region_apart ha (regionName_mem_allRegions k r) (app_mem_allRegions r')
      (regionName_ne_app k r .lo) (by simpa using hne) (regionName_ne_app k r r')
  have hhiBeg : (((p.alignHint hint).layout a).memBeg .hi).toNat < 2 ^ 48 := by
    rcases fixed_of_satisfies hp ha with h | h <;> rw [h.hiBeg] <;> decide
  have hadd : ∀ v : Uptr, v < (p.alignHint hint).hiAppBegHint → v.toNat < 2 ^ 48 :=
    fun v hv => Nat.lt_trans (BitVec.lt_def.mp hv) hhint
  have hbase : ∀ v : Uptr, v < a.kHiAppMemBeg → v.toNat < 2 ^ 48 :=
    fun v hv => Nat.lt_trans (BitVec.lt_def.mp hv) hhiBeg
  rcases fixed_of_satisfies hp ha with h | h <;> exact
    { loBeg := h.loBeg
      loEnd := h.loEnd
      midLo := by have := h.midBeg; omega
      mid := by have := h.midBeg; have := h.midEnd; omega
      heapMid := BitVec.lt_def.mp ha.basic.heapMid
      heap := BitVec.lt_def.mp ha.basic.heap.2.1
      heapHi := BitVec.lt_def.mp ha.basic.heap.2.2
      hi := by have := h.hiBeg; have := h.hiEnd; omega
      hiEnd := by have := h.hiEnd; omega
      midBlock := by have := h.midBeg; have := h.midEnd; unfold Mapping.block; omega
      hiBlock := by have := h.hiBeg; have := h.hiEnd; unfold Mapping.block; omega
      midBegAligned := by have := h.midBeg; omega
      midEndAligned := by have := h.midEnd; omega
      hiBegAligned := by have := h.hiBeg; omega
      hiEndAligned := by have := h.hiEnd; omega
      loIndicator := by have := h.midBeg; omega
      midIndicator := by have := h.midEnd; have := h.hiBeg; omega
      asanScale := h.asanScale
      asanLoEnd := by have := h.asanLoEnd; have := h.asanOffset; omega
      asanLo := by have := h.asanOffset; omega
      asanRestBeg := asanRange_beg_le hp ha
      msanXor := hxor
      msanXorLt := hbase _ (msanXor_lt hp ha)
      msanAdd := hadd _ ha.msan.add
      tsanMsk := by have := h.tsanMsk; unfold Mapping.tsanMskBlock; omega
      tsanMskClears := by
        intro b hb hhi
        have hmsk := h.tsanMsk
        have hend := h.hiEnd
        unfold Mapping.tsanMskBlock
        exact mskClears (by omega) (by omega) hb hhi
      tsanXor := ha.tsan.xor
      tsanAdd := hadd _ ha.tsan.add
      metaBeg := hmeta
      metaBegLt := hbase _ (metaBeg_lt hp ha)
      mapped := hmapped
      aboveLo := haboveLo
      apart := hapart
      appApart := happApart }

end Satisfies

end Mair.Platform
