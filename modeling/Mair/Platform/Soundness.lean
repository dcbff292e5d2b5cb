import Mair.Platform.Admissible
import Mair.Platform.Restore

/-! # Which generated headers are sound

The generator compares indicator bits of exclusive region ends and takes the two ends of a
range for the whole range. A generated header is sound exactly when the heap also passes the
comparison made on its last byte and stays inside one block. -/

namespace Mair.Platform

/-! ## Soundness of a header -/

/-- What a header owes the runtime. Low memory ends early for ASan, whose shadow of low
memory lies in the rest of the region. -/
structure Mapping.Sound (m : Mapping) : Prop where
  restore : ∀ x, m.isAppMem x = true → m.restoreAddr (compressAddr x) = some x
  disjoint : ∀ x y, m.isAppMem x = true → m.isAppMem y = true → ∀ f g : MetaFn, f ≠ g →
    (m.cell f x).Disjoint (m.cell g y)
  avoids : ∀ x, m.isAppMem x = true → ∀ f : MetaFn, ∀ b ∈ m.cell f x, m.isAppMem b = true →
    f = .asanShadow ∧ m.InRegion .lo x ∧ m.InRegion .lo b ∧ m.kAsanLoAppMemEnd ≤ b

/-- The condition on the heap that the constraints miss: it lies in one block, the indicator
bits of its last byte and of the other regions' last bytes keep the regions apart, and its
origins are apart from the rest when they are taken in whole cells. -/
structure Mapping.HeapApart (m : Mapping) : Prop where
  oneBlock : ((m.memEnd .heap).toNat - 1) / 2 ^ 44 = m.block .heap
  indicators : ∀ r ≠ .heap,
    (m.memEnd .heap - 1) &&& indicator < m.memBeg r &&& indicator ∨
      (m.memEnd r - 1) &&& indicator < m.memBeg .heap &&& indicator
  origins : ∀ k ≠ .msanOrigin, ∀ r,
    m.imageEnd .msanOrigin .heap ≤ m.imageBeg k r ∨
      m.imageEnd k r ≤ m.imageBeg .msanOrigin .heap
  originsApp : ∀ r, m.imageEnd .msanOrigin .heap ≤ (m.memBeg r).toNat ∨
    (m.memEnd r).toNat ≤ m.imageBeg .msanOrigin .heap

/-! ## Block layouts -/

section Blocks

variable {m : Mapping}

theorem Mapping.Admissible.memBeg_lt (hm : m.Admissible) (r : Region) :
    (m.memBeg r).toNat < (m.memEnd r).toNat := by
  cases r with
  | lo =>
      rw [hm.loBeg, hm.loEnd]
      exact Nat.two_pow_pos 40
  | mid => exact hm.mid
  | hi => exact hm.hi
  | heap => exact hm.heap

theorem Mapping.Admissible.memEnd_le (hm : m.Admissible) (r : Region) :
    (m.memEnd r).toNat ≤ (m.memEnd .hi).toNat := by
  have hlo := hm.loEnd
  have hmidLo := hm.midLo
  have hmid := hm.mid
  have hheapMid := hm.heapMid
  have hheap := hm.heap
  have hheapHi := hm.heapHi
  have hhi := hm.hi
  cases r <;> omega

theorem Mapping.Admissible.block_lt (hm : m.Admissible) (r : Region) : m.block r < 2 ^ 4 := by
  have hbeg := hm.memBeg_lt r
  have hend := hm.memEnd_le r
  have hhi := hm.hiEnd
  unfold Mapping.block
  omega

/-- With the heap in one block, the metadata functions of a generated header are affine. -/
theorem Mapping.Admissible.blockLayout (hm : m.Admissible)
    (hheap : ((m.memEnd .heap).toNat - 1) / 2 ^ 44 = m.block .heap) : m.BlockLayout where
  nonempty := hm.memBeg_lt
  oneBlock r := by
    cases r with
    | lo =>
        have hbeg := hm.loBeg
        have hend := hm.loEnd
        unfold Mapping.block
        omega
    | mid => exact hm.midBlock
    | hi => exact hm.hiBlock
    | heap => exact hheap
  asanScale := hm.asanScale
  msanXor := by
    have h := hm.msanXor
    unfold Mapping.msanXorBlock
    omega
  tsanMsk := hm.tsanMsk
  tsanMskClears r := by
    have hbeg := hm.memBeg_lt r
    have hend := hm.memEnd_le r
    apply hm.tsanMskClears _ (hm.block_lt r)
    unfold Mapping.block
    omega
  tsanXor := hm.tsanXor
  metaBeg := hm.metaBeg
  baseLt k r := by
    have hblock := hm.block_lt r
    have hxorBlock : m.msanXorBlock < 2 ^ 4 := by
      have h := hm.msanXorLt
      unfold Mapping.msanXorBlock
      omega
    have hxor := Nat.xor_lt_two_pow hblock hxorBlock
    have hoffset := hm.asanLo
    have hmsan := hm.msanAdd
    have htsan := hm.tsanAdd
    have hmeta := hm.metaBegLt
    cases k <;> simp only [Mapping.base] <;> omega

end Blocks

/-! ## Images inside the reserved ranges -/

section Images

variable {m : Mapping} {r : Region} {k : MetaFn}

theorem first_inRegion (hb : m.BlockLayout) (r : Region) : m.InRegion r (m.memBeg r) :=
  ⟨BitVec.le_refl _, BitVec.lt_def.mpr (hb.nonempty r)⟩

theorem last_toNat (hb : m.BlockLayout) (r : Region) :
    (m.memEnd r - 1).toNat = (m.memEnd r).toNat - 1 := by
  have hne := hb.nonempty r
  rw [BitVec.toNat_sub_of_le (BitVec.le_def.mpr (by change 1 ≤ _; omega))]
  rfl

theorem last_inRegion (hb : m.BlockLayout) (r : Region) : m.InRegion r (m.memEnd r - 1) := by
  have hne := hb.nonempty r
  have hlast := last_toNat hb r
  exact ⟨BitVec.le_def.mpr (by omega), BitVec.lt_def.mpr (by omega)⟩

theorem offset_last (hb : m.BlockLayout) (r : Region) :
    offset (m.memEnd r - 1) = ((m.memEnd r).toNat - 1) % 2 ^ 44 := by
  rw [offset, last_toNat hb]

theorem msanShadowRange_toNat (hb : m.BlockLayout) (r : Region) :
    (m.metaRange .msanShadow r).beg.toNat = m.imageBeg .msanShadow r ∧
      (m.metaRange .msanShadow r).fin.toNat = m.imageEnd .msanShadow r := by
  have hfirst := msanMemToShadow_toNat hb (first_inRegion hb r)
  have hlast := msanMemToShadow_toNat hb (last_inRegion hb r)
  rw [offset_last hb] at hlast
  have hbase := hb.baseLt .msanShadow r
  have hoff := Nat.mod_lt ((m.memEnd r).toNat - 1) (Nat.two_pow_pos 44)
  have hone : (1 : Uptr).toNat = 1 := rfl
  simp only [Mapping.metaRange, Mapping.msanShadowRange, Mapping.imageBeg, Mapping.imageEnd,
    MetaFn.granule, MetaFn.cellSize, BitVec.toNat_add, hfirst, hlast, hone]
  unfold offset
  omega

/-- The generator reserves origins bytewise, so the image is the whole range only up to the
origin cells of the first and the last byte. -/
theorem msanOriginRange_toNat (hb : m.BlockLayout) (r : Region) :
    (m.metaRange .msanOrigin r).beg.toNat =
        m.base .msanOrigin r + (m.memBeg r).toNat % 2 ^ 44 ∧
      (m.metaRange .msanOrigin r).fin.toNat =
        m.base .msanOrigin r + ((m.memEnd r).toNat - 1) % 2 ^ 44 + 1 := by
  have hfirst := msanMemToOrigin_toNat hb (first_inRegion hb r)
  have hlast := msanMemToOrigin_toNat hb (last_inRegion hb r)
  rw [offset_last hb] at hlast
  have hbase := hb.baseLt .msanOrigin r
  have hoff := Nat.mod_lt ((m.memEnd r).toNat - 1) (Nat.two_pow_pos 44)
  have hone : (1 : Uptr).toNat = 1 := rfl
  simp only [Mapping.metaRange, Mapping.msanOriginRange, BitVec.toNat_add, hfirst, hlast, hone]
  unfold offset
  omega

theorem tsanShadowRange_toNat (hb : m.BlockLayout) (r : Region) :
    (m.metaRange .tsanShadow r).beg.toNat = m.imageBeg .tsanShadow r ∧
      (m.metaRange .tsanShadow r).fin.toNat = m.imageEnd .tsanShadow r := by
  have hfirst := memToShadow_toNat hb (first_inRegion hb r)
  have hlast := memToShadow_toNat hb (last_inRegion hb r)
  rw [offset_last hb] at hlast
  have hbase := hb.baseLt .tsanShadow r
  have hoff := Nat.mod_lt ((m.memEnd r).toNat - 1) (Nat.two_pow_pos 44)
  have hsize : (BitVec.ofNat 64 (4 * 4)).toNat = 16 := rfl
  simp only [Mapping.metaRange, Mapping.app2Shadow, Mapping.imageBeg, Mapping.imageEnd,
    MetaFn.granule, MetaFn.cellSize, kShadowCnt, kShadowSize, BitVec.toNat_add, hsize, hfirst, hlast]
  unfold offset
  omega

theorem tsanMetaRange_toNat (hb : m.BlockLayout) (r : Region) :
    (m.metaRange .tsanMeta r).beg.toNat = m.imageBeg .tsanMeta r ∧
      (m.metaRange .tsanMeta r).fin.toNat = m.imageEnd .tsanMeta r := by
  have hfirst := memToMeta_toNat hb (first_inRegion hb r)
  have hlast := memToMeta_toNat hb (last_inRegion hb r)
  rw [offset_last hb] at hlast
  have hbase := hb.baseLt .tsanMeta r
  have hoff := Nat.mod_lt ((m.memEnd r).toNat - 1) (Nat.two_pow_pos 44)
  have hsize : kMetaShadowSize.toNat = 4 := rfl
  simp only [Mapping.metaRange, Mapping.app2Meta, Mapping.imageBeg, Mapping.imageEnd,
    MetaFn.granule, MetaFn.cellSize, BitVec.toNat_add, hfirst, hlast, hsize]
  unfold offset
  omega

theorem asanImage_bounds (hm : m.Admissible) (hr : r ≠ .lo) :
    (m.metaRange .asanShadow r).beg.toNat ≤ m.imageBeg .asanShadow r ∧
      m.imageEnd .asanShadow r ≤ (m.metaRange .asanShadow r).fin.toNat := by
  have hrest := hm.asanRestBeg
  have hoff := hm.asanLo
  have hmidLo := hm.midLo
  have hmid := hm.mid
  have hheapMid := hm.heapMid
  have hheap := hm.heap
  have hheapHi := hm.heapHi
  have hhi := hm.hi
  have hhiEnd := hm.hiEnd
  have haligned := hm.hiEndAligned
  have hfin : (m.metaRange .asanShadow r).fin.toNat =
      (m.memEnd .hi).toNat / 8 + m.kAsanShadowOffset.toNat := by
    simp only [Mapping.metaRange, Mapping.asanMemToShadow, hm.asanScale, BitVec.toNat_add,
      BitVec.toNat_ushiftRight, Nat.shiftRight_eq_div_pow]
    change ((m.memEnd .hi).toNat / 2 ^ 3 + _) % _ = _
    omega
  rw [hfin]
  change (m.metaRange .asanShadow .mid).beg.toNat ≤ _ ∧ _
  cases r with
  | lo => exact absurd rfl hr
  | _ =>
      simp only [Mapping.imageBeg, Mapping.imageEnd, Mapping.base, Mapping.block, MetaFn.granule,
        MetaFn.cellSize]
      omega

/-- Only the origins of the heap may leave the range reserved for them. -/
theorem image_bounds (hm : m.Admissible) (hb : m.BlockLayout)
    (hlo : ¬(k = .asanShadow ∧ r = .lo)) (horigin : ¬(k = .msanOrigin ∧ r = .heap)) :
    (m.metaRange k r).beg.toNat ≤ m.imageBeg k r ∧
      m.imageEnd k r ≤ (m.metaRange k r).fin.toNat := by
  cases k with
  | asanShadow => exact asanImage_bounds hm (fun h => hlo ⟨rfl, h⟩)
  | msanShadow =>
      obtain ⟨hbeg, hfin⟩ := msanShadowRange_toNat hb r
      omega
  | tsanShadow =>
      obtain ⟨hbeg, hfin⟩ := tsanShadowRange_toNat hb r
      omega
  | tsanMeta =>
      obtain ⟨hbeg, hfin⟩ := tsanMetaRange_toNat hb r
      omega
  | msanOrigin =>
      obtain ⟨hbeg, hfin⟩ := msanOriginRange_toNat hb r
      rw [hbeg, hfin]
      have hpos := hb.nonempty r
      have haligned : (m.memBeg r).toNat % 4 = 0 ∧ (m.memEnd r).toNat % 4 = 0 := by
        have hloBeg := hm.loBeg
        have hloEnd := hm.loEnd
        have hmidBeg := hm.midBegAligned
        have hmidEnd := hm.midEndAligned
        have hhiBeg := hm.hiBegAligned
        have hhiEnd := hm.hiEndAligned
        cases r with
        | heap => exact absurd ⟨rfl, rfl⟩ horigin
        | _ => omega
      simp only [Mapping.imageBeg, Mapping.imageEnd, MetaFn.granule, MetaFn.cellSize]
      omega

/-! ## Separation of the images -/

theorem asanLoImage_bounds (hm : m.Admissible) :
    m.kAsanShadowOffset.toNat ≤ m.imageBeg .asanShadow .lo ∧
      m.imageEnd .asanShadow .lo ≤ 2 ^ 40 := by
  have hbeg := hm.loBeg
  have hend := hm.loEnd
  have hoff := hm.asanLo
  simp only [Mapping.imageBeg, Mapping.imageEnd, Mapping.base, Mapping.block, MetaFn.granule,
    MetaFn.cellSize]
  omega

theorem image_aboveLo (hm : m.Admissible) (hb : m.BlockLayout)
    (hlo : ¬(k = .asanShadow ∧ r = .lo)) (horigin : ¬(k = .msanOrigin ∧ r = .heap)) :
    2 ^ 40 ≤ m.imageBeg k r := by
  have habove := BitVec.lt_def.mp (hm.aboveLo k r)
  have hbounds := image_bounds hm hb hlo horigin
  rw [hm.loEnd] at habove
  omega

/-- Images of different functions are apart. -/
theorem images_apart (hm : m.Admissible) (hb : m.BlockLayout) (hheap : m.HeapApart)
    {k k' : MetaFn} (hne : k ≠ k') (r r' : Region) :
    m.imageEnd k r ≤ m.imageBeg k' r' ∨ m.imageEnd k' r' ≤ m.imageBeg k r := by
  by_cases horigin : k = .msanOrigin ∧ r = .heap
  · obtain ⟨rfl, rfl⟩ := horigin
    exact hheap.origins k' (Ne.symm hne) r'
  by_cases horigin' : k' = .msanOrigin ∧ r' = .heap
  · obtain ⟨rfl, rfl⟩ := horigin'
    exact Or.symm (hheap.origins k hne r)
  by_cases hlo : k = .asanShadow ∧ r = .lo
  · obtain ⟨rfl, rfl⟩ := hlo
    have hlo' := image_aboveLo hm hb (fun h => hne h.1.symm) horigin'
    have hbound := (asanLoImage_bounds hm).2
    left
    omega
  by_cases hlo' : k' = .asanShadow ∧ r' = .lo
  · obtain ⟨rfl, rfl⟩ := hlo'
    have hlo := image_aboveLo hm hb hlo horigin
    have hbound := (asanLoImage_bounds hm).2
    right
    omega
  have hbounds := image_bounds hm hb hlo horigin
  have hbounds' := image_bounds hm hb hlo' horigin'
  rcases hm.apart k k' hne r r' with h | h
  · left
    have h := BitVec.le_def.mp h
    omega
  · right
    have h := BitVec.le_def.mp h
    omega

/-- Images are apart from application memory, ASan's shadow of low memory excepted. -/
theorem image_apart_region (hm : m.Admissible) (hb : m.BlockLayout) (hheap : m.HeapApart)
    {r' : Region} (hlo : ¬(k = .asanShadow ∧ r = .lo ∧ r' = .lo)) :
    m.imageEnd k r ≤ (m.memBeg r').toNat ∨ (m.memEnd r').toNat ≤ m.imageBeg k r := by
  by_cases horigin : k = .msanOrigin ∧ r = .heap
  · obtain ⟨rfl, rfl⟩ := horigin
    exact hheap.originsApp r'
  by_cases hasan : k = .asanShadow ∧ r = .lo
  · obtain ⟨rfl, rfl⟩ := hasan
    have hbound := (asanLoImage_bounds hm).2
    have hmidLo := hm.midLo
    have hmid := hm.mid
    have hheapMid := hm.heapMid
    have hheap := hm.heap
    have hheapHi := hm.heapHi
    left
    cases r' with
    | lo => exact absurd ⟨rfl, rfl, rfl⟩ hlo
    | _ => omega
  by_cases hr' : r' = .lo
  · subst hr'
    right
    rw [hm.loEnd]
    exact image_aboveLo hm hb hasan horigin
  have hbounds := image_bounds hm hb hasan horigin
  rcases hm.appApart k r r' hr' with h | h
  · left
    have h : (m.metaRange k r).fin.toNat ≤ (m.memBeg r').toNat := BitVec.le_def.mp h
    omega
  · right
    have h : (m.memEnd r').toNat ≤ (m.metaRange k r).beg.toNat := BitVec.le_def.mp h
    omega

end Images

/-! ## Indicator bits -/

section Indicators

variable {m : Mapping} {r r' : Region} {x y : Uptr}

theorem Mapping.Admissible.boundedRegions (hm : m.Admissible) : m.BoundedRegions := by
  intro r
  have hend := hm.memEnd_le r
  have hhi := hm.hiEnd
  omega

theorem stretch_of_inRegion (hb : m.BlockLayout) (hx : m.InRegion r x) :
    stretch (m.memBeg r) % 8 ≤ stretch x % 8 ∧ stretch x % 8 ≤ stretch (m.memEnd r - 1) % 8 ∧
      stretch x / 8 = m.block r := by
  have hlo := hx.le_toNat
  have hhi := hx.toNat_lt
  have hlast := last_toNat hb r
  have hblock := hb.oneBlock r
  unfold Mapping.block at hblock ⊢
  unfold stretch
  omega

theorem exists_inRegion_stretch (hb : m.BlockLayout) {t : ℕ}
    (hlo : stretch (m.memBeg r) % 8 ≤ t) (hhi : t ≤ stretch (m.memEnd r - 1) % 8) :
    ∃ x, m.InRegion r x ∧ stretch x % 8 = t := by
  have hlast := last_toNat hb r
  have hblock := hb.oneBlock r
  have hne := hb.nonempty r
  have hend := (m.memEnd r).isLt
  unfold Mapping.block at hblock
  unfold stretch at hlo hhi ⊢
  obtain ⟨a, ha⟩ : ∃ a, a = max (m.memBeg r).toNat
      (2 ^ 44 * ((m.memBeg r).toNat / 2 ^ 44) + 2 ^ 41 * t) := ⟨_, rfl⟩
  have hx : (BitVec.ofNat 64 a).toNat = a := by
    rw [BitVec.toNat_ofNat]
    omega
  refine ⟨BitVec.ofNat 64 a, ⟨BitVec.le_def.mpr ?_, BitVec.lt_def.mpr ?_⟩, ?_⟩ <;>
    rw [hx] <;> omega

theorem indicator_lt_iff (x y : Uptr) :
    x &&& indicator < y &&& indicator ↔ stretch x % 8 < stretch y % 8 := by
  rw [BitVec.lt_def, indicator_and_toNat, indicator_and_toNat]
  omega

/-- No indicator bits are shared between regions. -/
theorem stretch_ne (hm : m.Admissible) (hb : m.BlockLayout) (hheap : m.HeapApart)
    (hne : r ≠ r') (hx : m.InRegion r x) (hy : m.InRegion r' y) :
    stretch y % 8 ≠ stretch x % 8 := by
  obtain ⟨hxlo, hxhi, -⟩ := stretch_of_inRegion hb hx
  obtain ⟨hylo, hyhi, -⟩ := stretch_of_inRegion hb hy
  have hapart : ∀ r ≠ .heap, stretch (m.memEnd .heap - 1) % 8 < stretch (m.memBeg r) % 8 ∨
      stretch (m.memEnd r - 1) % 8 < stretch (m.memBeg .heap) % 8 := by
    intro r hr
    have h := hheap.indicators r hr
    rwa [indicator_lt_iff, indicator_lt_iff] at h
  have hlo : stretch (m.memEnd .lo - 1) % 8 = 0 := by
    rw [stretch, last_toNat hb, hm.loEnd]
    decide
  have hlomid : 0 < stretch (m.memBeg .mid) % 8 := hm.loIndicator
  have hmidhi : stretch (m.memEnd .mid - 1) % 8 < stretch (m.memBeg .hi) % 8 := by
    rw [stretch, last_toNat hb]
    exact hm.midIndicator
  have hmid := stretch_of_inRegion hb (first_inRegion hb .mid)
  have hheapLo := hapart .lo (by decide)
  have hheapMid := hapart .mid (by decide)
  have hheapHi := hapart .hi (by decide)
  cases r <;> cases r' <;> first | exact absurd rfl hne | omega

/-- The heap shares no stretch with another region. -/
theorem heap_stretch_ne (hm : m.Admissible) (hr : r ≠ .heap) (hx : m.InRegion .heap x)
    (hy : m.InRegion r y) : stretch y ≠ stretch x := by
  have hxlo := hx.le_toNat
  have hxhi := hx.toNat_lt
  have hylo := hy.le_toNat
  have hyhi := hy.toNat_lt
  have hloEnd := hm.loEnd
  have hmidLo := hm.midLo
  have hmid := hm.mid
  have hheapMid := hm.heapMid
  have hheapHi := hm.heapHi
  have hmidAligned := hm.midEndAligned
  have hhiAligned := hm.hiBegAligned
  unfold stretch
  cases r with
  | heap => exact absurd rfl hr
  | _ => omega

/-- A sound header shares no indicator bits between the heap and another region. -/
theorem Mapping.Sound.stretch_ne (hm : m.Admissible) (hs : m.Sound) (hr : r ≠ .heap)
    (hx : m.InRegion .heap x) (hy : m.InRegion r y) : stretch y % 8 ≠ stretch x % 8 := by
  intro hshared
  have hrestored := hs.restore x ((m.isAppMem_iff x).mpr ⟨.heap, hx⟩)
  obtain ⟨r', q, hr', hq, hqx⟩ :=
    exists_stretch_of_shared hm.boundedRegions hr hy hshared hrestored
  exact heap_stretch_ne hm hr' hx hq hqx

end Indicators

/-! ## Both directions -/

section Soundness

variable {m : Mapping}

theorem sound_of_heapApart (hm : m.Admissible) (hheap : m.HeapApart) : m.Sound := by
  have hb := hm.blockLayout hheap.oneBlock
  refine ⟨?_, ?_, ?_⟩
  · intro x hx
    obtain ⟨r, hx⟩ := (m.isAppMem_iff x).mp hx
    apply restoreAddr_of_unshared hm.boundedRegions hx
    · intro p hp
      rw [(stretch_of_inRegion hb hp).2.2, (stretch_of_inRegion hb hx).2.2]
    · intro r' p hne hp
      exact stretch_ne hm hb hheap (Ne.symm hne) hx hp
  · intro x y hx hy f g hne
    obtain ⟨r, hx⟩ := (m.isAppMem_iff x).mp hx
    obtain ⟨r', hy⟩ := (m.isAppMem_iff y).mp hy
    exact cell_disjoint_of_images hb hx hy (images_apart hm hb hheap hne r r')
  · intro x hx f b hbx happ
    obtain ⟨r, hx⟩ := (m.isAppMem_iff x).mp hx
    obtain ⟨r', happ⟩ := (m.isAppMem_iff b).mp happ
    have himage := mem_image_of_mem_cell hb hx hbx
    have hlo := happ.le_toNat
    have hhi := happ.toNat_lt
    by_cases hexcept : f = .asanShadow ∧ r = .lo ∧ r' = .lo
    · obtain ⟨rfl, rfl, rfl⟩ := hexcept
      have hbeg := (asanLoImage_bounds hm).1
      have hend := hm.asanLoEnd
      exact ⟨rfl, hx, happ, BitVec.le_def.mpr (by omega)⟩
    · rcases image_apart_region hm hb hheap hexcept with h | h <;> omega

theorem oneBlock_of_sound (hm : m.Admissible) (hs : m.Sound) :
    ((m.memEnd .heap).toNat - 1) / 2 ^ 44 = m.block .heap := by
  by_contra hne
  have hheap := hm.heap
  have hend := (m.memEnd .heap).isLt
  unfold Mapping.block at hne
  obtain ⟨a, ha⟩ : ∃ a, a = 2 ^ 44 * (((m.memEnd .heap).toNat - 1) / 2 ^ 44) := ⟨_, rfl⟩
  have hx : (BitVec.ofNat 64 a).toNat = a := by
    rw [BitVec.toNat_ofNat]
    omega
  have hregion : m.InRegion .heap (BitVec.ofNat 64 a) :=
    ⟨BitVec.le_def.mpr (by omega), BitVec.lt_def.mpr (by omega)⟩
  have hlo : m.InRegion .lo (m.memBeg .lo) :=
    ⟨BitVec.le_refl _, BitVec.lt_def.mpr (hm.memBeg_lt .lo)⟩
  apply hs.stretch_ne hm (by decide) hregion hlo
  rw [stretch, stretch, hx, hm.loBeg]
  omega

/-- Overlapping images have a metadata byte in common. -/
theorem exists_common_byte {a a' e e' : ℕ} (hlt : a < e) (hlt' : a' < e') (hword : e ≤ 2 ^ 64)
    (h : ¬(e ≤ a' ∨ e' ≤ a)) :
    ∃ b : Uptr, (a ≤ b.toNat ∧ b.toNat < e) ∧ a' ≤ b.toNat ∧ b.toNat < e' := by
  refine ⟨BitVec.ofNat 64 (max a a'), ?_⟩
  have hx : (BitVec.ofNat 64 (max a a')).toNat = max a a' := by
    rw [BitVec.toNat_ofNat]
    omega
  rw [hx]
  omega

theorem image_nonempty (hb : m.BlockLayout) (k : MetaFn) (r : Region) :
    m.imageBeg k r < m.imageEnd k r ∧ m.imageEnd k r ≤ 2 ^ 64 := by
  have hne := hb.nonempty r
  have hblock := hb.oneBlock r
  have hbase := hb.baseLt k r
  unfold Mapping.block at hblock
  simp only [Mapping.imageBeg, Mapping.imageEnd]
  cases k <;> simp only [MetaFn.granule, MetaFn.cellSize, kShadowCnt, kShadowSize] <;> omega

theorem heapApart_of_sound (hm : m.Admissible) (hs : m.Sound) : m.HeapApart := by
  have hblock := oneBlock_of_sound hm hs
  have hb := hm.blockLayout hblock
  have hnonempty := image_nonempty hb .msanOrigin .heap
  refine ⟨hblock, ?_, ?_, ?_⟩
  · intro r hr
    rw [indicator_lt_iff, indicator_lt_iff]
    by_contra hover
    have hfirst := stretch_of_inRegion hb (first_inRegion hb r)
    have hfirst' := stretch_of_inRegion hb (first_inRegion hb .heap)
    obtain ⟨x, hx, hxt⟩ := exists_inRegion_stretch hb (r := .heap)
      (t := max (stretch (m.memBeg r) % 8) (stretch (m.memBeg .heap) % 8))
      (by omega) (by omega)
    obtain ⟨y, hy, hyt⟩ := exists_inRegion_stretch hb (r := r)
      (t := max (stretch (m.memBeg r) % 8) (stretch (m.memBeg .heap) % 8))
      (by omega) (by omega)
    exact hs.stretch_ne hm hr hx hy (by omega)
  · intro k hk r
    by_contra hover
    obtain ⟨b, ⟨hlo, hhi⟩, hlo', hhi'⟩ :=
      exists_common_byte hnonempty.1 (image_nonempty hb k r).1 hnonempty.2 hover
    obtain ⟨x, hx, hbx⟩ := exists_cell_of_mem_image hb hlo hhi
    obtain ⟨y, hy, hby⟩ := exists_cell_of_mem_image hb hlo' hhi'
    exact hs.disjoint x y ((m.isAppMem_iff x).mpr ⟨_, hx⟩) ((m.isAppMem_iff y).mpr ⟨_, hy⟩)
      .msanOrigin k (Ne.symm hk) hbx hby
  · intro r
    by_contra hover
    obtain ⟨b, ⟨hlo, hhi⟩, hlo', hhi'⟩ :=
      exists_common_byte hnonempty.1 (hb.nonempty r) hnonempty.2 hover
    obtain ⟨x, hx, hbx⟩ := exists_cell_of_mem_image hb hlo hhi
    have happ : m.InRegion r b := ⟨BitVec.le_def.mpr hlo', BitVec.lt_def.mpr hhi'⟩
    have hexcept := hs.avoids x ((m.isAppMem_iff x).mpr ⟨_, hx⟩) .msanOrigin b hbx
      ((m.isAppMem_iff b).mpr ⟨_, happ⟩)
    cases hexcept.1

/-- A header generated from a satisfying assignment is sound exactly when its heap is apart
from the other regions on its last byte too. -/
theorem generated_sound_iff {p : PlatformConfig} {hint : Option Uptr} {a : Assignment}
    (hp : p ∈ platformConfigs) (ha : (p.alignHint hint).Satisfies a) :
    ((p.alignHint hint).layout a).Sound ↔ ((p.alignHint hint).layout a).HeapApart :=
  ⟨heapApart_of_sound (admissible_of_satisfies hp ha),
    sound_of_heapApart (admissible_of_satisfies hp ha)⟩

end Soundness

/-! ## A header that is not sound -/

/-- The assignment of the shipped x86-64 header. -/
def shippedX64_48 : Assignment where
  kLoAppMemBeg := 0x000000000000
  kLoAppMemEnd := 0x010000000000
  kMidAppMemBeg := 0x550000000000
  kMidAppMemEnd := 0x5a0000000000
  kHiAppMemBeg := 0x7a0000000000
  kHiAppMemEnd := 0x800000000000
  kHeapMemBeg := 0x620000000000
  kHeapMemEnd := 0x640000000000
  kMSanShadowXor := 0x400000000000
  kMSanShadowAdd := 0x2f0000000000
  kTsanShadowXor := 0x000000000000
  kTsanShadowAdd := 0x1a0000000000
  kTsanMetaShadowBeg := 0x700000000000

theorem generated_sound_iff_shipped :
    (configX64_48.layout shippedX64_48).Sound ↔ (configX64_48.layout shippedX64_48).HeapApart :=
  @generated_sound_iff configX64_48 none shippedX64_48 List.mem_cons_self (by decide +kernel)

/-- A heap one terabyte lower: its first half has the indicator bits of low memory. -/
def loweredHeap : Assignment :=
  { shippedX64_48 with
    kHeapMemBeg := 0x610000000000
    kHeapMemEnd := 0x630000000000
    kMSanShadowAdd := 0x2c0000000000 }

theorem loweredHeap_unsound :
    configX64_48.Satisfies loweredHeap ∧
      (configX64_48.layout loweredHeap).isAppMem 0x610000000000 = true ∧
      (configX64_48.layout loweredHeap).restoreAddr (compressAddr 0x610000000000) =
        some 0x010000000000 ∧
      ¬(configX64_48.layout loweredHeap).Sound := by
  have hrestored : (configX64_48.layout loweredHeap).restoreAddr (compressAddr 0x610000000000) =
      some 0x010000000000 := by decide +kernel
  have happ : (configX64_48.layout loweredHeap).isAppMem 0x610000000000 = true := by
    decide +kernel
  refine ⟨by decide +kernel, happ, hrestored, ?_⟩
  intro hs
  have h := hs.restore 0x610000000000 happ
  rw [hrestored] at h
  revert h
  decide

/-- The shipped header is the layout of its assignment. -/
example : configX64_48.layout shippedX64_48 = mappingX64_48 := rfl

end Mair.Platform
