import Mair.Platform.Separation

/-! # The TSan address codecs

Shadow addresses decode to the start of their granule, and compressed addresses decode to
the address itself, because the regions stay apart after their block numbers are dropped. -/

namespace Mair.Platform

open BitBlocks

/-! ## Codec layouts -/

/-- The bounds of a region after the block number is masked away. -/
def Mapping.maskedBeg (m : Mapping) (r : Region) : Uptr := m.memBeg r &&& ~~~m.kTsanShadowMsk

def Mapping.maskedEnd (m : Mapping) (r : Region) : Uptr := m.memEnd r &&& ~~~m.kTsanShadowMsk

/-- What inversion needs of a platform header: masked regions stay apart, the masked-out
bits are the block number, and the probes find the block of each indicator value. -/
structure Mapping.CodecLayout (m : Mapping) : Prop where
  blocks : m.BlockLayout
  aligned : ∀ r, (m.memBeg r).toNat % 8 = 0
  shadowImage : ∀ r, m.kTsanShadowBeg.toNat ≤ m.imageBeg .tsanShadow r ∧
    m.imageEnd .tsanShadow r ≤ m.kTsanShadowEnd.toNat
  metaImage : ∀ r, m.kTsanMetaShadowBeg.toNat ≤ m.imageBeg .tsanMeta r ∧
    m.imageEnd .tsanMeta r ≤ m.kTsanMetaShadowEnd.toNat
  maskedBeg : ∀ r, (m.maskedBeg r).toNat = (m.memBeg r).toNat % 2 ^ 44
  maskedEnd : ∀ r, ((m.memEnd r).toNat - 1) % 2 ^ 44 < (m.maskedEnd r).toNat
  maskedApart : ∀ r r', r ≠ r' → (m.maskedEnd r').toNat ≤ (m.maskedBeg r).toNat ∨
    ((m.memEnd r).toNat - 1) % 2 ^ 44 < (m.maskedBeg r').toNat
  maskedOut : ∀ r, (m.memBeg r &&& m.kTsanShadowMsk).toNat = 2 ^ 44 * m.block r
  loBlock : m.block .lo = 0
  restore : ∀ r, ∀ j < 8, (m.memBeg r).toNat / 2 ^ 41 ≤ 8 * m.block r + j →
    8 * m.block r + j ≤ ((m.memEnd r).toNat - 1) / 2 ^ 41 →
    (m.restoreProbes.find? fun p => BitVec.ofNat 64 (2 ^ 41 * j) == p &&& indicator).map
      (fun p => p &&& ~~~(indLsb - 1)) = some (BitVec.ofNat 64 (2 ^ 41 * (8 * m.block r + j)))

theorem mappingX64_48_codecLayout : mappingX64_48.CodecLayout where
  blocks := mappingX64_48_blockLayout
  aligned := by decide +kernel
  shadowImage := by decide +kernel
  metaImage := by decide +kernel
  maskedBeg := by decide +kernel
  maskedEnd := by decide +kernel
  maskedApart := by decide +kernel
  maskedOut := by decide +kernel
  loBlock := by decide +kernel
  restore := by decide +kernel

theorem mappingAarch64_48_codecLayout : mappingAarch64_48.CodecLayout where
  blocks := mappingAarch64_48_blockLayout
  aligned := by decide +kernel
  shadowImage := by decide +kernel
  metaImage := by decide +kernel
  maskedBeg := by decide +kernel
  maskedEnd := by decide +kernel
  maskedApart := by decide +kernel
  maskedOut := by decide +kernel
  loBlock := by decide +kernel
  restore := by decide +kernel

theorem codecLayout_of_platform {m : Mapping} (hm : m ∈ platforms) : m.CodecLayout := by
  simp only [platforms, List.mem_cons, List.not_mem_nil, or_false] at hm
  rcases hm with rfl | rfl
  · exact mappingX64_48_codecLayout
  · exact mappingAarch64_48_codecLayout

section Codec

variable {m : Mapping} {r : Region} {x : Uptr}

/-! ## Ranges of the images -/

theorem isShadowMem_memToShadow (hm : m.CodecLayout) (hx : m.InRegion r x) :
    m.isShadowMem (m.memToShadow x) = true := by
  have hmem : m.memToShadow x ∈ m.cell .tsanShadow x :=
    List.mem_map.mpr ⟨0, by decide, BitVec.add_zero _⟩
  obtain ⟨hlo, hhi⟩ := mem_image_of_mem_cell hm.blocks hx hmem
  obtain ⟨hbeg, hend⟩ := hm.shadowImage r
  simp only [Mapping.isShadowMem, Bool.and_eq_true, decide_eq_true_eq]
  exact ⟨BitVec.le_def.mpr (Nat.le_trans hbeg hlo),
    BitVec.lt_def.mpr (Nat.lt_of_lt_of_le hhi hend)⟩

theorem isMetaMem_memToMeta (hm : m.CodecLayout) (hx : m.InRegion r x) :
    m.isMetaMem (m.memToMeta x) = true := by
  have hmem : m.memToMeta x ∈ m.cell .tsanMeta x :=
    List.mem_map.mpr ⟨0, by decide, BitVec.add_zero _⟩
  obtain ⟨hlo, hhi⟩ := mem_image_of_mem_cell hm.blocks hx hmem
  obtain ⟨hbeg, hend⟩ := hm.metaImage r
  simp only [Mapping.isMetaMem, Bool.and_eq_true, decide_eq_true_eq]
  exact ⟨BitVec.le_def.mpr (Nat.le_trans hbeg hlo),
    BitVec.lt_def.mpr (Nat.lt_of_lt_of_le hhi hend)⟩

/-! ## Shadow addresses -/

/-- `x` rounded down to the start of its shadow cell. -/
def cellDown (x : Uptr) : Uptr := x &&& ~~~(kShadowCell - 1)

theorem cellDown_toNat (x : Uptr) : (cellDown x).toNat = x.toNat / 8 * 8 :=
  toNat_and_not_low (k := 3) x _ (by decide) (by decide)

theorem offset_cellDown (x : Uptr) : offset (cellDown x) = offset x / 8 * 8 := by
  unfold offset
  rw [cellDown_toNat]
  omega

/-- Regions start on a cell boundary, so rounding down never leaves the region. -/
theorem Mapping.InRegion.cellDown (hm : m.CodecLayout) (hx : m.InRegion r x) :
    m.InRegion r (cellDown x) := by
  have hlo := hx.le_toNat
  have hhi := hx.toNat_lt
  have halign := hm.aligned r
  have hdown := cellDown_toNat x
  refine ⟨BitVec.le_def.mpr ?_, BitVec.lt_def.mpr ?_⟩ <;> omega

/-- Undoing the affine map leaves the masked address of the granule. -/
theorem unscaled_toNat (hm : m.CodecLayout) (hx : m.InRegion r x) :
    (((m.memToShadow x - m.kTsanShadowAdd) / kShadowMultiplier) ^^^ m.kTsanShadowXor).toNat =
      offset x / 8 * 8 := by
  have hshadow := memToShadow_toNat hm.blocks hx
  have hbase := hm.blocks.baseLt .tsanShadow r
  have hoff := offset_lt x
  have hmul : kShadowMultiplier.toNat = 2 := rfl
  simp only [Mapping.base] at hshadow hbase
  rw [hm.blocks.tsanXor, BitVec.xor_zero, BitVec.toNat_udiv, BitVec.toNat_sub, hshadow, hmul]
  omega

/-- A masked region's test accepts the masked addresses of that region only. -/
theorem masked_test_iff (hm : m.CodecLayout) (hx : m.InRegion r x) {p : Uptr}
    (hp : p.toNat = offset x / 8 * 8) (r' : Region) :
    (p ≥ m.maskedBeg r' ∧ p < m.maskedEnd r') ↔ r' = r := by
  have hbeg := offset_memBeg_le hm.blocks hx
  have hend := offset_le_memEnd hm.blocks hx
  have halign := hm.aligned r
  have hmbeg := hm.maskedBeg r
  have hmend := hm.maskedEnd r
  rw [ge_iff_le, BitVec.le_def, BitVec.lt_def, hp]
  constructor
  · rintro ⟨hlo, hhi⟩
    by_contra hne
    rcases hm.maskedApart r r' (Ne.symm hne) with h | h <;> omega
  · rintro rfl
    omega

theorem or_maskedOut (hm : m.CodecLayout) (hx : m.InRegion r x) {p : Uptr}
    (hp : p.toNat = offset x / 8 * 8) :
    p ||| (m.memBeg r &&& m.kTsanShadowMsk) = cellDown x := by
  apply BitVec.eq_of_toNat_eq
  have hlt : offset x / 8 * 8 < 2 ^ 44 := by
    have := offset_lt x
    omega
  have heq := hx.toNat_eq hm.blocks
  rw [BitVec.toNat_or, hp, hm.maskedOut, block_or hlt, cellDown_toNat]
  omega

/-- Decoding a shadow address gives the start of the granule it was encoded from. -/
theorem shadowToMem_memToShadow (hm : m.CodecLayout) (hx : m.InRegion r x) :
    m.shadowToMem (m.memToShadow x) = cellDown x := by
  have hp := unscaled_toNat hm hx
  have hmid := masked_test_iff hm hx hp .mid
  have hhi := masked_test_iff hm hx hp .hi
  have hheap := masked_test_iff hm hx hp .heap
  have hor := or_maskedOut hm hx hp
  simp only [Mapping.maskedBeg, Mapping.maskedEnd, Mapping.memBeg, Mapping.memEnd] at hmid hhi hheap
  simp only [Mapping.shadowToMem, isShadowMem_memToShadow hm hx, if_true, hmid, hhi, hheap]
  cases r with
  | lo =>
      simp only [reduceCtorEq, if_false]
      apply BitVec.eq_of_toNat_eq
      have heq := hx.toNat_eq hm.blocks
      rw [hm.loBlock] at heq
      rw [hp, cellDown_toNat]
      omega
  | mid => simpa only [if_true, Mapping.memBeg] using hor
  | hi => simpa only [reduceCtorEq, if_true, if_false, Mapping.memBeg] using hor
  | heap => simpa only [reduceCtorEq, if_true, if_false, Mapping.memBeg] using hor

theorem memToShadow_cellDown (hm : m.CodecLayout) (hx : m.InRegion r x) :
    m.memToShadow (cellDown x) = m.memToShadow x := by
  apply BitVec.eq_of_toNat_eq
  rw [memToShadow_toNat hm.blocks (hx.cellDown hm), memToShadow_toNat hm.blocks hx,
    offset_cellDown]
  omega

/-! ## Compressed addresses -/

theorem compressAddr_toNat (x : Uptr) : (compressAddr x).toNat = offset x := by
  have hmask : ((1 <<< kCompressedAddrBits : Uptr) - 1).toNat = 2 ^ 44 - 1 := by decide
  rw [compressAddr, BitVec.toNat_and, hmask, Nat.and_two_pow_sub_one_eq_mod, offset]

theorem compressAddr_and_indicator (x : Uptr) :
    compressAddr x &&& indicator = BitVec.ofNat 64 (2 ^ 41 * (offset x / 2 ^ 41)) := by
  apply BitVec.eq_of_toNat_eq
  have hind : indicator.toNat = 2 ^ 41 * 7 + 0 := rfl
  have hoff := offset_lt x
  have hsplit : offset x = 2 ^ 41 * (offset x / 2 ^ 41) + offset x % 2 ^ 41 :=
    (Nat.div_add_mod _ _).symm
  have hand : offset x / 2 ^ 41 &&& 7 = offset x / 2 ^ 41 :=
    Nat.and_two_pow_sub_one_of_lt_two_pow (n := 3) (by omega)
  conv_lhs => rw [BitVec.toNat_and, compressAddr_toNat, hsplit, hind]
  rw [block_and (Nat.mod_lt _ (Nat.two_pow_pos 41)) (Nat.two_pow_pos 41), hand, Nat.and_zero,
    BitVec.toNat_ofNat]
  omega

/-- Or-ing the block and indicator bits into a compressed address rebuilds the address. -/
theorem compressAddr_or (hm : m.BlockLayout) (hx : m.InRegion r x) :
    compressAddr x ||| BitVec.ofNat 64 (2 ^ 41 * (8 * m.block r + offset x / 2 ^ 41)) = x := by
  apply BitVec.eq_of_toNat_eq
  have heq := hx.toNat_eq hm
  have hoff := offset_lt x
  have hlt := x.isLt
  have hj : offset x / 2 ^ 41 < 2 ^ 3 := by omega
  have hsplit : offset x = 2 ^ 41 * (offset x / 2 ^ 41) + offset x % 2 ^ 41 :=
    (Nat.div_add_mod _ _).symm
  have hidem : offset x / 2 ^ 41 ||| (8 * m.block r + offset x / 2 ^ 41) =
      8 * m.block r + offset x / 2 ^ 41 := by
    rw [show (8 : ℕ) = 2 ^ 3 from rfl, ← block_or hj, ← Nat.or_assoc, Nat.or_self]
  have hconst : (BitVec.ofNat 64 (2 ^ 41 * (8 * m.block r + offset x / 2 ^ 41))).toNat =
      2 ^ 41 * (8 * m.block r + offset x / 2 ^ 41) := by
    rw [BitVec.toNat_ofNat]
    omega
  rw [BitVec.toNat_or, compressAddr_toNat, hconst]
  nth_rewrite 1 [hsplit]
  rw [block_or_block (Nat.mod_lt _ (Nat.two_pow_pos 41)), hidem]
  omega

/-- The first probe with matching indicator bits belongs to the region of `x`. -/
theorem restoreAddr_compressAddr (hm : m.CodecLayout) (hx : m.InRegion r x) :
    m.restoreAddr (compressAddr x) = some x := by
  have heq := hx.toNat_eq hm.blocks
  have hlo := hx.le_toNat
  have hhi := hx.toNat_lt
  have hoff := offset_lt x
  have hprobe := hm.restore r (offset x / 2 ^ 41) (by omega) (by omega) (by omega)
  have hmap : m.restoreAddr (compressAddr x) =
      ((m.restoreProbes.find? fun p => compressAddr x &&& indicator == p &&& indicator).map
        fun p => p &&& ~~~(indLsb - 1)).map (compressAddr x ||| ·) := by
    rw [Mapping.restoreAddr, Option.map_map]
    rfl
  rw [hmap, compressAddr_and_indicator, hprobe, Option.map_some, compressAddr_or hm.blocks hx]

end Codec

/-! ## The codecs on the shipped platforms -/

/-- On both platforms encoding lands in the shadow and meta ranges, decoding a shadow
address rounds down within the region, and compression loses nothing. -/
theorem codecs_invert :
    ∀ m ∈ platforms, ∀ x : Uptr, m.isAppMem x = true →
      m.isShadowMem (m.memToShadow x) = true ∧
      m.isMetaMem (m.memToMeta x) = true ∧
      m.shadowToMem (m.memToShadow x) = cellDown x ∧
      (∀ r, m.InRegion r x → m.InRegion r (m.shadowToMem (m.memToShadow x))) ∧
      m.restoreAddr (compressAddr x) = some x ∧
      (compressAddr x).toNat < 2 ^ kCompressedAddrBits ∧
      m.memToShadow (m.shadowToMem (m.memToShadow x)) = m.memToShadow x := by
  intro m hmem x hx
  have hm := codecLayout_of_platform hmem
  obtain ⟨r, hx⟩ := (m.isAppMem_iff x).mp hx
  have hdecode := shadowToMem_memToShadow hm hx
  refine ⟨isShadowMem_memToShadow hm hx, isMetaMem_memToMeta hm hx, hdecode, ?_,
    restoreAddr_compressAddr hm hx, ?_, ?_⟩
  · intro s hs
    rw [hdecode]
    exact hs.cellDown hm
  · rw [compressAddr_toNat]
    exact offset_lt x
  · rw [hdecode, memToShadow_cellDown hm hx]

theorem codecs_invert_stack :
    mappingX64_48.restoreAddr (compressAddr 0x7ffffffff123) = some 0x7ffffffff123 :=
  (codecs_invert mappingX64_48 List.mem_cons_self 0x7ffffffff123 (by decide)).2.2.2.2.1

end Mair.Platform
