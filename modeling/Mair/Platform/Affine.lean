import Mair.Library.BitBlocks
import Mair.Platform.Mapping

/-! # Every metadata function is affine on every application region

Each application region lies inside one 16 TiB block, and every xor constant and mask acts
on whole blocks. On a region, each metadata address is therefore a base plus the granule
number within the block times the cell size. -/

namespace Mair.Platform

open BitBlocks

/-! ## Metadata cells -/

/-- The five metadata functions of the composed tools. -/
inductive MetaFn where
  | asanShadow | msanShadow | msanOrigin | tsanShadow | tsanMeta
  deriving DecidableEq

instance : Fintype MetaFn where
  elems := {.asanShadow, .msanShadow, .msanOrigin, .tsanShadow, .tsanMeta}
  complete k := by cases k <;> decide

/-- Application bytes that share one metadata cell. -/
def MetaFn.granule : MetaFn → ℕ
  | .asanShadow => 8
  | .msanShadow => 1
  | .msanOrigin => 4
  | .tsanShadow => 8
  | .tsanMeta => 8

/-- Bytes in one metadata cell; a TSan shadow cell holds `kShadowCnt` shadow values. -/
def MetaFn.cellSize : MetaFn → ℕ
  | .asanShadow => 1
  | .msanShadow => 1
  | .msanOrigin => 4
  | .tsanShadow => kShadowCnt * kShadowSize
  | .tsanMeta => 4

/-- The first byte of the cell of `x`. Origins are read and written at the address of
the enclosing four-byte granule. -/
def Mapping.cellBeg (m : Mapping) : MetaFn → Uptr → Uptr
  | .asanShadow, x => m.asanMemToShadow x
  | .msanShadow, x => m.msanMemToShadow x
  | .msanOrigin, x => m.msanMemToOrigin (x &&& ~~~3)
  | .tsanShadow, x => m.memToShadow x
  | .tsanMeta, x => m.memToMeta x

def Mapping.cell (m : Mapping) (k : MetaFn) (x : Uptr) : List Uptr :=
  (List.range k.cellSize).map fun i => m.cellBeg k x + BitVec.ofNat 64 i

/-! ## Block layouts -/

/-- The number of the 16 TiB block that holds a region. -/
def Mapping.block (m : Mapping) (r : Region) : ℕ := (m.memBeg r).toNat / 2 ^ 44

def Mapping.msanXorBlock (m : Mapping) : ℕ := m.kMSanShadowXor.toNat / 2 ^ 44

def Mapping.tsanMskBlock (m : Mapping) : ℕ := m.kTsanShadowMsk.toNat / 2 ^ 44

/-- The offset of an address inside its block. -/
def offset (x : Uptr) : ℕ := x.toNat % 2 ^ 44

theorem offset_lt (x : Uptr) : offset x < 2 ^ 44 := Nat.mod_lt _ (Nat.two_pow_pos 44)

def Mapping.base (m : Mapping) : MetaFn → Region → ℕ
  | .asanShadow, r => 2 ^ 41 * m.block r + m.kAsanShadowOffset.toNat
  | .msanShadow, r => 2 ^ 44 * (m.block r ^^^ m.msanXorBlock)
  | .msanOrigin, r => 2 ^ 44 * (m.block r ^^^ m.msanXorBlock) + m.kMSanShadowAdd.toNat
  | .tsanShadow, _ => m.kTsanShadowAdd.toNat
  | .tsanMeta, _ => m.kTsanMetaShadowBeg.toNat

/-- What the affine description needs of a platform header. -/
structure Mapping.BlockLayout (m : Mapping) : Prop where
  nonempty : ∀ r, (m.memBeg r).toNat < (m.memEnd r).toNat
  oneBlock : ∀ r, ((m.memEnd r).toNat - 1) / 2 ^ 44 = m.block r
  asanScale : m.kAsanShadowScale = 3
  msanXor : m.kMSanShadowXor.toNat = 2 ^ 44 * m.msanXorBlock
  tsanMsk : m.kTsanShadowMsk.toNat = 2 ^ 44 * m.tsanMskBlock
  tsanMskClears : ∀ r, m.block r &&& (2 ^ 20 - 1 - m.tsanMskBlock) = 0
  tsanXor : m.kTsanShadowXor = 0#64
  metaBeg : m.kTsanMetaShadowBeg.toNat % 2 ^ 44 = 0
  baseLt : ∀ k r, m.base k r < 2 ^ 50

theorem mappingX64_48_blockLayout : mappingX64_48.BlockLayout where
  nonempty r := by cases r <;> decide
  oneBlock r := by cases r <;> decide
  asanScale := rfl
  msanXor := by decide
  tsanMsk := by decide
  tsanMskClears r := by cases r <;> decide
  tsanXor := rfl
  metaBeg := by decide
  baseLt k r := by cases k <;> cases r <;> decide

theorem mappingAarch64_48_blockLayout : mappingAarch64_48.BlockLayout where
  nonempty r := by cases r <;> decide
  oneBlock r := by cases r <;> decide
  asanScale := rfl
  msanXor := by decide
  tsanMsk := by decide
  tsanMskClears r := by cases r <;> decide
  tsanXor := rfl
  metaBeg := by decide
  baseLt k r := by cases k <;> cases r <;> decide

theorem blockLayout_of_platform {m : Mapping} (hm : m ∈ platforms) : m.BlockLayout := by
  simp only [platforms, List.mem_cons, List.not_mem_nil, or_false] at hm
  rcases hm with rfl | rfl
  · exact mappingX64_48_blockLayout
  · exact mappingAarch64_48_blockLayout

/-! ## The affine form -/

section Affine

variable {m : Mapping} {r : Region} {x : Uptr}

theorem Mapping.InRegion.le_toNat (hx : m.InRegion r x) : (m.memBeg r).toNat ≤ x.toNat :=
  BitVec.le_def.mp hx.1

theorem Mapping.InRegion.toNat_lt (hx : m.InRegion r x) : x.toNat < (m.memEnd r).toNat :=
  BitVec.lt_def.mp hx.2

theorem Mapping.InRegion.toNat_eq (hx : m.InRegion r x) (hm : m.BlockLayout) :
    x.toNat = 2 ^ 44 * m.block r + offset x := by
  have hlo := hx.le_toNat
  have hhi : x.toNat ≤ (m.memEnd r).toNat - 1 := Nat.le_sub_one_of_lt hx.toNat_lt
  have hdiv : x.toNat / 2 ^ 44 = m.block r := by
    apply Nat.le_antisymm
    · rw [← hm.oneBlock r]
      exact Nat.div_le_div_right hhi
    · exact Nat.div_le_div_right hlo
  exact eq_block_of_div_mod hdiv rfl

/-- The block mask of the TSan codecs removes the whole block number, and the cell mask
rounds the offset down to its granule. -/
theorem tsanMasked_toNat (hm : m.BlockLayout) (hx : m.InRegion r x) :
    (x &&& ~~~(m.kTsanShadowMsk ||| (kShadowCell - 1))).toNat = offset x / 8 * 8 := by
  have hmask : (x &&& ~~~m.kTsanShadowMsk).toNat = offset x := by
    rw [toNat_and_not_block (k := 20) (hx.toNat_eq hm) (offset_lt x) hm.tsanMsk,
      hm.tsanMskClears r, Nat.mul_zero, Nat.zero_add]
  rw [BitVec.not_or, ← BitVec.and_assoc,
    toNat_and_not_low (k := 3) _ _ (by decide) (by decide), hmask]
  rfl

theorem asanMemToShadow_toNat (hm : m.BlockLayout) (hx : m.InRegion r x) :
    (m.asanMemToShadow x).toNat = m.base .asanShadow r + offset x / 8 := by
  have hbase := hm.baseLt .asanShadow r
  have heq := hx.toNat_eq hm
  have hoff := offset_lt x
  simp only [Mapping.base] at hbase ⊢
  simp only [Mapping.asanMemToShadow, hm.asanScale, BitVec.toNat_add, BitVec.toNat_ushiftRight,
    Nat.shiftRight_eq_div_pow]
  omega

theorem msanMemToShadow_toNat (hm : m.BlockLayout) (hx : m.InRegion r x) :
    (m.msanMemToShadow x).toNat = m.base .msanShadow r + offset x :=
  toNat_xor_block (hx.toNat_eq hm) (offset_lt x) hm.msanXor

theorem msanMemToOrigin_toNat (hm : m.BlockLayout) (hx : m.InRegion r x) :
    (m.msanMemToOrigin x).toNat = m.base .msanOrigin r + offset x := by
  have hbase := hm.baseLt .msanOrigin r
  have hshadow := msanMemToShadow_toNat hm hx
  have hoff := offset_lt x
  simp only [Mapping.base] at hbase hshadow ⊢
  rw [Mapping.msanMemToOrigin, Mapping.msanShadowToOrigin, BitVec.toNat_add, hshadow]
  omega

theorem memToShadow_toNat (hm : m.BlockLayout) (hx : m.InRegion r x) :
    (m.memToShadow x).toNat = m.base .tsanShadow r + offset x / 8 * 16 := by
  have hbase := hm.baseLt .tsanShadow r
  have hoff := offset_lt x
  simp only [Mapping.base] at hbase ⊢
  have hmul : kShadowMultiplier.toNat = 2 := rfl
  rw [Mapping.memToShadow, hm.tsanXor, BitVec.xor_zero, BitVec.toNat_add, BitVec.toNat_mul,
    tsanMasked_toNat hm hx, hmul]
  omega

theorem memToMeta_toNat (hm : m.BlockLayout) (hx : m.InRegion r x) :
    (m.memToMeta x).toNat = m.base .tsanMeta r + offset x / 8 * 4 := by
  have hoff := offset_lt x
  have hcell : kMetaShadowCell.toNat = 8 := rfl
  have hsize : kMetaShadowSize.toNat = 4 := rfl
  have hscaled : offset x / 8 * 8 / 8 * 4 % 2 ^ 64 = offset x / 8 * 4 := by omega
  have hmeta : m.kTsanMetaShadowBeg.toNat =
      2 ^ 44 * (m.kTsanMetaShadowBeg.toNat / 2 ^ 44) := by
    have h := Nat.div_add_mod m.kTsanMetaShadowBeg.toNat (2 ^ 44)
    rw [hm.metaBeg, Nat.add_zero] at h
    exact h.symm
  rw [Mapping.memToMeta, BitVec.toNat_or, BitVec.toNat_mul, BitVec.toNat_udiv,
    show kMetaShadowCell - 1 = kShadowCell - 1 from rfl, tsanMasked_toNat hm hx, hcell, hsize,
    hscaled, hmeta, block_or (by omega), Mapping.base, ← hmeta]

/-- Rounding down to a four-byte granule stays in the region and only clears low bits. -/
theorem offset_and_not_three (x : Uptr) : offset (x &&& ~~~3) = offset x / 4 * 4 := by
  unfold offset
  rw [toNat_and_not_low (k := 2) x 3 (by decide) (by decide)]
  omega

/-- On a region, a metadata cell starts at the base plus the granule number times the
cell size. -/
theorem cellBeg_toNat (hm : m.BlockLayout) (hx : m.InRegion r x) (k : MetaFn) :
    (m.cellBeg k x).toNat = m.base k r + offset x / k.granule * k.cellSize := by
  cases k with
  | asanShadow =>
      simpa [Mapping.cellBeg, MetaFn.granule, MetaFn.cellSize] using asanMemToShadow_toNat hm hx
  | msanShadow =>
      simpa [Mapping.cellBeg, MetaFn.granule, MetaFn.cellSize] using msanMemToShadow_toNat hm hx
  | msanOrigin =>
      have heq := hx.toNat_eq hm
      have hround : (x &&& ~~~3).toNat = 2 ^ 44 * m.block r + offset x / 4 * 4 := by
        rw [toNat_and_not_low (k := 2) x 3 (by decide) (by decide)]
        omega
      have hlt : offset x / 4 * 4 < 2 ^ 44 := by have := offset_lt x; omega
      have hshadow : (m.msanMemToShadow (x &&& ~~~3)).toNat =
          m.base .msanShadow r + offset x / 4 * 4 := toNat_xor_block hround hlt hm.msanXor
      have hbase := hm.baseLt .msanOrigin r
      simp only [Mapping.base] at hbase hshadow
      simp only [Mapping.cellBeg, Mapping.msanMemToOrigin, Mapping.msanShadowToOrigin,
        BitVec.toNat_add, hshadow, Mapping.base, MetaFn.granule, MetaFn.cellSize]
      omega
  | tsanShadow =>
      simpa [Mapping.cellBeg, MetaFn.granule, MetaFn.cellSize, kShadowCnt, kShadowSize] using
        memToShadow_toNat hm hx
  | tsanMeta =>
      simpa [Mapping.cellBeg, MetaFn.granule, MetaFn.cellSize] using memToMeta_toNat hm hx

end Affine

end Mair.Platform
