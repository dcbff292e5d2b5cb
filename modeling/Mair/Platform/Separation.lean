import Mair.Platform.Affine

/-! # Separation of the metadata spaces

The image of a region under a metadata function lies in one interval of addresses, so
separation of interior addresses reduces to separation of the intervals' end points. -/

namespace Mair.Platform

/-! ## Images of the regions -/

/-- The first byte of the metadata of a region. -/
def Mapping.imageBeg (m : Mapping) (k : MetaFn) (r : Region) : ℕ :=
  m.base k r + (m.memBeg r).toNat % 2 ^ 44 / k.granule * k.cellSize

/-- One past the last byte of the metadata of a region. -/
def Mapping.imageEnd (m : Mapping) (k : MetaFn) (r : Region) : ℕ :=
  m.base k r + ((m.memEnd r).toNat - 1) % 2 ^ 44 / k.granule * k.cellSize + k.cellSize

section Cells

variable {m : Mapping} {r : Region} {x b : Uptr} {k : MetaFn}

theorem MetaFn.granule_pos (k : MetaFn) : 0 < k.granule := by
  cases k <;> decide

theorem MetaFn.cellSize_le (k : MetaFn) : k.cellSize ≤ 16 := by
  cases k <;> decide

theorem MetaFn.cellSize_le_two_mul_granule (k : MetaFn) : k.cellSize ≤ 2 * k.granule := by
  cases k <;> decide

theorem offset_memBeg_le (hm : m.BlockLayout) (hx : m.InRegion r x) :
    (m.memBeg r).toNat % 2 ^ 44 ≤ offset x := by
  have hlo := hx.le_toNat
  have heq := hx.toNat_eq hm
  have hblock := Nat.div_add_mod (m.memBeg r).toNat (2 ^ 44)
  rw [Mapping.block] at heq
  omega

theorem offset_le_memEnd (hm : m.BlockLayout) (hx : m.InRegion r x) :
    offset x ≤ ((m.memEnd r).toNat - 1) % 2 ^ 44 := by
  have hhi := hx.toNat_lt
  have heq := hx.toNat_eq hm
  have hblock := Nat.div_add_mod ((m.memEnd r).toNat - 1) (2 ^ 44)
  rw [hm.oneBlock r] at hblock
  omega

/-- Granule numbers are small enough that no cell wraps around the address space. -/
theorem granule_mul_cellSize_le (k : MetaFn) (x : Uptr) :
    offset x / k.granule * k.cellSize ≤ 2 ^ 45 := by
  have hle : offset x / k.granule * k.granule ≤ offset x := Nat.div_mul_le_self _ _
  have hlt := offset_lt x
  calc
    offset x / k.granule * k.cellSize ≤ offset x / k.granule * (2 * k.granule) :=
      Nat.mul_le_mul_left _ k.cellSize_le_two_mul_granule
    _ = 2 * (offset x / k.granule * k.granule) := by ring
    _ ≤ 2 ^ 45 := by omega

theorem toNat_of_mem_cell (hm : m.BlockLayout) (hx : m.InRegion r x) (hb : b ∈ m.cell k x) :
    ∃ i < k.cellSize, b.toNat = m.base k r + offset x / k.granule * k.cellSize + i := by
  simp only [Mapping.cell, List.mem_map, List.mem_range] at hb
  rcases hb with ⟨i, hi, rfl⟩
  refine ⟨i, hi, ?_⟩
  have hbase := hm.baseLt k r
  have hcell := granule_mul_cellSize_le k x
  have hsize := k.cellSize_le
  rw [BitVec.toNat_add, cellBeg_toNat hm hx, BitVec.toNat_ofNat]
  omega

/-- Each metadata byte of an address lies in the image of the address's region. -/
theorem mem_image_of_mem_cell (hm : m.BlockLayout) (hx : m.InRegion r x)
    (hb : b ∈ m.cell k x) : m.imageBeg k r ≤ b.toNat ∧ b.toNat < m.imageEnd k r := by
  obtain ⟨i, hi, hbyte⟩ := toNat_of_mem_cell hm hx hb
  have hlo : (m.memBeg r).toNat % 2 ^ 44 / k.granule * k.cellSize ≤
      offset x / k.granule * k.cellSize :=
    Nat.mul_le_mul_right _ (Nat.div_le_div_right (offset_memBeg_le hm hx))
  have hhi : offset x / k.granule * k.cellSize ≤
      ((m.memEnd r).toNat - 1) % 2 ^ 44 / k.granule * k.cellSize :=
    Nat.mul_le_mul_right _ (Nat.div_le_div_right (offset_le_memEnd hm hx))
  unfold Mapping.imageBeg Mapping.imageEnd
  omega

/-- Each byte of an image is a metadata byte of some address of the region. -/
theorem exists_cell_of_mem_image (hm : m.BlockLayout) (hlo : m.imageBeg k r ≤ b.toNat)
    (hhi : b.toNat < m.imageEnd k r) : ∃ x, m.InRegion r x ∧ b ∈ m.cell k x := by
  have hgranule := k.granule_pos
  have hsize : 0 < k.cellSize := by cases k <;> decide
  have hne := hm.nonempty r
  have hblock := hm.oneBlock r
  have hend := (m.memEnd r).isLt
  unfold Mapping.imageBeg at hlo
  unfold Mapping.imageEnd at hhi
  unfold Mapping.block at hblock
  have hq : (b.toNat - m.base k r) / k.cellSize * k.cellSize +
      (b.toNat - m.base k r) % k.cellSize = b.toNat - m.base k r := Nat.div_add_mod' _ _
  generalize hqdef : (b.toNat - m.base k r) / k.cellSize = q at hq
  have hqlo : (m.memBeg r).toNat % 2 ^ 44 / k.granule ≤ q := by
    rw [← hqdef, Nat.le_div_iff_mul_le hsize]
    omega
  have hqhi : q * k.granule ≤ ((m.memEnd r).toNat - 1) % 2 ^ 44 := by
    apply (Nat.le_div_iff_mul_le hgranule).mp
    rw [← hqdef]
    apply Nat.lt_succ_iff.mp
    rw [Nat.div_lt_iff_lt_mul hsize, Nat.succ_mul]
    omega
  obtain ⟨o, ho⟩ : ∃ o, o = max ((m.memBeg r).toNat % 2 ^ 44) (q * k.granule) := ⟨_, rfl⟩
  have hoq : o / k.granule = q := by
    apply Nat.div_eq_of_lt_le
    · omega
    · have hlt : (m.memBeg r).toNat % 2 ^ 44 < (q + 1) * k.granule :=
        (Nat.div_lt_iff_lt_mul hgranule).mp (Nat.lt_succ_of_le hqlo)
      have hnext : q * k.granule < (q + 1) * k.granule :=
        Nat.mul_lt_mul_of_pos_right (Nat.lt_succ_self q) hgranule
      omega
  have hx : (BitVec.ofNat 64 (2 ^ 44 * ((m.memBeg r).toNat / 2 ^ 44) + o)).toNat =
      2 ^ 44 * ((m.memBeg r).toNat / 2 ^ 44) + o := by
    rw [BitVec.toNat_ofNat]
    omega
  generalize BitVec.ofNat 64 (2 ^ 44 * ((m.memBeg r).toNat / 2 ^ 44) + o) = x at hx
  have hregion : m.InRegion r x :=
    ⟨BitVec.le_def.mpr (by omega), BitVec.lt_def.mpr (by omega)⟩
  have hoffset : offset x = o := by
    rw [offset, hx]
    omega
  refine ⟨x, hregion, List.mem_map.mpr
    ⟨(b.toNat - m.base k r) % k.cellSize, List.mem_range.mpr (Nat.mod_lt _ hsize), ?_⟩⟩
  apply BitVec.eq_of_toNat_eq
  have hcell := cellBeg_toNat hm hregion k
  rw [hoffset, hoq] at hcell
  have hword := b.isLt
  have hbase : m.base k r ≤ b.toNat := by omega
  rw [BitVec.toNat_add, hcell, BitVec.toNat_ofNat]
  omega

end Cells

/-! ## Separated layouts -/

/-- The images are pairwise apart, and apart from application memory except where the
ASan shadow of low memory lies in low memory. -/
structure Mapping.SeparatedLayout (m : Mapping) : Prop where
  blocks : m.BlockLayout
  images : ∀ k r k' r', (k ≠ k' ∨ r ≠ r') →
    m.imageEnd k r ≤ m.imageBeg k' r' ∨ m.imageEnd k' r' ≤ m.imageBeg k r
  regions : ∀ k r r', ¬(k = .asanShadow ∧ r = .lo ∧ r' = .lo) →
    m.imageEnd k r ≤ (m.memBeg r').toNat ∨ (m.memEnd r').toNat ≤ m.imageBeg k r

theorem mappingX64_48_separatedLayout : mappingX64_48.SeparatedLayout where
  blocks := mappingX64_48_blockLayout
  images := by decide +kernel
  regions := by decide +kernel

theorem mappingAarch64_48_separatedLayout : mappingAarch64_48.SeparatedLayout where
  blocks := mappingAarch64_48_blockLayout
  images := by decide +kernel
  regions := by decide +kernel

theorem separatedLayout_of_platform {m : Mapping} (hm : m ∈ platforms) :
    m.SeparatedLayout := by
  simp only [platforms, List.mem_cons, List.not_mem_nil, or_false] at hm
  rcases hm with rfl | rfl
  · exact mappingX64_48_separatedLayout
  · exact mappingAarch64_48_separatedLayout

section Separation

variable {m : Mapping} {r r' : Region} {x y : Uptr} {f g : MetaFn}

/-- Cells in images that are apart share no byte. -/
theorem cell_disjoint_of_images (hm : m.BlockLayout) (hx : m.InRegion r x)
    (hy : m.InRegion r' y)
    (h : m.imageEnd f r ≤ m.imageBeg g r' ∨ m.imageEnd g r' ≤ m.imageBeg f r) :
    (m.cell f x).Disjoint (m.cell g y) := by
  intro b hbx hby
  have hx' := mem_image_of_mem_cell hm hx hbx
  have hy' := mem_image_of_mem_cell hm hy hby
  omega

/-- Cells of different functions, or of different regions, share no byte. -/
theorem cell_disjoint_of_ne (hm : m.SeparatedLayout) (hx : m.InRegion r x)
    (hy : m.InRegion r' y) (hne : f ≠ g ∨ r ≠ r') :
    (m.cell f x).Disjoint (m.cell g y) :=
  cell_disjoint_of_images hm.blocks hx hy (hm.images f r g r' hne)

/-- Within one region, cells of different granules share no byte. -/
theorem cell_disjoint_of_granule_ne (hm : m.SeparatedLayout) (hx : m.InRegion r x)
    (hy : m.InRegion r y) (hne : x.toNat / f.granule ≠ y.toNat / f.granule) :
    (m.cell f x).Disjoint (m.cell f y) := by
  intro b hbx hby
  obtain ⟨i, hi, hbi⟩ := toNat_of_mem_cell hm.blocks hx hbx
  obtain ⟨j, hj, hbj⟩ := toNat_of_mem_cell hm.blocks hy hby
  have hsize : f.cellSize * (offset x / f.granule) + i =
      f.cellSize * (offset y / f.granule) + j := by
    rw [Nat.mul_comm, Nat.mul_comm f.cellSize]
    omega
  have hquot : offset x / f.granule = offset y / f.granule := by
    have hdiv := congrArg (· / f.cellSize) hsize
    have hpos : 0 < f.cellSize := Nat.lt_of_le_of_lt (Nat.zero_le i) hi
    simpa [Nat.mul_add_div hpos, Nat.div_eq_of_lt hi, Nat.div_eq_of_lt hj] using hdiv
  apply hne
  have hdvd : f.granule ∣ 2 ^ 44 * m.block r := by
    apply Dvd.dvd.mul_right
    cases f <;> decide
  rw [hx.toNat_eq hm.blocks, hy.toNat_eq hm.blocks, Nat.add_div_of_dvd_right hdvd,
    Nat.add_div_of_dvd_right hdvd, hquot]

/-- A metadata byte in application memory is the ASan shadow of low memory. -/
theorem metadata_notMem_app (hm : m.SeparatedLayout) (hx : m.InRegion r x) {b : Uptr}
    (hb : b ∈ m.cell f x) (happ : m.InRegion r' b) :
    f = .asanShadow ∧ r = .lo ∧ r' = .lo := by
  by_contra hne
  have himage := mem_image_of_mem_cell hm.blocks hx hb
  have hlo := happ.le_toNat
  have hhi := happ.toNat_lt
  rcases hm.regions f r r' hne with h | h <;> omega

end Separation

/-! ## Separation on the shipped platforms -/

end Mair.Platform
