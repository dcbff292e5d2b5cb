import Mair.Platform.Separation

/-! # Coverage of the metadata spaces

Every metadata byte lies in a range that its owner asked for, the assembled list of ranges
is pairwise disjoint, and the walk over the sorted list protects no metadata byte. -/

namespace Mair.Platform

/-! ## Ranges -/

def Range.Contains (range : Range) (b : Uptr) : Prop :=
  range.beg ≤ b ∧ b < range.fin

theorem Range.Apart.symm {lh rh : Range} (h : lh.Apart rh) : rh.Apart lh :=
  Or.symm h

theorem Range.Apart.not_contains {lh rh : Range} {b : Uptr} (h : lh.Apart rh)
    (hb : lh.Contains b) : ¬rh.Contains b := by
  rintro ⟨hlo, hhi⟩
  rcases h with h | h
  · exact BitVec.not_lt.mpr (BitVec.le_trans h hlo) hb.2
  · exact BitVec.not_lt.mpr (BitVec.le_trans h hb.1) hhi

/-! ## The protecting walk -/

theorem sortRanges_perm (ranges : List Range) : (sortRanges ranges).Perm ranges :=
  HeapSort.sortList_perm _ ranges

theorem sortRanges_sorted (ranges : List Range) :
    (sortRanges ranges).Pairwise fun a b => a.beg ≤ b.beg := by
  have hcomp : ∀ a b : Range, decide (a.beg < b.beg) = true ↔ a.beg.toNat < b.beg.toNat := by
    intro a b
    rw [decide_eq_true_eq, BitVec.lt_def]
  have hsorted := @HeapSort.sortList_pairwise _ _ _ ℕ _ (fun range => range.beg.toNat) hcomp ranges
  exact hsorted.imp fun h => BitVec.le_def.mpr h

/-- Nonempty ranges that are pairwise apart are in address order after the sort. -/
theorem sortRanges_pairwise {ranges : List Range} (hne : ∀ a ∈ ranges, a.beg < a.fin)
    (hapart : ranges.Pairwise Range.Apart) :
    (sortRanges ranges).Pairwise fun a b => a.fin ≤ b.beg := by
  have hperm := sortRanges_perm ranges
  have hsorted := sortRanges_sorted ranges
  have hapart' := (hperm.pairwise_iff Range.Apart.symm).mpr hapart
  refine (hsorted.and hapart').imp_of_mem ?_
  intro a b _ hb h
  have hbne := hne b (hperm.mem_iff.mp hb)
  rcases h.2 with h' | h'
  · exact h'
  · exact absurd (BitVec.le_trans h' h.1) (BitVec.not_le.mpr hbne)

/-- On ranges in address order the overlap check passes, and each protected gap is apart
from every range. -/
theorem protectGaps_of_pairwise {ranges : List Range} {lastEnd : Uptr}
    (hne : ∀ a ∈ ranges, a.beg ≤ a.fin) (hlast : ∀ a ∈ ranges, lastEnd ≤ a.beg)
    (hsorted : ranges.Pairwise fun a b => a.fin ≤ b.beg) :
    ∃ gaps, protectGaps lastEnd ranges = some gaps ∧
      ∀ gap ∈ gaps, lastEnd ≤ gap.beg ∧ ∀ a ∈ ranges, gap.Apart a := by
  induction ranges generalizing lastEnd with
  | nil => exact ⟨[], rfl, by simp⟩
  | cons cur rest ih =>
      obtain ⟨hcur, hrest⟩ := List.pairwise_cons.mp hsorted
      have hbeg := hlast cur List.mem_cons_self
      have hcurle := hne cur List.mem_cons_self
      obtain ⟨gaps, hgaps, hspec⟩ :=
        ih (fun a ha => hne a (List.mem_cons_of_mem _ ha)) hcur hrest
      have htail : ∀ gap ∈ gaps, lastEnd ≤ gap.beg ∧ ∀ a ∈ cur :: rest, gap.Apart a := by
        intro gap hgap
        obtain ⟨hle, hapart⟩ := hspec gap hgap
        refine ⟨BitVec.le_trans hbeg (BitVec.le_trans hcurle hle), ?_⟩
        intro a ha
        rcases List.mem_cons.mp ha with rfl | ha
        · exact Or.inr hle
        · exact hapart a ha
      rw [protectGaps, if_neg (BitVec.not_lt.mpr hbeg), hgaps, Option.map_some]
      by_cases heq : lastEnd = cur.beg
      · rw [if_pos heq]
        exact ⟨gaps, rfl, htail⟩
      · rw [if_neg heq]
        refine ⟨⟨lastEnd, cur.beg⟩ :: gaps, rfl, ?_⟩
        intro gap hgap
        rcases List.mem_cons.mp hgap with rfl | hgap
        · refine ⟨BitVec.le_refl _, ?_⟩
          intro a ha
          rcases List.mem_cons.mp ha with rfl | ha
          · exact Or.inl (BitVec.le_refl _)
          · exact Or.inl (BitVec.le_trans hcurle (hcur a ha))
        · exact htail gap hgap

/-! ## Covered layouts -/

/-- The ranges that the owner of a metadata function returns from `NeededMapRanges`. -/
def Mapping.ownerRanges (m : Mapping) : MetaFn → List Range
  | .asanShadow => m.asanNeededMapRanges
  | .msanShadow => m.msanNeededMapRanges
  | .msanOrigin => m.msanNeededMapRanges
  | .tsanShadow => m.tsanNeededMapRanges
  | .tsanMeta => m.tsanNeededMapRanges

theorem mem_mapRanges_of_mem_ownerRanges {m : Mapping} {k : MetaFn} {range : Range}
    (h : range ∈ m.ownerRanges k) : range ∈ m.mapRanges := by
  cases k <;> simp only [Mapping.ownerRanges] at h <;> simp [Mapping.mapRanges, h]

/-- Each image of a region fits in one owned range, and the assembled list is made of
nonempty ranges that are pairwise apart. -/
structure Mapping.CoveredLayout (m : Mapping) : Prop where
  blocks : m.BlockLayout
  cover : ∀ k r, ∃ range ∈ m.ownerRanges k,
    range.beg.toNat ≤ m.imageBeg k r ∧ m.imageEnd k r ≤ range.fin.toNat
  nonempty : ∀ range ∈ m.mapRanges, range.beg < range.fin
  apart : m.mapRanges.Pairwise Range.Apart

theorem mappingX64_48_coveredLayout : mappingX64_48.CoveredLayout where
  blocks := mappingX64_48_blockLayout
  cover := by decide +kernel
  nonempty := by decide +kernel
  apart := by decide +kernel

theorem mappingAarch64_48_coveredLayout : mappingAarch64_48.CoveredLayout where
  blocks := mappingAarch64_48_blockLayout
  cover := by decide +kernel
  nonempty := by decide +kernel
  apart := by decide +kernel

theorem coveredLayout_of_platform {m : Mapping} (hm : m ∈ platforms) : m.CoveredLayout := by
  simp only [platforms, List.mem_cons, List.not_mem_nil, or_false] at hm
  rcases hm with rfl | rfl
  · exact mappingX64_48_coveredLayout
  · exact mappingAarch64_48_coveredLayout

section Coverage

variable {m : Mapping} {x b : Uptr} {f : MetaFn}

/-- A metadata byte of an application address lies in a range of its owner. -/
theorem exists_ownerRange_contains (hm : m.CoveredLayout) (hx : m.isAppMem x = true)
    (hb : b ∈ m.cell f x) : ∃ range ∈ m.ownerRanges f, range.Contains b := by
  obtain ⟨r, hx⟩ := (m.isAppMem_iff x).mp hx
  obtain ⟨hlo, hhi⟩ := mem_image_of_mem_cell hm.blocks hx hb
  obtain ⟨range, hmem, hbeg, hfin⟩ := hm.cover f r
  refine ⟨range, hmem, ?_, ?_⟩
  · exact BitVec.le_def.mpr (Nat.le_trans hbeg hlo)
  · exact BitVec.lt_def.mpr (Nat.lt_of_lt_of_le hhi hfin)

/-- `CheckAndProtect` gets past its overlap check, and its gaps avoid every range. -/
theorem protectedGaps_spec (hm : m.CoveredLayout) :
    ∃ gaps, m.protectedGaps = some gaps ∧ ∀ gap ∈ gaps, ∀ a ∈ m.mapRanges, gap.Apart a := by
  have hmem : ∀ a, a ∈ sortRanges m.mapRanges ↔ a ∈ m.mapRanges := fun a =>
    (sortRanges_perm m.mapRanges).mem_iff
  have hlast : ∀ a ∈ sortRanges m.mapRanges, 0 ≤ a.beg := fun a _ =>
    BitVec.le_def.mpr (Nat.zero_le _)
  obtain ⟨gaps, hgaps, hspec⟩ := protectGaps_of_pairwise
    (fun a ha => BitVec.le_of_lt (hm.nonempty a ((hmem a).mp ha))) hlast
    (sortRanges_pairwise hm.nonempty hm.apart)
  refine ⟨gaps, hgaps, ?_⟩
  intro gap hgap a ha
  exact (hspec gap hgap).2 a ((hmem a).mpr ha)

end Coverage

/-! ## Coverage on the shipped platforms -/

/-- On both platforms every metadata byte lies in a range of its owner, every such range
is well formed, the assembled list is pairwise disjoint, and no protected gap holds a
metadata byte. -/
theorem metadata_coverage :
    ∀ m ∈ platforms,
      (∀ x, m.isAppMem x = true → ∀ f, ∀ b ∈ m.cell f x,
        ∃ range ∈ m.ownerRanges f, range.Contains b) ∧
      (∀ f, ∀ range ∈ m.ownerRanges f, range.beg ≤ range.fin) ∧
      m.mapRanges.Pairwise Range.Apart ∧
      ∃ gaps, m.protectedGaps = some gaps ∧
        ∀ x, m.isAppMem x = true → ∀ f, ∀ b ∈ m.cell f x, ∀ gap ∈ gaps, ¬gap.Contains b := by
  intro m hmem
  have hm := coveredLayout_of_platform hmem
  refine ⟨fun x hx f b hb => exists_ownerRange_contains hm hx hb, ?_, hm.apart, ?_⟩
  · intro f range hrange
    exact BitVec.le_of_lt (hm.nonempty range (mem_mapRanges_of_mem_ownerRanges hrange))
  · obtain ⟨gaps, hgaps, hapart⟩ := protectedGaps_spec hm
    refine ⟨gaps, hgaps, ?_⟩
    intro x hx f b hb gap hgap
    obtain ⟨range, hrange, hcontains⟩ := exists_ownerRange_contains hm hx hb
    have hgap' := hapart gap hgap range (mem_mapRanges_of_mem_ownerRanges hrange)
    exact hgap'.symm.not_contains hcontains

theorem metadata_coverage_heap :
    ∃ range ∈ mappingAarch64_48.ownerRanges .tsanMeta,
      range.Contains (mappingAarch64_48.cellBeg .tsanMeta 0xd80000000010) :=
  (metadata_coverage mappingAarch64_48 (List.mem_cons_of_mem _ List.mem_cons_self)).1
    0xd80000000010 (by decide) .tsanMeta _ (by decide)

end Mair.Platform
