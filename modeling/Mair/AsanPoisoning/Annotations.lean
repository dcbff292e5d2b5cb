import Mathlib.Order.BooleanAlgebra.Set
import Mathlib.Order.Interval.Set.Basic
import Mair.AsanPoisoning.Containers

/-! # What the annotations of containers mean

When the storage is accessible as far as the old elements say, it is accessible afterwards as far
as the new ones say. When only the old elements are known to be accessible, the new ones and all
memory outside the storage are. -/

namespace Mair.AsanPoisoning

variable {r : Runtime} {s s' t : Shadow} {b b' : Bounds} {storageBeg storageEnd : ℕ}

/-- The least set of bytes that can be written down with these elements in the storage. -/
def annotatedBytes (s : Shadow) (storageBeg storageEnd beg stop : ℕ) : Set ℕ :=
  Granules.fill 8 (accessible s \ Set.Ico storageBeg storageEnd ∪ Set.Ico beg stop)

theorem annotatedBytes_eq (s : Shadow) (storageBeg storageEnd beg stop : ℕ) :
    annotatedBytes s storageBeg storageEnd beg stop =
      Granules.within 8 (Granules.add 8 beg stop (outside s storageBeg storageEnd)) := by
  rw [outside, Granules.within_add (by decide) (Granules.remove_le (count_le s)),
    Granules.within_remove (by decide) (count_le s), Granules.fill_fill_union, annotatedBytes,
    accessible_eq]

theorem annotatedBytes_subset_iff {beg stop : ℕ} :
    annotatedBytes s storageBeg storageEnd beg stop ⊆ accessible s' ↔
      ∀ i, max (outside s storageBeg storageEnd i) (Granules.reach 8 beg stop i) ≤ count s' i := by
  rw [annotatedBytes_eq, accessible_eq]
  exact Granules.within_subset_within (by decide)
    (Granules.add_le (Granules.remove_le (count_le s)))

theorem eq_annotatedBytes_iff {beg stop : ℕ} :
    accessible s' = annotatedBytes s storageBeg storageEnd beg stop ↔
      ∀ i, count s' i = max (outside s storageBeg storageEnd i) (Granules.reach 8 beg stop i) := by
  rw [annotatedBytes_eq, accessible_eq]
  constructor
  · intro h i
    exact congrFun (Granules.within_injective (by decide) (count_le s')
      (Granules.add_le (Granules.remove_le (count_le s))) h) i
  · intro h
    exact congrArg _ (funext h)

theorem Ico_subset_accessible {beg stop : ℕ} :
    Set.Ico beg stop ⊆ accessible s ↔ ∀ i, Granules.reach 8 beg stop i ≤ count s i := by
  rw [accessible_eq, ← Granules.within_subset_within (by decide) fun _ => Granules.reach_le,
    ← Granules.fill_Ico (by decide)]
  exact ⟨Granules.fill_subset Granules.closed_within, Granules.subset_fill.trans⟩

/-- A storage with all its bytes accessible is annotated as full. -/
theorem annotatedBytes_self {storageBeg storageEnd : ℕ}
    (h : Set.Ico storageBeg storageEnd ⊆ accessible s) :
    accessible s = annotatedBytes s storageBeg storageEnd storageBeg storageEnd := by
  rw [annotatedBytes, Set.sdiff_union_of_subset h]
  exact closed_accessible.fill_eq.symm

/-- How a change of the elements changes the accessible bytes. -/
structure Changed (s s' : Shadow) (storageBeg storageEnd : ℕ) (b : Bounds) : Prop where
  sound : Set.Ico b.oldBeg b.oldEnd ⊆ accessible s →
    accessible s \ Set.Ico storageBeg storageEnd ∪ Set.Ico b.newBeg b.newEnd ⊆ accessible s'
  exact : accessible s = annotatedBytes s storageBeg storageEnd b.oldBeg b.oldEnd →
    accessible s' = annotatedBytes s storageBeg storageEnd b.newBeg b.newEnd

theorem Fixed.changed (hfixed : Fixed s t storageBeg storageEnd b b') (hmoved : Moved t s' b') :
    Changed s s' storageBeg storageEnd b := by
  constructor
  · intro hold
    rw [Ico_subset_accessible] at hold
    refine Granules.subset_fill.trans (annotatedBytes_subset_iff.mpr fun i => ?_)
    have hcovers := hfixed.covers hold i
    have hnew := hfixed.new i
    have hdiffer := hfixed.differ i
    have hi := hmoved i
    simp only [Bounds.newReach] at *
    omega
  · intro hold
    rw [eq_annotatedBytes_iff] at hold ⊢
    intro i
    have hexact := hfixed.exact hold i
    have hnew := hfixed.new i
    have hdiffer := hfixed.differ i
    have hi := hmoved i
    simp only [Bounds.newReach] at *
    omega

theorem changed_same (storageBeg storageEnd beg stop : ℕ) :
    Changed s s storageBeg storageEnd ⟨beg, stop, beg, stop⟩ :=
  ⟨fun h => Set.union_subset Set.sdiff_subset h, fun h => h⟩

/-- A container keeps its storage annotated through any change of its elements. -/
theorem annotateContiguousContainer_changed {oldEnd newEnd : ℕ}
    (hserves : r.Serves (storageBeg / 8) ((storageEnd + 8 - 1) / 8))
    (hdetect : r.detectContainerOverflow = true)
    (hold : storageBeg ≤ oldEnd ∧ oldEnd ≤ storageEnd)
    (hnew : storageBeg ≤ newEnd ∧ newEnd ≤ storageEnd)
    (hsize : storageEnd - storageBeg ≤ 1 <<< 40) :
    ∃ s', annotateContiguousContainer r s storageBeg storageEnd oldEnd newEnd = some s' ∧
      Changed s s' storageBeg storageEnd ⟨storageBeg, oldEnd, storageBeg, newEnd⟩ := by
  have hflag : ¬ r.detectContainerOverflow = false := by simp [hdetect]
  have hparams : ¬ ¬ (storageBeg ≤ oldEnd ∧ storageBeg ≤ newEnd ∧ oldEnd ≤ storageEnd ∧
      newEnd ≤ storageEnd) := not_not.mpr ⟨hold.1, hnew.1, hold.2, hnew.2⟩
  rw [annotateContiguousContainer, if_neg hflag, if_neg hparams, if_neg (not_not.mpr hsize)]
  by_cases hsame : oldEnd = newEnd
  · subst hsame
    rw [if_pos rfl]
    exact ⟨s, rfl, changed_same _ _ _ _⟩
  · rw [if_neg hsame]
    have hord : Bounds.Ordered ⟨storageBeg, oldEnd, storageBeg, newEnd⟩ storageBeg storageEnd :=
      ⟨hold.1, hnew.1, le_rfl, le_rfl, hold.2, hnew.2⟩
    cases hfix : fixUnalignedStorage s storageBeg storageEnd
        ⟨storageBeg, oldEnd, storageBeg, newEnd⟩ with
    | mk t b' =>
        have hfixed := fixUnalignedStorage_fixed hord hfix
        have hnear := fixUnalignedStorage_near hord hfix
        have hedge := fixUnalignedStorage_edge hsame hold.1 hnew.1 hfix
        obtain ⟨oldBeg', oldEnd', newBeg', newEnd'⟩ := b'
        have hbeg : oldBeg' = newBeg' := hedge.1
        subst hbeg
        obtain ⟨s', hs', hmoved⟩ := annotateEnd_moved (s := t) hserves hnear.newBeg hnear.oldEnd
          hnear.newEnd hnear.old hnear.new hedge.2
        exact ⟨s', hs', hfixed.changed hmoved⟩

theorem annotateDoubleEndedContiguousContainer_changed
    (hserves : r.Serves (storageBeg / 8) ((storageEnd + 8 - 1) / 8))
    (hdetect : r.detectContainerOverflow = true) (hord : b.Ordered storageBeg storageEnd)
    (hsize : storageEnd - storageBeg ≤ 1 <<< 40) :
    ∃ s', annotateDoubleEndedContiguousContainer r s storageBeg storageEnd b = some s' ∧
      Changed s s' storageBeg storageEnd b := by
  have hflag : ¬ r.detectContainerOverflow = false := by simp [hdetect]
  have hparams : ¬ (¬ (b.oldBeg ≤ b.oldEnd ∧ b.newBeg ≤ b.newEnd) ∨
      ¬ (storageBeg ≤ b.newBeg ∧ b.newEnd ≤ storageEnd) ∨
      ¬ (storageBeg ≤ b.oldBeg ∧ b.oldEnd ≤ storageEnd)) := by
    rintro (h | h | h)
    · exact h ⟨hord.old, hord.new⟩
    · exact h ⟨hord.newBeg, hord.newEnd⟩
    · exact h ⟨hord.oldBeg, hord.oldEnd⟩
  rw [annotateDoubleEndedContiguousContainer, if_neg hflag, if_neg hparams,
    if_neg (not_not.mpr hsize)]
  by_cases hsame : b.oldBeg = b.oldEnd ∧ b.newBeg = b.newEnd ∨
      b.oldBeg = b.newBeg ∧ b.oldEnd = b.newEnd
  · rw [if_pos hsame]
    refine ⟨s, rfl, ?_⟩
    obtain ⟨oldBeg, oldEnd, newBeg, newEnd⟩ := b
    rcases hsame with ⟨hempty, hempty'⟩ | ⟨hbeg, hend⟩
    · simp only at hempty hempty'
      subst hempty
      subst hempty'
      refine ⟨fun _ => ?_, fun h => ?_⟩
      · rw [Set.Ico_self, Set.union_empty]
        exact Set.sdiff_subset
      · rwa [annotatedBytes, Set.Ico_self, ← Set.Ico_self newBeg] at h
    · simp only at hbeg hend
      subst hbeg
      subst hend
      exact changed_same _ _ _ _
  · rw [if_neg hsame]
    cases hfix : fixUnalignedStorage s storageBeg storageEnd b with
    | mk t b' =>
        have hfixed := fixUnalignedStorage_fixed hord hfix
        have hnear := fixUnalignedStorage_near hord hfix
        obtain ⟨oldBeg', oldEnd', newBeg', newEnd'⟩ := b'
        dsimp only
        by_cases hapart : oldBeg' = oldEnd' ∨ newBeg' = newEnd' ∨ newEnd' ≤ oldBeg' ∨
            oldEnd' ≤ newBeg'
        · rw [if_pos hapart]
          obtain ⟨s', hs', hmoved⟩ := annotateApart_moved (s := t) hserves hnear.oldBeg
            hnear.newBeg hnear.oldEnd hnear.newEnd hnear.old hnear.new hapart
          exact ⟨s', hs', hfixed.changed hmoved⟩
        · have hold : oldBeg' ≤ oldEnd' := hnear.old
          have hnew : newBeg' ≤ newEnd' := hnear.new
          have hlt : oldBeg' < oldEnd' := by omega
          have hlt' : newBeg' < newEnd' := by omega
          have hmeet : newBeg' < oldEnd' ∧ oldBeg' < newEnd' := by omega
          rw [if_neg hapart, if_pos hmeet]
          obtain ⟨s', hs', hmoved⟩ := annotateBothEnds_moved (s := t) hserves hnear.oldBeg
            hnear.newBeg hnear.oldEnd hnear.newEnd hlt hlt' hmeet.1 hmeet.2
          exact ⟨s', hs', hfixed.changed hmoved⟩

end Mair.AsanPoisoning
