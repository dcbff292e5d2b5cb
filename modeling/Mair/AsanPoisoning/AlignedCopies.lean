import Mair.AsanPoisoning.Copies

/-! # Copies between buffers with the same alignment

Whole granules are moved at once; only the granules at the ends are looked into. The result is
the one of the byte by byte copy. -/

namespace Mair.AsanPoisoning

variable {r : Runtime} {s t : Shadow} {srcBeg srcEnd dstBeg dstEnd i j u : ℕ}

theorem copyMiddle_apply (t : Shadow) (srcBeg dstBeg dstEnd i : ℕ) :
    copyMiddle t srcBeg dstBeg dstEnd i =
      if (dstBeg + 8 - 1) / 8 ≤ i ∧ i < dstEnd / 8 then
        t (i - (dstBeg + 8 - 1) / 8 + (srcBeg + 8 - 1) / 8)
      else t i := by
  have hdiff : (dstEnd / 8 * 8 - (dstBeg + 8 - 1) / 8 * 8) / 8 =
      dstEnd / 8 - (dstBeg + 8 - 1) / 8 := by omega
  simp only [copyMiddle, roundUpTo, roundDownTo, Nat.mul_div_cancel _ (Nat.succ_pos 7), hdiff]
  split_ifs with hlt hi hi
  · exact if_pos (by omega)
  · exact if_neg (by omega)
  · omega
  · rfl

theorem copyFirst_of_ne (h : i ≠ dstBeg / 8 ∨ dstBeg % 8 = 0) :
    copyContainerFirstGranuleAnnotations t srcBeg dstBeg i = t i := by
  simp only [copyContainerFirstGranuleAnnotations, roundDownTo,
    Nat.mul_div_cancel _ (Nat.succ_pos 7)]
  split_ifs
  · rfl
  · exact if_neg (by omega)
  · exact setContainerGranule_of_ne (by omega)
  · rfl

theorem copyLast_of_ne (h : i ≠ dstEnd / 8 ∨ dstEnd % 8 = 0) :
    copyContainerLastGranuleAnnotations t srcEnd dstEnd i = t i := by
  simp only [copyContainerLastGranuleAnnotations, roundDownTo,
    Nat.mul_div_cancel _ (Nat.succ_pos 7)]
  split_ifs
  · rfl
  · exact if_neg (by omega)
  · exact setContainerGranule_of_ne (by omega)

/-- With the same alignment a granule of the destination is one of the source. -/
theorem mem_copied_iff {a : ℕ} (halign : srcBeg % 8 = dstBeg % 8) (ha : a / 8 = i)
    (hj : j + dstBeg / 8 = i + srcBeg / 8) (hbeg : dstBeg ≤ a) :
    a ∈ copied s srcBeg dstBeg dstEnd ↔ a < dstEnd ∧ a % 8 < count s j := by
  have hquot : (a - dstBeg + srcBeg) / 8 = j := by omega
  have hrem : (a - dstBeg + srcBeg) % 8 = a % 8 := by omega
  rw [← hrem, ← hquot]
  refine ⟨fun h => ⟨h.1.2, addressIsPoisoned_eq_false.mp h.2⟩, fun h => ⟨⟨hbeg, h.1⟩, ?_⟩⟩
  exact addressIsPoisoned_eq_false.mpr h.2

/-- The last byte that is accessible in the source granule is the last one in the copy. -/
theorem least_of_aligned (halign : srcBeg % 8 = dstBeg % 8)
    (hj : j + dstBeg / 8 = i + srcBeg / 8)
    (hu : u ≤ Granules.before 8 dstEnd i ∧ u ≤ count s j)
    (hmax : u = Granules.before 8 dstEnd i ∨ u = count s j ∨ u = 0 ∧ count s j ≤ dstBeg % 8 ∧
      i = dstBeg / 8)
    (hbeg : u = 0 ∨ Granules.before 8 dstBeg i < u) :
    Granules.Least 8 (copied s srcBeg dstBeg dstEnd) i u := by
  have hle := count_le s j
  rw [Granules.before] at hu hmax hbeg
  refine ⟨by omega, fun hpos => ⟨i * 8 + (u - 1), ?_, by omega, by omega⟩, fun a ha hi => ?_⟩
  · exact (mem_copied_iff halign (by omega) hj (by omega)).mpr ⟨by omega, by omega⟩
  · have hmem := (mem_copied_iff halign hi hj ha.1.1).mp ha
    have hbounds := ha.1
    omega

theorem copyFirst_copied (halign : srcBeg % 8 = dstBeg % 8) (hunaligned : dstBeg % 8 ≠ 0)
    (hcross : dstBeg / 8 < dstEnd / 8) (hsrc : t (srcBeg / 8) = s (srcBeg / 8))
    (hdst : t (dstBeg / 8) = s (dstBeg / 8)) :
    CopiedAt s (copyContainerFirstGranuleAnnotations t srcBeg dstBeg) srcBeg dstBeg dstEnd
      (dstBeg / 8) := by
  have hle := count_le s (dstBeg / 8)
  have hle' := count_le s (srcBeg / 8)
  have hbefore : Granules.before 8 dstEnd (dstBeg / 8) = 8 := Granules.before_of_lt hcross
  have hbefore' : Granules.before 8 dstBeg (dstBeg / 8) = dstBeg % 8 :=
    Granules.before_div (by decide)
  rw [copyContainerFirstGranuleAnnotations]
  simp only [roundDownTo, Nat.mul_div_cancel _ (Nat.succ_pos 7)]
  rw [if_neg (by omega), addressIsPoisoned_congr hsrc]
  by_cases hfree : addressIsPoisoned s srcBeg = false
  · rw [if_pos hfree]
    rw [addressIsPoisoned_eq_false] at hfree
    refine ⟨count s (srcBeg / 8), least_of_aligned halign (Nat.add_comm _ _) (by omega)
      (.inr (.inl rfl)) (.inr (by omega)), ?_⟩
    have hcount : count (t.store (dstBeg / 8) (t (srcBeg / 8))) (dstBeg / 8) =
        count s (srcBeg / 8) := by
      rw [hsrc, count, count, Shadow.store, if_pos rfl]
    rw [hcount, outside, Granules.remove, hbefore, hbefore']
    split_ifs <;> omega
  · rw [if_neg hfree]
    rw [Bool.not_eq_false, addressIsPoisoned_eq_true] at hfree
    have hleast : Granules.Least 8 (copied s srcBeg dstBeg dstEnd) (dstBeg / 8) 0 :=
      least_of_aligned (j := srcBeg / 8) halign (Nat.add_comm _ _) (by omega)
        (.inr (.inr ⟨rfl, by omega, rfl⟩)) (.inl rfl)
    have hgranule : CopiedAt s (copyGranule t dstBeg (dstBeg / 8 * 8) 0 false) srcBeg dstBeg
        dstEnd (dstBeg / 8) :=
      copyGranule_copied hleast hdst (by omega)
        (by simp only [Bool.false_eq_true, false_iff]; omega) (by omega)
    simpa [copyGranule] using hgranule

theorem copyLast_copied (halign : srcBeg % 8 = dstBeg % 8) (hunaligned : dstEnd % 8 ≠ 0)
    (hlen : srcEnd + dstBeg = dstEnd + srcBeg) (hcross : dstBeg / 8 < dstEnd / 8)
    (hsrc : t (srcEnd / 8) = s (srcEnd / 8)) (hdst : t (dstEnd / 8) = s (dstEnd / 8)) :
    CopiedAt s (copyContainerLastGranuleAnnotations t srcEnd dstEnd) srcBeg dstBeg dstEnd
      (dstEnd / 8) := by
  have hle := count_le s (srcEnd / 8)
  have hbefore : Granules.before 8 dstEnd (dstEnd / 8) = dstEnd % 8 :=
    Granules.before_div (by decide)
  have hbefore' : Granules.before 8 dstBeg (dstEnd / 8) = 0 :=
    Granules.before_of_gt (by decide) hcross
  have hleast : Granules.Least 8 (copied s srcBeg dstBeg dstEnd) (dstEnd / 8)
      (min (dstEnd % 8) (count s (srcEnd / 8))) :=
    least_of_aligned (j := srcEnd / 8) halign (by omega) (by omega)
      (by rw [hbefore]; exact (min_choice _ _).imp_right .inl)
      (by rw [hbefore']; exact Nat.eq_zero_or_pos _)
  rw [copyContainerLastGranuleAnnotations]
  simp only [roundDownTo, Nat.mul_div_cancel _ (Nat.succ_pos 7)]
  by_cases hafter : addressIsPoisoned s dstEnd = false
  · rw [if_pos (.inr ((addressIsPoisoned_congr hdst).trans hafter))]
    rw [addressIsPoisoned_eq_false] at hafter
    exact copiedAt_of_after hleast hdst (by omega)
  · have hskip : ¬ (dstEnd / 8 * 8 = dstEnd ∨ addressIsPoisoned t dstEnd = false) := by
      rw [addressIsPoisoned_congr hdst]
      intro h
      rcases h with h | h
      · omega
      · exact hafter h
    rw [if_neg hskip, addressIsPoisoned_congr hsrc]
    rw [Bool.not_eq_false, addressIsPoisoned_eq_true] at hafter
    refine ⟨_, hleast, ?_⟩
    rw [outside, Granules.remove, hbefore, hbefore', if_neg (Nat.not_lt.mpr hafter)]
    split_ifs with hbad
    · rw [addressIsPoisoned_eq_true] at hbad
      have hcount : count (t.store (dstEnd / 8) (t (srcEnd / 8))) (dstEnd / 8) =
          count s (srcEnd / 8) := by
        rw [hsrc, count, count, Shadow.store, if_pos rfl]
      rw [hcount]
      omega
    · rw [Bool.not_eq_true, addressIsPoisoned_eq_false] at hbad
      rw [count_setContainerGranule (by omega)]
      omega

theorem copyMiddle_copied (halign : srcBeg % 8 = dstBeg % 8)
    (hi : (dstBeg + 8 - 1) / 8 ≤ i ∧ i < dstEnd / 8)
    (ht : t i = s (i - (dstBeg + 8 - 1) / 8 + (srcBeg + 8 - 1) / 8)) :
    CopiedAt s t srcBeg dstBeg dstEnd i := by
  have hle := count_le s (i - (dstBeg + 8 - 1) / 8 + (srcBeg + 8 - 1) / 8)
  have hle' := count_le s i
  have hbefore : Granules.before 8 dstEnd i = 8 := Granules.before_of_lt hi.2
  have hbefore' : Granules.before 8 dstBeg i = 0 := by
    rw [Granules.before]
    omega
  generalize hj : i - (dstBeg + 8 - 1) / 8 + (srcBeg + 8 - 1) / 8 = j at *
  refine ⟨count s j, least_of_aligned halign (by omega) (by omega) (.inr (.inl rfl)) (by omega), ?_⟩
  · rw [outside, Granules.remove, hbefore, hbefore', if_neg (by omega)]
    have hcount : count t i = count s j := by rw [count, count, ht]
    omega

theorem CopiedAt.congr {t' : Shadow} (h : CopiedAt s t srcBeg dstBeg dstEnd i) (ht : t' i = t i) :
    CopiedAt s t' srcBeg dstBeg dstEnd i := by
  obtain ⟨u, hu, hcount⟩ := h
  exact ⟨u, hu, (count_congr ht).trans hcount⟩

theorem alignedCopy_copied (halign : srcBeg % 8 = dstBeg % 8)
    (hlen : srcEnd + dstBeg = dstEnd + srcBeg) (hcross : dstBeg / 8 < dstEnd / 8)
    (horder : dstBeg < srcBeg ∨ (srcEnd + 8 - 1) / 8 * 8 < dstBeg) (i : ℕ) :
    CopiedAt s (copyContainerLastGranuleAnnotations
      (copyMiddle (copyContainerFirstGranuleAnnotations s srcBeg dstBeg) srcBeg dstBeg dstEnd)
      srcEnd dstEnd) srcBeg dstBeg dstEnd i := by
  have hfirst (j : ℕ) (hj : j ≠ dstBeg / 8 ∨ dstBeg % 8 = 0) :
      copyContainerFirstGranuleAnnotations s srcBeg dstBeg j = s j := copyFirst_of_ne hj
  have hmiddle (j : ℕ) (hj : j < (dstBeg + 8 - 1) / 8 ∨ dstEnd / 8 ≤ j) :
      copyMiddle (copyContainerFirstGranuleAnnotations s srcBeg dstBeg) srcBeg dstBeg dstEnd j =
        copyContainerFirstGranuleAnnotations s srcBeg dstBeg j := by
    rw [copyMiddle_apply, if_neg (by omega)]
  by_cases hlast : i = dstEnd / 8 ∧ dstEnd % 8 ≠ 0
  · rw [hlast.1]
    apply copyLast_copied halign hlast.2 hlen hcross
    · rw [hmiddle _ (by omega), hfirst _ (by omega)]
    · rw [hmiddle _ (by omega), hfirst _ (by omega)]
  · refine CopiedAt.congr ?_ (copyLast_of_ne (by omega))
    by_cases hi : (dstBeg + 8 - 1) / 8 ≤ i ∧ i < dstEnd / 8
    · refine copyMiddle_copied halign hi ?_
      rw [copyMiddle_apply, if_pos hi, hfirst _ (by omega)]
    · refine CopiedAt.congr ?_ (hmiddle i (by omega))
      by_cases hi' : i = dstBeg / 8 ∧ dstBeg % 8 ≠ 0
      · rw [hi'.1]
        exact copyFirst_copied halign hi'.2 hcross rfl rfl
      · exact copiedAt_of_outside (by omega) (hfirst i (by omega))

theorem alignedReversedCopy_copied (halign : srcBeg % 8 = dstBeg % 8)
    (hlen : srcEnd + dstBeg = dstEnd + srcBeg) (hcross : dstBeg / 8 < dstEnd / 8)
    (horder : srcBeg < dstBeg) (i : ℕ) :
    CopiedAt s (copyContainerFirstGranuleAnnotations
      (copyMiddle (copyContainerLastGranuleAnnotations s srcEnd dstEnd) srcBeg dstBeg dstEnd)
      srcBeg dstBeg) srcBeg dstBeg dstEnd i := by
  have hlast (j : ℕ) (hj : j ≠ dstEnd / 8 ∨ dstEnd % 8 = 0) :
      copyContainerLastGranuleAnnotations s srcEnd dstEnd j = s j := copyLast_of_ne hj
  have hmiddle (j : ℕ) (hj : j < (dstBeg + 8 - 1) / 8 ∨ dstEnd / 8 ≤ j) :
      copyMiddle (copyContainerLastGranuleAnnotations s srcEnd dstEnd) srcBeg dstBeg dstEnd j =
        copyContainerLastGranuleAnnotations s srcEnd dstEnd j := by
    rw [copyMiddle_apply, if_neg (by omega)]
  by_cases hfirst : i = dstBeg / 8 ∧ dstBeg % 8 ≠ 0
  · rw [hfirst.1]
    apply copyFirst_copied halign hfirst.2 hcross
    · rw [hmiddle _ (by omega), hlast _ (by omega)]
    · rw [hmiddle _ (by omega), hlast _ (by omega)]
  · refine CopiedAt.congr ?_ (copyFirst_of_ne (by omega))
    by_cases hi : (dstBeg + 8 - 1) / 8 ≤ i ∧ i < dstEnd / 8
    · refine copyMiddle_copied halign hi ?_
      rw [copyMiddle_apply, if_pos hi, hlast _ (by omega)]
    · refine CopiedAt.congr ?_ (hmiddle i (by omega))
      by_cases hi' : i = dstEnd / 8 ∧ dstEnd % 8 ≠ 0
      · rw [hi'.1]
        exact copyLast_copied halign hi'.2 hlen hcross rfl rfl
      · exact copiedAt_of_outside (by omega) (hlast i (by omega))

theorem copied_self {b : ℕ} : accessible s \ Set.Ico dstBeg b ∪ copied s dstBeg dstBeg b =
    accessible s := by
  ext a
  simp only [Set.mem_union, Set.mem_sdiff, Set.mem_Ico, mem_copied]
  by_cases ha : dstBeg ≤ a ∧ a < b
  · simp [ha]
  · simp [ha]

theorem copied_empty : accessible s \ Set.Ico dstBeg dstBeg ∪ copied s srcBeg dstBeg dstBeg =
    accessible s := by
  ext a
  simp only [Set.mem_union, Set.mem_sdiff, Set.mem_Ico, mem_copied]
  have hfalse : ¬ (dstBeg ≤ a ∧ a < dstBeg) := by omega
  simp [hfalse]

/-- The accessible bytes of the destination are those of the source, filled up to granules. -/
theorem copyContiguousContainerAnnotations_accessible
    (hdetect : r.detectContainerOverflow = true) (hsrc : srcBeg ≤ srcEnd)
    (hlen : srcEnd + dstBeg = dstEnd + srcBeg) :
    ∃ s', copyContiguousContainerAnnotations r s srcBeg srcEnd dstBeg dstEnd = some s' ∧
      accessible s' = Granules.fill 8
        (accessible s \ Set.Ico dstBeg dstEnd ∪ copied s srcBeg dstBeg dstEnd) := by
  have hflag : ¬ r.detectContainerOverflow = false := by simp [hdetect]
  rw [copyContiguousContainerAnnotations, if_neg hflag, if_neg (by omega)]
  by_cases hsame : srcBeg = srcEnd ∨ srcBeg = dstBeg
  · rw [if_pos hsame]
    refine ⟨s, rfl, ?_⟩
    rcases hsame with heq | heq
    · have hempty : dstEnd = dstBeg := by omega
      rw [hempty, copied_empty, closed_accessible.fill_eq]
    · rw [heq, copied_self, closed_accessible.fill_eq]
  · have hne : dstBeg < dstEnd := by omega
    have hstart (lo : ℕ) : Done s s srcBeg dstBeg dstEnd lo lo :=
      ⟨fun i hlo hhi => absurd hlo (Nat.not_le.mpr hhi), fun _ _ => rfl⟩
    rw [if_neg hsame]
    dsimp only
    split_ifs with hslow hreversed hreversed
    · refine ⟨_, rfl, accessible_of_copiedAt ?_⟩
      exact slowReversedCopy_copied hne (by omega) (by omega) hlen (by omega) (by omega) (hstart _)
    · refine ⟨_, rfl, accessible_of_copiedAt ?_⟩
      simp only [roundUpTo] at hreversed
      exact slowCopy_copied hne (by omega) (by omega) (Nat.add_comm _ _) le_rfl (by omega)
        (hstart _)
    · refine ⟨_, rfl, accessible_of_copiedAt ?_⟩
      simp only [roundDownTo] at hslow
      exact alignedReversedCopy_copied (by omega) hlen (by omega) hreversed.1
    · refine ⟨_, rfl, accessible_of_copiedAt ?_⟩
      simp only [roundDownTo, roundUpTo] at hslow hreversed
      exact alignedCopy_copied (by omega) hlen (by omega) (by omega)

end Mair.AsanPoisoning
