import Mair.AsanPoisoning.Annotations

/-! # Verification of containers

The runtime verifies a container by looking at the bytes of its storage. -/

namespace Mair.AsanPoisoning

def findBadAddressFrom (s : Shadow) (poisoned : Bool) : ℕ → ℕ → Option ℕ
  | 0, _ => none
  | n + 1, i =>
      if addressIsPoisoned s i ≠ poisoned then some i else findBadAddressFrom s poisoned n (i + 1)

def kMaxRangeToCheck : ℕ := 32

/-- The ends of a long range are looked at first. -/
def findBadAddress (s : Shadow) (begin stop : ℕ) (poisoned : Bool) : Option (Option ℕ) :=
  if ¬ begin ≤ stop then none
  else
    some ((if kMaxRangeToCheck * 2 < stop - begin then
        (findBadAddressFrom s poisoned kMaxRangeToCheck begin).or
          (findBadAddressFrom s poisoned kMaxRangeToCheck (stop - kMaxRangeToCheck))
      else none).or (findBadAddressFrom s poisoned (stop - begin) begin))

/-- The last result is the last argument when nothing bad was found before. -/
def orElseFind (bad : Option (Option ℕ)) (next : Option (Option ℕ)) : Option (Option ℕ) :=
  bad.bind fun bad => match bad with
    | some bad => some (some bad)
    | none => next

def annotationsEnd (s : Shadow) (storageEnd : ℕ) : ℕ :=
  if addrIsAlignedByGranularity storageEnd = false ∧ addressIsPoisoned s storageEnd = false then
    roundDownTo storageEnd 8
  else storageEnd

def contiguousContainerFindBadAddress (r : Runtime) (s : Shadow) (beg mid stop : ℕ) :
    Option (Option ℕ) :=
  if r.detectContainerOverflow = false then some none
  else if ¬ beg ≤ mid ∨ ¬ mid ≤ stop then none
  else
    let last := annotationsEnd s stop
    let beg := min beg last
    let mid := min mid last
    orElseFind (findBadAddress s beg mid false)
      (orElseFind (findBadAddress s mid last true) (findBadAddress s last stop false))

def verifyContiguousContainer (r : Runtime) (s : Shadow) (beg mid stop : ℕ) : Option Bool :=
  (contiguousContainerFindBadAddress r s beg mid stop).map Option.isNone

def doubleEndedContiguousContainerFindBadAddress (r : Runtime) (s : Shadow)
    (storageBeg containerBeg containerEnd storageEnd : ℕ) : Option (Option ℕ) :=
  if r.detectContainerOverflow = false then some none
  else
    let beg := if containerBeg ≠ containerEnd then max storageBeg (roundDownTo containerBeg 8)
      else containerBeg
    let last := annotationsEnd s storageEnd
    let storageBeg := min storageBeg last
    let beg := min beg last
    let stop := min containerEnd last
    orElseFind (findBadAddress s storageBeg beg true)
      (orElseFind (findBadAddress s beg stop false)
        (orElseFind (findBadAddress s stop last true) (findBadAddress s last storageEnd false)))

def verifyDoubleEndedContiguousContainer (r : Runtime) (s : Shadow)
    (storageBeg containerBeg containerEnd storageEnd : ℕ) : Option Bool :=
  (doubleEndedContiguousContainerFindBadAddress r s storageBeg containerBeg containerEnd
    storageEnd).map Option.isNone

variable {r : Runtime} {s : Shadow} {poisoned : Bool} {begin stop : ℕ}

/-! ## Ranges -/

theorem findBadAddressFrom_eq_none {n i : ℕ} : findBadAddressFrom s poisoned n i = none ↔
    ∀ a, i ≤ a → a < i + n → addressIsPoisoned s a = poisoned := by
  induction n generalizing i with
  | zero =>
      rw [findBadAddressFrom]
      exact ⟨fun _ a ha ha' => absurd ha (by omega), fun _ => rfl⟩
  | succ n ih =>
      rw [findBadAddressFrom]
      split_ifs with hbad
      · exact ⟨fun h => absurd h (by simp), fun h => absurd (h i le_rfl (by omega)) hbad⟩
      · rw [not_not] at hbad
        rw [ih]
        refine ⟨fun h a ha ha' => ?_, fun h a ha ha' => h a (by omega) (by omega)⟩
        rcases Nat.eq_or_lt_of_le ha with rfl | hlt
        · exact hbad
        · exact h a hlt (by omega)

/-- The search comes to an end and finds nothing exactly when the statement holds. -/
def Decides (search : Option (Option ℕ)) (P : Prop) : Prop :=
  ∃ bad, search = some bad ∧ (bad = none ↔ P)

theorem Decides.orElse {first next : Option (Option ℕ)} {P Q : Prop} (h : Decides first P)
    (h' : Decides next Q) : Decides (orElseFind first next) (P ∧ Q) := by
  obtain ⟨bad, rfl, hbad⟩ := h
  cases bad with
  | some a =>
      refine ⟨some a, rfl, ?_⟩
      rw [← hbad]
      simp
  | none =>
      obtain ⟨bad', rfl, hbad'⟩ := h'
      exact ⟨bad', rfl, hbad'.trans ⟨fun hq => ⟨hbad.mp rfl, hq⟩, fun hpq => hpq.2⟩⟩

theorem findBadAddress_decides (s : Shadow) (poisoned : Bool) (hle : begin ≤ stop) :
    Decides (findBadAddress s begin stop poisoned)
      (∀ a, begin ≤ a → a < stop → addressIsPoisoned s a = poisoned) := by
  rw [findBadAddress, if_neg (not_not.mpr hle)]
  refine ⟨_, rfl, ?_⟩
  rw [Option.or_eq_none_iff, findBadAddressFrom_eq_none,
    show begin + (stop - begin) = stop by omega]
  refine ⟨fun h => h.2, fun h => ⟨?_, h⟩⟩
  split_ifs with hlong
  · rw [Option.or_eq_none_iff, findBadAddressFrom_eq_none, findBadAddressFrom_eq_none]
    simp only [kMaxRangeToCheck] at hlong ⊢
    exact ⟨fun a ha ha' => h a ha (by omega), fun a ha ha' => h a (by omega) (by omega)⟩
  · rfl

/-! ## Containers -/

variable {storageBeg storageEnd containerBeg containerEnd : ℕ}

/-- Bytes of the storage from here on share their granule with accessible bytes after it. -/
theorem annotationsEnd_cases (s : Shadow) (storageEnd : ℕ) :
    annotationsEnd s storageEnd = storageEnd / 8 * 8 ∧ storageEnd % 8 ≠ 0 ∧
        storageEnd ∈ accessible s ∨
      annotationsEnd s storageEnd = storageEnd ∧
        (storageEnd % 8 = 0 ∨ storageEnd ∉ accessible s) := by
  have haligned : addrIsAlignedByGranularity storageEnd = false ↔ storageEnd % 8 ≠ 0 :=
    beq_eq_false_iff_ne
  rw [annotationsEnd]
  split_ifs with h
  · exact .inl ⟨rfl, haligned.mp h.1, h.2⟩
  · refine .inr ⟨rfl, ?_⟩
    rwa [haligned, not_and_or, not_not] at h

/-- No byte before the last granule is accessible for the sake of bytes after the storage. -/
theorem not_mem_fill_outside {a : ℕ} (ha : storageBeg ≤ a)
    (hlast : a < annotationsEnd s storageEnd) :
    a ∉ Granules.fill 8 (accessible s \ Set.Ico storageBeg storageEnd) := by
  intro hmem
  obtain ⟨b, hb, hquot, hle⟩ := hmem
  have hafter : storageEnd ≤ b := by
    by_contra hlt
    exact hb.2 ⟨ha.trans hle, Nat.not_le.mp hlt⟩
  rcases annotationsEnd_cases s storageEnd with ⟨heq, hunaligned, hmem⟩ | ⟨heq, haligned⟩
  · rw [heq] at hlast
    omega
  · rw [heq] at hlast
    rcases haligned with haligned | hpoisoned
    · omega
    · exact hpoisoned (closed_accessible storageEnd b hb.1 (by omega) hafter)

theorem mem_of_annotationsEnd_le {a : ℕ} (hle : annotationsEnd s storageEnd ≤ a)
    (hlt : a < storageEnd) : a / 8 = storageEnd / 8 ∧ storageEnd ∈ accessible s := by
  rcases annotationsEnd_cases s storageEnd with ⟨heq, hunaligned, hmem⟩ | ⟨heq, haligned⟩
  · exact ⟨by omega, hmem⟩
  · omega

/-- The state of a verified storage, byte by byte. -/
theorem eq_annotatedBytes_iff_forall (hbeg : storageBeg ≤ containerBeg)
    (hend : containerEnd ≤ storageEnd) :
    accessible s = annotatedBytes s storageBeg storageEnd containerBeg containerEnd ↔
      ∀ a, storageBeg ≤ a → a < annotationsEnd s storageEnd →
        (a ∈ accessible s ↔ containerBeg < containerEnd ∧ containerBeg / 8 * 8 ≤ a ∧
          a < containerEnd) := by
  have hshared (a : ℕ) (hle : annotationsEnd s storageEnd ≤ a) (hlt : a < storageEnd) :
      a ∈ accessible s := by
    have hlast := mem_of_annotationsEnd_le hle hlt
    exact closed_accessible a storageEnd hlast.2 hlast.1 hlt.le
  rw [annotatedBytes, Granules.fill_union]
  constructor
  · intro h a ha hlast
    rw [← Granules.mem_fill_Ico]
    constructor
    · intro hmem
      rw [h] at hmem
      rcases hmem with hmem | hmem
      · exact absurd hmem (not_mem_fill_outside ha hlast)
      · exact hmem
    · intro hmem
      rw [h]
      exact .inr hmem
  · intro h
    apply Set.Subset.antisymm
    · intro a ha
      by_cases hstorage : storageBeg ≤ a ∧ a < storageEnd
      · rcases Nat.lt_or_ge a (annotationsEnd s storageEnd) with hlast | hlast
        · exact .inr (Granules.mem_fill_Ico.mpr ((h a hstorage.1 hlast).mp ha))
        · obtain ⟨hquot, hmem⟩ := mem_of_annotationsEnd_le hlast hstorage.2
          exact .inl ⟨storageEnd, ⟨hmem, fun h => absurd h.2 (Nat.lt_irrefl _)⟩, hquot,
            hstorage.2.le⟩
      · exact .inl (Granules.subset_fill ⟨ha, hstorage⟩)
    · apply Set.union_subset
      · exact Granules.fill_subset closed_accessible Set.sdiff_subset
      · apply Granules.fill_subset closed_accessible
        intro a ha
        rcases Nat.lt_or_ge a (annotationsEnd s storageEnd) with hlast | hlast
        · have hle := ha.1
          exact (h a (hbeg.trans hle) hlast).mpr ⟨hle.trans_lt ha.2, by omega, ha.2⟩
        · exact hshared a hlast (ha.2.trans_le hend)

theorem annotationsEnd_le : annotationsEnd s storageEnd ≤ storageEnd := by
  rcases annotationsEnd_cases s storageEnd with ⟨heq, -, -⟩ | ⟨heq, -⟩
  · omega
  · exact heq.le

theorem verifyDoubleEnded_decides (hdetect : r.detectContainerOverflow = true)
    (hbeg : storageBeg ≤ containerBeg) (hcontainer : containerBeg ≤ containerEnd)
    (hend : containerEnd ≤ storageEnd) :
    Decides (doubleEndedContiguousContainerFindBadAddress r s storageBeg containerBeg containerEnd
        storageEnd)
      (accessible s = annotatedBytes s storageBeg storageEnd containerBeg containerEnd) := by
  have hflag : ¬ r.detectContainerOverflow = false := by simp [hdetect]
  have hlast : annotationsEnd s storageEnd ≤ storageEnd := annotationsEnd_le
  have hshared (a : ℕ) (hle : annotationsEnd s storageEnd ≤ a) (hlt : a < storageEnd) :
      addressIsPoisoned s a = false := by
    have hat := mem_of_annotationsEnd_le hle hlt
    exact closed_accessible a storageEnd hat.2 hat.1 hlt.le
  rw [doubleEndedContiguousContainerFindBadAddress, if_neg hflag]
  dsimp only [roundDownTo]
  generalize hbeg' : (if containerBeg ≠ containerEnd then max storageBeg (containerBeg / 8 * 8)
    else containerBeg) = beg
  have hcases : containerBeg = containerEnd ∧ beg = containerBeg ∨
      containerBeg < containerEnd ∧ beg = max storageBeg (containerBeg / 8 * 8) := by
    split_ifs at hbeg' <;> omega
  generalize hstop : annotationsEnd s storageEnd = last at *
  obtain ⟨bad, hbad, hiff⟩ :=
    (findBadAddress_decides s true
        (show min storageBeg last ≤ min beg last by omega)).orElse
      ((findBadAddress_decides s false
          (show min beg last ≤ min containerEnd last by omega)).orElse
        ((findBadAddress_decides s true
            (show min containerEnd last ≤ last by omega)).orElse
          (findBadAddress_decides s false hlast)))
  refine ⟨bad, hbad, hiff.trans ?_⟩
  rw [eq_annotatedBytes_iff_forall hbeg hend, hstop]
  simp only [mem_accessible]
  constructor
  · intro h a ha halast
    obtain ⟨hbefore, hin, hafter, -⟩ := h
    rcases Nat.lt_or_ge a beg with hlt | hge
    · rw [hbefore a (by omega) (by omega)]
      exact iff_of_false (by decide) (by omega)
    · rcases Nat.lt_or_ge a containerEnd with hlt | hge'
      · rw [hin a (by omega) (by omega)]
        exact iff_of_true rfl (by omega)
      · rw [hafter a (by omega) (by omega)]
        exact iff_of_false (by decide) (by omega)
  · intro h
    refine ⟨fun a ha ha' => ?_, fun a ha ha' => ?_, fun a ha ha' => ?_, hshared⟩
    · have hat := h a (by omega) (by omega)
      exact Bool.eq_true_of_not_eq_false fun hfree => absurd (hat.mp hfree) (by omega)
    · exact (h a (by omega) (by omega)).mpr (by omega)
    · have hat := h a (by omega) (by omega)
      exact Bool.eq_true_of_not_eq_false fun hfree => absurd (hat.mp hfree) (by omega)

theorem verifyContiguous_decides (hdetect : r.detectContainerOverflow = true)
    (hbeg : storageBeg ≤ containerEnd) (hend : containerEnd ≤ storageEnd) :
    Decides (contiguousContainerFindBadAddress r s storageBeg containerEnd storageEnd)
      (accessible s = annotatedBytes s storageBeg storageEnd storageBeg containerEnd) := by
  have hflag : ¬ r.detectContainerOverflow = false := by simp [hdetect]
  have hdouble := verifyDoubleEnded_decides (s := s) hdetect le_rfl hbeg hend
  rw [doubleEndedContiguousContainerFindBadAddress, if_neg hflag] at hdouble
  rw [contiguousContainerFindBadAddress, if_neg hflag, if_neg (by omega)]
  have hsame : (if storageBeg ≠ containerEnd then max storageBeg (roundDownTo storageBeg 8)
      else storageBeg) = storageBeg := by
    split_ifs
    · exact max_eq_left (Nat.div_mul_le_self _ _)
    · rfl
  have hempty (a : ℕ) : findBadAddress s a a true = some none := by
    simp [findBadAddress, findBadAddressFrom]
  dsimp only at hdouble ⊢
  rw [hsame, hempty] at hdouble
  exact hdouble

/-- The runtime accepts a container exactly when its storage is annotated as it says. -/
theorem verifyDoubleEndedContiguousContainer_iff (hdetect : r.detectContainerOverflow = true)
    (hbeg : storageBeg ≤ containerBeg) (hcontainer : containerBeg ≤ containerEnd)
    (hend : containerEnd ≤ storageEnd) :
    ∃ answer, verifyDoubleEndedContiguousContainer r s storageBeg containerBeg containerEnd
        storageEnd = some answer ∧
      (answer = true ↔
        accessible s = annotatedBytes s storageBeg storageEnd containerBeg containerEnd) := by
  obtain ⟨bad, hbad, hiff⟩ := verifyDoubleEnded_decides (s := s) hdetect hbeg hcontainer hend
  refine ⟨bad.isNone, ?_, Option.isNone_iff_eq_none.trans hiff⟩
  rw [verifyDoubleEndedContiguousContainer, hbad]
  rfl

theorem verifyDoubleEndedContiguousContainer_iff_full : ∃ answer,
    verifyDoubleEndedContiguousContainer exampleRuntime (fun _ => 0) 16 19 25 27 = some answer ∧
      (answer = true ↔ accessible (fun _ => 0) = annotatedBytes (fun _ => 0) 16 27 19 25) :=
  verifyDoubleEndedContiguousContainer_iff rfl (by decide) (by decide) (by decide)

theorem verifyContiguousContainer_iff (hdetect : r.detectContainerOverflow = true)
    (hbeg : storageBeg ≤ containerEnd) (hend : containerEnd ≤ storageEnd) :
    ∃ answer, verifyContiguousContainer r s storageBeg containerEnd storageEnd = some answer ∧
      (answer = true ↔
        accessible s = annotatedBytes s storageBeg storageEnd storageBeg containerEnd) := by
  obtain ⟨bad, hbad, hiff⟩ := verifyContiguous_decides (s := s) hdetect hbeg hend
  refine ⟨bad.isNone, ?_, Option.isNone_iff_eq_none.trans hiff⟩
  rw [verifyContiguousContainer, hbad]
  rfl

end Mair.AsanPoisoning
