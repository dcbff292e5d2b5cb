import Mair.AsanPoisoning.Containers

/-! # Copies of annotations

The annotations of a buffer are copied to one that may overlap it. The granules are visited from
the side where the source is still as it was. -/

namespace Mair.AsanPoisoning

def setContainerGranule (s : Shadow) (ptr n : ℕ) : Shadow :=
  s.store (ptr / 8)
    (if n = 8 then 0 else if n ≠ 0 then n else kAsanContiguousContainerOOBMagic)

def Shadow.memmove (s : Shadow) (dst src n : ℕ) : Shadow :=
  fun i => if dst ≤ i ∧ i < dst + n then s (i - dst + src) else s i

/-- The bytes of a granule of the destination are visited in order. -/
def scanGranule (s : Shadow) (granuleBeg : ℕ) : ℕ → ℕ → ℕ → ℕ → ℕ
  | 0, _, _, unpoisonedBytes => unpoisonedBytes
  | n + 1, srcPtr, dstPtr, unpoisonedBytes =>
      scanGranule s granuleBeg n (srcPtr + 1) (dstPtr + 1)
        (if addressIsPoisoned s srcPtr then unpoisonedBytes else dstPtr - granuleBeg + 1)

/-- The bytes of a granule of the destination are visited from its end. -/
def scanGranuleReversed (s : Shadow) (granuleBeg : ℕ) : ℕ → ℕ → ℕ → ℕ → ℕ
  | 0, _, _, unpoisonedBytes => unpoisonedBytes
  | n + 1, srcPtr, dstPtr, unpoisonedBytes =>
      scanGranuleReversed s granuleBeg n (srcPtr - 1) (dstPtr - 1)
        (if unpoisonedBytes = 0 ∧ addressIsPoisoned s (srcPtr - 1) = false then dstPtr - granuleBeg
        else unpoisonedBytes)

/-- Part of the first granule may lie before the destination. -/
def copyGranule (s : Shadow) (dstBeg granuleBeg unpoisonedBytes : ℕ) (whole : Bool) : Shadow :=
  if unpoisonedBytes ≠ 0 ∨ whole then setContainerGranule s granuleBeg unpoisonedBytes
  else if addressIsPoisoned s dstBeg = false then
    setContainerGranule s granuleBeg (dstBeg - granuleBeg)
  else s

/-- The first argument bounds the rounds; each visits at least one byte. -/
def slowCopyContainerAnnotations (dstBeg dstEnd : ℕ) : ℕ → Shadow → ℕ → ℕ → Shadow
  | 0, s, _, _ => s
  | n + 1, s, srcPtr, dstPtr =>
      if dstPtr < dstEnd then
        let granuleBeg := roundDownTo dstPtr 8
        let stop := min (granuleBeg + 8) dstEnd
        let unpoisonedBytes := scanGranule s granuleBeg (stop - dstPtr) srcPtr dstPtr 0
        slowCopyContainerAnnotations dstBeg dstEnd n
          (if stop = dstEnd ∧ dstEnd ≠ roundDownTo dstEnd 8 ∧ addressIsPoisoned s dstEnd = false
            then s
            else copyGranule s dstBeg granuleBeg unpoisonedBytes (decide (dstBeg ≤ granuleBeg)))
          (srcPtr + (stop - dstPtr)) stop
      else s

def slowReversedCopyContainerAnnotations (dstBeg dstEnd : ℕ) : ℕ → Shadow → ℕ → ℕ → Shadow
  | 0, s, _, _ => s
  | n + 1, s, srcPtr, dstPtr =>
      if dstBeg < dstPtr then
        let granuleBeg := roundDownTo (dstPtr - 1) 8
        let stop := max granuleBeg dstBeg
        let unpoisonedBytes := scanGranuleReversed s granuleBeg (dstPtr - stop) srcPtr dstPtr 0
        slowReversedCopyContainerAnnotations dstBeg dstEnd n
          (if roundDownTo dstEnd 8 ≤ stop ∧ addressIsPoisoned s dstEnd = false then s
            else copyGranule s dstBeg granuleBeg unpoisonedBytes (decide (granuleBeg = stop)))
          (srcPtr - (dstPtr - stop)) stop
      else s

def copyContainerFirstGranuleAnnotations (s : Shadow) (srcBeg dstBeg : ℕ) : Shadow :=
  let srcBegDown := roundDownTo srcBeg 8
  let dstBegDown := roundDownTo dstBeg 8
  if dstBegDown = dstBeg then s
  else if addressIsPoisoned s srcBeg = false then s.store (dstBegDown / 8) (s (srcBegDown / 8))
  else if addressIsPoisoned s dstBeg = false then
    setContainerGranule s dstBegDown (dstBeg - dstBegDown)
  else s

def copyContainerLastGranuleAnnotations (s : Shadow) (srcEnd dstEnd : ℕ) : Shadow :=
  let srcEndDown := roundDownTo srcEnd 8
  let dstEndDown := roundDownTo dstEnd 8
  if dstEndDown = dstEnd ∨ addressIsPoisoned s dstEnd = false then s
  else if addressIsPoisoned s srcEnd then s.store (dstEndDown / 8) (s (srcEndDown / 8))
  else setContainerGranule s dstEndDown (srcEnd - srcEndDown)

def copyMiddle (s : Shadow) (srcBeg dstBeg dstEnd : ℕ) : Shadow :=
  let dstBegUp := roundUpTo dstBeg 8
  let dstEndDown := roundDownTo dstEnd 8
  if dstBegUp < dstEndDown then
    s.memmove (dstBegUp / 8) (roundUpTo srcBeg 8 / 8) ((dstEndDown - dstBegUp) / 8)
  else s

def copyContiguousContainerAnnotations (r : Runtime) (s : Shadow)
    (srcBeg srcEnd dstBeg dstEnd : ℕ) : Option Shadow :=
  if r.detectContainerOverflow = false then some s
  else if srcEnd < srcBeg ∨ (dstEnd : ℤ) - dstBeg ≠ (srcEnd : ℤ) - srcBeg then none
  else if srcBeg = srcEnd ∨ srcBeg = dstBeg then some s
  else
    let copyInReversedOrder := srcBeg < dstBeg ∧ dstBeg ≤ roundUpTo srcEnd 8
    if srcBeg % 8 ≠ dstBeg % 8 ∨ roundDownTo (dstEnd - 1) 8 ≤ dstBeg then
      if copyInReversedOrder then
        some (slowReversedCopyContainerAnnotations dstBeg dstEnd (dstEnd - dstBeg) s srcEnd dstEnd)
      else some (slowCopyContainerAnnotations dstBeg dstEnd (dstEnd - dstBeg) s srcBeg dstBeg)
    else if copyInReversedOrder then
      some (copyContainerFirstGranuleAnnotations
        (copyMiddle (copyContainerLastGranuleAnnotations s srcEnd dstEnd) srcBeg dstBeg dstEnd)
        srcBeg dstBeg)
    else
      some (copyContainerLastGranuleAnnotations
        (copyMiddle (copyContainerFirstGranuleAnnotations s srcBeg dstBeg) srcBeg dstBeg dstEnd)
        srcEnd dstEnd)

variable {r : Runtime} {s t : Shadow} {srcBeg dstBeg dstEnd i u : ℕ}

/-! ## One granule -/

/-- Where the accessible bytes of the source land. -/
def copied (s : Shadow) (srcBeg dstBeg dstEnd : ℕ) : Set ℕ :=
  {a | (dstBeg ≤ a ∧ a < dstEnd) ∧ a - dstBeg + srcBeg ∈ accessible s}

theorem mem_copied {a : ℕ} : a ∈ copied s srcBeg dstBeg dstEnd ↔
    (dstBeg ≤ a ∧ a < dstEnd) ∧ a - dstBeg + srcBeg ∈ accessible s := Iff.rfl

/-- Granule `i` holds what the copy asks for. -/
def CopiedAt (s t : Shadow) (srcBeg dstBeg dstEnd i : ℕ) : Prop :=
  ∃ u, Granules.Least 8 (copied s srcBeg dstBeg dstEnd) i u ∧
    count t i = max (outside s dstBeg dstEnd i) u

theorem count_congr (h : t i = s i) : count t i = count s i := by rw [count, count, h]

theorem accessible_of_copiedAt (h : ∀ i, CopiedAt s t srcBeg dstBeg dstEnd i) :
    accessible t = Granules.fill 8
      (accessible s \ Set.Ico dstBeg dstEnd ∪ copied s srcBeg dstBeg dstEnd) := by
  rw [accessible_eq, Granules.within_of_least h, outside,
    Granules.within_remove (by decide) (count_le s), Granules.fill_fill_union, accessible_eq]

theorem copiedAt_of_outside (h : i < dstBeg / 8 ∨ dstEnd ≤ i * 8) (ht : t i = s i) :
    CopiedAt s t srcBeg dstBeg dstEnd i := by
  refine ⟨0, ⟨Nat.zero_le 8, fun hpos => absurd hpos (Nat.lt_irrefl 0), fun a ha hi => ?_⟩, ?_⟩
  · have hbounds := ha.1
    omega
  · have hle := count_le s i
    rw [count_congr ht, outside, Granules.remove, Granules.before, Granules.before]
    split_ifs <;> omega

theorem count_setContainerGranule {n : ℕ} (hn : n ≤ 8) :
    count (setContainerGranule s (i * 8) n) i = n := by
  rw [setContainerGranule, count_store, Nat.mul_div_cancel _ (Nat.succ_pos 7), if_pos rfl,
    kAsanContiguousContainerOOBMagic]
  split_ifs <;> omega

theorem setContainerGranule_of_ne {j n : ℕ} (h : j ≠ i) :
    setContainerGranule s (i * 8) n j = s j := by
  rw [setContainerGranule, Nat.mul_div_cancel _ (Nat.succ_pos 7)]
  exact if_neg h

/-! ## The bytes of a granule -/

/-- The scan ends with the last accessible byte. -/
theorem scanGranule_cases (t : Shadow) (granuleBeg n srcPtr dstPtr acc : ℕ) :
    scanGranule t granuleBeg n srcPtr dstPtr acc = acc ∧
        (∀ j, j < n → addressIsPoisoned t (srcPtr + j) = true) ∨
      ∃ j, j < n ∧ addressIsPoisoned t (srcPtr + j) = false ∧
        scanGranule t granuleBeg n srcPtr dstPtr acc = dstPtr + j - granuleBeg + 1 ∧
        ∀ j', j < j' → j' < n → addressIsPoisoned t (srcPtr + j') = true := by
  induction n generalizing srcPtr dstPtr acc with
  | zero => exact .inl ⟨rfl, fun j hj => absurd hj (Nat.not_lt_zero j)⟩
  | succ n ih =>
      rw [scanGranule]
      rcases ih (srcPtr + 1) (dstPtr + 1)
        (if addressIsPoisoned t srcPtr then acc else dstPtr - granuleBeg + 1) with
        ⟨hacc, hrest⟩ | ⟨j, hj, hfree, hlast, hrest⟩
      · have hrest' : ∀ j, 0 < j → j < n + 1 → addressIsPoisoned t (srcPtr + j) = true := by
          intro j hpos hj
          have h := hrest (j - 1) (by omega)
          rwa [show srcPtr + 1 + (j - 1) = srcPtr + j by omega] at h
        rw [hacc]
        cases hfirst : addressIsPoisoned t srcPtr with
        | true =>
            refine .inl ⟨rfl, fun j hj => ?_⟩
            rcases Nat.eq_zero_or_pos j with rfl | hpos
            · exact hfirst
            · exact hrest' j hpos hj
        | false => exact .inr ⟨0, Nat.succ_pos n, hfirst, rfl, hrest'⟩
      · refine .inr ⟨j + 1, by omega, ?_, ?_, fun j' hlt hj' => ?_⟩
        · rwa [Nat.add_right_comm, Nat.add_assoc] at hfree
        · rw [hlast]
          omega
        · have h := hrest (j' - 1) (by omega) (by omega)
          rwa [show srcPtr + 1 + (j' - 1) = srcPtr + j' by omega] at h

theorem scanGranuleReversed_of_pos (t : Shadow) (granuleBeg n srcPtr dstPtr : ℕ) {acc : ℕ}
    (h : 0 < acc) : scanGranuleReversed t granuleBeg n srcPtr dstPtr acc = acc := by
  induction n generalizing srcPtr dstPtr with
  | zero => rfl
  | succ n ih => rw [scanGranuleReversed, if_neg fun hzero => by omega, ih]

theorem scanGranuleReversed_cases (t : Shadow) (srcPtr : ℕ) {granuleBeg n dstPtr : ℕ}
    (hdst : granuleBeg + n ≤ dstPtr) :
    scanGranuleReversed t granuleBeg n srcPtr dstPtr 0 = 0 ∧
        (∀ j, j < n → addressIsPoisoned t (srcPtr - j - 1) = true) ∨
      ∃ j, j < n ∧ addressIsPoisoned t (srcPtr - j - 1) = false ∧
        scanGranuleReversed t granuleBeg n srcPtr dstPtr 0 = dstPtr - j - granuleBeg ∧
        ∀ j', j' < j → addressIsPoisoned t (srcPtr - j' - 1) = true := by
  induction n generalizing srcPtr dstPtr with
  | zero => exact .inl ⟨rfl, fun j hj => absurd hj (Nat.not_lt_zero j)⟩
  | succ n ih =>
      rw [scanGranuleReversed]
      cases hfirst : addressIsPoisoned t (srcPtr - 1) with
      | false =>
          rw [if_pos ⟨rfl, rfl⟩, scanGranuleReversed_of_pos _ _ _ _ _ (by omega)]
          exact .inr ⟨0, Nat.succ_pos n, hfirst, rfl, fun j' hj' => absurd hj' (Nat.not_lt_zero j')⟩
      | true =>
          rw [if_neg fun h => absurd h.2 (by decide)]
          rcases ih (srcPtr - 1) (show granuleBeg + n ≤ dstPtr - 1 by omega) with
            ⟨hzero, hrest⟩ | ⟨j, hj, hfree, hlast, hrest⟩
          · refine .inl ⟨hzero, fun j hj => ?_⟩
            rcases Nat.eq_zero_or_pos j with rfl | hpos
            · exact hfirst
            · have h := hrest (j - 1) (by omega)
              rwa [show srcPtr - 1 - (j - 1) - 1 = srcPtr - j - 1 by omega] at h
          · refine .inr ⟨j + 1, by omega, ?_, ?_, fun j' hj' => ?_⟩
            · rwa [show srcPtr - 1 - j - 1 = srcPtr - (j + 1) - 1 by omega] at hfree
            · rw [hlast]
              omega
            · rcases Nat.eq_zero_or_pos j' with rfl | hpos
              · exact hfirst
              · have h := hrest (j' - 1) (by omega)
                rwa [show srcPtr - 1 - (j' - 1) - 1 = srcPtr - j' - 1 by omega] at h

theorem least_copied {p : ℕ}
    (h : u = 0 ∧ (∀ b, dstBeg ≤ b → p * 8 ≤ b → b < p * 8 + 8 → b < dstEnd →
          addressIsPoisoned s (b - dstBeg + srcBeg) = true) ∨
      ∃ b, (dstBeg ≤ b ∧ p * 8 ≤ b ∧ b < p * 8 + 8 ∧ b < dstEnd) ∧
        addressIsPoisoned s (b - dstBeg + srcBeg) = false ∧ u = b - p * 8 + 1 ∧
        ∀ b', b < b' → b' < p * 8 + 8 → b' < dstEnd →
          addressIsPoisoned s (b' - dstBeg + srcBeg) = true) :
    Granules.Least 8 (copied s srcBeg dstBeg dstEnd) p u := by
  rcases h with ⟨rfl, hall⟩ | ⟨b, hb, hfree, rfl, hrest⟩
  · refine ⟨Nat.zero_le 8, fun hpos => absurd hpos (Nat.lt_irrefl 0), fun a ha hi => ?_⟩
    have hbad := hall a ha.1.1 (by omega) (by omega) ha.1.2
    exact absurd (ha.2.symm.trans hbad) (by decide)
  · refine ⟨by omega, fun _ => ⟨b, ⟨⟨hb.1, hb.2.2.2⟩, hfree⟩, by omega, by omega⟩,
      fun a ha hi => ?_⟩
    by_contra hlt
    have hbad := hrest a (by omega) (by omega) ha.1.2
    exact absurd (ha.2.symm.trans hbad) (by decide)

theorem copied_bounds {p : ℕ} (h : Granules.Least 8 (copied s srcBeg dstBeg dstEnd) p u)
    (hu : 0 < u) : Granules.before 8 dstBeg p < u ∧ u ≤ Granules.before 8 dstEnd p := by
  obtain ⟨a, ha, hquot, hrem⟩ := h.last hu
  have hbounds := ha.1
  rw [Granules.before, Granules.before]
  omega

/-- A granule with accessible bytes after the destination is left as it is. -/
theorem copiedAt_of_after {p : ℕ} (h : Granules.Least 8 (copied s srcBeg dstBeg dstEnd) p u)
    (hp : t p = s p) (hafter : Granules.before 8 dstEnd p < count s p) :
    CopiedAt s t srcBeg dstBeg dstEnd p := by
  refine ⟨u, h, ?_⟩
  rw [count_congr hp, outside, Granules.remove, if_pos hafter]
  rcases Nat.eq_zero_or_pos u with rfl | hu
  · omega
  · have hbounds := copied_bounds h hu
    omega

theorem copyGranule_copied {p : ℕ} {whole : Bool}
    (h : Granules.Least 8 (copied s srcBeg dstBeg dstEnd) p u) (hp : t p = s p)
    (hafter : count s p ≤ Granules.before 8 dstEnd p) (hwhole : whole = true ↔ dstBeg ≤ p * 8)
    (hbeg : dstBeg < p * 8 + 8) :
    CopiedAt s (copyGranule t dstBeg (p * 8) u whole) srcBeg dstBeg dstEnd p := by
  refine ⟨u, h, ?_⟩
  have hle := count_le s p
  rw [outside, Granules.remove, if_neg (Nat.not_lt.mpr hafter), copyGranule]
  split_ifs with hset hfree
  · rw [count_setContainerGranule h.le]
    rcases Nat.eq_zero_or_pos u with rfl | hu
    · have hzero : dstBeg ≤ p * 8 := hwhole.mp (by simpa using hset)
      rw [Granules.before]
      omega
    · have hbounds := copied_bounds h hu
      omega
  · have hu : u = 0 ∧ ¬ dstBeg ≤ p * 8 := by
      rw [← hwhole]
      simpa using hset
    have hquot : dstBeg / 8 = p := by omega
    rw [count_setContainerGranule (by omega), Granules.before]
    rw [addressIsPoisoned_eq_false, hquot, count_congr hp] at hfree
    omega
  · have hu : u = 0 ∧ ¬ dstBeg ≤ p * 8 := by
      rw [← hwhole]
      simpa using hset
    have hquot : dstBeg / 8 = p := by omega
    rw [Bool.not_eq_false, addressIsPoisoned_eq_true, hquot, count_congr hp] at hfree
    rw [count_congr hp, Granules.before]
    omega

theorem copyGranule_of_ne {p j : ℕ} {whole : Bool} (h : j ≠ p) :
    copyGranule t dstBeg (p * 8) u whole j = t j := by
  rw [copyGranule]
  split_ifs
  · exact setContainerGranule_of_ne h
  · exact setContainerGranule_of_ne h
  · rfl

/-! ## Byte by byte -/

theorem addressIsPoisoned_congr {a : ℕ} (h : t (a / 8) = s (a / 8)) :
    addressIsPoisoned t a = addressIsPoisoned s a := by
  rw [addressIsPoisoned, addressIsPoisoned, h]

/-- The granules from `lo` to `hi` hold the copy, the others are as they were. -/
structure Done (s t : Shadow) (srcBeg dstBeg dstEnd lo hi : ℕ) : Prop where
  done : ∀ i, lo ≤ i → i < hi → CopiedAt s t srcBeg dstBeg dstEnd i
  rest : ∀ i, i < lo ∨ hi ≤ i → t i = s i

theorem Done.finish {lo hi : ℕ} (h : Done s t srcBeg dstBeg dstEnd lo hi) (hlo : lo ≤ dstBeg / 8)
    (hhi : dstEnd ≤ hi * 8) (i : ℕ) : CopiedAt s t srcBeg dstBeg dstEnd i := by
  by_cases hi' : lo ≤ i ∧ i < hi
  · exact h.done i hi'.1 hi'.2
  · exact copiedAt_of_outside (by omega) (h.rest i (by omega))

/-- A granule next to the finished ones is left as it is or written. -/
theorem Done.step {lo hi lo' hi' p : ℕ} (skip whole : Bool)
    (h : Done s t srcBeg dstBeg dstEnd lo hi)
    (hp : lo' = p ∧ lo = p + 1 ∧ hi' = hi ∨ hi' = p + 1 ∧ hi = p ∧ lo' = lo)
    (hle : lo ≤ hi) (hleast : Granules.Least 8 (copied s srcBeg dstBeg dstEnd) p u)
    (hskip : skip = true ↔ Granules.before 8 dstEnd p < count s p)
    (hwhole : whole = true ↔ dstBeg ≤ p * 8) (hbeg : dstBeg < p * 8 + 8) :
    Done s (if skip then t else copyGranule t dstBeg (p * 8) u whole) srcBeg dstBeg dstEnd lo'
      hi' := by
  have hsame : t p = s p := h.rest p (by omega)
  have hat : CopiedAt s (if skip then t else copyGranule t dstBeg (p * 8) u whole) srcBeg dstBeg
      dstEnd p := by
    split_ifs with hcond
    · exact copiedAt_of_after hleast hsame (hskip.mp hcond)
    · exact copyGranule_copied hleast hsame (by
        rw [hskip] at hcond
        omega) hwhole hbeg
  have hother (j : ℕ) (hj : j ≠ p) :
      (if skip then t else copyGranule t dstBeg (p * 8) u whole) j = t j := by
    split_ifs
    · rfl
    · exact copyGranule_of_ne hj
  constructor
  · intro i hlo hhi
    by_cases hi : i = p
    · rw [hi]
      exact hat
    · obtain ⟨v, hv, hcount⟩ := h.done i (by omega) (by omega)
      exact ⟨v, hv, (count_congr (hother i hi)).trans hcount⟩
  · intro i hi
    exact (hother i (by omega)).trans (h.rest i (by omega))

theorem slowCopy_copied (hne : dstBeg < dstEnd)
    (horder : ∀ a, dstBeg ≤ a → a < dstEnd →
      (a - dstBeg + srcBeg) / 8 < dstBeg / 8 ∨ a / 8 ≤ (a - dstBeg + srcBeg) / 8)
    {n srcPtr dstPtr p : ℕ} (hfuel : dstEnd ≤ dstPtr + n)
    (hsrc : srcPtr + dstBeg = dstPtr + srcBeg) (hpos : dstBeg / 8 ≤ p)
    (hdst : dstPtr = max dstBeg (p * 8) ∨ dstEnd ≤ p * 8 ∧ dstPtr = dstEnd)
    (hdone : Done s t srcBeg dstBeg dstEnd (dstBeg / 8) p) (i : ℕ) :
    CopiedAt s (slowCopyContainerAnnotations dstBeg dstEnd n t srcPtr dstPtr) srcBeg dstBeg dstEnd
      i := by
  induction n generalizing t srcPtr dstPtr p with
  | zero => exact hdone.finish le_rfl (by omega) i
  | succ n ih =>
      rw [slowCopyContainerAnnotations]
      split_ifs with hlt
      · have hptr : dstPtr = max dstBeg (p * 8) := by omega
        have hquot : dstPtr / 8 = p := by omega
        simp only [roundDownTo, hquot]
        have hread (j : ℕ) (hj : dstPtr + j < dstEnd) (hj' : dstPtr + j < p * 8 + 8) :
            addressIsPoisoned t (srcPtr + j) =
              addressIsPoisoned s (dstPtr + j - dstBeg + srcBeg) := by
          have heq : srcPtr + j = dstPtr + j - dstBeg + srcBeg := by omega
          have ho := horder (dstPtr + j) (by omega) hj
          rw [heq]
          exact addressIsPoisoned_congr (hdone.rest _ (by omega))
        have hleast : Granules.Least 8 (copied s srcBeg dstBeg dstEnd) p (scanGranule t (p * 8)
            (min (p * 8 + 8) dstEnd - dstPtr) srcPtr dstPtr 0) := by
          apply least_copied
          rcases scanGranule_cases t (p * 8) (min (p * 8 + 8) dstEnd - dstPtr) srcPtr dstPtr 0 with
            ⟨hzero, hall⟩ | ⟨j, hj, hfree, hlast, hall⟩
          · refine .inl ⟨hzero, fun b hb hb' hb₁ hb₂ => ?_⟩
            have h := hall (b - dstPtr) (by omega)
            rwa [hread _ (by omega) (by omega), show dstPtr + (b - dstPtr) = b by omega] at h
          · rw [hread j (by omega) (by omega)] at hfree
            refine .inr ⟨dstPtr + j, by omega, hfree, hlast, fun b hb hb₁ hb₂ => ?_⟩
            have h := hall (b - dstPtr) (by omega) (by omega)
            rwa [hread _ (by omega) (by omega), show dstPtr + (b - dstPtr) = b by omega] at h
        have hafter : (min (p * 8 + 8) dstEnd = dstEnd ∧ dstEnd ≠ dstEnd / 8 * 8 ∧
            addressIsPoisoned t dstEnd = false) ↔ Granules.before 8 dstEnd p < count s p := by
          have hle := count_le s p
          rcases Nat.lt_or_ge p (dstEnd / 8) with hp | hp
          · rw [Granules.before_of_lt hp]
            omega
          · have hp' : dstEnd / 8 = p := by omega
            rw [addressIsPoisoned_congr (hdone.rest _ (by omega)), addressIsPoisoned_eq_false, hp',
              ← hp', Granules.before_div (by decide)]
            omega
        have hstep := Done.step (decide (min (p * 8 + 8) dstEnd = dstEnd ∧
          dstEnd ≠ dstEnd / 8 * 8 ∧ addressIsPoisoned t dstEnd = false))
          (decide (dstBeg ≤ p * 8)) hdone (.inr ⟨rfl, rfl, rfl⟩) hpos hleast
          (decide_eq_true_iff.trans hafter) decide_eq_true_iff (by omega)
        simp only [decide_eq_true_eq] at hstep
        exact ih (p := p + 1) (by omega) (by omega) (by omega) (by omega) hstep
      · exact hdone.finish le_rfl (by omega) i

theorem slowReversedCopy_copied (hne : dstBeg < dstEnd)
    (horder : ∀ a, dstBeg ≤ a → a < dstEnd → (a - dstBeg + srcBeg) / 8 ≤ a / 8)
    {n srcPtr dstPtr q : ℕ} (hfuel : dstPtr ≤ dstBeg + n)
    (hsrc : srcPtr + dstBeg = dstPtr + srcBeg) (hq : q * 8 < dstEnd + 8)
    (hdst : dstPtr = min dstEnd (q * 8) ∨ q ≤ dstBeg / 8 ∧ dstPtr = dstBeg)
    (hdone : Done s t srcBeg dstBeg dstEnd q ((dstEnd + 7) / 8)) (i : ℕ) :
    CopiedAt s (slowReversedCopyContainerAnnotations dstBeg dstEnd n t srcPtr dstPtr) srcBeg dstBeg
      dstEnd i := by
  induction n generalizing t srcPtr dstPtr q with
  | zero => exact hdone.finish (by omega) (by omega) i
  | succ n ih =>
      rw [slowReversedCopyContainerAnnotations]
      split_ifs with hlt
      · obtain ⟨p, rfl⟩ : ∃ p, q = p + 1 := ⟨q - 1, by omega⟩
        have hptr : dstPtr = min dstEnd ((p + 1) * 8) := by omega
        have hquot : (dstPtr - 1) / 8 = p := by omega
        simp only [roundDownTo, hquot]
        have hread (j : ℕ) (hj : max (p * 8) dstBeg + j < dstPtr) :
            addressIsPoisoned t (srcPtr - j - 1) =
              addressIsPoisoned s (dstPtr - j - 1 - dstBeg + srcBeg) := by
          have heq : srcPtr - j - 1 = dstPtr - j - 1 - dstBeg + srcBeg := by omega
          have ho := horder (dstPtr - j - 1) (by omega) (by omega)
          rw [heq]
          exact addressIsPoisoned_congr (hdone.rest _ (by omega))
        have hleast : Granules.Least 8 (copied s srcBeg dstBeg dstEnd) p
            (scanGranuleReversed t (p * 8) (dstPtr - max (p * 8) dstBeg) srcPtr dstPtr 0) := by
          apply least_copied
          rcases scanGranuleReversed_cases t srcPtr
            (show p * 8 + (dstPtr - max (p * 8) dstBeg) ≤ dstPtr by omega) with
            ⟨hzero, hall⟩ | ⟨j, hj, hfree, hlast, hall⟩
          · refine .inl ⟨hzero, fun b hb hb' hb₁ hb₂ => ?_⟩
            have h := hall (dstPtr - b - 1) (by omega)
            rwa [hread _ (by omega), show dstPtr - (dstPtr - b - 1) - 1 = b by omega] at h
          · rw [hread j (by omega)] at hfree
            refine .inr ⟨dstPtr - j - 1, by omega, hfree, by omega, fun b hb hb₁ hb₂ => ?_⟩
            have h := hall (dstPtr - b - 1) (by omega)
            rwa [hread _ (by omega), show dstPtr - (dstPtr - b - 1) - 1 = b by omega] at h
        have hafter : (dstEnd / 8 * 8 ≤ max (p * 8) dstBeg ∧
            addressIsPoisoned t dstEnd = false) ↔ Granules.before 8 dstEnd p < count s p := by
          have hle := count_le s p
          rcases Nat.lt_or_ge p (dstEnd / 8) with hp | hp
          · rw [Granules.before_of_lt hp]
            omega
          · have hp' : dstEnd / 8 = p := by omega
            rw [addressIsPoisoned_congr (hdone.rest _ (by omega)), addressIsPoisoned_eq_false, hp',
              ← hp', Granules.before_div (by decide)]
            omega
        have hwhole : p * 8 = max (p * 8) dstBeg ↔ dstBeg ≤ p * 8 := by omega
        have hstep := Done.step (decide (dstEnd / 8 * 8 ≤ max (p * 8) dstBeg ∧
          addressIsPoisoned t dstEnd = false)) (decide (p * 8 = max (p * 8) dstBeg)) hdone
          (.inl ⟨rfl, rfl, rfl⟩) (by omega) hleast (decide_eq_true_iff.trans hafter)
          (decide_eq_true_iff.trans hwhole) (by omega)
        simp only [decide_eq_true_eq] at hstep
        exact ih (q := p) (by omega) (by omega) (by omega) (by omega) hstep
      · exact hdone.finish (by omega) (by omega) i

end Mair.AsanPoisoning
