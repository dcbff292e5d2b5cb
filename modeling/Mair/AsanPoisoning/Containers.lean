import Mair.AsanPoisoning.Shadow

/-! # Annotations of containers

A container owns a storage and keeps its elements in one interval of it. The rest of the storage
is poisoned, as far as the granules it shares with other memory allow. -/

namespace Mair.AsanPoisoning

/-- The interval of the elements before and after a change. -/
structure Bounds where
  oldBeg : ℕ
  oldEnd : ℕ
  newBeg : ℕ
  newEnd : ℕ

def Bounds.map (b : Bounds) (f : ℕ → ℕ) : Bounds :=
  ⟨f b.oldBeg, f b.oldEnd, f b.newBeg, f b.newEnd⟩

/-- The last granule is left alone when a byte after the storage may be accessed. -/
def fixUnalignedEnd (s : Shadow) (storageEnd : ℕ) (b : Bounds) : Bounds :=
  if addrIsAlignedByGranularity storageEnd = false ∧
      (b.oldEnd ≠ b.newEnd ∧ roundDownTo storageEnd 8 < max b.oldEnd b.newEnd ∨
        b.oldBeg ≠ b.newBeg ∧ roundDownTo storageEnd 8 < max b.oldBeg b.newBeg) ∧
      addressIsPoisoned s storageEnd = false then
    b.map (min (roundDownTo storageEnd 8))
  else b

/-- The bytes before the storage stay accessible when its first granule is emptied. -/
def fixUnalignedBeg (s : Shadow) (storageBeg : ℕ) (b : Bounds) : Shadow × Bounds :=
  if addrIsAlignedByGranularity storageBeg = false ∧
      (b.newBeg = b.newEnd ∨ roundUpTo storageBeg 8 ≤ b.newBeg) ∧ b.oldBeg ≠ b.oldEnd ∧
      b.oldBeg < roundUpTo storageBeg 8 then
    let begDown := roundDownTo storageBeg 8
    (s.store (begDown / 8) (storageBeg - begDown : ℕ), b.map (max (roundUpTo storageBeg 8)))
  else (s, b)

def fixUnalignedStorage (s : Shadow) (storageBeg storageEnd : ℕ) (b : Bounds) : Shadow × Bounds :=
  fixUnalignedBeg s storageBeg (fixUnalignedEnd s storageEnd b)

/-- The bytes before `newEnd` in its granule are accessible. -/
def storeLastGranule (s : Shadow) (newEnd : ℕ) : Shadow :=
  if addrIsAlignedByGranularity newEnd then s
  else
    let a := roundDownTo newEnd 8
    s.store (a / 8) (newEnd - a : ℕ)

/-- What is left of annotating a container that starts with its storage. -/
def annotateEnd (r : Runtime) (s : Shadow) (b : Bounds) : Option Shadow :=
  let a := roundDownTo (min b.oldEnd b.newEnd) 8
  let c := roundUpTo (max b.oldEnd b.newEnd) 8
  let b1 := roundDownTo b.newEnd 8
  let b2 := roundUpTo b.newEnd 8
  (if a < b1 then poisonShadow r s a (b1 - a) 0
    else if b2 < c then poisonShadow r s b2 (c - b2) kAsanContiguousContainerOOBMagic
    else some s).bind fun s =>
      if b1 = b2 then some s
      else if b2 - b1 = 8 then some (s.store (b1 / 8) (b.newEnd - b1 : ℕ)) else none

def annotateContiguousContainer (r : Runtime) (s : Shadow)
    (storageBeg storageEnd oldEnd newEnd : ℕ) : Option Shadow :=
  if r.detectContainerOverflow = false then some s
  else if ¬ (storageBeg ≤ oldEnd ∧ storageBeg ≤ newEnd ∧ oldEnd ≤ storageEnd ∧
      newEnd ≤ storageEnd) then none
  else if ¬ storageEnd - storageBeg ≤ 1 <<< 40 then none
  else if oldEnd = newEnd then some s
  else
    let fixed :=
      fixUnalignedStorage s storageBeg storageEnd ⟨storageBeg, oldEnd, storageBeg, newEnd⟩
    annotateEnd r fixed.1 fixed.2

/-- The old and the new elements have no byte in common. -/
def annotateApart (r : Runtime) (s : Shadow) (b : Bounds) : Option Shadow :=
  (if b.oldBeg = b.oldEnd then some s
    else
      let a := roundDownTo b.oldBeg 8
      poisonShadow r s a (roundUpTo b.oldEnd 8 - a) kAsanContiguousContainerOOBMagic).bind fun s =>
    if b.newBeg = b.newEnd then some s
    else
      let a := roundDownTo b.newBeg 8
      (poisonShadow r s a (roundDownTo b.newEnd 8 - a) 0).map fun s => storeLastGranule s b.newEnd

def annotateBegChange (r : Runtime) (s : Shadow) (b : Bounds) : Option Shadow :=
  if b.newBeg < b.oldBeg then
    let a := roundDownTo b.newBeg 8
    poisonShadow r s a (roundDownTo b.oldBeg 8 - a) 0
  else if b.oldBeg < b.newBeg then
    let a := roundDownTo b.oldBeg 8
    poisonShadow r s a (roundDownTo b.newBeg 8 - a) kAsanContiguousContainerOOBMagic
  else some s

def annotateEndChange (r : Runtime) (s : Shadow) (b : Bounds) : Option Shadow :=
  if b.oldEnd < b.newEnd then
    let a := roundDownTo b.oldEnd 8
    (poisonShadow r s a (roundDownTo b.newEnd 8 - a) 0).map fun s => storeLastGranule s b.newEnd
  else if b.newEnd < b.oldEnd then
    let a2 := roundUpTo b.newEnd 8
    (poisonShadow r s a2 (roundUpTo b.oldEnd 8 - a2) kAsanContiguousContainerOOBMagic).map
      fun s => storeLastGranule s b.newEnd
  else some s

def annotateDoubleEndedContiguousContainer (r : Runtime) (s : Shadow)
    (storageBeg storageEnd : ℕ) (b : Bounds) : Option Shadow :=
  if r.detectContainerOverflow = false then some s
  else if ¬ (b.oldBeg ≤ b.oldEnd ∧ b.newBeg ≤ b.newEnd) ∨
      ¬ (storageBeg ≤ b.newBeg ∧ b.newEnd ≤ storageEnd) ∨
      ¬ (storageBeg ≤ b.oldBeg ∧ b.oldEnd ≤ storageEnd) then none
  else if ¬ storageEnd - storageBeg ≤ 1 <<< 40 then none
  else if b.oldBeg = b.oldEnd ∧ b.newBeg = b.newEnd ∨
      b.oldBeg = b.newBeg ∧ b.oldEnd = b.newEnd then some s
  else
    let fixed := fixUnalignedStorage s storageBeg storageEnd b
    let b := fixed.2
    if b.oldBeg = b.oldEnd ∨ b.newBeg = b.newEnd ∨ b.newEnd ≤ b.oldBeg ∨ b.oldEnd ≤ b.newBeg then
      annotateApart r fixed.1 b
    else if b.newBeg < b.oldEnd ∧ b.oldBeg < b.newEnd then
      (annotateBegChange r fixed.1 b).bind fun s => annotateEndChange r s b
    else none

/-! ## Granules that change -/

def Bounds.oldReach (b : Bounds) : ℕ → ℕ := Granules.reach 8 b.oldBeg b.oldEnd

def Bounds.newReach (b : Bounds) : ℕ → ℕ := Granules.reach 8 b.newBeg b.newEnd

/-- Granules where the elements reach as far as before keep their bytes. -/
def Moved (s s' : Shadow) (b : Bounds) : Prop :=
  ∀ i, b.oldReach i = b.newReach i ∧ count s' i = count s i ∨
    b.oldReach i ≠ b.newReach i ∧ count s' i = b.newReach i

variable {r : Runtime} {s s' t : Shadow} {b b' : Bounds} {lo hi : ℕ}

theorem reach_cases (l u i : ℕ) :
    (l / 8 ≤ i ∧ i < u / 8) ∧ Granules.reach 8 l u i = 8 ∨
      i = u / 8 ∧ l < u ∧ Granules.reach 8 l u i = u % 8 ∨
      (i < l / 8 ∨ u / 8 < i ∨ u ≤ l) ∧ Granules.reach 8 l u i = 0 := by
  rw [Granules.reach_eq (by decide)]
  split_ifs <;> omega

theorem count_storeLastGranule (s : Shadow) (a i : ℕ) :
    count (storeLastGranule s a) i = if i = a / 8 ∧ a % 8 ≠ 0 then a % 8 else count s i := by
  rw [storeLastGranule]
  by_cases h : a % 8 = 0
  · simp [addrIsAlignedByGranularity, h]
  · simpa [addrIsAlignedByGranularity, h] using count_store_offset s h i

theorem Moved.trans {s₁ s₂ s₃ : Shadow} {a b c d e f : ℕ} (h : Moved s₁ s₂ ⟨a, b, c, d⟩)
    (h' : Moved s₂ s₃ ⟨c, d, e, f⟩)
    (hne : ∀ i, Granules.reach 8 a b i ≠ Granules.reach 8 c d i →
      Granules.reach 8 c d i ≠ Granules.reach 8 e f i →
      Granules.reach 8 a b i ≠ Granules.reach 8 e f i) : Moved s₁ s₃ ⟨a, b, e, f⟩ := by
  intro i
  have hi := h i
  have hi' := h' i
  have hnei := hne i
  simp only [Bounds.oldReach, Bounds.newReach] at hi hi' ⊢
  omega

theorem moved_grow {beg oldEnd newEnd : ℕ} (hbeg : beg ≤ oldEnd) (hlt : oldEnd < newEnd) :
    Moved s (storeLastGranule (s.memset (oldEnd / 8) 0 (newEnd / 8 - oldEnd / 8)) newEnd)
      ⟨beg, oldEnd, beg, newEnd⟩ := by
  intro i
  have hold := reach_cases beg oldEnd i
  have hnew := reach_cases beg newEnd i
  simp only [Bounds.oldReach, Bounds.newReach]
  rw [count_storeLastGranule, count_memset_zero]
  split_ifs <;> omega

theorem moved_shrink (beg : ℕ) {oldEnd newEnd : ℕ} {value : ℤ} (hvalue : value < 0)
    (hbeg : beg < newEnd ∨ beg = newEnd ∧ newEnd % 8 = 0) (hlt : newEnd < oldEnd) :
    Moved s (storeLastGranule (s.memset ((newEnd + 8 - 1) / 8) value
      ((oldEnd + 8 - 1) / 8 - (newEnd + 8 - 1) / 8)) newEnd) ⟨beg, oldEnd, beg, newEnd⟩ := by
  intro i
  have hold := reach_cases beg oldEnd i
  have hnew := reach_cases beg newEnd i
  simp only [Bounds.oldReach, Bounds.newReach]
  rw [count_storeLastGranule, count_memset_neg _ _ _ _ hvalue]
  split_ifs <;> omega

theorem moved_growBeg {oldBeg newBeg stop : ℕ} (hlt : newBeg < oldBeg) (hstop : oldBeg < stop) :
    Moved s (s.memset (newBeg / 8) 0 (oldBeg / 8 - newBeg / 8)) ⟨oldBeg, stop, newBeg, stop⟩ := by
  intro i
  have hold := reach_cases oldBeg stop i
  have hnew := reach_cases newBeg stop i
  simp only [Bounds.oldReach, Bounds.newReach]
  rw [count_memset_zero]
  split_ifs <;> omega

theorem moved_shrinkBeg {oldBeg newBeg stop : ℕ} {value : ℤ} (hvalue : value < 0)
    (hlt : oldBeg < newBeg) (hstop : newBeg < stop) :
    Moved s (s.memset (oldBeg / 8) value (newBeg / 8 - oldBeg / 8))
      ⟨oldBeg, stop, newBeg, stop⟩ := by
  intro i
  have hold := reach_cases oldBeg stop i
  have hnew := reach_cases newBeg stop i
  simp only [Bounds.oldReach, Bounds.newReach]
  rw [count_memset_neg _ _ _ _ hvalue]
  split_ifs <;> omega

theorem moved_clear {oldBeg oldEnd beg : ℕ} {value : ℤ} (hvalue : value < 0)
    (hlt : oldBeg < oldEnd) :
    Moved s (s.memset (oldBeg / 8) value ((oldEnd + 8 - 1) / 8 - oldBeg / 8))
      ⟨oldBeg, oldEnd, beg, beg⟩ := by
  intro i
  have hold := reach_cases oldBeg oldEnd i
  have hnew := reach_cases beg beg i
  simp only [Bounds.oldReach, Bounds.newReach]
  rw [count_memset_neg _ _ _ _ hvalue]
  split_ifs <;> omega

theorem moved_refl (s : Shadow) (l u : ℕ) : Moved s s ⟨l, u, l, u⟩ := fun _ => .inl ⟨rfl, rfl⟩

/-! ## What is written -/

theorem kAsanContiguousContainerOOBMagic_neg : kAsanContiguousContainerOOBMagic < 0 := by decide

theorem storeLastGranule_eq (s : Shadow) (newEnd : ℕ) :
    (if roundDownTo newEnd 8 = roundUpTo newEnd 8 then some s
      else if roundUpTo newEnd 8 - roundDownTo newEnd 8 = 8 then
        some (s.store (roundDownTo newEnd 8 / 8) (newEnd - roundDownTo newEnd 8 : ℕ)) else none) =
      some (storeLastGranule s newEnd) := by
  rw [storeLastGranule]
  by_cases h : newEnd % 8 = 0
  · have haligned : addrIsAlignedByGranularity newEnd = true := by
      simp [addrIsAlignedByGranularity, h]
    rw [if_pos (by simp only [roundDownTo, roundUpTo]; omega), if_pos haligned]
  · have haligned : ¬ addrIsAlignedByGranularity newEnd = true := by
      simp [addrIsAlignedByGranularity, h]
    rw [if_neg (by simp only [roundDownTo, roundUpTo]; omega),
      if_pos (by simp only [roundDownTo, roundUpTo]; omega), if_neg haligned]

theorem annotateEnd_moved {beg oldEnd newEnd : ℕ} (h : r.Serves lo hi) (hlo : lo ≤ beg / 8)
    (hold : (oldEnd + 8 - 1) / 8 ≤ hi) (hnew : (newEnd + 8 - 1) / 8 ≤ hi)
    (hbo : beg ≤ oldEnd) (hbn : beg ≤ newEnd)
    (hedge : newEnd % 8 = 0 ∨ oldEnd ≠ newEnd ∧ beg < newEnd) :
    ∃ s', annotateEnd r s ⟨beg, oldEnd, beg, newEnd⟩ = some s' ∧
      Moved s s' ⟨beg, oldEnd, beg, newEnd⟩ := by
  have hneg := kAsanContiguousContainerOOBMagic_neg
  simp only [annotateEnd, storeLastGranule_eq]
  rcases Nat.lt_trichotomy oldEnd newEnd with hlt | rfl | hlt
  · have hmoved := moved_grow (s := s) hbo hlt
    rw [min_eq_left hlt.le, max_eq_right hlt.le, if_neg (Nat.lt_irrefl _)]
    by_cases hgrow : oldEnd / 8 < newEnd / 8
    · rw [if_pos (by simp only [roundDownTo]; omega),
        poisonShadow_granules h (by omega) (by omega) hgrow.le]
      exact ⟨_, rfl, hmoved⟩
    · rw [if_neg (by simp only [roundDownTo]; omega)]
      rw [Nat.sub_eq_zero_of_le (Nat.le_of_not_lt hgrow), memset_empty] at hmoved
      exact ⟨_, rfl, hmoved⟩
  · rw [min_self, max_self, if_neg (Nat.lt_irrefl _), if_neg (Nat.lt_irrefl _)]
    have haligned : oldEnd % 8 = 0 := by omega
    refine ⟨s, ?_, moved_refl s beg oldEnd⟩
    simp [storeLastGranule, addrIsAlignedByGranularity, haligned]
  · have hmoved := moved_shrink (s := s) beg hneg (by omega) hlt
    rw [min_eq_right hlt.le, max_eq_left hlt.le, if_neg (Nat.lt_irrefl _)]
    by_cases hshrink : (newEnd + 8 - 1) / 8 < (oldEnd + 8 - 1) / 8
    · rw [if_pos (by simp only [roundUpTo]; omega),
        poisonShadow_granules h (by omega) (by omega) hshrink.le]
      exact ⟨_, rfl, hmoved⟩
    · rw [if_neg (by simp only [roundUpTo]; omega)]
      rw [Nat.sub_eq_zero_of_le (Nat.le_of_not_lt hshrink), memset_empty] at hmoved
      exact ⟨_, rfl, hmoved⟩

theorem annotateApart_moved {oldBeg oldEnd newBeg newEnd : ℕ} (h : r.Serves lo hi)
    (hlo : lo ≤ oldBeg / 8) (hlo' : lo ≤ newBeg / 8) (hold : (oldEnd + 8 - 1) / 8 ≤ hi)
    (hnew : (newEnd + 8 - 1) / 8 ≤ hi) (hbo : oldBeg ≤ oldEnd) (hbn : newBeg ≤ newEnd)
    (hapart : oldBeg = oldEnd ∨ newBeg = newEnd ∨ newEnd ≤ oldBeg ∨ oldEnd ≤ newBeg) :
    ∃ s', annotateApart r s ⟨oldBeg, oldEnd, newBeg, newEnd⟩ = some s' ∧
      Moved s s' ⟨oldBeg, oldEnd, newBeg, newEnd⟩ := by
  have hneg := kAsanContiguousContainerOOBMagic_neg
  have hclear : ∃ t, (if oldBeg = oldEnd then some s else poisonShadow r s (roundDownTo oldBeg 8)
      (roundUpTo oldEnd 8 - roundDownTo oldBeg 8) kAsanContiguousContainerOOBMagic) = some t ∧
      Moved s t ⟨oldBeg, oldEnd, newBeg, newBeg⟩ := by
    by_cases hempty : oldBeg = oldEnd
    · rw [if_pos hempty]
      refine ⟨s, rfl, fun i => .inl ⟨?_, rfl⟩⟩
      simp only [Bounds.oldReach, Bounds.newReach, Granules.reach, hempty, Nat.lt_irrefl, if_false]
    · rw [if_neg hempty, poisonShadow_granules h hlo hold (by omega)]
      exact ⟨_, rfl, moved_clear hneg (by omega)⟩
  obtain ⟨t, ht, hmoved⟩ := hclear
  simp only [annotateApart, ht, Option.bind_some]
  by_cases hempty : newBeg = newEnd
  · rw [if_pos hempty]
    subst hempty
    exact ⟨t, rfl, hmoved⟩
  · rw [if_neg hempty, poisonShadow_granules h hlo' (by omega) (by omega)]
    refine ⟨_, rfl, hmoved.trans (moved_grow le_rfl (by omega)) ?_⟩
    intro i hne hne'
    have hr := reach_cases oldBeg oldEnd i
    have hr' := reach_cases newBeg newBeg i
    have hr'' := reach_cases newBeg newEnd i
    omega

theorem annotateBothEnds_moved {oldBeg oldEnd newBeg newEnd : ℕ} (h : r.Serves lo hi)
    (hlo : lo ≤ oldBeg / 8) (hlo' : lo ≤ newBeg / 8) (hold : (oldEnd + 8 - 1) / 8 ≤ hi)
    (hnew : (newEnd + 8 - 1) / 8 ≤ hi) (hbo : oldBeg < oldEnd) (hbn : newBeg < newEnd)
    (hmeet : newBeg < oldEnd) (hmeet' : oldBeg < newEnd) :
    ∃ s', ((annotateBegChange r s ⟨oldBeg, oldEnd, newBeg, newEnd⟩).bind fun s =>
        annotateEndChange r s ⟨oldBeg, oldEnd, newBeg, newEnd⟩) = some s' ∧
      Moved s s' ⟨oldBeg, oldEnd, newBeg, newEnd⟩ := by
  have hneg := kAsanContiguousContainerOOBMagic_neg
  have hbeg : ∃ t, annotateBegChange r s ⟨oldBeg, oldEnd, newBeg, newEnd⟩ = some t ∧
      Moved s t ⟨oldBeg, oldEnd, newBeg, oldEnd⟩ := by
    simp only [annotateBegChange]
    rcases Nat.lt_trichotomy newBeg oldBeg with hlt | rfl | hlt
    · rw [if_pos hlt, poisonShadow_granules h hlo' (by omega) (by omega)]
      exact ⟨_, rfl, moved_growBeg hlt hbo⟩
    · rw [if_neg (Nat.lt_irrefl _), if_neg (Nat.lt_irrefl _)]
      exact ⟨s, rfl, moved_refl s _ _⟩
    · rw [if_neg hlt.asymm, if_pos hlt, poisonShadow_granules h hlo (by omega) (by omega)]
      exact ⟨_, rfl, moved_shrinkBeg hneg hlt hmeet⟩
  obtain ⟨t, ht, hmoved⟩ := hbeg
  have hend : ∃ s', annotateEndChange r t ⟨oldBeg, oldEnd, newBeg, newEnd⟩ = some s' ∧
      Moved t s' ⟨newBeg, oldEnd, newBeg, newEnd⟩ := by
    simp only [annotateEndChange]
    rcases Nat.lt_trichotomy oldEnd newEnd with hlt | rfl | hlt
    · rw [if_pos hlt, poisonShadow_granules h (by omega) (by omega) (by omega)]
      exact ⟨_, rfl, moved_grow hmeet.le hlt⟩
    · rw [if_neg (Nat.lt_irrefl _), if_neg (Nat.lt_irrefl _)]
      exact ⟨t, rfl, moved_refl t _ _⟩
    · rw [if_neg hlt.asymm, if_pos hlt, poisonShadow_granules h (by omega) (by omega) (by omega)]
      exact ⟨_, rfl, moved_shrink _ hneg (.inl hbn) hlt⟩
  obtain ⟨s', hs', hmoved'⟩ := hend
  rw [ht, Option.bind_some]
  refine ⟨s', hs', hmoved.trans hmoved' ?_⟩
  intro i hne hne'
  have hr := reach_cases oldBeg oldEnd i
  have hr' := reach_cases newBeg oldEnd i
  have hr'' := reach_cases newBeg newEnd i
  omega

/-! ## Unaligned storages -/

/-- What the bytes outside the storage leave accessible in granule `i`. -/
def outside (s : Shadow) (storageBeg storageEnd : ℕ) : ℕ → ℕ :=
  Granules.remove 8 storageBeg storageEnd (count s)

structure Bounds.Ordered (b : Bounds) (storageBeg storageEnd : ℕ) : Prop where
  old : b.oldBeg ≤ b.oldEnd
  new : b.newBeg ≤ b.newEnd
  oldBeg : storageBeg ≤ b.oldBeg
  newBeg : storageBeg ≤ b.newBeg
  oldEnd : b.oldEnd ≤ storageEnd
  newEnd : b.newEnd ≤ storageEnd

/-- Bounds that ask for the same change and leave shared last granules alone. -/
structure EndFixed (s : Shadow) (storageBeg storageEnd : ℕ) (b b' : Bounds) : Prop where
  old : ∀ i, max (outside s storageBeg storageEnd i) (b'.oldReach i) =
    max (outside s storageBeg storageEnd i) (b.oldReach i)
  new : ∀ i, max (outside s storageBeg storageEnd i) (b'.newReach i) =
    max (outside s storageBeg storageEnd i) (b.newReach i)
  differ : ∀ i, b'.oldReach i ≠ b'.newReach i → count s i ≤ Granules.before 8 storageEnd i

variable {storageBeg storageEnd : ℕ}

theorem fixUnalignedEnd_fixed (h : b.Ordered storageBeg storageEnd) :
    EndFixed s storageBeg storageEnd b (fixUnalignedEnd s storageEnd b) := by
  obtain ⟨oldBeg, oldEnd, newBeg, newEnd⟩ := b
  have ho := h.old
  have hn := h.new
  have ho' := h.oldEnd
  have hn' := h.newEnd
  simp only at ho hn ho' hn'
  rw [fixUnalignedEnd]
  split_ifs with hcut
  · obtain ⟨hunaligned, -, hafter⟩ := hcut
    rw [addressIsPoisoned_eq_false] at hafter
    have hat (l u : ℕ) (hu : u ≤ storageEnd) (i : ℕ) (hi : storageEnd / 8 ≤ i) :
        Granules.reach 8 l u i ≤ outside s storageBeg storageEnd i := by
      have hr := reach_cases l u i
      rcases Nat.lt_or_eq_of_le hi with hi | rfl
      · omega
      · rw [outside, Granules.remove, Granules.before_div (by decide), if_pos hafter]
        omega
    constructor
    · intro i
      rcases Nat.lt_or_ge i (storageEnd / 8) with hi | hi
      · exact congrArg _ (Granules.reach_min_of_lt hi)
      · have hr := hat oldBeg oldEnd ho' i hi
        have hzero := Granules.reach_min_of_le (g := 8) (l := oldBeg) (r := oldEnd) hi
        simp only [Bounds.oldReach, Bounds.map, hzero]
        omega
    · intro i
      rcases Nat.lt_or_ge i (storageEnd / 8) with hi | hi
      · exact congrArg _ (Granules.reach_min_of_lt hi)
      · have hr := hat newBeg newEnd hn' i hi
        have hzero := Granules.reach_min_of_le (g := 8) (l := newBeg) (r := newEnd) hi
        simp only [Bounds.newReach, Bounds.map, hzero]
        omega
    · intro i hne
      rcases Nat.lt_or_ge i (storageEnd / 8) with hi | hi
      · rw [Granules.before_of_lt hi]
        exact count_le s i
      · refine absurd ?_ hne
        exact (Granules.reach_min_of_le hi).trans (Granules.reach_min_of_le hi).symm
  · refine ⟨fun i => rfl, fun i => rfl, fun i hne => ?_⟩
    have hr := reach_cases oldBeg oldEnd i
    have hr' := reach_cases newBeg newEnd i
    simp only [Bounds.oldReach, Bounds.newReach] at hne
    rcases Nat.lt_trichotomy i (storageEnd / 8) with hi | rfl | hi
    · rw [Granules.before_of_lt hi]
      exact count_le s i
    · rw [Granules.before_div (by decide), ← addressIsPoisoned_eq_true]
      by_contra hafter
      refine hcut ⟨?_, ?_, by simpa using hafter⟩
      · simp only [addrIsAlignedByGranularity, beq_eq_false_iff_ne]
        omega
      · simp only [roundDownTo]
        omega
    · omega

theorem fixUnalignedEnd_bounds (h : b.Ordered storageBeg storageEnd)
    (hfix : fixUnalignedEnd s storageEnd b = b') : b'.oldBeg ≤ b'.oldEnd ∧ b'.newBeg ≤ b'.newEnd ∧
      (storageBeg ≤ b'.oldBeg ∧ storageBeg ≤ b'.newBeg ∨
        b'.oldBeg = b'.oldEnd ∧ b'.newBeg = b'.newEnd) := by
  obtain ⟨oldBeg, oldEnd, newBeg, newEnd⟩ := b
  have ho := h.old
  have hn := h.new
  have hob := h.oldBeg
  have hnb := h.newBeg
  simp only at ho hn hob hnb
  rw [← hfix, fixUnalignedEnd]
  split_ifs
  · simp only [Bounds.map, roundDownTo]
    omega
  · exact ⟨ho, hn, .inl ⟨hob, hnb⟩⟩

/-- A shadow and bounds from which the new elements can be written down. -/
structure Fixed (s s' : Shadow) (storageBeg storageEnd : ℕ) (b b' : Bounds) : Prop where
  covers : (∀ i, b.oldReach i ≤ count s i) →
    ∀ i, max (outside s storageBeg storageEnd i) (b'.oldReach i) ≤ count s' i
  exact : (∀ i, count s i = max (outside s storageBeg storageEnd i) (b.oldReach i)) →
    ∀ i, count s' i = max (outside s storageBeg storageEnd i) (b'.oldReach i)
  new : ∀ i, max (outside s storageBeg storageEnd i) (b'.newReach i) =
    max (outside s storageBeg storageEnd i) (b.newReach i)
  differ : ∀ i, b'.oldReach i ≠ b'.newReach i →
    outside s storageBeg storageEnd i ≤ b'.newReach i

theorem outside_le (s : Shadow) (storageBeg storageEnd i : ℕ) :
    outside s storageBeg storageEnd i ≤ count s i := by
  rw [outside, Granules.remove]
  split <;> omega

theorem outside_le_before (storageBeg : ℕ) {i : ℕ}
    (h : count s i ≤ Granules.before 8 storageEnd i) :
    outside s storageBeg storageEnd i ≤ Granules.before 8 storageBeg i := by
  rw [outside, Granules.remove]
  split <;> omega

theorem fixUnalignedBeg_fixed_of_cut {oldBeg oldEnd newBeg newEnd : ℕ}
    (hunaligned : storageBeg % 8 ≠ 0) (hob : storageBeg ≤ oldBeg)
    (hold : oldBeg < oldEnd) (hfirst : oldBeg / 8 = storageBeg / 8)
    (hempty : newBeg = newEnd ∨ storageBeg / 8 < newBeg / 8)
    (hdiffer : ∀ i, Granules.reach 8 oldBeg oldEnd i ≠ Granules.reach 8 newBeg newEnd i →
      count s i ≤ Granules.before 8 storageEnd i) :
    Fixed s (s.store (storageBeg / 8 * 8 / 8) (storageBeg - storageBeg / 8 * 8 : ℕ)) storageBeg
      storageEnd ⟨oldBeg, oldEnd, newBeg, newEnd⟩
      ⟨max ((storageBeg / 8 + 1) * 8) oldBeg, max ((storageBeg / 8 + 1) * 8) oldEnd,
        max ((storageBeg / 8 + 1) * 8) newBeg, max ((storageBeg / 8 + 1) * 8) newEnd⟩ := by
  have hnew (i : ℕ) (hi : i < storageBeg / 8 + 1) : Granules.reach 8 newBeg newEnd i = 0 := by
    have hr := reach_cases newBeg newEnd i
    omega
  have hat : storageBeg % 8 < Granules.reach 8 oldBeg oldEnd (storageBeg / 8) := by
    have hr := reach_cases oldBeg oldEnd (storageBeg / 8)
    omega
  have hle : count s (storageBeg / 8) ≤ Granules.before 8 storageEnd (storageBeg / 8) := by
    apply hdiffer
    rw [hnew _ (Nat.lt_succ_self _)]
    omega
  have hbefore := outside_le_before storageBeg hle
  rw [Granules.before_div (by decide)] at hbefore
  constructor
  · intro hk i
    simp only [Bounds.oldReach] at hk ⊢
    rw [count_store_offset _ hunaligned]
    rcases Nat.lt_or_ge i (storageBeg / 8 + 1) with hi | hi
    · rw [Granules.reach_max_of_lt hi]
      split_ifs with heq
      · rw [heq]
        omega
      · have hout := outside_le s storageBeg storageEnd i
        omega
    · rw [Granules.reach_max_of_le hi, if_neg (by omega)]
      exact Nat.max_le.mpr ⟨outside_le s _ _ i, hk i⟩
  · intro hk i
    simp only [Bounds.oldReach] at hk ⊢
    rw [count_store_offset _ hunaligned]
    rcases Nat.lt_or_ge i (storageBeg / 8 + 1) with hi | hi
    · rw [Granules.reach_max_of_lt hi]
      split_ifs with heq
      · have hcount := hk (storageBeg / 8)
        rw [heq, outside, Granules.remove, if_neg (Nat.not_lt.mpr hle),
          Granules.before_div (by decide)]
        omega
      · have hr := reach_cases oldBeg oldEnd i
        have hcount := hk i
        omega
    · rw [Granules.reach_max_of_le hi, if_neg (by omega)]
      exact hk i
  · intro i
    rcases Nat.lt_or_ge i (storageBeg / 8 + 1) with hi | hi
    · simp only [Bounds.newReach]
      rw [Granules.reach_max_of_lt hi, hnew i hi]
    · exact congrArg _ (Granules.reach_max_of_le hi)
  · intro i hne
    simp only [Bounds.oldReach, Bounds.newReach] at hne ⊢
    rcases Nat.lt_or_ge i (storageBeg / 8 + 1) with hi | hi
    · rw [Granules.reach_max_of_lt hi, Granules.reach_max_of_lt hi] at hne
      exact absurd rfl hne
    · rw [Granules.reach_max_of_le hi, Granules.reach_max_of_le hi] at hne
      have hout := outside_le_before storageBeg (hdiffer i hne)
      rw [Granules.before_of_gt (by decide) (Nat.lt_of_succ_le hi)] at hout
      exact hout.trans (Nat.zero_le _)

theorem fixUnalignedBeg_fixed (ho : b.oldBeg ≤ b.oldEnd) (hn : b.newBeg ≤ b.newEnd)
    (hlow : storageBeg ≤ b.oldBeg ∧ storageBeg ≤ b.newBeg ∨
      b.oldBeg = b.oldEnd ∧ b.newBeg = b.newEnd)
    (hdiffer : ∀ i, b.oldReach i ≠ b.newReach i → count s i ≤ Granules.before 8 storageEnd i) :
    Fixed s (fixUnalignedBeg s storageBeg b).1 storageBeg storageEnd b
      (fixUnalignedBeg s storageBeg b).2 := by
  obtain ⟨oldBeg, oldEnd, newBeg, newEnd⟩ := b
  simp only at ho hn hlow
  rw [fixUnalignedBeg]
  split_ifs with hcut
  · simp only [addrIsAlignedByGranularity, beq_eq_false_iff_ne, roundUpTo] at hcut
    have hup : (storageBeg + 8 - 1) / 8 = storageBeg / 8 + 1 := by omega
    simp only [Bounds.map, roundUpTo, roundDownTo, hup]
    apply fixUnalignedBeg_fixed_of_cut hcut.1 <;> first | exact hdiffer | omega
  · refine ⟨fun hk i => ?_, fun hk => hk, fun i => rfl, fun i hne => ?_⟩
    · exact Nat.max_le.mpr ⟨outside_le s _ _ i, hk i⟩
    · have hm := outside_le_before storageBeg (hdiffer i hne)
      refine hm.trans ?_
      have hr := reach_cases oldBeg oldEnd i
      have hr' := reach_cases newBeg newEnd i
      simp only [Bounds.oldReach, Bounds.newReach] at hne ⊢
      simp only [addrIsAlignedByGranularity, beq_eq_false_iff_ne, roundUpTo] at hcut
      rcases Nat.lt_trichotomy i (storageBeg / 8) with hi | rfl | hi
      · omega
      · rw [Granules.before_div (by decide)]
        omega
      · rw [Granules.before_of_gt (by decide) hi]
        exact Nat.zero_le _

theorem fixUnalignedStorage_fixed (h : b.Ordered storageBeg storageEnd)
    (hfix : fixUnalignedStorage s storageBeg storageEnd b = (t, b')) :
    Fixed s t storageBeg storageEnd b b' := by
  obtain ⟨ho, hn, hlow⟩ := fixUnalignedEnd_bounds (s := s) h rfl
  have hend := fixUnalignedEnd_fixed (s := s) h
  have hbeg := fixUnalignedBeg_fixed ho hn hlow hend.differ
  rw [fixUnalignedStorage] at hfix
  rw [hfix] at hbeg
  refine ⟨fun hk => hbeg.covers fun i => ?_, fun hk => hbeg.exact fun i => ?_, fun i => ?_,
    hbeg.differ⟩
  · have hold := hend.old i
    have hout := outside_le s storageBeg storageEnd i
    have hki := hk i
    omega
  · rw [hend.old i]
    exact hk i
  · exact (hbeg.new i).trans (hend.new i)

structure Bounds.Near (b : Bounds) (storageBeg storageEnd : ℕ) : Prop where
  old : b.oldBeg ≤ b.oldEnd
  new : b.newBeg ≤ b.newEnd
  oldBeg : storageBeg / 8 ≤ b.oldBeg / 8
  newBeg : storageBeg / 8 ≤ b.newBeg / 8
  oldEnd : (b.oldEnd + 8 - 1) / 8 ≤ (storageEnd + 8 - 1) / 8
  newEnd : (b.newEnd + 8 - 1) / 8 ≤ (storageEnd + 8 - 1) / 8

theorem fixUnalignedStorage_near (h : b.Ordered storageBeg storageEnd)
    (hfix : fixUnalignedStorage s storageBeg storageEnd b = (t, b')) :
    b'.Near storageBeg storageEnd := by
  obtain ⟨oldBeg, oldEnd, newBeg, newEnd⟩ := b
  obtain ⟨ho, hn, hob, hnb, hoe, hne⟩ := h
  simp only at ho hn hob hnb hoe hne
  have hstorage : storageBeg ≤ storageEnd := hob.trans (ho.trans hoe)
  rw [fixUnalignedStorage, fixUnalignedBeg, fixUnalignedEnd] at hfix
  split_ifs at hfix
  all_goals
    cases hfix
    constructor <;> simp only [Bounds.map, roundDownTo, roundUpTo] <;> omega

/-- For a container that starts with its storage the bounds keep their start in common. -/
theorem fixUnalignedStorage_edge {oldEnd newEnd : ℕ} (hdiff : oldEnd ≠ newEnd)
    (ho : storageBeg ≤ oldEnd) (hn : storageBeg ≤ newEnd)
    (hfix : fixUnalignedStorage s storageBeg storageEnd ⟨storageBeg, oldEnd, storageBeg, newEnd⟩ =
      (t, b')) :
    b'.oldBeg = b'.newBeg ∧
      (b'.newEnd % 8 = 0 ∨ b'.oldEnd ≠ b'.newEnd ∧ b'.newBeg < b'.newEnd) := by
  rw [fixUnalignedStorage, fixUnalignedEnd] at hfix
  split_ifs at hfix
  all_goals
    rw [fixUnalignedBeg] at hfix
    split_ifs at hfix with hbeg
    all_goals
      cases hfix
      refine ⟨rfl, ?_⟩
      simp only [Bounds.map, roundDownTo, roundUpTo, addrIsAlignedByGranularity,
        beq_eq_false_iff_ne] at *
      omega

end Mair.AsanPoisoning
