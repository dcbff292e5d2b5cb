import Mair.AsanPoisoning.Shadow

/-! # Poisoning and unpoisoning of regions

A region that ends inside a granule cannot be poisoned when bytes after it may be accessed, and
one that starts inside a granule is unpoisoned together with the bytes before it. -/

namespace Mair.AsanPoisoning

structure ShadowSegmentEndpoint where
  chunk : ℕ
  offset : ℤ
  value : ℤ

abbrev shadowSegmentEndpoint (s : Shadow) (address : ℕ) : ShadowSegmentEndpoint :=
  ⟨address / 8, (address % 8 : ℕ), s (address / 8)⟩

def asanPoisonMemoryRegion (r : Runtime) (s : Shadow) (begAddr size : ℕ) : Option Shadow :=
  if r.allowUserPoisoning = false ∨ size = 0 then some s
  else
    let beg := shadowSegmentEndpoint s begAddr
    let stop := shadowSegmentEndpoint s (begAddr + size)
    if beg.chunk = stop.chunk then
      if beg.offset < stop.offset ∧ beg.value = stop.value then
        if 0 < beg.value ∧ beg.value ≤ stop.offset then
          if 0 < beg.offset then some (s.store beg.chunk (min beg.value beg.offset))
          else some (s.store beg.chunk kAsanUserPoisonedMemoryMagic)
        else some s
      else none
    else if beg.chunk < stop.chunk then
      let chunk := if 0 < beg.offset then beg.chunk + 1 else beg.chunk
      let s := if 0 < beg.offset then
        s.store beg.chunk (if beg.value = 0 then beg.offset else min beg.value beg.offset) else s
      let s := s.memset chunk kAsanUserPoisonedMemoryMagic (stop.chunk - chunk)
      if 0 < stop.value ∧ stop.value ≤ stop.offset then
        some (s.store stop.chunk kAsanUserPoisonedMemoryMagic)
      else some s
    else none

def asanUnpoisonMemoryRegion (r : Runtime) (s : Shadow) (begAddr size : ℕ) : Option Shadow :=
  if r.allowUserPoisoning = false ∨ size = 0 then some s
  else
    let beg := shadowSegmentEndpoint s begAddr
    let stop := shadowSegmentEndpoint s (begAddr + size)
    if beg.chunk = stop.chunk then
      if beg.offset < stop.offset ∧ beg.value = stop.value then
        if beg.value ≠ 0 then some (s.store beg.chunk (max beg.value stop.offset)) else some s
      else none
    else if beg.chunk < stop.chunk then
      let s := s.memset beg.chunk 0 (stop.chunk - beg.chunk)
      if 0 < stop.offset ∧ stop.value ≠ 0 then
        some (s.store stop.chunk (max stop.value stop.offset))
      else some s
    else none

def poisonAlignedStackMemory (r : Runtime) (s : Shadow) (addr size : ℕ) (doPoison : Bool) :
    Option Shadow :=
  if size = 0 then some s
  else
    let alignedSize := roundDownTo size 8
    (poisonShadow r s addr alignedSize (if doPoison then kAsanStackUseAfterScopeMagic else 0)).bind
      fun s =>
        if size = alignedSize then some s
        else
          let endOffset : ℤ := (size - alignedSize : ℕ)
          let shadowEnd := (addr + alignedSize) / 8
          let endValue := s shadowEnd
          if doPoison then
            if 0 < endValue ∧ endValue ≤ endOffset then
              some (s.store shadowEnd kAsanStackUseAfterScopeMagic)
            else some s
          else if endValue ≠ 0 then some (s.store shadowEnd (max endValue endOffset))
          else some s

variable {r : Runtime} {s s' : Shadow} {addr size : ℕ}

theorem poisonRegion_count (hallow : r.allowUserPoisoning = true) :
    ∃ s', asanPoisonMemoryRegion r s addr size = some s' ∧
      count s' = Granules.remove 8 addr (addr + size) (count s) := by
  rcases Nat.eq_zero_or_pos size with rfl | hsize
  · exact ⟨s, if_pos (.inr rfl), Granules.remove_self.symm⟩
  have hpos : ¬ (r.allowUserPoisoning = false ∨ size = 0) := by simp [hallow]; omega
  rw [asanPoisonMemoryRegion, if_neg hpos]
  simp only [kAsanUserPoisonedMemoryMagic]
  by_cases hchunk : addr / 8 = (addr + size) / 8
  · have hlt : ((addr % 8 : ℕ) : ℤ) < ((addr + size) % 8 : ℕ) := by omega
    rw [if_pos hchunk, if_pos ⟨hlt, congrArg s hchunk⟩]
    split_ifs
    all_goals
      refine ⟨_, rfl, Granules.eq_remove (by decide) (count_le s) hchunk.le
        (fun i hi => ?_) (by omega) (by omega) (by omega) fun _ => ?_⟩
      · simp (disch := omega) only [count_store, if_neg]
      · simp only [count, Shadow.store, if_true]
        split_ifs <;> omega
  · rw [if_neg hchunk, if_pos (by omega)]
    split_ifs
    all_goals
      refine ⟨_, rfl, Granules.eq_remove (by decide) (count_le s) (by omega)
        (fun i hi => ?_) (fun i hi hi' => ?_) (fun hi => ?_) (fun hi => ?_) (by omega)⟩
      · simp (disch := omega) only [count_store, count_memset, if_neg]
      · simp (disch := omega) [count_store, count_memset, if_neg, if_pos]
      · simp (disch := omega) only [count, Shadow.store, Shadow.memset, if_neg]
        split_ifs <;> omega
      · simp (disch := omega) only [count, Shadow.store, Shadow.memset, if_neg]
        split_ifs <;> omega

theorem unpoisonRegion_count (hallow : r.allowUserPoisoning = true) :
    ∃ s', asanUnpoisonMemoryRegion r s addr size = some s' ∧
      count s' = Granules.add 8 addr (addr + size) (count s) := by
  rcases Nat.eq_zero_or_pos size with rfl | hsize
  · exact ⟨s, if_pos (.inr rfl), Granules.add_self.symm⟩
  have hpos : ¬ (r.allowUserPoisoning = false ∨ size = 0) := by simp [hallow]; omega
  rw [asanUnpoisonMemoryRegion, if_neg hpos]
  dsimp only
  by_cases hchunk : addr / 8 = (addr + size) / 8
  · have hlt : ((addr % 8 : ℕ) : ℤ) < ((addr + size) % 8 : ℕ) := by omega
    rw [if_pos hchunk, if_pos ⟨hlt, congrArg s hchunk⟩]
    split_ifs
    all_goals
      refine ⟨_, rfl, Granules.eq_add (by decide) (count_le s) hchunk.le
        (fun i hi => ?_) (by omega) (by omega) fun _ => ?_⟩
      · simp (disch := omega) only [count_store, if_neg]
      · simp only [count, Shadow.store, if_true]
        split_ifs <;> omega
  · rw [if_neg hchunk, if_pos (by omega)]
    split_ifs
    all_goals
      refine ⟨_, rfl, Granules.eq_add (by decide) (count_le s) (by omega)
        (fun i hi => ?_) (fun i hi hi' => ?_) (fun hi => ?_) (by omega)⟩
      · simp (disch := omega) only [count_store, count_memset, if_neg]
      · simp (disch := omega) [count_store, count_memset, if_pos]
      · simp (disch := omega) only [count, Shadow.store, Shadow.memset, if_neg]
        split_ifs <;> omega

/-! ## Stack memory -/

theorem poisonShadow_aligned {value : ℤ} (hserves : r.Serves (addr / 8) ((addr + size) / 8))
    (haligned : addr % 8 = 0) :
    poisonShadow r s addr (size / 8 * 8) value = some (s.memset (addr / 8) value (size / 8)) := by
  have h : poisonShadow r s (addr / 8 * 8) ((addr / 8 + size / 8) * 8 - addr / 8 * 8) value =
      some (s.memset (addr / 8) value (addr / 8 + size / 8 - addr / 8)) :=
    poisonShadow_granules hserves le_rfl (by omega) (Nat.le_add_right _ _)
  rwa [Nat.add_sub_cancel_left, show addr / 8 * 8 = addr by omega,
    show (addr / 8 + size / 8) * 8 - addr = size / 8 * 8 by omega] at h

theorem poisonStack_count (hserves : r.Serves (addr / 8) ((addr + size) / 8))
    (haligned : addr % 8 = 0) :
    ∃ s', poisonAlignedStackMemory r s addr size true = some s' ∧
      count s' = Granules.remove 8 addr (addr + size) (count s) := by
  rcases Nat.eq_zero_or_pos size with rfl | hsize
  · exact ⟨s, if_pos rfl, Granules.remove_self.symm⟩
  have hlast : (addr + size / 8 * 8) / 8 = addr / 8 + size / 8 := by omega
  have hquot : (addr + size) / 8 = addr / 8 + size / 8 := by omega
  have hrem : (addr + size) % 8 = size % 8 := by omega
  simp only [poisonAlignedStackMemory, hsize.ne', if_false, if_true, roundDownTo,
    poisonShadow_aligned hserves haligned, Option.bind_some, hlast, kAsanStackUseAfterScopeMagic]
  have hmemset : (s.memset (addr / 8) (248 - 256) (size / 8)) (addr / 8 + size / 8) =
      s (addr / 8 + size / 8) := if_neg (by omega)
  rw [hmemset]
  split_ifs
  all_goals
    refine ⟨_, rfl, Granules.eq_remove (by decide) (count_le s) (by omega)
      (fun i hi => ?_) (fun i hi hi' => ?_) (fun hi => ?_) (fun hi => ?_) (fun hi => ?_)⟩
    · rw [hquot] at hi
      simp (disch := omega) only [count_store, count_memset, if_neg]
    · rw [hquot] at hi'
      simp (disch := omega) [count_store, count_memset, if_neg, if_pos]
    · simp (disch := omega) [count_store, count_memset, if_neg, if_pos, haligned]
    · simp only [hquot, hrem, count, Shadow.store, Shadow.memset]
      split_ifs <;> omega
    · have hzero : size / 8 = 0 := by omega
      simp only [hzero, Nat.add_zero] at *
      simp only [hrem, count, Shadow.store, Shadow.memset]
      split_ifs <;> omega

theorem unpoisonStack_count (hserves : r.Serves (addr / 8) ((addr + size) / 8))
    (haligned : addr % 8 = 0) :
    ∃ s', poisonAlignedStackMemory r s addr size false = some s' ∧
      count s' = Granules.add 8 addr (addr + size) (count s) := by
  rcases Nat.eq_zero_or_pos size with rfl | hsize
  · exact ⟨s, if_pos rfl, Granules.add_self.symm⟩
  have hlast : (addr + size / 8 * 8) / 8 = addr / 8 + size / 8 := by omega
  have hquot : (addr + size) / 8 = addr / 8 + size / 8 := by omega
  have hrem : (addr + size) % 8 = size % 8 := by omega
  simp only [poisonAlignedStackMemory, hsize.ne', if_false, Bool.false_eq_true, roundDownTo,
    poisonShadow_aligned hserves haligned, Option.bind_some, hlast]
  have hmemset : (s.memset (addr / 8) 0 (size / 8)) (addr / 8 + size / 8) =
      s (addr / 8 + size / 8) := if_neg (by omega)
  rw [hmemset]
  split_ifs
  all_goals
    refine ⟨_, rfl, Granules.eq_add (by decide) (count_le s) (by omega)
      (fun i hi => ?_) (fun i hi hi' => ?_) (fun hi => ?_) (fun hi => ?_)⟩
    · rw [hquot] at hi
      simp (disch := omega) only [count_store, count_memset, if_neg]
    · rw [hquot] at hi'
      simp (disch := omega) [count_store, count_memset, if_pos]
    · simp only [hquot, hrem, count, Shadow.store, Shadow.memset]
      split_ifs <;> omega
    · have hzero : size / 8 = 0 := by omega
      simp only [hzero, Nat.add_zero] at *
      simp only [hrem, count, Shadow.store, Shadow.memset]
      split_ifs <;> omega

/-! ## What is poisoned -/

/-- A region is poisoned but for its bytes in the granule of an accessible byte after it. -/
theorem asanPoisonMemoryRegion_accessible_iff (hallow : r.allowUserPoisoning = true) :
    ∃ s', asanPoisonMemoryRegion r s addr size = some s' ∧ ∀ a, a ∈ accessible s' ↔
      a ∈ accessible s ∧ (a ∈ Set.Ico addr (addr + size) →
        a / 8 = (addr + size) / 8 ∧ addr + size ∈ accessible s) := by
  obtain ⟨s', hs', hcount⟩ := poisonRegion_count hallow
  refine ⟨s', hs', fun a => ?_⟩
  rw [accessible_remove hcount, closed_accessible.mem_fill_diff_Ico]

theorem asanPoisonMemoryRegion_accessible_iff_part : ∃ s',
    asanPoisonMemoryRegion exampleRuntime (fun _ => 0) 19 10 = some s' ∧ ∀ a, a ∈ accessible s' ↔
      a ∈ accessible (fun _ => 0) ∧ (a ∈ Set.Ico 19 (19 + 10) →
        a / 8 = (19 + 10) / 8 ∧ 19 + 10 ∈ accessible fun _ => 0) :=
  asanPoisonMemoryRegion_accessible_iff rfl

/-- A region is unpoisoned with the bytes before it in its first granule. -/
theorem asanUnpoisonMemoryRegion_accessible_iff (hallow : r.allowUserPoisoning = true) :
    ∃ s', asanUnpoisonMemoryRegion r s addr size = some s' ∧ ∀ a, a ∈ accessible s' ↔
      a ∈ accessible s ∨ addr < addr + size ∧ addr / 8 * 8 ≤ a ∧ a < addr + size := by
  obtain ⟨s', hs', hcount⟩ := unpoisonRegion_count hallow
  refine ⟨s', hs', fun a => ?_⟩
  rw [accessible_add hcount, closed_accessible.mem_fill_union_Ico]

theorem asanUnpoisonMemoryRegion_accessible_iff_part : ∃ s',
    asanUnpoisonMemoryRegion exampleRuntime (fun _ => -9) 19 10 = some s' ∧
      ∀ a, a ∈ accessible s' ↔ a ∈ accessible (fun _ => -9) ∨
        19 < 19 + 10 ∧ 19 / 8 * 8 ≤ a ∧ a < 19 + 10 :=
  asanUnpoisonMemoryRegion_accessible_iff rfl

end Mair.AsanPoisoning
