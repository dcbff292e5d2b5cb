import Mair.AsanPoisoning.Requests

/-! # The values of the shadow

Whatever is asked for, the runtime only writes zero, negative values and lengths of proper prefixes
of a granule. -/

namespace Mair.AsanPoisoning

/-- The values that the runtime writes into the shadow. -/
def Proper (s : Shadow) : Prop := ∀ i, s i < 8

variable {r : Runtime} {s s' : Shadow} {chunk n size : ℕ} {value : ℤ}

/-- A failed check leaves no shadow. -/
def ProperResult (o : Option Shadow) : Prop := ∀ s, o = some s → Proper s

theorem ProperResult.none : ProperResult none := fun _ h => nomatch h

theorem ProperResult.some (h : Proper s) : ProperResult (some s) := by
  intro t ht
  cases ht
  exact h

theorem ProperResult.bind {o : Option Shadow} {f : Shadow → Option Shadow} (h : ProperResult o)
    (hf : ∀ s, Proper s → ProperResult (f s)) : ProperResult (o.bind f) := by
  intro t ht
  obtain ⟨s, hs, hft⟩ := Option.bind_eq_some_iff.mp ht
  exact hf s (h s hs) t hft

theorem ProperResult.map {o : Option Shadow} {f : Shadow → Shadow} (h : ProperResult o)
    (hf : ∀ s, Proper s → Proper (f s)) : ProperResult (o.map f) := by
  intro t ht
  obtain ⟨s, hs, rfl⟩ := Option.map_eq_some_iff.mp ht
  exact hf s (h s hs)

theorem Proper.store (h : Proper s) (hvalue : value < 8) : Proper (s.store chunk value) := by
  intro i
  rw [Shadow.store]
  split_ifs
  · exact hvalue
  · exact h i

theorem Proper.memset (h : Proper s) (hvalue : value < 8) : Proper (s.memset chunk value n) := by
  intro i
  rw [Shadow.memset]
  split_ifs
  · exact hvalue
  · exact h i

theorem Proper.memmove (h : Proper s) (dst src : ℕ) : Proper (s.memmove dst src n) := by
  intro i
  rw [Shadow.memmove]
  split_ifs
  · exact h _
  · exact h i

theorem Proper.poisonShadow (h : Proper s) {addr : ℕ} (hvalue : value < 8) :
    ProperResult (poisonShadow r s addr size value) := by
  rw [AsanPoisoning.poisonShadow]
  split_ifs
  · exact .some h
  · exact .some (h.memset hvalue)
  · exact .none

/-! ## Regions -/

theorem Proper.poisonRegion (h : Proper s) (addr size : ℕ) :
    ProperResult (asanPoisonMemoryRegion r s addr size) := by
  have hbeg := h (addr / 8)
  simp only [asanPoisonMemoryRegion, kAsanUserPoisonedMemoryMagic]
  split_ifs
  · exact .some h
  · exact .some (h.store (by omega))
  · exact .some (h.store (by decide))
  · exact .some h
  · exact .none
  · exact .some (((h.store (by omega)).memset (by decide)).store (by decide))
  · exact .some (((h.store (by omega)).memset (by decide)).store (by decide))
  · exact .some ((h.memset (by decide)).store (by decide))
  · exact .some ((h.store (by omega)).memset (by decide))
  · exact .some ((h.store (by omega)).memset (by decide))
  · exact .some (h.memset (by decide))
  · exact .none

theorem Proper.unpoisonRegion (h : Proper s) (addr size : ℕ) :
    ProperResult (asanUnpoisonMemoryRegion r s addr size) := by
  have hbeg := h (addr / 8)
  have hend := h ((addr + size) / 8)
  simp only [asanUnpoisonMemoryRegion]
  split_ifs
  · exact .some h
  · exact .some (h.store (by omega))
  · exact .some h
  · exact .none
  · exact .some ((h.memset (by omega)).store (by omega))
  · exact .some (h.memset (by omega))
  · exact .none

theorem Proper.poisonStack (h : Proper s) (addr size : ℕ) (doPoison : Bool) :
    ProperResult (poisonAlignedStackMemory r s addr size doPoison) := by
  simp only [poisonAlignedStackMemory, kAsanStackUseAfterScopeMagic]
  by_cases hsize : size = 0
  · rw [if_pos hsize]
    exact .some h
  · rw [if_neg hsize]
    refine (h.poisonShadow (by split_ifs <;> omega)).bind fun t ht => ?_
    have hend := ht ((addr + roundDownTo size 8) / 8)
    have hoffset : size - roundDownTo size 8 < 8 := by
      rw [roundDownTo]
      omega
    split_ifs
    · exact .some ht
    · exact .some (ht.store (by decide))
    · exact .some ht
    · exact .some (ht.store (by omega))
    · exact .some ht

/-! ## Annotations and copies -/

theorem Proper.fixUnalignedStorage (h : Proper s) (storageBeg storageEnd : ℕ) (b : Bounds) :
    Proper (fixUnalignedStorage s storageBeg storageEnd b).1 := by
  simp only [AsanPoisoning.fixUnalignedStorage, fixUnalignedBeg]
  split_ifs
  · refine h.store ?_
    simp only [roundDownTo]
    omega
  · exact h

theorem Proper.storeLastGranule (h : Proper s) (newEnd : ℕ) :
    Proper (storeLastGranule s newEnd) := by
  simp only [AsanPoisoning.storeLastGranule]
  split_ifs
  · exact h
  · refine h.store ?_
    simp only [roundDownTo]
    omega

theorem Proper.annotateEnd (h : Proper s) (b : Bounds) : ProperResult (annotateEnd r s b) := by
  simp only [AsanPoisoning.annotateEnd]
  refine ProperResult.bind ?_ fun t ht => ?_
  · split_ifs
    · exact h.poisonShadow (by decide)
    · exact h.poisonShadow (by decide)
    · exact .some h
  · split_ifs
    · exact .some ht
    · refine .some (ht.store ?_)
      simp only [roundDownTo]
      omega
    · exact .none

theorem Proper.annotateContiguous (h : Proper s) (storageBeg storageEnd oldEnd newEnd : ℕ) :
    ProperResult (annotateContiguousContainer r s storageBeg storageEnd oldEnd newEnd) := by
  simp only [annotateContiguousContainer]
  split_ifs
  · exact .some h
  · exact .some h
  · exact (h.fixUnalignedStorage _ _ _).annotateEnd _
  · exact .none
  · exact .none

theorem Proper.annotateApart (h : Proper s) (b : Bounds) :
    ProperResult (annotateApart r s b) := by
  simp only [AsanPoisoning.annotateApart]
  refine ProperResult.bind ?_ fun t ht => ?_
  · split_ifs
    · exact .some h
    · exact h.poisonShadow (by decide)
  · split_ifs
    · exact .some ht
    · exact (ht.poisonShadow (by decide)).map fun t ht => ht.storeLastGranule _

theorem Proper.annotateBegChange (h : Proper s) (b : Bounds) :
    ProperResult (annotateBegChange r s b) := by
  simp only [AsanPoisoning.annotateBegChange]
  split_ifs
  · exact h.poisonShadow (by decide)
  · exact h.poisonShadow (by decide)
  · exact .some h

theorem Proper.annotateEndChange (h : Proper s) (b : Bounds) :
    ProperResult (annotateEndChange r s b) := by
  simp only [AsanPoisoning.annotateEndChange]
  split_ifs
  · exact (h.poisonShadow (by decide)).map fun t ht => ht.storeLastGranule _
  · exact (h.poisonShadow (by decide)).map fun t ht => ht.storeLastGranule _
  · exact .some h

theorem Proper.annotateDoubleEnded (h : Proper s) (storageBeg storageEnd : ℕ) (b : Bounds) :
    ProperResult (annotateDoubleEndedContiguousContainer r s storageBeg storageEnd b) := by
  simp only [annotateDoubleEndedContiguousContainer]
  have hfixed := h.fixUnalignedStorage storageBeg storageEnd b
  split_ifs
  · exact .some h
  · exact .none
  · exact .some h
  · exact hfixed.annotateApart _
  · exact (hfixed.annotateBegChange _).bind fun t ht => ht.annotateEndChange _
  · exact .none
  · exact .none

theorem Proper.setContainerGranule (h : Proper s) {ptr : ℕ} (hn : n ≤ 8) :
    Proper (setContainerGranule s ptr n) := by
  refine h.store ?_
  simp only [kAsanContiguousContainerOOBMagic]
  split_ifs <;> omega

theorem scanGranule_le {g src dst u : ℕ} (hu : u ≤ 8) (hdst : dst + n ≤ g + 8) :
    scanGranule s g n src dst u ≤ 8 := by
  induction n generalizing src dst u with
  | zero => exact hu
  | succ n ih =>
      rw [scanGranule]
      apply ih
      · split_ifs <;> omega
      · omega

theorem scanGranuleReversed_le {g src dst u : ℕ} (hu : u ≤ 8) (hdst : dst ≤ g + 8) :
    scanGranuleReversed s g n src dst u ≤ 8 := by
  induction n generalizing src dst u with
  | zero => exact hu
  | succ n ih =>
      rw [scanGranuleReversed]
      apply ih
      · split_ifs <;> omega
      · omega

theorem Proper.copyGranule (h : Proper s) {dstBeg granuleBeg u : ℕ} {whole : Bool} (hu : u ≤ 8)
    (hbeg : dstBeg ≤ granuleBeg + 8) : Proper (copyGranule s dstBeg granuleBeg u whole) := by
  rw [AsanPoisoning.copyGranule]
  split_ifs
  · exact h.setContainerGranule hu
  · exact h.setContainerGranule (by omega)
  · exact h

theorem Proper.slowCopy (h : Proper s) {dstBeg dstEnd srcPtr dstPtr : ℕ} (hle : dstBeg ≤ dstPtr) :
    Proper (slowCopyContainerAnnotations dstBeg dstEnd n s srcPtr dstPtr) := by
  induction n generalizing s srcPtr dstPtr with
  | zero => exact h
  | succ n ih =>
      simp only [slowCopyContainerAnnotations, roundDownTo]
      by_cases hlt : dstPtr < dstEnd
      · rw [if_pos hlt]
        apply ih
        · split_ifs
          · exact h
          · exact h.copyGranule (scanGranule_le (by omega) (by omega)) (by omega)
        · omega
      · rw [if_neg hlt]
        exact h

theorem Proper.slowReversedCopy (h : Proper s) {dstBeg dstEnd srcPtr dstPtr : ℕ} :
    Proper (slowReversedCopyContainerAnnotations dstBeg dstEnd n s srcPtr dstPtr) := by
  induction n generalizing s srcPtr dstPtr with
  | zero => exact h
  | succ n ih =>
      simp only [slowReversedCopyContainerAnnotations, roundDownTo]
      by_cases hlt : dstBeg < dstPtr
      · rw [if_pos hlt]
        apply ih
        split_ifs
        · exact h
        · exact h.copyGranule (scanGranuleReversed_le (by omega) (by omega)) (by omega)
      · rw [if_neg hlt]
        exact h

theorem Proper.copyFirst (h : Proper s) (srcBeg dstBeg : ℕ) :
    Proper (copyContainerFirstGranuleAnnotations s srcBeg dstBeg) := by
  simp only [copyContainerFirstGranuleAnnotations]
  split_ifs
  · exact h
  · exact h.store (h _)
  · exact h.setContainerGranule (by simp only [roundDownTo]; omega)
  · exact h

theorem Proper.copyLast (h : Proper s) (srcEnd dstEnd : ℕ) :
    Proper (copyContainerLastGranuleAnnotations s srcEnd dstEnd) := by
  simp only [copyContainerLastGranuleAnnotations]
  split_ifs
  · exact h
  · exact h.store (h _)
  · exact h.setContainerGranule (by simp only [roundDownTo]; omega)

theorem Proper.copyMiddle (h : Proper s) (srcBeg dstBeg dstEnd : ℕ) :
    Proper (copyMiddle s srcBeg dstBeg dstEnd) := by
  simp only [AsanPoisoning.copyMiddle]
  split_ifs
  · exact h.memmove _ _
  · exact h

theorem Proper.copyAnnotations (h : Proper s) (srcBeg srcEnd dstBeg dstEnd : ℕ) :
    ProperResult (copyContiguousContainerAnnotations r s srcBeg srcEnd dstBeg dstEnd) := by
  simp only [copyContiguousContainerAnnotations]
  split_ifs
  · exact .some h
  · exact .none
  · exact .some h
  · exact .some h.slowReversedCopy
  · exact .some (h.slowCopy le_rfl)
  · exact .some (((h.copyLast _ _).copyMiddle _ _ _).copyFirst _ _)
  · exact .some (((h.copyFirst _ _).copyMiddle _ _ _).copyLast _ _)

theorem Proper.step (h : Proper s) (q : Request) : ProperResult (step r s q) := by
  cases q with
  | poisonRegion addr size => exact h.poisonRegion addr size
  | unpoisonRegion addr size => exact h.unpoisonRegion addr size
  | poisonStack addr size => exact h.poisonStack addr size true
  | unpoisonStack addr size => exact h.poisonStack addr size false
  | annotateContiguous storageBeg storageEnd oldEnd newEnd => exact h.annotateContiguous _ _ _ _
  | annotateDoubleEnded storageBeg storageEnd b => exact h.annotateDoubleEnded _ _ _
  | copyAnnotations srcBeg srcEnd dstBeg dstEnd => exact h.copyAnnotations _ _ _ _

theorem Proper.run (h : Proper s) (qs : List Request) : ProperResult (run r qs s) := by
  induction qs generalizing s with
  | nil => exact .some h
  | cons q qs ih => exact (h.step q).bind fun t ht => ih ht

end Mair.AsanPoisoning
