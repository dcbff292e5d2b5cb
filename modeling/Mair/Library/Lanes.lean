import Mathlib.Logic.Function.Basic
import Mathlib.Data.List.FinRange
import Mathlib.Order.Basic

/-! # Registers of four 32-bit lanes

The SSE operations on 128-bit registers that compare lanes and turn the answers into a bit mask,
and what the mask says of the lanes. -/

namespace Mair.Lanes

abbrev M128 := Fin 4 → BitVec 32

def set1 (v : BitVec 32) : M128 := fun _ => v

def and (a b : M128) : M128 := fun i => a i &&& b i

def or (a b : M128) : M128 := fun i => a i ||| b i

def xor (a b : M128) : M128 := fun i => a i ^^^ b i

def cmpeq (a b : M128) : M128 := fun i => if a i = b i then BitVec.allOnes 32 else 0#32

/-- The comparison is signed. -/
def cmplt (a b : M128) : M128 := fun i => if (a i).slt (b i) then BitVec.allOnes 32 else 0#32

def maxu (a b : M128) : M128 := fun i => if a i ≤ b i then b i else a i

/-- Byte `k` of the register. -/
def byte (a : M128) (k : Fin 16) : BitVec 8 :=
  (a ⟨k / 4, by omega⟩).extractLsb' (8 * (k % 4)) 8

/-- The top bits of the sixteen bytes. -/
def movemask (a : M128) : Fin 16 → Bool := fun k => (byte a k).msb

/-- One more than the position of the first set bit, zero if there is none. -/
def ffs (m : Fin 16 → Bool) : ℕ :=
  match (List.finRange 16).find? m with
  | some k => k + 1
  | none => 0

/-- The first lane that the test selects. -/
def firstLane (p : Fin 4 → Bool) : Option (Fin 4) := (List.finRange 4).find? p

variable {p : Fin 4 → Bool} {i j : Fin 4}

/-- A register that a comparison made: each lane is all ones or zero. -/
def IsMask (a : M128) (p : Fin 4 → Bool) : Prop :=
  ∀ i, a i = if p i then BitVec.allOnes 32 else 0#32

theorem isMask_cmpeq (a b : M128) : IsMask (cmpeq a b) fun i => decide (a i = b i) := by
  intro i
  simp [cmpeq]

theorem isMask_cmplt (a b : M128) : IsMask (cmplt a b) fun i => (a i).slt (b i) := by
  intro i
  rfl

theorem IsMask.and {a b : M128} {q : Fin 4 → Bool} (ha : IsMask a p) (hb : IsMask b q) :
    IsMask (and a b) fun i => p i && q i := by
  intro i
  simp only [Lanes.and, ha i, hb i]
  by_cases hp : p i <;> by_cases hq : q i <;> simp [hp, hq]

theorem IsMask.or {a b : M128} {q : Fin 4 → Bool} (ha : IsMask a p) (hb : IsMask b q) :
    IsMask (or a b) fun i => p i || q i := by
  intro i
  simp only [Lanes.or, ha i, hb i]
  by_cases hp : p i <;> by_cases hq : q i <;> simp [hp, hq]

theorem IsMask.eq_zero_iff {a : M128} (ha : IsMask a p) : a i = 0#32 ↔ p i = false := by
  rw [ha i]
  cases p i
  · simp
  · exact iff_of_false (by decide) (by simp)

/-- Every byte of a lane shows the lane's answer. -/
theorem movemask_apply {a : M128} (ha : IsMask a p) (k : Fin 16) :
    movemask a k = p ⟨k / 4, by omega⟩ := by
  have hbit : 8 * ((k : ℕ) % 4) + 7 < 32 := by omega
  rw [movemask, byte, ha, BitVec.msb_eq_getLsbD_last, BitVec.getLsbD_extractLsb']
  cases p ⟨k / 4, _⟩
  · simp
  · rw [if_pos rfl, BitVec.getLsbD_allOnes]
    simp [hbit]

theorem firstLane_eq_none_iff : firstLane p = none ↔ ∀ i, p i = false := by
  simp [firstLane]

theorem firstLane_eq_some_iff :
    firstLane p = some i ↔ p i = true ∧ ∀ j, j < i → p j = false := by
  rw [firstLane, List.find?_eq_some_iff_getElem]
  constructor
  · intro h
    obtain ⟨hi, k, hk, hki, hlt⟩ := h
    refine ⟨hi, ?_⟩
    intro j hj
    rw [List.getElem_finRange] at hki
    have hjk : (j : ℕ) < k := by
      have hval := congrArg Fin.val hki
      simp only [Fin.val_cast] at hval
      exact hval ▸ hj
    have hp := hlt j hjk
    rw [List.getElem_finRange] at hp
    simpa using hp
  · intro h
    refine ⟨h.1, i, by simp, by simp, ?_⟩
    intro j hj
    rw [List.getElem_finRange]
    have hp := h.2 ⟨j, hj.trans i.isLt⟩ hj
    simpa using hp

theorem ffs_eq_zero_iff {m : Fin 16 → Bool} : ffs m = 0 ↔ ∀ k, m k = false := by
  rw [ffs]
  cases h : (List.finRange 16).find? m with
  | none => simpa using h
  | some k =>
      refine iff_of_false (Nat.succ_ne_zero _) ?_
      intro hall
      have hk := List.find?_some h
      rw [hall k] at hk
      exact absurd hk (by decide)

/-- The first set bit of a lane mask tells the first lane. -/
theorem ffs_movemask {a : M128} (ha : IsMask a p) :
    (ffs (movemask a) = 0 ∧ firstLane p = none) ∨
      ∃ i, firstLane p = some i ∧ ffs (movemask a) ≠ 0 ∧ ffs (movemask a) / 4 = i := by
  cases h : (List.finRange 16).find? (movemask a) with
  | none =>
      refine .inl ⟨by rw [ffs, h], firstLane_eq_none_iff.mpr ?_⟩
      intro i
      have hnone := List.find?_eq_none.mp h ⟨4 * i, by omega⟩ (List.mem_finRange _)
      rw [movemask_apply ha] at hnone
      have hi : (⟨4 * (i : ℕ) / 4, by omega⟩ : Fin 4) = i := by
        apply Fin.ext
        simp
      rw [hi] at hnone
      simpa using hnone
  | some k =>
      obtain ⟨hk, n, hn, hnk, hlt⟩ := List.find?_eq_some_iff_getElem.mp h
      rw [List.getElem_finRange] at hnk
      have hkn : (k : ℕ) = n := by
        rw [← hnk]
        rfl
      have hbefore : ∀ l : Fin 16, l < k → movemask a l = false := by
        intro l hl
        have hm := hlt l (hkn ▸ hl)
        rw [List.getElem_finRange] at hm
        simpa using hm
      rw [movemask_apply ha] at hk
      -- The lane's own first byte is set as well, so it is the first set bit.
      have hfirst : (k : ℕ) = 4 * (k / 4) := by
        rcases Nat.lt_or_ge (4 * (k / 4)) k with hl | hl
        · have hm := hbefore ⟨4 * (k / 4), by omega⟩ hl
          rw [movemask_apply ha] at hm
          have hlane : (⟨4 * ((k : ℕ) / 4) / 4, by omega⟩ : Fin 4) = ⟨k / 4, by omega⟩ := by
            apply Fin.ext
            simp
          rw [hlane, hk] at hm
          exact absurd hm (by decide)
        · omega
      refine .inr ⟨⟨k / 4, by omega⟩, firstLane_eq_some_iff.mpr ⟨hk, ?_⟩, ?_, ?_⟩
      · intro j hj
        have hj' : (j : ℕ) < k / 4 := hj
        have hm := hbefore ⟨4 * j, by omega⟩ (by
          show 4 * (j : ℕ) < k
          omega)
        rw [movemask_apply ha] at hm
        have hlane : (⟨4 * (j : ℕ) / 4, by omega⟩ : Fin 4) = j := by
          apply Fin.ext
          simp
        rw [hlane] at hm
        exact hm
      · rw [ffs, h]
        exact Nat.succ_ne_zero _
      · rw [ffs, h]
        show ((k : ℕ) + 1) / 4 = k / 4
        omega

theorem ffs_movemask_ne_zero {a : M128} (ha : IsMask a p) :
    (ffs (movemask a) != 0) = (List.finRange 4).any p := by
  rw [Bool.eq_iff_iff, bne_iff_ne, ne_eq, ffs_eq_zero_iff, List.any_eq_true]
  constructor
  · intro h
    by_contra hall
    apply h
    intro k
    rw [movemask_apply ha]
    by_contra hk
    exact hall ⟨_, List.mem_finRange _, by simpa using hk⟩
  · intro h hall
    obtain ⟨i, -, hi⟩ := h
    have hk := hall ⟨4 * i, by omega⟩
    rw [movemask_apply ha] at hk
    have hlane : (⟨4 * (i : ℕ) / 4, by omega⟩ : Fin 4) = i := by
      apply Fin.ext
      simp
    rw [hlane, hi] at hk
    exact absurd hk (by decide)

/-! ## Bit fields of a lane -/

section

variable {w : ℕ}

def fieldMask (w start len : ℕ) : BitVec w := (BitVec.allOnes len).setWidth w <<< start

theorem getLsbD_fieldMask {start len n : ℕ} :
    (fieldMask w start len).getLsbD n = decide (n < w ∧ start ≤ n ∧ n < start + len) := by
  rw [fieldMask, BitVec.getLsbD_shiftLeft, BitVec.getLsbD_setWidth, BitVec.getLsbD_allOnes]
  by_cases hn : n < w
  · by_cases hs : start ≤ n
    · have hsub : n - start < len ↔ n < start + len := by omega
      have hw : n - start < w := by omega
      simp [hn, hs, hsub, hw, Nat.not_lt.mpr hs]
    · simp [hn, hs, Nat.lt_of_not_le hs]
  · simp [hn]

theorem and_fieldMask {x : BitVec w} {start len : ℕ} :
    x &&& fieldMask w start len = (x.extractLsb' start len).setWidth w <<< start := by
  apply BitVec.eq_of_getLsbD_eq
  intro n hn
  rw [BitVec.getLsbD_and, getLsbD_fieldMask, BitVec.getLsbD_shiftLeft, BitVec.getLsbD_setWidth,
    BitVec.getLsbD_extractLsb']
  by_cases hs : start ≤ n
  · have hsub : n - start < len ↔ n < start + len := by omega
    have hw : n - start < w := by omega
    simp [hn, hs, hsub, hw, Nat.not_lt.mpr hs, Nat.add_sub_cancel' hs, Bool.and_comm]
  · simp [hn, hs, Nat.lt_of_not_le hs]

/-- Masked with a field, a word vanishes exactly when the field does. -/
theorem and_fieldMask_eq_zero_iff {x : BitVec w} {start len : ℕ} (hw : start + len ≤ w) :
    x &&& fieldMask w start len = 0#w ↔ x.extractLsb' start len = BitVec.ofNat len 0 := by
  constructor
  · intro h
    apply BitVec.eq_of_getLsbD_eq
    intro n hn
    have hbit := congrArg (fun y => y.getLsbD (start + n)) h
    simp only [BitVec.getLsbD_and, getLsbD_fieldMask, BitVec.getLsbD_zero] at hbit
    rw [decide_eq_true (by omega), Bool.and_true] at hbit
    simp [hn, hbit]
  · intro h
    apply BitVec.eq_of_getLsbD_eq
    intro n hn
    rw [BitVec.getLsbD_and, getLsbD_fieldMask, BitVec.getLsbD_zero]
    by_cases hin : start ≤ n ∧ n < start + len
    · have hbit := congrArg (fun y => y.getLsbD (n - start)) h
      simp only [BitVec.getLsbD_extractLsb', BitVec.getLsbD_zero] at hbit
      rw [decide_eq_true (by omega : n - start < len), Bool.true_and,
        Nat.add_sub_cancel' hin.1] at hbit
      rw [hbit, Bool.false_and]
    · have hout : ¬ (n < w ∧ start ≤ n ∧ n < start + len) := fun hc => hin hc.2
      rw [decide_eq_false hout, Bool.and_false]

end

end Mair.Lanes
