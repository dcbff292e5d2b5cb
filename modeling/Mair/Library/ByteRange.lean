import Mathlib.Data.Set.Basic
import Mathlib.Data.BitVec

/-! # Byte ranges of a machine address space

A range wraps around the end of the address space, as the accesses of a program do. -/

namespace Mair.ByteRange

variable {w : ℕ}

def byteRange (start size : BitVec w) : Set (BitVec w) :=
  {x | (x - start).toNat < size.toNat}

@[simp] theorem mem_byteRange {start size x : BitVec w} :
    x ∈ byteRange start size ↔ (x - start).toNat < size.toNat :=
  Iff.rfl

theorem byteRange_zero (start : BitVec w) : byteRange start 0 = ∅ := by
  ext x
  simp

/-- The range of `n` bytes at `b` ends before the byte at `b + n`. -/
theorem end_notMem_byteRange (b n : BitVec w) : b + n ∉ byteRange b n := by
  rw [mem_byteRange, add_sub_cancel_left]
  exact Nat.lt_irrefl _

theorem toNat_sub_of_lt (x a b : BitVec w) (h : (x - a).toNat + (a - b).toNat < 2 ^ w) :
    (x - b).toNat = (x - a).toNat + (a - b).toNat := by
  rw [← sub_add_sub_cancel x a b, BitVec.toNat_add, Nat.mod_eq_of_lt h]

/-- A range lies in another one exactly when it is empty or both its ends do. -/
theorem byteRange_subset_iff (a b m n : BitVec w) :
    byteRange a m ⊆ byteRange b n ↔ m = 0 ∨ (a - b).toNat + m.toNat ≤ n.toNat := by
  constructor
  · intro h
    by_contra hne
    rw [not_or, Nat.not_le] at hne
    have hm : 0 < m.toNat := by
      apply Nat.pos_of_ne_zero
      intro hzero
      exact hne.1 (BitVec.eq_of_toNat_eq hzero)
    have ha : (a - b).toNat < n.toNat := by
      apply h
      simpa using hm
    apply end_notMem_byteRange b n
    apply h
    have hdist : b + n - a = n - (a - b) := by
      rw [sub_sub_eq_add_sub, add_comm]
    have hle : a - b ≤ n := Nat.le_of_lt ha
    rw [mem_byteRange, hdist, BitVec.toNat_sub_of_le hle]
    omega
  · intro h x hx
    cases h with
    | inl hzero =>
        subst hzero
        exact absurd hx (Nat.not_lt_zero _)
    | inr hle =>
        have hn := n.isLt
        rw [mem_byteRange] at hx ⊢
        rw [toNat_sub_of_lt x a b (by omega)]
        omega

/-- A range that lies in one of its own size is that range. -/
theorem byteRange_eq_of_subset {a b n : BitVec w} (h : byteRange a n ⊆ byteRange b n) :
    byteRange a n = byteRange b n := by
  cases (byteRange_subset_iff a b n n).mp h with
  | inl hzero => rw [hzero, byteRange_zero, byteRange_zero]
  | inr hle =>
      have hstart : a - b = 0 := by
        apply BitVec.eq_of_toNat_eq
        have hzero : (a - b).toNat = 0 := by omega
        simpa using hzero
      rw [sub_eq_zero.mp hstart]

/-- The comparison of an end computed with wrap-around. -/
theorem end_le_iff {off m n : BitVec w} (h : off + m ≤ n) :
    m = 0 ∨ off.toNat + m.toNat ≤ n.toNat ↔ m = 0 ∨ off.toNat + m.toNat < 2 ^ w := by
  have hn := n.isLt
  constructor
  · intro hle
    apply Or.imp_right _ hle
    omega
  · intro hlt
    apply Or.imp_right _ hlt
    intro hlt
    rw [BitVec.le_def, BitVec.toNat_add, Nat.mod_eq_of_lt hlt] at h
    exact h

end Mair.ByteRange
