import Mathlib.Data.Nat.Bitwise
import Mathlib.Tactic.Ring

/-! # Machine words split at a bit position

A word is read as `2 ^ n * q + r`: a block number above bit `n` and an offset below it.
Masks and xor constants that are multiples of the block size act on `q` alone. -/

namespace Mair.BitBlocks

/-! ## Natural numbers -/

theorem block_div {n q r : ℕ} (hr : r < 2 ^ n) : (2 ^ n * q + r) / 2 ^ n = q := by
  rw [Nat.mul_add_div (Nat.two_pow_pos n), Nat.div_eq_of_lt hr, Nat.add_zero]

theorem block_mod {n q r : ℕ} (hr : r < 2 ^ n) : (2 ^ n * q + r) % 2 ^ n = r := by
  rw [Nat.mul_add_mod, Nat.mod_eq_of_lt hr]

theorem eq_block_of_div_mod {n a q r : ℕ} (hq : a / 2 ^ n = q) (hr : a % 2 ^ n = r) :
    a = 2 ^ n * q + r := by
  rw [← hq, ← hr, Nat.div_add_mod]

/-- Xor with a multiple of the block size leaves the offset alone. -/
theorem block_xor {n q c r : ℕ} (hr : r < 2 ^ n) :
    (2 ^ n * q + r) ^^^ (2 ^ n * c) = 2 ^ n * (q ^^^ c) + r := by
  apply eq_block_of_div_mod
  · rw [Nat.xor_div_two_pow, block_div hr, Nat.mul_div_cancel_left _ (Nat.two_pow_pos n)]
  · rw [Nat.xor_mod_two_pow, block_mod hr, Nat.mul_mod_right, Nat.xor_zero]

theorem block_and {n q c r d : ℕ} (hr : r < 2 ^ n) (hd : d < 2 ^ n) :
    (2 ^ n * q + r) &&& (2 ^ n * c + d) = 2 ^ n * (q &&& c) + (r &&& d) := by
  apply eq_block_of_div_mod
  · rw [Nat.and_div_two_pow, block_div hr, block_div hd]
  · rw [Nat.and_mod_two_pow, block_mod hr, block_mod hd]

theorem block_or_block {n q c r : ℕ} (hr : r < 2 ^ n) :
    (2 ^ n * q + r) ||| (2 ^ n * c) = 2 ^ n * (q ||| c) + r := by
  apply eq_block_of_div_mod
  · rw [Nat.or_div_two_pow, block_div hr, Nat.mul_div_cancel_left _ (Nat.two_pow_pos n)]
  · rw [Nat.or_mod_two_pow, block_mod hr, Nat.mul_mod_right, Nat.or_zero]

/-- Or-ing a block base into an offset is addition. -/
theorem block_or {n q r : ℕ} (hr : r < 2 ^ n) : r ||| 2 ^ n * q = 2 ^ n * q + r := by
  rw [Nat.or_comm, ← Nat.two_pow_add_eq_or_of_lt hr]

/-! ## Bit vectors -/

variable {w : ℕ}

theorem toNat_xor_block {n q c r : ℕ} {x y : BitVec w} (hx : x.toNat = 2 ^ n * q + r)
    (hr : r < 2 ^ n) (hy : y.toNat = 2 ^ n * c) :
    (x ^^^ y).toNat = 2 ^ n * (q ^^^ c) + r := by
  rw [BitVec.toNat_xor, hx, hy, block_xor hr]

/-- Clearing the bits of a block mask keeps the offset. -/
theorem toNat_and_not_block {n k q c r : ℕ} {x y : BitVec (n + k)}
    (hx : x.toNat = 2 ^ n * q + r) (hr : r < 2 ^ n) (hy : y.toNat = 2 ^ n * c) :
    (x &&& ~~~y).toNat = 2 ^ n * (q &&& (2 ^ k - 1 - c)) + r := by
  have hc : c < 2 ^ k := by
    have h := y.isLt
    rw [hy, Nat.pow_add] at h
    exact Nat.lt_of_mul_lt_mul_left h
  have hnot : (~~~y).toNat = 2 ^ n * (2 ^ k - 1 - c) + (2 ^ n - 1) := by
    rw [BitVec.toNat_not, hy, Nat.pow_add, Nat.mul_sub, Nat.mul_sub]
    have hpos := Nat.two_pow_pos n
    have hle : 2 ^ n * c + 2 ^ n ≤ 2 ^ n * 2 ^ k := by
      rw [← Nat.mul_succ]
      exact Nat.mul_le_mul_left _ hc
    omega
  rw [BitVec.toNat_and, hx, hnot, block_and hr (Nat.sub_lt (Nat.two_pow_pos n) Nat.one_pos),
    Nat.and_two_pow_sub_one_of_lt_two_pow hr]

/-- Clearing the low `k` bits rounds down to a multiple of `2 ^ k`. -/
theorem toNat_and_not_low {k : ℕ} (x y : BitVec w) (hk : k ≤ w) (hy : y.toNat = 2 ^ k - 1) :
    (x &&& ~~~y).toNat = x.toNat / 2 ^ k * 2 ^ k := by
  have hnot : (~~~y).toNat = 2 ^ k * (2 ^ (w - k) - 1) + 0 := by
    rw [BitVec.toNat_not, hy, Nat.mul_sub, ← Nat.pow_add, Nat.add_sub_cancel' hk]
    have hpos := Nat.two_pow_pos k
    omega
  have hlt : x.toNat / 2 ^ k < 2 ^ (w - k) := by
    apply Nat.div_lt_of_lt_mul
    rw [← Nat.pow_add, Nat.add_sub_cancel' hk]
    exact x.isLt
  conv_lhs => rw [BitVec.toNat_and, ← Nat.div_add_mod x.toNat (2 ^ k)]
  rw [hnot, block_and (Nat.mod_lt _ (Nat.two_pow_pos k)) (Nat.two_pow_pos k), Nat.and_zero,
    Nat.and_two_pow_sub_one_of_lt_two_pow hlt, Nat.add_zero, Nat.mul_comm]

end Mair.BitBlocks
