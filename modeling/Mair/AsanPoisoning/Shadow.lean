import Mair.Library.Granules

/-! # The shadow of the address sanitizer

One signed shadow byte tells how many of the first bytes of a granule may be accessed: all of them
for zero, none for a negative value. Shadow bytes are numbered by the granules they describe. -/

namespace Mair.AsanPoisoning

abbrev Shadow := ℕ → ℤ

def kAsanUserPoisonedMemoryMagic : ℤ := 0xf7 - 0x100
def kAsanContiguousContainerOOBMagic : ℤ := 0xfc - 0x100
def kAsanStackUseAfterScopeMagic : ℤ := 0xf8 - 0x100

/-- The flags of the runtime, and which addresses are application memory. -/
structure Runtime where
  allowUserPoisoning : Bool
  detectContainerOverflow : Bool
  canPoisonMemory : Bool
  poisonPartial : Bool
  addrIsInMem : ℕ → Bool

abbrev roundDownTo (x boundary : ℕ) : ℕ := x / boundary * boundary

abbrev roundUpTo (size boundary : ℕ) : ℕ := (size + boundary - 1) / boundary * boundary

def addrIsAlignedByGranularity (a : ℕ) : Bool := a % 8 == 0

def addressIsPoisoned (s : Shadow) (a : ℕ) : Bool :=
  s (a / 8) != 0 && decide (s (a / 8) ≤ (a % 8 : ℕ))

def Shadow.store (s : Shadow) (chunk : ℕ) (value : ℤ) : Shadow :=
  fun i => if i = chunk then value else s i

def Shadow.memset (s : Shadow) (chunk : ℕ) (value : ℤ) (n : ℕ) : Shadow :=
  fun i => if chunk ≤ i ∧ i < chunk + n then value else s i

/-- No result is a failed check of the runtime. -/
def poisonShadow (r : Runtime) (s : Shadow) (addr size : ℕ) (value : ℤ) : Option Shadow :=
  if value ≠ 0 ∧ r.canPoisonMemory = false then some s
  else if addrIsAlignedByGranularity addr && r.addrIsInMem addr &&
      addrIsAlignedByGranularity (addr + size) && decide (8 ≤ addr + size) &&
      r.addrIsInMem (addr + size - 8) then
    some (s.memset (addr / 8) value (size / 8))
  else none

/-- The granules from `lo` to `hi` may be poisoned. -/
structure Runtime.Serves (r : Runtime) (lo hi : ℕ) : Prop where
  canPoison : r.canPoisonMemory = true
  low : 0 < lo
  mem : ∀ a, lo * 8 ≤ a + 8 → a ≤ hi * 8 → r.addrIsInMem a = true

/-- Every request is served. -/
def exampleRuntime : Runtime := ⟨true, true, true, true, fun _ => true⟩

/-! ## Accessible bytes -/

def accessible (s : Shadow) : Set ℕ := {a | addressIsPoisoned s a = false}

/-- How many of the first bytes of granule `i` may be accessed. -/
def count (s : Shadow) (i : ℕ) : ℕ := if s i = 0 then 8 else min 8 (s i).toNat

variable {r : Runtime} {s s' : Shadow} {a i chunk n : ℕ} {value : ℤ}

theorem poisonShadow_granules {lo hi p q : ℕ} (h : r.Serves lo hi) (hlo : lo ≤ p) (hhi : q ≤ hi)
    (hpq : p ≤ q) :
    poisonShadow r s (p * 8) (q * 8 - p * 8) value = some (s.memset p value (q - p)) := by
  have hlow := h.low
  have hsum : p * 8 + (q * 8 - p * 8) = q * 8 := by omega
  have hdiff : (q * 8 - p * 8) / 8 = q - p := by omega
  simp [poisonShadow, h.canPoison, hsum, hdiff, addrIsAlignedByGranularity,
    h.mem (p * 8) (by omega) (by omega), h.mem (q * 8 - 8) (by omega) (by omega),
    show 8 ≤ q * 8 by omega]

theorem count_le (s : Shadow) (i : ℕ) : count s i ≤ 8 := by
  rw [count]
  split <;> omega

theorem addressIsPoisoned_eq_false : addressIsPoisoned s a = false ↔ a % 8 < count s (a / 8) := by
  have hlt := Nat.mod_lt a (Nat.succ_pos 7)
  simp only [addressIsPoisoned, count, Bool.and_eq_false_iff, bne_eq_false_iff_eq,
    decide_eq_false_iff_not]
  split <;> omega

theorem addressIsPoisoned_eq_true : addressIsPoisoned s a = true ↔ count s (a / 8) ≤ a % 8 := by
  rw [← Nat.not_lt, ← addressIsPoisoned_eq_false, Bool.not_eq_false]

theorem mem_accessible : a ∈ accessible s ↔ addressIsPoisoned s a = false := Iff.rfl

theorem accessible_eq : accessible s = Granules.within 8 (count s) :=
  Set.ext fun _ => addressIsPoisoned_eq_false

theorem closed_accessible : Granules.Closed 8 (accessible s) := by
  rw [accessible_eq]
  exact Granules.closed_within

theorem accessible_remove {l u : ℕ} (h : count s' = Granules.remove 8 l u (count s)) :
    accessible s' = Granules.fill 8 (accessible s \ Set.Ico l u) := by
  rw [accessible_eq, accessible_eq, h, Granules.within_remove (by decide) (count_le s)]

theorem accessible_add {l u : ℕ} (h : count s' = Granules.add 8 l u (count s)) :
    accessible s' = Granules.fill 8 (accessible s ∪ Set.Ico l u) := by
  rw [accessible_eq, accessible_eq, h, Granules.within_add (by decide) (count_le s)]

theorem count_store : count (s.store chunk value) i =
    if i = chunk then (if value = 0 then 8 else min 8 value.toNat) else count s i := by
  simp only [count, Shadow.store]
  split <;> rfl

theorem count_memset : count (s.memset chunk value n) i =
    if chunk ≤ i ∧ i < chunk + n then (if value = 0 then 8 else min 8 value.toNat)
    else count s i := by
  simp only [count, Shadow.memset]
  split <;> rfl

theorem memset_empty (s : Shadow) : s.memset chunk value 0 = s := by
  funext i
  exact if_neg (by omega)

theorem count_memset_zero (s : Shadow) (p q i : ℕ) :
    count (s.memset p 0 (q - p)) i = if p ≤ i ∧ i < q then 8 else count s i := by
  rw [count_memset, if_pos rfl]
  split_ifs <;> omega

theorem count_memset_neg (s : Shadow) (p q i : ℕ) (h : value < 0) :
    count (s.memset p value (q - p)) i = if p ≤ i ∧ i < q then 0 else count s i := by
  rw [count_memset]
  split_ifs <;> omega

/-- The first bytes of a granule are made accessible, up to an address in it. -/
theorem count_store_offset (s : Shadow) (h : a % 8 ≠ 0) (i : ℕ) :
    count (s.store (a / 8 * 8 / 8) (a - a / 8 * 8 : ℕ)) i =
      if i = a / 8 then a % 8 else count s i := by
  have hsub : a - a / 8 * 8 = a % 8 := by omega
  rw [count_store, Nat.mul_div_cancel _ (Nat.succ_pos 7), hsub]
  split_ifs <;> omega

end Mair.AsanPoisoning
