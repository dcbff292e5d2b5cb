import Mathlib.Data.Nat.Notation
import Mathlib.Tactic.Common

/-! # String functions of the C library

The loops read the memory as it was before the call, since the operands do not overlap. -/

namespace Mair.Interceptor

/-! ## Lengths -/

/-- The length of the string at `s`, or `n` if it is longer. -/
def strnlen (mem : ℕ → UInt8) (s : ℕ) : ℕ → ℕ
  | 0 => 0
  | n + 1 => if mem s = 0 then 0 else strnlen mem (s + 1) n + 1

/-- A bound of every loop over a string. -/
def addressSpace : ℕ := 0x10000000000000000

def internalStrlen (mem : ℕ → UInt8) (s : ℕ) : ℕ := strnlen mem s addressSpace

def Terminated (mem : ℕ → UInt8) (s : ℕ) : Prop := ∃ i < addressSpace, mem (s + i) = 0

section Lengths

variable {mem : ℕ → UInt8}

theorem strnlen_le (s n : ℕ) : strnlen mem s n ≤ n := by
  induction n generalizing s with
  | zero => exact Nat.le_refl 0
  | succ n ih =>
      rw [strnlen]
      split_ifs with hzero
      · exact Nat.zero_le _
      · exact Nat.succ_le_succ (ih (s + 1))

theorem strnlen_lt_of_zero {s n i : ℕ} (hi : i < n) (hzero : mem (s + i) = 0) :
    strnlen mem s n < n := by
  induction n generalizing s i with
  | zero => exact absurd hi (Nat.not_lt_zero i)
  | succ n ih =>
      rw [strnlen]
      split_ifs with hs
      · exact Nat.succ_pos n
      · cases i with
        | zero => exact absurd hzero hs
        | succ i =>
            apply Nat.succ_lt_succ
            apply ih (Nat.lt_of_succ_lt_succ hi)
            rwa [Nat.add_right_comm, Nat.add_assoc]

theorem Terminated.strlen_lt {s : ℕ} (h : Terminated mem s) :
    internalStrlen mem s < addressSpace := by
  obtain ⟨i, hi, hzero⟩ := h
  exact strnlen_lt_of_zero hi hzero

end Lengths

/-! ## Loops -/

/-- One access of a loop: a load from the source, a store of the byte that was loaded last, or a
store of a zero of its own. -/
inductive Access where
  | load (address : ℕ)
  | copy (address source : ℕ)
  | fill (address : ℕ)
  deriving DecidableEq

/-- The loop of `strcpy` and `strcat`. -/
def copyString (mem : ℕ → UInt8) (d s : ℕ) : ℕ → List Access
  | 0 => []
  | n + 1 =>
      .load s :: .copy d s :: if mem s = 0 then [] else copyString mem (d + 1) (s + 1) n

def padZeros (d : ℕ) : ℕ → List Access
  | 0 => []
  | n + 1 => .fill d :: padZeros (d + 1) n

/-- The loop of `strncpy`. -/
def copyPadded (mem : ℕ → UInt8) (d s : ℕ) : ℕ → List Access
  | 0 => []
  | n + 1 =>
      .load s :: .copy d s ::
        if mem s = 0 then padZeros (d + 1) n else copyPadded mem (d + 1) (s + 1) n

/-- The loop of `strncat`, which ends with a terminator in every case. -/
def copyTerminated (mem : ℕ → UInt8) (d s : ℕ) : ℕ → List Access
  | 0 => [.fill d]
  | n + 1 =>
      .load s ::
        if mem s = 0 then [.fill d] else .copy d s :: copyTerminated mem (d + 1) (s + 1) n

/-- The calls of the functions, on operands that the caller gives. -/
inductive StringCall where
  | strcpy
  | strncpy (size : ℕ)
  | strcat
  | strncat (size : ℕ)

def StringCall.accesses (mem : ℕ → UInt8) (d s : ℕ) : StringCall → List Access
  | .strcpy => copyString mem d s addressSpace
  | .strncpy size => copyPadded mem d s size
  | .strcat => copyString mem (d + internalStrlen mem d) s addressSpace
  | .strncat size => copyTerminated mem (d + internalStrlen mem d) s size

/-! ## What a loop does -/

/-- It loads `r` bytes from `s`, and stores `c` of them and then `g` zeros at `d`. -/
structure Performs (as : List Access) (d s r c g : ℕ) : Prop where
  load : ∀ y, .load y ∈ as ↔ s ≤ y ∧ y < s + r
  copy : ∀ x y, .copy x y ∈ as ↔ d ≤ x ∧ x < d + c ∧ y + d = s + x
  fill : ∀ x, .fill x ∈ as ↔ d + c ≤ x ∧ x < d + c + g

section Loops

variable {mem : ℕ → UInt8} {as : List Access} {d s r c g n : ℕ}

/-- One round of a loop. -/
theorem Performs.cons (h : Performs as (d + 1) (s + 1) r c g) :
    Performs (.load s :: .copy d s :: as) d s (r + 1) (c + 1) g := by
  refine ⟨fun y => ?_, fun x y => ?_, fun x => ?_⟩
  · simp only [List.mem_cons, Access.load.injEq, reduceCtorEq, false_or, h.load]
    omega
  · simp only [List.mem_cons, Access.copy.injEq, reduceCtorEq, false_or, h.copy]
    omega
  · simp only [List.mem_cons, reduceCtorEq, false_or, h.fill]
    omega

/-- The last round of a loop that copies the terminator. -/
theorem performs_last (has : ∀ x, .fill x ∈ as ↔ d + 1 ≤ x ∧ x < d + 1 + g)
    (hfill : ∀ a ∈ as, ∃ x, a = .fill x) :
    Performs (.load s :: .copy d s :: as) d s 1 1 g := by
  have hload : ∀ y, .load y ∉ as := by
    intro y hy
    obtain ⟨x, hx⟩ := hfill _ hy
    cases hx
  have hcopy : ∀ x y, .copy x y ∉ as := by
    intro x y hy
    obtain ⟨z, hz⟩ := hfill _ hy
    cases hz
  refine ⟨fun y => ?_, fun x y => ?_, fun x => ?_⟩
  · simp only [List.mem_cons, Access.load.injEq, reduceCtorEq, hload, or_false]
    omega
  · simp only [List.mem_cons, Access.copy.injEq, reduceCtorEq, false_or, hcopy, or_false]
    omega
  · simp only [List.mem_cons, reduceCtorEq, false_or, has]

theorem performs_nil : Performs [] d s 0 0 0 := by
  refine ⟨fun y => ?_, fun x y => ?_, fun x => ?_⟩
  · simp only [List.not_mem_nil, false_iff]
    omega
  · simp only [List.not_mem_nil, false_iff]
    omega
  · simp only [List.not_mem_nil, false_iff]
    omega

theorem copyString_performs (h : strnlen mem s n < n) :
    Performs (copyString mem d s n) d s (strnlen mem s n + 1) (strnlen mem s n + 1) 0 := by
  induction n generalizing d s with
  | zero => exact absurd h (Nat.not_lt_zero _)
  | succ n ih =>
      rw [copyString]
      rw [strnlen] at h ⊢
      split_ifs at h ⊢ with hzero
      · apply performs_last
        · intro x
          simp only [List.not_mem_nil, false_iff]
          omega
        · intro a ha
          cases ha
      · exact (ih (Nat.lt_of_succ_lt_succ h)).cons

theorem fill_mem_padZeros (x : ℕ) : .fill x ∈ padZeros d n ↔ d ≤ x ∧ x < d + n := by
  induction n generalizing d with
  | zero =>
      simp only [padZeros, List.not_mem_nil, false_iff]
      omega
  | succ n ih =>
      simp only [padZeros, List.mem_cons, Access.fill.injEq, ih]
      omega

theorem eq_fill_of_mem_padZeros {a : Access} (h : a ∈ padZeros d n) : ∃ x, a = .fill x := by
  induction n generalizing d with
  | zero => cases h
  | succ n ih =>
      rw [padZeros, List.mem_cons] at h
      cases h with
      | inl heq => exact ⟨d, heq⟩
      | inr hmem => exact ih hmem

theorem copyPadded_performs :
    Performs (copyPadded mem d s n) d s (min n (strnlen mem s n + 1))
      (min n (strnlen mem s n + 1)) (n - min n (strnlen mem s n + 1)) := by
  induction n generalizing d s with
  | zero => simpa [copyPadded] using performs_nil
  | succ n ih =>
      rw [copyPadded, strnlen]
      split_ifs with hzero
      · rw [Nat.zero_add, Nat.min_eq_right (by omega)]
        apply performs_last
        · intro x
          rw [fill_mem_padZeros, Nat.add_sub_cancel]
        · intro a ha
          exact eq_fill_of_mem_padZeros ha
      · rw [Nat.succ_min_succ, Nat.add_sub_add_right]
        exact ih.cons

theorem copyTerminated_performs :
    Performs (copyTerminated mem d s n) d s (min n (strnlen mem s n + 1)) (strnlen mem s n) 1 := by
  induction n generalizing d s with
  | zero =>
      refine ⟨fun y => ?_, fun x y => ?_, fun x => ?_⟩
      · simp only [copyTerminated, strnlen, List.mem_singleton, reduceCtorEq, false_iff]
        omega
      · simp only [copyTerminated, strnlen, List.mem_singleton, reduceCtorEq, false_iff]
        omega
      · simp only [copyTerminated, strnlen, List.mem_singleton, Access.fill.injEq]
        omega
  | succ n ih =>
      rw [copyTerminated, strnlen]
      split_ifs with hzero
      · rw [Nat.zero_add, Nat.min_eq_right (by omega)]
        refine ⟨fun y => ?_, fun x y => ?_, fun x => ?_⟩
        · simp only [List.mem_cons, Access.load.injEq, reduceCtorEq, List.not_mem_nil, or_false]
          omega
        · simp only [List.mem_cons, reduceCtorEq, List.not_mem_nil, or_false, false_iff]
          omega
        · simp only [List.mem_cons, Access.fill.injEq, reduceCtorEq, List.not_mem_nil, or_false,
            false_or]
          omega
      · rw [Nat.succ_min_succ]
        exact ih.cons

end Loops

end Mair.Interceptor
