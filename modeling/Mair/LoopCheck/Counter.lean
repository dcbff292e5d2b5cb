import Mathlib.Data.BitVec
import Mair.LoopCheck.Loops
import Mair.Platform.Mapping

/-! # Counting the iterations of a loop

The number of iterations comes from the backedge-taken count of the scalar evolution, from a
PHI node of the header that counts already, or from a new one. -/

namespace Mair.LoopCheck

open Ir Platform

variable {β : Type*}

/-! ## PHI nodes -/

/-- The incoming values that the test for a counter tells apart. -/
inductive Incoming where
  | constant (value : ℕ)
  | addOne
  | other

/-- `bits` is the width of an integer PHI node. -/
structure Phi (β : Type*) where
  bits : Option ℕ
  incoming : List (Incoming × β)

structure PhiFlags where
  hasZeroOrOne : Bool
  hasAddUp : Bool
  zeroBase : Bool

section Phis

variable [DecidableEq β]

def PhiFlags.visit (predecessor latch : β) (flags : PhiFlags) : Incoming × β → PhiFlags
  | (.constant value, bb) =>
      if (value = 1 ∨ value = 0) ∧ bb = predecessor then
        { flags with hasZeroOrOne := true, zeroBase := value = 0 }
      else flags
  | (.addOne, bb) => { flags with hasAddUp := bb = latch }
  | (.other, _) => flags

/-- `some zeroBase` when the PHI node counts the iterations from zero or from one. -/
def isLoopCountingPhi (targetBits : ℕ) (phi : Phi β) (predecessor latch : β) :
    Option (ℕ × Bool) :=
  if phi.incoming.length ≠ 2 then none
  else
    phi.bits.bind fun bits =>
      if bits < targetBits ∨ bits < 32 then none
      else
        let flags := phi.incoming.foldl (PhiFlags.visit predecessor latch) ⟨false, false, false⟩
        if flags.hasZeroOrOne && flags.hasAddUp then some (bits, flags.zeroBase) else none

theorem PhiFlags.hasAddUp_visit {predecessor latch : β} {flags : PhiFlags} {x : Incoming × β}
    (h : (flags.visit predecessor latch x).hasAddUp = true) :
    x = (.addOne, latch) ∨ flags.hasAddUp = true := by
  obtain ⟨value, bb⟩ := x
  cases value with
  | constant value =>
      rw [visit] at h
      split at h
      · exact Or.inr h
      · exact Or.inr h
  | addOne =>
      have hbb : bb = latch := of_decide_eq_true h
      rw [hbb]
      exact Or.inl rfl
  | other => exact Or.inr h

theorem PhiFlags.hasZeroOrOne_visit {predecessor latch : β} {flags : PhiFlags}
    {x : Incoming × β} (h : (flags.visit predecessor latch x).hasZeroOrOne = true) :
    x = (.constant (if (flags.visit predecessor latch x).zeroBase then 0 else 1), predecessor) ∨
      flags.hasZeroOrOne = true ∧
        (flags.visit predecessor latch x).zeroBase = flags.zeroBase := by
  obtain ⟨value, bb⟩ := x
  cases value with
  | constant value =>
      rw [visit] at h ⊢
      split at h
      · next hbase =>
          obtain ⟨hvalue, rfl⟩ := hbase
          refine Or.inl ?_
          rcases hvalue with rfl | rfl
          · simp
          · simp
      · next hbase =>
          rw [if_neg hbase]
          exact Or.inr ⟨h, rfl⟩
  | addOne => exact Or.inr ⟨h, rfl⟩
  | other => exact Or.inr ⟨h, rfl⟩

/-- An accepted node starts at zero or one and is increased by one on the back edge. -/
theorem isLoopCountingPhi_spec {targetBits bits : ℕ} {phi : Phi β} {predecessor latch : β}
    {zeroBase : Bool}
    (h : isLoopCountingPhi targetBits phi predecessor latch = some (bits, zeroBase)) :
    phi.bits = some bits ∧ targetBits ≤ bits ∧ 32 ≤ bits ∧
      phi.incoming.Perm
        [(.constant (if zeroBase then 0 else 1), predecessor), (.addOne, latch)] := by
  rw [isLoopCountingPhi] at h
  split at h
  · cases h
  · next hlen =>
      obtain ⟨width, hwidth, hrest⟩ := Option.bind_eq_some_iff.mp h
      split at hrest
      · cases hrest
      · next hwide =>
          obtain ⟨x, y, hxy⟩ := List.length_eq_two.mp (not_not.mp hlen)
          rw [hxy] at hrest ⊢
          simp only [List.foldl_cons, List.foldl_nil, Option.ite_none_right_eq_some,
            Option.some.injEq, Prod.mk.injEq, Bool.and_eq_true] at hrest
          obtain ⟨⟨hzero, hadd⟩, rfl, hbase⟩ := hrest
          refine ⟨hwidth, by omega, by omega, ?_⟩
          rcases PhiFlags.hasZeroOrOne_visit hzero with hy | ⟨hx, heq⟩
          · rcases PhiFlags.hasAddUp_visit hadd with hy' | hx
            · rw [hy] at hy'
              cases hy'
            · rcases PhiFlags.hasAddUp_visit hx with hx | hx
              · rw [hbase] at hy
                rw [hx, hy]
                exact List.Perm.swap _ _ []
              · cases hx
          · rw [heq] at hbase
            rcases PhiFlags.hasZeroOrOne_visit hx with hx | ⟨hx, -⟩
            · rw [hbase] at hx
              rcases PhiFlags.hasAddUp_visit hadd with hy | hx'
              · rw [hx, hy]
              · rcases PhiFlags.hasAddUp_visit hx' with hx' | hx'
                · rw [hx] at hx'
                  cases hx'
                · cases hx'
            · cases hx

end Phis

/-! ## The counter -/

inductive Counting where
  | backedgeTaken (bits : ℕ)
  | phi (bits : ℕ) (zeroBase : Bool)
  | inserted

/-- The choice of a counter for a loop whose count is not known statically. -/
def getOrInsertLoopCounter [DecidableEq β] {f : Function β} (l : Loop f) (phis : List (Phi β))
    (counterBits : ℕ) : Option Counting :=
  l.getLoopPredecessor.bind fun predecessor =>
    l.getLoopLatch.bind fun latch =>
      if (predecessors f l.header).length ≠ 2 then none
      else
        match phis.findSome? fun phi => isLoopCountingPhi counterBits phi predecessor latch with
        | some (bits, zeroBase) => some (.phi bits zeroBase)
        | none => some .inserted

/-- The value of a counting PHI node after `backedges` back edges. -/
def phiValue (bits : ℕ) (zeroBase : Bool) : ℕ → ℕ
  | 0 => if zeroBase then 0 else 1
  | backedges + 1 => (phiValue bits zeroBase backedges + 1) % 2 ^ bits

/-- The value of the inserted counter, which is increased by a saturating addition. -/
def insertedValue (counterBits : ℕ) (beforeExiting : Bool) : ℕ → ℕ
  | 0 => if beforeExiting then 1 else 0
  | backedges + 1 => min (insertedValue counterBits beforeExiting backedges + 1) (2 ^ counterBits - 1)

def adjustPhi (bits : ℕ) (zeroBase beforeExiting : Bool) (value : ℕ) : ℕ :=
  if zeroBase && beforeExiting then (value + 1) % 2 ^ bits
  else if !zeroBase && !beforeExiting then (value + (2 ^ bits - 1)) % 2 ^ bits
  else value

/-- The counter of `bits` bits as a number that exceeds the target type by one at most. -/
def getCounterBoundedByTargetTy (bits counterBits value : ℕ) : ℕ :=
  if bits = counterBits then value else min value (2 ^ counterBits)

def umin (a b : Uptr) : Uptr := if a ≤ b then a else b

/-- The counter behind a loop that has taken `backedges` back edges. -/
def Counting.iterCounter (counterBits : ℕ) (beforeExiting : Bool) (backedges : ℕ) :
    Counting → Uptr
  | .backedgeTaken bits =>
      let backedgeTakenCount := BitVec.ofNat 64 backedges
      let iterCounter := if beforeExiting then backedgeTakenCount + 1 else backedgeTakenCount
      if counterBits < bits then umin iterCounter (BitVec.ofNat 64 (2 ^ counterBits))
      else iterCounter
  | .phi bits zeroBase =>
      let counter := adjustPhi bits zeroBase beforeExiting (phiValue bits zeroBase backedges)
      BitVec.ofNat 64 (getCounterBoundedByTargetTy bits counterBits counter)
  | .inserted => BitVec.ofNat 64 (insertedValue counterBits beforeExiting backedges)

/-! ## What the counter is worth -/

/-- The iterations that the check is to cover. -/
def countedIterations (beforeExiting : Bool) (backedges : ℕ) : ℕ :=
  if beforeExiting then backedges + 1 else backedges

/-- The number of iterations is below the limit of the counter's own type. -/
def Counting.Fits (counterBits : ℕ) (beforeExiting : Bool) (backedges : ℕ) : Counting → Prop
  | .backedgeTaken bits => bits ≤ 64 ∧ backedges < 2 ^ bits ∧ backedges + 1 < 2 ^ 64
  | .phi bits _ => backedges + 1 < 2 ^ bits
  | .inserted => countedIterations beforeExiting backedges < 2 ^ counterBits

section Values

variable {bits counterBits backedges : ℕ} {zeroBase beforeExiting : Bool}

theorem phiValue_eq (h : backedges + 1 < 2 ^ bits) :
    phiValue bits zeroBase backedges = backedges + if zeroBase then 0 else 1 := by
  induction backedges with
  | zero => simp [phiValue]
  | succ backedges ih =>
      rw [phiValue, ih (by omega), Nat.mod_eq_of_lt]
      · omega
      · cases zeroBase <;> simp <;> omega

theorem insertedValue_eq (h : countedIterations beforeExiting backedges < 2 ^ counterBits) :
    insertedValue counterBits beforeExiting backedges =
      countedIterations beforeExiting backedges := by
  induction backedges with
  | zero => cases beforeExiting <;> rfl
  | succ backedges ih =>
      have hstep : countedIterations beforeExiting (backedges + 1) =
          countedIterations beforeExiting backedges + 1 := by
        cases beforeExiting <;> rfl
      rw [hstep] at h ⊢
      rw [insertedValue, ih (by omega)]
      omega

theorem adjustPhi_eq (h : backedges + 1 < 2 ^ bits) :
    adjustPhi bits zeroBase beforeExiting (phiValue bits zeroBase backedges) =
      countedIterations beforeExiting backedges := by
  rw [phiValue_eq h]
  cases zeroBase with
  | true =>
      cases beforeExiting with
      | true => simp [adjustPhi, countedIterations, Nat.mod_eq_of_lt h]
      | false => simp [adjustPhi, countedIterations]
  | false =>
      cases beforeExiting with
      | true => simp [adjustPhi, countedIterations]
      | false =>
          have hsum : backedges + 1 + (2 ^ bits - 1) = backedges + 2 ^ bits := by omega
          simp only [adjustPhi, countedIterations, Bool.false_eq_true, if_false, Bool.not_false,
            Bool.and_self, if_true, hsum, Nat.add_mod_right]
          exact Nat.mod_eq_of_lt (by omega)

theorem umin_ofNat {a b : ℕ} (ha : a < 2 ^ 64) (hb : b < 2 ^ 64) :
    umin (BitVec.ofNat 64 a) (BitVec.ofNat 64 b) = BitVec.ofNat 64 (min a b) := by
  have hle : BitVec.ofNat 64 a ≤ BitVec.ofNat 64 b ↔ a ≤ b := by
    rw [BitVec.le_def, BitVec.toNat_ofNat, BitVec.toNat_ofNat, Nat.mod_eq_of_lt ha,
      Nat.mod_eq_of_lt hb]
  by_cases h : a ≤ b
  · rw [umin, if_pos (hle.mpr h), min_eq_left h]
  · rw [umin, if_neg (mt hle.mp h), min_eq_right (by omega)]

/-- A counter that fits is the number of counted iterations, cut off at the limit of the type
that the address is computed in. -/
theorem iterCounter_eq {c : Counting} (h : c.Fits counterBits beforeExiting backedges) :
    c.iterCounter counterBits beforeExiting backedges =
      BitVec.ofNat 64 (min (countedIterations beforeExiting backedges) (2 ^ counterBits)) := by
  have hle : countedIterations beforeExiting backedges ≤ backedges + 1 := by
    unfold countedIterations
    split <;> omega
  cases c with
  | backedgeTaken bits =>
      obtain ⟨hptr, hbtc, hlt⟩ := h
      have hcount : (if beforeExiting then BitVec.ofNat 64 backedges + 1
          else BitVec.ofNat 64 backedges) =
          BitVec.ofNat 64 (countedIterations beforeExiting backedges) := by
        cases beforeExiting with
        | true => exact (BitVec.ofNat_add backedges 1).symm
        | false => rfl
      simp only [Counting.iterCounter, hcount]
      by_cases hw : counterBits < bits
      · have hpow : 2 ^ counterBits < 2 ^ 64 := Nat.pow_lt_pow_right (by decide) (by omega)
        rw [if_pos hw, umin_ofNat (by omega) hpow]
      · have hpow : 2 ^ bits ≤ 2 ^ counterBits := Nat.pow_le_pow_right (by decide) (by omega)
        rw [if_neg hw, min_eq_left (by omega)]
  | phi bits zeroBase =>
      simp only [Counting.Fits] at h
      simp only [Counting.iterCounter, adjustPhi_eq h]
      by_cases hw : bits = counterBits
      · subst hw
        rw [getCounterBoundedByTargetTy, if_pos rfl, min_eq_left (by omega)]
      · rw [getCounterBoundedByTargetTy, if_neg hw]
  | inserted =>
      simp only [Counting.Fits] at h
      simp only [Counting.iterCounter, insertedValue_eq h]
      rw [min_eq_left h.le]

end Values

end Mair.LoopCheck
