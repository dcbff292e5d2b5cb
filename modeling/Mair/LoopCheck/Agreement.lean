import Mair.LoopCheck.Counter

/-! # Agreement of the three counters

The count from the scalar evolution, from a reused PHI node and from the inserted counter are
one number exactly while that number is below the limit of the counter type and the correction
of the PHI node by one is no poison. -/

namespace Mair.LoopCheck

open Platform

/-! ## Corrections without wrapping -/

/-- An addition of one that is poison when it wraps, unsigned or signed. -/
def addOne (bits value : ℕ) : Option ℕ :=
  if value + 1 = 2 ^ bits ∨ value + 1 = 2 ^ (bits - 1) then none else some (value + 1)

/-- A subtraction of one that is poison when it wraps, unsigned or signed. -/
def subOne (bits value : ℕ) : Option ℕ :=
  if value = 0 ∨ value = 2 ^ (bits - 1) then none else some (value - 1)

/-- The counter that a reused PHI node gives. -/
def reusedPhi (bits : ℕ) (zeroBase beforeExiting : Bool) (value : ℕ) : Option ℕ :=
  if zeroBase && beforeExiting then addOne bits value
  else if !zeroBase && !beforeExiting then subOne bits value
  else some value

/-- The number that a counter hands to the expansion; `none` is poison. -/
def Counting.count (counterBits : ℕ) (beforeExiting : Bool) (backedges : ℕ) :
    Counting → Option Uptr
  | .phi bits zeroBase =>
      (reusedPhi bits zeroBase beforeExiting (phiValue bits zeroBase backedges)).map fun counter =>
        BitVec.ofNat 64 (getCounterBoundedByTargetTy bits counterBits counter)
  | .backedgeTaken bits =>
      some ((Counting.backedgeTaken bits).iterCounter counterBits beforeExiting backedges)
  | .inserted => some (Counting.inserted.iterCounter counterBits beforeExiting backedges)

section Corrections

variable {bits value counter counterBits backedges : ℕ} {zeroBase beforeExiting : Bool}

theorem phiValue_lt (hbits : 0 < bits) : phiValue bits zeroBase backedges < 2 ^ bits := by
  cases backedges with
  | zero =>
      have hpow := Nat.one_lt_two_pow hbits.ne'
      rw [phiValue]
      split <;> omega
  | succ backedges => exact Nat.mod_lt _ (Nat.two_pow_pos bits)

/-- Without poison the correction is the one that wraps. -/
theorem adjustPhi_of_reusedPhi (hlt : value < 2 ^ bits)
    (h : reusedPhi bits zeroBase beforeExiting value = some counter) :
    adjustPhi bits zeroBase beforeExiting value = counter := by
  unfold reusedPhi at h
  unfold adjustPhi
  split at h
  · next hadd =>
      rw [if_pos hadd]
      rw [addOne, Option.ite_none_left_eq_some] at h
      obtain ⟨hno, hsome⟩ := h
      cases hsome
      exact Nat.mod_eq_of_lt (by omega)
  · next hadd =>
      rw [if_neg hadd]
      split at h
      · next hsub =>
          rw [if_pos hsub]
          rw [subOne, Option.ite_none_left_eq_some] at h
          obtain ⟨hno, hsome⟩ := h
          cases hsome
          have heq : value + (2 ^ bits - 1) = value - 1 + 2 ^ bits := by omega
          rw [heq, Nat.add_mod_right]
          exact Nat.mod_eq_of_lt (by omega)
      · next hsub =>
          rw [if_neg hsub]
          exact Option.some.inj h

/-- What is no poison is the counter of the expansion. -/
theorem iterCounter_of_count {c : Counting} {count : Uptr}
    (hbits : ∀ bits zeroBase, c = .phi bits zeroBase → 0 < bits)
    (h : c.count counterBits beforeExiting backedges = some count) :
    c.iterCounter counterBits beforeExiting backedges = count := by
  cases c with
  | backedgeTaken bits => exact Option.some.inj h
  | inserted => exact Option.some.inj h
  | phi bits zeroBase =>
      obtain ⟨counter, hcounter, rfl⟩ := Option.map_eq_some_iff.mp h
      rw [Counting.iterCounter, adjustPhi_of_reusedPhi (phiValue_lt (hbits _ _ rfl)) hcounter]

end Corrections

/-! ## The three counts -/

/-- The number of executions, cut off at the limit of a counter type below pointer width. -/
def trueCount (counterBits executions : ℕ) : ℕ :=
  if counterBits = 64 then executions else min executions (2 ^ counterBits)

def Counting.Counts (counterBits : ℕ) (beforeExiting : Bool) (backedges : ℕ) (c : Counting) :
    Prop :=
  ∃ count, c.count counterBits beforeExiting backedges = some count ∧
    count.toNat = trueCount counterBits (countedIterations beforeExiting backedges)

/-- The correction of the PHI node does not wrap. -/
structure NoPoison (bits : ℕ) (zeroBase beforeExiting : Bool) (executions : ℕ) : Prop where
  add : zeroBase = true → beforeExiting = true → executions ≠ 2 ^ (bits - 1)
  sub : zeroBase = false → beforeExiting = false →
    executions + 1 ≠ 2 ^ (bits - 1) ∧ executions + 1 ≠ 2 ^ bits

section Counts

variable {bits counterBits backedges : ℕ} {zeroBase beforeExiting : Bool}

theorem trueCount_of_lt {executions : ℕ} (h : executions < 2 ^ counterBits) :
    trueCount counterBits executions = executions := by
  unfold trueCount
  split
  · rfl
  · exact min_eq_left h.le

theorem trueCount_of_le {executions : ℕ} (h : 2 ^ counterBits ≤ executions) :
    2 ^ counterBits ≤ trueCount counterBits executions := by
  unfold trueCount
  split
  · exact h
  · exact le_min h (Nat.le_refl _)

theorem insertedValue_closed (hbits : 0 < counterBits) :
    insertedValue counterBits beforeExiting backedges =
      min (countedIterations beforeExiting backedges) (2 ^ counterBits - 1) := by
  have hpow := Nat.one_lt_two_pow hbits.ne'
  induction backedges with
  | zero =>
      cases beforeExiting with
      | true =>
          simp only [insertedValue, countedIterations, if_true]
          omega
      | false => simp [insertedValue, countedIterations]
  | succ backedges ih =>
      have hstep : countedIterations beforeExiting (backedges + 1) =
          countedIterations beforeExiting backedges + 1 := by
        cases beforeExiting <;> rfl
      rw [insertedValue, ih, hstep]
      omega

/-- The inserted counter stops one below the limit. -/
theorem inserted_counts_iff (hbits : 0 < counterBits) (hptr : counterBits ≤ 64) :
    Counting.inserted.Counts counterBits beforeExiting backedges ↔
      countedIterations beforeExiting backedges < 2 ^ counterBits := by
  have hpow : 2 ^ counterBits ≤ 2 ^ 64 := Nat.pow_le_pow_right (by decide) hptr
  have hvalue : (Counting.inserted.iterCounter counterBits beforeExiting backedges).toNat =
      min (countedIterations beforeExiting backedges) (2 ^ counterBits - 1) := by
    have hpos := Nat.two_pow_pos counterBits
    rw [Counting.iterCounter, insertedValue_closed hbits, BitVec.toNat_ofNat]
    exact Nat.mod_eq_of_lt (by omega)
  simp only [Counting.Counts, Counting.count, Option.some.injEq, exists_eq_left', hvalue]
  constructor
  · intro h
    by_contra hle
    have hlimit := trueCount_of_le (Nat.le_of_not_lt hle)
    have hpos := Nat.two_pow_pos counterBits
    omega
  · intro h
    rw [trueCount_of_lt h]
    omega

theorem backedgeTaken_counts (hscev : bits ≤ 64) (hptr : counterBits ≤ 64)
    (h : countedIterations beforeExiting backedges < 2 ^ counterBits) :
    (Counting.backedgeTaken bits).Counts counterBits beforeExiting backedges := by
  have hpow : 2 ^ counterBits ≤ 2 ^ 64 := Nat.pow_le_pow_right (by decide) hptr
  have hcount : (if beforeExiting then BitVec.ofNat 64 backedges + 1
      else BitVec.ofNat 64 backedges) =
      BitVec.ofNat 64 (countedIterations beforeExiting backedges) := by
    cases beforeExiting with
    | true => exact (BitVec.ofNat_add backedges 1).symm
    | false => rfl
  refine ⟨_, rfl, ?_⟩
  rw [trueCount_of_lt h]
  simp only [Counting.iterCounter, hcount]
  split
  · next hclamp =>
      have hpow' : 2 ^ counterBits < 2 ^ 64 := Nat.pow_lt_pow_right (by decide) (by omega)
      rw [umin_ofNat (by omega) hpow', min_eq_left h.le, BitVec.toNat_ofNat]
      exact Nat.mod_eq_of_lt (by omega)
  · rw [BitVec.toNat_ofNat]
    exact Nat.mod_eq_of_lt (by omega)

theorem phiValue_closed (hbits : 0 < bits) : phiValue bits zeroBase backedges =
    (backedges + if zeroBase then 0 else 1) % 2 ^ bits := by
  have hpow := Nat.one_lt_two_pow hbits.ne'
  induction backedges with
  | zero =>
      rw [phiValue, Nat.mod_eq_of_lt]
      · omega
      · split <;> omega
  | succ backedges ih =>
      rw [phiValue, ih, Nat.mod_add_mod]
      congr 1
      omega

theorem noPoison_add {executions : ℕ} :
    NoPoison bits true true executions ↔ executions ≠ 2 ^ (bits - 1) := by
  constructor
  · intro hno
    exact hno.add rfl rfl
  · intro hne
    exact ⟨fun _ _ => hne, fun hbase => absurd hbase (by decide)⟩

theorem noPoison_sub {executions : ℕ} : NoPoison bits false false executions ↔
    executions + 1 ≠ 2 ^ (bits - 1) ∧ executions + 1 ≠ 2 ^ bits := by
  constructor
  · intro hno
    exact hno.sub rfl rfl
  · intro hne
    exact ⟨fun hbase => absurd hbase (by decide), fun _ _ => hne⟩

/-- A PHI node that is used as it is gives no poison. -/
theorem noPoison_of_ne {executions : ℕ} (h : zeroBase ≠ beforeExiting) :
    NoPoison bits zeroBase beforeExiting executions :=
  ⟨fun hbase hbefore => absurd (hbase.trans hbefore.symm) h,
    fun hbase hbefore => absurd (hbase.trans hbefore.symm) h⟩

/-- Below the limit a reused PHI node gives the number of executions or poison. -/
theorem reusedPhi_eq_some_iff {counter : ℕ} (hbits : 0 < bits)
    (h : countedIterations beforeExiting backedges < 2 ^ bits) :
    reusedPhi bits zeroBase beforeExiting (phiValue bits zeroBase backedges) = some counter ↔
      counter = countedIterations beforeExiting backedges ∧
        NoPoison bits zeroBase beforeExiting (countedIterations beforeExiting backedges) := by
  have hpow := Nat.one_lt_two_pow hbits.ne'
  rw [phiValue_closed hbits]
  cases zeroBase with
  | true =>
      cases beforeExiting with
      | true =>
          have hlt : backedges + 1 < 2 ^ bits := h
          have hmod : backedges % 2 ^ bits = backedges := Nat.mod_eq_of_lt (by omega)
          simp only [reusedPhi, countedIterations, noPoison_add, Bool.and_self, if_true, Nat.add_zero,
            hmod, addOne, Option.ite_none_left_eq_some, Option.some.injEq]
          grind
      | false =>
          have hpoison : NoPoison bits true false backedges := noPoison_of_ne (by decide)
          have hmod : backedges % 2 ^ bits = backedges := Nat.mod_eq_of_lt h
          simp [reusedPhi, countedIterations, hpoison, hmod, eq_comm]
  | false =>
      cases beforeExiting with
      | true =>
          have hlt : backedges + 1 < 2 ^ bits := h
          have hpoison : NoPoison bits false true (backedges + 1) := noPoison_of_ne (by decide)
          have hmod : (backedges + 1) % 2 ^ bits = backedges + 1 := Nat.mod_eq_of_lt hlt
          simp [reusedPhi, countedIterations, hpoison, hmod, eq_comm]
      | false =>
          have hlt : backedges < 2 ^ bits := h
          simp only [reusedPhi, countedIterations, noPoison_sub, Bool.false_eq_true, if_false,
            Bool.not_false, Bool.and_self, if_true, subOne,
            Option.ite_none_left_eq_some, Option.some.injEq]
          by_cases hlast : backedges + 1 = 2 ^ bits
          · rw [hlast, Nat.mod_self]
            simp
          · rw [Nat.mod_eq_of_lt (by omega)]
            grind

theorem phi_counts_iff (hptr : counterBits ≤ bits) (hbits : 0 < bits) (hphi : bits ≤ 64)
    (h : countedIterations beforeExiting backedges < 2 ^ counterBits) :
    (Counting.phi bits zeroBase).Counts counterBits beforeExiting backedges ↔
      NoPoison bits zeroBase beforeExiting (countedIterations beforeExiting backedges) := by
  have hpow : 2 ^ counterBits ≤ 2 ^ bits := Nat.pow_le_pow_right (by decide) hptr
  have hpow' : 2 ^ bits ≤ 2 ^ 64 := Nat.pow_le_pow_right (by decide) hphi
  have hiff : ∀ counter, _ := fun counter =>
    @reusedPhi_eq_some_iff bits backedges zeroBase beforeExiting counter hbits (by omega)
  simp only [Counting.Counts, Counting.count, Option.map_eq_some_iff, hiff, trueCount_of_lt h]
  constructor
  · intro hcounts
    obtain ⟨_, ⟨_, ⟨_, hno⟩, _⟩, _⟩ := hcounts
    exact hno
  · intro hno
    refine ⟨_, ⟨_, ⟨rfl, hno⟩, rfl⟩, ?_⟩
    have hbounded : getCounterBoundedByTargetTy bits counterBits
        (countedIterations beforeExiting backedges) =
          countedIterations beforeExiting backedges := by
      unfold getCounterBoundedByTargetTy
      split
      · rfl
      · exact min_eq_left h.le
    rw [hbounded, BitVec.toNat_ofNat]
    exact Nat.mod_eq_of_lt (by omega)

end Counts

/-! ## Agreement -/

/-- Each of the three counters gives the number of executions. -/
def CountsAgree (scevBits phiBits : ℕ) (zeroBase : Bool) (counterBits : ℕ)
    (beforeExiting : Bool) (backedges : ℕ) : Prop :=
  ∀ c ∈ [.backedgeTaken scevBits, .phi phiBits zeroBase, .inserted],
    Counting.Counts counterBits beforeExiting backedges c

/-- The counters agree exactly while the number of executions is below the limit of the
counter type and the correction of the PHI node does not wrap. -/
theorem countsAgree_iff {β : Type*} [DecidableEq β] {phi : Phi β} {predecessor latch : β}
    {scevBits phiBits counterBits : ℕ} {zeroBase : Bool} (beforeExiting : Bool) (backedges : ℕ)
    (hphi : isLoopCountingPhi counterBits phi predecessor latch = some (phiBits, zeroBase))
    (hpos : 0 < counterBits) (hscev : scevBits ≤ 64) (hsupported : phiBits ≤ 64) :
    CountsAgree scevBits phiBits zeroBase counterBits beforeExiting backedges ↔
      countedIterations beforeExiting backedges < 2 ^ counterBits ∧
        NoPoison phiBits zeroBase beforeExiting (countedIterations beforeExiting backedges) := by
  obtain ⟨-, hwide, hint, -⟩ := isLoopCountingPhi_spec hphi
  have hptr : counterBits ≤ 64 := by omega
  have hinserted := @inserted_counts_iff counterBits backedges beforeExiting hpos hptr
  constructor
  · intro hagree
    have hlt := hinserted.mp (hagree .inserted (by simp))
    refine ⟨hlt, ?_⟩
    exact (phi_counts_iff hwide (by omega) hsupported hlt).mp (hagree _ (by simp))
  · intro h c hc
    simp only [List.mem_cons, List.not_mem_nil, or_false] at hc
    rcases hc with rfl | rfl | rfl
    · exact backedgeTaken_counts hscev hptr h.1
    · exact (phi_counts_iff hwide (by omega) hsupported h.1).mpr h.2
    · exact hinserted.mpr h.1

/-! ## A byte counter at its limit -/

def wordPhi : Phi (Fin 3) where
  bits := some 32
  incoming := [(.constant 0, 0), (.addOne, 2)]

theorem wordPhi_counting : isLoopCountingPhi 8 wordPhi 0 2 = some (32, true) := by decide

/-- After 256 executions the inserted counter of a byte stands at 255. -/
theorem byteCounter_disagrees :
    isLoopCountingPhi 8 wordPhi 0 2 = some (32, true) ∧
      ¬CountsAgree 32 32 true 8 true 255 := by
  refine ⟨wordPhi_counting, ?_⟩
  intro h
  have hlt := (inserted_counts_iff (by decide) (by decide)).mp (h .inserted (by simp))
  exact absurd hlt (by decide)

theorem countsAgree_iff_byteCounter :
    CountsAgree 32 32 true 8 true 255 ↔
      countedIterations true 255 < 2 ^ 8 ∧ NoPoison 32 true true (countedIterations true 255) :=
  countsAgree_iff true 255 wordPhi_counting (by decide) (by decide) (by decide)

end Mair.LoopCheck
