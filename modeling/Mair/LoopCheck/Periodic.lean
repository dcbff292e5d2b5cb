import Mathlib.Data.BitVec
import Mathlib.Tactic.Ring
import Mair.LoopCheck.Model

/-! # What a combined check covers

A call that runs over a positive step covers the accesses exactly. Negative steps are reduced
to positive ones, by the pass or by the runtime. -/

namespace Mair.LoopCheck

open Platform

/-! ## The accesses of a loop -/

/-- The address of the access in iteration `i`. -/
def addrAt (start step : Uptr) (i : ℕ) : ℤ := start.toNat + i * step.toInt

/-- The byte ranges of `n` accesses of `s` bytes do not wrap. -/
def NoWrap (start step : Uptr) (n s : ℕ) : Prop :=
  ∀ i < n, 0 ≤ addrAt start step i ∧ addrAt start step i + s < 2 ^ 64

/-- The checks cover exactly the accesses: as a union of bytes, or one by one. -/
inductive Exact (addr : ℕ → ℤ) (n s : ℕ) : List Check → Prop where
  | range {beg size : Uptr}
      (h : ∀ b : ℕ, (beg.toNat ≤ b ∧ b < beg.toNat + size.toNat) ↔
        ∃ i < n, addr i ≤ b ∧ b < addr i + s) : Exact addr n s [.range beg size]
  | accesses {addrs : List Uptr}
      (h : ∀ a : Uptr, a ∈ addrs ↔ ∃ i < n, (a.toNat : ℤ) = addr i) :
      Exact addr n s (addrs.map .access)

/-- The lowest address of the accesses. -/
def lowest (start step : Uptr) (n : ℕ) : Uptr :=
  if step.toInt < 0 then start + BitVec.ofNat 64 (n - 1) * step else start

section Exactness

variable {addr addr' : ℕ → ℤ} {n s : ℕ} {checks : List Check}

theorem exists_reverse {P : ℤ → Prop} (h : ∀ i < n, addr' i = addr (n - 1 - i)) :
    (∃ i < n, P (addr i)) ↔ ∃ i < n, P (addr' i) := by
  constructor
  · rintro ⟨i, hi, hP⟩
    refine ⟨n - 1 - i, by omega, ?_⟩
    rw [h _ (by omega)]
    rwa [show n - 1 - (n - 1 - i) = i by omega]
  · rintro ⟨i, hi, hP⟩
    exact ⟨n - 1 - i, by omega, h i hi ▸ hP⟩

theorem exact_iff_of_reverse (h : ∀ i < n, addr' i = addr (n - 1 - i)) :
    Exact addr n s checks ↔ Exact addr' n s checks := by
  have hbyte : ∀ b : ℕ, (∃ i < n, addr i ≤ b ∧ b < addr i + s) ↔
      ∃ i < n, addr' i ≤ b ∧ b < addr' i + s :=
    fun b => exists_reverse (P := fun x => x ≤ b ∧ b < x + s) h
  have haddr : ∀ a : Uptr, (∃ i < n, (a.toNat : ℤ) = addr i) ↔
      ∃ i < n, (a.toNat : ℤ) = addr' i :=
    fun a => exists_reverse (P := fun x => (a.toNat : ℤ) = x) h
  constructor
  · rintro (⟨h⟩ | ⟨h⟩)
    · exact .range fun b => (h b).trans (hbyte b)
    · exact .accesses fun a => (h a).trans (haddr a)
  · rintro (⟨h⟩ | ⟨h⟩)
    · exact .range fun b => (h b).trans (hbyte b).symm
    · exact .accesses fun a => (h a).trans (haddr a).symm

theorem exact_range_iff {beg size : Uptr} : Exact addr n s [.range beg size] ↔
    ∀ b : ℕ, (beg.toNat ≤ b ∧ b < beg.toNat + size.toNat) ↔
      ∃ i < n, addr i ≤ b ∧ b < addr i + s := by
  constructor
  · intro h
    generalize hchecks : [Check.range beg size] = checks at h
    cases h with
    | range h =>
        rw [List.cons.injEq, Check.range.injEq] at hchecks
        obtain ⟨⟨rfl, rfl⟩, -⟩ := hchecks
        exact h
    | @accesses addrs _ => cases addrs <;> simp at hchecks
  · exact .range

theorem exact_accesses_iff {addrs : List Uptr} : Exact addr n s (addrs.map .access) ↔
    ∀ a : Uptr, a ∈ addrs ↔ ∃ i < n, (a.toNat : ℤ) = addr i := by
  constructor
  · intro h
    generalize hchecks : addrs.map Check.access = checks at h
    cases h with
    | range _ => cases addrs <;> simp at hchecks
    | @accesses addrs' h =>
        have hinj : Function.Injective Check.access := fun _ _ => Check.access.inj
        rwa [hinj.list_map hchecks]
  · exact .accesses

/-- A loop that is run has something to check. -/
theorem not_exact_nil (hn : 1 ≤ n) {a : Uptr} (ha : (a.toNat : ℤ) = addr 0) :
    ¬Exact addr n s [] := by
  intro h
  have hmem : ∀ a : Uptr, a ∈ [] ↔ ∃ i < n, (a.toNat : ℤ) = addr i := exact_accesses_iff.mp h
  exact absurd ((hmem a).mpr ⟨0, hn, ha⟩) List.not_mem_nil

end Exactness

/-! ## Addresses as integers -/

section Addresses

variable {start step : Uptr} {n s k : ℕ}

/-- An address expression that does not wrap has the value of the integer expression. -/
theorem toNat_add_mul (h : 0 ≤ addrAt start step k) (h' : addrAt start step k < 2 ^ 64) :
    ((start + BitVec.ofNat 64 k * step).toNat : ℤ) = addrAt start step k := by
  have hofInt : start + BitVec.ofNat 64 k * step = BitVec.ofInt 64 (addrAt start step k) := by
    rw [addrAt, BitVec.ofInt_add, BitVec.ofInt_mul, BitVec.ofInt_toInt, BitVec.ofInt_natCast,
      BitVec.ofInt_natCast, BitVec.ofNat_toNat, BitVec.setWidth_eq]
  rw [hofInt, BitVec.toNat_ofInt]
  omega

theorem addrAt_zero : addrAt start step 0 = start.toNat := by
  simp [addrAt]

end Addresses

/-! ## Positive steps -/

section Positive

variable {m : Mapping} {lo step fin offset : Uptr} {n s k fuel : ℕ} {checks : List Check}

/-- The loop runs once for each step that is left. -/
theorem periodLoop_eq (hstep : 0 < step.toNat)
    (hfin : offset.toNat + k * step.toNat = fin.toNat) (hfuel : k ≤ fuel) :
    ∃ addrs : List Uptr, periodLoop step fin fuel offset = some (addrs.map .access) ∧
      ∀ a : Uptr, a ∈ addrs ↔ ∃ i < k, a.toNat = offset.toNat + i * step.toNat := by
  induction k generalizing offset fuel with
  | zero =>
      have hge : ¬offset < fin := by
        rw [BitVec.lt_def]
        omega
      refine ⟨[], ?_, by simp⟩
      cases fuel <;> simp [periodLoop, hge]
  | succ k ih =>
      obtain ⟨fuel, rfl⟩ : ∃ fuel', fuel = fuel' + 1 := ⟨fuel - 1, by omega⟩
      rw [Nat.add_mul, Nat.one_mul] at hfin
      have hlt : offset < fin := by
        rw [BitVec.lt_def]
        omega
      have hnext : (offset + step).toNat = offset.toNat + step.toNat := by
        have := fin.isLt
        rw [BitVec.toNat_add, Nat.mod_eq_of_lt]
        omega
      have hrest : (offset + step).toNat + k * step.toNat = fin.toNat := by omega
      obtain ⟨addrs, hrun, hmem⟩ := ih hrest (Nat.le_of_succ_le_succ hfuel)
      refine ⟨offset :: addrs, ?_, ?_⟩
      · rw [periodLoop, if_pos hlt, hrun, Option.map_some, List.map_cons]
      · intro a
        rw [List.mem_cons, hmem, hnext, ← BitVec.toNat_inj]
        constructor
        · rintro (h | ⟨i, hi, h⟩)
          · exact ⟨0, by omega, by simpa using h⟩
          · refine ⟨i + 1, by omega, ?_⟩
            rw [h, Nat.add_mul]
            omega
        · rintro ⟨_ | i, hi, h⟩
          · exact Or.inl (by simpa using h)
          · refine Or.inr ⟨i, by omega, ?_⟩
            rw [h, Nat.add_mul]
            omega

/-- The loop checks nothing at or above its end. -/
theorem periodLoop_lt (h : periodLoop step fin fuel offset = some checks) :
    ∃ addrs : List Uptr, checks = addrs.map .access ∧ ∀ a ∈ addrs, a < fin := by
  induction fuel generalizing offset checks with
  | zero =>
      rw [periodLoop] at h
      split at h
      · cases h
      · rw [Option.some.injEq] at h
        exact ⟨[], h.symm, by simp⟩
  | succ fuel ih =>
      rw [periodLoop] at h
      split at h
      · next hlt =>
          obtain ⟨rest, hrest, rfl⟩ := Option.map_eq_some_iff.mp h
          obtain ⟨addrs, rfl, hall⟩ := ih hrest
          refine ⟨offset :: addrs, rfl, ?_⟩
          intro a ha
          rcases List.mem_cons.mp ha with rfl | ha
          · exact hlt
          · exact hall a ha
      · rw [Option.some.injEq] at h
        exact ⟨[], h.symm, by simp⟩

/-- A step of the size of the access covers one contiguous range. -/
theorem mem_contiguous_iff (hs : 0 < s) (b : ℕ) :
    (∃ i < n, lo.toNat + i * s ≤ b ∧ b < lo.toNat + i * s + s) ↔
      lo.toNat ≤ b ∧ b < lo.toNat + n * s := by
  constructor
  · rintro ⟨i, hi, hle, hlt⟩
    have hmul : (i + 1) * s ≤ n * s := Nat.mul_le_mul_right s hi
    rw [Nat.add_mul, Nat.one_mul] at hmul
    omega
  · rintro ⟨hle, hlt⟩
    have hdiv := Nat.div_add_mod (b - lo.toNat) s
    have hmod := Nat.mod_lt (b - lo.toNat) hs
    rw [Nat.mul_comm] at hdiv
    refine ⟨(b - lo.toNat) / s, Nat.div_lt_of_lt_mul (by rw [Nat.mul_comm]; omega), ?_, ?_⟩
    · omega
    · omega

theorem toInt_of_pos (hpos : 0 < step.toInt) :
    step.toInt = step.toNat ∧ 0 < step.toNat ∧ 2 * step.toNat < 2 ^ 64 := by
  have hlt := BitVec.toInt_pos_iff.mp hpos.le
  have hval := BitVec.toInt_eq_toNat_of_lt hlt
  exact ⟨hval, by omega, hlt⟩

theorem addrAt_of_pos (hpos : 0 < step.toInt) (i : ℕ) :
    addrAt lo step i = ((lo.toNat + i * step.toNat : ℕ) : ℤ) := by
  rw [addrAt, (toInt_of_pos hpos).1]
  push_cast
  rfl

theorem toNat_fin (n : ℕ) : (lo + BitVec.ofNat 64 n * step).toNat =
    (lo.toNat + n * step.toNat) % 2 ^ 64 := by
  simp [BitVec.toNat_add, BitVec.toNat_mul, Nat.add_mod, Nat.mul_mod]

/-- The last access of a positive stride does not wrap. -/
theorem last_lt (hpos : 0 < step.toInt) (hn : 1 ≤ n) (hwrap : NoWrap lo step n s) :
    lo.toNat + (n - 1) * step.toNat + s < 2 ^ 64 := by
  have h := (hwrap (n - 1) (by omega)).2
  rw [addrAt_of_pos hpos] at h
  exact_mod_cast h

theorem range_exact_iff (hpos : 0 < step.toInt) (hn : 1 ≤ n) (hs : 0 < s)
    (hsize : step.toNat = s) (hwrap : NoWrap lo step n s) :
    Exact (addrAt lo step) n s (xsanRange m lo (lo + BitVec.ofNat 64 n * step)) ↔
      m.isAppMem lo = true := by
  have hlast := last_lt hpos hn hwrap
  have hend : (lo + BitVec.ofNat 64 n * step).toNat = lo.toNat + n * s := by
    rw [toNat_fin, hsize, Nat.mod_eq_of_lt]
    rw [hsize, Nat.sub_mul, Nat.one_mul] at hlast
    have hle : 1 * s ≤ n * s := Nat.mul_le_mul_right s hn
    omega
  have hlt : lo.toNat < lo.toNat + n * s := Nat.lt_add_of_pos_right (Nat.mul_pos hn hs)
  have hne : lo ≠ lo + BitVec.ofNat 64 n * step := by
    intro h
    rw [← h] at hend
    omega
  have hlen : (lo + BitVec.ofNat 64 n * step - lo).toNat = n * s := by
    rw [BitVec.toNat_sub_of_le (by rw [BitVec.le_def]; omega), hend]
    omega
  unfold xsanRange
  rw [if_neg hne]
  cases m.isAppMem lo with
  | false =>
      simp only [Bool.false_eq_true, if_false, iff_false]
      exact not_exact_nil hn addrAt_zero.symm
  | true =>
      simp only [if_true, iff_true]
      refine exact_range_iff.mpr fun b => ?_
      rw [hlen, ← mem_contiguous_iff hs]
      simp only [addrAt_of_pos hpos, hsize]
      norm_cast

theorem loop_exact_iff (hpos : 0 < step.toInt) (hn : 1 ≤ n) (hwrap : NoWrap lo step n s) :
    (∃ fuel checks, periodLoop step (lo + BitVec.ofNat 64 n * step) fuel lo = some checks ∧
      Exact (addrAt lo step) n s checks) ↔ lo.toNat + n * step.toNat < 2 ^ 64 := by
  have hlast := last_lt hpos hn hwrap
  obtain ⟨-, hstep, hhalf⟩ := toInt_of_pos hpos
  have hn' : n * step.toNat = (n - 1) * step.toNat + step.toNat := by
    rw [← Nat.succ_mul, Nat.succ_eq_add_one, Nat.sub_add_cancel hn]
  constructor
  · rintro ⟨fuel, checks, hrun, hexact⟩
    by_contra hover
    obtain ⟨addrs, rfl, hall⟩ := periodLoop_lt hrun
    have hhigh : ((lo + BitVec.ofNat 64 (n - 1) * step).toNat : ℤ) = addrAt lo step (n - 1) :=
      toNat_add_mul (hwrap _ (by omega)).1 (by have := (hwrap (n - 1) (by omega)).2; omega)
    have hmem := (exact_accesses_iff.mp hexact _).mpr ⟨n - 1, by omega, hhigh⟩
    have hlt := BitVec.lt_def.mp (hall _ hmem)
    rw [toNat_fin, toNat_fin, Nat.mod_eq_of_lt (by omega), hn'] at hlt
    omega
  · intro hfit
    have hend : lo.toNat + n * step.toNat = (lo + BitVec.ofNat 64 n * step).toNat := by
      rw [toNat_fin, Nat.mod_eq_of_lt hfit]
    obtain ⟨addrs, hrun, hmem⟩ := periodLoop_eq hstep hend le_rfl
    refine ⟨n, _, hrun, exact_accesses_iff.mpr fun a => ?_⟩
    rw [hmem]
    simp only [addrAt_of_pos hpos]
    norm_cast

theorem xsanPeriod_of_eq (fuel : ℕ) : xsanPeriod m s fuel lo lo step = some [] := by
  cases fuel <;> simp [xsanPeriod]

theorem period_exact_iff (hpos : 0 < step.toInt) (hn : 1 ≤ n) (hs : 0 < s) (hs' : s < 2 ^ 64)
    (hwrap : NoWrap lo step n s) :
    (∃ fuel checks, xsanPeriod m s fuel lo (lo + BitVec.ofNat 64 n * step) step = some checks ∧
      Exact (addrAt lo step) n s checks) ↔
      lo.toNat + n * step.toNat < 2 ^ 64 ∧ (step.toNat = s → m.isAppMem lo = true) := by
  obtain ⟨-, hstep, hhalf⟩ := toInt_of_pos hpos
  have hlast := last_lt hpos hn hwrap
  have hn' : n * step.toNat = (n - 1) * step.toNat + step.toNat := by
    rw [← Nat.succ_mul, Nat.succ_eq_add_one, Nat.sub_add_cancel hn]
  have hsize : step = BitVec.ofNat 64 s ↔ step.toNat = s := by
    rw [← BitVec.toNat_inj, BitVec.toNat_ofNat, Nat.mod_eq_of_lt hs']
  have hnil : ¬Exact (addrAt lo step) n s [] := not_exact_nil hn addrAt_zero.symm
  have hsucc : ∀ fuel, lo ≠ lo + BitVec.ofNat 64 n * step →
      xsanPeriod m s (fuel + 1) lo (lo + BitVec.ofNat 64 n * step) step =
        if step.toNat = s then some (xsanRange m lo (lo + BitVec.ofNat 64 n * step))
        else periodLoop step (lo + BitVec.ofNat 64 n * step) fuel lo := by
    intro fuel hne
    rw [xsanPeriod, if_neg hne, if_neg (by omega)]
    simp only [hsize]
  by_cases heq : lo = lo + BitVec.ofNat 64 n * step
  · have hover : ¬lo.toNat + n * step.toNat < 2 ^ 64 := by
      intro hfit
      have hend := @toNat_fin lo step n
      rw [← heq, Nat.mod_eq_of_lt hfit] at hend
      omega
    rw [← heq]
    refine iff_of_false ?_ fun h => hover h.1
    simp [xsanPeriod_of_eq, hnil]
  · have hzero : ∀ checks, xsanPeriod m s 0 lo (lo + BitVec.ofNat 64 n * step) step ≠
        some checks := by
      simp [xsanPeriod, heq]
    by_cases ha : step.toNat = s
    · have hfit : lo.toNat + n * step.toNat < 2 ^ 64 := by
        omega
      have hrange := range_exact_iff (m := m) hpos hn hs ha hwrap
      simp only [ha, if_true] at hsucc
      constructor
      · rintro ⟨_ | fuel, checks, hrun, hexact⟩
        · exact absurd hrun (hzero checks)
        · rw [hsucc fuel heq, Option.some.injEq] at hrun
          subst hrun
          exact ⟨hfit, fun _ => hrange.mp hexact⟩
      · rintro ⟨-, happ⟩
        exact ⟨1, _, hsucc 0 heq, hrange.mpr (happ ha)⟩
    · have hloop := loop_exact_iff hpos hn hwrap
      simp only [ha, if_false] at hsucc
      constructor
      · rintro ⟨_ | fuel, checks, hrun, hexact⟩
        · exact absurd hrun (hzero checks)
        · rw [hsucc fuel heq] at hrun
          exact ⟨hloop.mp ⟨fuel, checks, hrun, hexact⟩, fun h => absurd h ha⟩
      · rintro ⟨hfit, -⟩
        obtain ⟨fuel, checks, hrun, hexact⟩ := hloop.mpr hfit
        exact ⟨fuel + 1, checks, by rw [hsucc fuel heq, hrun], hexact⟩

end Positive

/-! ## Negative steps -/

section Negative

variable {m : Mapping} {start step beg fin : Uptr} {n s : ℕ}

theorem toInt_neg_of_neg (hneg : step.toInt < 0) (hmin : step ≠ BitVec.intMin 64) :
    (-step).toInt = -step.toInt ∧ (-step).toNat = step.toInt.natAbs := by
  have hval := BitVec.toInt_neg_of_ne_intMin hmin
  have hpos : 0 < (-step).toInt := by omega
  refine ⟨hval, ?_⟩
  have := (toInt_of_pos hpos).1
  omega

/-- Swapping the bounds turns a negative step into a positive one. -/
theorem xsanPeriod_neg (hneg : step.toInt < 0) (fuel : ℕ) :
    xsanPeriod m s (fuel + 1) beg fin step =
      xsanPeriod m s fuel (fin - step) (beg - step) (-step) := by
  by_cases heq : beg = fin
  · rw [heq, xsanPeriod_of_eq, xsanPeriod_of_eq]
  · rw [xsanPeriod, if_neg heq, if_pos hneg]

theorem exists_xsanPeriod_neg (hneg : step.toInt < 0) (P : List Check → Prop) :
    (∃ fuel checks, xsanPeriod m s fuel beg fin step = some checks ∧ P checks) ↔
      ∃ fuel checks, xsanPeriod m s fuel (fin - step) (beg - step) (-step) = some checks ∧
        P checks := by
  constructor
  · rintro ⟨_ | fuel, checks, hrun, hP⟩
    · rw [xsanPeriod] at hrun
      split at hrun
      · next heq =>
          rw [Option.some.injEq] at hrun
          exact ⟨0, checks, by rw [heq, xsanPeriod_of_eq, hrun], hP⟩
      · cases hrun
    · rw [xsanPeriod_neg hneg] at hrun
      exact ⟨fuel, checks, hrun, hP⟩
  · rintro ⟨fuel, checks, hrun, hP⟩
    exact ⟨fuel + 1, checks, by rw [xsanPeriod_neg hneg, hrun], hP⟩

/-- The most negative step is its own negation, so the recursion does not end. -/
theorem xsanPeriod_intMin {checks : List Check} (fuel : ℕ)
    (hrun : xsanPeriod m s fuel beg fin (BitVec.intMin 64) = some checks) : checks = [] := by
  have hneg : (BitVec.intMin 64).toInt < 0 := by decide
  have hself : -BitVec.intMin 64 = BitVec.intMin 64 := by decide
  induction fuel generalizing beg fin with
  | zero =>
      rw [xsanPeriod] at hrun
      split at hrun
      · exact (Option.some.inj hrun).symm
      · cases hrun
  | succ fuel ih =>
      rw [xsanPeriod_neg hneg, hself] at hrun
      exact ih hrun

theorem lowest_of_neg (hneg : step.toInt < 0) :
    lowest start step n = start + BitVec.ofNat 64 (n - 1) * step := if_pos hneg

theorem lowest_of_pos (hpos : 0 < step.toInt) : lowest start step n = start :=
  if_neg (by omega)

theorem lowest_eq (hneg : step.toInt < 0) (hn : 1 ≤ n) :
    start + BitVec.ofNat 64 n * step - step = lowest start step n ∧
      start - step = lowest start step n + BitVec.ofNat 64 n * -step ∧
      start + -step + BitVec.ofNat 64 n * step = lowest start step n := by
  obtain ⟨k, rfl⟩ : ∃ k, n = k + 1 := ⟨n - 1, by omega⟩
  have hsucc : ∀ x : Uptr, BitVec.ofNat 64 (k + 1) * x = BitVec.ofNat 64 k * x + x := by
    intro x
    rw [BitVec.ofNat_add, BitVec.add_mul, BitVec.one_mul]
  rw [lowest_of_neg hneg, Nat.add_sub_cancel, hsucc, hsucc]
  refine ⟨by ring, by ring, by ring⟩

/-- The accesses with a negative step, taken from the last to the first. -/
theorem addrAt_lowest (hneg : step.toInt < 0) (hmin : step ≠ BitVec.intMin 64) (hn : 1 ≤ n)
    (hwrap : NoWrap start step n s) {i : ℕ} (hi : i < n) :
    addrAt (lowest start step n) (-step) i = addrAt start step (n - 1 - i) := by
  obtain ⟨h0, h1⟩ := hwrap (n - 1) (by omega)
  rw [lowest_of_neg hneg, addrAt, toNat_add_mul h0 (by omega), (toInt_neg_of_neg hneg hmin).1]
  unfold addrAt
  push_cast [Nat.sub_sub, Nat.cast_sub (show 1 + i ≤ n by omega), Nat.cast_sub hn]
  ring

/-- The accesses with a negative step are those with the opposite step from the lowest one
on. -/
theorem reversed_spec (hneg : step.toInt < 0) (hmin : step ≠ BitVec.intMin 64) (hn : 1 ≤ n)
    (hwrap : NoWrap start step n s) : NoWrap (lowest start step n) (-step) n s ∧
      ∀ checks, Exact (addrAt start step) n s checks ↔
        Exact (addrAt (lowest start step n) (-step)) n s checks := by
  refine ⟨?_, fun checks => exact_iff_of_reverse fun i => addrAt_lowest hneg hmin hn hwrap⟩
  intro i hi
  rw [addrAt_lowest hneg hmin hn hwrap hi]
  exact hwrap _ (by omega)

end Negative

/-! ## The emitted call -/

section Emitted

variable {m : Mapping} {constStep : Bool} {start step : Uptr} {n s : ℕ}

/-- The step is neither zero nor its own negation, the end of the range does not wrap, and a
contiguous range starts in application memory. -/
structure Checkable (m : Mapping) (start step : Uptr) (n s : ℕ) : Prop where
  ne_zero : step ≠ 0
  ne_intMin : step ≠ BitVec.intMin 64
  end_lt : (lowest start step n).toNat + n * step.toInt.natAbs < 2 ^ 64
  isAppMem : step.toInt.natAbs = s → m.isAppMem (lowest start step n) = true

/-- More fuel does not change what a call checks. -/
theorem periodLoop_mono {fin offset : Uptr} {checks : List Check} {fuel fuel' : ℕ}
    (hle : fuel ≤ fuel') (h : periodLoop step fin fuel offset = some checks) :
    periodLoop step fin fuel' offset = some checks := by
  induction fuel generalizing fuel' offset checks with
  | zero =>
      rw [periodLoop] at h
      split at h
      · cases h
      · next hge => cases fuel' <;> simpa [periodLoop, hge] using h
  | succ fuel ih =>
      obtain ⟨fuel', rfl⟩ : ∃ k, fuel' = k + 1 := ⟨fuel' - 1, by omega⟩
      rw [periodLoop] at h ⊢
      split at h
      · next hlt =>
          obtain ⟨rest, hrest, rfl⟩ := Option.map_eq_some_iff.mp h
          rw [if_pos hlt, ih (Nat.le_of_succ_le_succ hle) hrest, Option.map_some]
      · next hge => rwa [if_neg hge]

theorem xsanPeriod_mono {beg fin : Uptr} {checks : List Check} {fuel fuel' : ℕ}
    (hle : fuel ≤ fuel') (h : xsanPeriod m s fuel beg fin step = some checks) :
    xsanPeriod m s fuel' beg fin step = some checks := by
  induction fuel generalizing fuel' beg fin step with
  | zero =>
      rw [xsanPeriod] at h
      split at h
      · next heq => rw [heq, xsanPeriod_of_eq, h]
      · cases h
  | succ fuel ih =>
      obtain ⟨fuel', rfl⟩ : ∃ k, fuel' = k + 1 := ⟨fuel' - 1, by omega⟩
      have hle' := Nat.le_of_succ_le_succ hle
      rw [xsanPeriod] at h ⊢
      split
      · next heq => rwa [if_pos heq] at h
      · next hne =>
          rw [if_neg hne] at h
          split
          · next hneg =>
              rw [if_pos hneg] at h
              exact ih hle' h
          · next hneg =>
              rw [if_neg hneg] at h
              split
              · next hsize => rwa [if_pos hsize] at h
              · next hsize =>
                  rw [if_neg hsize] at h
                  exact periodLoop_mono hle' h

theorem CheckCall.run_mono {call : CheckCall} {checks : List Check} {fuel fuel' : ℕ}
    (hle : fuel ≤ fuel') (h : call.run m s fuel = some checks) :
    call.run m s fuel' = some checks := by
  cases call with
  | range beg fin => exact h
  | period beg fin step => exact xsanPeriod_mono hle h

/-- The call runs and covers the accesses exactly. -/
def CoversExactly (m : Mapping) (start step : Uptr) (n s : ℕ) (call : CheckCall) : Prop :=
  ∃ fuel checks, call.run m s fuel = some checks ∧ Exact (addrAt start step) n s checks

/-- A step of one is left out of the product. -/
theorem offset_eq (iterCounter : Uptr) :
    (if constStep && step = 1 then iterCounter else iterCounter * step) = iterCounter * step := by
  split
  · next h =>
      rw [Bool.and_eq_true, decide_eq_true_eq] at h
      rw [h.2]
      exact (BitVec.mul_one _).symm
  · rfl

theorem expand_of_nonneg (h : ¬step.toInt < 0) (iterCounter : Uptr) :
    expandBegAndEnd constStep start step iterCounter =
      ⟨start, start + iterCounter * step, step⟩ := by
  unfold expandBegAndEnd
  simp only [offset_eq, h, decide_false, Bool.and_false, Bool.false_eq_true, if_false]

theorem expand_variable (iterCounter : Uptr) :
    expandBegAndEnd false start step iterCounter =
      ⟨start, start + iterCounter * step, step⟩ := by
  unfold expandBegAndEnd
  simp only [Bool.false_and, Bool.false_eq_true, if_false]

theorem expand_of_neg (h : step.toInt < 0) (iterCounter : Uptr) :
    expandBegAndEnd true start step iterCounter =
      ⟨start + -step + iterCounter * step, start + -step, -step⟩ := by
  unfold expandBegAndEnd
  simp only [offset_eq, h, decide_true, Bool.and_true, if_true]

theorem natAbs_of_pos (hpos : 0 < step.toInt) : step.toInt.natAbs = step.toNat := by
  rw [(toInt_of_pos hpos).1, Int.natAbs_natCast]

/-- A step of zero makes the range empty. -/
theorem not_covers_of_zero (hn : 1 ≤ n) (hs : 0 < s) :
    ¬CoversExactly m start 0 n s
      (combinePeriodicCheck constStep start 0 (BitVec.ofNat 64 n) s) := by
  rintro ⟨fuel, checks, hrun, hexact⟩
  have hrange : isRangeAccess constStep 0 s = false := by
    simp [isRangeAccess, hs.ne]
  have hbounds : expandBegAndEnd constStep start 0 (BitVec.ofNat 64 n) = ⟨start, start, 0⟩ := by
    rw [expand_of_nonneg (by decide)]
    simp
  rw [combinePeriodicCheck, hbounds, hrange] at hrun
  simp only [Bool.false_eq_true, if_false, CheckCall.run, xsanPeriod_of_eq,
    Option.some.injEq] at hrun
  subst hrun
  exact not_exact_nil hn addrAt_zero.symm hexact

theorem not_covers_of_intMin (hn : 1 ≤ n) (hs : s < 2 ^ 63) :
    ¬CoversExactly m start (BitVec.intMin 64) n s
      (combinePeriodicCheck constStep start (BitVec.intMin 64) (BitVec.ofNat 64 n) s) := by
  rintro ⟨fuel, checks, hrun, hexact⟩
  have hneg : (BitVec.intMin 64).toInt < 0 := by decide
  have habs : (BitVec.intMin 64).toInt.natAbs = 2 ^ 63 := by decide
  have hself : -BitVec.intMin 64 = BitVec.intMin 64 := by decide
  have hrange : isRangeAccess constStep (BitVec.intMin 64) s = false := by
    rw [isRangeAccess, habs, decide_eq_false hs.ne', Bool.and_false]
  have hnil : checks = [] := by
    cases constStep with
    | true =>
        rw [combinePeriodicCheck, expand_of_neg hneg, hrange, hself] at hrun
        exact xsanPeriod_intMin fuel hrun
    | false =>
        rw [combinePeriodicCheck, expand_variable, hrange] at hrun
        exact xsanPeriod_intMin fuel hrun
  subst hnil
  exact not_exact_nil hn addrAt_zero.symm hexact

/-- The condition in terms of the positive step. -/
theorem checkable_iff (hne : step ≠ 0) (hmin : step ≠ BitVec.intMin 64) {stride : Uptr}
    (hstride : stride.toNat = step.toInt.natAbs) : Checkable m start step n s ↔
      (lowest start step n).toNat + n * stride.toNat < 2 ^ 64 ∧
        (stride.toNat = s → m.isAppMem (lowest start step n) = true) := by
  rw [hstride]
  constructor
  · rintro ⟨-, -, hend, happ⟩
    exact ⟨hend, happ⟩
  · rintro ⟨hend, happ⟩
    exact ⟨hne, hmin, hend, happ⟩

theorem covers_range_iff {beg fin : Uptr} : CoversExactly m start step n s (.range beg fin) ↔
    Exact (addrAt start step) n s (xsanRange m beg fin) := by
  simp [CoversExactly, CheckCall.run]

/-- A range call is emitted only when the positive step is the size of the access. -/
theorem range_iff_of_stride {lo stride : Uptr} (hpos : 0 < stride.toInt) (hn : 1 ≤ n)
    (hs : 0 < s) (hsize : stride.toNat = s) (hwrap : NoWrap lo stride n s) :
    Exact (addrAt lo stride) n s (xsanRange m lo (lo + BitVec.ofNat 64 n * stride)) ↔
      lo.toNat + n * stride.toNat < 2 ^ 64 ∧ (stride.toNat = s → m.isAppMem lo = true) := by
  have hlast := last_lt hpos hn hwrap
  have hn' : n * stride.toNat = (n - 1) * stride.toNat + stride.toNat := by
    rw [← Nat.succ_mul, Nat.succ_eq_add_one, Nat.sub_add_cancel hn]
  have hfit : lo.toNat + n * stride.toNat < 2 ^ 64 := by omega
  rw [range_exact_iff hpos hn hs hsize hwrap]
  exact ⟨fun happ => ⟨hfit, fun _ => happ⟩, fun h => h.2 hsize⟩

theorem covers_iff_of_pos (hpos : 0 < step.toInt) (hn : 1 ≤ n) (hs : 0 < s) (hs' : s < 2 ^ 64)
    (hwrap : NoWrap start step n s) :
    CoversExactly m start step n s
      (combinePeriodicCheck constStep start step (BitVec.ofNat 64 n) s) ↔
      Checkable m start step n s := by
  have hne : step ≠ 0 := by
    rintro rfl
    exact absurd hpos (by decide)
  have hmin : step ≠ BitVec.intMin 64 := by
    rintro rfl
    exact absurd hpos (by decide)
  have habs := natAbs_of_pos hpos
  rw [checkable_iff hne hmin habs.symm, lowest_of_pos hpos, combinePeriodicCheck,
    expand_of_nonneg (by omega)]
  cases hrange : isRangeAccess constStep step s with
  | true =>
      rw [isRangeAccess, habs, Bool.and_eq_true, decide_eq_true_eq] at hrange
      rw [if_pos rfl, covers_range_iff]
      exact range_iff_of_stride hpos hn hs hrange.2 hwrap
  | false =>
      rw [if_neg Bool.false_ne_true]
      exact period_exact_iff hpos hn hs hs' hwrap

theorem covers_iff_of_neg (hneg : step.toInt < 0) (hmin : step ≠ BitVec.intMin 64) (hn : 1 ≤ n)
    (hs : 0 < s) (hs' : s < 2 ^ 64) (hwrap : NoWrap start step n s) :
    CoversExactly m start step n s
      (combinePeriodicCheck constStep start step (BitVec.ofNat 64 n) s) ↔
      Checkable m start step n s := by
  obtain ⟨hnegval, habs⟩ := toInt_neg_of_neg hneg hmin
  obtain ⟨hvar, hend, hconst⟩ := @lowest_eq start step n hneg hn
  obtain ⟨hwrap', hexact⟩ := reversed_spec hneg hmin hn hwrap
  have hpos : 0 < (-step).toInt := by omega
  have hne : step ≠ 0 := by
    rintro rfl
    exact absurd hneg (by decide)
  have hperiod := period_exact_iff (m := m) hpos hn hs hs' hwrap'
  rw [checkable_iff hne hmin habs, combinePeriodicCheck]
  cases constStep with
  | true =>
      have hbounds : start + -step = lowest start step n + BitVec.ofNat 64 n * -step := by
        rw [← hend, BitVec.sub_eq_add_neg]
      rw [expand_of_neg hneg, hconst, hbounds]
      cases hrange : isRangeAccess true step s with
      | true =>
          rw [isRangeAccess, Bool.true_and, decide_eq_true_eq, ← habs] at hrange
          rw [if_pos rfl, covers_range_iff, hexact]
          exact range_iff_of_stride hpos hn hs hrange hwrap'
      | false =>
          rw [if_neg Bool.false_ne_true, ← hperiod]
          simp only [CoversExactly, CheckCall.run, hexact]
  | false =>
      rw [expand_variable, isRangeAccess, Bool.false_and, if_neg Bool.false_ne_true, ← hperiod]
      simp only [CoversExactly, CheckCall.run, hexact]
      rw [exists_xsanPeriod_neg hneg, hvar, hend]

theorem covers_iff (hn : 1 ≤ n) (hs : s ∈ [1, 2, 4, 8, 16]) (hwrap : NoWrap start step n s) :
    CoversExactly m start step n s
      (combinePeriodicCheck constStep start step (BitVec.ofNat 64 n) s) ↔
      Checkable m start step n s := by
  have hsize : 0 < s ∧ s < 2 ^ 63 ∧ s < 2 ^ 64 := by
    simp only [List.mem_cons, List.not_mem_nil, or_false] at hs
    omega
  rcases lt_trichotomy step.toInt 0 with hneg | hzero | hpos
  · by_cases hmin : step = BitVec.intMin 64
    · subst hmin
      exact iff_of_false (not_covers_of_intMin hn hsize.2.1) fun h => h.ne_intMin rfl
    · exact covers_iff_of_neg hneg hmin hn hsize.1 hsize.2.2 hwrap
  · have hstep : step = 0 := BitVec.toInt_inj.mp hzero
    subst hstep
    exact iff_of_false (not_covers_of_zero hn hsize.1) fun h => h.ne_zero rfl
  · exact covers_iff_of_pos hpos hn hsize.1 hsize.2.2 hwrap

/-! ## Runs of the emitted call -/

theorem CheckCall.run_unique {call : CheckCall} {checks checks' : List Check} {fuel fuel' : ℕ}
    (h : call.run m s fuel = some checks) (h' : call.run m s fuel' = some checks') :
    checks = checks' := by
  have hmax := CheckCall.run_mono (le_max_left fuel fuel') h
  rw [CheckCall.run_mono (le_max_right fuel fuel') h', Option.some.injEq] at hmax
  exact hmax.symm

/-- A count of zero checks nothing. -/
theorem run_combine_zero (fuel : ℕ) :
    (combinePeriodicCheck constStep start step (BitVec.ofNat 64 0) s).run m s fuel = some [] := by
  have heq : ∃ lo stride,
      expandBegAndEnd constStep start step (BitVec.ofNat 64 0) = ⟨lo, lo, stride⟩ := by
    simp only [expandBegAndEnd, BitVec.zero_mul, ite_self, BitVec.add_zero]
    split
    · exact ⟨_, _, rfl⟩
    · exact ⟨_, _, rfl⟩
  obtain ⟨lo, stride, hbounds⟩ := heq
  have hcall : combinePeriodicCheck constStep start step (BitVec.ofNat 64 0) s =
      if isRangeAccess constStep step s then .range lo lo else .period lo lo stride := by
    rw [combinePeriodicCheck, hbounds]
  rw [hcall]
  split
  · simp [CheckCall.run, xsanRange]
  · exact xsanPeriod_of_eq fuel

theorem natAbs_toInt_neg (x : Uptr) : (-x).toInt.natAbs = x.toInt.natAbs := by
  by_cases hmin : x = BitVec.intMin 64
  · subst hmin
    decide
  · rw [BitVec.toInt_neg_of_ne_intMin hmin, Int.natAbs_neg]

/-- The periodic functions check a range only when the step is the size of the access. -/
theorem natAbs_of_mem_xsanPeriod {beg fin lo size : Uptr} {checks : List Check} {fuel : ℕ}
    (hs : s < 2 ^ 63) (h : xsanPeriod m s fuel beg fin step = some checks)
    (hmem : .range lo size ∈ checks) : step.toInt.natAbs = s := by
  induction fuel generalizing beg fin step with
  | zero =>
      rw [xsanPeriod] at h
      split at h
      · rw [← Option.some.inj h] at hmem
        cases hmem
      · cases h
  | succ fuel ih =>
      rw [xsanPeriod] at h
      split at h
      · rw [← Option.some.inj h] at hmem
        cases hmem
      · split at h
        · rw [← natAbs_toInt_neg]
          exact ih h
        · split at h
          · next hsize =>
              have hval : step.toNat = s := by
                rw [hsize, BitVec.toNat_ofNat, Nat.mod_eq_of_lt (by omega)]
              rw [BitVec.toInt_eq_toNat_of_lt (by omega), hval, Int.natAbs_natCast]
          · obtain ⟨addrs, rfl, -⟩ := periodLoop_lt h
            obtain ⟨x, -, hx⟩ := List.mem_map.mp hmem
            cases hx

theorem natAbs_of_mem_run {lo size : Uptr} {iterCounter : Uptr} {checks : List Check}
    {fuel : ℕ} (hs : s < 2 ^ 63)
    (h : (combinePeriodicCheck constStep start step iterCounter s).run m s fuel = some checks)
    (hmem : .range lo size ∈ checks) : step.toInt.natAbs = s := by
  rw [combinePeriodicCheck] at h
  split at h
  · next hrange =>
      rw [isRangeAccess, Bool.and_eq_true, decide_eq_true_eq] at hrange
      exact hrange.2
  · have habs := natAbs_of_mem_xsanPeriod hs h hmem
    rw [expandBegAndEnd] at habs
    split at habs
    · rwa [natAbs_toInt_neg] at habs
    · exact habs

/-- The emitted call covers the accesses of the loop exactly if and only if the step is
checkable. -/
theorem periodic_check_iff (m : Mapping) (constStep : Bool) (start step : Uptr) (n s : ℕ)
    (hn : 1 ≤ n) (hs : s ∈ [1, 2, 4, 8, 16]) (hwrap : NoWrap start step n s) :
    CoversExactly m start step n s
      (combinePeriodicCheck constStep start step (BitVec.ofNat 64 n) s) ↔
      Checkable m start step n s :=
  covers_iff hn hs hwrap

/-- A step that turns out to be zero at run time: each iteration accesses the same eight bytes,
and none of them is checked. -/
theorem zero_step_unchecked : NoWrap 0x7a0000001000 0 3 8 ∧
    ¬CoversExactly mappingX64_48 0x7a0000001000 0 3 8
      (combinePeriodicCheck false 0x7a0000001000 0 (BitVec.ofNat 64 3) 8) := by
  refine ⟨?_, not_covers_of_zero (by decide) (by decide)⟩
  intro i _
  have hzero : BitVec.toInt (0 : Uptr) = 0 := by decide
  have hstart : BitVec.toNat (0x7a0000001000 : Uptr) = 0x7a0000001000 := by decide
  rw [addrAt, hzero, hstart]
  omega

theorem periodic_check_iff_descending :
    CoversExactly mappingX64_48 0x7a0000001010 (-8) 3 4
      (combinePeriodicCheck true 0x7a0000001010 (-8) (BitVec.ofNat 64 3) 4) ↔
      Checkable mappingX64_48 0x7a0000001010 (-8) 3 4 := by
  refine periodic_check_iff mappingX64_48 true 0x7a0000001010 (-8) 3 4 (by decide) (by decide) ?_
  intro i hi
  have hstep : BitVec.toInt (-8 : Uptr) = -8 := by decide
  have hstart : BitVec.toNat (0x7a0000001010 : Uptr) = 0x7a0000001010 := by decide
  rw [addrAt, hstep, hstart]
  omega

end Emitted

end Mair.LoopCheck
