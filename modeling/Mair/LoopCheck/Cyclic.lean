import Mair.LoopCheck.Rewriter

/-! # The addresses of a rewritten check

The rewritten recurrence has pointer width, the one in the address is narrower and wraps. The
check covers the addresses of the access exactly when neither of the two casts notices. -/

namespace Mair.LoopCheck

open Library

variable {Λ V : Type*}

/-! ## The check -/

/-- A recurrence that the check is expanded for, and the width of its counter. -/
structure CyclicCheck (Λ V : Type*) where
  addRec : Scev Λ V
  loop : Λ
  counterBits : ℕ

/-- The part of `combinePeriodicChecks` that decides on a rewritten address. -/
def Rewriter.cyclicCheck (r : Rewriter Λ V) : Option (CyclicCheck Λ V) :=
  r.assembleNewAddRec.bind fun addRec =>
    r.loop.bind fun loop =>
      r.counterBits.bind fun counterBits =>
        r.start.bind fun start =>
          if counterBits < 64 && !start.isZero then none
          else some ⟨addRec, loop, counterBits⟩

section Sets

variable [DecidableEq Λ]

/-- The addresses of `n` iterations. -/
def accessed (leaf : V → (Λ → ℕ) → ℕ) (iteration : Λ → ℕ) (s : Scev Λ V) (loop : Λ) (n : ℕ) :
    Set ℕ :=
  firstTerms (fun i => s.eval leaf (Function.update iteration loop i)) n

/-- The addresses that the check for `n` iterations covers. -/
def CyclicCheck.covered (leaf : V → (Λ → ℕ) → ℕ) (iteration : Λ → ℕ) (c : CyclicCheck Λ V)
    (n : ℕ) : Set ℕ :=
  accessed leaf iteration c.addRec c.loop (trueCount c.counterBits n)

end Sets

/-! ## When the wrapping shows -/

/-- A sign extension reads its operand as a number between `-2 ^ (src - 1)` and
`2 ^ (src - 1)`. -/
theorem dvd_signExtend {src bits value : ℕ} (hsrc : 0 < src) (hbits : src < bits)
    (hvalue : value < 2 ^ src) :
    (2 : ℤ) ^ bits ∣ (castValue .signExtend src bits value : ℤ) -
      wrapTo (-2 ^ (src - 1)) src value := by
  have hsplit : (2 : ℕ) ^ src = 2 ^ (src - 1) * 2 := by
    rw [← pow_succ]
    congr 1
    omega
  have hsplit' : (2 : ℤ) ^ src = 2 ^ (src - 1) * 2 := by exact_mod_cast hsplit
  have hcast : ((2 ^ (src - 1) : ℕ) : ℤ) = 2 ^ (src - 1) := by push_cast; rfl
  by_cases hsmall : value < 2 ^ (src - 1)
  · rw [castValue, if_pos hsmall, wrapTo_of_mem (by omega) (by omega), Int.sub_self]
    exact dvd_zero _
  · have hpow : 2 ^ src < 2 ^ bits := Nat.pow_lt_pow_right (by decide) hbits
    have hcongr : (value : ℤ) % 2 ^ src = (value - 2 ^ src) % 2 ^ src :=
      (Int.sub_emod_right _ _).symm
    rw [castValue, if_neg hsmall, wrapTo_congr hcongr, wrapTo_of_mem (by omega) (by omega),
      Nat.cast_add, Nat.cast_sub hpow.le]
    push_cast
    have heq : (value : ℤ) + (2 ^ bits - 2 ^ src) - (value - 2 ^ src) = 2 ^ bits := by ring
    rw [heq]

/-- The least value of the recurrence as the inner cast reads it. -/
def Rewriter.low (r : Rewriter Λ V) (bits : ℕ) : ℤ :=
  match r.innerExt with
  | some (.signExtend, _) => -2 ^ (bits - 1)
  | _ => 0

def Rewriter.factor (leaf : V → (Λ → ℕ) → ℕ) (iteration : Λ → ℕ) (r : Rewriter Λ V) : ℕ :=
  match r.inv2Mul with
  | some inv2Mul => inv2Mul.eval leaf iteration
  | none => 1

/-- Up to the last step the multiples of the step fit below the outer extension, and they fit
below the inner one unless the factor hides its carries. -/
structure Rewriter.StaysNarrow (leaf : V → (Λ → ℕ) → ℕ) (iteration : Λ → ℕ)
    (r : Rewriter Λ V) (step : Scev Λ V) (last : ℕ) : Prop where
  outer : r.outerExt ≠ none →
    last * (r.product step).eval leaf iteration < 2 ^ (r.product step).bits
  inner :
    (r.low step.bits ≤ last * wrapTo (r.low step.bits) step.bits (step.eval leaf iteration) ∧
      last * wrapTo (r.low step.bits) step.bits (step.eval leaf iteration) <
        r.low step.bits + 2 ^ step.bits) ∨
    (2 : ℤ) ^ (r.product step).bits ∣ r.factor leaf iteration * 2 ^ step.bits

namespace Rewriter

section Values

variable {r : Rewriter Λ V} {s e : Scev Λ V} {leaf : V → (Λ → ℕ) → ℕ} {iteration : Λ → ℕ}
  {bits : ℕ}

theorem low_nonpos : r.low bits ≤ 0 := by
  unfold low
  split
  · have hpow : (0 : ℤ) < 2 ^ (bits - 1) := pow_pos zero_lt_two _
    omega
  · exact Int.le_refl 0

theorem low_add_pos (h : 0 < bits) : 0 < r.low bits + 2 ^ bits := by
  have hpow : (0 : ℤ) < 2 ^ (bits - 1) := pow_pos zero_lt_two _
  have hsplit : (2 : ℤ) ^ bits = 2 ^ (bits - 1) * 2 := by
    rw [← pow_succ]
    congr 1
    omega
  unfold low
  split <;> omega

/-- The layers see of an expression only its width. -/
theorem castInner_congr (hbits : e.bits = s.bits) (he : e.WellTyped)
    (hs : (r.castInner s).WellTyped) :
    (r.castInner e).WellTyped ∧ (r.castInner e).bits = (r.castInner s).bits := by
  unfold castInner at hs ⊢
  cases hext : r.innerExt with
  | none => exact ⟨he, hbits⟩
  | some ext =>
      rw [hext] at hs
      refine ⟨⟨he, hs.2.1, ?_⟩, rfl⟩
      rw [hbits]
      exact hs.2.2

theorem product_congr (hbits : e.bits = s.bits) (he : e.WellTyped)
    (hs : (r.product s).WellTyped) :
    (r.product e).WellTyped ∧ (r.product e).bits = (r.product s).bits := by
  unfold product at hs ⊢
  cases hmul : r.inv2Mul with
  | none =>
      rw [hmul] at hs
      exact castInner_congr hbits he hs
  | some inv2Mul =>
      rw [hmul] at hs
      obtain ⟨hwell, heq⟩ := castInner_congr hbits he hs.1
      exact ⟨⟨hwell, hs.2.1, hs.2.2.trans heq.symm⟩, heq⟩

theorem extend_congr (hbits : e.bits = s.bits) (he : e.WellTyped)
    (hs : (r.extend s).WellTyped) :
    (r.extend e).WellTyped ∧ (r.extend e).bits = (r.extend s).bits := by
  unfold extend at hs ⊢
  cases hext : r.outerExt with
  | none =>
      rw [hext] at hs
      exact product_congr hbits he hs
  | some bits =>
      rw [hext] at hs
      obtain ⟨hwell, heq⟩ := product_congr hbits he hs.1
      refine ⟨⟨hwell, hs.2.1, ?_⟩, rfl⟩
      rw [heq]
      exact hs.2.2

theorem wellTyped_of_extend (h : (r.extend s).WellTyped) : (r.product s).WellTyped := by
  unfold extend at h
  split at h
  · exact h.1
  · exact h

theorem wellTyped_of_product (h : (r.product s).WellTyped) : s.WellTyped := by
  have hcast : (r.castInner s).WellTyped := by
    unfold product at h
    split at h
    · exact h.1
    · exact h
  unfold castInner at hcast
  split at hcast
  · exact hcast.1
  · exact hcast

/-- The outer extension keeps the value. -/
theorem eval_extend : (r.extend s).eval leaf iteration = (r.product s).eval leaf iteration := by
  unfold extend
  split <;> rfl

/-- The inner cast reads its operand in a window of the width of the operand. -/
theorem eval_castInner (h : (r.castInner s).WellTyped) (hs : s.WellTyped) :
    (2 : ℤ) ^ (r.castInner s).bits ∣
      (r.castInner s).eval leaf iteration -
        wrapTo (r.low s.bits) s.bits (s.eval leaf iteration) := by
  have hlt := hs.eval_lt leaf iteration
  have hlt' : (s.eval leaf iteration : ℤ) < 2 ^ s.bits := by exact_mod_cast hlt
  have hzero : wrapTo 0 s.bits (s.eval leaf iteration) = s.eval leaf iteration :=
    wrapTo_of_mem (Int.natCast_nonneg _) (by omega)
  unfold castInner low at *
  cases hext : r.innerExt with
  | none =>
      simp only [hzero, Int.sub_self]
      exact dvd_zero _
  | some ext =>
      obtain ⟨kind, bits⟩ := ext
      rw [hext] at h
      cases kind with
      | truncate =>
          simp only [hzero, Scev.eval, Scev.bits, castValue]
          push_cast
          rw [dvd_sub_comm]
          exact Int.dvd_self_sub_emod
      | zeroExtend =>
          simp only [hzero, Scev.eval, castValue, Int.sub_self]
          exact dvd_zero _
      | signExtend =>
          have hbits : s.bits < bits := h.2.2
          exact dvd_signExtend hs.bits_pos hbits hlt

/-- A product of layers is a multiple, modulo its width, of what the inner cast reads. -/
theorem eval_product (h : (r.product s).WellTyped) :
    ((r.product s).eval leaf iteration : ℤ) =
      scale (r.product s).bits (r.factor leaf iteration)
        (wrapTo (r.low s.bits) s.bits (s.eval leaf iteration)) := by
  have hs := wellTyped_of_product h
  unfold product factor at *
  cases hmul : r.inv2Mul with
  | none =>
      rw [hmul] at h
      have hdvd := @eval_castInner _ _ r s leaf iteration h hs
      have hlt := h.eval_lt leaf iteration
      have hlt' : ((r.castInner s).eval leaf iteration : ℤ) < 2 ^ (r.castInner s).bits := by
        exact_mod_cast hlt
      simp only [scale, Nat.cast_one, one_mul]
      rw [← Int.emod_eq_of_lt (Int.natCast_nonneg _) hlt']
      exact Int.emod_eq_emod_iff_emod_sub_eq_zero.mpr (Int.emod_eq_zero_of_dvd hdvd)
  | some inv2Mul =>
      rw [hmul] at h
      obtain ⟨q, hq⟩ := @eval_castInner _ _ r s leaf iteration h.1 hs
      simp only [Scev.eval, Scev.bits, scale]
      push_cast
      apply Int.emod_eq_emod_iff_emod_sub_eq_zero.mpr
      apply Int.emod_eq_zero_of_dvd
      rw [mul_comm ((r.castInner s).eval leaf iteration : ℤ), ← mul_sub, hq]
      exact dvd_mul_of_dvd_right (Dvd.intro q rfl) _

end Values

/-! ## The two sequences of addresses -/

section Exact

variable [DecidableEq Λ] {isLoopInvariant : Scev Λ V → Λ → Bool} {r : Rewriter Λ V}
  {s start step inv2Add : Scev Λ V} {loop : Λ} {leaf : V → (Λ → ℕ) → ℕ} {iteration : Λ → ℕ}
  {c : CyclicCheck Λ V} {n : ℕ}

/-- What the compiler calls invariant has one value in all iterations. -/
def SoundInvariance (leaf : V → (Λ → ℕ) → ℕ) (isLoopInvariant : Scev Λ V → Λ → Bool) : Prop :=
  ∀ s loop, isLoopInvariant s loop = true → s.Invariant leaf loop

/-- The accepted pieces in the types of the program, with a narrow counter that starts at
zero. -/
structure Narrow (isLoopInvariant : Scev Λ V → Λ → Bool) (leaf : V → (Λ → ℕ) → ℕ)
    (s start step inv2Add : Scev Λ V) (loop : Λ) (r : Rewriter Λ V) : Prop where
  accepts : Accepts isLoopInvariant s start step inv2Add loop r
  sound : SoundInvariance leaf isLoopInvariant
  pointer : s.bits = 64
  zero : start.isZero = true

/-- The recurrence in the address and the step of the rewritten one, below the outer cast. -/
def narrowValue (leaf : V → (Λ → ℕ) → ℕ) (iteration : Λ → ℕ) (r : Rewriter Λ V)
    (start step : Scev Λ V) (loop : Λ) (i : ℕ) : ℕ :=
  (r.product (.addRec start step loop)).eval leaf (Function.update iteration loop i)

theorem Narrow.wellTyped (h : Narrow isLoopInvariant leaf s start step inv2Add loop r) :
    (r.extend (.addRec start step loop)).WellTyped ∧ inv2Add.WellTyped ∧
      (r.extend (.addRec start step loop)).bits = 64 := by
  obtain ⟨hext, hadd, -⟩ := h.accepts.same.wellTyped
  exact ⟨hext, hadd, h.accepts.same.bits_eq.trans h.pointer⟩

theorem Narrow.recurrence (h : Narrow isLoopInvariant leaf s start step inv2Add loop r) :
    (r.product (.addRec start step loop)).WellTyped ∧ start.WellTyped ∧ step.WellTyped ∧
      step.bits = start.bits := by
  have hproduct := wellTyped_of_extend h.wellTyped.1
  obtain ⟨hstart, hstep, hbits⟩ := wellTyped_of_product hproduct
  exact ⟨hproduct, hstart, hstep, hbits⟩

theorem Narrow.eval_step (h : Narrow isLoopInvariant leaf s start step inv2Add loop r) (i : ℕ) :
    step.eval leaf (Function.update iteration loop i) = step.eval leaf iteration :=
  h.sound step loop h.accepts.found.step_invariant iteration i

theorem Narrow.factor_eq (h : Narrow isLoopInvariant leaf s start step inv2Add loop r) (i : ℕ) :
    r.factor leaf (Function.update iteration loop i) = r.factor leaf iteration := by
  unfold factor
  cases hmul : r.inv2Mul with
  | none => rfl
  | some inv2Mul => exact h.sound _ _ (h.accepts.inv2Mul_invariant _ hmul) iteration i

theorem Narrow.eval_addRec (h : Narrow isLoopInvariant leaf s start step inv2Add loop r)
    (i : ℕ) : (Scev.addRec start step loop).eval leaf (Function.update iteration loop i) =
      i * step.eval leaf iteration % 2 ^ start.bits := by
  rw [Scev.eval, Scev.eval_of_isZero h.zero, h.eval_step, Function.update_self, Nat.zero_add]

/-- In the address the multiples of the step wrap before they are multiplied. -/
theorem Narrow.narrowValue_eq (h : Narrow isLoopInvariant leaf s start step inv2Add loop r)
    (i : ℕ) : (narrowValue leaf iteration r start step loop i : ℤ) =
      scale (r.product (.addRec start step loop)).bits (r.factor leaf iteration)
        (wrapTo (r.low start.bits) start.bits
          (i * wrapTo (r.low start.bits) start.bits (step.eval leaf iteration))) := by
  rw [narrowValue, eval_product h.recurrence.1, h.factor_eq, h.eval_addRec]
  congr 1
  apply wrapTo_congr
  have hdvd := @dvd_sub_wrapTo (r.low start.bits) (step.eval leaf iteration) start.bits
  push_cast
  change _ % 2 ^ start.bits % 2 ^ start.bits = _ % 2 ^ start.bits
  rw [Int.emod_emod_of_dvd _ (dvd_refl _)]
  apply Int.emod_eq_emod_iff_emod_sub_eq_zero.mpr
  apply Int.emod_eq_zero_of_dvd
  rw [← mul_sub]
  exact dvd_mul_of_dvd_right hdvd _

/-- In the rewritten recurrence they are multiplied first. -/
theorem Narrow.scaled_eq (h : Narrow isLoopInvariant leaf s start step inv2Add loop r) (i : ℕ) :
    ((i * (r.product step).eval leaf iteration %
        2 ^ (r.product (.addRec start step loop)).bits : ℕ) : ℤ) =
      scale (r.product (.addRec start step loop)).bits (r.factor leaf iteration)
        (i * wrapTo (r.low start.bits) start.bits (step.eval leaf iteration)) := by
  obtain ⟨hproduct, hstart, hstep, hbits⟩ := h.recurrence
  obtain ⟨hwell, heq⟩ := product_congr (s := .addRec start step loop) hbits hstep hproduct
  push_cast
  rw [eval_product hwell, heq, hbits, scale, scale, Int.mul_emod,
    Int.emod_emod_of_dvd _ (dvd_refl _), ← Int.mul_emod]
  congr 1
  ring

/-- Below the outer cast the two sequences have the same terms exactly when the multiples of
the step stay in the window, or the factor hides that they do not. -/
theorem Narrow.narrow_iff (h : Narrow isLoopInvariant leaf s start step inv2Add loop r)
    (iteration : Λ → ℕ) (n : ℕ) :
    firstTerms (fun i => i * (r.product step).eval leaf iteration %
          2 ^ (r.product (.addRec start step loop)).bits) n =
        firstTerms (narrowValue leaf iteration r start step loop) n ↔
      (r.low start.bits ≤
          (n - 1 : ℕ) * wrapTo (r.low start.bits) start.bits (step.eval leaf iteration) ∧
        (n - 1 : ℕ) * wrapTo (r.low start.bits) start.bits (step.eval leaf iteration) <
          r.low start.bits + 2 ^ start.bits) ∨
      (2 : ℤ) ^ (r.product (.addRec start step loop)).bits ∣
        r.factor leaf iteration * 2 ^ start.bits := by
  rw [← wrapped_eq_iff low_nonpos (low_add_pos h.recurrence.2.1.bits_pos)
    ⟨le_wrapTo, wrapTo_lt⟩]
  rw [← firstTerms_comp_inj (h := ((↑) : ℕ → ℤ)) (s := Set.univ) Nat.cast_injective.injOn
    (fun _ _ => Set.mem_univ _) (fun _ _ => Set.mem_univ _)]
  simp only [h.narrowValue_eq, h.scaled_eq]

/-- After `2 ^ w` iterations the address comes back. -/
theorem Narrow.periodic (h : Narrow isLoopInvariant leaf s start step inv2Add loop r) (i : ℕ) :
    narrowValue leaf iteration r start step loop (i % 2 ^ start.bits) =
      narrowValue leaf iteration r start step loop i := by
  have hcast : (narrowValue leaf iteration r start step loop (i % 2 ^ start.bits) : ℤ) =
      narrowValue leaf iteration r start step loop i := by
    rw [h.narrowValue_eq, h.narrowValue_eq]
    congr 1
    apply wrapTo_congr
    push_cast
    rw [Int.mul_emod, Int.emod_emod_of_dvd _ (dvd_refl _), ← Int.mul_emod]
  exact_mod_cast hcast

/-- Both addresses are offsets behind the invariant base. -/
theorem Narrow.eval_address (h : Narrow isLoopInvariant leaf s start step inv2Add loop r)
    (i : ℕ) : s.eval leaf (Function.update iteration loop i) =
      (inv2Add.eval leaf iteration + narrowValue leaf iteration r start step loop i) % 2 ^ 64 := by
  rw [h.accepts.same.eval_eq, Scev.eval, h.wellTyped.2.2, eval_extend, ← narrowValue,
    h.sound _ _ h.accepts.inv2Add_invariant, Nat.add_comm]

theorem Narrow.eval_product_step (h : Narrow isLoopInvariant leaf s start step inv2Add loop r)
    (i : ℕ) : (r.product step).eval leaf (Function.update iteration loop i) =
      (r.product step).eval leaf iteration := by
  obtain ⟨hproduct, -, hstep, hbits⟩ := h.recurrence
  obtain ⟨hwell, -⟩ := product_congr (s := .addRec start step loop) hbits hstep hproduct
  have hcast : ((r.product step).eval leaf (Function.update iteration loop i) : ℤ) =
      (r.product step).eval leaf iteration := by
    rw [eval_product hwell, eval_product hwell, h.factor_eq, h.eval_step]
  exact_mod_cast hcast

/-- A start of zero stays zero inside the layers. -/
theorem Narrow.eval_product_start (h : Narrow isLoopInvariant leaf s start step inv2Add loop r)
    (i : ℕ) : (r.product start).eval leaf (Function.update iteration loop i) = 0 := by
  obtain ⟨hproduct, hstart, -, -⟩ := h.recurrence
  obtain ⟨hwell, -⟩ := product_congr (s := .addRec start step loop) (e := start) rfl hstart hproduct
  have hcast : ((r.product start).eval leaf (Function.update iteration loop i) : ℤ) = 0 := by
    rw [eval_product hwell, Scev.eval_of_isZero h.zero, Nat.cast_zero,
      wrapTo_of_mem low_nonpos (low_add_pos hstart.bits_pos), scale, mul_zero, Int.zero_emod]
  exact_mod_cast hcast

theorem Narrow.eval_rewritten (h : Narrow isLoopInvariant leaf s start step inv2Add loop r)
    (i : ℕ) : (Scev.addRec (.add (r.extend start) inv2Add) (r.extend step) loop).eval leaf
        (Function.update iteration loop i) =
      (inv2Add.eval leaf iteration + i * (r.product step).eval leaf iteration % 2 ^ 64) %
        2 ^ 64 := by
  obtain ⟨hext, -, hptr⟩ := h.wellTyped
  obtain ⟨-, hstart, -, -⟩ := h.recurrence
  have hbits : (r.extend start).bits = 64 :=
    (extend_congr (s := .addRec start step loop) (e := start) rfl hstart hext).2.trans hptr
  rw [Scev.eval, Scev.bits, Scev.eval, hbits, eval_extend, eval_extend, h.eval_product_start,
    h.eval_product_step, h.sound _ _ h.accepts.inv2Add_invariant, Function.update_self]
  simp only [Nat.zero_add, Nat.mod_add_mod, Nat.add_mod_mod]

/-- Below the base the two sets differ in the outer cast and in the wrapping of the inner
one. -/
theorem Narrow.exact_iff (h : Narrow isLoopInvariant leaf s start step inv2Add loop r)
    (n : ℕ) :
    firstTerms (fun i => i * (r.product step).eval leaf iteration % 2 ^ 64) n =
        firstTerms (narrowValue leaf iteration r start step loop) n ↔
      r.StaysNarrow leaf iteration step (n - 1) := by
  obtain ⟨hproduct, -, hstep, hbits⟩ := h.recurrence
  obtain ⟨hwell, heq⟩ := product_congr (s := .addRec start step loop) hbits hstep hproduct
  have hnarrow := h.narrow_iff iteration n
  obtain ⟨hext, -, hptr⟩ := h.wellTyped
  have hstays : r.StaysNarrow leaf iteration step (n - 1) ↔
      (r.outerExt ≠ none → (n - 1) * (r.product step).eval leaf iteration <
        2 ^ (r.product (.addRec start step loop)).bits) ∧
      firstTerms (fun i => i * (r.product step).eval leaf iteration %
          2 ^ (r.product (.addRec start step loop)).bits) n =
        firstTerms (narrowValue leaf iteration r start step loop) n := by
    rw [hnarrow, ← heq, ← hbits]
    exact ⟨fun hs => ⟨hs.outer, hs.inner⟩, fun hs => ⟨hs.1, hs.2⟩⟩
  rw [hstays]
  cases houter : r.outerExt with
  | none =>
      rw [extend, houter] at hptr
      rw [hptr]
      simp
  | some bits =>
      rw [extend, houter] at hptr hext
      have hlt : (r.product (.addRec start step loop)).bits < bits := hext.2.2
      have hbits64 : bits = 64 := hptr
      have hpow : 2 * 2 ^ (r.product (.addRec start step loop)).bits ≤ 2 ^ 64 := by
        rw [← pow_succ']
        exact Nat.pow_le_pow_right (by decide) (by omega)
      have hstepLt := hwell.eval_lt leaf iteration
      rw [heq] at hstepLt
      rw [narrow_eq_iff (q := narrowValue leaf iteration r start step loop) hstepLt hpow
        fun i => hproduct.eval_lt leaf _]
      simp

end Exact

end Rewriter

/-! ## Exactness -/

section Main

variable [DecidableEq Λ] {isLoopInvariant : Scev Λ V → Λ → Bool} {r : Rewriter Λ V}
  {s step : Scev Λ V} {leaf : V → (Λ → ℕ) → ℕ} {c : CyclicCheck Λ V}

omit [DecidableEq Λ] in
theorem cyclicCheck_spec {start inv2Add : Scev Λ V} {loop : Λ}
    (h : r.Accepts isLoopInvariant s start step inv2Add loop) (hc : r.cyclicCheck = some c) :
    c = ⟨.addRec (.add (r.extend start) inv2Add) (r.extend step) loop, loop, start.bits⟩ ∧
      (c.counterBits < 64 → start.isZero = true) := by
  have hfound := h.found
  rw [Rewriter.cyclicCheck, Rewriter.assembleNewAddRec, Rewriter.assembleNewStart,
    Rewriter.assembleNewStep, hfound.start_eq, hfound.step_eq, hfound.loop_eq,
    hfound.counterBits_eq, h.inv2Add_eq] at hc
  simp only [Option.map_some, Option.bind_some, Option.ite_none_left_eq_some] at hc
  obtain ⟨hzero, hsome⟩ := hc
  cases hsome
  refine ⟨rfl, ?_⟩
  intro hlt
  simp only [hlt, decide_true, Bool.true_and, Bool.not_eq_true', Bool.not_eq_false] at hzero
  exact hzero

/-- The check for a rewritten address with a narrow counter covers the addresses of the access
exactly when no cast notices the wrapping, up to the last iteration of the first period. -/
theorem covered_eq_accessed_iff (iteration : Λ → ℕ) (n : ℕ) (hs : s.WellTyped)
    (hptr : s.bits = 64) (hsorted : s.Sorted)
    (hsound : Rewriter.SoundInvariance leaf isLoopInvariant)
    (hget : Rewriter.get isLoopInvariant s = some r) (hstep : r.step = some step)
    (hc : r.cyclicCheck = some c) (hnarrow : c.counterBits < 64) :
    c.covered leaf iteration n = accessed leaf iteration s c.loop n ↔
      r.StaysNarrow leaf iteration step (min n (2 ^ c.counterBits) - 1) := by
  obtain ⟨start, step', inv2Add, loop, haccepts⟩ := Rewriter.get_spec hs hsorted hget
  have hsome := haccepts.found.step_eq.symm.trans hstep
  cases hsome
  obtain ⟨rfl, hzero⟩ := cyclicCheck_spec haccepts hc
  have h : Rewriter.Narrow isLoopInvariant leaf s start step inv2Add loop r :=
    ⟨haccepts, hsound, hptr, hzero hnarrow⟩
  have hcount : trueCount start.bits n = min n (2 ^ start.bits) := by
    rw [trueCount, if_neg (Nat.ne_of_lt hnarrow)]
  have hinj : Set.InjOn (fun x => (inv2Add.eval leaf iteration + x) % 2 ^ 64)
      {x | x < 2 ^ 64} := by
    intro x hx y hy hxy
    have hmod := Nat.ModEq.add_left_cancel' _ hxy
    exact Nat.ModEq.eq_of_lt_of_lt hmod hx hy
  have hlt : ∀ i, Rewriter.narrowValue leaf iteration r start step loop i < 2 ^ 64 := by
    intro i
    obtain ⟨hext, -, hbits⟩ := h.wellTyped
    rw [Rewriter.narrowValue, ← Rewriter.eval_extend, ← hbits]
    exact hext.eval_lt leaf _
  rw [CyclicCheck.covered, accessed, accessed, hcount]
  simp only [h.eval_rewritten, h.eval_address]
  rw [firstTerms_comp_inj hinj (fun i _ => Nat.mod_lt _ (by decide)) (fun i _ => hlt i),
    firstTerms_of_periodic (Nat.two_pow_pos start.bits) h.periodic (n := n)]
  exact h.exact_iff (min n (2 ^ start.bits))

end Main

/-! ## A byte that is increased by two -/

/-- `base + i` for a byte `i` that starts at zero. -/
def byteIndex : Scev Unit Unit :=
  .add (.cast .zeroExtend 64 (.addRec (.constant 8 0) (.constant 8 2) ())) (.other 64 ())

def baseAddress : Unit → (Unit → ℕ) → ℕ := fun _ _ => 0x7a0000001000

def isLeaf : Scev Unit Unit → Unit → Bool
  | .constant _ _, _ => true
  | .other _ _, _ => true
  | _, _ => false

def byteRewriter : Rewriter Unit Unit :=
  { Rewriter.initial with
    loop := some (), inv2Add := some (.other 64 ()), start := some (.constant 8 0),
    step := some (.constant 8 2), counterBits := some 8, outerExt := some 64 }

def byteCheck : CyclicCheck Unit Unit where
  addRec := .addRec (.add (.cast .zeroExtend 64 (.constant 8 0)) (.other 64 ()))
    (.cast .zeroExtend 64 (.constant 8 2)) ()
  loop := ()
  counterBits := 8

theorem isLeaf_sound : Rewriter.SoundInvariance baseAddress isLeaf := by
  intro s loop h iteration i
  cases s with
  | constant bits value => rfl
  | other bits value => rfl
  | cast kind bits op => cases h
  | add lhs rhs => cases h
  | mul lhs rhs => cases h
  | addRec start step loop => cases h

theorem byteIndex_accepted : byteIndex.WellTyped ∧ byteIndex.Sorted ∧
    Rewriter.get isLeaf byteIndex = some byteRewriter ∧
      byteRewriter.cyclicCheck = some byteCheck := by
  refine ⟨?_, ⟨⟨trivial, trivial⟩, trivial⟩, rfl, rfl⟩
  simp [byteIndex, Scev.WellTyped, Scev.bits]

/-- In the 129th iteration the byte is back at zero, but the check goes on. -/
theorem byteIndex_overshoots : Rewriter.get isLeaf byteIndex = some byteRewriter ∧
    byteRewriter.cyclicCheck = some byteCheck ∧
      byteCheck.covered baseAddress (fun _ => 0) 129 ≠
        accessed baseAddress (fun _ => 0) byteIndex () 129 := by
  refine ⟨rfl, rfl, ?_⟩
  intro heq
  have hmem : 0x7a0000001100 ∈ byteCheck.covered baseAddress (fun _ => 0) 129 :=
    ⟨128, by decide, rfl⟩
  rw [heq] at hmem
  obtain ⟨i, -, hi⟩ := hmem
  simp only [byteIndex, Scev.eval, Scev.bits, castValue, baseAddress, Function.update_self] at hi
  omega

theorem covered_eq_accessed_iff_byteIndex :
    byteCheck.covered baseAddress (fun _ => 0) 129 =
        accessed baseAddress (fun _ => 0) byteIndex () 129 ↔
      byteRewriter.StaysNarrow baseAddress (fun _ => 0) (.constant 8 2)
        (min 129 (2 ^ 8) - 1) :=
  covered_eq_accessed_iff (fun _ => 0) 129 byteIndex_accepted.1 rfl byteIndex_accepted.2.1
    isLeaf_sound byteIndex_accepted.2.2.1 rfl byteIndex_accepted.2.2.2 (by decide)

end Mair.LoopCheck
