import Mathlib.Logic.Function.Basic
import Mair.Library.Residues
import Mair.LoopCheck.Agreement

/-! # Rewriting an address into a recurrence

`PtrAddExpr2PtrAddRecRewriter` takes an address that is a sum apart, down to a recurrence of a
width of its own, and puts the pieces together as a recurrence of pointer width. -/

namespace Mair.LoopCheck

/-! ## Scalar evolutions -/

inductive CastKind where
  | truncate
  | zeroExtend
  | signExtend
  deriving DecidableEq

/-- The expressions that the rewriter tells apart; `other` is one of another kind or of more
operands. -/
inductive Scev (Λ V : Type*) where
  | constant (bits value : ℕ)
  | cast (kind : CastKind) (bits : ℕ) (op : Scev Λ V)
  | add (lhs rhs : Scev Λ V)
  | mul (lhs rhs : Scev Λ V)
  | addRec (start step : Scev Λ V) (loop : Λ)
  | other (bits : ℕ) (value : V)

def castValue (kind : CastKind) (src bits value : ℕ) : ℕ :=
  match kind with
  | .truncate => value % 2 ^ bits
  | .zeroExtend => value
  | .signExtend => if value < 2 ^ (src - 1) then value else value + (2 ^ bits - 2 ^ src)

namespace Scev

variable {Λ V : Type*}

def bits : Scev Λ V → ℕ
  | constant bits _ => bits
  | cast _ bits _ => bits
  | add lhs _ => lhs.bits
  | mul lhs _ => lhs.bits
  | addRec start _ _ => start.bits
  | other bits _ => bits

def isZero : Scev Λ V → Bool
  | constant _ value => value = 0
  | _ => false

/-- The value in the iterations that `iteration` gives for each loop. -/
def eval (leaf : V → (Λ → ℕ) → ℕ) (iteration : Λ → ℕ) : Scev Λ V → ℕ
  | constant _ value => value
  | cast kind bits op => castValue kind op.bits bits (op.eval leaf iteration)
  | add lhs rhs => (lhs.eval leaf iteration + rhs.eval leaf iteration) % 2 ^ lhs.bits
  | mul lhs rhs => (lhs.eval leaf iteration * rhs.eval leaf iteration) % 2 ^ lhs.bits
  | addRec start step loop =>
      (start.eval leaf iteration + iteration loop * step.eval leaf iteration) % 2 ^ start.bits
  | other bits value => leaf value iteration % 2 ^ bits

def WellTyped : Scev Λ V → Prop
  | constant bits value => 0 < bits ∧ value < 2 ^ bits
  | cast kind bits op =>
      op.WellTyped ∧ 0 < bits ∧ if kind = .truncate then bits < op.bits else op.bits < bits
  | add lhs rhs => lhs.WellTyped ∧ rhs.WellTyped ∧ rhs.bits = lhs.bits
  | mul lhs rhs => lhs.WellTyped ∧ rhs.WellTyped ∧ rhs.bits = lhs.bits
  | addRec start step _ => start.WellTyped ∧ step.WellTyped ∧ step.bits = start.bits
  | other bits _ => 0 < bits

def isAddRec : Scev Λ V → Bool
  | addRec _ _ _ => true
  | _ => false

def isCast : Scev Λ V → Bool
  | cast _ _ _ => true
  | _ => false

/-- The operands of a product stand in the order of their kinds, casts before recurrences. -/
def Sorted : Scev Λ V → Prop
  | cast _ _ op => op.Sorted
  | add lhs rhs => lhs.Sorted ∧ rhs.Sorted
  | mul lhs rhs => lhs.Sorted ∧ rhs.Sorted ∧ ¬(lhs.isAddRec = true ∧ rhs.isCast = true)
  | addRec start step _ => start.Sorted ∧ step.Sorted
  | _ => True

/-- The value is the same in all iterations of the loop. -/
def Invariant [DecidableEq Λ] (leaf : V → (Λ → ℕ) → ℕ) (s : Scev Λ V) (loop : Λ) : Prop :=
  ∀ iteration i, s.eval leaf (Function.update iteration loop i) = s.eval leaf iteration

theorem castValue_lt {kind : CastKind} {src bits value : ℕ} (hvalue : value < 2 ^ src)
    (h : if kind = .truncate then bits < src else src < bits) :
    castValue kind src bits value < 2 ^ bits := by
  cases kind with
  | truncate => exact Nat.mod_lt _ (Nat.two_pow_pos bits)
  | zeroExtend =>
      have hpow : 2 ^ src < 2 ^ bits := Nat.pow_lt_pow_right (by decide) h
      exact hvalue.trans hpow
  | signExtend =>
      have hpow : 2 ^ src < 2 ^ bits := Nat.pow_lt_pow_right (by decide) h
      rw [castValue]
      split
      · exact hvalue.trans hpow
      · omega

theorem WellTyped.bits_pos {s : Scev Λ V} (h : s.WellTyped) : 0 < s.bits := by
  induction s with
  | constant bits value => exact h.1
  | cast kind bits op ih => exact h.2.1
  | add lhs rhs ihl ihr => exact ihl h.1
  | mul lhs rhs ihl ihr => exact ihl h.1
  | addRec start step loop ihs iht => exact ihs h.1
  | other bits value => exact h

theorem WellTyped.eval_lt {s : Scev Λ V} (h : s.WellTyped) (leaf : V → (Λ → ℕ) → ℕ)
    (iteration : Λ → ℕ) : s.eval leaf iteration < 2 ^ s.bits := by
  induction s with
  | constant bits value => exact h.2
  | cast kind bits op ih => exact castValue_lt (ih h.1) h.2.2
  | add lhs rhs ihl ihr => exact Nat.mod_lt _ (Nat.two_pow_pos _)
  | mul lhs rhs ihl ihr => exact Nat.mod_lt _ (Nat.two_pow_pos _)
  | addRec start step loop ihs iht => exact Nat.mod_lt _ (Nat.two_pow_pos _)
  | other bits value => exact Nat.mod_lt _ (Nat.two_pow_pos _)

theorem eval_of_isZero {s : Scev Λ V} {leaf : V → (Λ → ℕ) → ℕ} {iteration : Λ → ℕ}
    (h : s.isZero = true) : s.eval leaf iteration = 0 := by
  cases s with
  | constant bits value => exact of_decide_eq_true h
  | cast kind bits op => cases h
  | add lhs rhs => cases h
  | mul lhs rhs => cases h
  | addRec start step loop => cases h
  | other bits value => cases h

/-- The second expression is well typed and stands for the first one. -/
structure SameValue (s t : Scev Λ V) : Prop where
  wellTyped : t.WellTyped
  bits_eq : t.bits = s.bits
  eval_eq : ∀ leaf iteration, s.eval leaf iteration = t.eval leaf iteration

theorem WellTyped.same {s : Scev Λ V} (h : s.WellTyped) : SameValue s s :=
  ⟨h, rfl, fun _ _ => rfl⟩

theorem WellTyped.mul_comm {lhs rhs : Scev Λ V} (h : (mul lhs rhs).WellTyped) :
    SameValue (mul lhs rhs) (mul rhs lhs) := by
  obtain ⟨hl, hr, hbits⟩ := h
  refine ⟨⟨hr, hl, hbits.symm⟩, hbits, ?_⟩
  intro leaf iteration
  rw [eval, eval, hbits, Nat.mul_comm]

theorem WellTyped.add_comm {lhs rhs : Scev Λ V} (h : (add lhs rhs).WellTyped) :
    SameValue (add lhs rhs) (add rhs lhs) := by
  obtain ⟨hl, hr, hbits⟩ := h
  refine ⟨⟨hr, hl, hbits.symm⟩, hbits, ?_⟩
  intro leaf iteration
  rw [eval, eval, hbits, Nat.add_comm]

theorem SameValue.trans {s t u : Scev Λ V} (h : SameValue s t) (h' : SameValue t u) :
    SameValue s u := by
  refine ⟨h'.wellTyped, h'.bits_eq.trans h.bits_eq, ?_⟩
  intro leaf iteration
  exact (h.eval_eq leaf iteration).trans (h'.eval_eq leaf iteration)

theorem SameValue.zeroExtend {s t : Scev Λ V} {bits : ℕ} (h : SameValue s t)
    (hs : (cast .zeroExtend bits s).WellTyped) :
    SameValue (cast .zeroExtend bits s) (cast .zeroExtend bits t) := by
  obtain ⟨-, hpos, hlt⟩ := hs
  refine ⟨⟨h.wellTyped, hpos, ?_⟩, rfl, h.eval_eq⟩
  rw [h.bits_eq]
  exact hlt

theorem SameValue.add {s t u : Scev Λ V} (h : SameValue s t) (hs : (add s u).WellTyped) :
    SameValue (add s u) (add t u) := by
  obtain ⟨-, hu, hbits⟩ := hs
  refine ⟨⟨h.wellTyped, hu, hbits.trans h.bits_eq.symm⟩, h.bits_eq, ?_⟩
  intro leaf iteration
  rw [eval, eval, h.eval_eq, h.bits_eq]

end Scev

/-! ## The rewriter -/

/-- The pieces found so far. -/
structure Rewriter (Λ V : Type*) where
  loop : Option Λ
  inv2Add : Option (Scev Λ V)
  inv2Mul : Option (Scev Λ V)
  start : Option (Scev Λ V)
  step : Option (Scev Λ V)
  counterBits : Option ℕ
  outerExt : Option ℕ
  innerExt : Option (CastKind × ℕ)

namespace Rewriter

variable {Λ V : Type*}

def initial : Rewriter Λ V := ⟨none, none, none, none, none, none, none, none⟩

def reset (r : Rewriter Λ V) : Rewriter Λ V := { initial with counterBits := r.counterBits }

section Match

variable (isLoopInvariant : Scev Λ V → Λ → Bool)

def isInvariant (r : Rewriter Λ V) (s : Scev Λ V) : Bool := r.loop.any (isLoopInvariant s)

def matchInnerAddRec (r : Rewriter Λ V) : Scev Λ V → Bool × Rewriter Λ V
  | .addRec start step loop =>
      (isLoopInvariant step loop,
        { r with
          start := some start, step := some step, loop := some loop,
          counterBits := some start.bits })
  | _ => (false, r)

def matchInnerExt (r : Rewriter Λ V) : Scev Λ V → Bool × Rewriter Λ V
  | .cast kind bits op =>
      let r := { r with innerExt := some (kind, bits) }
      let r := if kind = .truncate then { r with counterBits := some bits } else r
      matchInnerAddRec isLoopInvariant r op
  | s => matchInnerAddRec isLoopInvariant r s

def matchMul (r : Rewriter Λ V) : Scev Λ V → Bool × Rewriter Λ V
  | .mul lhs rhs =>
      let (matched, r) := matchInnerExt isLoopInvariant r rhs
      if matched then
        (r.isInvariant isLoopInvariant lhs, { r with inv2Mul := some lhs })
      else
        let (matched, r) := matchInnerExt isLoopInvariant r lhs
        if matched then
          (r.isInvariant isLoopInvariant rhs, { r with inv2Mul := some rhs })
        else (false, r)
  | s => matchInnerExt isLoopInvariant r s

def matchOuterExt (r : Rewriter Λ V) : Scev Λ V → Bool × Rewriter Λ V
  | .cast .zeroExtend bits op => matchMul isLoopInvariant { r with outerExt := some bits } op
  | s => matchMul isLoopInvariant r s

def matchAddExpr (r : Rewriter Λ V) : Scev Λ V → Bool × Rewriter Λ V
  | .add lhs rhs =>
      let (matched, r) := matchOuterExt isLoopInvariant r lhs
      if matched then
        (r.isInvariant isLoopInvariant rhs, { r with inv2Add := some rhs })
      else
        let (matched, r) := matchOuterExt isLoopInvariant r.reset rhs
        if matched then
          (r.isInvariant isLoopInvariant lhs, { r with inv2Add := some lhs })
        else (false, r)
  | _ => (false, r)

def get (s : Scev Λ V) : Option (Rewriter Λ V) :=
  let (matched, r) := matchAddExpr isLoopInvariant initial s
  if matched then some r else none

end Match

/-- The inner cast around an expression. -/
def castInner (r : Rewriter Λ V) (s : Scev Λ V) : Scev Λ V :=
  match r.innerExt with
  | some (kind, bits) => .cast kind bits s
  | none => s

/-- The product around that. -/
def product (r : Rewriter Λ V) (s : Scev Λ V) : Scev Λ V :=
  match r.inv2Mul with
  | some inv2Mul => .mul (r.castInner s) inv2Mul
  | none => r.castInner s

/-- The outer extension around that. -/
def extend (r : Rewriter Λ V) (s : Scev Λ V) : Scev Λ V :=
  match r.outerExt with
  | some bits => .cast .zeroExtend bits (r.product s)
  | none => r.product s

def assembleNewStep (r : Rewriter Λ V) : Option (Scev Λ V) := r.step.map r.extend

def assembleNewStart (r : Rewriter Λ V) : Option (Scev Λ V) :=
  r.start.bind fun start => r.inv2Add.map fun inv2Add => .add (r.extend start) inv2Add

def assembleNewAddRec (r : Rewriter Λ V) : Option (Scev Λ V) :=
  r.assembleNewStart.bind fun newStart =>
    r.assembleNewStep.bind fun newStep => r.loop.map fun loop => .addRec newStart newStep loop

/-! ## What is accepted -/

section Accepted

variable {isLoopInvariant : Scev Λ V → Λ → Bool} {r : Rewriter Λ V} {s start step : Scev Λ V}
  {loop : Λ}

/-- The rewriter has found a recurrence. -/
structure Found (isLoopInvariant : Scev Λ V → Λ → Bool) (start step : Scev Λ V) (loop : Λ)
    (r : Rewriter Λ V) : Prop where
  start_eq : r.start = some start
  step_eq : r.step = some step
  loop_eq : r.loop = some loop
  counterBits_eq : r.counterBits = some start.bits
  step_invariant : isLoopInvariant step loop = true

theorem matchInnerAddRec_spec (h : (matchInnerAddRec isLoopInvariant r s).1 = true) :
    ∃ start step loop, s = .addRec start step loop ∧
      Found isLoopInvariant start step loop (matchInnerAddRec isLoopInvariant r s).2 := by
  cases s with
  | addRec start step loop => exact ⟨start, step, loop, rfl, rfl, rfl, rfl, rfl, h⟩
  | constant bits value => cases h
  | cast kind bits op => cases h
  | add lhs rhs => cases h
  | mul lhs rhs => cases h
  | other bits value => cases h

/-- Looking for the recurrence leaves the outer layers alone. -/
theorem matchInnerAddRec_frame :
    (matchInnerAddRec isLoopInvariant r s).2.innerExt = r.innerExt ∧
      (matchInnerAddRec isLoopInvariant r s).2.inv2Mul = r.inv2Mul ∧
      (matchInnerAddRec isLoopInvariant r s).2.outerExt = r.outerExt := by
  cases s <;> exact ⟨rfl, rfl, rfl⟩

theorem matchInnerExt_frame :
    (s.isCast = false → (matchInnerExt isLoopInvariant r s).2.innerExt = r.innerExt) ∧
      (matchInnerExt isLoopInvariant r s).2.inv2Mul = r.inv2Mul ∧
      (matchInnerExt isLoopInvariant r s).2.outerExt = r.outerExt := by
  cases s with
  | cast kind bits op =>
      rw [matchInnerExt]
      have hframe := fun r' => @matchInnerAddRec_frame _ _ isLoopInvariant r' op
      refine ⟨nofun, ?_, ?_⟩
      · rw [(hframe _).2.1]
        split <;> rfl
      · rw [(hframe _).2.2]
        split <;> rfl
  | constant bits value => exact ⟨fun _ => rfl, rfl, rfl⟩
  | add lhs rhs => exact ⟨fun _ => rfl, rfl, rfl⟩
  | mul lhs rhs => exact ⟨fun _ => rfl, rfl, rfl⟩
  | addRec start step loop => exact ⟨fun _ => rfl, rfl, rfl⟩
  | other bits value => exact ⟨fun _ => rfl, rfl, rfl⟩

/-- A cast found before is not taken for one around a recurrence that has none. -/
theorem matchInnerExt_spec (hr : s.isAddRec = true → r.innerExt = none)
    (h : (matchInnerExt isLoopInvariant r s).1 = true) :
    ∃ start step loop, Found isLoopInvariant start step loop
        (matchInnerExt isLoopInvariant r s).2 ∧
      s = (matchInnerExt isLoopInvariant r s).2.castInner (.addRec start step loop) := by
  cases s with
  | cast kind bits op =>
      rw [matchInnerExt] at h ⊢
      obtain ⟨start, step, loop, hop, hfound⟩ := matchInnerAddRec_spec h
      have hinner := (@matchInnerAddRec_frame _ _ isLoopInvariant
        (if kind = .truncate then { r with innerExt := some (kind, bits), counterBits := some bits }
          else { r with innerExt := some (kind, bits) }) op).1
      have hsome : ∀ r' : Rewriter Λ V, r'.innerExt = some (kind, bits) →
          Scev.cast kind bits op = r'.castInner (.addRec start step loop) := by
        intro r' hr'
        rw [castInner, hr', hop]
      refine ⟨start, step, loop, hfound, hsome _ ?_⟩
      refine hinner.trans ?_
      split <;> rfl
  | addRec start step loop =>
      refine ⟨start, step, loop, ⟨rfl, rfl, rfl, rfl, h⟩, ?_⟩
      rw [castInner, matchInnerExt_frame.1 rfl, hr rfl]
  | constant bits value => cases h
  | add lhs rhs => cases h
  | mul lhs rhs => cases h
  | other bits value => cases h

/-- The factor is invariant in the loop of the recurrence. -/
structure FoundProduct (isLoopInvariant : Scev Λ V → Λ → Bool) (s start step : Scev Λ V)
    (loop : Λ) (r : Rewriter Λ V) : Prop where
  found : Found isLoopInvariant start step loop r
  inv2Mul_invariant : ∀ inv2Mul, r.inv2Mul = some inv2Mul → isLoopInvariant inv2Mul loop = true
  same : s.SameValue (r.product (.addRec start step loop))

theorem Found.isInvariant_eq (h : Found isLoopInvariant start step loop r) :
    r.isInvariant isLoopInvariant s = isLoopInvariant s loop := by
  rw [isInvariant, h.loop_eq]
  rfl

theorem Found.setMul {inv2Mul : Scev Λ V} (h : Found isLoopInvariant start step loop r) :
    Found isLoopInvariant start step loop { r with inv2Mul := some inv2Mul } :=
  ⟨h.start_eq, h.step_eq, h.loop_eq, h.counterBits_eq, h.step_invariant⟩

theorem matchMul_spec (hs : s.WellTyped) (hsorted : s.Sorted) (hinner : r.innerExt = none)
    (hmul : r.inv2Mul = none) (h : (matchMul isLoopInvariant r s).1 = true) :
    ∃ start step loop, FoundProduct isLoopInvariant s start step loop
        (matchMul isLoopInvariant r s).2 ∧
      (matchMul isLoopInvariant r s).2.outerExt = r.outerExt := by
  have hsingle : ∀ s : Scev Λ V, s.WellTyped → (matchInnerExt isLoopInvariant r s).1 = true →
      ∃ start step loop, FoundProduct isLoopInvariant s start step loop
          (matchInnerExt isLoopInvariant r s).2 ∧
        (matchInnerExt isLoopInvariant r s).2.outerExt = r.outerExt := by
    intro s hs h
    obtain ⟨start, step, loop, hfound, heq⟩ := matchInnerExt_spec (fun _ => hinner) h
    obtain ⟨-, hmul', houter⟩ := @matchInnerExt_frame _ _ isLoopInvariant r s
    rw [hmul] at hmul'
    refine ⟨start, step, loop, ⟨hfound, ?_, ?_⟩, houter⟩
    · rw [hmul']
      nofun
    · rw [product, hmul', ← heq]
      exact hs.same
  cases s with
  | mul lhs rhs =>
      rw [matchMul] at h ⊢
      obtain ⟨hcast, hmulr, houterr⟩ := @matchInnerExt_frame _ _ isLoopInvariant r rhs
      cases hrhs : (matchInnerExt isLoopInvariant r rhs).1 with
      | true =>
          simp only [hrhs, if_true] at h ⊢
          obtain ⟨start, step, loop, hfound, heq⟩ := matchInnerExt_spec (fun _ => hinner) hrhs
          rw [hfound.isInvariant_eq] at h
          refine ⟨start, step, loop, ⟨hfound.setMul, ?_, ?_⟩, houterr⟩
          · intro inv2Mul hsome
            cases hsome
            exact h
          · have hprod : product { (matchInnerExt isLoopInvariant r rhs).2 with
                inv2Mul := some lhs } (.addRec start step loop) = .mul rhs lhs := by
              conv_rhs => rw [heq]
              rfl
            rw [hprod]
            exact hs.mul_comm
      | false =>
          simp only [hrhs, Bool.false_eq_true, if_false] at h ⊢
          generalize hr' : (matchInnerExt isLoopInvariant r rhs).2 = r' at h hcast hmulr houterr ⊢
          obtain ⟨-, hmull, houterl⟩ := @matchInnerExt_frame _ _ isLoopInvariant r' lhs
          cases hlhs : (matchInnerExt isLoopInvariant r' lhs).1 with
          | false =>
              rw [hlhs] at h
              cases h
          | true =>
              simp only [hlhs, if_true] at h ⊢
              have hnone : lhs.isAddRec = true → r'.innerExt = none := by
                intro haddRec
                have hnot : rhs.isCast = false := by
                  cases hc : rhs.isCast with
                  | true => exact absurd ⟨haddRec, hc⟩ hsorted.2.2
                  | false => rfl
                exact (hcast hnot).trans hinner
              obtain ⟨start, step, loop, hfound, heq⟩ := matchInnerExt_spec hnone hlhs
              rw [hfound.isInvariant_eq] at h
              refine ⟨start, step, loop, ⟨hfound.setMul, ?_, ?_⟩, houterl.trans houterr⟩
              · intro inv2Mul hsome
                cases hsome
                exact h
              · have hprod : product { (matchInnerExt isLoopInvariant r' lhs).2 with
                    inv2Mul := some rhs } (.addRec start step loop) = .mul lhs rhs := by
                  conv_rhs => rw [heq]
                  rfl
                rw [hprod]
                exact hs.same
  | constant bits value => exact hsingle _ hs h
  | cast kind bits op => exact hsingle _ hs h
  | add lhs rhs => exact hsingle _ hs h
  | addRec start step loop => exact hsingle _ hs h
  | other bits value => exact hsingle _ hs h

/-- The recurrence stands inside all layers but the last sum. -/
structure FoundOffset (isLoopInvariant : Scev Λ V → Λ → Bool) (s start step : Scev Λ V)
    (loop : Λ) (r : Rewriter Λ V) : Prop where
  found : Found isLoopInvariant start step loop r
  inv2Mul_invariant : ∀ inv2Mul, r.inv2Mul = some inv2Mul → isLoopInvariant inv2Mul loop = true
  same : s.SameValue (r.extend (.addRec start step loop))

theorem matchOuterExt_spec (hs : s.WellTyped) (hsorted : s.Sorted) (hinner : r.innerExt = none)
    (hmul : r.inv2Mul = none) (houter : r.outerExt = none)
    (h : (matchOuterExt isLoopInvariant r s).1 = true) :
    ∃ start step loop, FoundOffset isLoopInvariant s start step loop
      (matchOuterExt isLoopInvariant r s).2 := by
  have hplain : ∀ s : Scev Λ V, s.WellTyped → s.Sorted → (matchMul isLoopInvariant r s).1 = true →
      ∃ start step loop, FoundOffset isLoopInvariant s start step loop
        (matchMul isLoopInvariant r s).2 := by
    intro s hs hsorted h
    obtain ⟨start, step, loop, hfound, hext⟩ := matchMul_spec hs hsorted hinner hmul h
    refine ⟨start, step, loop, hfound.found, hfound.inv2Mul_invariant, ?_⟩
    rw [extend, hext, houter]
    exact hfound.same
  cases s with
  | cast kind bits op =>
      cases kind with
      | zeroExtend =>
          rw [matchOuterExt] at h ⊢
          obtain ⟨start, step, loop, hfound, hext⟩ := matchMul_spec
            (r := { r with outerExt := some bits }) hs.1 hsorted hinner hmul h
          refine ⟨start, step, loop, hfound.found, hfound.inv2Mul_invariant, ?_⟩
          rw [extend, hext]
          exact hfound.same.zeroExtend hs
      | truncate => exact hplain _ hs hsorted h
      | signExtend => exact hplain _ hs hsorted h
  | constant bits value => exact hplain _ hs hsorted h
  | add lhs rhs => exact hplain _ hs hsorted h
  | mul lhs rhs => exact hplain _ hs hsorted h
  | addRec start step loop => exact hplain _ hs hsorted h
  | other bits value => exact hplain _ hs hsorted h

/-- The pieces of an accepted address: it is a sum of an invariant and of a recurrence inside
casts and a product. -/
structure Accepts (isLoopInvariant : Scev Λ V → Λ → Bool) (s start step inv2Add : Scev Λ V)
    (loop : Λ) (r : Rewriter Λ V) : Prop where
  found : Found isLoopInvariant start step loop r
  inv2Mul_invariant : ∀ inv2Mul, r.inv2Mul = some inv2Mul → isLoopInvariant inv2Mul loop = true
  inv2Add_eq : r.inv2Add = some inv2Add
  inv2Add_invariant : isLoopInvariant inv2Add loop = true
  same : s.SameValue (.add (r.extend (.addRec start step loop)) inv2Add)

theorem FoundOffset.accepts {op inv2Add : Scev Λ V}
    (h : FoundOffset isLoopInvariant op start step loop r)
    (hinv : r.isInvariant isLoopInvariant inv2Add = true) (hs : (Scev.add op inv2Add).WellTyped)
    (hsame : s.SameValue (.add op inv2Add)) :
    Accepts isLoopInvariant s start step inv2Add loop { r with inv2Add := some inv2Add } := by
  have hfound := h.found
  rw [hfound.isInvariant_eq] at hinv
  exact ⟨⟨hfound.start_eq, hfound.step_eq, hfound.loop_eq, hfound.counterBits_eq,
    hfound.step_invariant⟩, h.inv2Mul_invariant, rfl, hinv, hsame.trans (h.same.add hs)⟩

theorem get_spec (hs : s.WellTyped) (hsorted : s.Sorted)
    (h : get isLoopInvariant s = some r) :
    ∃ start step inv2Add loop, Accepts isLoopInvariant s start step inv2Add loop r := by
  cases s with
  | add lhs rhs =>
      rw [get, matchAddExpr] at h
      cases hlhs : (matchOuterExt isLoopInvariant initial lhs).1 with
      | true =>
          simp only [hlhs, if_true, Option.ite_none_right_eq_some, Option.some.injEq] at h
          obtain ⟨hinv, rfl⟩ := h
          obtain ⟨start, step, loop, hfound⟩ :=
            matchOuterExt_spec hs.1 hsorted.1 rfl rfl rfl hlhs
          exact ⟨start, step, rhs, loop, hfound.accepts hinv hs hs.same⟩
      | false =>
          simp only [hlhs, Bool.false_eq_true, if_false] at h
          cases hrhs : (matchOuterExt isLoopInvariant
              (matchOuterExt isLoopInvariant initial lhs).2.reset rhs).1 with
          | true =>
              simp only [hrhs, if_true, Option.ite_none_right_eq_some, Option.some.injEq] at h
              obtain ⟨hinv, rfl⟩ := h
              obtain ⟨start, step, loop, hfound⟩ :=
                matchOuterExt_spec hs.2.1 hsorted.2 rfl rfl rfl hrhs
              exact ⟨start, step, lhs, loop,
                hfound.accepts hinv hs.add_comm.wellTyped hs.add_comm⟩
          | false =>
              simp only [hrhs, Bool.false_eq_true, if_false] at h
              cases h
  | constant bits value => cases h
  | cast kind bits op => cases h
  | mul lhs rhs => cases h
  | addRec start step loop => cases h
  | other bits value => cases h

end Accepted

end Rewriter

end Mair.LoopCheck
