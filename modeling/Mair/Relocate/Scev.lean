import Mair.Relocate.Address

/-! # Invariant recurrences

`LoopInvariantChecker` decides by the shape of an expression whether its value stays the same while
a loop runs. It is right about expressions whose unknown values of the loop are pure or loads. -/

namespace Mair.Relocate

open Ir LoopCheck

/-! ## Expressions -/

inductive CastKind where
  | ptrToInt | truncate | zeroExtend | signExtend

inductive NAryKind where
  | add | mul | umax | smax | umin | smin | sequentialUMin

/-- An unknown value is an instruction or an argument. -/
inductive SCEV (Λ : Type*) where
  | constant (name : ℕ)
  | castExpr (kind : CastKind) (operand : SCEV Λ)
  | addRecExpr (loop : Λ) (operands : List (SCEV Λ))
  | naryExpr (kind : NAryKind) (operands : List (SCEV Λ))
  | udivExpr (lhs rhs : SCEV Λ)
  | unknown (inst : Instruction)
  | argument (name : ℕ)

variable {β Λ : Type*} {f : Function β}

/-- The blocks that all paths from the entry to a block pass. -/
structure DominatorTree (f : Function β) where
  dominates : β → β → Bool
  complete : ∀ a b, (∀ p, f.PathFrom f.entry p b → a ∈ p ++ [b]) → dominates a b = true

/-- `contains` climbs from the loop to its parents. -/
def Analyses.contains [DecidableEq Λ] (a : Analyses f Λ) (p l : Λ) : Bool :=
  p ∈ l :: a.parentLoops l

section Checker

variable [DecidableEq Λ] (a : Analyses f Λ) (dt : DominatorTree f) (g : Cfg β Λ) (l : Λ)

mutual

/-- `isLoopInvariant` on expressions. -/
def isScevInvariant : SCEV Λ → Bool
  | .constant _ => true
  | .castExpr _ operand => isScevInvariant operand
  | .addRecExpr loop operands =>
      if loop = l then false
      else if dt.dominates (a.header l) (a.header loop) then false
      else if a.contains loop l then true
      else areScevsInvariant operands
  | .naryExpr _ operands => areScevsInvariant operands
  | .udivExpr lhs rhs => isScevInvariant lhs && isScevInvariant rhs
  | .unknown inst => isLoopInvariant a g l (.inst inst)
  | .argument _ => isLoopInvariant a g l .other

def areScevsInvariant : List (SCEV Λ) → Bool
  | [] => true
  | operand :: operands => isScevInvariant operand && areScevsInvariant operands

end

end Checker

/-! ## Values -/

/-- What the operators and the instructions compute. The value of a pure instruction depends on its
operands alone. -/
structure Meaning (Val Mem : Type*) where
  constant : ℕ → Val
  castExpr : CastKind → Val → Val
  addRecExpr : List Val → ℕ → Val
  naryExpr : NAryKind → List Val → Val
  udivExpr : Val → Val → Val
  argument : ℕ → Val
  compute : Instruction → List (Option Val) → Mem → Val
  pure : ∀ inst operands mem mem', isPure inst = true →
    compute inst operands mem = compute inst operands mem'

/-- The values of the instructions, the memory, and for each loop the number of its iteration. -/
structure Machine (Λ Val Mem : Type*) where
  env : Instruction → Val
  mem : Mem
  iteration : Λ → ℕ

section Meaning

variable {Val Mem : Type*} (sem : Meaning Val Mem) (s : Machine Λ Val Mem)

mutual

def SCEV.eval : SCEV Λ → Val
  | .constant name => sem.constant name
  | .castExpr kind operand => sem.castExpr kind operand.eval
  | .addRecExpr loop operands => sem.addRecExpr (SCEV.evals operands) (s.iteration loop)
  | .naryExpr kind operands => sem.naryExpr kind (SCEV.evals operands)
  | .udivExpr lhs rhs => sem.udivExpr lhs.eval rhs.eval
  | .unknown inst => s.env inst
  | .argument name => sem.argument name

def SCEV.evals : List (SCEV Λ) → List Val
  | [] => []
  | operand :: operands => operand.eval :: SCEV.evals operands

end

/-- The values of the operands that are instructions. -/
def Machine.operandValues (a : Analyses f Λ) (inst : Instruction) : List (Option Val) :=
  (a.operands inst).map fun v => match v with
    | .inst op => some (s.env op)
    | .other => none

end Meaning

/-! ## What an expression is made of -/

inductive SCEV.Operand : SCEV Λ → SCEV Λ → Prop where
  | castExpr {kind operand} : Operand operand (.castExpr kind operand)
  | addRecExpr {loop operands operand} : operand ∈ operands →
      Operand operand (.addRecExpr loop operands)
  | naryExpr {kind operands operand} : operand ∈ operands →
      Operand operand (.naryExpr kind operands)
  | lhs {lhs rhs} : Operand lhs (.udivExpr lhs rhs)
  | rhs {lhs rhs} : Operand rhs (.udivExpr lhs rhs)

/-- An expression inside another one. -/
abbrev SCEV.In : SCEV Λ → SCEV Λ → Prop := Relation.ReflTransGen SCEV.Operand

/-- Nothing in the expression is computed by the loop. -/
structure SCEV.Outside (a : Analyses f Λ) (l : Λ) (e : SCEV Λ) : Prop where
  unknown : ∀ inst, SCEV.In (.unknown inst) e → ¬DefinedIn a l inst
  addRecExpr : ∀ loop operands, SCEV.In (.addRecExpr loop operands) e →
    a.inLoop l (a.header loop) = false

/-- The operands of a recurrence do not change in its loop. -/
def SCEV.WellFormed (a : Analyses f Λ) (e : SCEV Λ) : Prop :=
  ∀ loop operands, SCEV.In (.addRecExpr loop operands) e →
    ∀ operand ∈ operands, operand.Outside a loop

/-! ## Runs of a loop -/

inductive LoopEvent (β : Type*) where
  | enter (pred b : β)
  | execute (inst : Instruction)

section Runs

variable {Val Mem : Type*}

/-- The iterations are counted at the header. -/
def Machine.enter (a : Analyses f Λ) (s : Machine Λ Val Mem) (pred b : β) [DecidableEq β] :
    Machine Λ Val Mem :=
  { s with iteration := fun l =>
      if a.header l = b then if a.inLoop l pred then s.iteration l + 1 else 0
      else s.iteration l }

/-- What an instruction of a simple loop does. Only stores write to the memory of the program, and
not to locations that do not alias theirs. -/
structure Executes (a : Analyses f Λ) (sem : Meaning Val Mem) (inst : Instruction)
    (s s' : Machine Λ Val Mem) : Prop where
  env : ∀ other, other ≠ inst → s'.env other = s.env other
  iteration : s'.iteration = s.iteration
  value : isPure inst = true ∨
      (inst.isLoad = true ∧ inst.isVolatile = false ∧ inst.isAtomic = false) →
    s'.env inst = sem.compute inst (s.operandValues a inst) s.mem
  mem : inst.isStore = false → s'.mem = s.mem
  noAlias : ∀ load, a.noAlias load inst = true →
    sem.compute load (s.operandValues a load) s'.mem =
      sem.compute load (s.operandValues a load) s.mem

inductive Steps [DecidableEq β] (a : Analyses f Λ) (sem : Meaning Val Mem) :
    Machine Λ Val Mem → List (LoopEvent β) → Machine Λ Val Mem → Prop where
  | nil {s} : Steps a sem s [] s
  | enter {s t pred b es} : Steps a sem (s.enter a pred b) es t →
      Steps a sem s (.enter pred b :: es) t
  | execute {s s' t inst es} : Executes a sem inst s s' → Steps a sem s' es t →
      Steps a sem s (.execute inst :: es) t

end Runs

/-- What happens on the way through blocks that follow `pred`. -/
def loopEvents (f : Function β) : β → List β → List (LoopEvent β)
  | _, [] => []
  | pred, b :: bs => .enter pred b :: (f.insts b).map .execute ++ loopEvents f b bs

/-- A way through blocks of the loop. -/
inductive LoopPath (a : Analyses f Λ) (l : Λ) : β → List β → β → Prop where
  | nil {pred} : LoopPath a l pred [] pred
  | cons {pred b bs last} : b ∈ f.succs pred → a.inLoop l b = true → LoopPath a l b bs last →
      LoopPath a l pred (b :: bs) last

def LoopEvent.InLoop (a : Analyses f Λ) (l : Λ) : LoopEvent β → Prop
  | .enter _ b => a.inLoop l b = true
  | .execute inst => DefinedIn a l inst

theorem LoopPath.inLoop_events {a : Analyses f Λ} {l : Λ} {pred last : β} {bs : List β}
    (h : LoopPath a l pred bs last) : ∀ e ∈ loopEvents f pred bs, e.InLoop a l := by
  induction h with
  | nil => nofun
  | cons _ hb _ ih =>
      intro e he
      rw [loopEvents, List.cons_append, List.mem_cons, List.mem_append] at he
      rcases he with rfl | he | he
      · exact hb
      · obtain ⟨inst, hinst, rfl⟩ := List.mem_map.mp he
        exact ⟨_, hinst, hb⟩
      · exact ih e he

/-! ## Values that do not change -/

section Settled

variable {Val Mem : Type*} {a : Analyses f Λ} {sem : Meaning Val Mem} {l : Λ}
  {inst other : Instruction} {s s' t : Machine Λ Val Mem}

/-- The instruction would compute its value again. -/
def Settled (a : Analyses f Λ) (sem : Meaning Val Mem) (inst : Instruction)
    (s : Machine Λ Val Mem) : Prop :=
  s.env inst = sem.compute inst (s.operandValues a inst) s.mem

theorem operandValues_congr (h : ∀ op, .inst op ∈ a.operands inst → s'.env op = s.env op) :
    s'.operandValues a inst = s.operandValues a inst := by
  apply List.map_congr_left
  intro v hv
  cases v with
  | other => rfl
  | inst op => exact congrArg some (h op hv)

theorem isStore_eq_false (h : isPure inst = true ∨ inst.isLoad = true) :
    inst.isStore = false := by
  rw [isPure, Instruction.isLoad] at h
  rw [Instruction.isStore]
  cases hop : inst.opcode <;> simp_all

/-- An instruction of the loop does not change the operands that the loop does not compute. -/
theorem operandValues_execute (hrec : Recomputable a l inst) (hother : DefinedIn a l other)
    (h : Executes a sem other s s') : s'.operandValues a inst = s.operandValues a inst := by
  apply operandValues_congr
  intro op hop
  apply h.env
  intro heq
  rw [heq] at hop
  exact hrec.operands _ hop hother

theorem settled_of_execute (hrec : Recomputable a l inst) (hdef : DefinedIn a l inst)
    (h : Executes a sem inst s s') :
    Settled a sem inst s' ∧ s'.env inst = sem.compute inst (s.operandValues a inst) s.mem := by
  have hvalue := h.value (hrec.value.imp_right fun hload => ⟨hload.1, hload.2.1, hload.2.2.1⟩)
  have hmem := h.mem (isStore_eq_false (hrec.value.imp_right And.left))
  refine ⟨?_, hvalue⟩
  rw [Settled, hvalue, hmem, operandValues_execute hrec hdef h]

/-- A settled value stays as it is. -/
theorem Settled.execute (hs : Settled a sem inst s)
    (hrec : Recomputable a l inst) (hdef : DefinedIn a l inst) (hother : DefinedIn a l other)
    (h : Executes a sem other s s') : Settled a sem inst s' ∧ s'.env inst = s.env inst := by
  by_cases heq : inst = other
  · subst heq
    obtain ⟨hsettled, hvalue⟩ := settled_of_execute hrec hdef h
    exact ⟨hsettled, hvalue.trans hs.symm⟩
  · have henv := h.env inst heq
    have hcompute : sem.compute inst (s.operandValues a inst) s'.mem =
        sem.compute inst (s.operandValues a inst) s.mem := by
      cases hstore : other.isStore with
      | false => rw [h.mem hstore]
      | true =>
          rcases hrec.value with hpure | ⟨-, -, -, hnoAlias⟩
          · exact sem.pure inst _ _ _ hpure
          · exact h.noAlias inst (hnoAlias other hother hstore)
    refine ⟨?_, henv⟩
    rw [Settled, henv, operandValues_execute hrec hother h, hcompute]
    exact hs

variable [DecidableEq β] {es : List (LoopEvent β)}

theorem Steps.settled (h : Steps a sem s es t) (hes : ∀ e ∈ es, e.InLoop a l)
    (hrec : Recomputable a l inst) (hdef : DefinedIn a l inst) (hs : Settled a sem inst s) :
    Settled a sem inst t ∧ t.env inst = s.env inst := by
  induction h with
  | nil => exact ⟨hs, rfl⟩
  | enter _ ih => exact ih (fun e he => hes e (List.mem_cons_of_mem _ he)) hs
  | execute hstep _ ih =>
      obtain ⟨hsettled, hvalue⟩ := hs.execute hrec hdef (hes _ List.mem_cons_self) hstep
      obtain ⟨hsettled', hvalue'⟩ := ih (fun e he => hes e (List.mem_cons_of_mem _ he)) hsettled
      exact ⟨hsettled', hvalue'.trans hvalue⟩

/-- Once it has been executed, the instruction is settled. -/
theorem Steps.settles (h : Steps a sem s es t) (hes : ∀ e ∈ es, e.InLoop a l)
    (hrec : Recomputable a l inst) (hdef : DefinedIn a l inst)
    (hmem : LoopEvent.execute inst ∈ es) : Settled a sem inst t := by
  induction h with
  | nil => cases hmem
  | enter _ ih =>
      rcases List.mem_cons.mp hmem with heq | hmem
      · cases heq
      · exact ih (fun e he => hes e (List.mem_cons_of_mem _ he)) hmem
  | execute hstep hrest ih =>
      have hes' := fun e he => hes e (List.mem_cons_of_mem _ he)
      rcases List.mem_cons.mp hmem with heq | hmem
      · cases heq
        exact (hrest.settled hes' hrec hdef (settled_of_execute hrec hdef hstep).1).1
      · exact ih hes' hmem

/-- What the loop does not compute does not change. -/
theorem Steps.outside (h : Steps a sem s es t) (hes : ∀ e ∈ es, e.InLoop a l) :
    (∀ inst, ¬DefinedIn a l inst → t.env inst = s.env inst) ∧
      ∀ loop, a.inLoop l (a.header loop) = false → t.iteration loop = s.iteration loop := by
  induction h with
  | nil => exact ⟨fun _ _ => rfl, fun _ _ => rfl⟩
  | @enter s t pred b es _ ih =>
      obtain ⟨henv, hiter⟩ := ih fun e he => hes e (List.mem_cons_of_mem _ he)
      refine ⟨henv, ?_⟩
      intro loop hloop
      have hne : a.header loop ≠ b := by
        intro heq
        have hin : a.inLoop l b = true := hes _ List.mem_cons_self
        rw [← heq, hloop] at hin
        cases hin
      rw [hiter loop hloop, Machine.enter]
      exact if_neg hne
  | execute hstep _ ih =>
      obtain ⟨henv, hiter⟩ := ih fun e he => hes e (List.mem_cons_of_mem _ he)
      have hdef : DefinedIn a l _ := hes _ List.mem_cons_self
      constructor
      · intro other hother
        rw [henv other hother]
        apply hstep.env
        intro heq
        rw [heq] at hother
        exact hother hdef
      · intro loop hloop
        rw [hiter loop hloop, hstep.iteration]

end Settled

end Mair.Relocate
