import Mair.Relocate.Scev
import Mathlib.Algebra.GroupWithZero.Nat
import Mathlib.Algebra.Order.BigOperators.Group.List

/-! # Expressions over the iterations of a loop

An accepted expression has one value in all iterations if and only if the pass's assumption about
instructions with invariant operands holds of its unknown values. -/

namespace Mair.Relocate

open Ir LoopCheck

variable {β Λ : Type*} {f : Function β}

/-! ## What the checker says about the operands -/

theorem SCEV.Operand.sizeOf_lt {e operand : SCEV Λ} (h : Operand operand e) :
    sizeOf operand < sizeOf e := by
  cases h with
  | castExpr => simp
  | addRecExpr hmem =>
      have hlt := List.sizeOf_lt_of_mem hmem
      rw [SCEV.addRecExpr.sizeOf_spec]
      omega
  | naryExpr hmem =>
      have hlt := List.sizeOf_lt_of_mem hmem
      rw [SCEV.naryExpr.sizeOf_spec]
      omega
  | lhs =>
      rw [SCEV.udivExpr.sizeOf_spec]
      omega
  | rhs => simp

/-- Induction over the operands of an expression. -/
theorem SCEV.operand_induction {P : SCEV Λ → Prop}
    (step : ∀ e, (∀ operand, SCEV.Operand operand e → P operand) → P e) (e : SCEV Λ) : P e := by
  induction h : sizeOf e using Nat.strong_induction_on generalizing e with
  | _ n ih =>
      apply step
      intro operand hop
      have hlt := hop.sizeOf_lt
      rw [h] at hlt
      exact ih _ hlt operand rfl

theorem SCEV.Operand.in {e operand : SCEV Λ} (h : Operand operand e) : SCEV.In operand e :=
  .single h

section Checker

variable [DecidableEq Λ] {a : Analyses f Λ} {dt : DominatorTree f} {g : Cfg β Λ} {l : Λ}

theorem areScevsInvariant_iff {operands : List (SCEV Λ)} :
    areScevsInvariant a dt g l operands = true ↔
      ∀ operand ∈ operands, isScevInvariant a dt g l operand = true := by
  induction operands with
  | nil => simp [areScevsInvariant]
  | cons operand operands ih =>
      rw [areScevsInvariant, Bool.and_eq_true, ih, List.forall_mem_cons]

/-- The operands of an accepted expression are accepted, except in a recurrence of a loop around
the loop. -/
theorem isScevInvariant_operand {e operand : SCEV Λ}
    (h : isScevInvariant a dt g l e = true) (hop : SCEV.Operand operand e) :
    isScevInvariant a dt g l operand = true ∨
      ∃ loop operands, e = .addRecExpr loop operands ∧ loop ≠ l ∧ a.contains loop l = true := by
  cases hop with
  | castExpr => exact Or.inl (by rwa [isScevInvariant] at h)
  | @addRecExpr loop operands _ hmem =>
      rw [isScevInvariant] at h
      by_cases hloop : loop = l
      · simp [hloop] at h
      · cases hcontains : a.contains loop l with
        | true => exact Or.inr ⟨loop, operands, rfl, hloop, hcontains⟩
        | false =>
            left
            cases hdom : dt.dominates (a.header l) (a.header loop) with
            | true => simp [hdom] at h
            | false =>
                simp only [hloop, hdom, hcontains, if_false, Bool.false_eq_true] at h
                exact areScevsInvariant_iff.mp h _ hmem
  | naryExpr hmem =>
      rw [isScevInvariant] at h
      exact Or.inl (areScevsInvariant_iff.mp h _ hmem)
  | lhs =>
      rw [isScevInvariant, Bool.and_eq_true] at h
      exact Or.inl h.1
  | rhs =>
      rw [isScevInvariant, Bool.and_eq_true] at h
      exact Or.inl h.2

/-- The header of an accepted recurrence is not in the loop. -/
theorem isScevInvariant_header (ha : a.NaturalLoops) {loop : Λ} {operands : List (SCEV Λ)}
    (h : isScevInvariant a dt g l (.addRecExpr loop operands) = true) :
    a.inLoop l (a.header loop) = false := by
  by_contra hin
  rw [Bool.not_eq_false] at hin
  have hdom : dt.dominates (a.header l) (a.header loop) = true := by
    apply dt.complete
    intro p hp
    exact header_mem_path ha hp (ha.entry_notMem l) hin
  rw [isScevInvariant, hdom] at h
  simp at h

end Checker

/-! ## Values and operands -/

section Eval

variable {Val Mem : Type*} {a : Analyses f Λ} {sem : Meaning Val Mem} {s t : Machine Λ Val Mem}
  {l p : Λ} {e : SCEV Λ}

theorem evals_eq_map {operands : List (SCEV Λ)} :
    SCEV.evals sem s operands = operands.map (SCEV.eval sem s) := by
  induction operands with
  | nil => rw [SCEV.evals, List.map_nil]
  | cons operand operands ih => rw [SCEV.evals, List.map_cons, ih]

theorem evals_congr {operands : List (SCEV Λ)}
    (h : ∀ operand ∈ operands, operand.eval sem t = operand.eval sem s) :
    SCEV.evals sem t operands = SCEV.evals sem s operands := by
  rw [evals_eq_map, evals_eq_map]
  exact List.map_congr_left h

/-- An expression changes only with its operands, its unknown value or its iteration. -/
theorem eval_congr
    (hop : ∀ operand, SCEV.Operand operand e → operand.eval sem t = operand.eval sem s)
    (hunknown : ∀ inst, e = .unknown inst → t.env inst = s.env inst)
    (hrec : ∀ loop operands, e = .addRecExpr loop operands →
      t.iteration loop = s.iteration loop) : e.eval sem t = e.eval sem s := by
  cases e with
  | constant name => rw [SCEV.eval, SCEV.eval]
  | castExpr kind operand => rw [SCEV.eval, SCEV.eval, hop operand .castExpr]
  | addRecExpr loop operands =>
      rw [SCEV.eval, SCEV.eval, hrec loop operands rfl,
        evals_congr fun operand hmem => hop operand (.addRecExpr hmem)]
  | naryExpr kind operands =>
      rw [SCEV.eval, SCEV.eval, evals_congr fun operand hmem => hop operand (.naryExpr hmem)]
  | udivExpr lhs rhs => rw [SCEV.eval, SCEV.eval, hop lhs .lhs, hop rhs .rhs]
  | unknown inst =>
      rw [SCEV.eval, SCEV.eval]
      exact hunknown inst rfl
  | argument name => rw [SCEV.eval, SCEV.eval]

theorem SCEV.Outside.operand {operand : SCEV Λ} (h : e.Outside a l) (hop : Operand operand e) :
    operand.Outside a l :=
  ⟨fun inst hin => h.unknown inst (hin.tail hop),
    fun loop operands hin => h.addRecExpr loop operands (hin.tail hop)⟩

/-- What is outside a loop is outside the loops of it. -/
theorem SCEV.Outside.of_encloses (h : e.Outside a p) (hp : a.Encloses p l) : e.Outside a l := by
  constructor
  · intro inst hin hdef
    obtain ⟨b, hb, hl⟩ := hdef
    exact h.unknown inst hin ⟨b, hb, hp.subset b hl⟩
  · intro loop operands hin
    have hout := h.addRecExpr loop operands hin
    rw [← Bool.not_eq_true] at hout ⊢
    exact mt (hp.subset _) hout

variable [DecidableEq β] {es : List (LoopEvent β)}

theorem Steps.eval_outside (h : Steps a sem s es t) (hes : ∀ e ∈ es, e.InLoop a l)
    (hout : e.Outside a l) : e.eval sem t = e.eval sem s := by
  obtain ⟨henv, hiter⟩ := h.outside hes
  induction e using SCEV.operand_induction with
  | step e ih =>
      apply eval_congr
      · intro operand hop
        exact ih operand hop (hout.operand hop)
      · intro inst heq
        subst heq
        exact henv inst (hout.unknown inst .refl)
      · intro loop operands heq
        subst heq
        exact hiter loop (hout.addRecExpr loop operands .refl)

end Eval

/-! ## Accepted expressions -/

/-- The expression has one value in all iterations of an execution of the loop: once its unknown
values of the loop have been computed, it does not change. -/
def SCEV.KeepsValue [DecidableEq β] (a : Analyses f Λ) (l : Λ) (e : SCEV Λ) : Prop :=
  ∀ (Val Mem : Type) (sem : Meaning Val Mem) (pred last : β) (bs : List β)
    (before after : List (LoopEvent β)) (s t u : Machine Λ Val Mem), LoopPath a l pred bs last →
    before ++ after <+: loopEvents f pred bs → Steps a sem s before t → Steps a sem t after u →
    (∀ inst, SCEV.In (.unknown inst) e → DefinedIn a l inst → .execute inst ∈ before) →
    e.eval sem u = e.eval sem t

/-- The unknown values of the loop are computed from their operands or loaded. They are neither
allocated nor returned by calls that touch memory. -/
def SCEV.ComputedIn (a : Analyses f Λ) (l : Λ) (e : SCEV Λ) : Prop :=
  ∀ inst, SCEV.In (.unknown inst) e → DefinedIn a l inst →
    isPure inst = true ∨ inst.isLoad = true

section Accepted

variable {a : Analyses f Λ} {dt : DominatorTree f} {g : Cfg β Λ} {l : Λ} {origin : Node β → β}
  {e : SCEV Λ} {inst : Instruction}

theorem SCEV.ComputedIn.operand {operand : SCEV Λ} (h : e.ComputedIn a l)
    (hop : Operand operand e) : operand.ComputedIn a l :=
  fun inst hin => h inst (hin.tail hop)

theorem SCEV.WellFormed.operand {operand : SCEV Λ} (h : e.WellFormed a)
    (hop : Operand operand e) : operand.WellFormed a :=
  fun loop operands hin => h loop operands (hin.tail hop)

variable [DecidableEq Λ]

theorem recomputable_of_accepted (htracks : Tracks a g origin) (hubsan : a.ubsanExists = true)
    (h : isScevInvariant a dt g l (.unknown inst) = true) (hdef : DefinedIn a l inst)
    (hcomputed : isPure inst = true ∨ inst.isLoad = true) : Recomputable a l inst := by
  have hsame : { a with ubsanExists := true } = a := by rw [← hubsan]
  have hkeeps : keepsAddress a g l (.inst inst) = true := by
    rw [isScevInvariant] at h
    rw [keepsAddress, hsame, h]
    rcases hcomputed with hpure | hload
    · simp [hpure]
    · simp [hload]
  exact (keepsAddress_iff htracks).mp hkeeps hdef

theorem encloses_of_contains (ha : a.NaturalLoops) {loop : Λ} (hne : loop ≠ l)
    (h : a.contains loop l = true) : a.Encloses loop l := by
  rw [Analyses.contains, decide_eq_true_eq] at h
  exact List.rel_of_pairwise_cons (ha.chain l) ((List.mem_cons.mp h).resolve_left hne)

variable [DecidableEq β] {Val Mem : Type*} {sem : Meaning Val Mem} {s t u : Machine Λ Val Mem}
  {before after : List (LoopEvent β)}

/-- Accepted expressions with computed unknown values do not change. -/
theorem eval_of_accepted (ha : a.NaturalLoops) (htracks : Tracks a g origin)
    (hubsan : a.ubsanExists = true) (hbefore : ∀ e ∈ before, e.InLoop a l)
    (hafter : ∀ e ∈ after, e.InLoop a l) (hst : Steps a sem s before t)
    (htu : Steps a sem t after u) (hwf : e.WellFormed a) (hcomputed : e.ComputedIn a l)
    (hexec : ∀ inst, SCEV.In (.unknown inst) e → DefinedIn a l inst →
      LoopEvent.execute inst ∈ before)
    (h : isScevInvariant a dt g l e = true) : e.eval sem u = e.eval sem t := by
  induction e using SCEV.operand_induction with
  | step e ih =>
      apply eval_congr
      · intro operand hop
        rcases isScevInvariant_operand h hop with hinv | ⟨loop, operands, heq, hne, hcontains⟩
        · exact ih operand hop (hwf.operand hop) (hcomputed.operand hop)
            (fun inst hin => hexec inst (hin.tail hop)) hinv
        · subst heq
          cases hop with
          | addRecExpr hmem =>
              have hout := hwf loop operands .refl operand hmem
              exact htu.eval_outside hafter
                (hout.of_encloses (encloses_of_contains ha hne hcontains))
      · intro inst heq
        subst heq
        by_cases hdef : DefinedIn a l inst
        · have hrec := recomputable_of_accepted htracks hubsan h hdef (hcomputed inst .refl hdef)
          have hsettled := hst.settles hbefore hrec hdef (hexec inst .refl hdef)
          exact (htu.settled hafter hrec hdef hsettled).2
        · exact (htu.outside hafter).1 inst hdef
      · intro loop operands heq
        subst heq
        exact (htu.outside hafter).2 loop (isScevInvariant_header ha h)

end Accepted

/-! ## Ways around a loop -/

section Around

variable {a : Analyses f Λ} {l : Λ} {pred b c last : β} {bs bs' : List β}

theorem LoopPath.append (h : LoopPath a l pred bs b) (h' : LoopPath a l b bs' last) :
    LoopPath a l pred (bs ++ bs') last := by
  induction h with
  | nil => exact h'
  | cons hedge hin _ ih => exact .cons hedge hin (ih h')

theorem LoopPath.events_append (h : LoopPath a l pred bs b) :
    loopEvents f pred (bs ++ bs') = loopEvents f pred bs ++ loopEvents f b bs' := by
  induction h with
  | nil => rfl
  | cons _ _ _ ih => rw [List.cons_append, loopEvents, loopEvents, ih, List.append_assoc]

theorem mem_loopEvents {inst : Instruction} (hb : b ∈ bs) (hinst : inst ∈ f.insts b) :
    LoopEvent.execute inst ∈ loopEvents f pred bs := by
  induction bs generalizing pred with
  | nil => cases hb
  | cons c bs ih =>
      rw [loopEvents, List.cons_append, List.mem_cons, List.mem_append]
      right
      rcases List.mem_cons.mp hb with heq | hb
      · left
        rw [← heq]
        exact List.mem_map_of_mem hinst
      · exact Or.inr (ih hb)

theorem loopPath_of_path {p : List β} (h : f.PathFrom b p c)
    (hp : ∀ x ∈ p, a.inLoop l x = true) (hc : a.inLoop l c = true) :
    ∃ bs, LoopPath a l b bs c := by
  induction h with
  | nil => exact ⟨[], .nil⟩
  | @snoc p x y _ hedge ih =>
      obtain ⟨bs, hbs⟩ := ih (fun z hz => hp z (List.mem_append_left _ hz)) (hp x (by simp))
      exact ⟨bs ++ [y], hbs.append (.cons hedge hc .nil)⟩

theorem LoopPath.last_mem (h : LoopPath a l pred bs last) (hne : bs ≠ []) : last ∈ bs := by
  induction h with
  | nil => exact absurd rfl hne
  | @cons pred b bs last _ _ hrest ih =>
      cases bs with
      | nil =>
          cases hrest
          exact List.mem_cons_self
      | cons c bs => exact List.mem_cons_of_mem _ (ih (List.cons_ne_nil _ _))

/-- Every block of a loop is reached from every block of it. -/
theorem exists_loopPath (ha : a.NaturalLoops) (hb : a.inLoop l b = true)
    (hc : a.inLoop l c = true) : ∃ bs, LoopPath a l b bs c ∧ c ∈ bs := by
  have hback : ∃ bs, LoopPath a l b bs (a.header l) ∧ bs ≠ [] := by
    have htrans := ha.back l b hb
    induction htrans using Relation.TransGen.head_induction_on with
    | single hstep => exact ⟨_, .cons hstep.2.1 hstep.2.2 .nil, List.cons_ne_nil _ _⟩
    | head hstep _ ih =>
        obtain ⟨bs, hbs, -⟩ := ih hstep.2.2
        exact ⟨_, .cons hstep.2.1 hstep.2.2 hbs, List.cons_ne_nil _ _⟩
  obtain ⟨bs, hbs, hne⟩ := hback
  obtain ⟨p, hp⟩ := ha.reachable l c hc
  obtain ⟨y, d, q, hedge, hy, hd, hq, hin⟩ := hp.exists_last_in (s := {x | a.inLoop l x = true})
    (by simp [ha.entry_notMem l]) hc
  rw [ha.header_of_enter l y d hedge (Bool.eq_false_of_not_eq_true hy) hd] at hq
  obtain ⟨bs', hbs'⟩ := loopPath_of_path hq hin hc
  have hpath := hbs.append hbs'
  exact ⟨_, hpath, hpath.last_mem (List.append_ne_nil_of_left_ne_nil hne _)⟩

/-- A way around the loop that comes by all of some blocks. -/
theorem exists_loopPath_all (ha : a.NaturalLoops) (hb : a.inLoop l b = true)
    (hbs : ∀ c ∈ bs, a.inLoop l c = true) :
    ∃ path last, LoopPath a l b path last ∧ a.inLoop l last = true ∧ bs ⊆ path := by
  induction bs generalizing b with
  | nil => exact ⟨[], b, .nil, hb, List.nil_subset _⟩
  | cons c bs ih =>
      have hc := hbs c List.mem_cons_self
      obtain ⟨path, hpath, hmem⟩ := exists_loopPath ha hb hc
      obtain ⟨path', last, hpath', hlast, hsub⟩ :=
        ih hc fun d hd => hbs d (List.mem_cons_of_mem _ hd)
      refine ⟨path ++ path', last, hpath.append hpath', hlast, ?_⟩
      intro d hd
      rw [List.mem_append]
      rcases List.mem_cons.mp hd with rfl | hd
      · exact Or.inl hmem
      · exact Or.inr (hsub hd)

end Around

/-! ## Values that change -/

section Varying

variable {a : Analyses f Λ} {l : Λ} {inst : Instruction} {e : SCEV Λ}

/-- Expressions add up what they are made of. -/
def addingUp : Meaning ℕ Unit where
  constant _ := 0
  castExpr _ n := n
  addRecExpr ns _ := ns.sum
  naryExpr _ ns := ns.sum
  udivExpr m n := m + n
  argument _ := 0
  compute _ _ _ := 0
  pure _ _ _ _ _ := rfl

/-- All values but that of the instruction are zero. -/
def countingMachine (inst : Instruction) (n : ℕ) (iteration : Λ → ℕ) : Machine Λ ℕ Unit where
  env := fun other => if other = inst then n else 0
  mem := ()
  iteration := iteration

/-- An instruction whose value is not fixed may count how often it is executed. -/
theorem exists_steps_counting [DecidableEq β] (hpure : isPure inst = false)
    (hload : inst.isLoad = false) (es : List (LoopEvent β)) (m : ℕ) (iteration : Λ → ℕ) :
    ∃ n iteration', Steps a addingUp (countingMachine inst m iteration) es
        (countingMachine inst n iteration') ∧ m ≤ n ∧
      (LoopEvent.execute inst ∈ es → m < n) := by
  induction es generalizing m iteration with
  | nil => exact ⟨m, iteration, .nil, Nat.le_refl m, by simp⟩
  | cons e es ih =>
      cases e with
      | enter pred b =>
          obtain ⟨n, iteration', hsteps, hle, hlt⟩ := ih m _
          exact ⟨n, iteration', .enter hsteps, hle, fun hmem => hlt (by simpa using hmem)⟩
      | execute other =>
          by_cases heq : other = inst
          · subst heq
            obtain ⟨n, iteration', hsteps, hle, -⟩ := ih (m + 1) iteration
            have hexec : Executes a addingUp other (countingMachine other m iteration)
                (countingMachine other (m + 1) iteration) := by
              refine ⟨?_, rfl, ?_, fun _ => rfl, fun _ _ => rfl⟩
              · intro i hi
                simp [countingMachine, hi]
              · simp [hpure, hload]
            exact ⟨n, iteration', .execute hexec hsteps, Nat.le_of_succ_le hle, fun _ => hle⟩
          · obtain ⟨n, iteration', hsteps, hle, hlt⟩ := ih m iteration
            refine ⟨n, iteration', .execute ⟨fun _ _ => rfl, rfl, ?_, fun _ => rfl,
              fun _ _ => rfl⟩ hsteps, hle, ?_⟩
            · intro _
              simp [countingMachine, heq, addingUp]
            · intro hmem
              apply hlt
              rcases List.mem_cons.mp hmem with hmem | hmem
              · cases hmem
                exact absurd rfl heq
              · exact hmem

theorem sum_evals_counting {m n : ℕ} {iteration iteration' : Λ → ℕ} {operands : List (SCEV Λ)}
    (h : ∀ operand ∈ operands, operand.eval addingUp (countingMachine inst m iteration) ≤
          operand.eval addingUp (countingMachine inst n iteration') ∧
        (SCEV.In (.unknown inst) operand →
          operand.eval addingUp (countingMachine inst m iteration) <
            operand.eval addingUp (countingMachine inst n iteration'))) :
    (SCEV.evals addingUp (countingMachine inst m iteration) operands).sum ≤
        (SCEV.evals addingUp (countingMachine inst n iteration') operands).sum ∧
      ((∃ operand ∈ operands, SCEV.In (.unknown inst) operand) →
        (SCEV.evals addingUp (countingMachine inst m iteration) operands).sum <
          (SCEV.evals addingUp (countingMachine inst n iteration') operands).sum) := by
  rw [evals_eq_map, evals_eq_map]
  constructor
  · exact List.sum_le_sum fun operand hmem => (h operand hmem).1
  · intro hin
    obtain ⟨operand, hmem, hin⟩ := hin
    exact List.sum_lt_sum _ _ (fun operand hmem => (h operand hmem).1)
      ⟨operand, hmem, (h operand hmem).2 hin⟩

/-- A sum grows with the counted instruction. -/
theorem eval_counting {m n : ℕ} {iteration iteration' : Λ → ℕ} (hlt : m < n) :
    e.eval addingUp (countingMachine inst m iteration) ≤
        e.eval addingUp (countingMachine inst n iteration') ∧
      (SCEV.In (.unknown inst) e → e.eval addingUp (countingMachine inst m iteration) <
        e.eval addingUp (countingMachine inst n iteration')) := by
  induction e using SCEV.operand_induction with
  | step e ih =>
      have hcases : SCEV.In (.unknown inst) e → e = .unknown inst ∨
          ∃ operand, SCEV.In (.unknown inst) operand ∧ SCEV.Operand operand e :=
        Relation.ReflTransGen.cases_tail
      cases e with
      | constant name =>
          rw [SCEV.eval, SCEV.eval]
          refine ⟨Nat.le_refl _, ?_⟩
          intro hin
          rcases hcases hin with heq | ⟨operand, -, hop⟩
          · cases heq
          · cases hop
      | castExpr kind operand =>
          rw [SCEV.eval, SCEV.eval]
          refine ⟨(ih operand .castExpr).1, ?_⟩
          intro hin
          rcases hcases hin with heq | ⟨operand, hin, hop⟩
          · cases heq
          · cases hop
            exact (ih operand .castExpr).2 hin
      | addRecExpr loop operands =>
          rw [SCEV.eval, SCEV.eval]
          obtain ⟨hle, hlt⟩ := sum_evals_counting fun operand hmem => ih operand (.addRecExpr hmem)
          refine ⟨hle, ?_⟩
          intro hin
          rcases hcases hin with heq | ⟨operand, hin, hop⟩
          · cases heq
          · cases hop with
            | addRecExpr hmem => exact hlt ⟨operand, hmem, hin⟩
      | naryExpr kind operands =>
          rw [SCEV.eval, SCEV.eval]
          obtain ⟨hle, hlt⟩ := sum_evals_counting fun operand hmem => ih operand (.naryExpr hmem)
          refine ⟨hle, ?_⟩
          intro hin
          rcases hcases hin with heq | ⟨operand, hin, hop⟩
          · cases heq
          · cases hop with
            | naryExpr hmem => exact hlt ⟨operand, hmem, hin⟩
      | udivExpr lhs rhs =>
          rw [SCEV.eval, SCEV.eval]
          obtain ⟨hle, hlt⟩ := ih lhs .lhs
          obtain ⟨hle', hlt'⟩ := ih rhs .rhs
          refine ⟨Nat.add_le_add hle hle', ?_⟩
          intro hin
          rcases hcases hin with heq | ⟨operand, hin, hop⟩
          · cases heq
          · cases hop with
            | lhs => exact Nat.add_lt_add_of_lt_of_le (hlt hin) hle'
            | rhs => exact Nat.add_lt_add_of_le_of_lt hle (hlt' hin)
      | unknown other =>
          rw [SCEV.eval, SCEV.eval, countingMachine, countingMachine]
          constructor
          · by_cases heq : other = inst
            · simp [heq, Nat.le_of_lt hlt]
            · simp [heq]
          · intro hin
            rcases hcases hin with heq | ⟨operand, -, hop⟩
            · cases heq
              simpa using hlt
            · cases hop
      | argument name =>
          rw [SCEV.eval, SCEV.eval]
          refine ⟨Nat.le_refl _, ?_⟩
          intro hin
          rcases hcases hin with heq | ⟨operand, -, hop⟩
          · cases heq
          · cases hop

/-- An unknown value that is neither computed nor loaded may change. -/
theorem computedIn_of_keepsValue [DecidableEq β] (ha : a.NaturalLoops) (h : e.KeepsValue a l) :
    e.ComputedIn a l := by
  intro inst hin hdef
  by_contra hnot
  rw [not_or, Bool.not_eq_true, Bool.not_eq_true] at hnot
  obtain ⟨b, hinst, hb⟩ := hdef
  obtain ⟨path, last, hpath, hlast, hall⟩ := @exists_loopPath_all _ _ _ a l _
    (f.blocks.filter (a.inLoop l)) ha (ha.header_mem l) fun c hc => (List.mem_filter.mp hc).2
  obtain ⟨path', hpath', hmem⟩ := exists_loopPath ha hlast hb
  obtain ⟨m, iteration, hbefore, -, -⟩ := @exists_steps_counting _ _ _ a inst _ hnot.1 hnot.2
    (loopEvents f (a.header l) path) 0 fun _ => 0
  obtain ⟨n, iteration', hafter, -, hlt⟩ := @exists_steps_counting _ _ _ a inst _ hnot.1 hnot.2
    (loopEvents f last path') m iteration
  have hchanged := (@eval_counting _ inst e m n iteration iteration'
    (hlt (mem_loopEvents hmem hinst))).2 hin
  refine absurd (h _ _ _ _ _ _ _ _ _ _ _ (hpath.append hpath') ?_ hbefore hafter ?_)
    (Nat.ne_of_gt hchanged)
  · rw [hpath.events_append]
  · intro other _ hother
    obtain ⟨c, hc, hin⟩ := hother
    exact mem_loopEvents (hall (List.mem_filter.mpr ⟨f.complete c, hin⟩)) hc

end Varying

/-! ## A call that reads what the loop writes -/

local instance readingNeZero : NeZero 3 := ⟨by decide⟩

def readCall : Instruction := ⟨5, .call ⟨.plain, true, false⟩, false⟩

/-- Block 1 is the loop. It computes an address, calls a function that reads memory, and stores. -/
def readingLoop : Function (Fin 3) where
  blocks := [0, 1, 2]
  entry := 0
  insts b := if b = 1 then [elementPtr, readCall, plainStore 2] else []
  succs b := if b = 0 then [1] else if b = 1 then [1, 2] else []
  complete := by decide
  nodup := by decide
  parent := by decide

noncomputable def readingAnalyses : Analyses readingLoop Unit where
  getLoopFor b := if b = 1 then some () else none
  header _ := 1
  inLoop _ b := b = 1
  parentLoops _ := []
  isSimpleLoop _ := true
  pdt := postDominatorTree readingLoop
  dominates g inst insertPt :=
    @decide (Available readingLoop g inst insertPt) (Classical.propDecidable _)
  ubsanExists := true
  operands _ := [.other]
  noAlias _ _ := false

noncomputable def dominatorTree (f : Function β) : DominatorTree f where
  dominates a b := @decide (∀ p, f.PathFrom f.entry p b → a ∈ p ++ [b]) (Classical.propDecidable _)
  complete _ _ := (@decide_eq_true_iff _ (Classical.propDecidable _)).mpr

theorem readingAnalyses_loops : readingAnalyses.NaturalLoops := by
  have hblock : ∀ l b, readingAnalyses.inLoop l b = true → b = 1 := by decide
  refine ⟨by decide, by decide, by decide, ?_, by decide, ?_, ?_⟩
  · intro l b hin
    rw [hblock l b hin]
    exact ⟨[0], Path.single (by decide)⟩
  · intro l b hin
    rw [hblock l b hin]
    exact Relation.TransGen.single (by cases l; decide)
  · intro l
    exact List.pairwise_singleton _ _

def readingCfg : Cfg (Fin 3) Unit := Cfg.initial readingLoop fun _ b => b = 1

/-- Calls return what is in memory. -/
def reading : Meaning ℕ ℕ where
  constant n := n
  castExpr _ n := n
  addRecExpr _ i := i
  naryExpr _ ns := ns.sum
  udivExpr m n := m / n
  argument n := n
  compute inst _ mem := if isPure inst then 0 else mem
  pure inst _ _ _ hpure := by rw [if_pos hpure, if_pos hpure]

/-- Stores count up the memory. -/
def act (inst : Instruction) (s : Machine Unit ℕ ℕ) : Machine Unit ℕ ℕ where
  env := fun other => if other = inst then reading.compute inst [] s.mem else s.env other
  mem := if inst.isStore then s.mem + 1 else s.mem
  iteration := s.iteration

theorem act_executes (inst : Instruction) (s : Machine Unit ℕ ℕ) :
    Executes readingAnalyses reading inst s (act inst s) where
  env other hne := if_neg hne
  iteration := rfl
  value _ := if_pos rfl
  mem hstore := by simp [act, hstore]
  noAlias _ h := by cases h

end Mair.Relocate
