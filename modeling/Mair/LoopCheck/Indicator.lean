import Mathlib.Tactic.FinCases
import Mair.LoopCheck.Loops

/-! # The flag of a relocated check in a branch

`instrumentIndicator` clears a flag at the entry of the function, sets it before the access
and tests it behind the loop. Nothing clears it again when the loop is left. -/

namespace Mair.LoopCheck

open Ir

/-! ## Running disjunctions -/

/-- Each value or any one before it. -/
def runningOr : Bool → List Bool → List Bool
  | _, [] => []
  | flag, x :: xs => (flag || x) :: runningOr (flag || x) xs

theorem runningOr_eq_self_iff (flag : Bool) (xs : List Bool) :
    runningOr flag xs = xs ↔
      (flag = true → ∀ x ∈ xs, x = true) ∧ xs.Pairwise fun a b => a = true → b = true := by
  induction xs generalizing flag with
  | nil => simp [runningOr]
  | cons x xs ih =>
      rw [runningOr, List.cons.injEq, ih, List.pairwise_cons]
      cases flag with
      | true =>
          simp only [Bool.true_or, List.forall_mem_cons, forall_const]
          grind
      | false =>
          simp only [Bool.false_or, Bool.false_eq_true, false_implies, true_and]
          grind

/-! ## The instrumented run -/

section Run

variable {β : Type*} [DecidableEq β]

/-- What the guarded check does each time control comes by it: it is executed when the flag
is set. The list holds the blocks executed before `stop`. -/
def indicatorChecks (site : CheckSite β) (mopBlock : β) : Bool → List β → β → List Bool
  | _, [], _ => []
  | indicator, a :: rest, stop =>
      let indicator := indicator || a = mopBlock
      if site.hit a (rest.headD stop) then
        indicator :: indicatorChecks site mopBlock indicator rest stop
      else indicatorChecks site mopBlock indicator rest stop

/-- For each time control leaves the loop, whether it executed the access since it entered. -/
def visitsRan {f : Function β} (l : Loop f) (mopBlock : β) : Bool → List β → β → List Bool
  | _, [], _ => []
  | ran, a :: rest, stop =>
      let ran := ran || a = mopBlock
      if a ∈ l.blocks ∧ rest.headD stop ∉ l.blocks then
        ran :: visitsRan l mopBlock false rest stop
      else visitsRan l mopBlock ran rest stop

variable {f : Function β} {l : Loop f} {mopBlock exiting exit start stop : β} {p : List β}

/-- The flag tells whether this visit or an earlier one executed the access. -/
theorem indicatorChecks_eq (hexiting : l.getExitingBlock = some exiting)
    (hexit : l.getUniqueExitBlock = some exit) (hp : f.PathFrom start p stop)
    (before ran : Bool) :
    indicatorChecks (checkSite f exiting exit) mopBlock (before || ran) p stop =
      runningOr before (visitsRan l mopBlock ran p stop) := by
  induction p generalizing start before ran with
  | nil => rfl
  | cons a rest ih =>
      obtain ⟨rfl, next, hnext, hrest⟩ := Path.cons_iff.mp hp
      have hhead : rest.headD stop = next := hrest.headD_eq
      have hhit := hit_iff hexiting hexit hnext
      rw [indicatorChecks, visitsRan, hhead]
      simp only [hhit, Bool.or_assoc]
      split
      · rw [runningOr, ← ih hrest, Bool.or_false]
      · exact ih hrest before (ran || a = mopBlock)

/-- In every run the guarded checks tell which visits of the loop executed the access exactly
when no visit leaves the access out after one that executed it. -/
theorem indicatorChecks_exact_iff (hexiting : l.getExitingBlock = some exiting)
    (hexit : l.getUniqueExitBlock = some exit) (hp : f.PathFrom f.entry p stop) :
    indicatorChecks (checkSite f exiting exit) mopBlock false p stop =
        visitsRan l mopBlock false p stop ↔
      (visitsRan l mopBlock false p stop).Pairwise
        fun earlier later => earlier = true → later = true := by
  have heq := @indicatorChecks_eq _ _ f l mopBlock exiting exit _ _ _ hexiting hexit hp false false
  rw [Bool.or_false] at heq
  rw [heq, runningOr_eq_self_iff]
  simp

end Run

/-! ## A branch taken in the first round only -/

def branchSuccs : Fin 7 → List (Fin 7)
  | 0 => [1]
  | 1 => [2]
  | 2 => [3, 4]
  | 3 => [4]
  | 4 => [2, 5]
  | 5 => [1, 6]
  | _ => []

/-- A loop in a loop, whose access in block 3 lies in a branch. -/
def branchInLoop : Function (Fin 7) where
  blocks := [0, 1, 2, 3, 4, 5, 6]
  entry := 0
  insts b := if b = 3 then [plainStore 0] else []
  succs := branchSuccs
  complete := by decide
  nodup := by decide
  parent := by decide

theorem branchInLoop_reachable (b : Fin 7) : branchInLoop.ReachableBlock b := by
  have h0 : branchInLoop.PathFrom 0 [] 0 := .nil
  have h1 : branchInLoop.PathFrom 0 [0] 1 := h0.snoc (by decide)
  have h2 : branchInLoop.PathFrom 0 [0, 1] 2 := h1.snoc (by decide)
  have h3 : branchInLoop.PathFrom 0 [0, 1, 2] 3 := h2.snoc (by decide)
  have h4 : branchInLoop.PathFrom 0 [0, 1, 2] 4 := h2.snoc (by decide)
  have h5 : branchInLoop.PathFrom 0 [0, 1, 2, 4] 5 := h4.snoc (by decide)
  have h6 : branchInLoop.PathFrom 0 [0, 1, 2, 4, 5] 6 := h5.snoc (by decide)
  fin_cases b
  · exact ⟨_, h0⟩
  · exact ⟨_, h1⟩
  · exact ⟨_, h2⟩
  · exact ⟨_, h3⟩
  · exact ⟨_, h4⟩
  · exact ⟨_, h5⟩
  · exact ⟨_, h6⟩

def branchLoop : Loop branchInLoop where
  header := 2
  blocks := [2, 3, 4]
  header_mem := by decide
  nodup := by decide
  entry_notMem := by decide
  reachable b _ := branchInLoop_reachable b
  header_of_enter := by decide

/-- The first round of the outer loop takes the branch, the second one does not. -/
def twoRounds : List (Fin 7) := [0, 1, 2, 3, 4, 5, 1, 2, 4, 5]

theorem twoRounds_path : branchInLoop.PathFrom 0 twoRounds 6 := by
  have hfirst : branchInLoop.PathFrom 0 [0, 1, 2, 3, 4, 5] 1 :=
    (((((Path.single (by decide)).snoc (by decide)).snoc (by decide)).snoc (by decide)).snoc
      (by decide)).snoc (by decide)
  have hsecond : branchInLoop.PathFrom 1 [1, 2, 4, 5] 6 :=
    (((Path.single (by decide)).snoc (by decide)).snoc (by decide)).snoc (by decide)
  exact hfirst.append hsecond

/-- Behind the second visit the check is executed, although the access was not. -/
theorem staleIndicator_checked :
    branchLoop.isSimpleLoop = true ∧ branchInLoop.PathFrom 0 twoRounds 6 ∧
      indicatorChecks (checkSite branchInLoop 4 5) 3 false twoRounds 6 ≠
        visitsRan branchLoop 3 false twoRounds 6 :=
  ⟨by decide, twoRounds_path, by decide⟩

theorem indicatorChecks_exact_iff_twoRounds :
    indicatorChecks (checkSite branchInLoop 4 5) 3 false twoRounds 6 =
        visitsRan branchLoop 3 false twoRounds 6 ↔
      (visitsRan branchLoop 3 false twoRounds 6).Pairwise
        fun earlier later => earlier = true → later = true :=
  indicatorChecks_exact_iff (by decide) (by decide) twoRounds_path

end Mair.LoopCheck
