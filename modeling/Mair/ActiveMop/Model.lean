import Mathlib.Data.Finset.BooleanAlgebra
import Mathlib.Data.Fintype.Basic
import Mair.Ir.Function

/-! # The activity analysis

The four bit vectors of `ActiveMopAnalysis`, the summary of a block, the transfer function,
and the query that the recurrence reducer asks. -/

namespace Mair.ActiveMop

open Ir Dataflow

/-! ## The lattice -/

/-- The lattice value of a program point. `anyAcq` and `anyRel` have no bits outside TSan
mode. -/
@[ext]
structure Lattice (numMops : ℕ) (usedForTsan : Bool) where
  reachable : Finset (Fin numMops)
  notActive : Finset (Fin numMops)
  anyAcq : Finset (Fin numMops)
  anyRel : Finset (Fin numMops)
  asanAcq : usedForTsan = false → anyAcq = ∅
  asanRel : usedForTsan = false → anyRel = ∅

namespace Lattice

variable {numMops : ℕ} {usedForTsan : Bool}

def empty : Lattice numMops usedForTsan := ⟨∅, ∅, ∅, ∅, fun _ => rfl, fun _ => rfl⟩

def kill (a : Lattice numMops usedForTsan) : Lattice numMops usedForTsan :=
  { a with notActive := a.reachable }

def killAcq (a : Lattice numMops usedForTsan) : Lattice numMops usedForTsan :=
  { a with
    anyAcq := if usedForTsan then a.reachable else a.anyAcq
    asanAcq := fun h => by simp [h, a.asanAcq h] }

def killRel (a : Lattice numMops usedForTsan) : Lattice numMops usedForTsan :=
  { a with
    anyRel := if usedForTsan then a.reachable else a.anyRel
    asanRel := fun h => by simp [h, a.asanRel h] }

def join (a b : Lattice numMops usedForTsan) : Lattice numMops usedForTsan where
  reachable := a.reachable ∪ b.reachable
  notActive := a.notActive ∪ b.notActive
  anyAcq := if usedForTsan then a.anyAcq ∪ b.anyAcq else a.anyAcq
  anyRel := if usedForTsan then a.anyRel ∪ b.anyRel else a.anyRel
  asanAcq h := by simp [h, a.asanAcq h]
  asanRel h := by simp [h, a.asanRel h]

/-- `operator==`. -/
def beq (a b : Lattice numMops usedForTsan) : Bool :=
  a.reachable = b.reachable && a.notActive = b.notActive &&
    (!usedForTsan || (a.anyAcq = b.anyAcq && a.anyRel = b.anyRel))

def isActive (a : Lattice numMops usedForTsan) (id : Fin numMops) : Bool :=
  id ∈ a.reachable && id ∉ a.notActive

def isActiveOrdered (a : Lattice numMops usedForTsan) (id : Fin numMops) (acq : Bool) : Bool :=
  a.isActive id && ((acq && id ∉ a.anyAcq) || (!acq && id ∉ a.anyRel))

end Lattice

/-! ## Block summaries -/

structure BlockInvariant (numMops : ℕ) where
  useGen : Finset (Fin numMops)
  notUseGen : Finset (Fin numMops)
  gen : Finset (Fin numMops)
  genAcq : Finset (Fin numMops)
  genRel : Finset (Fin numMops)
  containsCall : Bool
  containsAcq : Bool
  containsRel : Bool

/-- `MopMap`: a repeated entry of the list keeps its last index. -/
def mopId (mops : List Instruction) (inst : Instruction) : Option (Fin mops.length) :=
  (List.finRange mops.length).foldl
    (fun acc id => if mops.get id = inst then some id else acc) none

/-- The accumulators of the reverse scan over a block. -/
structure Scan (numMops : ℕ) where
  useGen : Finset (Fin numMops) := ∅
  gen : Finset (Fin numMops) := ∅
  genAcq : Finset (Fin numMops) := ∅
  genRel : Finset (Fin numMops) := ∅
  containsCall : Bool := false
  containsAcq : Bool := false
  containsRel : Bool := false

def Scan.note {numMops : ℕ} (acc : Scan numMops) (usedForTsan : Bool) (inst : Instruction) :
    Scan numMops :=
  let order :=
    if usedForTsan then getAtomicInsnOrder inst acc.containsAcq acc.containsRel
    else (acc.containsAcq, acc.containsRel)
  { acc with
    containsCall := acc.containsCall || isClobberingCall inst
    containsAcq := order.1
    containsRel := order.2 }

def Scan.set {numMops : ℕ} (acc : Scan numMops) (id : Fin numMops) : Scan numMops :=
  { acc with
    useGen := insert id acc.useGen
    gen := if acc.containsCall then insert id acc.gen else acc.gen
    genAcq := if acc.containsAcq then insert id acc.genAcq else acc.genAcq
    genRel := if acc.containsRel then insert id acc.genRel else acc.genRel }

/-- One round of the reverse scan: note calls and orderings, then mark a listed operation. -/
def scanStep (mops : List Instruction) (usedForTsan : Bool) (inst : Instruction)
    (acc : Scan mops.length) : Scan mops.length :=
  if !isInterestingMop inst then acc.note usedForTsan inst
  else
    match mopId mops inst with
    | none => acc.note usedForTsan inst
    | some id => (acc.note usedForTsan inst).set id

/-- The scan runs from the last instruction to the first. -/
def scanBlock (mops : List Instruction) (usedForTsan : Bool) (insts : List Instruction) :
    Scan mops.length :=
  insts.foldr (scanStep mops usedForTsan) {}

def getInitializedBlockInfo (mops : List Instruction) (usedForTsan : Bool)
    (insts : List Instruction) : BlockInvariant mops.length :=
  let acc := scanBlock mops usedForTsan insts
  { useGen := acc.useGen, notUseGen := acc.useGenᶜ, gen := acc.gen, genAcq := acc.genAcq,
    genRel := acc.genRel, containsCall := acc.containsCall, containsAcq := acc.containsAcq,
    containsRel := acc.containsRel }

/-! ## Transfer -/

/-- The part of `transfer` after the kills. -/
def Lattice.generate {numMops : ℕ} {usedForTsan : Bool} (a : Lattice numMops usedForTsan)
    (invariant : BlockInvariant numMops) : Lattice numMops usedForTsan where
  reachable := a.reachable ∪ invariant.useGen
  notActive := (a.notActive ∩ invariant.notUseGen) ∪ invariant.gen
  anyAcq :=
    if usedForTsan then (a.anyAcq ∩ invariant.notUseGen) ∪ invariant.genAcq else a.anyAcq
  anyRel :=
    if usedForTsan then (a.anyRel ∩ invariant.notUseGen) ∪ invariant.genRel else a.anyRel
  asanAcq h := by simp [h, a.asanAcq h]
  asanRel h := by simp [h, a.asanRel h]

def transfer {numMops : ℕ} {usedForTsan : Bool} (invariant : BlockInvariant numMops)
    (a : Lattice numMops usedForTsan) : Lattice numMops usedForTsan :=
  let a := if invariant.containsCall then a.kill else a
  let a := if usedForTsan && invariant.containsAcq then a.killAcq else a
  let a := if usedForTsan && invariant.containsRel then a.killRel else a
  a.generate invariant

end Mair.ActiveMop
