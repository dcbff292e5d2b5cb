import Mair.Library.Runs
import Mair.Relocate.Edits

/-! # Relocating invariant checks

`relocateInvariantChecks` moves the check of an access whose address is invariant out of the
loop: to the terminator of the preheader, or behind the loop under an indicator. Two accesses in
a row that stand in one block share the place. -/

namespace Mair.Relocate

open Ir LoopCheck

/-! ## What the pass asks the compiler -/

/-- Post-dominance in the function before the pass. -/
structure PostDominatorTree {β : Type*} (f : Function β) where
  dominates : β → β → Bool
  sound : ∀ a b, dominates a b = true →
    ∀ p e, f.PathFrom b p e → f.succs e = [] → a ∈ p ++ [e]

/-- An operand is an instruction, or a constant, an argument or a global. -/
inductive Value where
  | inst (inst : Instruction)
  | other

inductive Placement where
  | preheader | exit | indicator
  deriving DecidableEq

/-- A place in front of the last `behind` instructions of a block. -/
structure InsertPt (β : Type*) where
  placement : Placement
  block : Node β
  behind : ℕ

/-- The dominator tree is kept up to date, so it is asked about the current function. -/
structure Analyses {β : Type*} (f : Function β) (Λ : Type*) where
  getLoopFor : β → Option Λ
  header : Λ → β
  inLoop : Λ → β → Bool
  parentLoops : Λ → List Λ
  isSimpleLoop : Λ → Bool
  pdt : PostDominatorTree f
  dominates : Cfg β Λ → Instruction → InsertPt β → Bool
  ubsanExists : Bool
  operands : Instruction → List Value
  noAlias : Instruction → Instruction → Bool

structure LoopMop (Λ : Type*) where
  inst : Instruction
  address : Value
  loop : Λ
  inBranch : Bool

section Pass

variable {β Λ : Type*} [DecidableEq β] {f : Function β}

/-- A block without a node is dominated by every block and dominates no other one. -/
def PostDominatorTree.dominatesNode (pdt : PostDominatorTree f) (a b : Node β) : Bool :=
  if a = b then true
  else
    match b with
    | .new _ => true
    | .old b =>
        match a with
        | .new _ => false
        | .old a => pdt.dominates a b

/-! ## Invariant addresses -/

/-- The value is no instruction of the loop. -/
def isInvariantOperand (g : Cfg β Λ) (l : Λ) : Value → Bool
  | .inst inst => !(g.getParent inst).any (g.inLoop l)
  | .other => true

def getStoresInLoop (g : Cfg β Λ) (l : Λ) : List Instruction :=
  (g.nodes.filter (g.inLoop l)).flatMap fun b => (g.graph.own b).filter Instruction.isStore

def isLoadLoopInvariant (a : Analyses f Λ) (g : Cfg β Λ) (l : Λ) (load : Instruction) : Bool :=
  if load.isVolatile || load.isAtomic then false
  else if !(a.operands load).all (isInvariantOperand g l) then false
  else (getStoresInLoop g l).all (a.noAlias load)

def isLoopInvariant (a : Analyses f Λ) (g : Cfg β Λ) (l : Λ) (v : Value) : Bool :=
  let notInLoop := isInvariantOperand g l v
  if !a.ubsanExists || notInLoop then notInLoop
  else
    match v with
    | .other => true
    | .inst inst =>
        if inst.opcode = .phi then false
        else if !(a.operands inst).all (isInvariantOperand g l) then false
        else if inst.isLoad then isLoadLoopInvariant a g l inst
        else true

/-- The outermost of the loops that keep the address invariant. -/
def climb (keeps : Λ → Bool) : Λ → List Λ → Λ
  | topL, [] => topL
  | topL, parentL :: rest => if keeps parentL then climb keeps parentL rest else topL

def topLoop (a : Analyses f Λ) (g : Cfg β Λ) (mop : LoopMop Λ) : Λ :=
  climb (fun l => isLoopInvariant a g l mop.address && a.isSimpleLoop l) mop.loop
    (a.parentLoops mop.loop)

/-! ## Relocating one check -/

structure State (β Λ : Type*) where
  cfg : Cfg β Λ
  last : Option (InsertPt β × Node β)

/-- A check put at a place of the function as it is when the place is chosen. -/
structure Relocated (β Λ : Type*) where
  mop : LoopMop Λ
  topLoop : Λ
  cfg : Cfg β Λ
  insertPt : InsertPt β
  cloned : Bool

/-- The last insertion point, when the last access stands in the same block. -/
def State.reused (s : State β Λ) (block : Node β) : Option (InsertPt β) :=
  s.last.bind fun (insertPt, bb) => if bb = block then some insertPt else none

def preheader (a : Analyses f Λ) (g : Cfg β Λ) (l : Λ) : Option (Node β) :=
  g.getLoopPreheader l (.old (a.header l))

def isInBranch (a : Analyses f Λ) (g : Cfg β Λ) (mop : LoopMop Λ) (topL : Λ) (block : Node β) :
    Bool :=
  if mop.inBranch then mop.inBranch
  else !(preheader a g topL).any (a.pdt.dominatesNode block)

/-- The place behind the loop. -/
def exitInsertPt (g : Cfg β Λ) (mop : LoopMop Λ) (entry : Node β) (topL : Λ)
    (inBranch : Bool) : Option (Cfg β Λ × InsertPt β) :=
  (g.getExitingBlock topL).bind fun exiting =>
    (g.getUniqueExitBlock topL).map fun exit =>
      let (g, exit) := g.dedicatedExit exiting exit
      if inBranch then
        let (g, block) := g.instrumentIndicator mop.inst entry exit
        (g, ⟨.indicator, block, 0⟩)
      else (g, ⟨.exit, exit, g.firstInsertionPt exit⟩)

def getInsertPt (a : Analyses f Λ) (s : State β Λ) (mop : LoopMop Λ) (topL : Λ)
    (block : Node β) : Option (Cfg β Λ × InsertPt β) :=
  let inBranch := isInBranch a s.cfg mop topL block
  match s.reused block with
  | some insertPt => some (s.cfg, insertPt)
  | none =>
      match preheader a s.cfg topL with
      | some p =>
          if !inBranch then some (s.cfg, ⟨.preheader, p, 0⟩)
          else exitInsertPt s.cfg mop (.old f.entry) topL inBranch
      | none => exitInsertPt s.cfg mop (.old f.entry) topL inBranch

/-- The address is computed again where it is not available. -/
def isCloned (a : Analyses f Λ) (g : Cfg β Λ) (insertPt : InsertPt β) : Value → Bool
  | .inst inst => !a.dominates g inst insertPt
  | .other => false

/-- Puts the check, behind a copy of the address if there is one, and splits the block of the
access. -/
def emit (g : Cfg β Λ) (mop : LoopMop Λ) (insertPt : InsertPt β) (cloned : Bool) : Cfg β Λ :=
  let g := if cloned then g.insertBefore insertPt.block insertPt.behind else g
  (g.getBlockAddressOfInstruction mop.inst).insertBefore insertPt.block insertPt.behind

def relocateMop (a : Analyses f Λ) (s : State β Λ) (mop : LoopMop Λ) :
    Option (State β Λ × List (Relocated β Λ)) :=
  if !isLoopInvariant a s.cfg mop.loop mop.address then some (s, [])
  else
    let topL := topLoop a s.cfg mop
    (s.cfg.getParent mop.inst).bind fun block =>
      (getInsertPt a s mop topL block).map fun (g, insertPt) =>
        let cloned := isCloned a g insertPt mop.address
        let g' := emit g mop insertPt cloned
        (⟨g', (g'.getParent mop.inst).map fun bb => (insertPt, bb)⟩,
          [⟨mop, topL, g, insertPt, cloned⟩])

/-! ## Runs -/

/-- The edits of `combinePeriodicChecks` for an access in a loop. -/
def combineMop (g : Cfg β Λ) (inst : Instruction) (l : Λ) : Option (Cfg β Λ) :=
  (g.getExitingBlock l).bind fun exiting =>
    (g.getUniqueExitBlock l).map fun exit =>
      let (g, exit) := g.dedicatedExit exiting exit
      (g.insertBefore exit (g.firstInsertionPt exit)).getBlockAddressOfInstruction inst

inductive Event (Λ : Type*) where
  | combine (inst : Instruction) (loop : Λ)
  | relocate (mop : LoopMop Λ)

/-- `none` is a query that the pass takes for granted and the compiler does not answer. -/
def step (a : Analyses f Λ) (s : State β Λ) : Event Λ → Option (State β Λ × List (Relocated β Λ))
  | .combine inst l => (combineMop s.cfg inst l).map fun g => (⟨g, s.last⟩, [])
  | .relocate mop => relocateMop a s mop

def initialState (a : Analyses f Λ) : State β Λ := ⟨Cfg.initial f a.inLoop, none⟩

end Pass

end Mair.Relocate
