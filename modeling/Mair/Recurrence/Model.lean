import Mair.Ir.Instruction
import Mair.Library.DepthFirst

/-! # The recurrence reducer

The edges of the recurring graph, the dominating set found by two rounds of depth-first
traversal, and the reducer that keeps the checks in that set. -/

namespace Mair.Recurrence

open Ir DepthFirst

/-! ## Memory operations -/

inductive CheckMode where
  | readOnly | writeOnly | readWrite
  deriving DecidableEq

/-- The mode that the constructor of `MemoryOperation` derives from the instruction. -/
def checkMode (inst : Instruction) : CheckMode :=
  if inst.isVolatile then
    if inst.isLoad then .readWrite else .writeOnly
  else if inst.mayWriteToMemory then .writeOnly
  else .readOnly

def isWrite (inst : Instruction) : Bool := checkMode inst = .writeOnly

/-! ## Pairs of operations -/

structure Edge where
  killing : Instruction
  dead : Instruction
  fromI : Instruction
  blocked : Bool

/-- The tree and alias queries behind `MOPState`. -/
structure MOPState where
  dominates : Instruction → Instruction → Bool
  postDominates : Instruction → Instruction → Bool
  isAccessRangeContains : Instruction → Instruction → Bool

def MOPState.isMopCheckRecurring (state : MOPState) (killing dead : Instruction)
    (writeSensitive : Bool) : Option Instruction :=
  if !isInterestingMop killing || !isInterestingMop dead then none
  else if writeSensitive && !isWrite killing && isWrite killing != isWrite dead then none
  else if state.dominates killing dead then
    if state.isAccessRangeContains killing dead then some killing else none
  else if state.postDominates killing dead then
    if state.isAccessRangeContains killing dead then some dead else none
  else none

/-! ## The recurring graph -/

structure Vertex where
  mop : Instruction
  children : List Instruction
  hasParent : Bool

def addChildren (graph : List Vertex) (killing dead : Instruction) : List Vertex :=
  graph.map fun v =>
    { v with
      children := if v.mop = killing then v.children ++ [dead] else v.children
      hasParent := v.hasParent || v.mop = dead }

def recurringGraph (mops : List Instruction) (edges : List Edge) : List Vertex :=
  edges.foldl
    (fun graph e => if e.blocked then graph else addChildren graph e.killing e.dead)
    (mops.map fun mop => ⟨mop, [], false⟩)

/-- The children of the vertex of a memory operation. -/
def children (graph : List Vertex) (mop : Instruction) : List Instruction :=
  match graph.find? fun v => v.mop = mop with
  | some v => v.children
  | none => []

/-- The state of `fillDominatingSet`: the set built so far and the visited vertices. -/
structure Selection where
  domSet : List Instruction
  visited : List Instruction

def Selection.push (graph : List Vertex) (s : Selection) (v : Vertex) : Selection where
  domSet := s.domSet ++ [v.mop]
  visited := depthFirst (children graph) (graph.map Vertex.mop) s.visited v.mop

/-- Take a vertex into the set unless it is to be skipped. -/
def select (graph : List Vertex) (skip : Selection → Vertex → Bool) (s : Selection)
    (v : Vertex) : Selection :=
  if skip s v then s else s.push graph v

/-- The first round takes every vertex without a parent. -/
def skipRoot (_ : Selection) (v : Vertex) : Bool := v.hasParent

/-- The second round takes every vertex that nothing taken so far reaches. -/
def skipRest (s : Selection) (v : Vertex) : Bool := !v.hasParent || v.mop ∈ s.visited

def fillDominatingSet (graph : List Vertex) (domSet : List Instruction) : List Instruction :=
  let roots := graph.foldl (select graph skipRoot) ⟨domSet, []⟩
  (graph.foldl (select graph skipRest) roots).domSet

/-! ## The reducer -/

/-- `SetVector::insert`. -/
def insertNew (set : List Instruction) (inst : Instruction) : List Instruction :=
  if inst ∈ set then set else set ++ [inst]

def candidatesOf (edges : List Edge) : List Instruction :=
  edges.foldl (fun set e => insertNew (insertNew set e.killing) e.dead) []

/-- The reducer from the point where the edges are known. -/
def distillEdges (insts : List Instruction) (edges : List Edge) : List Instruction :=
  let candidates := candidatesOf edges
  fillDominatingSet (recurringGraph candidates edges) (insts.filter fun i => i ∉ candidates)

def collectEdges (state : MOPState) (insts : List Instruction) (writeSensitive : Bool) :
    List Edge :=
  insts.flatMap fun killing => insts.filterMap fun dead =>
    if killing = dead then none
    else (state.isMopCheckRecurring killing dead writeSensitive).map fun fromI =>
      ⟨killing, dead, fromI, false⟩

/-- An edge is blocked when the activity analysis finds a barrier on the way. -/
def blockEdge (isActive : Instruction → Instruction → Bool → Bool) (e : Edge) : Edge :=
  let isToDead : Bool := e.fromI = e.killing
  let toI := if isToDead then e.dead else e.killing
  { e with blocked := !isActive e.fromI toI isToDead }

/-- The edges handed to the recurring graph. `isActive` is `isOneMopActiveToAnother` of the
analysis built for the candidates. -/
def finalEdges (state : MOPState)
    (isActive : List Instruction → Instruction → Instruction → Bool → Bool)
    (insts : List Instruction) (isTsan ignoreCalls : Bool) : List Edge :=
  let edges := collectEdges state insts isTsan
  if ignoreCalls then edges else edges.map (blockEdge (isActive (candidatesOf edges)))

def distillRecurringChecks (state : MOPState)
    (isActive : List Instruction → Instruction → Instruction → Bool → Bool)
    (insts : List Instruction) (isTsan ignoreCalls : Bool) : List Instruction :=
  if insts.length < 2 then insts
  else distillEdges insts (finalEdges state isActive insts isTsan ignoreCalls)

end Mair.Recurrence
