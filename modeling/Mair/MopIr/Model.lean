import Mair.Recurrence.Model

/-! # The redundancy analysis of the memory operation pipeline

`MopRedundancyAnalysis` finds the operations whose check another one makes redundant over the
list that `MopBuilder` makes of a function, one operation for each instruction. -/

namespace Mair.MopIr

open Ir Recurrence

/-! ## Memory operations -/

inductive MopType where
  | load | store | atomic | memcpy | memset
  deriving DecidableEq

/-- The type that `createMop` gives to an instruction; `callType` reads the name of the
called function. -/
def createMop (callType : Instruction → Option MopType) (inst : Instruction) : Option MopType :=
  match inst.opcode with
  | .load .. => some .load
  | .store .. => some .store
  | .atomicRMW _ => some .atomic
  | .atomicCmpXchg _ _ => some .atomic
  | .call _ => callType inst
  | _ => none

structure Mop (callType : Instruction → Option MopType) where
  type : MopType
  originalInst : Instruction
  created : createMop callType originalInst = some type

/-- The list of a function holds one operation for each of its instructions. -/
structure MopList (callType : Instruction → Option MopType) where
  mops : List (Mop callType)
  nodup : (mops.map Mop.originalInst).Nodup

namespace MopList

def insts {callType : Instruction → Option MopType} (list : MopList callType) :
    List Instruction :=
  list.mops.map Mop.originalInst

end MopList

/-! ## Edges -/

section Analysis

variable {callType : Instruction → Option MopType}

def Mop.isWrite (mop : Mop callType) : Bool :=
  mop.type = .store || mop.type = .memset || mop.type = .memcpy

def isMopCheckRecurring (state : MOPState) (killing dead : Mop callType)
    (writeSensitive : Bool) : Bool :=
  if writeSensitive && !killing.isWrite && killing.isWrite != dead.isWrite then false
  else if !writeSensitive && !killing.isWrite && dead.isWrite then false
  else if !state.dominates killing.originalInst dead.originalInst &&
      !state.postDominates killing.originalInst dead.originalInst then false
  else state.isAccessRangeContains killing.originalInst dead.originalInst

/-- The edge of a pair, with the operation from which the activity query starts. -/
def edgeOf (state : MOPState) (writeSensitive : Bool) (killing dead : Mop callType) :
    Option Edge :=
  let ki := killing.originalInst
  let di := dead.originalInst
  if ki = di then none
  else if !isInterestingMop di then none
  else if !isMopCheckRecurring state killing dead writeSensitive then none
  else if state.dominates ki di then some ⟨ki, di, ki, false⟩
  else if state.postDominates ki di then some ⟨ki, di, di, false⟩
  else none

def collectEdges (state : MOPState) (mops : List (Mop callType)) (writeSensitive : Bool) :
    List Edge :=
  mops.flatMap fun killing =>
    if !isInterestingMop killing.originalInst then []
    else mops.filterMap (edgeOf state writeSensitive killing)

/-! ## Candidates -/

/-- `SmallPtrSet<Mop *, 32>` iterates in the order of insertion up to its inline size and in
the order of its hash table beyond. -/
def smallPtrSetOrder (hashOrder : List Instruction → List Instruction)
    (set : List Instruction) : List Instruction :=
  if set.length ≤ 32 then set else hashOrder set

/-- An edge is blocked when the activity analysis, built for the candidates, says so. -/
def finalEdges (isActive : List Instruction → Instruction → Instruction → Bool → Bool)
    (candidates : List Instruction) (edges : List Edge) (ignoreCalls : Bool) : List Edge :=
  if !ignoreCalls && !edges.isEmpty then edges.map (blockEdge (isActive candidates)) else edges

/-! ## Survivors -/

/-- The second round takes every vertex that was not visited. -/
def skipVisited (s : Selection) (v : Vertex) : Bool := v.mop ∈ s.visited

/-- The vertices from which the traversals start. -/
def dominatingVertices (verts : List Vertex) : List Instruction :=
  let roots := verts.foldl (select verts skipRoot) ⟨[], []⟩
  (verts.foldl (select verts skipVisited) roots).domSet

/-- `CoveringMap`: the first unblocked edge into an operation. -/
def coveringMop (edges : List Edge) (mop : Instruction) : Option Instruction :=
  (edges.find? fun e => !e.blocked && e.dead = mop).map Edge.killing

structure Redundancy where
  dominatingSet : List Instruction
  covering : Instruction → Option Instruction

def buildRecurringGraphAndFindDominatingSet (state : MOPState)
    (isActive : List Instruction → Instruction → Instruction → Bool → Bool)
    (hashOrder : List Instruction → List Instruction) (list : MopList callType)
    (isTsan ignoreCalls : Bool) : Redundancy :=
  let edges := collectEdges state list.mops isTsan
  let candidates := smallPtrSetOrder hashOrder (candidatesOf edges)
  let edges := finalEdges isActive candidates edges ignoreCalls
  { dominatingSet := dominatingVertices (recurringGraph candidates edges) ++
      list.insts.filter fun i => i ∉ candidates
    covering := coveringMop edges }

/-- `analyze` marks an operation as redundant unless it is in the dominating set. -/
def isRedundant (redundancy : Redundancy) (mop : Mop callType) : Bool :=
  mop.originalInst ∉ redundancy.dominatingSet

def unmarked (redundancy : Redundancy) (list : MopList callType) : List (Mop callType) :=
  list.mops.filter fun mop => !isRedundant redundancy mop

end Analysis

end Mair.MopIr
