import Mair.Library.Walk

/-! # Tags of UBSan's instructions

`UbsanInstTaggingPass` tags the fallback blocks of UBSan and the instructions of the checks in front
of them, which carry `nosanitize` as well. -/

namespace Mair.UbsanTagging

/-! ## Modules -/

/-- What the pass reads of a module. The operands are those that are instructions. -/
structure Module (φ β ι : Type*) where
  functions : List φ
  name : φ → List Char
  blocks : φ → List β
  insts : β → List ι
  predecessors : β → List β
  nosanitize : ι → Bool
  isBranch : ι → Bool
  calledFunction : ι → Option φ
  operands : ι → List ι
  called_mem : ∀ i f, calledFunction i = some f → f ∈ functions
  predecessor_mem : ∀ f ∈ functions, ∀ b ∈ blocks f, ∀ p ∈ predecessors b,
    ∃ f' ∈ functions, p ∈ blocks f'
  operand_mem : ∀ f ∈ functions, ∀ b ∈ blocks f, ∀ i ∈ insts b, ∀ j ∈ operands i,
    ∃ f' ∈ functions, ∃ b' ∈ blocks f', j ∈ insts b'

namespace Module

variable {φ β ι : Type*} (m : Module φ β ι)

def allBlocks : List β := m.functions.flatMap m.blocks

def allInsts : List ι := m.allBlocks.flatMap m.insts

def getTerminator (b : β) : Option ι := (m.insts b).getLast?

def getSinglePredecessor (b : β) : Option β :=
  match m.predecessors b with
  | [p] => some p
  | _ => none

/-! ## UBSan's functions -/

def ubsanInterfacePrefix : List Char := "__ubsan_".toList

def ubsanReportPrefix : List Char := "__ubsan_handle_".toList

def isUbsanFunction (f : φ) : Bool := ubsanInterfacePrefix.isPrefixOf (m.name f)

def isUbsanReportFunction (f : φ) : Bool := ubsanReportPrefix.isPrefixOf (m.name f)

def isUbsanInterfaceCall (i : ι) : Bool :=
  m.nosanitize i && (m.calledFunction i).any m.isUbsanFunction

def isUbsanReportCall (i : ι) : Bool :=
  m.isUbsanInterfaceCall i && (m.calledFunction i).any m.isUbsanReportFunction

def isUbsanFallbackBlock (b : β) : Bool :=
  if !(m.getTerminator b).any m.nosanitize then false
  else if m.getSinglePredecessor b |>.isNone then false
  else (m.insts b).any m.isUbsanReportCall

variable [DecidableEq ι]

/-! ## Walks over the uses -/

/-- A user occurs once for each use. -/
def users (i : ι) : List ι :=
  m.allInsts.flatMap fun u => ((m.operands u).filter (· = i)).map fun _ => u

def collectBoundaryInst (boundary : List ι) (i : ι) : List ι × List ι :=
  if !m.nosanitize i then (boundary, [])
  else if (m.operands i).any m.nosanitize then (boundary, m.operands i)
  else (boundary ++ [i], m.operands i)

def setTag (tags : List ι) (i : ι) : List ι := if i ∈ tags then tags else i :: tags

def markUbsan (tags : List ι) (i : ι) : List ι × List ι :=
  if !m.nosanitize i then (tags, []) else (setTag tags i, m.users i)

/-- The boundary that a walk from a branch to its operands collects. -/
def walkOverUseDefChain (br : ι) : Option (List ι) :=
  Walk.walkFrom m.collectBoundaryInst m.operands m.allInsts [br] []

def walkOverDefUseChain (boundary tags : List ι) : Option (List ι) :=
  Walk.walkFrom m.markUbsan m.users m.allInsts boundary tags

/-! ## The pass -/

/-- The branch of the check in front of a fallback block. -/
def checkBranch (b : β) : Option ι :=
  ((m.getSinglePredecessor b).bind m.getTerminator).filter fun br =>
    m.isBranch br && m.nosanitize br

def visitBlock (tags : List ι) (b : β) : Option (List ι) :=
  if !m.isUbsanFallbackBlock b then some tags
  else
    let tags := (m.insts b).foldl setTag tags
    match m.checkBranch b with
    | none => some tags
    | some br =>
        (m.walkOverUseDefChain br).bind fun boundary => m.walkOverDefUseChain boundary tags

/-- The pass, for an order of the blocks. -/
def run (order : List β) : Option (List ι) :=
  if !m.functions.any m.isUbsanFunction then some []
  else order.foldlM m.visitBlock []

end Module

end Mair.UbsanTagging
