import Mair.StackRace.Model
import Mair.Library.Worklist

/-! # The use chains of a stack object

The walk over the uses of a stack object collects its accesses and the calls that may spawn a
thread with its address. The accesses that may race are stored for each stack object. -/

namespace Mair.StackRace

open Ir Worklist

/-! ## Types -/

inductive IrType where
  | int (bits : ℕ)
  | opaquePointer
  | pointer (elem : IrType)
  | struct (elems : List IrType)
  | array (elem : IrType)
  | vector (elem : IrType)
  | other

mutual

def containsI64 : IrType → Bool
  | .int bits => bits = 64
  | .struct elems => anyContainsI64 elems
  | .array elem => containsI64 elem
  | .vector elem => containsI64 elem
  | .opaquePointer => false
  | .pointer _ => false
  | .other => false

def anyContainsI64 : List IrType → Bool
  | [] => false
  | ty :: tys => containsI64 ty || anyContainsI64 tys

end

def isIntegerTy64 : IrType → Bool
  | .int bits => bits = 64
  | _ => false

mutual

def containsSuspiciousPointer : IrType → Bool
  | .opaquePointer => true
  | .pointer elem => isIntegerTy64 elem || containsSuspiciousPointer elem
  | .struct elems => anyContainsSuspiciousPointer elems
  | .array elem => containsSuspiciousPointer elem
  | .vector elem => containsSuspiciousPointer elem
  | .int _ => false
  | .other => false

def anyContainsSuspiciousPointer : List IrType → Bool
  | [] => false
  | ty :: tys => containsSuspiciousPointer ty || anyContainsSuspiciousPointer tys

end

/-! ## Values and uses -/

inductive Value where
  | inst (inst : Instruction)
  | global (name : ℕ)
  | other
  deriving DecidableEq

/-- What the walk asks about a call besides its effects. The data operands come first. -/
structure CallFacts where
  numDataOperands : ℕ
  calleeNo : ℕ
  doesNotCapture : ℕ → Bool
  returnsAliasOfArgument : Bool
  type : IrType
  argTypes : List IrType

structure DefUse {β : Type*} (f : Function β) where
  operands : Site f → List Value
  callFacts : Site f → CallFacts
  delegateToXSan : Site f → Bool

structure Use {β : Type*} (f : Function β) where
  user : Site f
  operandNo : ℕ
  deriving DecidableEq

section

variable {β : Type*} {f : Function β}

def blockSites (f : Function β) (b : β) : List (Site f) :=
  (f.insts b).attach.map fun i => ⟨b, i.1, i.2⟩

def sites (f : Function β) : List (Site f) := f.blocks.flatMap (blockSites f)

def DefUse.allUses (d : DefUse f) : List (Use f) :=
  (sites f).flatMap fun s => (List.range (d.operands s).length).map fun n => ⟨s, n⟩

def DefUse.uses (d : DefUse f) (v : Value) : List (Use f) :=
  d.allUses.filter fun u => (d.operands u.user)[u.operandNo]? = some v

def shouldSkip (d : DefUse f) (s : Site f) : Bool := s.inst.nosanitize || d.delegateToXSan s

end

/-! ## Spawns and joins -/

def isIntrinsic (callBase : CallBase) : Bool := callBase.kind ≠ .plain

section

variable {β : Type*} {f : Function β}

def Use.isDataOperand (d : DefUse f) (u : Use f) : Bool :=
  u.operandNo < (d.callFacts u.user).numDataOperands

def Use.isCallee (d : DefUse f) (u : Use f) : Bool :=
  u.operandNo = (d.callFacts u.user).calleeNo

def maySpawnThread (d : DefUse f) (callBase : CallBase) (u : Use f) (fromGlobal : Bool) : Bool :=
  let facts := d.callFacts u.user
  if shouldSkip d u.user then false
  else if isIntrinsic callBase then false
  else if fromGlobal && !callBase.mayRead then false
  else if !fromGlobal && (!u.isDataOperand d || facts.doesNotCapture u.operandNo) then false
  else if callBase.mayWrite then true
  else if containsI64 facts.type then true
  else facts.argTypes.any containsSuspiciousPointer

def mayJoinThread (d : DefUse f) (callBase : CallBase) (s : Site f) : Bool :=
  if shouldSkip d s then false
  else if isIntrinsic callBase then false
  else if callBase.mayRead then true
  else true

/-! ## The walk -/

structure Chains (f : Function β) where
  candidateMops : List (Site f)
  mightSpawns : List (Site f)

def Chains.addMop (acc : Chains f) (mop : Site f) : Chains f :=
  { acc with candidateMops := acc.candidateMops ++ [mop] }

def Chains.addSpawn (acc : Chains f) (cb : Site f) : Chains f :=
  { acc with mightSpawns := acc.mightSpawns ++ [cb] }

/-- One round of the loop and the uses it adds. A call falls through to the case of a store,
and a store to the case of a load. -/
def visitUse (d : DefUse f) (acc : Chains f) (u : Use f) : Chains f × List (Use f) :=
  let inst := u.user.inst
  let atStore (acc : Chains f) := if u.operandNo = 0 then acc else acc.addMop u.user
  if inst.nosanitize then (acc, [])
  else
    match inst.opcode with
    | .call callBase =>
        let acc := if maySpawnThread d callBase u false then acc.addSpawn u.user else acc
        let added :=
          if (d.callFacts u.user).returnsAliasOfArgument then d.uses (.inst inst) else []
        if u.isCallee d then (acc, added) else (atStore acc, added)
    | .store .. => (atStore acc, [])
    | .load .. => (acc.addMop u.user, [])
    | .atomicRMW _ => (acc, d.uses (.inst inst))
    | .atomicCmpXchg _ _ => (acc, d.uses (.inst inst))
    | .bitCast => (acc, d.uses (.inst inst))
    | .getElementPtr => (acc, d.uses (.inst inst))
    | .phi => (acc, d.uses (.inst inst))
    | .select => (acc, d.uses (.inst inst))
    | .addrSpaceCast => (acc, d.uses (.inst inst))
    | _ => (acc, [])

end

section

variable {β : Type*} [DecidableEq β] {f : Function β}

/-- `none` is lack of fuel. -/
def walkOverAllocaDefUseChains (d : DefUse f) (alloc : Site f) : Option (Chains f) :=
  drain (visitUse d) d.allUses.length (State.add ⟨[], []⟩ (d.uses (.inst alloc.inst))) ⟨[], []⟩

def mightJoins (d : DefUse f) : List (Site f) :=
  (sites f).filter fun s =>
    match s.inst.opcode with
    | .call callBase => mayJoinThread d callBase s
    | _ => false

/-! ## The analysis -/

def mopThreshold : ℕ := 2

def racyMops (d : DefUse f) (q : CfgQueries β) (chains : Chains f) : List (Site f) :=
  if chains.candidateMops.isEmpty || chains.mightSpawns.isEmpty || (mightJoins d).isEmpty then []
  else if chains.candidateMops.length ≤ mopThreshold then
    collectSeveralMopsMayRace q chains.candidateMops chains.mightSpawns (mightJoins d)
  else collectManyMopsMayRace chains.candidateMops chains.mightSpawns (mightJoins d)

def allMopsMightRace (d : DefUse f) (q : CfgQueries β) (alloc : Site f) :
    Option (List (Site f)) :=
  (walkOverAllocaDefUseChains d alloc).map (racyMops d q)

def getStackObjects (f : Function β) : List (Site f) :=
  (blockSites f f.entry).filter fun s => s.inst.opcode = .alloca

def extractAddrFromLoadStoreInst (d : DefUse f) (s : Site f) : Option Value :=
  match s.inst.opcode with
  | .load .. => (d.operands s)[0]?
  | .store .. => (d.operands s)[1]?
  | _ => none

/-- `none` is the `llvm_unreachable` for an instruction that is no access. -/
def mightRace (d : DefUse f) (q : CfgQueries β) (mop : Site f) : Option Bool :=
  (extractAddrFromLoadStoreInst d mop).bind fun addr =>
    match (getStackObjects f).find? fun alloc => Value.inst alloc.inst = addr with
    | none => some true
    | some alloc => (allMopsMightRace d q alloc).map fun mops => mop ∈ mops

end

end Mair.StackRace
