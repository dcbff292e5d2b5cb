import Mathlib.Data.List.Basic

/-! # Instructions as the analyses see them

An instruction is its identity together with the attributes that the passes query. -/

namespace Mair.Ir

/-! ## Attributes -/

inductive AtomicOrdering where
  | notAtomic | unordered | monotonic | acquire | release | acquireRelease
  | sequentiallyConsistent
  deriving DecidableEq

/-- The numeric value of the enumerator; 3 is reserved for consume. -/
def AtomicOrdering.rank : AtomicOrdering → ℕ
  | .notAtomic => 0
  | .unordered => 1
  | .monotonic => 2
  | .acquire => 4
  | .release => 5
  | .acquireRelease => 6
  | .sequentiallyConsistent => 7

inductive SyncScope where
  | singleThread | system
  deriving DecidableEq

/-- The intrinsics that some scan skips by name, the other intrinsics, and plain calls. -/
inductive CallKind where
  | dbgInfo | pseudoProbe | lifetime | intrinsic | plain
  deriving DecidableEq

structure CallBase where
  kind : CallKind
  mayRead : Bool
  mayWrite : Bool
  deriving DecidableEq

inductive Opcode where
  | phi
  | alloca
  | load (isVolatile : Bool) (order : AtomicOrdering) (scope : SyncScope)
  | store (isVolatile : Bool) (order : AtomicOrdering) (scope : SyncScope)
  | atomicRMW (order : AtomicOrdering)
  | atomicCmpXchg (success failure : AtomicOrdering)
  | fence
  | call (callBase : CallBase)
  | bitCast
  | getElementPtr
  | select
  | addrSpaceCast
  | other
  deriving DecidableEq

/-- `name` stands for the address of the instruction object. -/
structure Instruction where
  name : ℕ
  opcode : Opcode
  nosanitize : Bool
  deriving DecidableEq

def plainLoad (name : ℕ) : Instruction := ⟨name, .load false .notAtomic .system, false⟩

def plainStore (name : ℕ) : Instruction := ⟨name, .store false .notAtomic .system, false⟩

/-- A call of an unknown function. -/
def plainCall (name : ℕ) : Instruction := ⟨name, .call ⟨.plain, true, true⟩, false⟩

/-! ## Queries -/

namespace Instruction

def isLoad (inst : Instruction) : Bool :=
  match inst.opcode with
  | .load .. => true
  | _ => false

def isStore (inst : Instruction) : Bool :=
  match inst.opcode with
  | .store .. => true
  | _ => false

def isVolatile (inst : Instruction) : Bool :=
  match inst.opcode with
  | .load isVolatile _ _ => isVolatile
  | .store isVolatile _ _ => isVolatile
  | _ => false

def isAtomic (inst : Instruction) : Bool :=
  match inst.opcode with
  | .load _ order _ => order ≠ .notAtomic
  | .store _ order _ => order ≠ .notAtomic
  | .atomicRMW _ => true
  | .atomicCmpXchg _ _ => true
  | .fence => true
  | _ => false

/-- An ordered or volatile load counts as a write, as in the IR library. -/
def mayWriteToMemory (inst : Instruction) : Bool :=
  match inst.opcode with
  | .load isVolatile order _ => isVolatile || AtomicOrdering.unordered.rank < order.rank
  | .store .. => true
  | .atomicRMW _ => true
  | .atomicCmpXchg _ _ => true
  | .fence => true
  | .call callBase => callBase.mayWrite
  | _ => false

def isCall (inst : Instruction) : Bool :=
  match inst.opcode with
  | .call _ => true
  | _ => false

def isDbgInfo (inst : Instruction) : Bool :=
  match inst.opcode with
  | .call callBase => callBase.kind = .dbgInfo
  | _ => false

end Instruction

/-! ## Memory operations, clobbering calls and atomic orderings -/

def isInterestingMop (inst : Instruction) : Bool :=
  if inst.nosanitize then false
  else if inst.isAtomic then false
  else inst.isStore || inst.isLoad

def isClobberingCall (inst : Instruction) : Bool :=
  if !inst.isCall then false
  else if inst.isDbgInfo then false
  else if inst.nosanitize then false
  else if !inst.mayWriteToMemory then false
  else true

def getOrder (inst : Instruction) : AtomicOrdering :=
  match inst.opcode with
  | .load _ order scope => if scope = .singleThread then .notAtomic else order
  | .store _ order scope => if scope = .singleThread then .notAtomic else order
  | .atomicRMW order => order
  | .atomicCmpXchg success failure =>
      if success = failure then success
      else if success = .release ∨ success = .acquire then .acquireRelease
      else if success.rank < failure.rank then failure else success
  | _ => .notAtomic

/-- Accumulates the acquire and release flags of one instruction into the given pair. -/
def getAtomicInsnOrder (inst : Instruction) (isAcq isRel : Bool) : Bool × Bool :=
  match getOrder inst with
  | .notAtomic => (isAcq, isRel)
  | .unordered => (isAcq, isRel)
  | .monotonic => (isAcq, isRel)
  | .acquire => (true, isRel)
  | .release => (isAcq, true)
  | .acquireRelease => (true, true)
  | .sequentiallyConsistent => (true, true)

def isAcquire (inst : Instruction) : Bool := (getAtomicInsnOrder inst false false).1

def isRelease (inst : Instruction) : Bool := (getAtomicInsnOrder inst false false).2

theorem getAtomicInsnOrder_eq (inst : Instruction) (isAcq isRel : Bool) :
    getAtomicInsnOrder inst isAcq isRel = (isAcq || isAcquire inst, isRel || isRelease inst) := by
  unfold isAcquire isRelease getAtomicInsnOrder
  cases getOrder inst <;> simp

/-! ## Memory operations are neither calls nor barriers -/

theorem isInterestingMop_iff (inst : Instruction) :
    isInterestingMop inst = true ↔
      inst.nosanitize = false ∧ inst.isAtomic = false ∧
        (inst.isStore = true ∨ inst.isLoad = true) := by
  unfold isInterestingMop
  cases inst.nosanitize <;> cases inst.isAtomic <;> simp

theorem isCall_eq_false_of_mop {inst : Instruction} (h : isInterestingMop inst = true) :
    inst.isCall = false := by
  have hmop := ((isInterestingMop_iff inst).mp h).2.2
  unfold Instruction.isStore Instruction.isLoad at hmop
  unfold Instruction.isCall
  cases hop : inst.opcode <;> simp [hop] at hmop ⊢

theorem isClobberingCall_eq_false_of_mop {inst : Instruction}
    (h : isInterestingMop inst = true) : isClobberingCall inst = false := by
  simp [isClobberingCall, isCall_eq_false_of_mop h]

theorem getOrder_of_mop {inst : Instruction} (h : isInterestingMop inst = true) :
    getOrder inst = .notAtomic := by
  obtain ⟨-, hatomic, hmop⟩ := (isInterestingMop_iff inst).mp h
  unfold Instruction.isStore Instruction.isLoad at hmop
  unfold Instruction.isAtomic at hatomic
  unfold getOrder
  cases hop : inst.opcode <;> simp_all

theorem isAcquire_eq_false_of_mop {inst : Instruction} (h : isInterestingMop inst = true) :
    isAcquire inst = false := by
  simp [isAcquire, getAtomicInsnOrder, getOrder_of_mop h]

theorem isRelease_eq_false_of_mop {inst : Instruction} (h : isInterestingMop inst = true) :
    isRelease inst = false := by
  simp [isRelease, getAtomicInsnOrder, getOrder_of_mop h]

end Mair.Ir
