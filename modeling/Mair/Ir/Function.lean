import Mair.Ir.Instruction
import Mair.Library.Dataflow

/-! # Functions as control-flow graphs

A function is a finite graph of basic blocks. An instruction object occurs once in one
block, which the structure carries as proofs. -/

namespace Mair.Ir

open Dataflow

structure Function (β : Type*) where
  blocks : List β
  entry : β
  insts : β → List Instruction
  succs : β → List β
  complete : ∀ b, b ∈ blocks
  nodup : ∀ b, (insts b).Nodup
  parent : ∀ b b' inst, inst ∈ insts b → inst ∈ insts b' → b = b'

namespace Function

variable {β : Type*} (f : Function β)

/-- The blocks of a path from `a` to the entry of `c`. -/
abbrev PathFrom (a : β) (p : List β) (c : β) : Prop := Path f.succs a p c

/-- The instructions that a path executes. -/
def trace (p : List β) : List Instruction := p.flatMap f.insts

def ReachableBlock (b : β) : Prop := ∃ p, f.PathFrom f.entry p b

/-- Every path to the entry of `b` executes `inst`. -/
def DominatesEntry (inst : Instruction) (b : β) : Prop :=
  ∀ p, f.PathFrom f.entry p b → inst ∈ f.trace p

variable {f}

theorem trace_snoc (p : List β) (b : β) : f.trace (p ++ [b]) = f.trace p ++ f.insts b := by
  simp [trace]

theorem mem_trace_iff {p : List β} {inst : Instruction} :
    inst ∈ f.trace p ↔ ∃ b ∈ p, inst ∈ f.insts b := by
  simp [trace]

end Function

end Mair.Ir
