import Mair.Ir.Execution
import Mair.Library.DepthFirst

/-! # Loops and the loops that the pass handles

The queries to the loop information, the loops with one exiting and one exit block, and the
place behind such a loop where a check is put. -/

namespace Mair.LoopCheck

open Ir

variable {β : Type*}

/-- A natural loop: control enters it through its header only. -/
structure Loop (f : Function β) where
  header : β
  blocks : List β
  header_mem : header ∈ blocks
  nodup : blocks.Nodup
  entry_notMem : f.entry ∉ blocks
  reachable : ∀ b ∈ blocks, f.ReachableBlock b
  header_of_enter : ∀ a b, b ∈ f.succs a → a ∉ blocks → b ∈ blocks → b = header

structure DominatorTree (f : Function β) where
  dominates : β → β → Bool
  dominates_iff : ∀ a b,
    dominates a b = true ↔ ∀ p, f.PathFrom f.entry p b → a ∈ p ++ [b]

def single {α : Type*} : List α → Option α
  | [a] => some a
  | _ => none

section Queries

variable [DecidableEq β] {f : Function β}

/-- The source of each edge to `b`; a block with two edges to `b` is listed twice. -/
def predecessors (f : Function β) (b : β) : List β :=
  f.blocks.dedup.flatMap fun a => (f.succs a).filterMap fun c => if c = b then some a else none

def getUniquePredecessor (f : Function β) (b : β) : Option β := single (predecessors f b).dedup

namespace Loop

def getLoopPredecessor (l : Loop f) : Option β :=
  single ((predecessors f l.header).filter fun a => a ∉ l.blocks).dedup

def getLoopLatch (l : Loop f) : Option β :=
  single ((predecessors f l.header).filter fun a => a ∈ l.blocks)

def getExitingBlock (l : Loop f) : Option β :=
  single (l.blocks.filter fun b => (f.succs b).any fun c => c ∉ l.blocks)

def getUniqueExitBlock (l : Loop f) : Option β :=
  single (l.blocks.flatMap fun b => (f.succs b).filter fun c => c ∉ l.blocks).dedup

/-- An instruction that rules its loop out. -/
def isComplex (inst : Instruction) : Bool :=
  if inst.nosanitize then false
  else if !inst.mayWriteToMemory then false
  else if inst.isDbgInfo then false
  else inst.isAtomic || inst.isCall

def isSimpleLoop (l : Loop f) : Bool :=
  if l.getLoopPredecessor.isNone || l.getLoopLatch.isNone || l.getUniqueExitBlock.isNone ||
      l.getExitingBlock.isNone then false
  else !l.blocks.any fun b => (f.insts b).any isComplex

end Loop

end Queries

/-! ## Dominators -/

section Dominators

variable [DecidableEq β] {f : Function β} {a b e : β}

/-- The graph without the edges that leave `a`. -/
def succsAvoiding (f : Function β) (a b : β) : List β := if b = a then [] else f.succs b

theorem path_avoiding_iff :
    (∃ p, Path (succsAvoiding f a) e p b) ↔ ∃ p, f.PathFrom e p b ∧ a ∉ p := by
  constructor
  · intro h
    obtain ⟨p, hp⟩ := h
    refine ⟨p, ?_⟩
    induction hp with
    | nil => exact ⟨.nil, List.not_mem_nil⟩
    | @snoc p b c _ hc ih =>
        rw [succsAvoiding] at hc
        split at hc
        · cases hc
        · next hne =>
            refine ⟨ih.1.snoc hc, ?_⟩
            rw [List.mem_append, List.mem_singleton, not_or]
            exact ⟨ih.2, Ne.symm hne⟩
  · intro h
    obtain ⟨p, hp, hnot⟩ := h
    refine ⟨p, ?_⟩
    induction hp with
    | nil => exact .nil
    | @snoc p b c _ hc ih =>
        rw [List.mem_append, List.mem_singleton, not_or] at hnot
        refine (ih hnot.1).snoc ?_
        rw [succsAvoiding, if_neg (Ne.symm hnot.2)]
        exact hc

/-- A block dominates those that are not reached without leaving it. -/
def dominatorTree (f : Function β) : DominatorTree f where
  dominates a b :=
    a = b || b ∉ DepthFirst.depthFirst (succsAvoiding f a) f.blocks [] f.entry
  dominates_iff a b := by
    have hreach : b ∈ DepthFirst.depthFirst (succsAvoiding f a) f.blocks [] f.entry ↔
        ∃ p, f.PathFrom f.entry p b ∧ a ∉ p := by
      rw [DepthFirst.mem_depthFirst_iff (fun u _ v _ => f.complete v) (f.complete f.entry) (by simp),
        ← path_avoiding_iff, exists_path_iff]
      simp [DepthFirst.Reaches]
    rw [Bool.or_eq_true, decide_eq_true_eq, decide_eq_true_eq, hreach]
    constructor
    · intro h p hp
      rcases h with rfl | h
      · simp
      · by_contra hnot
        rw [List.mem_append, not_or] at hnot
        exact h ⟨p, hp, hnot.1⟩
    · intro h
      by_cases hab : a = b
      · exact Or.inl hab
      · refine Or.inr ?_
        intro hpath
        obtain ⟨p, hp, hnot⟩ := hpath
        rcases List.mem_append.mp (h p hp) with hmem | hmem
        · exact hnot hmem
        · exact hab (List.mem_singleton.mp hmem)

end Dominators

/-! ## Where the check is put -/

section Sites

variable [DecidableEq β]

inductive CheckSite (β : Type*) where
  | block (exit : β)
  | edge (exiting exit : β)

/-- An exit block with other predecessors is reached through a new block on the edge. -/
def checkSite (f : Function β) (exiting exit : β) : CheckSite β :=
  if getUniquePredecessor f exit = some exiting then .block exit else .edge exiting exit

/-- A step of an execution that comes by the check. -/
def CheckSite.hit (a b : β) : CheckSite β → Bool
  | .block exit => b = exit
  | .edge exiting exit => a = exiting && b = exit

end Sites

/-! ## Edges of a simple loop -/

section Edges

theorem single_eq_some_iff {α : Type*} {l : List α} {a : α} : single l = some a ↔ l = [a] := by
  cases l with
  | nil => simp [single]
  | cons b l =>
      cases l with
      | nil => simp [single]
      | cons c l => simp [single]

variable [DecidableEq β] {f : Function β} {l : Loop f} {a b exiting exit latch : β}

theorem mem_predecessors_iff : a ∈ predecessors f b ↔ b ∈ f.succs a := by
  simp only [predecessors, List.mem_flatMap, List.mem_dedup, List.mem_filterMap,
    Option.ite_none_right_eq_some, Option.some.injEq]
  constructor
  · rintro ⟨x, -, y, hy, rfl, rfl⟩
    exact hy
  · intro h
    exact ⟨a, f.complete a, b, h, rfl, rfl⟩

/-- The exiting block is the only one that leaves the loop. -/
theorem eq_exiting_of_leave (hexiting : l.getExitingBlock = some exiting) (ha : a ∈ l.blocks)
    (hb : b ∉ l.blocks) (h : b ∈ f.succs a) : a = exiting := by
  have hlist := single_eq_some_iff.mp hexiting
  have hmem : a ∈ l.blocks.filter fun b => (f.succs b).any fun c => c ∉ l.blocks := by
    rw [List.mem_filter, List.any_eq_true]
    exact ⟨ha, b, h, decide_eq_true hb⟩
  rw [hlist] at hmem
  exact List.mem_singleton.mp hmem

theorem eq_exit_of_leave (hexit : l.getUniqueExitBlock = some exit) (ha : a ∈ l.blocks)
    (hb : b ∉ l.blocks) (h : b ∈ f.succs a) : b = exit := by
  have hlist := single_eq_some_iff.mp hexit
  have hmem : b ∈ (l.blocks.flatMap fun b => (f.succs b).filter fun c => c ∉ l.blocks).dedup := by
    rw [List.mem_dedup, List.mem_flatMap]
    exact ⟨a, ha, List.mem_filter.mpr ⟨h, decide_eq_true hb⟩⟩
  rw [hlist] at hmem
  exact List.mem_singleton.mp hmem

theorem eq_latch_of_back (hlatch : l.getLoopLatch = some latch) (ha : a ∈ l.blocks)
    (h : l.header ∈ f.succs a) : a = latch := by
  have hlist := single_eq_some_iff.mp hlatch
  have hmem : a ∈ (predecessors f l.header).filter fun a => a ∈ l.blocks :=
    List.mem_filter.mpr ⟨mem_predecessors_iff.mpr h, decide_eq_true ha⟩
  rw [hlist] at hmem
  exact List.mem_singleton.mp hmem

theorem latch_spec (hlatch : l.getLoopLatch = some latch) :
    latch ∈ l.blocks ∧ l.header ∈ f.succs latch := by
  have hmem : latch ∈ (predecessors f l.header).filter fun a => a ∈ l.blocks := by
    rw [single_eq_some_iff.mp hlatch]
    exact List.mem_singleton_self latch
  rw [List.mem_filter, mem_predecessors_iff, decide_eq_true_eq] at hmem
  exact hmem.symm

/-- The exiting block leads to the exit block, which lies outside. -/
theorem exit_spec (hexiting : l.getExitingBlock = some exiting)
    (hexit : l.getUniqueExitBlock = some exit) :
    exiting ∈ l.blocks ∧ exit ∉ l.blocks ∧ exit ∈ f.succs exiting := by
  have hmem : exiting ∈ l.blocks.filter fun b => (f.succs b).any fun c => c ∉ l.blocks := by
    rw [single_eq_some_iff.mp hexiting]
    exact List.mem_singleton_self exiting
  rw [List.mem_filter, List.any_eq_true] at hmem
  obtain ⟨hin, c, hc, hout⟩ := hmem
  have hout := of_decide_eq_true hout
  obtain rfl := eq_exit_of_leave hexit hin hout hc
  exact ⟨hin, hout, hc⟩

/-- The check is executed exactly when control leaves the loop. -/
theorem hit_iff (hexiting : l.getExitingBlock = some exiting)
    (hexit : l.getUniqueExitBlock = some exit) (h : b ∈ f.succs a) :
    (checkSite f exiting exit).hit a b = true ↔ a ∈ l.blocks ∧ b ∉ l.blocks := by
  obtain ⟨hin, hout, -⟩ := exit_spec hexiting hexit
  have hedge : a = exiting ∧ b = exit ↔ a ∈ l.blocks ∧ b ∉ l.blocks := by
    constructor
    · rintro ⟨rfl, rfl⟩
      exact ⟨hin, hout⟩
    · intro hleave
      exact ⟨eq_exiting_of_leave hexiting hleave.1 hleave.2 h,
        eq_exit_of_leave hexit hleave.1 hleave.2 h⟩
  by_cases huniq : getUniquePredecessor f exit = some exiting
  · rw [checkSite, if_pos huniq, CheckSite.hit, decide_eq_true_eq, ← hedge]
    constructor
    · intro hb
      subst hb
      have hmem : a ∈ (predecessors f b).dedup :=
        List.mem_dedup.mpr (mem_predecessors_iff.mpr h)
      rw [single_eq_some_iff.mp huniq] at hmem
      exact ⟨List.mem_singleton.mp hmem, rfl⟩
    · intro hleave
      exact hleave.2
  · rw [checkSite, if_neg huniq, CheckSite.hit, Bool.and_eq_true, decide_eq_true_eq,
      decide_eq_true_eq, hedge]

theorem isSimpleLoop_spec (h : l.isSimpleLoop = true) :
    ∃ latch exiting exit, l.getLoopLatch = some latch ∧ l.getExitingBlock = some exiting ∧
      l.getUniqueExitBlock = some exit := by
  unfold Loop.isSimpleLoop at h
  split at h
  · cases h
  · next hsome =>
      simp only [Bool.or_eq_true, Option.isNone_iff_eq_none, not_or] at hsome
      obtain ⟨⟨⟨-, hlatch⟩, hexit⟩, hexiting⟩ := hsome
      obtain ⟨latch, hlatch⟩ := Option.ne_none_iff_exists'.mp hlatch
      obtain ⟨exit, hexit⟩ := Option.ne_none_iff_exists'.mp hexit
      obtain ⟨exiting, hexiting⟩ := Option.ne_none_iff_exists'.mp hexiting
      exact ⟨latch, exiting, exit, hlatch, hexiting, hexit⟩

end Edges

end Mair.LoopCheck
