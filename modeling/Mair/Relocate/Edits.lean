import Mair.ActiveMop.Query
import Mair.Library.Subdivision
import Mair.LoopCheck.Loops

/-! # Editing a control-flow graph

The edits of the loop passes: a block is split in front of an access, the critical edge that
leaves a loop is split, and a branch on an indicator is put behind a loop. The loop information
follows the edits. -/

namespace Mair.Ir

def Function.graph {β : Type*} (f : Function β) : Graph β Instruction := ⟨f.succs, f.insts⟩

end Mair.Ir

namespace Mair.Relocate

open Ir LoopCheck

/-- The blocks of a function that a pass edits: those it found and those it added. -/
inductive Node (β : Type*) where
  | old (b : β)
  | new (k : ℕ)
  deriving DecidableEq

/-- In `graph`, `none` stands for an instruction that the pass has put in. Terminators are not
listed. -/
structure Cfg (β Λ : Type*) where
  graph : Graph (Node β) (Option Instruction)
  nodes : List (Node β)
  inLoop : Λ → Node β → Bool
  fresh : ℕ

variable {β Λ : Type*}

namespace Cfg

/-- The function before the pass. -/
def initial (f : Function β) (inLoop : Λ → β → Bool) : Cfg β Λ where
  graph :=
    { succs := fun c => match c with
        | .old b => (f.succs b).map .old
        | .new _ => []
      labels := fun c => match c with
        | .old b => (f.insts b).map some
        | .new _ => [] }
  nodes := f.blocks.map .old
  inLoop l c := match c with
    | .old b => inLoop l b
    | .new _ => false
  fresh := 0

section Defs

variable [DecidableEq β] (g : Cfg β Λ)

/-! ## Queries -/

/-- The block that an instruction stands in. -/
def getParent (inst : Instruction) : Option (Node β) :=
  g.nodes.find? fun b => some inst ∈ g.graph.labels b

def predecessors (b : Node β) : List (Node β) := g.nodes.filter fun a => b ∈ g.graph.succs a

def getUniquePredecessor (b : Node β) : Option (Node β) := single (g.predecessors b)

def getLoopPredecessor (l : Λ) (header : Node β) : Option (Node β) :=
  single ((g.predecessors header).filter fun a => !g.inLoop l a)

def getLoopPreheader (l : Λ) (header : Node β) : Option (Node β) :=
  (g.getLoopPredecessor l header).filter fun a => (g.graph.succs a).length = 1

def getExitingBlock (l : Λ) : Option (Node β) :=
  single (g.nodes.filter fun b =>
    g.inLoop l b && (g.graph.succs b).any fun c => !g.inLoop l c)

def getUniqueExitBlock (l : Λ) : Option (Node β) :=
  single ((g.nodes.filter (g.inLoop l)).flatMap fun b =>
    (g.graph.succs b).filter fun c => !g.inLoop l c).dedup

/-- The number of instructions behind the first insertion point, which follows the PHI nodes. -/
def firstInsertionPt (b : Node β) : ℕ :=
  ((g.graph.labels b).dropWhile fun i => i.any fun inst => inst.opcode = .phi).length

/-- Whether an instruction is the first one that is more than a marker. -/
def isFirstReal (inst : Instruction) (b : Node β) : Bool :=
  ((g.graph.labels b).dropWhile fun i => i.any ActiveMop.isPhiOrDbgOrLifetime).head? =
    some (some inst)

/-! ## Edits -/

/-- Puts a new instruction in front of the last `behind` ones of a block. -/
def insertBefore (b : Node β) (behind : ℕ) : Cfg β Λ :=
  let insts := g.graph.labels b
  let front := insts.length - behind
  { g with graph :=
    { g.graph with
      labels := Function.update g.graph.labels b (insts.take front ++ none :: insts.drop front) } }

/-- Moves the last `behind` instructions of a block and its successors to a new block. -/
def splitBlock (b : Node β) (behind : ℕ) : Cfg β Λ :=
  let insts := g.graph.labels b
  let front := insts.length - behind
  { graph := g.graph.splitNode b (.new g.fresh) (insts.take front) (insts.drop front)
    nodes := g.nodes ++ [.new g.fresh]
    inLoop := fun l => Function.update (g.inLoop l) (.new g.fresh) (g.inLoop l b)
    fresh := g.fresh + 1 }

/-- Puts a new block on all edges between two blocks. -/
def splitKnownCriticalEdge (u v : Node β) : Cfg β Λ where
  graph := g.graph.interpose u v (.new g.fresh)
    ((g.graph.succs u).map fun w => if w = v then .new g.fresh else w)
  nodes := g.nodes ++ [.new g.fresh]
  inLoop l := Function.update (g.inLoop l) (.new g.fresh) (g.inLoop l u && g.inLoop l v)
  fresh := g.fresh + 1

/-- Puts a block before the only successor of `b` that is taken under a condition. -/
def insertThen (b tail : Node β) : Cfg β Λ where
  graph := g.graph.interpose b tail (.new g.fresh) [.new g.fresh, tail]
  nodes := g.nodes ++ [.new g.fresh]
  inLoop l := Function.update (g.inLoop l) (.new g.fresh) (g.inLoop l b)
  fresh := g.fresh + 1

/-- Splits the block of an instruction in front of it, unless it comes first there. -/
def getBlockAddressOfInstruction (inst : Instruction) : Cfg β Λ :=
  match g.getParent inst with
  | none => g
  | some b =>
      if g.isFirstReal inst b then g
      else g.splitBlock b ((g.graph.labels b).dropWhile fun i => i ≠ some inst).length

/-- The exit block of a loop, behind an edge of its own. -/
def dedicatedExit (exiting exit : Node β) : Cfg β Λ × Node β :=
  if g.getUniquePredecessor exit ≠ some exiting then
    (g.splitKnownCriticalEdge exiting exit, .new g.fresh)
  else (g, exit)

/-- Clears a flag at the entry and sets it before the access. -/
def markIndicator (inst : Instruction) (entry : Node β) : Cfg β Λ :=
  let behind := g.firstInsertionPt entry
  let g := (g.insertBefore entry behind).insertBefore entry behind
  match g.getParent inst with
  | some b => g.insertBefore b ((g.graph.labels b).dropWhile fun i => i ≠ some inst).length
  | none => g

/-- Loads and compares the flag behind the loop and branches on it. The second component is the
block of the branch. -/
def branchOnIndicator (exit : Node β) : Cfg β Λ × Node β :=
  let behind := g.firstInsertionPt exit
  let g := (g.insertBefore exit behind).insertBefore exit behind
  ((g.splitBlock exit behind).insertThen exit (.new g.fresh), .new (g.fresh + 1))

def instrumentIndicator (inst : Instruction) (entry exit : Node β) : Cfg β Λ × Node β :=
  (g.markIndicator inst entry).branchOnIndicator exit

end Defs

/-! ## What the edits keep -/

/-- The edited graph executes the instructions of the function in the order of the function, and
a loop has no blocks but those of the function's loop. -/
structure Refines (f : Function β) (inLoop : Λ → β → Bool) (g : Cfg β Λ)
    (origin : Node β → β) : Prop where
  subdivides : ∃ done, f.graph.Subdivides g.graph .old {c | c ∈ g.nodes} origin done
  fresh : ∀ k, .new k ∈ g.nodes → k < g.fresh
  inLoop : ∀ l, ∀ c ∈ g.nodes, g.inLoop l c = true → inLoop l (origin c) = true

/-- The edits leave the blocks in place. -/
structure Later (f : Function β) (inLoop : Λ → β → Bool) (g g' : Cfg β Λ)
    (origin origin' : Node β → β) : Prop where
  refines : g'.Refines f inLoop origin'
  nodes : ∀ c ∈ g.nodes, c ∈ g'.nodes
  origin_eq : ∀ c ∈ g.nodes, origin' c = origin c

section Refinement

variable {f : Function β} {inLoop : Λ → β → Bool} {g g' g'' : Cfg β Λ}
  {origin origin' origin'' : Node β → β} {b u v : Node β} {behind : ℕ}

theorem Later.refl (h : g.Refines f inLoop origin) : Later f inLoop g g origin origin :=
  ⟨h, fun _ hc => hc, fun _ _ => rfl⟩

theorem Later.trans (h : Later f inLoop g g' origin origin')
    (h' : Later f inLoop g' g'' origin' origin'') : Later f inLoop g g'' origin origin'' := by
  refine ⟨h'.refines, fun c hc => h'.nodes c (h.nodes c hc), ?_⟩
  intro c hc
  rw [h'.origin_eq c (h.nodes c hc), h.origin_eq c hc]

theorem initial_refines (f : Function β) (inLoop : Λ → β → Bool) :
    (initial f inLoop).Refines f inLoop fun c => match c with
      | .old b => b
      | .new _ => f.entry := by
  have hmem : ∀ b, Node.old b ∈ (initial f inLoop).nodes :=
    fun b => List.mem_map_of_mem (f.complete b)
  have hold : ∀ c ∈ (initial f inLoop).nodes, ∃ b, c = Node.old b := by
    intro c hc
    obtain ⟨b, -, rfl⟩ := List.mem_map.mp hc
    exact ⟨b, rfl⟩
  have hown : ∀ b, (initial f inLoop).graph.own (.old b) = f.insts b := by
    intro b
    simp [Graph.own, initial, List.reduceOption]
  refine ⟨⟨fun _ => [], hmem, fun _ => rfl, fun _ => rfl, ?_, ?_, ?_, ?_⟩, ?_, ?_⟩
  · intro a ha c hc
    obtain ⟨b, rfl⟩ := hold a ha
    obtain ⟨d, -, rfl⟩ := List.mem_map.mp hc
    exact hmem d
  · intro a ha
    obtain ⟨b, rfl⟩ := hold a ha
    rw [hown]
    exact List.prefix_refl _
  · intro a ha c hc
    obtain ⟨b, rfl⟩ := hold a ha
    obtain ⟨d, hd, rfl⟩ := List.mem_map.mp hc
    refine Or.inl ⟨d, rfl, hd, ?_⟩
    rw [hown]
    rfl
  · intro a ha hc
    obtain ⟨b, rfl⟩ := hold a ha
    refine ⟨List.map_eq_nil_iff.mp hc, ?_⟩
    rw [hown]
    rfl
  · intro k hk
    obtain ⟨b, hb⟩ := hold _ hk
    cases hb
  · intro l c hc h
    obtain ⟨b, rfl⟩ := hold c hc
    exact h

theorem Refines.fresh_notMem (h : g.Refines f inLoop origin) : Node.new g.fresh ∉ g.nodes := by
  intro hmem
  exact Nat.lt_irrefl _ (h.fresh _ hmem)

/-- Adding the next new block to the list keeps the names of new blocks apart. -/
theorem Refines.fresh_succ (h : g.Refines f inLoop origin) :
    ∀ k, Node.new k ∈ g.nodes ++ [.new g.fresh] → k < g.fresh + 1 := by
  intro k hk
  rcases List.mem_append.mp hk with hk | hk
  · exact Nat.lt_succ_of_lt (h.fresh k hk)
  · rw [List.mem_singleton] at hk
    cases hk
    exact Nat.lt_succ_self _

theorem setOf_nodes_snoc (nodes : List (Node β)) (n : Node β) :
    {c | c ∈ nodes ++ [n]} = insert n {c | c ∈ nodes} := by
  ext c
  simp [or_comm]

variable [DecidableEq β]

/-- A new block lies in no loop that does not contain its origin. -/
theorem Refines.inLoop_update {added : Λ → Bool} (h : g.Refines f inLoop origin)
    (hb : b ∈ g.nodes) (hadded : ∀ l, added l = true → g.inLoop l b = true) :
    ∀ l, ∀ c ∈ g.nodes ++ [.new g.fresh],
      Function.update (g.inLoop l) (.new g.fresh) (added l) c = true →
        inLoop l (Function.update origin (.new g.fresh) (origin b) c) = true := by
  intro l c hc hin
  rcases List.mem_append.mp hc with hc | hc
  · have hne : c ≠ .new g.fresh := fun heq => h.fresh_notMem (heq ▸ hc)
    rw [Function.update_of_ne hne] at hin ⊢
    exact h.inLoop l c hc hin
  · rw [List.mem_singleton.mp hc, Function.update_self] at hin ⊢
    exact h.inLoop l b hb (hadded l hin)

theorem Refines.later_update (h : g.Refines f inLoop origin)
    (h' : g'.Refines f inLoop (Function.update origin (.new g.fresh) (origin b)))
    (hnodes : g'.nodes = g.nodes ++ [.new g.fresh]) :
    Later f inLoop g g' origin (Function.update origin (.new g.fresh) (origin b)) := by
  refine ⟨h', ?_, ?_⟩
  · intro c hc
    rw [hnodes]
    exact List.mem_append_left _ hc
  · intro c hc
    have hne : c ≠ .new g.fresh := fun heq => h.fresh_notMem (heq ▸ hc)
    exact Function.update_of_ne hne _ _

/-- What is put in is not one of the function's instructions. -/
theorem own_insertBefore (g : Cfg β Λ) (b c : Node β) (behind : ℕ) :
    (g.insertBefore b behind).graph.own c = g.graph.own c := by
  by_cases hcb : c = b
  · subst hcb
    simp only [Graph.own, Cfg.insertBefore, Function.update_self, List.reduceOption_append,
      List.reduceOption_cons_of_none]
    rw [← List.reduceOption_append, List.take_append_drop]
  · simp only [Graph.own, Cfg.insertBefore, Function.update_of_ne hcb]

theorem Refines.insertBefore (h : g.Refines f inLoop origin) (b : Node β) (behind : ℕ) :
    (g.insertBefore b behind).Refines f inLoop origin := by
  obtain ⟨done, hsub⟩ := h.subdivides
  exact ⟨⟨done, hsub.relabel fun c => own_insertBefore g b c behind⟩, h.fresh, h.inLoop⟩

theorem Refines.splitBlock (h : g.Refines f inLoop origin) (hb : b ∈ g.nodes) (behind : ℕ) :
    Later f inLoop g (g.splitBlock b behind) origin
      (Function.update origin (.new g.fresh) (origin b)) := by
  obtain ⟨done, hsub⟩ := h.subdivides
  refine h.later_update ⟨?_, h.fresh_succ, h.inLoop_update hb fun _ hin => hin⟩ rfl
  have hsplit := hsub.splitNode hb h.fresh_notMem
    (List.take_append_drop ((g.graph.labels b).length - behind) _).symm
  rw [← setOf_nodes_snoc] at hsplit
  exact ⟨_, hsplit⟩

theorem Refines.splitKnownCriticalEdge (h : g.Refines f inLoop origin) (hu : u ∈ g.nodes)
    (hv : v ∈ g.graph.succs u) :
    Later f inLoop g (g.splitKnownCriticalEdge u v) origin
      (Function.update origin (.new g.fresh) (origin u)) := by
  obtain ⟨done, hsub⟩ := h.subdivides
  refine h.later_update ⟨?_, h.fresh_succ, h.inLoop_update hu ?_⟩ rfl
  · have hsuccs : ∀ c ∈ (g.graph.succs u).map fun w => if w = v then .new g.fresh else w,
        c = .new g.fresh ∨ c ∈ g.graph.succs u := by
      intro c hc
      obtain ⟨w, hw, rfl⟩ := List.mem_map.mp hc
      split
      · exact Or.inl rfl
      · exact Or.inr hw
    have hsplit := hsub.interpose hu hv h.fresh_notMem hsuccs
      (mt List.map_eq_nil_iff.mp (List.ne_nil_of_mem hv))
    rw [← setOf_nodes_snoc] at hsplit
    exact ⟨_, hsplit⟩
  · intro l hin
    rw [Bool.and_eq_true] at hin
    exact hin.1

theorem Refines.insertThen (h : g.Refines f inLoop origin) (hb : b ∈ g.nodes)
    (hv : g.graph.succs b = [v]) :
    Later f inLoop g (g.insertThen b v) origin
      (Function.update origin (.new g.fresh) (origin b)) := by
  obtain ⟨done, hsub⟩ := h.subdivides
  refine h.later_update ⟨?_, h.fresh_succ, h.inLoop_update hb fun _ hin => hin⟩ rfl
  have hmem : v ∈ g.graph.succs b := by
    rw [hv]
    exact List.mem_singleton_self v
  have hsuccs : ∀ c ∈ [.new g.fresh, v], c = .new g.fresh ∨ c ∈ g.graph.succs b := by
    intro c hc
    rw [hv]
    simpa using hc
  have hsplit := hsub.interpose hb hmem h.fresh_notMem hsuccs (List.cons_ne_nil _ _)
  rw [← setOf_nodes_snoc] at hsplit
  exact ⟨_, hsplit⟩

theorem Refines.insertBefore_later (h : g.Refines f inLoop origin) (b : Node β) (behind : ℕ) :
    Later f inLoop g (g.insertBefore b behind) origin origin :=
  ⟨h.insertBefore b behind, fun _ hc => hc, fun _ _ => rfl⟩

omit [DecidableEq β] in
theorem getParent_spec {inst : Instruction} (h : g.getParent inst = some b) :
    b ∈ g.nodes ∧ some inst ∈ g.graph.labels b := by
  have hfound := List.find?_some (p := fun b => decide (some inst ∈ g.graph.labels b)) h
  exact ⟨List.mem_of_find?_eq_some h, of_decide_eq_true hfound⟩

theorem Refines.getBlockAddress (h : g.Refines f inLoop origin) (inst : Instruction) :
    ∃ origin', Later f inLoop g (g.getBlockAddressOfInstruction inst) origin origin' := by
  unfold getBlockAddressOfInstruction
  cases hparent : g.getParent inst with
  | none => exact ⟨origin, Later.refl h⟩
  | some b =>
      simp only
      split
      · exact ⟨origin, Later.refl h⟩
      · exact ⟨_, h.splitBlock (getParent_spec hparent).1 _⟩

theorem Refines.dedicatedExit {exiting exit : Node β} (h : g.Refines f inLoop origin)
    (hexiting : exiting ∈ g.nodes) (hexit : exit ∈ g.graph.succs exiting) :
    ∃ origin', Later f inLoop g (g.dedicatedExit exiting exit).1 origin origin' ∧
      (g.dedicatedExit exiting exit).2 ∈ (g.dedicatedExit exiting exit).1.nodes := by
  obtain ⟨done, hsub⟩ := h.subdivides
  unfold Cfg.dedicatedExit
  split
  · exact ⟨_, h.splitKnownCriticalEdge hexiting hexit,
      List.mem_append_right _ (List.mem_singleton_self _)⟩
  · exact ⟨origin, Later.refl h, hsub.closed exiting hexiting exit hexit⟩

theorem Refines.markIndicator (h : g.Refines f inLoop origin) (inst : Instruction)
    (entry : Node β) : Later f inLoop g (g.markIndicator inst entry) origin origin := by
  have hentry := (h.insertBefore_later entry (g.firstInsertionPt entry)).trans
    ((h.insertBefore entry _).insertBefore_later entry (g.firstInsertionPt entry))
  unfold Cfg.markIndicator
  simp only
  split
  · exact hentry.trans (hentry.refines.insertBefore_later _ _)
  · exact hentry

theorem succs_splitBlock (g : Cfg β Λ) (b : Node β) (behind : ℕ) :
    (g.splitBlock b behind).graph.succs b = [.new g.fresh] :=
  Function.update_self _ _ _

theorem Refines.branchOnIndicator {exit : Node β} (h : g.Refines f inLoop origin)
    (hexit : exit ∈ g.nodes) :
    ∃ origin', Later f inLoop g (g.branchOnIndicator exit).1 origin origin' ∧
      (g.branchOnIndicator exit).2 ∈ (g.branchOnIndicator exit).1.nodes := by
  have hload := (h.insertBefore_later exit (g.firstInsertionPt exit)).trans
    ((h.insertBefore exit _).insertBefore_later exit (g.firstInsertionPt exit))
  have hsplit := hload.refines.splitBlock (hload.nodes exit hexit) (g.firstInsertionPt exit)
  have hthen := hsplit.refines.insertThen (hsplit.nodes exit (hload.nodes exit hexit))
    (succs_splitBlock _ _ _)
  exact ⟨_, (hload.trans hsplit).trans hthen,
    List.mem_append_right _ (List.mem_singleton_self _)⟩

theorem Refines.instrumentIndicator {exit : Node β} (h : g.Refines f inLoop origin)
    (hexit : exit ∈ g.nodes) (inst : Instruction) (entry : Node β) :
    ∃ origin', Later f inLoop g (g.instrumentIndicator inst entry exit).1 origin origin' ∧
      (g.instrumentIndicator inst entry exit).2 ∈
        (g.instrumentIndicator inst entry exit).1.nodes := by
  have hmark := h.markIndicator inst entry
  obtain ⟨origin', hbranch, hmem⟩ := hmark.refines.branchOnIndicator (hmark.nodes exit hexit)
  exact ⟨origin', hmark.trans hbranch, hmem⟩

end Refinement

end Cfg

end Mair.Relocate
