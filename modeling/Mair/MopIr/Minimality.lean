import Mair.MopIr.Selection

/-! # How many operations the dominating set takes

The reducer takes one operation for each component of the recurring graph that nothing outside
it covers, unless the order of the vertices puts an operation of another component before all
that cover it. -/

namespace Mair.MopIr

open Ir Kernels Recurrence

/-- No operation of the set is reached from another one, and the set has one operation for
each component without a covering operation outside. -/
structure IsMinimal (mops : List Instruction) (edges : List Edge) (domSet : List Instruction) :
    Prop where
  independent : Independent (Step edges) domSet
  onePerTop : OnePerTop (Step edges) mops domSet

section Graph

variable {mops : List Instruction} {edges : List Edge}

theorem mem_of_reach (hinside : EdgesInside mops edges) {u v : Instruction} (hv : v ∈ mops)
    (h : Relation.ReflTransGen (Step edges) u v) : u ∈ mops := by
  cases Relation.ReflTransGen.cases_head h with
  | inl heq => exact heq ▸ hv
  | inr hhead =>
      obtain ⟨w, hstep, -⟩ := hhead
      exact (hinside.of_step hstep).1

/-- The set is minimal exactly when whatever reaches an operation that no parentless vertex
and no earlier vertex reaches is reached from it. -/
theorem fillDominatingSet_isMinimal_iff (hnodup : mops.Nodup)
    (hinside : EdgesInside mops edges) :
    IsMinimal mops edges (fillDominatingSet (recurringGraph mops edges) []) ↔
      EntriesFirst (Step edges) mops := by
  have hclosed : ∀ u v, v ∈ mops → Relation.ReflTransGen (Step edges) u v → u ∈ mops :=
    fun u v hv h => mem_of_reach hinside hv h
  rw [fillDominatingSet_eq hinside hnodup, List.nil_append]
  constructor
  · intro h
    exact (independent_sourcesFirst_iff hclosed).mp h.independent
  · intro h
    have hindependent := (independent_sourcesFirst_iff hclosed).mpr h
    refine ⟨hindependent, IsKernel.onePerTop hclosed ?_⟩
    exact ⟨sourcesFirst_nodup, fun _ => mem_of_mem_sourcesFirst, sourcesFirst_dominates,
      hindependent⟩

end Graph

/-! ## Two narrow loads before two wide loads -/

/-- Four loads of one address in a block, the last two of which are wider. -/
def narrowThenWide : MOPState where
  dominates a b := a.name ≤ b.name
  postDominates a b := b.name ≤ a.name
  isAccessRangeContains a b := 2 ≤ a.name || b.name < 2

def fourLoads : List Instruction := [plainLoad 0, plainLoad 1, plainLoad 2, plainLoad 3]

def fourLoadsEdges : List Edge := Recurrence.collectEdges narrowThenWide fourLoads false

/-- The first narrow load is taken although the wide loads cover it. -/
theorem fourLoads_not_minimal :
    ¬IsMinimal (candidatesOf fourLoadsEdges) fourLoadsEdges
      (fillDominatingSet (recurringGraph (candidatesOf fourLoadsEdges) fourLoadsEdges) []) := by
  intro h
  have hset : fillDominatingSet
      (recurringGraph (candidatesOf fourLoadsEdges) fourLoadsEdges) [] =
        [plainLoad 0, plainLoad 2] := by decide
  rw [hset] at h
  have hstep : Step fourLoadsEdges (plainLoad 2) (plainLoad 0) :=
    mem_vertexOf_children_iff.mp (by decide)
  have heq := h.independent (plainLoad 2) (by decide) (plainLoad 0) (by decide)
    (Relation.ReflTransGen.single hstep)
  exact absurd heq (by decide)

theorem fillDominatingSet_isMinimal_iff_fourLoads :
    IsMinimal (candidatesOf fourLoadsEdges) fourLoadsEdges
        (fillDominatingSet (recurringGraph (candidatesOf fourLoadsEdges) fourLoadsEdges) []) ↔
      EntriesFirst (Step fourLoadsEdges) (candidatesOf fourLoadsEdges) :=
  fillDominatingSet_isMinimal_iff (candidatesOf_nodup _) (edgesInside_candidatesOf _)

end Mair.MopIr
