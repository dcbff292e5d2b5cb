import Mair.Library.Pointers
import Mair.MopIr.Refinement

/-! # Where the covering operations lead

The covering operation of a redundant one is the first that an unblocked edge leads from.
Following it can go round a circle of operations none of which is kept. -/

namespace Mair.MopIr

open Ir Kernels Pointers Recurrence Relation

/-! ## First covering edges -/

section Edges

variable {edges : List Edge} {m k : Instruction}

theorem step_of_coveringMop (h : coveringMop edges m = some k) : Step edges k m := by
  obtain ⟨e, he, rfl⟩ := Option.map_eq_some_iff.mp h
  have hprop := List.find?_some he
  simp only [Bool.and_eq_true, Bool.not_eq_true', decide_eq_true_eq] at hprop
  exact ⟨e, List.mem_of_find?_eq_some he, hprop.1, rfl, hprop.2⟩

theorem exists_coveringMop (h : ¬IsSource (Step edges) m) : ∃ k, coveringMop edges m = some k := by
  cases hfind : coveringMop edges m with
  | some k => exact ⟨k, rfl⟩
  | none =>
      exfalso
      apply h
      intro u hstep
      obtain ⟨e, he, hb, -, hdead⟩ := hstep
      have hnone := List.find?_eq_none.mp (Option.map_eq_none_iff.mp hfind) e he
      simp [hb, hdead] at hnone

theorem reach_of_points (h : ReflTransGen (Points (coveringMop edges)) m k) :
    ReflTransGen (Step edges) k m := by
  induction h with
  | refl => exact ReflTransGen.refl
  | tail _ hstep ih => exact ReflTransGen.head (step_of_coveringMop hstep) ih

theorem not_isSource_of_onCircle (h : OnCircle (coveringMop edges) m) :
    ¬IsSource (Step edges) m := by
  intro hsource
  obtain ⟨k, hk⟩ := h.exists_next
  exact hsource k (step_of_coveringMop hk)

end Edges

/-! ## The analysis -/

def getCoveringMop (redundancy : Redundancy) (inst : Instruction) : Option Instruction :=
  if inst ∈ redundancy.dominatingSet then none else redundancy.covering inst

section Analysis

variable {callType : Instruction → Option MopType}

/-- Each redundant operation has a covering one, and following these comes to an operation
that is not redundant, never to the same one again. -/
structure LeadsToKept (redundancy : Redundancy) (list : MopList callType) : Prop where
  covered : ∀ mop ∈ list.mops, isRedundant redundancy mop = true →
    ∃ k, getCoveringMop redundancy mop.originalInst = some k
  acyclic : ∀ mop ∈ list.mops, isRedundant redundancy mop = true →
    ¬OnCircle (getCoveringMop redundancy) mop.originalInst
  kept : ∀ mop ∈ list.mops, isRedundant redundancy mop = true →
    ∃ keptMop ∈ list.mops, isRedundant redundancy keptMop = false ∧
      ReflTransGen (Points (getCoveringMop redundancy)) mop.originalInst keptMop.originalInst

/-- Each circle of first covering edges has an operation that neither a parentless operation
nor an operation listed before it reaches. -/
def CirclesEntered (mops : List Instruction) (edges : List Edge) : Prop :=
  ∀ m, OnCircle (coveringMop edges) m →
    ∃ w, ReflTransGen (Points (coveringMop edges)) m w ∧
      SourceFree (Step edges) mops w ∧ Unreached (Step edges) mops w

variable {β : Type*} [DecidableEq β] {f : Function β} {order : List β} {state : MOPState}
  {list : MopList callType} {isTsan ignoreCalls : Bool}
  {hashOrder : List Instruction → List Instruction}

theorem isRedundant_iff {redundancy : Redundancy} {mop : Mop callType} :
    isRedundant redundancy mop = true ↔ mop.originalInst ∉ redundancy.dominatingSet := by
  simp [isRedundant]

/-- An operation of the list is redundant when it is a candidate that the selection left. -/
theorem mem_dominatingSet_iff (hhash : ∀ l, (hashOrder l).Perm l) {m : Instruction}
    (hm : m ∈ list.insts) :
    m ∈ (pipelineRun f order state list isTsan ignoreCalls hashOrder).dominatingSet ↔
      m ∈ sourcesFirst (Step (pipelineEdges f order state list isTsan ignoreCalls hashOrder))
          (pipelineCandidates state list isTsan hashOrder) ∨
        m ∉ pipelineCandidates state list isTsan hashOrder := by
  rw [dominatingSet_eq hhash, List.mem_append, List.mem_filter, decide_eq_true_eq,
    and_iff_right hm]

theorem getCoveringMop_of_redundant {redundancy : Redundancy} {m : Instruction}
    (h : m ∉ redundancy.dominatingSet) : getCoveringMop redundancy m = redundancy.covering m :=
  if_neg h

theorem points_of_getCoveringMop {redundancy : Redundancy} {m k : Instruction}
    (h : Points (getCoveringMop redundancy) m k) :
    m ∉ redundancy.dominatingSet ∧ Points redundancy.covering m k :=
  Option.ite_none_left_eq_some.mp h

theorem covering_pipelineRun (m : Instruction) :
    (pipelineRun f order state list isTsan ignoreCalls hashOrder).covering m =
      coveringMop (pipelineEdges f order state list isTsan ignoreCalls hashOrder) m :=
  rfl

theorem candidate_of_step (hhash : ∀ l, (hashOrder l).Perm l) {k d : Instruction}
    (h : Step (pipelineEdges f order state list isTsan ignoreCalls hashOrder) k d) :
    k ∈ pipelineCandidates state list isTsan hashOrder ∧
      d ∈ pipelineCandidates state list isTsan hashOrder :=
  (pipelineEdges_inside hhash).of_step h

theorem insts_of_candidate (hhash : ∀ l, (hashOrder l).Perm l) {m : Instruction}
    (h : m ∈ pipelineCandidates state list isTsan hashOrder) : m ∈ list.insts :=
  mem_insts_of_candidate (candidate_of_pipeline hhash h)

/-- A redundant operation has a parent, and so a first covering edge. -/
theorem exists_getCoveringMop (hhash : ∀ l, (hashOrder l).Perm l) {m : Instruction}
    (hm : m ∈ list.insts)
    (hred : m ∉ (pipelineRun f order state list isTsan ignoreCalls hashOrder).dominatingSet) :
    m ∈ pipelineCandidates state list isTsan hashOrder ∧ ∃ k, Points (getCoveringMop
      (pipelineRun f order state list isTsan ignoreCalls hashOrder)) m k := by
  have hleft := hred
  rw [mem_dominatingSet_iff hhash hm, not_or, not_not, mem_sourcesFirst_iff, not_or] at hleft
  obtain ⟨⟨hsource, -⟩, hcand⟩ := hleft
  refine ⟨hcand, ?_⟩
  rw [not_and] at hsource
  obtain ⟨k, hk⟩ := exists_coveringMop (hsource hcand)
  refine ⟨k, ?_⟩
  rw [Points, getCoveringMop_of_redundant hred]
  exact hk

/-- On a circle that is not entered no operation is kept. -/
theorem redundant_of_onCircle (hhash : ∀ l, (hashOrder l).Perm l) {w : Instruction}
    (hcircle : OnCircle (coveringMop
      (pipelineEdges f order state list isTsan ignoreCalls hashOrder)) w)
    (hnot : ¬(SourceFree (Step (pipelineEdges f order state list isTsan ignoreCalls hashOrder))
        (pipelineCandidates state list isTsan hashOrder) w ∧
      Unreached (Step (pipelineEdges f order state list isTsan ignoreCalls hashOrder))
        (pipelineCandidates state list isTsan hashOrder) w)) :
    w ∈ list.insts ∧
      w ∉ (pipelineRun f order state list isTsan ignoreCalls hashOrder).dominatingSet := by
  obtain ⟨k, hk⟩ := hcircle.exists_next
  have hcand := (candidate_of_step hhash (step_of_coveringMop hk)).2
  have hinsts := insts_of_candidate hhash hcand
  refine ⟨hinsts, ?_⟩
  rw [mem_dominatingSet_iff hhash hinsts, mem_sourcesFirst_iff, not_or, not_or, not_not]
  exact ⟨⟨fun h => not_isSource_of_onCircle hcircle h.2, hnot⟩, hcand⟩

theorem circlesEntered_of_leadsToKept (hhash : ∀ l, (hashOrder l).Perm l)
    (h : LeadsToKept (pipelineRun f order state list isTsan ignoreCalls hashOrder) list) :
    CirclesEntered (pipelineCandidates state list isTsan hashOrder)
      (pipelineEdges f order state list isTsan ignoreCalls hashOrder) := by
  intro m hcircle
  by_contra hnone
  have hred : ∀ w, ReflTransGen (Points (coveringMop
      (pipelineEdges f order state list isTsan ignoreCalls hashOrder))) m w →
      w ∈ list.insts ∧
        w ∉ (pipelineRun f order state list isTsan ignoreCalls hashOrder).dominatingSet := by
    intro w hw
    apply redundant_of_onCircle hhash (hcircle.of_reach hw)
    intro hentered
    exact hnone ⟨w, hw, hentered⟩
  have hnext : OnCircle (getCoveringMop
      (pipelineRun f order state list isTsan ignoreCalls hashOrder)) m := by
    apply hcircle.congr
    intro w hw
    exact getCoveringMop_of_redundant (hred w hw).2
  obtain ⟨hinsts, hout⟩ := hred m ReflTransGen.refl
  obtain ⟨mop, hmop, rfl⟩ := List.mem_map.mp hinsts
  exact h.acyclic mop hmop (isRedundant_iff.mpr hout) hnext

/-- The covering operations of an entered circle do not go round it. -/
theorem not_onCircle_of_circlesEntered (hhash : ∀ l, (hashOrder l).Perm l)
    (h : CirclesEntered (pipelineCandidates state list isTsan hashOrder)
      (pipelineEdges f order state list isTsan ignoreCalls hashOrder)) (m : Instruction) :
    ¬OnCircle (getCoveringMop
      (pipelineRun f order state list isTsan ignoreCalls hashOrder)) m := by
  intro hcircle
  have hfirst : OnCircle (coveringMop
      (pipelineEdges f order state list isTsan ignoreCalls hashOrder)) m :=
    TransGen.mono (fun _ _ hstep => (points_of_getCoveringMop hstep).2) _ _ hcircle
  obtain ⟨w, hw, hfree, hunreached⟩ := h m hfirst
  have hround : OnCircle (getCoveringMop
      (pipelineRun f order state list isTsan ignoreCalls hashOrder)) w := by
    clear hfree hunreached
    induction hw with
    | refl => exact hcircle
    | @tail b c _ hbc ih =>
        obtain ⟨d, hd⟩ := ih.exists_next
        have heq : d = c := (points_of_getCoveringMop hd).2.eq hbc
        exact ih.of_points (heq ▸ hd)
  obtain ⟨d, hd⟩ := hround.exists_next
  have hcand := (candidate_of_step hhash
    (step_of_coveringMop (points_of_getCoveringMop hd).2)).2
  apply (points_of_getCoveringMop hd).1
  rw [mem_dominatingSet_iff hhash (insts_of_candidate hhash hcand), mem_sourcesFirst_iff]
  exact Or.inl (Or.inr ⟨hfree, hunreached⟩)

/-- The covering operations lead to kept ones exactly when the second round of the selection
enters each circle of first covering edges. -/
theorem leadsToKept_iff (hhash : ∀ l, (hashOrder l).Perm l) :
    LeadsToKept (pipelineRun f order state list isTsan ignoreCalls hashOrder) list ↔
      CirclesEntered (pipelineCandidates state list isTsan hashOrder)
        (pipelineEdges f order state list isTsan ignoreCalls hashOrder) := by
  constructor
  · exact circlesEntered_of_leadsToKept hhash
  · intro h
    have hfree := not_onCircle_of_circlesEntered hhash h
    have hinsts : ∀ mop ∈ list.mops, mop.originalInst ∈ list.insts :=
      fun mop hmop => List.mem_map_of_mem hmop
    constructor
    · intro mop hmop hred
      exact (exists_getCoveringMop hhash (hinsts mop hmop) (isRedundant_iff.mp hred)).2
    · exact fun mop _ _ => hfree mop.originalInst
    · intro mop hmop hred
      have hclosed : ∀ a ∈ pipelineCandidates state list isTsan hashOrder, ∀ b,
          Points (getCoveringMop
            (pipelineRun f order state list isTsan ignoreCalls hashOrder)) a b →
          b ∈ pipelineCandidates state list isTsan hashOrder := fun _ _ b hab =>
        (candidate_of_step hhash (step_of_coveringMop (points_of_getCoveringMop hab).2)).1
      have hcand := (exists_getCoveringMop hhash (hinsts mop hmop) (isRedundant_iff.mp hred)).1
      obtain ⟨k, hreach, hend⟩ := ends_of_forall_not_onCircle hclosed (fun a _ => hfree a) hcand
      have hkcand : k ∈ pipelineCandidates state list isTsan hashOrder := by
        clear hend
        induction hreach with
        | refl => exact hcand
        | tail _ hstep ih => exact hclosed _ ih _ hstep
      have hk := insts_of_candidate hhash hkcand
      obtain ⟨keptMop, hkept, rfl⟩ := List.mem_map.mp hk
      refine ⟨keptMop, hkept, ?_, hreach⟩
      by_contra hkred
      rw [Bool.not_eq_false, isRedundant_iff] at hkred
      obtain ⟨-, d, hd⟩ := exists_getCoveringMop hhash hk hkred
      rw [Points, hend] at hd
      cases hd

end Analysis

/-! ## Two narrow loads before a wide load -/

local instance neZeroOne : NeZero 1 := ⟨by decide⟩

/-- Three loads of one address in a block, the last of which is wider. -/
def threeLoads : Function (Fin 1) where
  blocks := [0]
  entry := 0
  insts := ![[plainLoad 0, plainLoad 1, plainLoad 2]]
  succs := ![[]]
  complete := by decide
  nodup := by decide
  parent := by decide

def wideLast : MOPState where
  dominates a b := a.name ≤ b.name
  postDominates a b := b.name ≤ a.name
  isAccessRangeContains a b := a.name = 2 || b.name < 2

def loadMop (name : ℕ) : Mop fun _ => none := ⟨.load, plainLoad name, rfl⟩

def threeLoadsList : MopList fun _ => none where
  mops := [loadMop 0, loadMop 1, loadMop 2]
  nodup := by decide

/-- The narrow loads are redundant and cover each other. -/
theorem threeLoads_circle :
    ¬LeadsToKept (pipelineRun threeLoads [0] wideLast threeLoadsList false false id)
      threeLoadsList := by
  intro h
  apply h.acyclic (loadMop 0) List.mem_cons_self (by decide)
  have hthere : Points (getCoveringMop
      (pipelineRun threeLoads [0] wideLast threeLoadsList false false id))
      (plainLoad 0) (plainLoad 1) := by
    unfold Points
    decide
  have hback : Points (getCoveringMop
      (pipelineRun threeLoads [0] wideLast threeLoadsList false false id))
      (plainLoad 1) (plainLoad 0) := by
    unfold Points
    decide
  exact (TransGen.single hthere).tail hback

theorem leadsToKept_iff_threeLoads :
    LeadsToKept (pipelineRun threeLoads [0] wideLast threeLoadsList false false id)
        threeLoadsList ↔
      CirclesEntered (pipelineCandidates wideLast threeLoadsList false id)
        (pipelineEdges threeLoads [0] wideLast threeLoadsList false false id) :=
  leadsToKept_iff fun l => List.Perm.refl l

end Mair.MopIr
