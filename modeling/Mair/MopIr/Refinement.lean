import Mair.ActiveMop.Dominance
import Mair.MopIr.Selection

/-! # The pipeline against the reducer

Both collect the same edges, except that the pipeline never lets a read stand for a write, and
both answer for the greedy selection of what they collected. -/

namespace Mair.MopIr

open Ir ActiveMop Recurrence Kernels

/-! ## The activity query does not depend on the other candidates -/

section Setting

variable {β : Type*} [DecidableEq β] {f : Function β} {order : List β} {state : MOPState}
  {insts : List Instruction} {isTsan ignoreCalls : Bool}

/-- `isOneMopActiveToAnother` of the analysis built for the listed operations. -/
def activity (f : Function β) (order : List β) (isTsan : Bool) (mops : List Instruction)
    (fromI toI : Instruction) (isToDead : Bool) : Bool :=
  isOneMopActiveToAnother f mops isTsan order fromI toI isToDead = some true

/-- The function holds the operations, `order` lists its reachable blocks, and inside a block
the trees follow the order of the instructions. -/
structure Setting (f : Function β) (order : List β) (state : MOPState)
    (insts : List Instruction) : Prop where
  order : ∀ b, b ∈ order ↔ f.ReachableBlock b
  located : ∀ m ∈ insts, ∃ b, m ∈ f.insts b
  dominates : ∀ b a c, a ∈ f.insts b → c ∈ f.insts b → state.dominates a c = true →
    ∃ before between after, f.insts b = before ++ a :: (between ++ c :: after)
  postDominates : ∀ b a c, a ∈ f.insts b → c ∈ f.insts b → state.postDominates a c = true →
    ∃ before between after, f.insts b = before ++ c :: (between ++ a :: after)

theorem activity_congr (horder : ∀ b, b ∈ order ↔ f.ReachableBlock b) {fromI toI : Instruction}
    {bf bt : β} (hmop : isInterestingMop fromI = true) (hmop' : isInterestingMop toI = true)
    (hfrom : fromI ∈ f.insts bf) (hto : toI ∈ f.insts bt)
    (hsame : bf = bt → ∃ before between after,
      f.insts bt = before ++ fromI :: (between ++ toI :: after))
    {mops mops' : List Instruction} (hmem : fromI ∈ mops ∧ toI ∈ mops)
    (hmem' : fromI ∈ mops' ∧ toI ∈ mops') (isToDead : Bool) :
    activity f order isTsan mops fromI toI isToDead =
      activity f order isTsan mops' fromI toI isToDead := by
  apply Bool.eq_iff_iff.mpr
  simp only [activity, decide_eq_true_eq]
  by_cases hb : bf = bt
  · obtain ⟨before, between, after, hsplit⟩ := hsame hb
    rw [query_iff_of_same horder hmop hmop' hmem.1 hsplit,
      query_iff_of_same horder hmop hmop' hmem'.1 hsplit]
  · obtain ⟨before, after, hsplit⟩ := List.append_of_mem hfrom
    obtain ⟨before', after', hsplit'⟩ := List.append_of_mem hto
    rw [query_iff_of_ne horder hmop hmop' hmem.1 hmem.2 hsplit hsplit' hb,
      query_iff_of_ne horder hmop hmop' hmem'.1 hmem'.2 hsplit hsplit' hb]

/-! ## Edges of the reducer -/

theorem mem_collectEdges_iff {e : Edge} {writeSensitive : Bool} :
    e ∈ Recurrence.collectEdges state insts writeSensitive ↔
      e.killing ∈ insts ∧ e.dead ∈ insts ∧ e.killing ≠ e.dead ∧ e.blocked = false ∧
        state.isMopCheckRecurring e.killing e.dead writeSensitive = some e.fromI := by
  simp only [Recurrence.collectEdges, List.mem_flatMap, List.mem_filterMap]
  constructor
  · intro h
    obtain ⟨killing, hk, dead, hd, hedge⟩ := h
    by_cases hne : killing = dead
    · simp [hne] at hedge
    · rw [if_neg hne, Option.map_eq_some_iff] at hedge
      obtain ⟨fromI, hfrom, rfl⟩ := hedge
      exact ⟨hk, hd, hne, rfl, hfrom⟩
  · intro h
    obtain ⟨hk, hd, hne, hb, hfrom⟩ := h
    refine ⟨e.killing, hk, e.dead, hd, ?_⟩
    rw [if_neg hne, hfrom, Option.map_some, ← hb]

theorem isMopCheckRecurring_from {killing dead fromI : Instruction} {writeSensitive : Bool}
    (h : state.isMopCheckRecurring killing dead writeSensitive = some fromI) :
    (state.dominates killing dead = true ∧ fromI = killing) ∨
      (state.postDominates killing dead = true ∧ fromI = dead) := by
  unfold MOPState.isMopCheckRecurring at h
  cases hdom : state.dominates killing dead with
  | true => simp_all
  | false =>
      cases hpdom : state.postDominates killing dead with
      | true => simp_all
      | false => simp_all

/-- The blocked flag of an edge is the same for any two lists of candidates with its ends. -/
theorem blockEdge_congr (hset : Setting f order state insts) {e : Edge} {writeSensitive : Bool}
    (he : e ∈ Recurrence.collectEdges state insts writeSensitive)
    {mops mops' : List Instruction} (hmem : e.killing ∈ mops ∧ e.dead ∈ mops)
    (hmem' : e.killing ∈ mops' ∧ e.dead ∈ mops') :
    blockEdge (activity f order isTsan mops) e = blockEdge (activity f order isTsan mops') e := by
  obtain ⟨hk, hd, hne, -, hrec⟩ := mem_collectEdges_iff.mp he
  obtain ⟨hmopK, hmopD⟩ := isMopCheckRecurring_mop hrec
  obtain ⟨bk, hbk⟩ := hset.located _ hk
  obtain ⟨bd, hbd⟩ := hset.located _ hd
  simp only [blockEdge, Edge.mk.injEq, true_and]
  congr 1
  cases isMopCheckRecurring_from hrec with
  | inl hdom =>
      simp only [hdom.2, decide_true, if_true]
      apply activity_congr hset.order hmopK hmopD hbk hbd _ hmem hmem'
      intro heq
      exact hset.dominates bd _ _ (heq ▸ hbk) hbd hdom.1
  | inr hpdom =>
      have hfalse : decide (e.fromI = e.killing) = false := by
        simp [hpdom.2, Ne.symm hne]
      rw [hfalse]
      simp only [Bool.false_eq_true, if_false, hpdom.2]
      apply activity_congr hset.order hmopD hmopK hbd hbk _ hmem.symm hmem'.symm
      intro heq
      exact hset.postDominates bk _ _ hbk (heq ▸ hbd) hpdom.1

end Setting

/-! ## Edges of the pipeline -/

section Edges

variable {callType : Instruction → Option MopType} {state : MOPState} {writeSensitive : Bool}

/-- A read that would stand for a write. -/
def readToWrite (e : Edge) : Bool :=
  !Recurrence.isWrite e.killing && Recurrence.isWrite e.dead

theorem isWrite_eq {mop : Mop callType} (h : isInterestingMop mop.originalInst = true) :
    mop.isWrite = Recurrence.isWrite mop.originalInst := by
  obtain ⟨-, hatomic, hmop⟩ := (isInterestingMop_iff _).mp h
  have hcreated := mop.created
  unfold createMop at hcreated
  unfold Instruction.isStore Instruction.isLoad at hmop
  unfold Instruction.isAtomic at hatomic
  unfold Mop.isWrite Recurrence.isWrite checkMode Instruction.isVolatile Instruction.isLoad
    Instruction.mayWriteToMemory
  cases hop : mop.originalInst.opcode with
  | load isVolatile order scope =>
      simp only [hop, Option.some.injEq, decide_eq_false_iff_not, not_not] at hcreated hatomic
      subst hatomic
      cases isVolatile <;> simp [← hcreated, AtomicOrdering.rank]
  | store isVolatile order scope =>
      simp only [hop, Option.some.injEq] at hcreated
      simp [← hcreated]
  | _ => simp [hop] at hmop

/-- The edge that the reducer makes of a pair. -/
def reducerEdge (state : MOPState) (writeSensitive : Bool) (killing dead : Instruction) :
    Option Edge :=
  if killing = dead then none
  else (state.isMopCheckRecurring killing dead writeSensitive).map fun fromI =>
    ⟨killing, dead, fromI, false⟩

theorem edgeOf_eq {killing dead : Mop callType}
    (h : isInterestingMop killing.originalInst = true) :
    edgeOf state writeSensitive killing dead =
      (reducerEdge state writeSensitive killing.originalInst dead.originalInst).filter
        fun e => !readToWrite e := by
  rw [edgeOf, reducerEdge]
  by_cases hne : killing.originalInst = dead.originalInst
  · simp [hne]
  · rw [if_neg hne, if_neg hne]
    cases h' : isInterestingMop dead.originalInst with
    | false => simp [MOPState.isMopCheckRecurring, h']
    | true =>
        rw [MOPState.isMopCheckRecurring, isMopCheckRecurring, isWrite_eq h, isWrite_eq h', h, h']
        cases hk : Recurrence.isWrite killing.originalInst with
        | true =>
            cases state.dominates killing.originalInst dead.originalInst <;>
              cases state.postDominates killing.originalInst dead.originalInst <;>
                cases state.isAccessRangeContains killing.originalInst dead.originalInst <;>
                  simp [Option.filter, readToWrite, hk]
        | false =>
            cases hd : Recurrence.isWrite dead.originalInst with
            | true =>
                cases writeSensitive <;>
                  cases state.dominates killing.originalInst dead.originalInst <;>
                    cases state.postDominates killing.originalInst dead.originalInst <;>
                      cases state.isAccessRangeContains killing.originalInst
                        dead.originalInst <;>
                        simp [Option.filter, readToWrite, hk, hd]
            | false =>
                cases state.dominates killing.originalInst dead.originalInst <;>
                  cases state.postDominates killing.originalInst dead.originalInst <;>
                    cases state.isAccessRangeContains killing.originalInst
                      dead.originalInst <;>
                      simp [Option.filter, readToWrite, hk, hd]

theorem reducerEdge_of_not_mop {killing dead : Instruction} (h : isInterestingMop killing = false) :
    reducerEdge state writeSensitive killing dead = none := by
  simp [reducerEdge, MOPState.isMopCheckRecurring, h]

theorem collectEdges_eq (list : MopList callType) :
    collectEdges state list.mops writeSensitive =
      (Recurrence.collectEdges state list.insts writeSensitive).filter
        fun e => !readToWrite e := by
  rw [collectEdges, Recurrence.collectEdges, MopList.insts, List.flatMap_map, List.filter_flatMap]
  congr 1
  funext killing
  rw [List.filterMap_map, List.filter_filterMap]
  cases h : isInterestingMop killing.originalInst with
  | true =>
      simp only [Bool.not_true, Bool.false_eq_true, if_false]
      congr 1
      funext dead
      exact edgeOf_eq h
  | false =>
      symm
      rw [Bool.not_false, if_pos rfl, List.filterMap_eq_nil_iff]
      intro dead _
      change Option.filter _ (reducerEdge state writeSensitive killing.originalInst _) = none
      rw [reducerEdge_of_not_mop h, Option.filter_none]

end Edges

/-! ## The operations that are no candidates and a selection of the candidates -/

section Kept

variable {insts candidates : List Instruction} {edges : List Edge}

noncomputable def keptOf (insts candidates : List Instruction) (edges : List Edge) :
    List Instruction :=
  (insts.filter fun i => i ∉ candidates) ++ sourcesFirst (Step edges) candidates

theorem keptOf_nodup (hinsts : insts.Nodup) : (keptOf insts candidates edges).Nodup := by
  apply List.nodup_append.mpr
  refine ⟨hinsts.filter _, sourcesFirst_nodup, ?_⟩
  intro a ha b hb heq
  have hout := (List.mem_filter.mp ha).2
  rw [decide_eq_true_eq, heq] at hout
  exact hout (mem_of_mem_sourcesFirst hb)

theorem keptOf_dominates : Dominates (Step edges) (keptOf insts candidates edges) insts := by
  intro m hm
  by_cases hcand : m ∈ candidates
  · obtain ⟨k, hk, hreach⟩ := @sourcesFirst_dominates _ (Step edges) candidates m hcand
    exact ⟨k, List.mem_append_right _ hk, hreach⟩
  · have hout : m ∈ insts.filter fun i => i ∉ candidates := by
      simp [hm, hcand]
    exact ⟨m, List.mem_append_left _ hout, Relation.ReflTransGen.refl⟩

theorem reversible_insts_iff (hinside : EdgesInside candidates edges)
    (hsub : ∀ m ∈ candidates, m ∈ insts) :
    Reversible (Step edges) insts ↔ Reversible (Step edges) candidates :=
  reversible_iff_of_isolated hsub fun _ _ hm => isIsolated_of_notMem hinside hm

theorem isKernel_keptOf (hinside : EdgesInside candidates edges) (hinsts : insts.Nodup)
    (hsub : ∀ m ∈ candidates, m ∈ insts) (hrev : Reversible (Step edges) insts) :
    IsKernel (Step edges) insts (keptOf insts candidates edges) := by
  have hkernel := isKernel_sourcesFirst ((reversible_insts_iff hinside hsub).mp hrev)
  apply hkernel.extend (hinsts.filter _)
  · intro m hm
    have hout := (List.mem_filter.mp hm).2
    exact isIsolated_of_notMem hinside (by simpa using hout)
  · intro m hm
    have hout := (List.mem_filter.mp hm).2
    simpa using hout
  · intro m
    by_cases hcand : m ∈ candidates
    · simp [hcand, hsub m hcand]
    · simp [hcand]

end Kept

/-! ## What both keep -/

section Runs

variable {β : Type*} [DecidableEq β] {callType : Instruction → Option MopType}
  (f : Function β) (order : List β) (state : MOPState) (list : MopList callType)
  (isTsan ignoreCalls : Bool) (hashOrder : List Instruction → List Instruction)

def reducerEdges : List Edge :=
  Recurrence.finalEdges state (activity f order isTsan) list.insts isTsan ignoreCalls

def reducerKept : List Instruction :=
  distillRecurringChecks state (activity f order isTsan) list.insts isTsan ignoreCalls

def pipelineCandidates : List Instruction :=
  smallPtrSetOrder hashOrder (candidatesOf (collectEdges state list.mops isTsan))

def pipelineEdges : List Edge :=
  finalEdges (activity f order isTsan) (pipelineCandidates state list isTsan hashOrder)
    (collectEdges state list.mops isTsan) ignoreCalls

def pipelineRun : Redundancy :=
  buildRecurringGraphAndFindDominatingSet state (activity f order isTsan) hashOrder list isTsan
    ignoreCalls

def pipelineKept : List Instruction :=
  (unmarked (pipelineRun f order state list isTsan ignoreCalls hashOrder) list).map
    Mop.originalInst

variable {f order state list isTsan ignoreCalls hashOrder}

theorem candidatesOf_map_blockEdge (isActive : Instruction → Instruction → Bool → Bool)
    (edges : List Edge) : candidatesOf (edges.map (blockEdge isActive)) = candidatesOf edges := by
  rw [candidatesOf, List.foldl_map]
  rfl

theorem candidatesOf_reducerEdges :
    candidatesOf (reducerEdges f order state list isTsan ignoreCalls) =
      candidatesOf (Recurrence.collectEdges state list.insts isTsan) := by
  rw [reducerEdges, Recurrence.finalEdges]
  cases ignoreCalls with
  | true => rfl
  | false => exact candidatesOf_map_blockEdge _ _

theorem perm_smallPtrSetOrder (hhash : ∀ l, (hashOrder l).Perm l) (set : List Instruction) :
    (smallPtrSetOrder hashOrder set).Perm set := by
  rw [smallPtrSetOrder]
  split
  · exact List.Perm.refl _
  · exact hhash _

theorem pipelineCandidates_nodup (hhash : ∀ l, (hashOrder l).Perm l) :
    (pipelineCandidates state list isTsan hashOrder).Nodup :=
  (perm_smallPtrSetOrder hhash _).nodup_iff.mpr (candidatesOf_nodup _)

theorem mem_pipelineCandidates_iff (hhash : ∀ l, (hashOrder l).Perm l) {m : Instruction} :
    m ∈ pipelineCandidates state list isTsan hashOrder ↔
      m ∈ candidatesOf (collectEdges state list.mops isTsan) :=
  (perm_smallPtrSetOrder hhash _).mem_iff

theorem pipelineEdges_eq (hset : Setting f order state list.insts)
    (hhash : ∀ l, (hashOrder l).Perm l) :
    pipelineEdges f order state list isTsan ignoreCalls hashOrder =
      (reducerEdges f order state list isTsan ignoreCalls).filter fun e => !readToWrite e := by
  rw [pipelineEdges, reducerEdges, finalEdges, Recurrence.finalEdges]
  cases ignoreCalls with
  | true => simp [collectEdges_eq]
  | false =>
      have hmap : ∀ edges : List Edge, (if !false && !edges.isEmpty then
            edges.map (blockEdge (activity f order isTsan
              (pipelineCandidates state list isTsan hashOrder))) else edges) =
          edges.map (blockEdge (activity f order isTsan
            (pipelineCandidates state list isTsan hashOrder))) := by
        intro edges
        cases edges <;> rfl
      rw [hmap, if_neg Bool.false_ne_true, List.filter_map]
      have hkeep : (fun e => !readToWrite e) ∘ blockEdge (activity f order isTsan
            (candidatesOf (Recurrence.collectEdges state list.insts isTsan))) =
          fun e => !readToWrite e := rfl
      rw [hkeep, collectEdges_eq]
      apply List.map_congr_left
      intro e he
      have hinside := edgesInside_candidatesOf _ e he
      rw [← collectEdges_eq] at hinside
      have he' := (List.mem_filter.mp he).1
      apply blockEdge_congr hset he' _ (edgesInside_candidatesOf _ e he')
      rw [mem_pipelineCandidates_iff hhash, mem_pipelineCandidates_iff hhash]
      exact hinside

theorem pipelineEdges_inside (hhash : ∀ l, (hashOrder l).Perm l) :
    EdgesInside (pipelineCandidates state list isTsan hashOrder)
      (pipelineEdges f order state list isTsan ignoreCalls hashOrder) := by
  have hcollected : EdgesInside (pipelineCandidates state list isTsan hashOrder)
      (collectEdges state list.mops isTsan) := by
    intro e he
    rw [mem_pipelineCandidates_iff hhash, mem_pipelineCandidates_iff hhash]
    exact edgesInside_candidatesOf _ e he
  rw [pipelineEdges, finalEdges]
  split
  · intro e he
    obtain ⟨e', he', rfl⟩ := List.mem_map.mp he
    exact hcollected e' he'
  · exact hcollected

theorem mem_insts_of_candidate {m : Instruction}
    (h : m ∈ candidatesOf (Recurrence.collectEdges state list.insts isTsan)) :
    m ∈ list.insts := by
  obtain ⟨e, he, hm⟩ := mem_candidatesOf_iff.mp h
  obtain ⟨hk, hd, -⟩ := mem_collectEdges_iff.mp he
  cases hm with
  | inl heq => exact heq ▸ hk
  | inr heq => exact heq ▸ hd

theorem candidate_of_pipeline (hhash : ∀ l, (hashOrder l).Perm l) {m : Instruction}
    (h : m ∈ pipelineCandidates state list isTsan hashOrder) :
    m ∈ candidatesOf (Recurrence.collectEdges state list.insts isTsan) := by
  rw [mem_pipelineCandidates_iff hhash, collectEdges_eq] at h
  obtain ⟨e, he, hm⟩ := mem_candidatesOf_iff.mp h
  exact mem_candidatesOf_iff.mpr ⟨e, (List.mem_filter.mp he).1, hm⟩

/-- With fewer than two operations there is no edge. -/
theorem reducerKept_eq_distillEdges :
    reducerKept f order state list isTsan ignoreCalls =
      distillEdges list.insts (reducerEdges f order state list isTsan ignoreCalls) := by
  rw [reducerKept, distillRecurringChecks]
  split
  · next hlen =>
      have hnone : Recurrence.collectEdges state list.insts isTsan = [] := by
        apply List.eq_nil_iff_forall_not_mem.mpr
        intro e he
        obtain ⟨hk, hd, hne, -⟩ := mem_collectEdges_iff.mp he
        cases hl : list.insts with
        | nil =>
            rw [hl] at hk
            cases hk
        | cons m rest =>
            have hrest : rest = [] := by
              rw [hl, List.length_cons] at hlen
              exact List.eq_nil_of_length_eq_zero (by omega)
            rw [hl, hrest, List.mem_singleton] at hk hd
            exact hne (hk.trans hd.symm)
      rw [distillEdges_eq, candidatesOf_reducerEdges, hnone]
      simp [candidatesOf, sourcesFirst, greedy]
  · rfl

theorem reducerKept_eq :
    reducerKept f order state list isTsan ignoreCalls =
      keptOf list.insts (candidatesOf (Recurrence.collectEdges state list.insts isTsan))
        (reducerEdges f order state list isTsan ignoreCalls) := by
  rw [reducerKept_eq_distillEdges, distillEdges_eq, candidatesOf_reducerEdges, keptOf]

theorem dominatingSet_eq (hhash : ∀ l, (hashOrder l).Perm l) :
    (pipelineRun f order state list isTsan ignoreCalls hashOrder).dominatingSet =
      sourcesFirst (Step (pipelineEdges f order state list isTsan ignoreCalls hashOrder))
          (pipelineCandidates state list isTsan hashOrder) ++
        list.insts.filter fun i => i ∉ pipelineCandidates state list isTsan hashOrder := by
  rw [← dominatingVertices_eq (pipelineEdges_inside hhash) (pipelineCandidates_nodup hhash)]
  rfl

theorem pipelineKept_perm (hhash : ∀ l, (hashOrder l).Perm l) :
    (pipelineKept f order state list isTsan ignoreCalls hashOrder).Perm
      (keptOf list.insts (pipelineCandidates state list isTsan hashOrder)
        (pipelineEdges f order state list isTsan ignoreCalls hashOrder)) := by
  have hkept : pipelineKept f order state list isTsan ignoreCalls hashOrder =
      list.insts.filter fun i =>
        i ∈ (pipelineRun f order state list isTsan ignoreCalls hashOrder).dominatingSet := by
    rw [pipelineKept, unmarked, MopList.insts, List.filter_map]
    congr 1
    apply List.filter_congr
    intro mop _
    simp [isRedundant]
  have hsub : ∀ m ∈ pipelineCandidates state list isTsan hashOrder, m ∈ list.insts :=
    fun m hm => mem_insts_of_candidate (candidate_of_pipeline hhash hm)
  rw [hkept, dominatingSet_eq hhash]
  apply (List.perm_ext_iff_of_nodup (list.nodup.filter _) (keptOf_nodup list.nodup)).mpr
  intro m
  rw [List.mem_filter, decide_eq_true_eq, List.mem_append, keptOf, List.mem_append, or_comm]
  constructor
  · exact And.right
  · intro h
    refine ⟨?_, h⟩
    cases h with
    | inl hout => exact (List.mem_filter.mp hout).1
    | inr hpicked => exact hsub m (mem_of_mem_sourcesFirst hpicked)

/-! ## Refinement -/

variable (f order state list isTsan ignoreCalls) in
/-- Whatever the order of the hash table, the two runs cover the same operations and keep
equally many. -/
def Refines : Prop :=
  ∀ hashOrder : List Instruction → List Instruction, (∀ l, (hashOrder l).Perm l) →
    (∀ m ∈ list.insts,
      (∃ k ∈ reducerKept f order state list isTsan ignoreCalls, Relation.ReflTransGen
          (Step (reducerEdges f order state list isTsan ignoreCalls)) k m) ↔
        ∃ k ∈ pipelineKept f order state list isTsan ignoreCalls hashOrder,
          Relation.ReflTransGen
            (Step (pipelineEdges f order state list isTsan ignoreCalls hashOrder)) k m) ∧
    (reducerKept f order state list isTsan ignoreCalls).length =
      (pipelineKept f order state list isTsan ignoreCalls hashOrder).length

variable (f order state list isTsan ignoreCalls) in
/-- The coverings of the reducer without those of a write by a read. -/
def alignedEdges : List Edge :=
  (reducerEdges f order state list isTsan ignoreCalls).filter fun e => !readToWrite e

theorem reducerKept_dominates :
    Dominates (Step (reducerEdges f order state list isTsan ignoreCalls))
      (reducerKept f order state list isTsan ignoreCalls) list.insts := by
  rw [reducerKept_eq]
  exact keptOf_dominates

theorem pipelineKept_dominates (hhash : ∀ l, (hashOrder l).Perm l) :
    Dominates (Step (pipelineEdges f order state list isTsan ignoreCalls hashOrder))
      (pipelineKept f order state list isTsan ignoreCalls hashOrder) list.insts := by
  intro m hm
  obtain ⟨k, hk, hreach⟩ := @keptOf_dominates list.insts
    (pipelineCandidates state list isTsan hashOrder)
    (pipelineEdges f order state list isTsan ignoreCalls hashOrder) m hm
  exact ⟨k, (pipelineKept_perm hhash).mem_iff.mpr hk, hreach⟩

/-- Both runs keep operations that cover every operation, so only the numbers can differ. -/
theorem refines_iff_length :
    Refines f order state list isTsan ignoreCalls ↔
      ∀ hashOrder : List Instruction → List Instruction, (∀ l, (hashOrder l).Perm l) →
        (reducerKept f order state list isTsan ignoreCalls).length =
          (pipelineKept f order state list isTsan ignoreCalls hashOrder).length := by
  constructor
  · intro h hashOrder hhash
    exact (h hashOrder hhash).2
  · intro h hashOrder hhash
    refine ⟨?_, h hashOrder hhash⟩
    intro m hm
    exact iff_of_true (reducerKept_dominates m hm) (pipelineKept_dominates hhash m hm)

theorem isKernel_reducerKept
    (hrev : Reversible (Step (reducerEdges f order state list isTsan ignoreCalls)) list.insts) :
    IsKernel (Step (reducerEdges f order state list isTsan ignoreCalls)) list.insts
      (reducerKept f order state list isTsan ignoreCalls) := by
  have hinside := edgesInside_candidatesOf (reducerEdges f order state list isTsan ignoreCalls)
  rw [candidatesOf_reducerEdges] at hinside
  rw [reducerKept_eq]
  exact isKernel_keptOf hinside list.nodup (fun _ hm => mem_insts_of_candidate hm) hrev

theorem exists_kernel_of_pipeline (hset : Setting f order state list.insts)
    (hhash : ∀ l, (hashOrder l).Perm l)
    (hrev : Reversible (Step (alignedEdges f order state list isTsan ignoreCalls)) list.insts) :
    ∃ ks, IsKernel (Step (alignedEdges f order state list isTsan ignoreCalls)) list.insts ks ∧
      ks.length = (pipelineKept f order state list isTsan ignoreCalls hashOrder).length := by
  refine ⟨_, ?_, (pipelineKept_perm hhash).length_eq.symm⟩
  have hedges := @pipelineEdges_eq _ _ _ f order state list isTsan ignoreCalls hashOrder hset hhash
  rw [hedges]
  apply isKernel_keptOf _ list.nodup _ hrev
  · have hinside := @pipelineEdges_inside _ _ _ f order state list isTsan ignoreCalls hashOrder
      hhash
    rwa [hedges] at hinside
  · exact fun m hm => mem_insts_of_candidate (candidate_of_pipeline hhash hm)

theorem step_of_aligned {a b : Instruction}
    (h : Step (alignedEdges f order state list isTsan ignoreCalls) a b) :
    Step (reducerEdges f order state list isTsan ignoreCalls) a b := by
  obtain ⟨e, he, hends⟩ := h
  exact ⟨e, (List.mem_filter.mp he).1, hends⟩

theorem reducer_step_mem {a b : Instruction}
    (h : Step (reducerEdges f order state list isTsan ignoreCalls) a b) : a ∈ list.insts := by
  have hinside := edgesInside_candidatesOf (reducerEdges f order state list isTsan ignoreCalls)
  rw [candidatesOf_reducerEdges] at hinside
  exact mem_insts_of_candidate (hinside.of_step h).1

theorem mem_insts_of_reach {a b : Instruction} (hb : b ∈ list.insts)
    (h : Relation.ReflTransGen (Step (reducerEdges f order state list isTsan ignoreCalls)) a b) :
    a ∈ list.insts := by
  cases Relation.ReflTransGen.cases_head h with
  | inl heq => exact heq ▸ hb
  | inr hhead =>
      obtain ⟨c, hstep, -⟩ := hhead
      exact reducer_step_mem hstep

theorem collectEdges_of_aligned
    (haligned : ∀ e ∈ Recurrence.collectEdges state list.insts isTsan, readToWrite e = false) :
    collectEdges state list.mops isTsan =
      Recurrence.collectEdges state list.insts isTsan := by
  rw [collectEdges_eq]
  apply List.filter_eq_self.mpr
  intro e he
  rw [haligned e he, Bool.not_false]

theorem alignedEdges_of_aligned
    (haligned : ∀ e ∈ Recurrence.collectEdges state list.insts isTsan, readToWrite e = false) :
    alignedEdges f order state list isTsan ignoreCalls =
      reducerEdges f order state list isTsan ignoreCalls := by
  apply List.filter_eq_self.mpr
  intro e he
  have hkeep : readToWrite e = false := by
    rw [reducerEdges, Recurrence.finalEdges] at he
    cases ignoreCalls with
    | true => exact haligned e he
    | false =>
        obtain ⟨e', he', rfl⟩ := List.mem_map.mp he
        exact haligned e' he'
  rw [hkeep, Bool.not_false]

/-- The two runs keep equally many operations when the two orders of the candidates select
equally many of them. -/
theorem length_eq_iff_of_aligned (hset : Setting f order state list.insts)
    (haligned : ∀ e ∈ Recurrence.collectEdges state list.insts isTsan, readToWrite e = false)
    (hhash : ∀ l, (hashOrder l).Perm l) :
    (reducerKept f order state list isTsan ignoreCalls).length =
        (pipelineKept f order state list isTsan ignoreCalls hashOrder).length ↔
      (sourcesFirst (Step (reducerEdges f order state list isTsan ignoreCalls))
          (candidatesOf (Recurrence.collectEdges state list.insts isTsan))).length =
        (sourcesFirst (Step (reducerEdges f order state list isTsan ignoreCalls))
          (smallPtrSetOrder hashOrder
            (candidatesOf (Recurrence.collectEdges state list.insts isTsan)))).length := by
  have hcands : pipelineCandidates state list isTsan hashOrder = smallPtrSetOrder hashOrder
      (candidatesOf (Recurrence.collectEdges state list.insts isTsan)) := by
    rw [pipelineCandidates, collectEdges_of_aligned haligned]
  have hout : (list.insts.filter fun i => i ∉ smallPtrSetOrder hashOrder
        (candidatesOf (Recurrence.collectEdges state list.insts isTsan))) =
      list.insts.filter fun i =>
        i ∉ candidatesOf (Recurrence.collectEdges state list.insts isTsan) := by
    apply List.filter_congr
    intro m _
    apply decide_eq_decide.mpr
    rw [(perm_smallPtrSetOrder hhash _).mem_iff]
  rw [reducerKept_eq, (pipelineKept_perm hhash).length_eq, pipelineEdges_eq hset hhash,
    ← alignedEdges, alignedEdges_of_aligned haligned, hcands, keptOf, keptOf, hout,
    List.length_append, List.length_append]
  exact Nat.add_left_cancel_iff

/-- A hash table that gives the set `set` the order `ws`. -/
def orderAs (set ws l : List Instruction) : List Instruction := if l = set then ws else l

theorem orderAs_perm {set ws : List Instruction} (hperm : ws.Perm set) (l : List Instruction) :
    (orderAs set ws l).Perm l := by
  rw [orderAs]
  split
  · next heq => exact heq ▸ hperm
  · exact List.Perm.refl _

/-- Without coverings of a write by a read the two runs see one graph. -/
theorem refines_iff_of_aligned (hset : Setting f order state list.insts)
    (haligned : ∀ e ∈ Recurrence.collectEdges state list.insts isTsan, readToWrite e = false) :
    Refines f order state list isTsan ignoreCalls ↔
      (candidatesOf (Recurrence.collectEdges state list.insts isTsan)).length ≤ 32 ∨
        Reversible (Step (reducerEdges f order state list isTsan ignoreCalls)) list.insts := by
  have hinside := edgesInside_candidatesOf (reducerEdges f order state list isTsan ignoreCalls)
  rw [candidatesOf_reducerEdges] at hinside
  rw [refines_iff_length]
  constructor
  · intro h
    rw [or_iff_not_imp_left]
    intro hlarge
    rw [reversible_insts_iff hinside fun _ hm => mem_insts_of_candidate hm]
    apply reversible_of_length_const
    · intro u v hv hreach
      cases Relation.ReflTransGen.cases_head hreach with
      | inl heq => exact heq ▸ hv
      | inr hhead =>
          obtain ⟨w, hstep, -⟩ := hhead
          exact (hinside.of_step hstep).1
    · intro ws hperm
      have hhash : ∀ l, (orderAs (candidatesOf (Recurrence.collectEdges state list.insts isTsan)) ws
          l).Perm l := orderAs_perm hperm
      have hlen := (length_eq_iff_of_aligned hset haligned hhash).mp (h _ hhash)
      rw [smallPtrSetOrder, if_neg hlarge, orderAs, if_pos rfl] at hlen
      exact hlen.symm
  · intro h hashOrder hhash
    rw [length_eq_iff_of_aligned hset haligned hhash]
    cases h with
    | inl hsmall => rw [smallPtrSetOrder, if_pos hsmall]
    | inr hrev =>
        rw [reversible_insts_iff hinside fun _ hm => mem_insts_of_candidate hm] at hrev
        exact (length_sourcesFirst_of_perm hrev (perm_smallPtrSetOrder hhash _)).symm

theorem refines_iff_of_reversible (hset : Setting f order state list.insts)
    (hrev : Reversible (Step (reducerEdges f order state list isTsan ignoreCalls)) list.insts)
    (hrev' : Reversible (Step (alignedEdges f order state list isTsan ignoreCalls)) list.insts) :
    Refines f order state list isTsan ignoreCalls ↔
      TopsKept (Step (reducerEdges f order state list isTsan ignoreCalls))
        (Step (alignedEdges f order state list isTsan ignoreCalls)) list.insts := by
  have hfiner : ∀ a b, Step (alignedEdges f order state list isTsan ignoreCalls) a b →
      Step (reducerEdges f order state list isTsan ignoreCalls) a b :=
    fun _ _ => step_of_aligned
  have hclosed : ∀ u v, v ∈ list.insts → Relation.ReflTransGen
      (Step (alignedEdges f order state list isTsan ignoreCalls)) u v → u ∈ list.insts :=
    fun u v hv h => mem_insts_of_reach hv (Relation.ReflTransGen.mono hfiner _ _ h)
  rw [refines_iff_length]
  constructor
  · intro h
    have hid : ∀ l : List Instruction, (id l).Perm l := fun l => List.Perm.refl l
    obtain ⟨ks, hkernel, hlen⟩ := exists_kernel_of_pipeline hset hid hrev'
    apply ((isKernel_reducerKept hrev).length_eq_iff hfiner hclosed hkernel).mp
    rw [h id hid, hlen]
  · intro htops hashOrder hhash
    obtain ⟨ks, hkernel, hlen⟩ := exists_kernel_of_pipeline hset hhash hrev'
    rw [← hlen]
    exact ((isKernel_reducerKept hrev).length_eq_iff hfiner hclosed hkernel).mpr htops

theorem not_readToWrite_of_tsan :
    ∀ e ∈ Recurrence.collectEdges state list.insts true, readToWrite e = false := by
  intro e he
  obtain ⟨-, -, -, -, hrec⟩ := mem_collectEdges_iff.mp he
  unfold MOPState.isMopCheckRecurring at hrec
  cases hk : Recurrence.isWrite e.killing with
  | true => simp [readToWrite, hk]
  | false =>
      cases hd : Recurrence.isWrite e.dead with
      | true => simp [hk, hd] at hrec
      | false => simp [readToWrite, hd]

/-- In TSan mode, and wherever no read covers a write, the pipeline refines the reducer exactly
when the candidates fit the inline set or their coverings are reversible. Between reversible
coverings it does exactly when no covering of a write by a read takes a check away. -/
theorem refines_iff (hset : Setting f order state list.insts) :
    ((isTsan = true ∨ ∀ e ∈ Recurrence.collectEdges state list.insts isTsan,
        readToWrite e = false) →
      (Refines f order state list isTsan ignoreCalls ↔
        (candidatesOf (Recurrence.collectEdges state list.insts isTsan)).length ≤ 32 ∨
          Reversible (Step (reducerEdges f order state list isTsan ignoreCalls)) list.insts)) ∧
    (Reversible (Step (reducerEdges f order state list isTsan ignoreCalls)) list.insts →
      Reversible (Step (alignedEdges f order state list isTsan ignoreCalls)) list.insts →
        (Refines f order state list isTsan ignoreCalls ↔
          TopsKept (Step (reducerEdges f order state list isTsan ignoreCalls))
            (Step (alignedEdges f order state list isTsan ignoreCalls)) list.insts)) := by
  constructor
  · intro h
    apply refines_iff_of_aligned hset
    cases h with
    | inl htsan =>
        subst htsan
        exact not_readToWrite_of_tsan
    | inr haligned => exact haligned
  · exact refines_iff_of_reversible hset

end Runs

/-! ## A wide load before a narrow store -/

def loadThenStore : Function (Fin 1) where
  blocks := [0]
  entry := 0
  insts := ![[plainLoad 0, plainStore 1]]
  succs := ![[]]
  complete := by decide
  nodup := by decide
  parent := by decide

/-- The load spans the bytes of the store and more. -/
def wideLoad : MOPState where
  dominates a b := a = plainLoad 0 && b = plainStore 1
  postDominates a b := a = plainStore 1 && b = plainLoad 0
  isAccessRangeContains a b := a = plainLoad 0 && b = plainStore 1

def loadAndStore : MopList fun _ => none where
  mops := [⟨.load, plainLoad 0, rfl⟩, ⟨.store, plainStore 1, rfl⟩]
  nodup := by decide

theorem loadThenStore_setting : Setting loadThenStore [0] wideLoad loadAndStore.insts where
  order b := by
    have hb : b = 0 := Subsingleton.elim b 0
    subst hb
    exact iff_of_true (by decide) ⟨[], .nil⟩
  located m hm := ⟨0, hm⟩
  dominates b a c _ _ h := by
    have hb : b = 0 := Subsingleton.elim b 0
    subst hb
    simp only [wideLoad, Bool.and_eq_true, decide_eq_true_eq] at h
    obtain ⟨rfl, rfl⟩ := h
    exact ⟨[], [], [], rfl⟩
  postDominates b a c _ _ h := by
    have hb : b = 0 := Subsingleton.elim b 0
    subst hb
    simp only [wideLoad, Bool.and_eq_true, decide_eq_true_eq] at h
    obtain ⟨rfl, rfl⟩ := h
    exact ⟨[], [], [], rfl⟩

/-- In ASan mode the reducer drops the check of the store, the pipeline keeps both. -/
theorem loadThenStore_not_refines :
    Setting loadThenStore [0] wideLoad loadAndStore.insts ∧
      ¬Refines loadThenStore [0] wideLoad loadAndStore false false := by
  refine ⟨loadThenStore_setting, ?_⟩
  rw [refines_iff_length]
  intro h
  have hlen := h id fun l => List.Perm.refl l
  revert hlen
  decide

theorem refines_iff_loadThenStore :
    ((false = true ∨ ∀ e ∈ Recurrence.collectEdges wideLoad loadAndStore.insts false,
        readToWrite e = false) →
      (Refines loadThenStore [0] wideLoad loadAndStore false false ↔
        (candidatesOf (Recurrence.collectEdges wideLoad loadAndStore.insts false)).length ≤ 32 ∨
          Reversible (Step (reducerEdges loadThenStore [0] wideLoad loadAndStore false false))
            loadAndStore.insts)) ∧
    (Reversible (Step (reducerEdges loadThenStore [0] wideLoad loadAndStore false false))
        loadAndStore.insts →
      Reversible (Step (alignedEdges loadThenStore [0] wideLoad loadAndStore false false))
        loadAndStore.insts →
        (Refines loadThenStore [0] wideLoad loadAndStore false false ↔
          TopsKept (Step (reducerEdges loadThenStore [0] wideLoad loadAndStore false false))
            (Step (alignedEdges loadThenStore [0] wideLoad loadAndStore false false))
            loadAndStore.insts)) :=
  refines_iff loadThenStore_setting

end Mair.MopIr
