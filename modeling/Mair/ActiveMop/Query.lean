import Mair.ActiveMop.Exactness
import Mair.Ir.Execution

/-! # The activity query

The scan within a block, the query over the solved analysis, and what a positive answer
says about the paths between two operations. -/

namespace Mair.ActiveMop

open Ir Dataflow Occurrence

/-! ## Scans within a block -/

/-- The instructions visited from the first one by `getNextNonDebugInstruction`. -/
def nonDebugFrom : List Instruction → List Instruction
  | [] => []
  | inst :: rest => inst :: rest.filter fun i => !i.isDbgInfo

/-- The overload without orderings; `none` is the `llvm_unreachable` at its end. -/
def isActiveInTheSameBlock (toI : Instruction) : List Instruction → Option Bool
  | [] => none
  | inst :: rest =>
      if inst = toI then some true
      else if isClobberingCall inst then some false
      else isActiveInTheSameBlock toI rest

/-- The overload with orderings. -/
def isActiveInTheSameBlockOrdered (toI : Instruction) (acq : Bool) :
    Bool → Bool → List Instruction → Option Bool
  | _, _, [] => none
  | hasAcq, hasRel, inst :: rest =>
      if inst = toI then some true
      else if isClobberingCall inst then some false
      else
        let order := getAtomicInsnOrder inst hasAcq hasRel
        if acq && order.1 || !acq && order.2 then some false
        else isActiveInTheSameBlockOrdered toI acq order.1 order.2 rest

def isOneActiveToAnotherInTheSameBlock (usedForTsan acq : Bool) (insts : List Instruction)
    (toI : Instruction) : Option Bool :=
  if usedForTsan then isActiveInTheSameBlockOrdered toI acq false false (nonDebugFrom insts)
  else isActiveInTheSameBlock toI (nonDebugFrom insts)

/-- What `getFirstNonPHIOrDbgOrLifetime` skips. -/
def isPhiOrDbgOrLifetime (inst : Instruction) : Bool :=
  match inst.opcode with
  | .phi => true
  | .call callBase =>
      callBase.kind = .dbgInfo || callBase.kind = .pseudoProbe || callBase.kind = .lifetime
  | _ => false

/-! ## The query -/

section Query

variable {β : Type*} [DecidableEq β]

def getParent (f : Function β) (inst : Instruction) : Option β :=
  f.blocks.find? fun b => inst ∈ f.insts b

/-- The listed operations lie in more than one block. -/
def suitableToAnalyze (f : Function β) (mops : List Instruction) : Bool :=
  match mops with
  | [] => false
  | m :: _ => mops.any fun i => getParent f i ≠ getParent f m

/-- The constructor of the analysis; `none` leaves `Analyzed` false. -/
def activeMopAnalysis (f : Function β) (mops : List Instruction) (usedForTsan : Bool)
    (order : List β) : Option (State β (Lattice mops.length usedForTsan)) :=
  if suitableToAnalyze f mops then
    dataflowAnalyze f mops usedForTsan order (analysisFuel f mops)
  else none

/-- `isMopActiveAfter` and `isMopActiveBefore` apply this to `OUT` and `IN`. -/
def isActiveAt {numMops : ℕ} {usedForTsan : Bool} (a : Lattice numMops usedForTsan)
    (id : Fin numMops) (acq : Bool) : Bool :=
  if usedForTsan then a.isActiveOrdered id acq else a.isActive id

/-- The query once the blocks of both operations are known. -/
def queryBlocks (f : Function β) (mops : List Instruction) (usedForTsan : Bool)
    (order : List β) (fromI toI : Instruction) (acq : Bool) (fromBB toBB : β) : Option Bool :=
  let fromOn := (f.insts fromBB).dropWhile fun i => i ≠ fromI
  match activeMopAnalysis f mops usedForTsan order with
  | none => isOneActiveToAnotherInTheSameBlock usedForTsan acq fromOn toI
  | some s =>
      (mopId mops fromI).bind fun id =>
        if isActiveAt (s.out toBB) id acq then some true
        else if fromBB = toBB then
          isOneActiveToAnotherInTheSameBlock usedForTsan acq fromOn toI
        else if !isActiveAt (s.inn toBB) id acq then some false
        else
          isOneActiveToAnotherInTheSameBlock usedForTsan acq
            ((f.insts toBB).dropWhile isPhiOrDbgOrLifetime) toI

/-- `none` is a failed assertion or lookup. -/
def isOneMopActiveToAnother (f : Function β) (mops : List Instruction) (usedForTsan : Bool)
    (order : List β) (fromI toI : Instruction) (isToDead : Bool) : Option Bool :=
  (getParent f fromI).bind fun fromBB =>
    (getParent f toI).bind fun toBB =>
      queryBlocks f mops usedForTsan order fromI toI (!isToDead) fromBB toBB

end Query

/-! ## What the scans establish -/

/-- A clobbering call or, in TSan mode, a barrier of the queried kind. -/
def isBarrier (usedForTsan acq : Bool) (inst : Instruction) : Bool :=
  isClobberingCall inst || (usedForTsan && if acq then isAcquire inst else isRelease inst)

section Scans

variable {usedForTsan acq : Bool} {toI : Instruction}

theorem isBarrier_of_mop {inst : Instruction} (h : isInterestingMop inst = true) :
    isBarrier usedForTsan acq inst = false := by
  cases acq <;> simp [isBarrier, isClobberingCall_eq_false_of_mop h, isAcquire_eq_false_of_mop h,
    isRelease_eq_false_of_mop h]

theorem getOrder_of_call {inst : Instruction} (h : inst.isCall = true) :
    getOrder inst = .notAtomic := by
  unfold Instruction.isCall at h
  unfold getOrder
  cases hop : inst.opcode <;> simp [hop] at h ⊢

theorem isBarrier_of_dbgInfo {inst : Instruction} (h : inst.isDbgInfo = true) :
    isBarrier usedForTsan acq inst = false := by
  have hcall : inst.isCall = true := by
    unfold Instruction.isDbgInfo at h
    unfold Instruction.isCall
    cases hop : inst.opcode <;> simp [hop] at h ⊢
  cases acq <;> simp [isBarrier, isClobberingCall, h, isAcquire, isRelease, getAtomicInsnOrder,
    getOrder_of_call hcall]

/-- `toI` is found with no barrier in front of it. -/
def ClearUntil (usedForTsan acq : Bool) (toI : Instruction) (insts : List Instruction) : Prop :=
  ∃ before after, insts = before ++ toI :: after ∧
    ∀ i ∈ before, isBarrier usedForTsan acq i = false

theorem clearUntil_cons {inst : Instruction} {rest : List Instruction}
    (hinst : isBarrier usedForTsan acq inst = false)
    (h : ClearUntil usedForTsan acq toI rest) : ClearUntil usedForTsan acq toI (inst :: rest) := by
  obtain ⟨before, after, rfl, hclear⟩ := h
  refine ⟨inst :: before, after, rfl, ?_⟩
  intro i hi
  rcases List.mem_cons.mp hi with rfl | hi
  · exact hinst
  · exact hclear i hi

/-- Skipped debug intrinsics are no barriers. -/
theorem clearUntil_of_nonDebug {insts : List Instruction}
    (h : ClearUntil usedForTsan acq toI (insts.filter fun i => !i.isDbgInfo)) :
    ClearUntil usedForTsan acq toI insts := by
  induction insts with
  | nil => exact h
  | cons inst insts ih =>
      cases hdbg : inst.isDbgInfo with
      | true =>
          simp only [List.filter_cons, hdbg, Bool.not_true, Bool.false_eq_true, if_false] at h
          exact clearUntil_cons (isBarrier_of_dbgInfo hdbg) (ih h)
      | false =>
          simp only [List.filter_cons, hdbg, Bool.not_false, if_true] at h
          obtain ⟨before, after, heq, hclear⟩ := h
          cases before with
          | nil =>
              rw [List.nil_append, List.cons.injEq] at heq
              exact ⟨[], insts, by rw [heq.1]; rfl, by simp⟩
          | cons i before =>
              rw [List.cons_append, List.cons.injEq] at heq
              obtain ⟨rfl, heq⟩ := heq
              refine clearUntil_cons (hclear inst List.mem_cons_self) (ih ⟨before, after, heq, ?_⟩)
              exact fun j hj => hclear j (List.mem_cons_of_mem _ hj)

theorem clearUntil_of_plain {insts : List Instruction}
    (h : isActiveInTheSameBlock toI insts = some true) :
    ClearUntil false acq toI insts := by
  induction insts with
  | nil => simp [isActiveInTheSameBlock] at h
  | cons inst rest ih =>
      rw [isActiveInTheSameBlock] at h
      split at h
      · next heq => exact ⟨[], rest, by rw [heq]; rfl, by simp⟩
      · split at h
        · cases h
        · next hcall => exact clearUntil_cons (by simpa [isBarrier] using hcall) (ih h)

theorem clearUntil_of_ordered {insts : List Instruction} {hasAcq hasRel : Bool}
    (h : isActiveInTheSameBlockOrdered toI acq hasAcq hasRel insts = some true) :
    ClearUntil true acq toI insts := by
  induction insts generalizing hasAcq hasRel with
  | nil => simp [isActiveInTheSameBlockOrdered] at h
  | cons inst rest ih =>
      rw [isActiveInTheSameBlockOrdered] at h
      split at h
      · next heq => exact ⟨[], rest, by rw [heq]; rfl, by simp⟩
      · split at h
        · cases h
        · next hcall =>
            simp only [getAtomicInsnOrder_eq] at h
            split at h
            · cases h
            · next horder =>
                refine clearUntil_cons ?_ (ih h)
                cases acq <;> simp_all [isBarrier]

theorem clearUntil_of_scan {insts : List Instruction}
    (h : isOneActiveToAnotherInTheSameBlock usedForTsan acq insts toI = some true) :
    ClearUntil usedForTsan acq toI insts := by
  have hfiltered : ClearUntil usedForTsan acq toI (nonDebugFrom insts) := by
    unfold isOneActiveToAnotherInTheSameBlock at h
    cases usedForTsan with
    | false => exact clearUntil_of_plain h
    | true => exact clearUntil_of_ordered h
  cases insts with
  | nil => exact hfiltered
  | cons inst rest =>
      obtain ⟨before, after, heq, hclear⟩ := hfiltered
      cases before with
      | nil =>
          rw [nonDebugFrom, List.nil_append, List.cons.injEq] at heq
          exact ⟨[], rest, by rw [heq.1]; rfl, by simp⟩
      | cons i before =>
          rw [nonDebugFrom, List.cons_append, List.cons.injEq] at heq
          obtain ⟨rfl, heq⟩ := heq
          refine clearUntil_cons (hclear inst List.mem_cons_self) (clearUntil_of_nonDebug ?_)
          exact ⟨before, after, heq, fun j hj => hclear j (List.mem_cons_of_mem _ hj)⟩

/-- What precedes `toI` is passed instruction by instruction. -/
theorem ClearUntil.of_cons {inst : Instruction} {rest : List Instruction}
    (h : ClearUntil usedForTsan acq toI (inst :: rest)) (hne : inst ≠ toI) :
    isBarrier usedForTsan acq inst = false ∧ ClearUntil usedForTsan acq toI rest := by
  obtain ⟨before, after, heq, hclear⟩ := h
  cases before with
  | nil =>
      rw [List.nil_append, List.cons.injEq] at heq
      exact absurd heq.1 hne
  | cons i before =>
      rw [List.cons_append, List.cons.injEq] at heq
      rw [heq.1]
      exact ⟨hclear i List.mem_cons_self, before, after, heq.2,
        fun j hj => hclear j (List.mem_cons_of_mem _ hj)⟩

theorem ClearUntil.not_nil : ¬ClearUntil usedForTsan acq toI [] := by
  intro h
  obtain ⟨before, after, heq, -⟩ := h
  simp at heq

theorem plain_of_clearUntil {insts : List Instruction} (h : ClearUntil false acq toI insts) :
    isActiveInTheSameBlock toI insts = some true := by
  induction insts with
  | nil => exact absurd h ClearUntil.not_nil
  | cons inst rest ih =>
      rw [isActiveInTheSameBlock]
      by_cases heq : inst = toI
      · rw [if_pos heq]
      · obtain ⟨hclear, hrest⟩ := h.of_cons heq
        have hcall : isClobberingCall inst = false := by simpa [isBarrier] using hclear
        rw [if_neg heq, if_neg (by simp [hcall]), ih hrest]

theorem ordered_of_clearUntil {insts : List Instruction} {hasAcq hasRel : Bool}
    (hflag : (if acq then hasAcq else hasRel) = false) (h : ClearUntil true acq toI insts) :
    isActiveInTheSameBlockOrdered toI acq hasAcq hasRel insts = some true := by
  induction insts generalizing hasAcq hasRel with
  | nil => exact absurd h ClearUntil.not_nil
  | cons inst rest ih =>
      rw [isActiveInTheSameBlockOrdered]
      by_cases heq : inst = toI
      · rw [if_pos heq]
      · obtain ⟨hclear, hrest⟩ := h.of_cons heq
        have hcall : isClobberingCall inst = false := by
          cases hc : isClobberingCall inst with
          | false => rfl
          | true => simp [isBarrier, hc] at hclear
        rw [if_neg heq, if_neg (by simp [hcall])]
        simp only [getAtomicInsnOrder_eq]
        have horder : (if acq then hasAcq || isAcquire inst else hasRel || isRelease inst) =
            false := by
          cases acq <;> simp_all [isBarrier]
        rw [if_neg, ih horder hrest]
        cases acq <;> simpa using horder

theorem ClearUntil.nonDebug {insts : List Instruction} (hto : toI.isDbgInfo = false)
    (h : ClearUntil usedForTsan acq toI insts) :
    ClearUntil usedForTsan acq toI (nonDebugFrom insts) := by
  cases insts with
  | nil => exact h
  | cons inst rest =>
      obtain ⟨before, after, heq, hclear⟩ := h
      cases before with
      | nil =>
          rw [List.nil_append, List.cons.injEq] at heq
          exact ⟨[], rest.filter fun i => !i.isDbgInfo, by rw [nonDebugFrom, heq.1]; rfl, by simp⟩
      | cons i before =>
          rw [List.cons_append, List.cons.injEq] at heq
          obtain ⟨rfl, rfl⟩ := heq
          refine ⟨inst :: before.filter fun i => !i.isDbgInfo,
            after.filter fun i => !i.isDbgInfo, ?_, ?_⟩
          · simp [nonDebugFrom, hto]
          · intro j hj
            apply hclear
            rcases List.mem_cons.mp hj with rfl | hj
            · exact List.mem_cons_self
            · exact List.mem_cons_of_mem _ (List.mem_of_mem_filter hj)

/-- The scan answers yes exactly when it meets `toI` before any barrier. -/
theorem scan_iff {insts : List Instruction} (hto : toI.isDbgInfo = false) :
    isOneActiveToAnotherInTheSameBlock usedForTsan acq insts toI = some true ↔
      ClearUntil usedForTsan acq toI insts := by
  constructor
  · exact clearUntil_of_scan
  · intro h
    have hvisited := h.nonDebug hto
    unfold isOneActiveToAnotherInTheSameBlock
    cases usedForTsan with
    | false => exact plain_of_clearUntil hvisited
    | true => exact ordered_of_clearUntil (by cases acq <;> rfl) hvisited

end Scans

/-! ## What the analysis establishes -/

section Analysis

variable {β : Type*} [DecidableEq β] {f : Function β} {mops : List Instruction}
  {usedForTsan acq : Bool} {order : List β} {fromI toI : Instruction} {id : Fin mops.length}
  {s : State β (Lattice mops.length usedForTsan)}

theorem isActiveAt_iff {numMops : ℕ} {a : Lattice numMops usedForTsan} {id : Fin numMops} :
    isActiveAt a id acq = true ↔ id ∈ a.reachable ∧ id ∉ a.notActive ∧
      (usedForTsan = true → id ∉ if acq then a.anyAcq else a.anyRel) := by
  unfold isActiveAt
  cases usedForTsan with
  | false => simp [isActive_iff]
  | true => simp [isActiveOrdered_iff, isActive_iff, and_assoc]

theorem isBarrier_eq_false_iff {inst : Instruction} :
    isBarrier usedForTsan acq inst = false ↔ isClobberingCall inst = false ∧
      (usedForTsan = true → (if acq then isAcquire inst else isRelease inst) = false) := by
  cases usedForTsan <;> simp [isBarrier]

theorem analysis_solution (horder : ∀ b, b ∈ order ↔ f.ReachableBlock b)
    (h : activeMopAnalysis f mops usedForTsan order = some s) :
    Solution (activeSystem f mops usedForTsan) s := by
  obtain ⟨s', hdrain, hsolution⟩ : ∃ s,
      (∀ fuel, analysisFuel f mops ≤ fuel →
        dataflowAnalyze f mops usedForTsan order fuel = some s) ∧
      Solution (activeSystem f mops usedForTsan) s :=
    solve_spec (activeSystem f mops usedForTsan) Lattice.ranked horder
  unfold activeMopAnalysis at h
  split at h
  · rw [hdrain _ le_rfl, Option.some.injEq] at h
    rwa [← h]
  · cases h

/-- `fromI` reaches `b`, and on no path to `b` a barrier follows its last execution. -/
structure ActiveFacts (f : Function β) (usedForTsan acq : Bool) (fromI : Instruction) (b : β) :
    Prop where
  reached : ∃ p, f.PathFrom f.entry p b ∧ fromI ∈ f.trace p
  clear : ∀ p, f.PathFrom f.entry p b → ∀ pre post, LastSplit fromI (f.trace p) pre post →
    ∀ i ∈ post, isBarrier usedForTsan acq i = false

theorem reachable_of_isActiveAt_inn (hsolution : Solution (activeSystem f mops usedForTsan) s)
    {b : β} (h : isActiveAt (s.inn b) id acq = true) : f.ReachableBlock b := by
  by_contra hb
  rw [(hsolution.bot b hb).1, isActiveAt_iff] at h
  simp at h

theorem reachable_of_isActiveAt_out (hsolution : Solution (activeSystem f mops usedForTsan) s)
    {b : β} (h : isActiveAt (s.out b) id acq = true) : f.ReachableBlock b := by
  by_contra hb
  rw [(hsolution.bot b hb).2, isActiveAt_iff] at h
  simp at h

theorem activeFacts_of_inn (hsolution : Solution (activeSystem f mops usedForTsan) s)
    (hid : markedId mops fromI = some id) {b : β} (h : isActiveAt (s.inn b) id acq = true) :
    ActiveFacts f usedForTsan acq fromI b := by
  have hexact := entryExact_of_solution hsolution hid (reachable_of_isActiveAt_inn hsolution h)
  obtain ⟨hreach, hcall, horder⟩ := isActiveAt_iff.mp h
  refine ⟨hexact.reachable.mp hreach, ?_⟩
  intro p hp pre post hsplit i hi
  have hmem := List.mem_cons_of_mem fromI hi
  refine isBarrier_eq_false_iff.mpr
    ⟨free_after_last (mt hexact.notActive.mpr hcall) hp hsplit i hmem, ?_⟩
  intro ht
  have hnot := horder ht
  cases acq with
  | false => exact free_after_last (mt (hexact.anyRel ht).mpr hnot) hp hsplit i hmem
  | true => exact free_after_last (mt (hexact.anyAcq ht).mpr hnot) hp hsplit i hmem

/-- A bit that the block does not generate is clear after the block only if it was clear
before and the block has no barrier. -/
theorem notMem_throughBlock {numMops : ℕ} {invariant : BlockInvariant numMops}
    {id : Fin numMops} {contains : Bool} {gen reachable barrier : Finset (Fin numMops)}
    (huse : id ∈ invariant.notUseGen) (hreach : id ∈ reachable)
    (h : id ∉ throughBlock invariant contains gen reachable barrier) :
    contains = false ∧ id ∉ barrier := by
  rw [throughBlock, Finset.mem_union, Finset.mem_inter, not_or, not_and'] at h
  have hnot := h.1 huse
  cases contains with
  | false => exact ⟨rfl, by simpa using hnot⟩
  | true => exact absurd hreach (by simpa using hnot)

theorem eq_false_of_contains {p : Instruction → Bool} {contains : Bool}
    {insts : List Instruction} (hcontains : contains = true ↔ ∃ i ∈ insts, p i = true)
    (h : contains = false) : ∀ i ∈ insts, p i = false := by
  intro i hi
  by_contra hp
  rw [hcontains.mpr ⟨i, hi, by simpa using hp⟩] at h
  cases h

/-- Activity behind a block without `fromI` is activity in front of it, and the block has
no barrier. -/
theorem isActiveAt_transfer (hid : markedId mops fromI = some id)
    {a : Lattice mops.length usedForTsan} {insts : List Instruction} (hnot : fromI ∉ insts)
    (h : isActiveAt (transfer (getInitializedBlockInfo mops usedForTsan insts) a) id acq = true) :
    isActiveAt a id acq = true ∧ ∀ i ∈ insts, isBarrier usedForTsan acq i = false := by
  have huse := (@mem_notUseGen_iff mops usedForTsan _ _ hid insts).mpr hnot
  obtain ⟨hreach, hcall, horder⟩ := isActiveAt_iff.mp h
  rw [transfer_reachable, Finset.mem_union, mem_useGen_iff hid] at hreach
  have hreach := hreach.resolve_right hnot
  rw [transfer_notActive] at hcall
  obtain ⟨hnocall, hcall⟩ := notMem_throughBlock huse hreach hcall
  have hclear := eq_false_of_contains (scanBlock_containsCall insts) hnocall
  cases usedForTsan with
  | false =>
      refine ⟨isActiveAt_iff.mpr ⟨hreach, hcall, by simp⟩, ?_⟩
      intro i hi
      exact isBarrier_eq_false_iff.mpr ⟨hclear i hi, by simp⟩
  | true =>
      have hnot := horder rfl
      cases acq with
      | false =>
          rw [if_neg (by decide), transfer_anyRel] at hnot
          obtain ⟨hnorel, hnot⟩ := notMem_throughBlock huse hreach hnot
          refine ⟨isActiveAt_iff.mpr ⟨hreach, hcall, fun _ => hnot⟩, ?_⟩
          intro i hi
          exact isBarrier_eq_false_iff.mpr
            ⟨hclear i hi, fun _ => eq_false_of_contains (scanBlock_containsRel insts) hnorel i hi⟩
      | true =>
          rw [if_pos rfl, transfer_anyAcq] at hnot
          obtain ⟨hnoacq, hnot⟩ := notMem_throughBlock huse hreach hnot
          refine ⟨isActiveAt_iff.mpr ⟨hreach, hcall, fun _ => hnot⟩, ?_⟩
          intro i hi
          exact isBarrier_eq_false_iff.mpr
            ⟨hclear i hi, fun _ => eq_false_of_contains (scanBlock_containsAcq insts) hnoacq i hi⟩

theorem eq_false_of_not_sinceLast {p : Instruction → Bool} {m : Instruction}
    {tr pre post : List Instruction} (h : ¬SinceLast p m tr) (hsplit : LastSplit m tr pre post) :
    ∀ i ∈ post, p i = false := by
  intro i hi
  by_contra hp
  exact h ⟨pre, post, hsplit, i, List.mem_cons_of_mem _ hi, by simpa using hp⟩

omit [DecidableEq β] in
/-- Activity behind the block of `fromI` says that no barrier follows it in the block. -/
theorem clear_of_isActiveAt_own (hid : markedId mops fromI = some id)
    {a : Lattice mops.length usedForTsan} {b : β} {before after : List Instruction}
    (hb : f.insts b = before ++ fromI :: after)
    (h : isActiveAt (transfer (getInitializedBlockInfo mops usedForTsan (f.insts b)) a) id acq =
      true) : ∀ i ∈ after, isBarrier usedForTsan acq i = false := by
  have hsplit : LastSplit fromI (f.insts b) before after := ⟨hb, (Function.notMem_split hb).2⟩
  obtain ⟨-, hcall, horder⟩ := isActiveAt_iff.mp h
  rw [transfer_notActive, throughBlock, Finset.mem_union, not_or] at hcall
  have hclear := eq_false_of_not_sinceLast
    (mt (mem_scanBlock_gen hid (f.nodup b)).mpr hcall.2) hsplit
  intro i hi
  refine isBarrier_eq_false_iff.mpr ⟨hclear i hi, ?_⟩
  rintro rfl
  have hnot := horder rfl
  cases acq with
  | false =>
      rw [if_neg (by decide), transfer_anyRel, throughBlock, Finset.mem_union, not_or] at hnot
      exact eq_false_of_not_sinceLast
        (mt (mem_scanBlock_genRel hid (f.nodup b)).mpr hnot.2) hsplit i hi
  | true =>
      rw [if_pos rfl, transfer_anyAcq, throughBlock, Finset.mem_union, not_or] at hnot
      exact eq_false_of_not_sinceLast
        (mt (mem_scanBlock_genAcq hid (f.nodup b)).mpr hnot.2) hsplit i hi

end Analysis

end Mair.ActiveMop
