import Mathlib.Data.List.TakeWhile
import Mair.ActiveMop.Query

/-! # The post-dominance direction

A check is dropped in favour of a later one behind it when no barrier lies between. The
query speaks about the last execution of the dropped operation, so loops that return to the
operation and the head of the block of the later one decide about all the others. -/

namespace Mair.ActiveMop

open Ir Dataflow Occurrence

/-! ## The condition -/

section Defs

variable {β : Type*} (f : Function β) (usedForTsan : Bool) (dead killing : Instruction)

/-- No execution of `dead` is followed by a call or an acquire before the next execution of
`killing`. -/
def WindowsClean : Prop :=
  ∀ mid, f.Window dead killing mid → ∀ i ∈ mid, isBarrier usedForTsan true i = false

/-- A cycle from `dead` back to `dead` that avoids `killing` has no call and no acquire. -/
def ReturnsClean : Prop :=
  ∀ b before after r, f.insts b = before ++ dead :: after → f.PathFrom b (b :: r) b →
    killing ∉ f.segment after r before →
      ∀ i ∈ f.segment after r before, isBarrier usedForTsan true i = false

/-- The instructions that the scan of the block of `killing` skips contain no call that
clobbers. -/
def HeadClean : Prop :=
  ∀ b, killing ∈ f.insts b → dead ∉ f.insts b →
    ∀ i ∈ (f.insts b).takeWhile isPhiOrDbgOrLifetime, isClobberingCall i = false

end Defs

/-! ## Segments and skipped heads -/

section Segments

variable {β : Type*} {f : Function β} {usedForTsan acq : Bool} {m : Instruction} {b : β}
  {before after before' after' : List Instruction}

/-- A segment through the block of `m` consists of two segments. -/
theorem segment_append (hb : f.insts b = before ++ m :: after) (u : List Instruction)
    (r r' : List β) (v : List Instruction) :
    f.segment u (r ++ b :: r') v = f.segment u r before ++ m :: f.segment after r' v := by
  simp only [Function.segment, Function.trace_append, Function.trace_cons, hb]
  simp

/-- A cycle back to `m` executes an operation of another block only by entering that block. -/
theorem notMem_return_iff {k : Instruction} {bk : β} (hb : f.insts b = before ++ m :: after)
    (hk : k ∈ f.insts bk) (hne : b ≠ bk) {r : List β} :
    k ∉ f.segment after r before ↔ bk ∉ r := by
  have hnot : k ∉ before ++ m :: after := fun h => hne (f.parent b bk k (by rwa [hb]) hk)
  simp only [List.mem_append, List.mem_cons, not_or] at hnot
  simp only [Function.segment, List.mem_append, hnot.1, hnot.2.2, or_false, false_or,
    Function.mem_trace_iff, not_exists, not_and]
  constructor
  · intro h hr
    exact h bk hr hk
  · intro h c hc hmem
    exact h (f.parent c bk k hmem hk ▸ hc)

theorem isPhiOrDbgOrLifetime_eq_false_of_mop (h : isInterestingMop m = true) :
    isPhiOrDbgOrLifetime m = false := by
  have hmop := ((isInterestingMop_iff m).mp h).2.2
  unfold Instruction.isStore Instruction.isLoad at hmop
  unfold isPhiOrDbgOrLifetime
  cases hop : m.opcode <;> simp [hop] at hmop ⊢

theorem isBarrier_of_skipped {inst : Instruction} (h : isPhiOrDbgOrLifetime inst = true)
    (hcall : isClobberingCall inst = false) : isBarrier usedForTsan acq inst = false := by
  have horder : getOrder inst = .notAtomic := by
    unfold isPhiOrDbgOrLifetime at h
    unfold getOrder
    cases hop : inst.opcode <;> simp [hop] at h ⊢
  cases acq <;> simp [isBarrier, hcall, isAcquire, isRelease, getAtomicInsnOrder, horder]

theorem takeWhile_of_mop (h : isInterestingMop m = true) (hb : f.insts b = before ++ m :: after) :
    (f.insts b).takeWhile isPhiOrDbgOrLifetime = before.takeWhile isPhiOrDbgOrLifetime := by
  rw [hb, List.takeWhile_append]
  split
  · next heq =>
      rw [List.takeWhile_cons_of_neg (by simp [isPhiOrDbgOrLifetime_eq_false_of_mop h])]
      rw [List.append_nil]
      exact ((List.takeWhile_prefix _).eq_of_length heq).symm
  · rfl

theorem dropWhile_of_mop (h : isInterestingMop m = true) (hb : f.insts b = before ++ m :: after) :
    (f.insts b).dropWhile isPhiOrDbgOrLifetime =
      before.dropWhile isPhiOrDbgOrLifetime ++ m :: after := by
  rw [hb, List.dropWhile_append]
  split
  · next heq =>
      rw [List.dropWhile_cons_of_neg (by simp [isPhiOrDbgOrLifetime_eq_false_of_mop h])]
      rw [List.isEmpty_iff.mp heq, List.nil_append]
  · rfl

theorem dropWhile_of_split (hb : f.insts b = before ++ m :: after) :
    ((f.insts b).dropWhile fun i => i ≠ m) = m :: after := by
  have hnot := (Function.notMem_split hb).1
  rw [hb, List.dropWhile_append_of_pos, List.dropWhile_cons_of_neg (by simp)]
  intro i hi
  have hne : i ≠ m := fun h => hnot (h ▸ hi)
  simpa using hne

/-- The scan of a block finds the operation that the block contains. -/
theorem clear_of_clearUntil {rest : List Instruction}
    (hsuffix : rest ++ m :: after <:+ f.insts b)
    (h : ClearUntil usedForTsan acq m (rest ++ m :: after)) :
    ∀ i ∈ rest, isBarrier usedForTsan acq i = false := by
  obtain ⟨u, v, huv, hclear⟩ := h
  obtain ⟨w, hw⟩ := hsuffix
  have hcut : f.insts b = (w ++ u) ++ m :: v := by rw [← hw, huv, List.append_assoc]
  have hcut' : f.insts b = (w ++ rest) ++ m :: after := by rw [← hw, List.append_assoc]
  have heq := (Function.split_unique hcut hcut').1
  rw [List.append_cancel_left_eq] at heq
  rwa [← heq]

end Segments

/-! ## What a positive answer establishes -/

section Answers

variable {β : Type*} [DecidableEq β] {f : Function β} {mops : List Instruction}
  {usedForTsan isToDead : Bool} {order : List β} {fromI toI : Instruction} {bf bt b : β}
  {before after before' after' between : List Instruction}

omit [DecidableEq β] in
theorem getParent_eq (h : fromI ∈ f.insts b) : getParent f fromI = some b := by
  unfold getParent
  cases hfind : f.blocks.find? fun b => fromI ∈ f.insts b with
  | none =>
      have hnot := List.find?_eq_none.mp hfind b (f.complete b)
      exact absurd h (by simpa using hnot)
  | some c =>
      have hc := List.find?_some hfind
      rw [f.parent c b fromI (by simpa using hc) h]

theorem isOneMopActiveToAnother_eq (hfrom : fromI ∈ f.insts bf) (hto : toI ∈ f.insts bt) :
    isOneMopActiveToAnother f mops usedForTsan order fromI toI isToDead =
      queryBlocks f mops usedForTsan order fromI toI (!isToDead) bf bt := by
  rw [isOneMopActiveToAnother, getParent_eq hfrom, getParent_eq hto]
  rfl

/-- Across blocks a positive answer speaks about the entry of the second block and about the
instructions in front of the second operation, the skipped ones aside. -/
theorem answer_of_ne (horder : ∀ b, b ∈ order ↔ f.ReachableBlock b)
    (hmop : isInterestingMop fromI = true) (hmop' : isInterestingMop toI = true)
    (hfrom : f.insts bf = before ++ fromI :: after) (hto : f.insts bt = before' ++ toI :: after')
    (hne : bf ≠ bt)
    (h : isOneMopActiveToAnother f mops usedForTsan order fromI toI isToDead = some true) :
    ActiveFacts f usedForTsan (!isToDead) fromI bt ∧
      ∀ i ∈ before'.dropWhile isPhiOrDbgOrLifetime,
        isBarrier usedForTsan (!isToDead) i = false := by
  rw [isOneMopActiveToAnother_eq (Function.mem_insts_of_split hfrom)
    (Function.mem_insts_of_split hto)] at h
  unfold queryBlocks at h
  cases hs : activeMopAnalysis f mops usedForTsan order with
  | none =>
      simp only [hs, dropWhile_of_split hfrom] at h
      obtain ⟨u, v, huv, -⟩ := clearUntil_of_scan h
      refine absurd (f.parent bf bt toI ?_ (Function.mem_insts_of_split hto)) hne
      rw [hfrom, huv]
      simp
  | some s =>
      have hsolution := analysis_solution horder hs
      simp only [hs] at h
      cases hid : mopId mops fromI with
      | none => simp [hid] at h
      | some id =>
          have hmarked := markedId_eq_some hmop hid
          rw [hid, Option.bind_some, if_neg hne] at h
          split at h
          · next hout =>
              have hnot : fromI ∉ f.insts bt := fun hmem =>
                hne (f.parent bf bt fromI (Function.mem_insts_of_split hfrom) hmem)
              have hreach := reachable_of_isActiveAt_out hsolution hout
              rw [hsolution.out_eq bt hreach] at hout
              obtain ⟨hinn, hclear⟩ := isActiveAt_transfer hmarked hnot hout
              refine ⟨activeFacts_of_inn hsolution hmarked hinn, ?_⟩
              intro i hi
              apply hclear i
              rw [hto]
              exact List.mem_append_left _ ((List.dropWhile_sublist _).subset hi)
          · split at h
            · cases h
            · next hinn =>
                rw [Bool.not_eq_true, Bool.not_eq_false'] at hinn
                refine ⟨activeFacts_of_inn hsolution hmarked hinn, ?_⟩
                have hscan := clearUntil_of_scan h
                rw [dropWhile_of_mop hmop' hto] at hscan
                have hsuffix : before'.dropWhile isPhiOrDbgOrLifetime ++ toI :: after' <:+
                    f.insts bt := by
                  rw [← dropWhile_of_mop hmop' hto]
                  exact List.dropWhile_suffix _
                exact clear_of_clearUntil hsuffix hscan

/-- Within a block a positive answer speaks about the instructions between the operations. -/
theorem answer_of_same (horder : ∀ b, b ∈ order ↔ f.ReachableBlock b)
    (hmop : isInterestingMop fromI = true)
    (hb : f.insts b = before ++ fromI :: (between ++ toI :: after))
    (h : isOneMopActiveToAnother f mops usedForTsan order fromI toI isToDead = some true) :
    ∀ i ∈ between, isBarrier usedForTsan (!isToDead) i = false := by
  have hcut : f.insts b = (before ++ fromI :: between) ++ toI :: after := by rw [hb]; simp
  have hscan : isOneActiveToAnotherInTheSameBlock usedForTsan (!isToDead)
      (fromI :: (between ++ toI :: after)) toI = some true →
      ∀ i ∈ between, isBarrier usedForTsan (!isToDead) i = false := by
    intro hscan i hi
    have hsuffix : (fromI :: between) ++ toI :: after <:+ f.insts b := ⟨before, hb.symm⟩
    exact clear_of_clearUntil hsuffix (clearUntil_of_scan hscan) i (List.mem_cons_of_mem _ hi)
  rw [isOneMopActiveToAnother_eq (Function.mem_insts_of_split hb)
    (Function.mem_insts_of_split hcut)] at h
  unfold queryBlocks at h
  rw [dropWhile_of_split hb] at h
  cases hs : activeMopAnalysis f mops usedForTsan order with
  | none => exact hscan (by simpa [hs] using h)
  | some s =>
      have hsolution := analysis_solution horder hs
      simp only [hs] at h
      cases hid : mopId mops fromI with
      | none => simp [hid] at h
      | some id =>
          rw [hid, Option.bind_some] at h
          split at h
          · next hout =>
              rw [hsolution.out_eq b (reachable_of_isActiveAt_out hsolution hout)] at hout
              intro i hi
              exact clear_of_isActiveAt_own (markedId_eq_some hmop hid) hb hout i
                (List.mem_append_left _ hi)
          · exact hscan (by simpa using h)

end Answers

/-! ## Every execution of the earlier operation -/

section Soundness

variable {β : Type*} {f : Function β} {usedForTsan : Bool} {dead killing : Instruction}
  {bd bk : β} {before after before' after' : List Instruction}

/-- The last execution of `dead` in a window is covered by the query, the earlier ones by the
cycles. -/
theorem windowsClean_of_returnsClean (hdead : f.insts bd = before ++ dead :: after)
    (hkill : f.insts bk = before' ++ killing :: after') (hne : bd ≠ bk)
    (hmop : isInterestingMop dead = true) (hfacts : ActiveFacts f usedForTsan true dead bk)
    (hbefore : ∀ i ∈ before', isBarrier usedForTsan true i = false)
    (hreturns : ReturnsClean f usedForTsan dead killing) :
    WindowsClean f usedForTsan dead killing := by
  intro mid hmid
  obtain ⟨⟨p, hp⟩, r, hr, hnot, rfl⟩ := (Function.window_iff_of_ne hdead hkill hne).mp hmid
  have hlast : ∀ r', f.PathFrom bd (bd :: r') bk → bd ∉ r' →
      ∀ i ∈ f.segment after r' before', isBarrier usedForTsan true i = false := by
    intro r' hr' hfree i hi
    have hdeadnot : dead ∉ after ++ f.trace r' := by
      rw [List.mem_append, Function.mem_trace_iff, not_or]
      refine ⟨(Function.notMem_split hdead).2, ?_⟩
      rintro ⟨b, hb, hmem⟩
      exact hfree (f.parent b bd dead hmem (Function.mem_insts_of_split hdead) ▸ hb)
    have hsplit : LastSplit dead (f.trace (p ++ bd :: r')) (f.trace p ++ before)
        (after ++ f.trace r') := by
      refine ⟨?_, hdeadnot⟩
      rw [Function.trace_append, Function.trace_cons, hdead]
      simp
    rcases List.mem_append.mp hi with hi | hi
    · exact hfacts.clear _ (hp.append hr') _ _ hsplit i hi
    · exact hbefore i hi
  by_cases hd : bd ∈ r
  · obtain ⟨r₁, r₂, rfl, hfree⟩ := exists_lastSplit hd
    rw [← List.cons_append] at hr
    obtain ⟨hreturn, hrest⟩ := hr.split_at
    have hnot₁ : killing ∉ f.segment after r₁ before :=
      (notMem_return_iff hdead (Function.mem_insts_of_split hkill) hne).mpr
        fun h => hnot (List.mem_append_left _ h)
    intro i hi
    rw [segment_append hdead, List.mem_append, List.mem_cons] at hi
    rcases hi with hi | rfl | hi
    · exact hreturns bd before after r₁ hdead hreturn hnot₁ i hi
    · exact isBarrier_of_mop hmop
    · exact hlast r₂ hrest hfree i hi
  · exact hlast r hr hd

/-- A cycle from `dead` back to `dead` lies in a window, as does the skipped head. -/
theorem returnsClean_of_windowsClean (hdead : f.insts bd = before ++ dead :: after)
    (hkill : f.insts bk = before' ++ killing :: after') (hne : bd ≠ bk)
    (hreached : ∃ p, f.PathFrom f.entry p bk ∧ dead ∈ f.trace p)
    (hclean : WindowsClean f usedForTsan dead killing) :
    ReturnsClean f usedForTsan dead killing ∧
      ∀ i ∈ before', isBarrier usedForTsan true i = false := by
  obtain ⟨p, hp, hmem⟩ := hreached
  obtain ⟨pre, post, hsplit⟩ := List.append_of_mem hmem
  obtain ⟨p₁, hp₁, -, ⟨-, hnil⟩ | ⟨p₂, hp₂, -⟩⟩ :=
    Function.trace_split hp (List.nil_prefix) hdead (by rwa [List.append_nil])
  · simp at hnil
  obtain ⟨q, hq, hfirst⟩ := hp₂.exists_first
  refine ⟨?_, ?_⟩
  · intro b u v r hb hr hnot i hi
    obtain rfl := f.parent b bd dead (Function.mem_insts_of_split hb)
      (Function.mem_insts_of_split hdead)
    obtain ⟨rfl, rfl⟩ := Function.split_unique hb hdead
    have hbk : bk ∉ r ++ b :: q := by
      rw [List.mem_append, List.mem_cons, not_or, not_or]
      exact ⟨(notMem_return_iff hdead (Function.mem_insts_of_split hkill) hne).mp hnot,
        hne.symm, hfirst⟩
    have hpath : f.PathFrom b (b :: (r ++ b :: q)) bk := by
      rw [← List.cons_append]
      exact hr.append hq
    refine hclean _ ((Function.window_iff_of_ne hdead hkill hne).mpr
      ⟨⟨p₁, hp₁⟩, _, hpath, hbk, rfl⟩) i ?_
    rw [segment_append hdead]
    exact List.mem_append_left _ hi
  · intro i hi
    exact hclean _ ((Function.window_iff_of_ne hdead hkill hne).mpr
      ⟨⟨p₁, hp₁⟩, q, hq, hfirst, rfl⟩) i (List.mem_append_right _ hi)

/-- Within one block there is neither a cycle around the later operation nor a skipped head. -/
theorem vacuous_of_same {b : β} {between : List Instruction}
    (hb : f.insts b = before ++ dead :: (between ++ killing :: after)) :
    ReturnsClean f usedForTsan dead killing ∧ HeadClean f dead killing := by
  constructor
  · intro c u v r hc _ hnot
    obtain rfl := f.parent c b dead (Function.mem_insts_of_split hc)
      (Function.mem_insts_of_split hb)
    obtain ⟨-, rfl⟩ := Function.split_unique hc hb
    exact absurd (by simp [Function.segment]) hnot
  · intro c hkill hnot
    have hmem : killing ∈ f.insts b := by rw [hb]; simp
    obtain rfl := f.parent c b killing hkill hmem
    exact absurd (Function.mem_insts_of_split hb) hnot

/-- When the query answers yes, no window of the pair has a call or an acquire if and only if
no cycle around the later operation has one and the skipped head has no clobbering call. -/
theorem postDominance_iff [DecidableEq β] (f : Function β) (mops : List Instruction)
    (usedForTsan : Bool) (order : List β) (horder : ∀ b, b ∈ order ↔ f.ReachableBlock b)
    (dead killing : Instruction) (hdead : isInterestingMop dead = true)
    (hkilling : isInterestingMop killing = true) (hpost : f.StrictlyPostDominates killing dead)
    (hquery : isOneMopActiveToAnother f mops usedForTsan order dead killing false = some true) :
    WindowsClean f usedForTsan dead killing ↔
      ReturnsClean f usedForTsan dead killing ∧ HeadClean f dead killing := by
  rcases hpost with ⟨bk, bd, hbk, hbd, hne, -⟩ | ⟨b, before, between, after, hb⟩
  · obtain ⟨before, after, hd⟩ := List.append_of_mem hbd
    obtain ⟨before', after', hk⟩ := List.append_of_mem hbk
    obtain ⟨hfacts, hrest⟩ := answer_of_ne horder hdead hkilling hd hk hne.symm hquery
    constructor
    · intro hclean
      obtain ⟨hreturns, hbefore⟩ :=
        returnsClean_of_windowsClean hd hk hne.symm hfacts.reached hclean
      refine ⟨hreturns, ?_⟩
      intro c hc _ i hi
      obtain rfl := f.parent c bk killing hc hbk
      rw [takeWhile_of_mop hkilling hk] at hi
      exact (isBarrier_eq_false_iff.mp (hbefore i ((List.takeWhile_sublist _).subset hi))).1
    · rintro ⟨hreturns, hhead⟩
      refine windowsClean_of_returnsClean hd hk hne.symm hdead hfacts ?_ hreturns
      intro i hi
      rw [← List.takeWhile_append_dropWhile (p := isPhiOrDbgOrLifetime) (l := before'),
        List.mem_append] at hi
      rcases hi with hi | hi
      · have hnot : dead ∉ f.insts bk := fun h => hne (f.parent bk bd dead h hbd)
        have hcall := hhead bk hbk hnot i (by rwa [takeWhile_of_mop hkilling hk])
        exact isBarrier_of_skipped (List.mem_takeWhile_imp hi) hcall
      · exact hrest i hi
  · refine iff_of_true ?_ (vacuous_of_same hb)
    intro mid hmid
    rw [Function.window_of_same hb hmid]
    exact answer_of_same horder hdead hb hquery

end Soundness

/-! ## The loop with a retried store -/

theorem retryLoop_postDominates :
    retryLoop.StrictlyPostDominates (plainStore 2) (plainStore 0) := by
  refine Or.inl ⟨3, 1, by decide, by decide, by decide, ?_⟩
  intro p c hp hc
  have hlast : c = 3 := by
    revert hc
    fin_cases c <;> simp [retryLoop]
  rw [hlast]
  simp

theorem retryLoop_query (usedForTsan : Bool) :
    isOneMopActiveToAnother retryLoop [plainStore 0, plainStore 2] usedForTsan [0, 1, 2, 3]
      (plainStore 0) (plainStore 2) false = some true := by
  cases usedForTsan <;> decide +kernel

theorem retryLoop_window :
    retryLoop.Window (plainStore 0) (plainStore 2) [plainCall 1, plainStore 0] := by
  have h1 : retryLoop.PathFrom 1 [1] 2 := Path.single (by decide)
  have h2 : retryLoop.PathFrom 1 [1, 2] 1 := h1.snoc (by decide)
  have h3 : retryLoop.PathFrom 1 [1, 2, 1] 3 := h2.snoc (by decide)
  have hfrom : retryLoop.insts 1 = [] ++ plainStore 0 :: [] := rfl
  have hto : retryLoop.insts 3 = [] ++ plainStore 2 :: [] := rfl
  exact (Function.window_iff_of_ne hfrom hto (by decide)).mpr
    ⟨retryLoop_reachable 1, [2, 1], h3, by decide, rfl⟩

/-- The first execution of the store is followed by the call, but only the second one is
active at the store behind the loop. -/
theorem postDominance_retryLoop_unsound :
    retryLoop.StrictlyPostDominates (plainStore 2) (plainStore 0) ∧
      ∀ usedForTsan,
        isOneMopActiveToAnother retryLoop [plainStore 0, plainStore 2] usedForTsan [0, 1, 2, 3]
            (plainStore 0) (plainStore 2) false = some true ∧
          ¬WindowsClean retryLoop usedForTsan (plainStore 0) (plainStore 2) := by
  refine ⟨retryLoop_postDominates, fun usedForTsan => ⟨retryLoop_query usedForTsan, ?_⟩⟩
  intro hclean
  have hcall := hclean _ retryLoop_window (plainCall 1) (by decide)
  revert hcall
  cases usedForTsan <;> decide

theorem postDominance_iff_retryLoop :
    WindowsClean retryLoop true (plainStore 0) (plainStore 2) ↔
      ReturnsClean retryLoop true (plainStore 0) (plainStore 2) ∧
        HeadClean retryLoop (plainStore 0) (plainStore 2) := by
  have horder : ∀ b, b ∈ [0, 1, 2, 3] ↔ retryLoop.ReachableBlock b := fun b =>
    iff_of_true (by fin_cases b <;> decide) (retryLoop_reachable b)
  exact postDominance_iff retryLoop [plainStore 0, plainStore 2] true [0, 1, 2, 3] horder
    (plainStore 0) (plainStore 2) (by decide) (by decide) retryLoop_postDominates
    (retryLoop_query true)

end Mair.ActiveMop
