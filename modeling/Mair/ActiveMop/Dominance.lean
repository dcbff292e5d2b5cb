import Mair.ActiveMop.PostDominance

/-! # The dominance direction

An operation that dominates another is active there when no barrier follows its last
execution. The query decides this by the solved analysis and by a scan that starts behind
the leading markers of the block. -/

namespace Mair.ActiveMop

open Ir Dataflow Occurrence

/-! ## The definition by instructions -/

section Defs

variable {β : Type*} (f : Function β) (usedForTsan : Bool) (fromI toI : Instruction)

/-- No call that clobbers and no release lies between the last execution of `fromI` and an
execution of `toI`. -/
def LastWindowsClean : Prop :=
  ∀ mid, f.LastWindow fromI toI mid → ∀ i ∈ fromI :: mid, isBarrier usedForTsan false i = false

/-- A barrier that both the analysis and the scan take into account. -/
def BlockedElsewhere : Prop :=
  ∃ b before after, f.insts b = before ++ toI :: after ∧ fromI ∉ f.insts b ∧
    ((∃ p, f.PathFrom f.entry p b ∧
        SinceLast (isBarrier usedForTsan false) fromI (f.trace p)) ∨
      ∃ i ∈ before.dropWhile isPhiOrDbgOrLifetime, isBarrier usedForTsan false i = true)

/-- Both operations lie in one block with no barrier between them. -/
def CleanWithin : Prop :=
  ∃ b before between after, f.insts b = before ++ fromI :: (between ++ toI :: after) ∧
    ∀ i ∈ between, isBarrier usedForTsan false i = false

end Defs

/-! ## When the query answers yes -/

section Answers

variable {β : Type*} [DecidableEq β] {f : Function β} {mops : List Instruction}
  {usedForTsan acq isToDead : Bool} {order : List β} {fromI toI : Instruction} {bf bt b : β}
  {before after before' after' between : List Instruction}

theorem isDbgInfo_of_mop (h : isInterestingMop toI = true) : toI.isDbgInfo = false := by
  have hskipped := isPhiOrDbgOrLifetime_eq_false_of_mop h
  unfold isPhiOrDbgOrLifetime at hskipped
  unfold Instruction.isDbgInfo
  cases hop : toI.opcode <;> simp_all

theorem suitableToAnalyze_of_ne (hfrom : fromI ∈ f.insts bf) (hto : toI ∈ f.insts bt)
    (hne : bf ≠ bt) (hmem : fromI ∈ mops) (hmem' : toI ∈ mops) :
    suitableToAnalyze f mops = true := by
  cases mops with
  | nil => cases hmem
  | cons m rest =>
      rw [suitableToAnalyze, List.any_eq_true]
      by_cases hm : getParent f fromI = getParent f m
      · refine ⟨toI, hmem', ?_⟩
        rw [← hm, getParent_eq hfrom, getParent_eq hto]
        simpa using hne.symm
      · exact ⟨fromI, hmem, by simpa using hm⟩

theorem exists_analysis (horder : ∀ b, b ∈ order ↔ f.ReachableBlock b)
    (hsuitable : suitableToAnalyze f mops = true) :
    ∃ s, activeMopAnalysis f mops usedForTsan order = some s := by
  obtain ⟨s, hdrain, -⟩ : ∃ s,
      (∀ fuel, analysisFuel f mops ≤ fuel →
        dataflowAnalyze f mops usedForTsan order fuel = some s) ∧
      Solution (activeSystem f mops usedForTsan) s :=
    solve_spec (activeSystem f mops usedForTsan) Lattice.ranked horder
  refine ⟨s, ?_⟩
  rw [activeMopAnalysis, if_pos hsuitable, hdrain _ le_rfl]

/-- What the paths say about the entry of a block is what the solution says there. -/
theorem inn_of_activeFacts {s : State β (Lattice mops.length usedForTsan)}
    {id : Fin mops.length} (hsolution : Solution (activeSystem f mops usedForTsan) s)
    (hmop : isInterestingMop fromI = true) (hid : markedId mops fromI = some id)
    (hfacts : ActiveFacts f usedForTsan acq fromI b) : isActiveAt (s.inn b) id acq = true := by
  obtain ⟨p, hp, hmem⟩ := hfacts.reached
  have hexact := entryExact_of_solution hsolution hid ⟨p, hp⟩
  have hnone : ∀ q : Instruction → Bool,
      (∀ i, isBarrier usedForTsan acq i = false → q i = false) →
        ¬∃ p, f.PathFrom f.entry p b ∧ SinceLast q fromI (f.trace p) := by
    intro q hq h
    obtain ⟨p, hp, pre, post, hsplit, i, hi, hqi⟩ := h
    have hclear : isBarrier usedForTsan acq i = false := by
      rcases List.mem_cons.mp hi with rfl | hi
      · exact isBarrier_of_mop hmop
      · exact hfacts.clear p hp pre post hsplit i hi
    rw [hq i hclear] at hqi
    cases hqi
  refine isActiveAt_iff.mpr ⟨hexact.reachable.mpr ⟨p, hp, hmem⟩, ?_, ?_⟩
  · apply mt hexact.notActive.mp
    exact hnone _ fun i hi => (isBarrier_eq_false_iff.mp hi).1
  · intro ht
    cases acq with
    | false =>
        apply mt (hexact.anyRel ht).mp
        exact hnone _ fun i hi => (isBarrier_eq_false_iff.mp hi).2 ht
    | true =>
        apply mt (hexact.anyAcq ht).mp
        exact hnone _ fun i hi => (isBarrier_eq_false_iff.mp hi).2 ht

/-- Across blocks the query answers yes exactly when the paths to the block of `toI` and the
instructions in front of it, the skipped ones aside, have no barrier. -/
theorem query_iff_of_ne (horder : ∀ b, b ∈ order ↔ f.ReachableBlock b)
    (hmop : isInterestingMop fromI = true) (hmop' : isInterestingMop toI = true)
    (hmem : fromI ∈ mops) (hmem' : toI ∈ mops) (hfrom : f.insts bf = before ++ fromI :: after)
    (hto : f.insts bt = before' ++ toI :: after') (hne : bf ≠ bt) :
    isOneMopActiveToAnother f mops usedForTsan order fromI toI isToDead = some true ↔
      ActiveFacts f usedForTsan (!isToDead) fromI bt ∧
        ∀ i ∈ before'.dropWhile isPhiOrDbgOrLifetime,
          isBarrier usedForTsan (!isToDead) i = false := by
  constructor
  · exact answer_of_ne horder hmop hmop' hfrom hto hne
  · intro h
    have hfrom' := Function.mem_insts_of_split hfrom
    have hto' := Function.mem_insts_of_split hto
    obtain ⟨s, hs⟩ := @exists_analysis _ _ f mops usedForTsan order horder
      (suitableToAnalyze_of_ne hfrom' hto' hne hmem hmem')
    obtain ⟨id, hid⟩ := exists_mopId hmem
    have hinn := inn_of_activeFacts (analysis_solution horder hs) hmop
      (markedId_eq_some hmop hid) h.1
    rw [isOneMopActiveToAnother_eq hfrom' hto', queryBlocks, hs]
    simp only [hid, Option.bind_some]
    rw [if_neg hne, hinn, dropWhile_of_mop hmop' hto]
    split
    · rfl
    · exact (scan_iff (isDbgInfo_of_mop hmop')).mpr ⟨_, _, rfl, h.2⟩

/-- Within a block the query answers yes exactly when nothing between the operations is a
barrier. -/
theorem query_iff_of_same (horder : ∀ b, b ∈ order ↔ f.ReachableBlock b)
    (hmop : isInterestingMop fromI = true) (hmop' : isInterestingMop toI = true)
    (hmem : fromI ∈ mops) (hb : f.insts b = before ++ fromI :: (between ++ toI :: after)) :
    isOneMopActiveToAnother f mops usedForTsan order fromI toI isToDead = some true ↔
      ∀ i ∈ between, isBarrier usedForTsan (!isToDead) i = false := by
  constructor
  · exact answer_of_same horder hmop hb
  · intro h
    have hcut : f.insts b = (before ++ fromI :: between) ++ toI :: after := by
      rw [hb]
      simp
    have hscan : isOneActiveToAnotherInTheSameBlock usedForTsan (!isToDead)
        (fromI :: (between ++ toI :: after)) toI = some true := by
      refine (scan_iff (isDbgInfo_of_mop hmop')).mpr ⟨fromI :: between, after, rfl, ?_⟩
      intro i hi
      rcases List.mem_cons.mp hi with rfl | hi
      · exact isBarrier_of_mop hmop
      · exact h i hi
    obtain ⟨id, hid⟩ := exists_mopId hmem
    rw [isOneMopActiveToAnother_eq (Function.mem_insts_of_split hb)
      (Function.mem_insts_of_split hcut), queryBlocks, dropWhile_of_split hb]
    cases activeMopAnalysis f mops usedForTsan order with
    | none => exact hscan
    | some s =>
        simp only [hid, Option.bind_some, if_pos, hscan]
        split <;> rfl

end Answers

/-! ## Agreement -/

section Agreement

variable {β : Type*} {f : Function β} {usedForTsan : Bool} {fromI toI : Instruction} {bf bt : β}
  {before after before' after' between : List Instruction}

theorem lastWindowsClean_iff_of_ne (hmop : isInterestingMop fromI = true)
    (hfrom : fromI ∈ f.insts bf) (hto : f.insts bt = before' ++ toI :: after') (hne : bf ≠ bt)
    (hdom : f.DominatesEntry fromI bt) (hreach : f.ReachableBlock bt) :
    LastWindowsClean f usedForTsan fromI toI ↔
      ActiveFacts f usedForTsan false fromI bt ∧
        ∀ i ∈ before', isBarrier usedForTsan false i = false := by
  constructor
  · intro hclean
    have hpath : ∀ p pre post, f.PathFrom f.entry p bt → LastSplit fromI (f.trace p) pre post →
        ∀ i ∈ post ++ before', isBarrier usedForTsan false i = false := by
      intro p pre post hp hsplit i hi
      have hw := (Function.lastWindow_iff_of_ne hfrom hto hne).mpr
        ⟨p, pre, post, hp, hsplit, rfl⟩
      exact hclean _ hw i (List.mem_cons_of_mem _ hi)
    obtain ⟨p, hp⟩ := hreach
    refine ⟨⟨⟨p, hp, hdom p hp⟩, ?_⟩, ?_⟩
    · intro q hq pre post hsplit i hi
      exact hpath q pre post hq hsplit i (List.mem_append_left _ hi)
    · intro i hi
      obtain ⟨pre, post, hsplit⟩ := exists_lastSplit (hdom p hp)
      exact hpath p pre post hp hsplit i (List.mem_append_right _ hi)
  · intro h mid hw i hi
    obtain ⟨p, pre, post, hp, hsplit, rfl⟩ :=
      (Function.lastWindow_iff_of_ne hfrom hto hne).mp hw
    rcases List.mem_cons.mp hi with rfl | hi
    · exact isBarrier_of_mop hmop
    · rcases List.mem_append.mp hi with hi | hi
      · exact h.1.clear p hp pre post hsplit i hi
      · exact h.2 i hi

theorem lastWindowsClean_iff_of_same {b : β} (hmop : isInterestingMop fromI = true)
    (hb : f.insts b = before ++ fromI :: (between ++ toI :: after)) (hreach : f.ReachableBlock b) :
    LastWindowsClean f usedForTsan fromI toI ↔
      ∀ i ∈ between, isBarrier usedForTsan false i = false := by
  constructor
  · intro hclean i hi
    have hw := (Function.lastWindow_iff_of_same hb).mpr ⟨hreach, rfl⟩
    exact hclean _ hw i (List.mem_cons_of_mem _ hi)
  · intro h mid hw i hi
    obtain ⟨-, rfl⟩ := (Function.lastWindow_iff_of_same hb).mp hw
    rcases List.mem_cons.mp hi with rfl | hi
    · exact isBarrier_of_mop hmop
    · exact h i hi

/-- No execution reaches an operation in an unreachable block. -/
theorem lastWindowsClean_of_unreachable (hto : f.insts bt = before' ++ toI :: after')
    (hreach : ¬f.ReachableBlock bt) : LastWindowsClean f usedForTsan fromI toI := by
  intro mid hw
  obtain ⟨-, pre, post, p, c, pref, hpath, hpref, htr⟩ := hw
  have hcut : f.trace p ++ pref = (pre ++ fromI :: mid) ++ toI :: post := by
    rw [← htr]
    simp
  obtain ⟨q, hq, -⟩ := Function.trace_split hpath hpref hto hcut
  exact absurd ⟨q, hq⟩ hreach

/-- The heads are clean, or another barrier settles both answers. -/
theorem headClean_or_blocked_iff (hmop : isInterestingMop fromI = true)
    (hmop' : isInterestingMop toI = true) (hfrom : fromI ∈ f.insts bf)
    (hto : f.insts bt = before' ++ toI :: after') (hne : bf ≠ bt)
    (hdom : f.DominatesEntry fromI bt) (hreach : f.ReachableBlock bt) :
    HeadClean f fromI toI ∨ BlockedElsewhere f usedForTsan fromI toI ↔
      (ActiveFacts f usedForTsan false fromI bt →
        (∀ i ∈ before'.dropWhile isPhiOrDbgOrLifetime, isBarrier usedForTsan false i = false) →
          ∀ i ∈ before', isBarrier usedForTsan false i = false) := by
  have hto' := Function.mem_insts_of_split hto
  have hnot : fromI ∉ f.insts bt := fun h => hne (f.parent bf bt fromI hfrom h)
  constructor
  · intro h hfacts hrest i hi
    rcases h with hhead | hblocked
    · rw [← List.takeWhile_append_dropWhile (p := isPhiOrDbgOrLifetime) (l := before'),
        List.mem_append] at hi
      rcases hi with hi | hi
      · have hcall := hhead bt hto' hnot i (by rwa [takeWhile_of_mop hmop' hto])
        exact isBarrier_of_skipped (List.mem_takeWhile_imp hi) hcall
      · exact hrest i hi
    · exfalso
      obtain ⟨b, u, v, hb, -, hbarrier⟩ := hblocked
      obtain rfl := f.parent b bt toI (Function.mem_insts_of_split hb) hto'
      obtain ⟨rfl, rfl⟩ := Function.split_unique hb hto
      rcases hbarrier with ⟨p, hp, pre, post, hsplit, j, hj, hbar⟩ | ⟨j, hj, hbar⟩
      · rcases List.mem_cons.mp hj with rfl | hj
        · rw [isBarrier_of_mop hmop] at hbar
          cases hbar
        · rw [hfacts.clear p hp pre post hsplit j hj] at hbar
          cases hbar
      · rw [hrest j hj] at hbar
        cases hbar
  · intro h
    by_cases hblocked : BlockedElsewhere f usedForTsan fromI toI
    · exact Or.inr hblocked
    · left
      intro b hb _ i hi
      obtain rfl := f.parent b bt toI hb hto'
      rw [takeWhile_of_mop hmop' hto] at hi
      obtain ⟨p, hp⟩ := hreach
      have hclean := h ⟨⟨p, hp, hdom p hp⟩, ?_⟩ ?_ i ((List.takeWhile_sublist _).subset hi)
      · exact (isBarrier_eq_false_iff.mp hclean).1
      · intro q hq pre post hsplit j hj
        by_contra hbar
        exact hblocked ⟨b, before', after', hto, hnot, Or.inl ⟨q, hq, pre, post, hsplit, j,
          List.mem_cons_of_mem _ hj, by simpa using hbar⟩⟩
      · intro j hj
        by_contra hbar
        exact hblocked ⟨b, before', after', hto, hnot, Or.inr ⟨j, hj, by simpa using hbar⟩⟩

theorem headClean_of_same {b : β}
    (hb : f.insts b = before ++ fromI :: (between ++ toI :: after)) : HeadClean f fromI toI :=
  (@vacuous_of_same _ f true fromI toI before after b between hb).2

theorem not_cleanWithin_of_ne (hfrom : fromI ∈ f.insts bf) (hto : toI ∈ f.insts bt)
    (hne : bf ≠ bt) : ¬CleanWithin f usedForTsan fromI toI := by
  intro h
  obtain ⟨b, u, mid, v, hb, -⟩ := h
  apply hne
  rw [← f.parent b bf fromI (by rw [hb]; simp) hfrom]
  exact f.parent b bt toI (by rw [hb]; simp) hto

/-- The answer and the definition by instructions agree if and only if, in reachable code, the
skipped head has no clobbering call or another barrier settles both, and, in unreachable code,
both operations lie in one block with nothing between them. -/
theorem dominance_iff [DecidableEq β] (f : Function β) (mops : List Instruction)
    (usedForTsan : Bool) (order : List β) (horder : ∀ b, b ∈ order ↔ f.ReachableBlock b)
    (fromI toI : Instruction) (hmop : isInterestingMop fromI = true)
    (hmop' : isInterestingMop toI = true) (hmem : fromI ∈ mops) (hmem' : toI ∈ mops)
    (hdom : f.StrictlyDominates fromI toI) :
    (isOneMopActiveToAnother f mops usedForTsan order fromI toI true = some true ↔
        LastWindowsClean f usedForTsan fromI toI) ↔
      ∀ b, toI ∈ f.insts b →
        (f.ReachableBlock b →
          HeadClean f fromI toI ∨ BlockedElsewhere f usedForTsan fromI toI) ∧
        (¬f.ReachableBlock b → CleanWithin f usedForTsan fromI toI) := by
  rcases hdom with ⟨bf, bt, hbf, hbt, hne, hentry⟩ | ⟨bt, before, between, after, hb⟩
  · obtain ⟨before, after, hfrom⟩ := List.append_of_mem hbf
    obtain ⟨before', after', hto⟩ := List.append_of_mem hbt
    have honly : ∀ b, toI ∈ f.insts b → b = bt := fun b h => f.parent b bt toI h hbt
    rw [query_iff_of_ne horder hmop hmop' hmem hmem' hfrom hto hne]
    by_cases hreach : f.ReachableBlock bt
    · rw [lastWindowsClean_iff_of_ne hmop hbf hto hne hentry hreach]
      have hagree := @headClean_or_blocked_iff _ f usedForTsan fromI toI bf bt before' after' hmop hmop' hbf
        hto hne hentry hreach
      constructor
      · intro h b hbt'
        obtain rfl := honly b hbt'
        refine ⟨fun _ => hagree.mpr ?_, fun hnot => absurd hreach hnot⟩
        intro hfacts hrest
        exact (h.mp ⟨hfacts, hrest⟩).2
      · intro h
        have hclean := hagree.mp ((h bt hbt).1 hreach)
        constructor
        · intro hyes
          exact ⟨hyes.1, hclean hyes.1 hyes.2⟩
        · intro hall
          exact ⟨hall.1, fun i hi => hall.2 i ((List.dropWhile_sublist _).subset hi)⟩
    · have hvacuous : LastWindowsClean f usedForTsan fromI toI :=
        lastWindowsClean_of_unreachable hto hreach
      constructor
      · intro h
        obtain ⟨p, hp, -⟩ := (h.mpr hvacuous).1.reached
        exact absurd ⟨p, hp⟩ hreach
      · intro h
        exact absurd ((h bt hbt).2 hreach) (not_cleanWithin_of_ne hbf hbt hne)
  · have hbt : toI ∈ f.insts bt := by
      rw [hb]
      simp
    have hcut : f.insts bt = (before ++ fromI :: between) ++ toI :: after := by
      rw [hb]
      simp
    have honly : ∀ b, toI ∈ f.insts b → b = bt := fun b h => f.parent b bt toI h hbt
    rw [query_iff_of_same horder hmop hmop' hmem hb]
    by_cases hreach : f.ReachableBlock bt
    · refine iff_of_true (lastWindowsClean_iff_of_same hmop hb hreach).symm ?_
      intro b hb'
      obtain rfl := honly b hb'
      exact ⟨fun _ => Or.inl (headClean_of_same hb),
        fun hnot => absurd hreach hnot⟩
    · have hvacuous : LastWindowsClean f usedForTsan fromI toI :=
        lastWindowsClean_of_unreachable hcut hreach
      constructor
      · intro h b hb'
        refine ⟨fun hr => absurd (honly b hb' ▸ hr) hreach, fun _ => ?_⟩
        exact ⟨bt, before, between, after, hb, h.mpr hvacuous⟩
      · intro h
        obtain ⟨c, u, mid, v, hc, hclear⟩ := (h bt hbt).2 hreach
        obtain rfl := honly c (by rw [hc]; simp)
        rw [← Function.between_unique hc hb]
        exact iff_of_true hclear hvacuous

end Agreement

/-! ## A block that starts with a lifetime marker -/

/-- A call of a lifetime intrinsic. -/
def lifetimeCall (name : ℕ) : Instruction := ⟨name, .call ⟨.lifetime, false, true⟩, false⟩

def lifetimeHead : Function (Fin 2) where
  blocks := [0, 1]
  entry := 0
  insts := ![[plainStore 0], [lifetimeCall 1, plainStore 2]]
  succs := ![[1], []]
  complete := by decide
  nodup := by decide
  parent := by
    intro b b' inst hb hb'
    fin_cases b <;> fin_cases b' <;> simp_all [plainStore, lifetimeCall]

theorem lifetimeHead_reachable (b : Fin 2) : lifetimeHead.ReachableBlock b := by
  have h0 : lifetimeHead.PathFrom 0 [] 0 := .nil
  have h1 : lifetimeHead.PathFrom 0 [0] 1 := h0.snoc (by decide)
  fin_cases b
  · exact ⟨_, h0⟩
  · exact ⟨_, h1⟩

theorem lifetimeHead_dominates :
    lifetimeHead.StrictlyDominates (plainStore 0) (plainStore 2) := by
  refine Or.inl ⟨0, 1, by decide, by decide, by decide, ?_⟩
  intro p hp
  cases p with
  | nil => exact absurd (Path.nil_iff.mp hp) (by decide)
  | cons b p =>
      obtain ⟨rfl, -⟩ := Path.cons_iff.mp hp
      exact List.mem_append_left _ (by decide)

theorem lifetimeHead_window :
    lifetimeHead.LastWindow (plainStore 0) (plainStore 2) [lifetimeCall 1] := by
  have h1 : lifetimeHead.PathFrom 0 [0] 1 := Path.single (by decide)
  have hto : lifetimeHead.insts 1 = [lifetimeCall 1] ++ plainStore 2 :: [] := rfl
  have hfrom : plainStore 0 ∈ lifetimeHead.insts 0 := by decide
  exact (Function.lastWindow_iff_of_ne hfrom hto (by decide)).mpr
    ⟨[0], [], [], h1, ⟨rfl, by simp⟩, rfl⟩

/-- The marker in front of the second store clobbers, and the scan skips it. -/
theorem dominance_lifetimeHead_disagrees :
    lifetimeHead.StrictlyDominates (plainStore 0) (plainStore 2) ∧
      ∀ usedForTsan,
        isOneMopActiveToAnother lifetimeHead [plainStore 0, plainStore 2] usedForTsan [0, 1]
            (plainStore 0) (plainStore 2) true = some true ∧
          ¬LastWindowsClean lifetimeHead usedForTsan (plainStore 0) (plainStore 2) := by
  refine ⟨lifetimeHead_dominates, fun usedForTsan => ⟨?_, ?_⟩⟩
  · cases usedForTsan <;> decide +kernel
  · intro hclean
    have hcall := hclean _ lifetimeHead_window (lifetimeCall 1) (by decide)
    revert hcall
    cases usedForTsan <;> decide

theorem dominance_iff_lifetimeHead :
    (isOneMopActiveToAnother lifetimeHead [plainStore 0, plainStore 2] true [0, 1]
        (plainStore 0) (plainStore 2) true = some true ↔
      LastWindowsClean lifetimeHead true (plainStore 0) (plainStore 2)) ↔
      ∀ b, plainStore 2 ∈ lifetimeHead.insts b →
        (lifetimeHead.ReachableBlock b →
          HeadClean lifetimeHead (plainStore 0) (plainStore 2) ∨
            BlockedElsewhere lifetimeHead true (plainStore 0) (plainStore 2)) ∧
        (¬lifetimeHead.ReachableBlock b →
          CleanWithin lifetimeHead true (plainStore 0) (plainStore 2)) := by
  have horder : ∀ b, b ∈ [0, 1] ↔ lifetimeHead.ReachableBlock b := fun b =>
    iff_of_true (by fin_cases b <;> decide) (lifetimeHead_reachable b)
  exact dominance_iff lifetimeHead [plainStore 0, plainStore 2] true [0, 1] horder
    (plainStore 0) (plainStore 2) (by decide) (by decide) (by decide) (by decide)
    lifetimeHead_dominates

end Mair.ActiveMop
