import Mair.Relocate.Model

/-! # Checks at the terminator of a preheader

The post-dominator tree is the one of the function before the pass. It knows no block that the
pass adds, and says of a new preheader that every block post-dominates it. As long as the
preheaders are blocks of the function, the answers stay right. -/

namespace Mair.Relocate

open Ir LoopCheck

variable {β Λ : Type*} {f : Function β}

/-- Whoever reaches the preheader executes the access before the function ends. -/
def PostDominates (g : Cfg β Λ) (inst : Instruction) (p : Node β) : Prop :=
  ∀ q e, Path g.graph.succs p q e → g.graph.succs e = [] → some inst ∈ g.graph.trace (q ++ [e])

/-- A check at a preheader is executed only where the access is. -/
def Relocated.Sound (r : Relocated β Λ) : Prop :=
  r.insertPt.placement = .preheader → PostDominates r.cfg r.mop.inst r.insertPt.block

/-! ## What the edits leave of the loops -/

section Queries

variable [DecidableEq β] {g g' : Cfg β Λ} {l : Λ} {inLoop : Λ → β → Bool}
  {origin : Node β → β} {b exiting exit : Node β} {inst : Instruction}

theorem exit_mem_succs (hexiting : g.getExitingBlock l = some exiting)
    (hexit : g.getUniqueExitBlock l = some exit) :
    exiting ∈ g.nodes ∧ g.inLoop l exiting = true ∧ exit ∈ g.graph.succs exiting := by
  rw [Cfg.getExitingBlock, single_eq_some_iff] at hexiting
  rw [Cfg.getUniqueExitBlock, single_eq_some_iff] at hexit
  have hmem : exiting ∈ [exiting] := List.mem_singleton_self _
  rw [← hexiting, List.mem_filter, Bool.and_eq_true, List.any_eq_true] at hmem
  obtain ⟨hnode, hin, c, hc, hout⟩ := hmem
  have hc' : c ∈ [exit] := by
    rw [← hexit, List.mem_dedup, List.mem_flatMap]
    exact ⟨exiting, List.mem_filter.mpr ⟨hnode, hin⟩, List.mem_filter.mpr ⟨hc, hout⟩⟩
  rw [List.mem_singleton.mp hc'] at hc
  exact ⟨hnode, hin, hc⟩

omit [DecidableEq β] in
/-- An instruction of an edited block is one of the block's origin. -/
theorem mem_insts_of_getParent (h : g.Refines f inLoop origin)
    (hb : g.getParent inst = some b) : b ∈ g.nodes ∧ inst ∈ f.insts (origin b) := by
  obtain ⟨done, hsub⟩ := h.subdivides
  obtain ⟨hnode, hinst⟩ := Cfg.getParent_spec hb
  exact ⟨hnode, hsub.own_subset hnode (List.reduceOption_mem_iff.mpr hinst)⟩

omit [DecidableEq β] in
/-- The block of an instruction may change, but not its origin. -/
theorem Cfg.Later.origin_parent {origin' : Node β → β} {b' : Node β}
    (h : g.Refines f inLoop origin) (h' : Cfg.Later f inLoop g g' origin origin')
    (hb : g.getParent inst = some b) (hb' : g'.getParent inst = some b') :
    origin' b' = origin b := by
  obtain ⟨-, hinst⟩ := mem_insts_of_getParent h hb
  obtain ⟨-, hinst'⟩ := mem_insts_of_getParent h'.refines hb'
  exact f.parent _ _ inst hinst' hinst

theorem combineMop_later {g' : Cfg β Λ} (h : g.Refines f inLoop origin)
    (hg : combineMop g inst l = some g') : ∃ origin', Cfg.Later f inLoop g g' origin origin' := by
  obtain ⟨exiting, hexiting, hg⟩ := Option.bind_eq_some_iff.mp hg
  obtain ⟨exit, hexit, rfl⟩ := Option.map_eq_some_iff.mp hg
  obtain ⟨hnode, -, hsucc⟩ := exit_mem_succs hexiting hexit
  obtain ⟨origin₁, hsplit, -⟩ := h.dedicatedExit hnode hsucc
  have hcall := hsplit.trans (hsplit.refines.insertBefore_later
    (g.dedicatedExit exiting exit).2 ((g.dedicatedExit exiting exit).1.firstInsertionPt
      (g.dedicatedExit exiting exit).2))
  obtain ⟨origin₂, haddr⟩ := hcall.refines.getBlockAddress inst
  exact ⟨origin₂, hcall.trans haddr⟩

theorem exitInsertPt_later {mop : LoopMop Λ} {entry : Node β} {inBranch : Bool}
    {insertPt : InsertPt β} (h : g.Refines f inLoop origin)
    (hg : exitInsertPt g mop entry l inBranch = some (g', insertPt)) :
    insertPt.placement ≠ .preheader ∧ ∃ origin', Cfg.Later f inLoop g g' origin origin' := by
  obtain ⟨exiting, hexiting, hg⟩ := Option.bind_eq_some_iff.mp hg
  obtain ⟨exit, hexit, hg⟩ := Option.map_eq_some_iff.mp hg
  obtain ⟨hnode, -, hsucc⟩ := exit_mem_succs hexiting hexit
  obtain ⟨origin₁, hsplit, hmem⟩ := h.dedicatedExit hnode hsucc
  simp only at hg
  split at hg
  · cases hg
    obtain ⟨origin₂, hflag, -⟩ := hsplit.refines.instrumentIndicator hmem mop.inst entry
    exact ⟨nofun, origin₂, hsplit.trans hflag⟩
  · cases hg
    exact ⟨nofun, origin₁, hsplit⟩

theorem emit_later (h : g.Refines f inLoop origin) (mop : LoopMop Λ) (insertPt : InsertPt β)
    (cloned : Bool) :
    ∃ origin', Cfg.Later f inLoop g (emit g mop insertPt cloned) origin origin' := by
  have hclone : Cfg.Later f inLoop g
      (if cloned then g.insertBefore insertPt.block insertPt.behind else g) origin origin := by
    split
    · exact h.insertBefore_later _ _
    · exact Cfg.Later.refl h
  obtain ⟨origin₁, haddr⟩ := hclone.refines.getBlockAddress mop.inst
  exact ⟨origin₁, (hclone.trans haddr).trans (haddr.refines.insertBefore_later _ _)⟩

end Queries

/-! ## Places -/

section Steps

variable [DecidableEq β] {a : Analyses f Λ} {s s' : State β Λ} {g : Cfg β Λ} {mop : LoopMop Λ}
  {topL : Λ} {origin : Node β → β} {block : Node β} {insertPt : InsertPt β}
  {obs : List (Relocated β Λ)} {inst : Instruction} {x y : β}

omit [DecidableEq β] in
/-- What post-dominates a block of the function does so in every edited graph. -/
theorem postDominates_of_origin (h : g.Refines f a.inLoop origin) (hinst : inst ∈ f.insts y)
    (hpdt : y = x ∨ a.pdt.dominates y x = true) : PostDominates g inst (.old x) := by
  intro q e hq he
  obtain ⟨done, hsub⟩ := h.subdivides
  obtain ⟨hexit, q', hq', htrace⟩ := hsub.project_exit hq he
  have hmem : y ∈ q' ++ [origin e] := by
    rcases hpdt with rfl | hpdt
    · rw [List.mem_append, List.mem_singleton, or_comm, ← List.mem_cons]
      exact hq'.source_mem
    · exact a.pdt.sound y x hpdt q' (origin e) hq' hexit
  rw [← Graph.mem_own_iff, ← htrace]
  exact List.mem_flatMap.mpr ⟨y, hmem, hinst⟩

/-- A place is the last one again, the terminator of a preheader, or behind the loop. -/
theorem getInsertPt_cases (h : getInsertPt a s mop topL block = some (g, insertPt)) :
    (g = s.cfg ∧ s.reused block = some insertPt) ∨
      (g = s.cfg ∧ s.reused block = none ∧ ∃ p, preheader a s.cfg topL = some p ∧
        isInBranch a s.cfg mop topL block = false ∧ insertPt = ⟨.preheader, p, 0⟩) ∨
      (s.reused block = none ∧ exitInsertPt s.cfg mop (.old f.entry) topL
        (isInBranch a s.cfg mop topL block) = some (g, insertPt)) := by
  rw [getInsertPt] at h
  cases hreused : s.reused block with
  | some last =>
      simp only [hreused] at h
      cases h
      exact Or.inl ⟨rfl, rfl⟩
  | none =>
      simp only [hreused] at h
      cases hpre : preheader a s.cfg topL with
      | none =>
          simp only [hpre] at h
          exact Or.inr (Or.inr ⟨rfl, h⟩)
      | some p =>
          simp only [hpre] at h
          split at h
          · next hbranch =>
              cases h
              rw [Bool.not_eq_true'] at hbranch
              exact Or.inr (Or.inl ⟨rfl, rfl, p, rfl, hbranch, rfl⟩)
          · exact Or.inr (Or.inr ⟨rfl, h⟩)

theorem getInsertPt_later (hr : s.cfg.Refines f a.inLoop origin)
    (h : getInsertPt a s mop topL block = some (g, insertPt)) :
    ∃ origin', Cfg.Later f a.inLoop s.cfg g origin origin' := by
  rcases getInsertPt_cases h with ⟨rfl, -⟩ | ⟨rfl, -⟩ | ⟨-, hexit⟩
  · exact ⟨origin, Cfg.Later.refl hr⟩
  · exact ⟨origin, Cfg.Later.refl hr⟩
  · exact (exitInsertPt_later hr hexit).2

/-! ## Runs -/

/-- The edited function and the last insertion point: if that is a preheader, it is a block of the
function, and the block of the last access post-dominates it there. -/
def Inv (a : Analyses f Λ) (s : State β Λ) : Prop :=
  ∃ origin, s.cfg.Refines f a.inLoop origin ∧
    ∀ insertPt bb, s.last = some (insertPt, bb) → bb ∈ s.cfg.nodes ∧
      (insertPt.placement = .preheader → ∃ x, insertPt.block = .old x ∧
        (origin bb = x ∨ a.pdt.dominates (origin bb) x = true))

/-- A check that is hoisted anew goes to a block with a node in the post-dominator tree. -/
def KnownPreheader (a : Analyses f Λ) (s : State β Λ) : Event Λ → Prop
  | .combine _ _ => True
  | .relocate mop => isLoopInvariant a s.cfg mop.loop mop.address = true →
      mop.inBranch = false → (s.cfg.getParent mop.inst).bind s.reused = none →
        ∀ p, preheader a s.cfg (topLoop a s.cfg mop) = some p → ∃ x, p = .old x

omit [DecidableEq β] in
theorem initialState_inv (a : Analyses f Λ) : Inv a (initialState a) :=
  ⟨_, Cfg.initial_refines f a.inLoop, nofun⟩

/-- What one candidate leads to: nothing, or a check at the chosen place. -/
theorem relocateMop_cases (h : relocateMop a s mop = some (s', obs)) :
    (isLoopInvariant a s.cfg mop.loop mop.address = false ∧ s' = s ∧ obs = []) ∨
      isLoopInvariant a s.cfg mop.loop mop.address = true ∧ ∃ block g insertPt,
        s.cfg.getParent mop.inst = some block ∧
        getInsertPt a s mop (topLoop a s.cfg mop) block = some (g, insertPt) ∧
        obs = [⟨mop, topLoop a s.cfg mop, g, insertPt, isCloned a g insertPt mop.address⟩] ∧
        s'.cfg = emit g mop insertPt (isCloned a g insertPt mop.address) ∧
        s'.last = (s'.cfg.getParent mop.inst).map fun bb => (insertPt, bb) := by
  rw [relocateMop] at h
  split at h
  · next hvarying =>
      cases h
      exact Or.inl ⟨by simpa using hvarying, rfl, rfl⟩
  · next hinv =>
      rw [Bool.not_eq_true', Bool.not_eq_false] at hinv
      obtain ⟨block, hblock, h⟩ := Option.bind_eq_some_iff.mp h
      obtain ⟨⟨g, insertPt⟩, hplace, h⟩ := Option.map_eq_some_iff.mp h
      cases h
      exact Or.inr ⟨hinv, block, g, insertPt, hblock, hplace, rfl, rfl, rfl⟩

theorem reused_eq_some_iff : s.reused block = some insertPt ↔ s.last = some (insertPt, block) := by
  rw [State.reused, Option.bind_eq_some_iff]
  constructor
  · intro h
    obtain ⟨⟨insertPt', bb⟩, hlast, h⟩ := h
    rw [Option.ite_none_right_eq_some, Option.some.injEq] at h
    obtain ⟨rfl, rfl⟩ := h
    exact hlast
  · intro h
    exact ⟨_, h, by simp⟩

/-- The block of the access post-dominates a preheader that is chosen, and no edit precedes the
choice. -/
theorem preheader_known (hr : s.cfg.Refines f a.inLoop origin)
    (hlast : ∀ insertPt bb, s.last = some (insertPt, bb) → bb ∈ s.cfg.nodes ∧
      (insertPt.placement = .preheader → ∃ x, insertPt.block = .old x ∧
        (origin bb = x ∨ a.pdt.dominates (origin bb) x = true)))
    (hknown : KnownPreheader a s (.relocate mop))
    (hinv : isLoopInvariant a s.cfg mop.loop mop.address = true)
    (hblock : s.cfg.getParent mop.inst = some block)
    (hplace : getInsertPt a s mop (topLoop a s.cfg mop) block = some (g, insertPt))
    (hpre : insertPt.placement = .preheader) :
    g = s.cfg ∧ ∃ x, insertPt.block = .old x ∧
      (origin block = x ∨ a.pdt.dominates (origin block) x = true) := by
  rcases getInsertPt_cases hplace with ⟨hg, hreused⟩ | ⟨hg, hnone, p, hp, hbranch, heq⟩ |
    ⟨-, hexit⟩
  · exact ⟨hg, (hlast insertPt block (reused_eq_some_iff.mp hreused)).2 hpre⟩
  · have hnot : mop.inBranch = false := by
      cases hb : mop.inBranch with
      | false => rfl
      | true =>
          rw [isInBranch, hb, if_pos rfl] at hbranch
          cases hbranch
    rw [isInBranch, hnot, hp] at hbranch
    simp only [Bool.false_eq_true, if_false, Option.any_some, Bool.not_eq_false'] at hbranch
    have hreuse : (s.cfg.getParent mop.inst).bind s.reused = none := by
      rw [hblock]
      exact hnone
    obtain ⟨x, rfl⟩ := hknown hinv hnot hreuse p hp
    obtain ⟨done, hsub⟩ := hr.subdivides
    rw [heq]
    refine ⟨hg, x, rfl, ?_⟩
    unfold PostDominatorTree.dominatesNode at hbranch
    split at hbranch
    · next hsame =>
        rw [hsame, hsub.origin_emb]
        exact Or.inl rfl
    · cases block with
      | new k => cases hbranch
      | old y =>
          rw [hsub.origin_emb]
          exact Or.inr hbranch
  · exact absurd hpre (exitInsertPt_later hr hexit).1

theorem step_known {e : Event Λ} (hs : Inv a s) (he : KnownPreheader a s e)
    (h : step a s e = some (s', obs)) : Inv a s' ∧ ∀ r ∈ obs, r.Sound := by
  obtain ⟨origin, hr, hlast⟩ := hs
  cases e with
  | combine inst l =>
      obtain ⟨g, hg, h⟩ := Option.map_eq_some_iff.mp h
      cases h
      obtain ⟨origin', hlater⟩ := combineMop_later hr hg
      refine ⟨⟨origin', hlater.refines, ?_⟩, by simp⟩
      intro insertPt bb hsome
      obtain ⟨hbb, hpre⟩ := hlast insertPt bb hsome
      rw [hlater.origin_eq bb hbb]
      exact ⟨hlater.nodes bb hbb, hpre⟩
  | relocate mop =>
      rcases relocateMop_cases h with ⟨-, rfl, rfl⟩ | ⟨hinv, block, g, insertPt, hblock, hplace, rfl,
        hcfg, hlast'⟩
      · exact ⟨⟨origin, hr, hlast⟩, by simp⟩
      · have hknown := preheader_known hr hlast he hinv hblock hplace
        obtain ⟨origin₁, hchosen⟩ := getInsertPt_later hr hplace
        obtain ⟨origin₂, hemit⟩ := emit_later hchosen.refines mop insertPt
          (isCloned a g insertPt mop.address)
        rw [← hcfg] at hemit
        have hlater := hchosen.trans hemit
        constructor
        · refine ⟨origin₂, hlater.refines, ?_⟩
          intro insertPt' bb hsome
          rw [hlast', Option.map_eq_some_iff] at hsome
          obtain ⟨bb', hbb, heq⟩ := hsome
          cases heq
          refine ⟨(Cfg.getParent_spec hbb).1, ?_⟩
          intro hpre
          rw [hlater.origin_parent hr hblock hbb]
          exact (hknown hpre).2
        · intro r hmem
          rw [List.mem_singleton.mp hmem]
          intro hpre
          obtain ⟨rfl, x, hx, hpdt⟩ := hknown hpre
          simp only [hx]
          exact postDominates_of_origin hr (mem_insts_of_getParent hr hblock).2 hpdt

end Steps

/-- In every run that hoists checks to preheaders of the function only, each check at a preheader
is executed only where the access is. -/
theorem hoisted_sound [DecidableEq β] (a : Analyses f Λ) {es : List (Event Λ)} {t : State β Λ}
    {obs : List (Relocated β Λ)}
    (hknown : Runs.Meets (step a) (KnownPreheader a) (initialState a) es)
    (hrun : Runs.run (step a) (initialState a) es = some (t, obs)) : ∀ r ∈ obs, r.Sound :=
  (Runs.run_meets (fun _ _ _ _ hs he hstep => step_known hs he hstep) (initialState_inv a) hknown
    hrun).2

/-! ## A new preheader -/

/-- No end of the function is reached from `b` around `a`. -/
def postDominatorTree [DecidableEq β] (f : Function β) : PostDominatorTree f where
  dominates a b :=
    (DepthFirst.depthFirst (succsAvoiding f a) f.blocks [] b).all fun e =>
      e = a || !(f.succs e).isEmpty
  sound a b h p e hp he := by
    by_contra hnot
    rw [List.mem_append, List.mem_singleton, not_or] at hnot
    obtain ⟨q, hq⟩ := path_avoiding_iff.mpr ⟨p, hp, hnot.1⟩
    have hreach : DepthFirst.Reaches (succsAvoiding f a) b e := hq.reflTransGen
    have hmem := (DepthFirst.mem_depthFirst_iff (fun u _ v _ => f.complete v) (f.complete b)
      fun v (hv : v ∈ []) => absurd hv List.not_mem_nil).mpr (Or.inr hreach)
    have hend := List.all_eq_true.mp h e hmem
    rw [he, List.isEmpty_nil, Bool.not_true, Bool.or_false, decide_eq_true_eq] at hend
    exact hnot.2 hend.symm

local instance neZeroSix : NeZero 6 := ⟨by decide⟩

def nestedSuccs : Fin 6 → List (Fin 6)
  | 0 => [1]
  | 1 => [2]
  | 2 => [3, 4]
  | 3 => [2]
  | 4 => [1, 5]
  | _ => []

def elementPtr : Instruction := ⟨0, .getElementPtr, false⟩

/-- Block 1 computes an address and has an access of its own; the loop of block 3 accesses that
address and may run zero times. -/
def nestedLoops : Function (Fin 6) where
  blocks := [0, 1, 2, 3, 4, 5]
  entry := 0
  insts b := if b = 1 then [elementPtr, plainStore 1] else if b = 3 then [plainStore 2] else []
  succs := nestedSuccs
  complete := by decide
  nodup := by decide
  parent := by decide

def nestedAnalyses : Analyses nestedLoops Bool where
  getLoopFor b := if b ∈ [2, 3] then some true else if b ∈ [1, 4] then some false else none
  header inner := if inner then 2 else 1
  inLoop inner b := if inner then b ∈ [2, 3] else b ∈ [1, 2, 3, 4]
  parentLoops inner := if inner then [false] else []
  isSimpleLoop _ := true
  pdt := postDominatorTree nestedLoops
  dominates _ _ _ := true
  ubsanExists := false
  operands _ := []
  noAlias _ _ := false

def outerMop : LoopMop Bool := ⟨plainStore 1, .other, false, false⟩

def innerMop : LoopMop Bool := ⟨plainStore 2, .inst elementPtr, true, false⟩

/-- The first check splits block 1, so the preheader of the inner loop is new; the second check is
hoisted to it and executed although the inner loop is not. -/
theorem newPreheader_unsound : ∃ t obs,
    Runs.run (step nestedAnalyses) (initialState nestedAnalyses)
        [.relocate outerMop, .relocate innerMop] = some (t, obs) ∧ ¬∀ r ∈ obs, r.Sound := by
  refine ⟨_, _, rfl, ?_⟩
  intro h
  have hlast := h _ (List.mem_cons_of_mem _ List.mem_cons_self) rfl
    [.new 0, .old 2, .old 4] (.old 5)
    (((Path.single (by decide)).snoc (by decide)).snoc (by decide)) (by decide)
  revert hlast
  decide

theorem hoisted_sound_outerMop : ∃ t obs,
    Runs.run (step nestedAnalyses) (initialState nestedAnalyses) [.relocate outerMop] =
        some (t, obs) ∧ ∀ r ∈ obs, r.Sound := by
  have hpre : preheader nestedAnalyses (initialState nestedAnalyses).cfg
      (topLoop nestedAnalyses (initialState nestedAnalyses).cfg outerMop) = some (.old 0) := by
    decide
  have hknown : Runs.Meets (step nestedAnalyses) (KnownPreheader nestedAnalyses)
      (initialState nestedAnalyses) [.relocate outerMop] := by
    refine ⟨?_, fun _ _ _ => trivial⟩
    intro _ _ _ p hp
    exact ⟨0, Option.some.inj (hp.symm.trans hpre)⟩
  exact ⟨_, _, rfl, hoisted_sound nestedAnalyses hknown rfl⟩

end Mair.Relocate
