import Mair.Relocate.Address

/-! # Places that are used again

The place of an access is used again for the next access of the block, whose address may vary in
loops that the place has left. A run is right as long as no such place is used. -/

namespace Mair.Relocate

open Ir LoopCheck

variable {β Λ : Type*} {f : Function β} {a : Analyses f Λ}

/-! ## Candidates -/

/-- An access with the innermost loop around it. -/
abbrev Candidate (a : Analyses f Λ) := { mop : LoopMop Λ // mop.Collected a }

section Climb

variable {keeps : Λ → Bool} {l : Λ} {rest : List Λ}

theorem climb_spec : ∃ inner, l :: rest.takeWhile keeps = inner ++ [climb keeps l rest] := by
  induction rest generalizing l with
  | nil => exact ⟨[], rfl⟩
  | cons parentL rest ih =>
      rw [climb]
      cases hkeeps : keeps parentL with
      | true =>
          obtain ⟨inner, hinner⟩ := @ih parentL
          refine ⟨l :: inner, ?_⟩
          rw [List.takeWhile_cons_of_pos hkeeps, hinner, if_pos rfl]
          rfl
      | false =>
          refine ⟨[], ?_⟩
          simp [List.takeWhile, hkeeps]

end Climb

section Loops

variable {g : Cfg β Λ} {origin : Node β → β} {mop : LoopMop Λ}

theorem steadyLoops_sublist (a : Analyses f Λ) (g : Cfg β Λ) (mop : LoopMop Λ) :
    (mop.steadyLoops a g).Sublist (mop.loops a) :=
  (List.takeWhile_sublist _).cons_cons mop.loop

theorem steadyLoops_eq (a : Analyses f Λ) (g : Cfg β Λ) (mop : LoopMop Λ) :
    ∃ inner, mop.steadyLoops a g = inner ++ [topLoop a g mop] := climb_spec

theorem topLoop_mem (a : Analyses f Λ) (g : Cfg β Λ) (mop : LoopMop Λ) :
    topLoop a g mop ∈ mop.steadyLoops a g := by
  obtain ⟨inner, hinner⟩ := steadyLoops_eq a g mop
  rw [hinner]
  exact List.mem_append_right _ (List.mem_singleton_self _)

/-- The other loops that the pass may leave are loops of the outermost one. -/
theorem eq_or_encloses_topLoop (ha : a.NaturalLoops) {l : Λ} (hl : l ∈ mop.steadyLoops a g) :
    l = topLoop a g mop ∨ a.Encloses (topLoop a g mop) l := by
  have hchain := (ha.chain mop.loop).sublist (steadyLoops_sublist a g mop)
  obtain ⟨inner, hinner⟩ := steadyLoops_eq a g mop
  rw [hinner] at hchain hl
  rcases List.mem_append.mp hl with hl | hl
  · exact Or.inr ((List.pairwise_append.mp hchain).2.2 l hl _ (List.mem_singleton_self _))
  · exact Or.inl (List.mem_singleton.mp hl)

/-- A new place is right for all these loops if it is for the outermost one. -/
theorem steadyLoops_iff (ha : a.NaturalLoops) (h : Tracks a g origin) :
    (∀ l ∈ mop.steadyLoops a g, keepsAddress a g l mop.address = true) ↔
      InvariantIn a (topLoop a g mop) mop.address := by
  constructor
  · intro hkeeps
    exact (keepsAddress_iff h).mp (hkeeps _ (topLoop_mem a g mop))
  · intro hinv l hl
    rw [keepsAddress_iff h]
    rcases eq_or_encloses_topLoop ha hl with rfl | henc
    · exact hinv
    · exact hinv.of_encloses henc

end Loops

section Steps

variable [DecidableEq β] {g g' : Cfg β Λ} {origin : Node β → β} {s s' : State β Λ}
  {mop : LoopMop Λ} {topL T : Λ} {block : Node β} {insertPt : InsertPt β}
  {obs : List (Relocated β Λ)}

/-! ## One candidate -/

/-- The last insertion point is a place of a loop around the block of the last access. -/
structure LastPlaced (a : Analyses f Λ) (g : Cfg β Λ) (origin : Node β → β)
    (insertPt : InsertPt β) (bb : Node β) (T : Λ) : Prop where
  node : bb ∈ g.nodes
  around : ∃ l, a.getLoopFor (origin bb) = some l ∧ T ∈ l :: a.parentLoops l
  placed : PlacedFor a g T insertPt

def Shared (a : Analyses f Λ) (s : State β Λ) : Prop :=
  ∃ origin, Tracks a s.cfg origin ∧ ∀ insertPt bb, s.last = some (insertPt, bb) →
    ∃ T, LastPlaced a s.cfg origin insertPt bb T

theorem Tracks.emit (h : Tracks a g origin) (mop : LoopMop Λ) (insertPt : InsertPt β)
    (cloned : Bool) : ∃ origin', Tracks a (emit g mop insertPt cloned) origin' := by
  have hclone : Tracks a
      (if cloned then g.insertBefore insertPt.block insertPt.behind else g) origin := by
    split
    · exact h.insertBefore _ _
    · exact h
  obtain ⟨origin', haddr, -⟩ := hclone.getBlockAddress mop.inst
  exact ⟨origin', haddr.insertBefore _ _⟩

omit [DecidableEq β] in
/-- The block of an access tells the loops around it. -/
theorem getLoopFor_origin (h : Tracks a g origin) (hmop : mop.Collected a)
    (hblock : g.getParent mop.inst = some block) :
    block ∈ g.nodes ∧ a.getLoopFor (origin block) = some mop.loop := by
  obtain ⟨b, hinst, hloop⟩ := hmop.block
  obtain ⟨hnode, hinst'⟩ := mem_insts_of_getParent h.refines hblock
  rw [f.parent _ _ mop.inst hinst' hinst]
  exact ⟨hnode, hloop⟩

/-- Every check is put at a place of a loop around its access: of the loop that it climbed to, if
the place is new. -/
theorem chosen_placed (ha : a.Sound) (h : Tracks a s.cfg origin)
    (hlast : ∀ insertPt bb, s.last = some (insertPt, bb) →
      ∃ T, LastPlaced a s.cfg origin insertPt bb T)
    (hmop : mop.Collected a) (hblock : s.cfg.getParent mop.inst = some block)
    (htop : topL ∈ mop.loops a) (hplace : getInsertPt a s mop topL block = some (g, insertPt)) :
    ∃ origin' T, Tracks a g origin' ∧ T ∈ mop.loops a ∧ PlacedFor a g T insertPt ∧
      (g = s.cfg ∧ s.reused block = some insertPt ∨ s.reused block = none ∧ T = topL) := by
  rcases getInsertPt_cases hplace with ⟨rfl, hreused⟩ | ⟨rfl, hnone, p, hp, -, rfl⟩ |
    ⟨hnone, hexit⟩
  · obtain ⟨T, hT⟩ := hlast insertPt block (reused_eq_some_iff.mp hreused)
    obtain ⟨l, hl, hmem⟩ := hT.around
    rw [(getLoopFor_origin h hmop hblock).2, Option.some.injEq] at hl
    subst hl
    exact ⟨origin, T, h, hmem, hT.placed, Or.inl ⟨rfl, hreused⟩⟩
  · exact ⟨origin, topL, h, htop, preheader_placed ha.loops h hp, Or.inr ⟨hnone, rfl⟩⟩
  · obtain ⟨origin', h', hplaced⟩ := exitInsertPt_placed ha.loops h hexit
    exact ⟨origin', topL, h', htop, hplaced, Or.inr ⟨hnone, rfl⟩⟩

/-- The condition says that the address is invariant in the loop of the place. -/
theorem stablePlace_iff (ha : a.Sound) (h : Tracks a s.cfg origin)
    (hinv : isLoopInvariant a s.cfg mop.loop mop.address = true)
    (hblock : s.cfg.getParent mop.inst = some block) (hT : T ∈ mop.loops a)
    (hpt : PlacedFor a g T insertPt)
    (hchoice : g = s.cfg ∧ s.reused block = some insertPt ∨
      s.reused block = none ∧ T = topLoop a s.cfg mop) :
    StablePlace a s mop ↔ InvariantIn a T mop.address := by
  rw [StablePlace, hblock, Option.bind_some]
  rcases hchoice with ⟨rfl, hreused⟩ | ⟨hnone, rfl⟩
  · simp only [hreused]
    constructor
    · intro hkeeps
      exact (keepsAddress_iff h).mp (hkeeps hinv T hT hpt.outside)
    · intro hT' _ l hl hout
      exact (keepsAddress_iff h).mpr (invariantIn_outside ha.loops hT hpt hT' l hl hout)
  · simp only [hnone]
    rw [← steadyLoops_iff ha.loops h]
    exact ⟨fun hkeeps => hkeeps hinv, fun hkeeps _ => hkeeps⟩

/-- An address that is no instruction can share every place. -/
theorem stablePlace_other (s : State β Λ) (h : mop.address = .other) : StablePlace a s mop := by
  have hkeeps : ∀ l, keepsAddress a s.cfg l .other = true := fun _ => rfl
  intro _
  rw [h]
  cases (s.cfg.getParent mop.inst).bind s.reused with
  | none => exact fun l _ => hkeeps l
  | some insertPt => exact fun l _ _ => hkeeps l

/-- A candidate leaves a place of a loop around its block, and its check is right if and only if
the condition holds. -/
theorem relocateMop_right (ha : a.Sound) (hs : Shared a s) (hmop : mop.Collected a)
    (h : relocateMop a s mop = some (s', obs)) :
    Shared a s' ∧ ((∀ r ∈ obs, r.Right a) ↔ StablePlace a s mop) := by
  obtain ⟨origin, htracks, hlast⟩ := hs
  rcases relocateMop_cases h with ⟨hvarying, rfl, rfl⟩ | ⟨hinv, block, g, insertPt, hblock, hplace,
    rfl, hcfg, hlast'⟩
  · refine ⟨⟨origin, htracks, hlast⟩, ?_⟩
    simp [StablePlace, hvarying]
  · have htop : topLoop a s.cfg mop ∈ mop.loops a :=
      (steadyLoops_sublist a s.cfg mop).subset (topLoop_mem a s.cfg mop)
    obtain ⟨origin₁, T, h₁, hT, hpt, hchoice⟩ :=
      chosen_placed ha htracks hlast hmop hblock htop hplace
    obtain ⟨origin₂, h₂⟩ := h₁.emit mop insertPt (isCloned a g insertPt mop.address)
    have hpt₂ := hpt.emit h₁ (hmop.definedIn ha hT) (isCloned a g insertPt mop.address)
    rw [← hcfg] at h₂ hpt₂
    constructor
    · refine ⟨origin₂, h₂, ?_⟩
      intro insertPt' bb hsome
      rw [hlast', Option.map_eq_some_iff] at hsome
      obtain ⟨bb', hbb, heq⟩ := hsome
      cases heq
      obtain ⟨hnode, hloop⟩ := getLoopFor_origin h₂ hmop hbb
      exact ⟨T, hnode, ⟨mop.loop, hloop, hT⟩, hpt₂⟩
    · rw [stablePlace_iff ha htracks hinv hblock hT hpt hchoice, List.forall_mem_singleton]
      exact right_iff_invariantIn ha h₁ hmop hT hpt _

/-! ## Runs -/

def relocateCandidate (a : Analyses f Λ) (s : State β Λ) (mop : Candidate a) :
    Option (State β Λ × List (Relocated β Λ)) := relocateMop a s mop.1

/-- The edits that come before. -/
def combinePeriodicChecks (g : Cfg β Λ) : List (Instruction × Λ) → Option (Cfg β Λ)
  | [] => some g
  | (inst, l) :: mops => (combineMop g inst l).bind fun g => combinePeriodicChecks g mops

theorem Tracks.combinePeriodicChecks {mops : List (Instruction × Λ)} (h : Tracks a g origin)
    (hg : combinePeriodicChecks g mops = some g') : ∃ origin', Tracks a g' origin' := by
  induction mops generalizing g origin with
  | nil =>
      cases hg
      exact ⟨origin, h⟩
  | cons mop mops ih =>
      obtain ⟨g₁, hg₁, hg⟩ := Option.bind_eq_some_iff.mp hg
      obtain ⟨origin₁, h₁⟩ := h.combineMop hg₁
      exact ih h₁ hg

end Steps

/-! ## A shared place -/

def sharedSuccs : Fin 5 → List (Fin 5)
  | 0 => [1]
  | 1 => [2]
  | 2 => [2, 3]
  | 3 => [1, 4]
  | _ => []

def counterPhi : Instruction := ⟨4, .phi, false⟩

/-- The inner loop is block 2. Its last access has an address that the outer loop computes from
its counter. -/
def sharedBlock : Function (Fin 5) where
  blocks := [0, 1, 2, 3, 4]
  entry := 0
  insts b :=
    if b = 1 then [counterPhi, elementPtr]
    else if b = 2 then [plainStore 1, plainStore 2, plainStore 3]
    else []
  succs := sharedSuccs
  complete := by decide
  nodup := by decide
  parent := by decide

noncomputable def sharedAnalyses : Analyses sharedBlock Bool where
  getLoopFor b := if b = 2 then some true else if b ∈ [1, 3] then some false else none
  header inner := if inner then 2 else 1
  inLoop inner b := if inner then b = 2 else b ∈ [1, 2, 3]
  parentLoops inner := if inner then [false] else []
  isSimpleLoop _ := true
  pdt := postDominatorTree sharedBlock
  dominates g inst insertPt :=
    @decide (Available sharedBlock g inst insertPt) (Classical.propDecidable _)
  ubsanExists := false
  operands inst :=
    if inst = plainStore 3 then [.inst elementPtr]
    else if inst = elementPtr then [.inst counterPhi]
    else [.other]
  noAlias _ _ := false

theorem sharedBlock_path {q : List (Fin 5)} {y : Fin 5} (hq : sharedBlock.PathFrom 0 q y)
    (hy : y ≠ 0) : y = 1 ∨ 1 ∈ q := by
  induction hq with
  | nil => exact absurd rfl hy
  | @snoc q b c _ hc ih =>
      by_cases hb : b = 0
      · subst hb
        exact Or.inl (List.mem_singleton.mp hc)
      · rcases ih hb with rfl | hmem
        · exact Or.inr (List.mem_append_right _ (List.mem_singleton_self _))
        · exact Or.inr (List.mem_append_left _ hmem)

theorem sharedBlock_reachable {b : Fin 5} (hb : b = 1 ∨ b = 2 ∨ b = 3) :
    sharedBlock.ReachableBlock b := by
  have h₁ : sharedBlock.PathFrom 0 [0] 1 := Path.single (by decide)
  have h₂ := h₁.snoc (show (2 : Fin 5) ∈ sharedBlock.succs 1 by decide)
  have h₃ := h₂.snoc (show (3 : Fin 5) ∈ sharedBlock.succs 2 by decide)
  rcases hb with rfl | rfl | rfl
  · exact ⟨_, h₁⟩
  · exact ⟨_, h₂⟩
  · exact ⟨_, h₃⟩

theorem sharedAnalyses_loops : sharedAnalyses.NaturalLoops := by
  have hblocks : ∀ l b, sharedAnalyses.inLoop l b = true →
      (l = true ∧ b = 2) ∨ l = false ∧ (b = 1 ∨ b = 2 ∨ b = 3) := by decide
  refine ⟨by decide, by decide, by decide, ?_, by decide, ?_, ?_⟩
  · intro l b hin
    rcases hblocks l b hin with ⟨-, hb⟩ | ⟨-, hb⟩
    · exact sharedBlock_reachable (Or.inr (Or.inl hb))
    · exact sharedBlock_reachable hb
  · intro l b hin
    rcases hblocks l b hin with ⟨rfl, rfl⟩ | ⟨rfl, hb⟩
    · exact Relation.TransGen.single (by decide)
    · have h₃ := Relation.TransGen.single (r := fun x y => sharedAnalyses.inLoop false x = true ∧
        y ∈ sharedBlock.succs x ∧ sharedAnalyses.inLoop false y = true) (a := 3) (b := 1) (by decide)
      have h₂ := h₃.head (a := 2) (by decide)
      have h₁ := h₂.head (a := 1) (by decide)
      rcases hb with rfl | rfl | rfl
      · exact h₁
      · exact h₂
      · exact h₃
  · intro l
    have henc : sharedAnalyses.Encloses false true := ⟨by decide, by decide⟩
    cases l with
    | false => exact List.pairwise_singleton _ _
    | true => exact List.pairwise_pair.mpr henc

/-- The definitions dominate their uses. -/
theorem sharedBlock_dominates {b : Fin 5} {before after : List Instruction}
    {inst op : Instruction} (hinst : sharedBlock.insts b = before ++ inst :: after)
    (hop : .inst op ∈ sharedAnalyses.operands inst) {q : List (Fin 5)}
    (hq : sharedBlock.PathFrom 0 q b) : op ∈ sharedBlock.graph.trace q ++ before := by
  have hmem : inst ∈ sharedBlock.insts b := by
    rw [hinst]
    exact List.mem_append_right _ List.mem_cons_self
  simp only [sharedAnalyses] at hop
  split at hop
  · next heq =>
      subst heq
      have hb : ∀ b, plainStore 3 ∈ sharedBlock.insts b → b = 2 := by decide
      obtain rfl := hb b hmem
      cases List.mem_singleton.mp hop
      have hpass : (1 : Fin 5) ∈ q := (sharedBlock_path hq (by decide)).resolve_left (by decide)
      exact List.mem_append_left _ (List.mem_flatMap.mpr ⟨1, hpass, by decide⟩)
  · split at hop
    · next heq =>
        subst heq
        have hb : ∀ b, elementPtr ∈ sharedBlock.insts b → b = 1 := by decide
        obtain rfl := hb b hmem
        cases List.mem_singleton.mp hop
        apply List.mem_append_right
        cases before with
        | nil => exact absurd (List.cons.inj hinst).1 (by decide)
        | cons first rest =>
            obtain rfl := (List.cons.inj hinst).1
            exact List.mem_cons_self
    · simp at hop

theorem sharedAnalyses_sound : sharedAnalyses.Sound where
  loops := sharedAnalyses_loops
  getLoopFor := by decide
  def_dominates _ _ _ _ hinst _ _ hop _ hq := sharedBlock_dominates hinst hop hq
  dominates_iff _ _ _ _ _ := @decide_eq_true_iff _ (Classical.propDecidable _)

def sharedMop (inst : Instruction) (address : Value) (hinst : inst ∈ sharedBlock.insts 2)
    (haddress : address ∈ sharedAnalyses.operands inst) : Candidate sharedAnalyses :=
  have hphi : ∀ inst ∈ sharedBlock.insts 2, inst.opcode ≠ .phi := by decide
  ⟨⟨inst, address, true, false⟩, ⟨2, hinst, rfl⟩, hphi inst hinst, haddress⟩

def argumentMop : Candidate sharedAnalyses :=
  sharedMop (plainStore 1) .other (by decide) (by simp [sharedAnalyses, plainStore, elementPtr])

def secondArgumentMop : Candidate sharedAnalyses :=
  sharedMop (plainStore 2) .other (by decide) (by simp [sharedAnalyses, plainStore, elementPtr])

def elementMop : Candidate sharedAnalyses :=
  sharedMop (plainStore 3) (.inst elementPtr) (by decide) (by simp [sharedAnalyses])

end Mair.Relocate
