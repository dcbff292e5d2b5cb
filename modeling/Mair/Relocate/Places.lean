import Mair.Relocate.Loops

/-! # Where a relocated check stands

The place of a check belongs to a loop: it is the end of the preheader or a block that is
entered from the loop only. Whoever comes by it has come to the header before. -/

namespace Mair.Relocate

open Ir LoopCheck

variable {β Λ : Type*} {f : Function β} {a : Analyses f Λ} {g : Cfg β Λ}
  {origin : Node β → β} {l : Λ} {b : Node β}

/-! ## Places of a loop -/

/-- A block outside the loop that is entered from the loop only. -/
structure LeftFrom (a : Analyses f Λ) (g : Cfg β Λ) (l : Λ) (b : Node β) : Prop where
  node : b ∈ g.nodes
  ne_entry : b ≠ .old f.entry
  outside : g.inLoop l b = false
  pred : ∀ c ∈ g.nodes, b ∈ g.graph.succs c → g.inLoop l c = true

/-- The end of a block in front of the header, a block behind the loop, or a block behind one. -/
inductive IsPlace (a : Analyses f Λ) (g : Cfg β Λ) (l : Λ) (b : Node β) : ℕ → Prop where
  | preheader : .old (a.header l) ∈ g.graph.succs b → IsPlace a g l b 0
  | exit (behind : ℕ) : LeftFrom a g l b → IsPlace a g l b behind
  | indicator {exit : Node β} (behind : ℕ) : LeftFrom a g l exit → b ≠ .old f.entry →
      (∀ c ∈ g.nodes, b ∈ g.graph.succs c → c = exit) → IsPlace a g l b behind

/-- The place lies outside the loop, but in all loops around it. -/
structure PlacedFor (a : Analyses f Λ) (g : Cfg β Λ) (l : Λ) (insertPt : InsertPt β) : Prop where
  node : insertPt.block ∈ g.nodes
  outside : g.inLoop l insertPt.block = false
  around : ∀ p, a.Encloses p l → g.inLoop p insertPt.block = true
  place : IsPlace a g l insertPt.block insertPt.behind

/-! ## On the way to a place -/

/-- A path into a loop passes the header. -/
theorem header_mem_path (ha : a.NaturalLoops) {x y : β} {q : List β} (hq : f.PathFrom x q y)
    (hx : a.inLoop l x = false) (hy : a.inLoop l y = true) : a.header l ∈ q ++ [y] := by
  induction hq with
  | nil =>
      rw [hx] at hy
      cases hy
  | @snoc q b c _ hc ih =>
      cases hb : a.inLoop l b with
      | true =>
          rw [List.mem_append]
          exact Or.inl (ih hb)
      | false =>
          rw [ha.header_of_enter l b c hc hb hy]
          simp

/-- So the instructions executed on the way to the header are executed. -/
theorem exists_path_header (ha : a.NaturalLoops) {y : β} {q : List β}
    (hq : f.PathFrom f.entry q y) (hy : a.inLoop l y = true) :
    ∃ q', f.PathFrom f.entry q' (a.header l) ∧ f.graph.trace q' ⊆ f.graph.trace q := by
  rcases List.mem_append.mp (header_mem_path ha hq (ha.entry_notMem l) hy) with hmem | hmem
  · obtain ⟨q₁, q₂, rfl⟩ := List.append_of_mem hmem
    refine ⟨q₁, hq.split_at.1, ?_⟩
    rw [Graph.trace, Graph.trace, List.flatMap_append]
    exact List.subset_append_left _ _
  · rw [List.mem_singleton.mp hmem]
    exact ⟨q, hq, List.Subset.refl _⟩

/-- Before the header, `insts` has been executed. -/
def Passed (a : Analyses f Λ) (l : Λ) (insts : List Instruction) : Prop :=
  ∃ q, f.PathFrom f.entry q (a.header l) ∧ f.graph.trace q ⊆ insts

theorem passed_of_leftFrom (ha : a.NaturalLoops) (h : Tracks a g origin) (hb : LeftFrom a g l b)
    {p : List (Node β)} (hp : Path g.graph.succs (.old f.entry) p b) :
    Passed a l (p.flatMap g.graph.own) := by
  obtain ⟨done, hsub⟩ := h.refines.subdivides
  cases hp with
  | nil => exact absurd rfl hb.ne_entry
  | @snoc p c _ hp hc =>
      obtain ⟨hnode, q, hq, htrace⟩ := hsub.project hp
      have hin := h.refines.inLoop l c hnode (hb.pred c hnode hc)
      obtain ⟨q', hq', hsubset⟩ := exists_path_header ha hq hin
      refine ⟨q', hq', ?_⟩
      intro i hi
      rw [List.flatMap_append, ← htrace]
      exact List.mem_append_left _ (List.mem_append_left _ (hsubset hi))

/-- Whoever comes by a place has passed the header's approach. -/
theorem passed_of_isPlace (ha : a.NaturalLoops) (h : Tracks a g origin) {behind : ℕ}
    (hplace : IsPlace a g l b behind) {p : List (Node β)}
    (hp : Path g.graph.succs (.old f.entry) p b) :
    ∃ insts, Passed a l insts ∧ ∀ i ∈ insts, some i ∈ g.graph.trace p ++
      (g.graph.labels b).take ((g.graph.labels b).length - behind) := by
  obtain ⟨done, hsub⟩ := h.refines.subdivides
  have hbefore : ∀ i ∈ p.flatMap g.graph.own, some i ∈ g.graph.trace p ++
      (g.graph.labels b).take ((g.graph.labels b).length - behind) := by
    intro i hi
    exact List.mem_append_left _ (Graph.mem_own_iff.mp hi)
  cases hplace with
  | preheader hedge =>
      obtain ⟨q, hq, htrace⟩ := hsub.project_edge hp hedge
      refine ⟨_, ⟨q, hq, List.Subset.refl _⟩, ?_⟩
      intro i hi
      rw [htrace, Graph.mem_own_iff, Graph.trace, List.flatMap_append,
        List.flatMap_singleton] at hi
      rw [Nat.sub_zero, List.take_length]
      exact hi
  | exit behind hleft => exact ⟨_, passed_of_leftFrom ha h hleft hp, hbefore⟩
  | indicator behind hleft hne hpred =>
      cases hp with
      | nil => exact absurd rfl hne
      | @snoc p c _ hp hc =>
          obtain ⟨hnode, -⟩ := hsub.project hp
          obtain rfl := hpred c hnode hc
          obtain ⟨q, hq, hsubset⟩ := passed_of_leftFrom ha h hleft hp
          refine ⟨_, ⟨q, hq, List.Subset.trans hsubset ?_⟩, hbefore⟩
          rw [List.flatMap_append]
          exact List.subset_append_left _ _

/-! ## Edits that leave a place alone -/

section Frame

variable {g' : Cfg β Λ} {c u v : Node β} {insertPt : InsertPt β}

/-- The blocks, the edges and the loops are the same. -/
structure SameShape (g g' : Cfg β Λ) : Prop where
  nodes : g'.nodes = g.nodes
  succs : g'.graph.succs = g.graph.succs
  inLoop : g'.inLoop = g.inLoop

theorem SameShape.trans {g'' : Cfg β Λ} (h : SameShape g g') (h' : SameShape g' g'') :
    SameShape g g'' :=
  ⟨h'.nodes.trans h.nodes, h'.succs.trans h.succs, h'.inLoop.trans h.inLoop⟩

theorem LeftFrom.sameShape (h : LeftFrom a g l b) (hs : SameShape g g') : LeftFrom a g' l b := by
  refine ⟨?_, h.ne_entry, ?_, ?_⟩
  · rw [hs.nodes]
    exact h.node
  · rw [hs.inLoop]
    exact h.outside
  · rw [hs.nodes, hs.succs, hs.inLoop]
    exact h.pred

theorem PlacedFor.sameShape (h : PlacedFor a g l insertPt) (hs : SameShape g g') :
    PlacedFor a g' l insertPt := by
  obtain ⟨hnode, hout, haround, hplace⟩ := h
  refine ⟨?_, ?_, ?_, ?_⟩
  · rw [hs.nodes]
    exact hnode
  · rw [hs.inLoop]
    exact hout
  · rw [hs.inLoop]
    exact haround
  · generalize insertPt.behind = behind at hplace ⊢
    cases hplace with
    | preheader hedge =>
        rw [← hs.succs] at hedge
        exact .preheader hedge
    | exit behind hleft => exact .exit behind (hleft.sameShape hs)
    | indicator behind hleft hne hpred =>
        rw [← hs.nodes, ← hs.succs] at hpred
        exact .indicator behind (hleft.sameShape hs) hne hpred

variable [DecidableEq β]

theorem sameShape_insertBefore (g : Cfg β Λ) (b : Node β) (behind : ℕ) :
    SameShape g (g.insertBefore b behind) := ⟨rfl, rfl, rfl⟩

theorem sameShape_markIndicator (g : Cfg β Λ) (inst : Instruction) (entry : Node β) :
    SameShape g (g.markIndicator inst entry) := by
  unfold Cfg.markIndicator
  simp only
  split <;> exact ⟨rfl, rfl, rfl⟩

theorem LeftFrom.splitBlock (hs : LeftFrom a g l b) (h : Tracks a g origin) (hu : u ∈ g.nodes)
    (behind : ℕ) : LeftFrom a (g.splitBlock u behind) l b := by
  have hspec := splitBlock_spec h.refines.fresh_notMem hu behind
  have hfresh := h.refines.fresh_notMem
  generalize g.splitBlock u behind = g' at hspec ⊢
  refine ⟨?_, hs.ne_entry, ?_, ?_⟩
  · rw [hspec.nodes]
    exact List.mem_append_left _ hs.node
  · rw [hspec.inLoop_of_mem l b hs.node]
    exact hs.outside
  · intro c hc hb
    rw [hspec.nodes, List.mem_append, List.mem_singleton] at hc
    rcases hc with hc | rfl
    · rw [hspec.inLoop_of_mem l c hc]
      by_cases hcu : c = u
      · subst hcu
        rw [hspec.succs_self, List.mem_singleton] at hb
        rw [← hb] at hfresh
        exact absurd hs.node hfresh
      · rw [hspec.succs_of_ne c hc hcu] at hb
        exact hs.pred c hc hb
    · rw [hspec.succs_new] at hb
      rw [hspec.inLoop_new]
      exact hs.pred u hu hb

/-- A block put on edges to another block changes nothing either. -/
theorem LeftFrom.interpose (hs : LeftFrom a g l b) (hfresh : .new g.fresh ∉ g.nodes)
    (hspec : InterposeSpec g g' u v) (hu : u ∈ g.nodes) (hne : b ≠ v) : LeftFrom a g' l b := by
  refine ⟨?_, hs.ne_entry, ?_, ?_⟩
  · rw [hspec.nodes]
    exact List.mem_append_left _ hs.node
  · rw [hspec.inLoop_of_mem l b hs.node]
    exact hs.outside
  · intro c hc hb
    rw [hspec.nodes, List.mem_append, List.mem_singleton] at hc
    rcases hc with hc | rfl
    · rw [hspec.inLoop_of_mem l c hc]
      by_cases hcu : c = u
      · subst hcu
        rcases hspec.succs_sub b hb with heq | hb
        · rw [← heq] at hfresh
          exact absurd hs.node hfresh
        · exact hs.pred c hu hb
      · rw [hspec.succs_of_ne c hc hcu] at hb
        exact hs.pred c hc hb
    · rw [hspec.succs_new, List.mem_singleton] at hb
      exact absurd hb hne

/-- Splitting a block of the loop leaves the places of the loop alone. -/
theorem PlacedFor.splitBlock (hs : PlacedFor a g l insertPt) (h : Tracks a g origin)
    (hu : u ∈ g.nodes) (hin : g.inLoop l u = true) (behind : ℕ) :
    PlacedFor a (g.splitBlock u behind) l insertPt := by
  have hspec := splitBlock_spec h.refines.fresh_notMem hu behind
  have hfresh := h.refines.fresh_notMem
  obtain ⟨hnode, hout, haround, hplace⟩ := hs
  have hne : insertPt.block ≠ u := by
    intro heq
    rw [heq, hin] at hout
    cases hout
  refine ⟨?_, ?_, ?_, ?_⟩
  · rw [hspec.nodes]
    exact List.mem_append_left _ hnode
  · rw [hspec.inLoop_of_mem l _ hnode]
    exact hout
  · intro p hp
    rw [hspec.inLoop_of_mem p _ hnode]
    exact haround p hp
  · generalize insertPt.behind = k at hplace ⊢
    cases hplace with
    | preheader hedge =>
        rw [← hspec.succs_of_ne _ hnode hne] at hedge
        exact .preheader hedge
    | exit k hleft => exact .exit k (hleft.splitBlock h hu behind)
    | @indicator exit k hleft hentry hpred =>
        refine .indicator k (hleft.splitBlock h hu behind) hentry ?_
        intro c hc hb
        rw [hspec.nodes, List.mem_append, List.mem_singleton] at hc
        rcases hc with hc | rfl
        · by_cases hcu : c = u
          · subst hcu
            rw [hspec.succs_self, List.mem_singleton] at hb
            rw [← hb] at hfresh
            exact absurd hnode hfresh
          · rw [hspec.succs_of_ne c hc hcu] at hb
            exact hpred c hc hb
        · rw [hspec.succs_new] at hb
          have hexit := hleft.outside
          rw [← hpred u hu hb, hin] at hexit
          cases hexit

/-- So does putting the check and splitting the block of an access of the loop. -/
theorem PlacedFor.emit {mop : LoopMop Λ} (hs : PlacedFor a g l insertPt) (h : Tracks a g origin)
    (hin : DefinedIn a l mop.inst) (cloned : Bool) :
    PlacedFor a (emit g mop insertPt cloned) l insertPt := by
  have hclone : ∃ g₁, (if cloned then g.insertBefore insertPt.block insertPt.behind else g) = g₁ ∧
      SameShape g g₁ ∧ Tracks a g₁ origin := by
    refine ⟨_, rfl, ?_⟩
    split
    · exact ⟨sameShape_insertBefore _ _ _, h.insertBefore _ _⟩
    · exact ⟨⟨rfl, rfl, rfl⟩, h⟩
  obtain ⟨g₁, hg₁, hshape, h₁⟩ := hclone
  have hs₁ := hs.sameShape hshape
  rw [Relocate.emit, hg₁]
  refine PlacedFor.sameShape ?_ (sameShape_insertBefore _ _ _)
  unfold Cfg.getBlockAddressOfInstruction
  cases hparent : g₁.getParent mop.inst with
  | none => exact hs₁
  | some b =>
      simp only
      split
      · exact hs₁
      · have hloop := h₁.definedIn_iff.mpr hin
        rw [hparent, Option.any_some] at hloop
        exact hs₁.splitBlock h₁ (Cfg.getParent_spec hparent).1 hloop _

end Frame

/-! ## The places that are chosen -/

section Chosen

variable [DecidableEq β] {g' : Cfg β Λ} {p exiting exit : Node β} {insertPt : InsertPt β}
  {mop : LoopMop Λ} {inBranch : Bool}

theorem preheader_placed (ha : a.NaturalLoops) (h : Tracks a g origin)
    (hp : preheader a g l = some p) : PlacedFor a g l ⟨.preheader, p, 0⟩ := by
  rw [preheader, Cfg.getLoopPreheader, Option.filter_eq_some_iff] at hp
  have hpred := hp.1
  rw [Cfg.getLoopPredecessor, single_eq_some_iff] at hpred
  have hmem : p ∈ [p] := List.mem_singleton_self p
  rw [← hpred, List.mem_filter, Cfg.predecessors, List.mem_filter, decide_eq_true_eq,
    Bool.not_eq_true'] at hmem
  obtain ⟨⟨hnode, hedge⟩, hout⟩ := hmem
  refine ⟨hnode, hout, ?_, .preheader hedge⟩
  intro p' hp'
  cases hin : g.inLoop p' p with
  | true => rfl
  | false =>
      have hheader : g.inLoop p' (.old (a.header l)) = true := by
        rw [h.inLoop_old]
        exact hp'.subset _ (ha.header_mem l)
      have heq : a.header l = a.header p' :=
        Node.old.inj (h.enter p' p hnode _ hedge hin hheader)
      have hcontra := ha.header_mem l
      rw [heq, hp'.header] at hcontra
      cases hcontra

/-- All edges out of the loop go to its exit block. -/
theorem exit_spec (hexit : g.getUniqueExitBlock l = some exit) :
    g.inLoop l exit = false ∧ ∀ y ∈ g.nodes, g.inLoop l y = true →
      ∀ z ∈ g.graph.succs y, g.inLoop l z = false → z = exit := by
  rw [Cfg.getUniqueExitBlock, single_eq_some_iff] at hexit
  have hiff : ∀ z, z = exit ↔ ∃ y ∈ g.nodes, g.inLoop l y = true ∧
      z ∈ g.graph.succs y ∧ g.inLoop l z = false := by
    intro z
    rw [← List.mem_singleton, ← hexit, List.mem_dedup, List.mem_flatMap]
    constructor
    · intro hz
      obtain ⟨y, hy, hz⟩ := hz
      obtain ⟨hynode, hyin⟩ := List.mem_filter.mp hy
      obtain ⟨hedge, hout⟩ := List.mem_filter.mp hz
      exact ⟨y, hynode, hyin, hedge, by simpa using hout⟩
    · intro hz
      obtain ⟨y, hynode, hyin, hedge, hout⟩ := hz
      exact ⟨y, List.mem_filter.mpr ⟨hynode, hyin⟩, List.mem_filter.mpr ⟨hedge, by simpa using hout⟩⟩
  constructor
  · obtain ⟨-, -, -, -, hout⟩ := (hiff exit).mp rfl
    exact hout
  · intro y hy hin z hz hout
    exact (hiff z).mpr ⟨y, hy, hin, hz, hout⟩

/-- The exit block lies in all loops around the loop: their headers are reached through it. -/
theorem exit_around (h : Tracks a g origin) (hexit : g.getUniqueExitBlock l = some exit)
    (hexiting : exiting ∈ g.nodes) (hin : g.inLoop l exiting = true) {q : Λ}
    (hq : a.Encloses q l) : g.inLoop q exit = true := by
  have hback := h.back q exiting hexiting (h.nested l q hq exiting hexiting hin)
  have hheader : g.inLoop l (.old (a.header q)) = false := by
    rw [h.inLoop_old]
    exact hq.header
  obtain ⟨-, hunique⟩ := exit_spec hexit
  induction hback using Relation.TransGen.head_induction_on with
  | single hedge =>
      rw [← hunique _ hexiting hin _ hedge.edge hheader]
      exact hedge.right
  | @head x y hedge hrest ih =>
      cases hy : g.inLoop l y with
      | false =>
          rw [← hunique _ hexiting hin _ hedge.edge hy]
          exact hedge.right
      | true =>
          obtain ⟨z, hyz, -⟩ := Relation.TransGen.head'_iff.mp hrest
          exact ih hyz.node hy

/-- The exit block with an edge of its own is entered from the loop only. -/
theorem leftFrom_dedicatedExit (ha : a.NaturalLoops) (h : Tracks a g origin)
    (hexiting : g.getExitingBlock l = some exiting)
    (hexit : g.getUniqueExitBlock l = some exit) :
    LeftFrom a (g.dedicatedExit exiting exit).1 l (g.dedicatedExit exiting exit).2 ∧
      ∀ q, a.Encloses q l → (g.dedicatedExit exiting exit).1.inLoop q
        (g.dedicatedExit exiting exit).2 = true := by
  obtain ⟨hnode, hin, hedge⟩ := exit_mem_succs hexiting hexit
  obtain ⟨done, hsub⟩ := h.refines.subdivides
  have hexitnode := hsub.closed exiting hnode exit hedge
  have hfresh := h.refines.fresh_notMem
  obtain ⟨hout, -⟩ := exit_spec hexit
  unfold Cfg.dedicatedExit
  split
  · have hspec := splitKnownCriticalEdge_spec (v := exit) hfresh hnode
    refine ⟨⟨?_, nofun, ?_, ?_⟩, ?_⟩
    · exact List.mem_append_right _ (List.mem_singleton_self _)
    · rw [← Bool.not_eq_true, hspec.inLoop_new, hout]
      simp
    · intro c hc hmem
      rw [hspec.nodes, List.mem_append, List.mem_singleton] at hc
      rcases hc with hc | rfl
      · by_cases hce : c = exiting
        · rw [hspec.inLoop_of_mem l c hc, hce]
          exact hin
        · rw [hspec.succs_of_ne c hc hce] at hmem
          exact absurd (hsub.closed c hc _ hmem) hfresh
      · rw [hspec.succs_new, List.mem_singleton] at hmem
        rw [← hmem] at hexitnode
        exact absurd hexitnode hfresh
    · intro q hq
      exact (hspec.inLoop_new q).mpr
        ⟨h.nested l q hq exiting hnode hin, exit_around h hexit hnode hin hq⟩
  · next hunique =>
      rw [ne_eq, not_not, Cfg.getUniquePredecessor, single_eq_some_iff] at hunique
      refine ⟨⟨hexitnode, ?_, hout, ?_⟩, fun q hq => exit_around h hexit hnode hin hq⟩
      · intro heq
        have hentry : exit = .old f.entry := heq
        rcases hsub.edge exiting hnode exit hedge with ⟨x, hx, hmem, -⟩ | ⟨hno, -⟩
        · rw [hentry, Node.old.injEq] at hx
          rw [← hx] at hmem
          exact ha.entry_notMem_succs _ hmem
        · exact hno f.entry hentry
      · intro c hc hmem
        have hpred : c ∈ [exiting] := by
          rw [← hunique]
          exact List.mem_filter.mpr ⟨hc, decide_eq_true hmem⟩
        rw [List.mem_singleton.mp hpred]
        exact hin

/-- A block on the only edge that leaves an exit block is a place of the loop. -/
theorem thenBlock_placed {tail : Node β} (h : Tracks a g origin) (hleft : LeftFrom a g l exit)
    (htail : g.graph.succs exit = [tail]) (hloop : ∀ q, g.inLoop q tail = g.inLoop q exit)
    (hne : exit ≠ tail) (haround : ∀ q, a.Encloses q l → g.inLoop q exit = true) (behind : ℕ) :
    PlacedFor a (g.insertThen exit tail) l ⟨.indicator, .new g.fresh, behind⟩ := by
  have hfresh := h.refines.fresh_notMem
  have hspec := insertThen_spec hfresh hleft.node htail hloop
  obtain ⟨done, hsub⟩ := h.refines.subdivides
  have hmem : tail ∈ g.graph.succs exit := by
    rw [htail]
    exact List.mem_singleton_self tail
  have htailnode := hsub.closed exit hleft.node tail hmem
  refine ⟨?_, ?_, ?_, .indicator behind (hleft.interpose hfresh hspec hleft.node hne) nofun ?_⟩
  · exact List.mem_append_right _ (List.mem_singleton_self _)
  · rw [← Bool.not_eq_true, hspec.inLoop_new, hleft.outside]
    simp
  · intro q hq
    exact (hspec.inLoop_new q).mpr ⟨haround q hq, (hloop q).trans (haround q hq)⟩
  · intro c hc hedge
    rw [hspec.nodes, List.mem_append, List.mem_singleton] at hc
    rcases hc with hc | rfl
    · by_cases hce : c = exit
      · exact hce
      · rw [hspec.succs_of_ne c hc hce] at hedge
        exact absurd (hsub.closed c hc _ hedge) hfresh
    · rw [hspec.succs_new, List.mem_singleton] at hedge
      rw [← hedge] at htailnode
      exact absurd htailnode hfresh

/-- So is the block of the indicator. -/
theorem indicator_placed (h : Tracks a g origin) (hleft : LeftFrom a g l exit)
    (haround : ∀ q, a.Encloses q l → g.inLoop q exit = true) (behind : ℕ) :
    ∃ origin', Tracks a (g.branchOnIndicator exit).1 origin' ∧
      PlacedFor a (g.branchOnIndicator exit).1 l
        ⟨.indicator, (g.branchOnIndicator exit).2, behind⟩ := by
  have hload := (h.insertBefore exit (g.firstInsertionPt exit)).insertBefore exit
    (g.firstInsertionPt exit)
  have hleft₁ := hleft.sameShape ((sameShape_insertBefore g exit (g.firstInsertionPt exit)).trans
    (sameShape_insertBefore _ exit (g.firstInsertionPt exit)))
  have hspec := splitBlock_spec hload.refines.fresh_notMem hleft₁.node (g.firstInsertionPt exit)
  have hsplit := hload.splitBlock hleft₁.node (g.firstInsertionPt exit)
  have hleft₂ := hleft₁.splitBlock hload hleft₁.node (g.firstInsertionPt exit)
  have hsame := fun q => hspec.inLoop_of_mem q exit hleft₁.node
  have hloop := fun q => (hspec.inLoop_new q).trans (hsame q).symm
  have hne : exit ≠ .new g.fresh := by
    intro heq
    have hfresh := h.refines.fresh_notMem
    rw [← heq] at hfresh
    exact hfresh hleft.node
  exact ⟨_, hsplit.insertThen hleft₂.node hspec.succs_self hloop,
    thenBlock_placed hsplit hleft₂ hspec.succs_self hloop hne
      (fun q hq => (hsame q).trans (haround q hq)) behind⟩

/-- A place that is chosen behind the loop is one of the loop. -/
theorem exitInsertPt_placed {entry : Node β} (ha : a.NaturalLoops) (h : Tracks a g origin)
    (hg : exitInsertPt g mop entry l inBranch = some (g', insertPt)) :
    ∃ origin', Tracks a g' origin' ∧ PlacedFor a g' l insertPt := by
  obtain ⟨exiting, hexiting, hg⟩ := Option.bind_eq_some_iff.mp hg
  obtain ⟨exit, hexit, hg⟩ := Option.map_eq_some_iff.mp hg
  obtain ⟨hnode, -, hedge⟩ := exit_mem_succs hexiting hexit
  obtain ⟨hleft, haround⟩ := leftFrom_dedicatedExit ha h hexiting hexit
  obtain ⟨origin₁, hsplit, -⟩ := h.dedicatedExit hnode hedge
  simp only at hg
  split at hg
  · cases hg
    have hshape := sameShape_markIndicator (g.dedicatedExit exiting exit).1 mop.inst entry
    have hmark := hsplit.markIndicator mop.inst entry
    refine indicator_placed hmark (hleft.sameShape hshape) ?_ 0
    rw [hshape.inLoop]
    exact haround
  · cases hg
    exact ⟨origin₁, hsplit, hleft.node, hleft.outside, haround, .exit _ hleft⟩

end Chosen

end Mair.Relocate
