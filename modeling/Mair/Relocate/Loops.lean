import Mair.Relocate.Hoisting

/-! # Loops of an edited function

Blocks are split and put on edges, and the loop information is carried along. The loops of the
edited function stay natural loops with the same headers, nested as before. -/

namespace Mair.Relocate

open Ir LoopCheck

variable {β Λ : Type*} {f : Function β}

/-! ## The loops of the function -/

/-- `p` is a loop around `l` with a header of its own. -/
structure Analyses.Encloses (a : Analyses f Λ) (p l : Λ) : Prop where
  subset : ∀ b, a.inLoop l b = true → a.inLoop p b = true
  header : a.inLoop l (a.header p) = false

/-- The loop information of the function before the pass. -/
structure Analyses.NaturalLoops (a : Analyses f Λ) : Prop where
  header_mem : ∀ l, a.inLoop l (a.header l) = true
  entry_notMem : ∀ l, a.inLoop l f.entry = false
  entry_notMem_succs : ∀ b, f.entry ∉ f.succs b
  reachable : ∀ l b, a.inLoop l b = true → f.ReachableBlock b
  header_of_enter : ∀ l b c, c ∈ f.succs b → a.inLoop l b = false → a.inLoop l c = true →
    c = a.header l
  back : ∀ l b, a.inLoop l b = true →
    Relation.TransGen (fun x y => a.inLoop l x = true ∧ y ∈ f.succs x ∧ a.inLoop l y = true) b
      (a.header l)
  chain : ∀ l, (l :: a.parentLoops l).Pairwise fun l p => a.Encloses p l

/-! ## The loops of the edited function -/

/-- An edge inside a loop. -/
structure Cfg.Within (g : Cfg β Λ) (l : Λ) (x y : Node β) : Prop where
  node : x ∈ g.nodes
  left : g.inLoop l x = true
  edge : y ∈ g.graph.succs x
  right : g.inLoop l y = true

/-- The edited function keeps every instruction, in a block that is in the loops of its old
block, and its loops are natural and nested. -/
structure Tracks (a : Analyses f Λ) (g : Cfg β Λ) (origin : Node β → β) : Prop where
  refines : g.Refines f a.inLoop origin
  placed : ∀ b, ∀ i ∈ f.insts b, ∃ c ∈ g.nodes, i ∈ g.graph.own c
  inLoop_old : ∀ l b, g.inLoop l (.old b) = a.inLoop l b
  inLoop_own : ∀ l, ∀ c ∈ g.nodes, ∀ i ∈ g.graph.own c, a.inLoop l (origin c) = true →
    g.inLoop l c = true
  enter : ∀ l, ∀ c ∈ g.nodes, ∀ d ∈ g.graph.succs c, g.inLoop l c = false →
    g.inLoop l d = true → d = .old (a.header l)
  back : ∀ l, ∀ c ∈ g.nodes, g.inLoop l c = true →
    Relation.TransGen (g.Within l) c (.old (a.header l))
  nested : ∀ l p, a.Encloses p l → ∀ c ∈ g.nodes, g.inLoop l c = true → g.inLoop p c = true

section Edits

variable {a : Analyses f Λ} {g g' : Cfg β Λ} {origin : Node β → β} {b u v : Node β}

theorem initial_tracks (ha : a.NaturalLoops) :
    ∃ origin, Tracks a (Cfg.initial f a.inLoop) origin := by
  have hold : ∀ c ∈ (Cfg.initial f a.inLoop).nodes, ∃ b, c = Node.old b := by
    intro c hc
    obtain ⟨b, -, rfl⟩ := List.mem_map.mp hc
    exact ⟨b, rfl⟩
  have hmem : ∀ b, Node.old b ∈ (Cfg.initial f a.inLoop).nodes :=
    fun b => List.mem_map_of_mem (f.complete b)
  refine ⟨_, Cfg.initial_refines f a.inLoop, ?_, fun _ _ => rfl, ?_, ?_, ?_, ?_⟩
  · intro b i hi
    refine ⟨.old b, hmem b, ?_⟩
    simpa [Graph.own, Cfg.initial, List.reduceOption] using hi
  · intro l c hc i _ hin
    obtain ⟨b, rfl⟩ := hold c hc
    exact hin
  · intro l c hc d hd hout hin
    obtain ⟨b, rfl⟩ := hold c hc
    obtain ⟨e, he, rfl⟩ := List.mem_map.mp hd
    rw [ha.header_of_enter l b e he hout hin]
  · intro l c hc hin
    obtain ⟨b, rfl⟩ := hold c hc
    refine (ha.back l b hin).lift Node.old ?_
    intro x y hxy
    exact ⟨hmem x, hxy.1, List.mem_map_of_mem hxy.2.1, hxy.2.2⟩
  · intro l p hp c hc hin
    obtain ⟨b, rfl⟩ := hold c hc
    exact hp.subset b hin

variable [DecidableEq β]

theorem Tracks.insertBefore (h : Tracks a g origin) (b : Node β) (behind : ℕ) :
    Tracks a (g.insertBefore b behind) origin := by
  refine ⟨h.refines.insertBefore b behind, ?_, h.inLoop_old, ?_, h.enter, ?_, h.nested⟩
  · intro b' i hi
    obtain ⟨c, hc, hic⟩ := h.placed b' i hi
    refine ⟨c, hc, ?_⟩
    rw [Cfg.own_insertBefore]
    exact hic
  · intro l c hc i hi
    rw [Cfg.own_insertBefore] at hi
    exact h.inLoop_own l c hc i hi
  · intro l c hc hin
    refine Relation.TransGen.mono ?_ _ _ (h.back l c hc hin)
    intro x y hxy
    exact ⟨hxy.node, hxy.left, hxy.edge, hxy.right⟩

/-! ## Splitting a block -/

/-- The edges, the labels and the loops of a function with a split block. -/
structure SplitSpec (g g' : Cfg β Λ) (b : Node β) : Prop where
  nodes : g'.nodes = g.nodes ++ [.new g.fresh]
  succs_self : g'.graph.succs b = [.new g.fresh]
  succs_new : g'.graph.succs (.new g.fresh) = g.graph.succs b
  succs_of_ne : ∀ c ∈ g.nodes, c ≠ b → g'.graph.succs c = g.graph.succs c
  inLoop_new : ∀ l, g'.inLoop l (.new g.fresh) = g.inLoop l b
  inLoop_of_mem : ∀ l, ∀ c ∈ g.nodes, g'.inLoop l c = g.inLoop l c
  own_of_ne : ∀ c ∈ g.nodes, c ≠ b → g'.graph.own c = g.graph.own c
  own_self : g.graph.own b = g'.graph.own b ++ g'.graph.own (.new g.fresh)

theorem splitBlock_spec (hn : .new g.fresh ∉ g.nodes) (hb : b ∈ g.nodes) (behind : ℕ) :
    SplitSpec g (g.splitBlock b behind) b := by
  have hne : ∀ c ∈ g.nodes, c ≠ .new g.fresh := fun c hc heq => hn (heq ▸ hc)
  have hbn := hne b hb
  refine ⟨rfl, Cfg.succs_splitBlock _ _ _, ?_, ?_, ?_, ?_, ?_, ?_⟩
  · simp [Cfg.splitBlock, Graph.splitNode, hbn.symm]
  · intro c hc hcb
    simp [Cfg.splitBlock, Graph.splitNode, hcb, hne c hc]
  · intro l
    simp [Cfg.splitBlock]
  · intro l c hc
    simp [Cfg.splitBlock, hne c hc]
  · intro c hc hcb
    simp [Graph.own, Cfg.splitBlock, Graph.splitNode, hcb, hne c hc]
  · have hlabels := List.take_append_drop ((g.graph.labels b).length - behind) (g.graph.labels b)
    simp only [Graph.own, Cfg.splitBlock, Graph.splitNode, Function.update_self,
      Function.update_of_ne hbn.symm, ← List.reduceOption_append, hlabels]

theorem Tracks.splitBlock (h : Tracks a g origin) (hb : b ∈ g.nodes) (behind : ℕ) :
    Tracks a (g.splitBlock b behind) (Function.update origin (.new g.fresh) (origin b)) := by
  have hn := h.refines.fresh_notMem
  have hlater := h.refines.splitBlock hb behind
  have hspec := splitBlock_spec hn hb behind
  generalize g.splitBlock b behind = g' at hlater hspec ⊢
  have hnode : ∀ c ∈ g'.nodes, c ∈ g.nodes ∨ c = .new g.fresh := by
    intro c hc
    rw [hspec.nodes, List.mem_append, List.mem_singleton] at hc
    exact hc
  have hnew : Node.new g.fresh ∈ g'.nodes := by
    rw [hspec.nodes]
    exact List.mem_append_right _ (List.mem_singleton_self _)
  obtain ⟨done, hsub⟩ := h.refines.subdivides
  refine ⟨hlater.refines, ?_, ?_, ?_, ?_, ?_, ?_⟩
  · intro b' i hi
    obtain ⟨c, hc, hic⟩ := h.placed b' i hi
    by_cases hcb : c = b
    · subst hcb
      rw [hspec.own_self] at hic
      rcases List.mem_append.mp hic with hic | hic
      · exact ⟨c, hlater.nodes c hc, hic⟩
      · exact ⟨_, hnew, hic⟩
    · refine ⟨c, hlater.nodes c hc, ?_⟩
      rw [hspec.own_of_ne c hc hcb]
      exact hic
  · intro l b'
    rw [hspec.inLoop_of_mem l _ (hsub.emb_mem b')]
    exact h.inLoop_old l b'
  · intro l c hc i hi hin
    rcases hnode c hc with hc | rfl
    · rw [hlater.origin_eq c hc] at hin
      rw [hspec.inLoop_of_mem l c hc]
      by_cases hcb : c = b
      · subst hcb
        refine h.inLoop_own l c hc i ?_ hin
        rw [hspec.own_self]
        exact List.mem_append_left _ hi
      · rw [hspec.own_of_ne c hc hcb] at hi
        exact h.inLoop_own l c hc i hi hin
    · rw [Function.update_self] at hin
      rw [hspec.inLoop_new]
      refine h.inLoop_own l b hb i ?_ hin
      rw [hspec.own_self]
      exact List.mem_append_right _ hi
  · intro l c hc d hd hout hin
    rcases hnode c hc with hc | rfl
    · rw [hspec.inLoop_of_mem l c hc] at hout
      by_cases hcb : c = b
      · subst hcb
        rw [hspec.succs_self, List.mem_singleton] at hd
        rw [hd, hspec.inLoop_new, hout] at hin
        cases hin
      · rw [hspec.succs_of_ne c hc hcb] at hd
        rw [hspec.inLoop_of_mem l d (hsub.closed c hc d hd)] at hin
        exact h.enter l c hc d hd hout hin
    · rw [hspec.inLoop_new] at hout
      rw [hspec.succs_new] at hd
      rw [hspec.inLoop_of_mem l d (hsub.closed b hb d hd)] at hin
      exact h.enter l b hb d hd hout hin
  · intro l c hc hin
    have hedge : ∀ x y, g.Within l x y → Relation.TransGen (g'.Within l) x y := by
      intro x y hxy
      have hy := hsub.closed x hxy.node y hxy.edge
      have hyin : g'.inLoop l y = true := by
        rw [hspec.inLoop_of_mem l y hy]
        exact hxy.right
      have hxin : g'.inLoop l x = true := by
        rw [hspec.inLoop_of_mem l x hxy.node]
        exact hxy.left
      by_cases hxb : x = b
      · subst hxb
        have hnin : g'.inLoop l (.new g.fresh) = true := by
          rw [hspec.inLoop_new]
          exact hxy.left
        have hfirst : g'.Within l x (.new g.fresh) :=
          ⟨hlater.nodes x hxy.node, hxin, by rw [hspec.succs_self]; simp, hnin⟩
        have hsecond : g'.Within l (.new g.fresh) y :=
          ⟨hnew, hnin, by rw [hspec.succs_new]; exact hxy.edge, hyin⟩
        exact (Relation.TransGen.single hfirst).tail hsecond
      · refine Relation.TransGen.single ⟨hlater.nodes x hxy.node, hxin, ?_, hyin⟩
        rw [hspec.succs_of_ne x hxy.node hxb]
        exact hxy.edge
    rcases hnode c hc with hc | rfl
    · rw [hspec.inLoop_of_mem l c hc] at hin
      exact Relation.TransGen.lift' id hedge _ _ (h.back l c hc hin)
    · rw [hspec.inLoop_new] at hin
      obtain ⟨y, hby, hy⟩ := Relation.TransGen.head'_iff.mp (h.back l b hb hin)
      have hfirst : g'.Within l (.new g.fresh) y := by
        refine ⟨hnew, ?_, ?_, ?_⟩
        · rw [hspec.inLoop_new]
          exact hin
        · rw [hspec.succs_new]
          exact hby.edge
        · rw [hspec.inLoop_of_mem l y (hsub.closed b hb y hby.edge)]
          exact hby.right
      have hrest := Relation.ReflTransGen.lift' id
        (fun x y hxy => (hedge x y hxy).to_reflTransGen) _ _ hy
      exact Relation.TransGen.head' hfirst hrest
  · intro l p hp c hc hin
    rcases hnode c hc with hc | rfl
    · rw [hspec.inLoop_of_mem l c hc] at hin
      rw [hspec.inLoop_of_mem p c hc]
      exact h.nested l p hp c hc hin
    · rw [hspec.inLoop_new] at hin ⊢
      exact h.nested l p hp b hb hin

/-! ## Putting a block on edges -/

/-- The edges, the labels and the loops of a function with a block put on edges from `u` to
`v`. -/
structure InterposeSpec (g g' : Cfg β Λ) (u v : Node β) : Prop where
  nodes : g'.nodes = g.nodes ++ [.new g.fresh]
  succs_new : g'.graph.succs (.new g.fresh) = [v]
  succs_of_ne : ∀ c ∈ g.nodes, c ≠ u → g'.graph.succs c = g.graph.succs c
  succs_sub : ∀ c ∈ g'.graph.succs u, c = .new g.fresh ∨ c ∈ g.graph.succs u
  succs_sup : ∀ c ∈ g.graph.succs u, c ∈ g'.graph.succs u ∨
    c = v ∧ .new g.fresh ∈ g'.graph.succs u
  inLoop_new : ∀ l, g'.inLoop l (.new g.fresh) = true ↔ g.inLoop l u = true ∧ g.inLoop l v = true
  inLoop_of_mem : ∀ l, ∀ c ∈ g.nodes, g'.inLoop l c = g.inLoop l c
  own_of_mem : ∀ c ∈ g.nodes, g'.graph.own c = g.graph.own c
  own_new : g'.graph.own (.new g.fresh) = []

theorem splitKnownCriticalEdge_spec (hn : .new g.fresh ∉ g.nodes) (hu : u ∈ g.nodes) :
    InterposeSpec g (g.splitKnownCriticalEdge u v) u v := by
  have hne : ∀ c ∈ g.nodes, c ≠ .new g.fresh := fun c hc heq => hn (heq ▸ hc)
  have hun := hne u hu
  have hsuccs : (g.splitKnownCriticalEdge u v).graph.succs u =
      (g.graph.succs u).map fun w => if w = v then .new g.fresh else w := by
    simp [Cfg.splitKnownCriticalEdge, Graph.interpose]
  refine ⟨rfl, ?_, ?_, ?_, ?_, ?_, ?_, ?_, ?_⟩
  · simp [Cfg.splitKnownCriticalEdge, Graph.interpose, hun.symm]
  · intro c hc hcu
    simp [Cfg.splitKnownCriticalEdge, Graph.interpose, hcu, hne c hc]
  · intro c hc
    rw [hsuccs] at hc
    obtain ⟨w, hw, rfl⟩ := List.mem_map.mp hc
    split
    · exact Or.inl rfl
    · exact Or.inr hw
  · intro c hc
    rw [hsuccs]
    by_cases hcv : c = v
    · exact Or.inr ⟨hcv, List.mem_map.mpr ⟨c, hc, if_pos hcv⟩⟩
    · exact Or.inl (List.mem_map.mpr ⟨c, hc, if_neg hcv⟩)
  · intro l
    simp [Cfg.splitKnownCriticalEdge]
  · intro l c hc
    simp [Cfg.splitKnownCriticalEdge, hne c hc]
  · intro c hc
    simp [Graph.own, Cfg.splitKnownCriticalEdge, Graph.interpose, hne c hc]
  · simp [Graph.own, Cfg.splitKnownCriticalEdge, Graph.interpose]

theorem insertThen_spec (hn : .new g.fresh ∉ g.nodes) (hb : b ∈ g.nodes)
    (hv : g.graph.succs b = [v]) (hloop : ∀ l, g.inLoop l v = g.inLoop l b) :
    InterposeSpec g (g.insertThen b v) b v := by
  have hne : ∀ c ∈ g.nodes, c ≠ .new g.fresh := fun c hc heq => hn (heq ▸ hc)
  have hbn := hne b hb
  refine ⟨rfl, ?_, ?_, ?_, ?_, ?_, ?_, ?_, ?_⟩
  · simp [Cfg.insertThen, Graph.interpose, hbn.symm]
  · intro c hc hcb
    simp [Cfg.insertThen, Graph.interpose, hcb, hne c hc]
  · intro c hc
    rw [hv]
    simpa [Cfg.insertThen, Graph.interpose] using hc
  · intro c hc
    rw [hv, List.mem_singleton] at hc
    simp [Cfg.insertThen, Graph.interpose, hc]
  · intro l
    simp [Cfg.insertThen, hloop]
  · intro l c hc
    simp [Cfg.insertThen, hne c hc]
  · intro c hc
    simp [Graph.own, Cfg.insertThen, Graph.interpose, hne c hc]
  · simp [Graph.own, Cfg.insertThen, Graph.interpose]

theorem Tracks.interpose (h : Tracks a g origin) (hspec : InterposeSpec g g' u v)
    (hlater : Cfg.Later f a.inLoop g g' origin
      (Function.update origin (.new g.fresh) (origin u)))
    (hu : u ∈ g.nodes) (hv : v ∈ g.graph.succs u) :
    Tracks a g' (Function.update origin (.new g.fresh) (origin u)) := by
  obtain ⟨done, hsub⟩ := h.refines.subdivides
  have hvmem := hsub.closed u hu v hv
  have hnode : ∀ c ∈ g'.nodes, c ∈ g.nodes ∨ c = .new g.fresh := by
    intro c hc
    rw [hspec.nodes, List.mem_append, List.mem_singleton] at hc
    exact hc
  have hnew : Node.new g.fresh ∈ g'.nodes := by
    rw [hspec.nodes]
    exact List.mem_append_right _ (List.mem_singleton_self _)
  refine ⟨hlater.refines, ?_, ?_, ?_, ?_, ?_, ?_⟩
  · intro b' i hi
    obtain ⟨c, hc, hic⟩ := h.placed b' i hi
    refine ⟨c, hlater.nodes c hc, ?_⟩
    rw [hspec.own_of_mem c hc]
    exact hic
  · intro l b'
    rw [hspec.inLoop_of_mem l _ (hsub.emb_mem b')]
    exact h.inLoop_old l b'
  · intro l c hc i hi hin
    rcases hnode c hc with hc | rfl
    · rw [hlater.origin_eq c hc] at hin
      rw [hspec.own_of_mem c hc] at hi
      rw [hspec.inLoop_of_mem l c hc]
      exact h.inLoop_own l c hc i hi hin
    · rw [hspec.own_new] at hi
      cases hi
  · intro l c hc d hd hout hin
    rcases hnode c hc with hc | rfl
    · rw [hspec.inLoop_of_mem l c hc] at hout
      have hold : d ∈ g.graph.succs c → d = .old (a.header l) := by
        intro hd
        rw [hspec.inLoop_of_mem l d (hsub.closed c hc d hd)] at hin
        exact h.enter l c hc d hd hout hin
      by_cases hcu : c = u
      · subst hcu
        rcases hspec.succs_sub d hd with rfl | hd
        · rw [hspec.inLoop_new, hout] at hin
          cases hin.1
        · exact hold hd
      · rw [hspec.succs_of_ne c hc hcu] at hd
        exact hold hd
    · rw [hspec.succs_new, List.mem_singleton] at hd
      subst hd
      rw [hspec.inLoop_of_mem l d hvmem] at hin
      have hout' : g.inLoop l u = false := by
        cases hul : g.inLoop l u with
        | false => rfl
        | true =>
            rw [(hspec.inLoop_new l).mpr ⟨hul, hin⟩] at hout
            cases hout
      exact h.enter l u hu d hv hout' hin
  · intro l c hc hin
    have hvia : g.inLoop l u = true → g.inLoop l v = true → g'.Within l (.new g.fresh) v := by
      intro hul hvl
      refine ⟨hnew, (hspec.inLoop_new l).mpr ⟨hul, hvl⟩, ?_, ?_⟩
      · rw [hspec.succs_new]
        exact List.mem_singleton_self _
      · rw [hspec.inLoop_of_mem l v hvmem]
        exact hvl
    have hedge : ∀ x y, g.Within l x y → Relation.TransGen (g'.Within l) x y := by
      intro x y hxy
      have hyin : g'.inLoop l y = true := by
        rw [hspec.inLoop_of_mem l y (hsub.closed x hxy.node y hxy.edge)]
        exact hxy.right
      have hxin : g'.inLoop l x = true := by
        rw [hspec.inLoop_of_mem l x hxy.node]
        exact hxy.left
      by_cases hxu : x = u
      · subst hxu
        rcases hspec.succs_sup y hxy.edge with hy | ⟨rfl, hn⟩
        · exact Relation.TransGen.single ⟨hlater.nodes x hxy.node, hxin, hy, hyin⟩
        · have hsecond := hvia hxy.left hxy.right
          exact (Relation.TransGen.single
            ⟨hlater.nodes x hxy.node, hxin, hn, hsecond.left⟩).tail hsecond
      · refine Relation.TransGen.single ⟨hlater.nodes x hxy.node, hxin, ?_, hyin⟩
        rw [hspec.succs_of_ne x hxy.node hxu]
        exact hxy.edge
    rcases hnode c hc with hc | rfl
    · rw [hspec.inLoop_of_mem l c hc] at hin
      exact Relation.TransGen.lift' id hedge _ _ (h.back l c hc hin)
    · obtain ⟨hul, hvl⟩ := (hspec.inLoop_new l).mp hin
      have hrest := Relation.TransGen.lift' id hedge _ _ (h.back l v hvmem hvl)
      exact Relation.TransGen.head (hvia hul hvl) hrest
  · intro l p hp c hc hin
    rcases hnode c hc with hc | rfl
    · rw [hspec.inLoop_of_mem l c hc] at hin
      rw [hspec.inLoop_of_mem p c hc]
      exact h.nested l p hp c hc hin
    · obtain ⟨hul, hvl⟩ := (hspec.inLoop_new l).mp hin
      exact (hspec.inLoop_new p).mpr ⟨h.nested l p hp u hu hul, h.nested l p hp v hvmem hvl⟩

/-! ## The edits of the pass -/

variable {inst : Instruction} {l : Λ} {exiting exit : Node β}

theorem Tracks.getBlockAddress (h : Tracks a g origin) (inst : Instruction) :
    ∃ origin', Tracks a (g.getBlockAddressOfInstruction inst) origin' ∧
      Cfg.Later f a.inLoop g (g.getBlockAddressOfInstruction inst) origin origin' := by
  unfold Cfg.getBlockAddressOfInstruction
  cases hparent : g.getParent inst with
  | none => exact ⟨origin, h, Cfg.Later.refl h.refines⟩
  | some b =>
      simp only
      split
      · exact ⟨origin, h, Cfg.Later.refl h.refines⟩
      · have hb := (Cfg.getParent_spec hparent).1
        exact ⟨_, h.splitBlock hb _, h.refines.splitBlock hb _⟩

theorem Tracks.dedicatedExit (h : Tracks a g origin) (hexiting : exiting ∈ g.nodes)
    (hexit : exit ∈ g.graph.succs exiting) :
    ∃ origin', Tracks a (g.dedicatedExit exiting exit).1 origin' ∧
      Cfg.Later f a.inLoop g (g.dedicatedExit exiting exit).1 origin origin' := by
  unfold Cfg.dedicatedExit
  split
  · have hlater := h.refines.splitKnownCriticalEdge hexiting hexit
    exact ⟨_, h.interpose (splitKnownCriticalEdge_spec h.refines.fresh_notMem hexiting) hlater
      hexiting hexit, hlater⟩
  · exact ⟨origin, h, Cfg.Later.refl h.refines⟩

theorem Tracks.markIndicator (h : Tracks a g origin) (inst : Instruction) (entry : Node β) :
    Tracks a (g.markIndicator inst entry) origin := by
  have hentry := (h.insertBefore entry (g.firstInsertionPt entry)).insertBefore entry
    (g.firstInsertionPt entry)
  unfold Cfg.markIndicator
  simp only
  split
  · exact hentry.insertBefore _ _
  · exact hentry

theorem Tracks.insertThen {tail : Node β} (h : Tracks a g origin) (hb : b ∈ g.nodes)
    (htail : g.graph.succs b = [tail]) (hloop : ∀ l, g.inLoop l tail = g.inLoop l b) :
    Tracks a (g.insertThen b tail) (Function.update origin (.new g.fresh) (origin b)) := by
  have hmem : tail ∈ g.graph.succs b := by
    rw [htail]
    exact List.mem_singleton_self tail
  exact h.interpose (insertThen_spec h.refines.fresh_notMem hb htail hloop)
    (h.refines.insertThen hb htail) hb hmem

theorem Tracks.combineMop {g' : Cfg β Λ} (h : Tracks a g origin)
    (hg : combineMop g inst l = some g') : ∃ origin', Tracks a g' origin' := by
  obtain ⟨exiting, hexiting, hg⟩ := Option.bind_eq_some_iff.mp hg
  obtain ⟨exit, hexit, rfl⟩ := Option.map_eq_some_iff.mp hg
  obtain ⟨hnode, -, hsucc⟩ := exit_mem_succs hexiting hexit
  obtain ⟨origin₁, hsplit, -⟩ := h.dedicatedExit hnode hsucc
  obtain ⟨origin₂, haddr, -⟩ := (hsplit.insertBefore (g.dedicatedExit exiting exit).2
    ((g.dedicatedExit exiting exit).1.firstInsertionPt
      (g.dedicatedExit exiting exit).2)).getBlockAddress inst
  exact ⟨origin₂, haddr⟩

end Edits

/-! ## Instructions and loops -/

section Parents

variable {a : Analyses f Λ} {g : Cfg β Λ} {origin : Node β → β} {inst : Instruction} {l : Λ}

/-- The instruction belongs to a block of the function's loop. -/
def DefinedIn (a : Analyses f Λ) (l : Λ) (inst : Instruction) : Prop :=
  ∃ b, inst ∈ f.insts b ∧ a.inLoop l b = true

/-- Every instruction of the function is found in the edited one. -/
theorem Tracks.exists_getParent {b : β} (h : Tracks a g origin) (hinst : inst ∈ f.insts b) :
    ∃ c, g.getParent inst = some c := by
  obtain ⟨c, hc, hown⟩ := h.placed b inst hinst
  apply Option.isSome_iff_exists.mp
  apply List.find?_isSome.mpr
  exact ⟨c, hc, decide_eq_true (List.reduceOption_mem_iff.mp hown)⟩

/-- The loop information of the edited function tells where an instruction belongs. -/
theorem Tracks.definedIn_iff (h : Tracks a g origin) :
    (g.getParent inst).any (g.inLoop l) = true ↔ DefinedIn a l inst := by
  constructor
  · intro hany
    obtain ⟨c, hc, hin⟩ := Option.any_eq_true _ _ |>.mp hany
    obtain ⟨hnode, hinst⟩ := mem_insts_of_getParent h.refines hc
    exact ⟨origin c, hinst, h.refines.inLoop l c hnode hin⟩
  · intro hdef
    obtain ⟨b, hinst, hin⟩ := hdef
    obtain ⟨c, hc⟩ := h.exists_getParent hinst
    obtain ⟨hnode, hinst'⟩ := mem_insts_of_getParent h.refines hc
    rw [f.parent _ _ inst hinst hinst'] at hin
    have hown : inst ∈ g.graph.own c := List.reduceOption_mem_iff.mpr (Cfg.getParent_spec hc).2
    rw [hc]
    exact h.inLoop_own l c hnode inst hown hin

end Parents

end Mair.Relocate
