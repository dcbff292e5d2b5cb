import Mathlib.Data.Fin.VecNotation
import Mathlib.Tactic.FinCases
import Mair.StackRace.Bounds

/-! # What the two strategies collect

The accesses that each strategy collects, described by paths, and the condition under which
they are the accesses between a spawn and a join. -/

namespace Mair.StackRace

open Ir DepthFirst

/-! ## What each strategy collects -/

section Collected

variable {β : Type*} [DecidableEq β] {f : Function β} {q : CfgQueries β}
  {mops mightSpawns mightJoins : List (Site f)} {m : Site f}

/-- The access lies in a chain, behind a spawn of its block or a chained predecessor, and in
front of a join of its block or a chained successor. -/
structure InChain (mightSpawns mightJoins : List (Site f)) (m : Site f) : Prop where
  chained : Chained mightSpawns mightJoins m.block
  entered : (∃ b, m.block ∈ f.succs b ∧ Chained mightSpawns mightJoins b) ∨
    ∃ s ∈ mightSpawns, s.NotAfter m
  left : (∃ b ∈ f.succs m.block, Chained mightSpawns mightJoins b) ∨
    ∃ j ∈ mightJoins, m.NotAfter j

theorem isUnbounded_true_iff {b : β} :
    isUnbounded (f := f) (blocksBetween mightSpawns mightJoins) true b = true ↔
      ∃ p, b ∈ f.succs p ∧ Chained mightSpawns mightJoins p := by
  simp [isUnbounded, mem_predecessors_iff, mem_blocksBetween_iff]

theorem isUnbounded_false_iff {b : β} :
    isUnbounded (f := f) (blocksBetween mightSpawns mightJoins) false b = true ↔
      ∃ c ∈ f.succs b, Chained mightSpawns mightJoins c := by
  simp [isUnbounded, mem_blocksBetween_iff]

/-- A chained block contains a spawn, so only the order in the block is left to check. -/
theorem entered_iff (hchain : Chained mightSpawns mightJoins m.block) :
    mustNoRaceInBounds (deriveBounds (blocksBetween mightSpawns mightJoins) true mightSpawns)
        true m = false ↔
      (∃ b, m.block ∈ f.succs b ∧ Chained mightSpawns mightJoins b) ∨
        ∃ s ∈ mightSpawns, s.NotAfter m := by
  have hspawn := (chained_iff.mp hchain).1
  rw [← Bool.not_eq_true, mustNoRaceInBounds_iff, ← isUnbounded_true_iff]
  cases hup : isUnbounded (f := f) (blocksBetween mightSpawns mightJoins) true m.block with
  | true => simp
  | false =>
      simp only [hspawn, true_and, Bool.false_eq_true, false_or, not_forall, exists_prop,
        Bool.not_eq_true]
      refine exists_congr fun s => and_congr_right fun _ => and_congr_right fun hblock => ?_
      exact Iff.rfl

/-- A chained block without a join has a chained successor. -/
theorem left_iff (hchain : Chained mightSpawns mightJoins m.block) :
    mustNoRaceInBounds (deriveBounds (blocksBetween mightSpawns mightJoins) false mightJoins)
        false m = false ↔
      (∃ b ∈ f.succs m.block, Chained mightSpawns mightJoins b) ∨
        ∃ j ∈ mightJoins, m.NotAfter j := by
  rw [← Bool.not_eq_true, mustNoRaceInBounds_iff, ← isUnbounded_false_iff]
  cases hlow : isUnbounded (f := f) (blocksBetween mightSpawns mightJoins) false m.block with
  | true => simp
  | false =>
      have hjoin : Holds mightJoins m.block := by
        refine (chained_iff.mp hchain).2.resolve_right ?_
        intro hsucc
        rw [isUnbounded_false_iff.mpr hsucc] at hlow
        cases hlow
      simp only [hjoin, true_and, Bool.false_eq_true, false_or, not_forall, exists_prop,
        Bool.not_eq_true]
      refine exists_congr fun j => and_congr_right fun _ => ?_
      simp only [outside, Bool.false_eq_true, if_false, Site.NotAfter, eq_comm]

theorem mem_collectMany_iff : m ∈ collectManyMopsMayRace mops mightSpawns mightJoins ↔
    m ∈ mops ∧ InChain mightSpawns mightJoins m := by
  unfold collectManyMopsMayRace
  simp only [List.mem_filter, Bool.and_eq_true, decide_eq_true_eq, Bool.not_eq_true',
    Bool.or_eq_false_iff, mem_blocksBetween_iff]
  refine and_congr_right fun _ => ?_
  constructor
  · rintro ⟨hchain, hup, hlow⟩
    exact ⟨hchain, (entered_iff hchain).mp hup, (left_iff hchain).mp hlow⟩
  · rintro ⟨hchain, hup, hlow⟩
    exact ⟨hchain, (entered_iff hchain).mpr hup, (left_iff hchain).mpr hlow⟩

/-- A call that is found before the access in its block, in a common loop, or by the query
over the other blocks. -/
def SpawnSeen (q : CfgQueries β) (mightSpawns : List (Site f)) (m : Site f) : Prop :=
  (∃ s ∈ mightSpawns, s.block = m.block ∧
      (q.inLoop m.block = true ∨ s.comesBefore m = true)) ∨
    ((∃ s ∈ mightSpawns, s.block ≠ m.block) ∧
      q.isPotentiallyReachableFromMany (otherBlocks mightSpawns m.block) m.block = true)

def JoinSeen (q : CfgQueries β) (mightJoins : List (Site f)) (m : Site f) : Prop :=
  (∃ j ∈ mightJoins, j.block = m.block ∧
      (q.inLoop m.block = true ∨ m.comesBefore j = true)) ∨
    ∃ j ∈ mightJoins, j.block ≠ m.block ∧ Site.Leads f m.block j.block

theorem mem_otherBlocks_iff {sites : List (Site f)} {b c : β} :
    c ∈ otherBlocks sites b ↔ ∃ s ∈ sites, s.block = c ∧ s.block ≠ b := by
  simp only [otherBlocks, List.mem_filter, List.mem_map, decide_eq_true_eq]
  constructor
  · rintro ⟨⟨s, hs, rfl⟩, hne⟩
    exact ⟨s, hs, rfl, hne⟩
  · rintro ⟨s, hs, rfl, hne⟩
    exact ⟨⟨s, hs, rfl⟩, hne⟩

theorem otherBlocks_ne_nil_iff {sites : List (Site f)} {b : β} :
    otherBlocks sites b ≠ [] ↔ ∃ s ∈ sites, s.block ≠ b := by
  rw [Ne, List.eq_nil_iff_forall_not_mem]
  simp [mem_otherBlocks_iff]

omit [DecidableEq β] in
/-- The shape of both overloads: a common block decides, or the other blocks do. -/
theorem shape_iff {same other : Bool} {bs : List β} :
    (if same then true else if bs.isEmpty then false else other) = true ↔
      same = true ∨ (bs ≠ [] ∧ other = true) := by
  cases same <;> cases bs <;> simp

theorem isPotentiallyReachableFrom_iff :
    isPotentiallyReachableFrom q mightSpawns m = true ↔ SpawnSeen q mightSpawns m := by
  unfold isPotentiallyReachableFrom SpawnSeen
  rw [shape_iff, otherBlocks_ne_nil_iff]
  refine or_congr_left ?_
  simp only [List.any_eq_true, Bool.and_eq_true, decide_eq_true_eq, Bool.or_eq_true]
  refine exists_congr fun s => and_congr_right fun _ => and_congr_right fun hblock => ?_
  rw [hblock]

theorem mem_depthFirst_leads_iff {b c : β} (hne : c ≠ b) :
    c ∈ depthFirst f.succs f.blocks [] b ↔ Site.Leads f b c := by
  rw [mem_depthFirst_iff (fun _ _ v _ => f.complete v) (f.complete b) (by simp)]
  simp only [List.not_mem_nil, false_or]
  unfold Reaches
  rw [← exists_path_iff]
  constructor
  · rintro ⟨_ | ⟨x, p⟩, hp⟩
    · exact absurd (Path.nil_iff.mp hp).symm hne
    · obtain ⟨rfl, -⟩ := Path.cons_iff.mp hp
      exact ⟨p, hp⟩
  · rintro ⟨p, hp⟩
    exact ⟨b :: p, hp⟩

theorem isPotentiallyReachableTo_iff :
    isPotentiallyReachableTo q m mightJoins = true ↔ JoinSeen q mightJoins m := by
  unfold isPotentiallyReachableTo JoinSeen
  rw [shape_iff, otherBlocks_ne_nil_iff]
  refine or_congr (by simp) ?_
  simp only [List.any_eq_true, decide_eq_true_eq, mem_otherBlocks_iff]
  constructor
  · rintro ⟨-, b, hb, j, hj, rfl, hne⟩
    exact ⟨j, hj, hne, (mem_depthFirst_leads_iff hne).mp hb⟩
  · rintro ⟨j, hj, hne, hleads⟩
    exact ⟨⟨j, hj, hne⟩, j.block, (mem_depthFirst_leads_iff hne).mpr hleads, j, hj, rfl, hne⟩

theorem mem_collectSeveral_iff : m ∈ collectSeveralMopsMayRace q mops mightSpawns mightJoins ↔
    m ∈ mops ∧ SpawnSeen q mightSpawns m ∧ JoinSeen q mightJoins m := by
  unfold collectSeveralMopsMayRace
  rw [List.mem_filter, Bool.and_eq_true, isPotentiallyReachableFrom_iff,
    isPotentiallyReachableTo_iff]

end Collected

/-! ## Agreement -/

section Agreement

variable {β : Type*} [DecidableEq β] {f : Function β} {q : CfgQueries β}
  {mops mightSpawns mightJoins : List (Site f)} {m : Site f}

/-- The access is executed on the way from a spawn to a join. -/
def OnPath (mightSpawns mightJoins : List (Site f)) (m : Site f) : Prop :=
  ∃ s ∈ mightSpawns, ∃ j ∈ mightJoins, Site.Between s m j

omit [DecidableEq β] in
theorem onPath_iff : OnPath mightSpawns mightJoins m ↔
    (∃ s ∈ mightSpawns, s.Runs m) ∧ ∃ j ∈ mightJoins, m.Runs j := by
  simp only [OnPath, Site.between_iff]
  constructor
  · rintro ⟨s, hs, j, hj, hsm, hmj⟩
    exact ⟨⟨s, hs, hsm⟩, j, hj, hmj⟩
  · rintro ⟨⟨s, hs, hsm⟩, j, hj, hmj⟩
    exact ⟨s, hs, j, hj, hsm, hmj⟩

omit [DecidableEq β] in
theorem InChain.onPath (h : InChain mightSpawns mightJoins m) :
    OnPath mightSpawns mightJoins m := by
  refine onPath_iff.mpr ⟨?_, ?_⟩
  · rcases h.entered with ⟨b, hb, hchain⟩ | ⟨s, hs, hsm⟩
    · obtain ⟨s, hs, rfl⟩ := (chained_iff.mp hchain).1
      exact ⟨s, hs, Site.runs_iff.mpr (Or.inr ⟨[], Path.single hb⟩)⟩
    · exact ⟨s, hs, Site.runs_iff.mpr (Or.inl hsm)⟩
  · rcases h.left with ⟨b, hb, hchain⟩ | ⟨j, hj, hmj⟩
    · obtain ⟨p, j, hj, hp⟩ := hchain.exists_path
      exact ⟨j, hj, Site.runs_iff.mpr (Or.inr ⟨p, (Path.single hb).append hp⟩)⟩
    · exact ⟨j, hj, Site.runs_iff.mpr (Or.inl hmj)⟩

omit [DecidableEq β] in
theorem JoinSeen.runs (hq : q.Sound f) (h : JoinSeen q mightJoins m) :
    ∃ j ∈ mightJoins, m.Runs j := by
  rcases h with ⟨j, hj, hblock, hloop | hbefore⟩ | ⟨j, hj, -, hleads⟩
  · refine ⟨j, hj, Site.runs_iff.mpr (Or.inr ?_)⟩
    rw [hblock]
    exact hq.inLoop _ hloop
  · exact ⟨j, hj, Site.runs_of_comesBefore hblock.symm hbefore⟩
  · exact ⟨j, hj, Site.runs_iff.mpr (Or.inr hleads)⟩

/-- An access that follows no spawn is called reachable only by the query over the other
blocks. -/
theorem SpawnSeen.query (hq : q.Sound f) (h : SpawnSeen q mightSpawns m)
    (hnot : ∀ s ∈ mightSpawns, ¬s.Runs m) :
    otherBlocks mightSpawns m.block ≠ [] ∧
      q.isPotentiallyReachableFromMany (otherBlocks mightSpawns m.block) m.block = true := by
  rcases h with ⟨s, hs, hblock, hloop | hbefore⟩ | ⟨hother, hquery⟩
  · refine absurd (Site.runs_iff.mpr (Or.inr ?_)) (hnot s hs)
    rw [hblock]
    exact hq.inLoop _ hloop
  · exact absurd (Site.runs_of_comesBefore hblock hbefore) (hnot s hs)
  · exact ⟨otherBlocks_ne_nil_iff.mpr hother, hquery⟩

/-- The strategies agree when every access between a spawn and a join lies in a chain and is
seen from both sides, and the query is exact for the others. -/
structure Agreement (q : CfgQueries β) (mops mightSpawns mightJoins : List (Site f)) :
    Prop where
  inChain : ∀ m ∈ mops, OnPath mightSpawns mightJoins m → InChain mightSpawns mightJoins m
  seen : ∀ m ∈ mops, OnPath mightSpawns mightJoins m →
    SpawnSeen q mightSpawns m ∧ JoinSeen q mightJoins m
  exact : ∀ m ∈ mops, (∀ s ∈ mightSpawns, ¬s.Runs m) → JoinSeen q mightJoins m →
    otherBlocks mightSpawns m.block = [] ∨
      q.isPotentiallyReachableFromMany (otherBlocks mightSpawns m.block) m.block = false

/-- Both strategies collect the accesses between a spawn and a join, and hence the same ones,
if and only if the agreement condition holds. -/
theorem strategies_agree_iff (f : Function β) (q : CfgQueries β) (hq : q.Sound f)
    (mops mightSpawns mightJoins : List (Site f)) :
    ((∀ m, m ∈ collectManyMopsMayRace mops mightSpawns mightJoins ↔
        m ∈ mops ∧ OnPath mightSpawns mightJoins m) ∧
      ∀ m, m ∈ collectSeveralMopsMayRace q mops mightSpawns mightJoins ↔
        m ∈ collectManyMopsMayRace mops mightSpawns mightJoins) ↔
      Agreement q mops mightSpawns mightJoins := by
  simp only [mem_collectMany_iff, mem_collectSeveral_iff]
  constructor
  · rintro ⟨hmany, hsame⟩
    refine ⟨?_, ?_, ?_⟩
    · intro m hm hpath
      exact ((hmany m).mpr ⟨hm, hpath⟩).2
    · intro m hm hpath
      exact ((hsame m).mpr ((hmany m).mpr ⟨hm, hpath⟩)).2
    · intro m hm hnot hjoin
      by_contra hquery
      rw [not_or, Bool.not_eq_false] at hquery
      have hspawn : SpawnSeen q mightSpawns m :=
        Or.inr ⟨otherBlocks_ne_nil_iff.mp hquery.1, hquery.2⟩
      have hpath := ((hmany m).mp ((hsame m).mp ⟨hm, hspawn, hjoin⟩)).2
      obtain ⟨s, hs, hrun⟩ := (onPath_iff.mp hpath).1
      exact hnot s hs hrun
  · intro h
    refine ⟨fun m => and_congr_right fun hm => ⟨InChain.onPath, h.inChain m hm⟩, ?_⟩
    intro m
    refine and_congr_right fun hm => ⟨?_, fun hchain => h.seen m hm hchain.onPath⟩
    rintro ⟨hspawn, hjoin⟩
    apply h.inChain m hm
    refine onPath_iff.mpr ⟨?_, hjoin.runs hq⟩
    by_contra hnone
    have hnot : ∀ s ∈ mightSpawns, ¬s.Runs m := fun s hs hrun => hnone ⟨s, hs, hrun⟩
    obtain ⟨hne, hquery⟩ := hspawn.query hq hnot
    rcases h.exact m hm hnot hjoin with hnil | hfalse
    · exact hne hnil
    · rw [hquery] at hfalse
      cases hfalse

/-- The second strategy is right about every access that is no spawn and no join itself, when
the loop information knows every cycle and the query is exact. -/
theorem mem_collectSeveral_of_exact (hq : q.Sound f)
    (hloop : ∀ b, Site.Leads f b b → q.inLoop b = true)
    (hquery : ∀ froms b, q.isPotentiallyReachableFromMany froms b = true →
      ∃ a ∈ froms, Site.Leads f a b)
    (hspawn : m ∉ mightSpawns) (hjoin : m ∉ mightJoins) :
    m ∈ collectSeveralMopsMayRace q mops mightSpawns mightJoins ↔
      m ∈ mops ∧ OnPath mightSpawns mightJoins m := by
  rw [mem_collectSeveral_iff, onPath_iff]
  refine and_congr_right fun _ => and_congr ⟨?_, ?_⟩ ⟨JoinSeen.runs hq, ?_⟩
  · intro hseen
    by_contra hnone
    have hnot : ∀ s ∈ mightSpawns, ¬s.Runs m := fun s hs hrun => hnone ⟨s, hs, hrun⟩
    obtain ⟨a, ha, hleads⟩ := hquery _ _ (hseen.query hq hnot).2
    obtain ⟨s, hs, rfl, -⟩ := mem_otherBlocks_iff.mp ha
    exact hnot s hs (Site.runs_iff.mpr (Or.inr hleads))
  · rintro ⟨s, hs, hrun⟩
    by_cases hblock : s.block = m.block
    · refine Or.inl ⟨s, hs, hblock, ?_⟩
      rcases Site.runs_iff.mp hrun with hafter | hleads
      · rcases (Site.notAfter_iff hblock).mp hafter with rfl | hbefore
        · exact absurd hs hspawn
        · exact Or.inr hbefore
      · rw [hblock] at hleads
        exact Or.inl (hloop _ hleads)
    · have hleads := (Site.runs_iff.mp hrun).resolve_left fun h => hblock h.1
      refine Or.inr ⟨⟨s, hs, hblock⟩, hq.reachable _ _ ⟨s.block, ?_, hleads⟩⟩
      exact mem_otherBlocks_iff.mpr ⟨s, hs, rfl, hblock⟩
  · rintro ⟨j, hj, hrun⟩
    by_cases hblock : j.block = m.block
    · refine Or.inl ⟨j, hj, hblock, ?_⟩
      rcases Site.runs_iff.mp hrun with hafter | hleads
      · rcases (Site.notAfter_iff hblock.symm).mp hafter with rfl | hbefore
        · exact absurd hj hjoin
        · exact Or.inr hbefore
      · rw [hblock] at hleads
        exact Or.inl (hloop _ hleads)
    · have hleads := (Site.runs_iff.mp hrun).resolve_left fun h => hblock h.1.symm
      exact Or.inr ⟨j, hj, hblock, hleads⟩

end Agreement

/-! ## A spawn, an access and a join in a row -/

local instance neZeroThree : NeZero 3 := ⟨by decide⟩

def straight : Function (Fin 3) where
  blocks := [0, 1, 2]
  entry := 0
  insts := ![[plainCall 0], [plainStore 1], [plainCall 2]]
  succs := ![[1], [2], []]
  complete := by decide
  nodup := by decide
  parent := by
    intro b b' inst hb hb'
    fin_cases b <;> fin_cases b' <;> simp_all [plainStore, plainCall]

def straightSpawn : Site straight := ⟨0, plainCall 0, by decide⟩

def straightMop : Site straight := ⟨1, plainStore 1, by decide⟩

def straightJoin : Site straight := ⟨2, plainCall 2, by decide⟩

def straightQueries : CfgQueries (Fin 3) where
  inLoop _ := false
  isPotentiallyReachableFromMany froms b := froms.any fun a => a < b

theorem straight_succs_lt : ∀ a : Fin 3, ∀ b ∈ straight.succs a, a < b := by
  decide

theorem straight_le {a b : Fin 3} {p : List (Fin 3)} (h : straight.PathFrom a p b) : a ≤ b := by
  induction h with
  | nil => exact le_rfl
  | snoc _ hc ih => exact ih.trans (straight_succs_lt _ _ hc).le

theorem straight_lt {a b : Fin 3} (h : Site.Leads straight a b) : a < b := by
  obtain ⟨p, hpath⟩ := h
  obtain ⟨-, d, hd, hrest⟩ := Path.cons_iff.mp hpath
  exact (straight_succs_lt a d hd).trans_le (straight_le hrest)

theorem straightQueries_sound : straightQueries.Sound straight where
  inLoop _ h := by cases h
  reachable froms b := by
    rintro ⟨a, ha, hleads⟩
    exact List.any_eq_true.mpr ⟨a, ha, by simpa using straight_lt hleads⟩

/-- The traversal from the spawn does not leave its block, so the first strategy misses the
access. -/
theorem strategies_disagree :
    straightQueries.Sound straight ∧ OnPath [straightSpawn] [straightJoin] straightMop ∧
      straightMop ∈ collectSeveralMopsMayRace straightQueries [straightMop] [straightSpawn]
        [straightJoin] ∧
      straightMop ∉ collectManyMopsMayRace [straightMop] [straightSpawn] [straightJoin] := by
  have hspawn : Site.Leads straight 0 1 := ⟨[], Path.single (by decide)⟩
  have hjoin : Site.Leads straight 1 2 := ⟨[], Path.single (by decide)⟩
  refine ⟨straightQueries_sound, onPath_iff.mpr ⟨?_, ?_⟩, by decide, by decide⟩
  · exact ⟨straightSpawn, by simp, Site.runs_iff.mpr (Or.inr hspawn)⟩
  · exact ⟨straightJoin, by simp, Site.runs_iff.mpr (Or.inr hjoin)⟩

theorem strategies_agree_iff_straight :
    ((∀ m, m ∈ collectManyMopsMayRace [straightMop] [straightSpawn] [straightJoin] ↔
        m ∈ [straightMop] ∧ OnPath [straightSpawn] [straightJoin] m) ∧
      ∀ m, m ∈ collectSeveralMopsMayRace straightQueries [straightMop] [straightSpawn]
          [straightJoin] ↔
        m ∈ collectManyMopsMayRace [straightMop] [straightSpawn] [straightJoin]) ↔
      Agreement straightQueries [straightMop] [straightSpawn] [straightJoin] :=
  strategies_agree_iff straight straightQueries straightQueries_sound [straightMop]
    [straightSpawn] [straightJoin]

end Mair.StackRace
