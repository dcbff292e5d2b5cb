import Mair.Library.Kernels
import Mair.MopIr.Model
import Mair.Recurrence.Elimination

/-! # The two rounds of selection, exactly

The dominating set is the greedy selection of the covering relation: first the operations
that nothing covers, then, in the order of the vertices, each one that no chain of coverings
from an operation taken so far reaches. -/

namespace Mair.MopIr

open Ir DepthFirst Kernels Recurrence

/-! ## The covering relation -/

/-- An edge that the activity analysis let through. -/
def Step (edges : List Edge) (killing dead : Instruction) : Prop :=
  ∃ e ∈ edges, e.blocked = false ∧ e.killing = killing ∧ e.dead = dead

def unblocked (edges : List Edge) : List Edge := edges.filter fun e => !e.blocked

def vertexOf (edges : List Edge) (mop : Instruction) : Vertex where
  mop := mop
  children := ((unblocked edges).filter fun e => e.killing = mop).map Edge.dead
  hasParent := (unblocked edges).any fun e => e.dead = mop

theorem addChildren_map (f : Instruction → List Instruction) (g : Instruction → Bool)
    (mops : List Instruction) (e : Edge) :
    addChildren (mops.map fun m => ⟨m, f m, g m⟩) e.killing e.dead =
      mops.map fun m => ⟨m, f m ++ (if e.killing = m then [e.dead] else []),
        g m || decide (e.dead = m)⟩ := by
  rw [addChildren, List.map_map]
  apply List.map_congr_left
  intro m _
  simp only [Function.comp_apply, Vertex.mk.injEq, true_and]
  constructor
  · by_cases h : m = e.killing
    · simp [h]
    · simp [h, Ne.symm h]
  · simp [eq_comm]

theorem foldl_addChildren_map (edges : List Edge) (f : Instruction → List Instruction)
    (g : Instruction → Bool) (mops : List Instruction) :
    edges.foldl (fun graph e => if e.blocked then graph else addChildren graph e.killing e.dead)
        (mops.map fun m => ⟨m, f m, g m⟩) =
      mops.map fun m => ⟨m, f m ++ (vertexOf edges m).children,
        g m || (vertexOf edges m).hasParent⟩ := by
  induction edges generalizing f g with
  | nil => simp [vertexOf, unblocked]
  | cons e edges ih =>
      rw [List.foldl_cons]
      cases hb : e.blocked with
      | true =>
          rw [if_pos rfl, ih]
          simp [vertexOf, unblocked, hb]
      | false =>
          rw [if_neg Bool.false_ne_true, addChildren_map, ih]
          apply List.map_congr_left
          intro m _
          by_cases hm : e.killing = m
          · simp [vertexOf, unblocked, hb, hm, Bool.or_assoc]
          · simp [vertexOf, unblocked, hb, hm, Bool.or_assoc]

theorem recurringGraph_eq (mops : List Instruction) (edges : List Edge) :
    recurringGraph mops edges = mops.map (vertexOf edges) := by
  rw [recurringGraph, foldl_addChildren_map]
  simp [vertexOf]

theorem mem_vertexOf_children_iff {edges : List Edge} {m c : Instruction} :
    c ∈ (vertexOf edges m).children ↔ Step edges m c := by
  simp only [vertexOf, unblocked, List.mem_map, List.mem_filter, Bool.not_eq_true',
    decide_eq_true_eq, Step, and_assoc]

theorem vertexOf_hasParent_iff {edges : List Edge} {m : Instruction} :
    (vertexOf edges m).hasParent = false ↔ IsSource (Step edges) m := by
  simp [vertexOf, unblocked, IsSource, Step]
  grind

/-- The candidates contain both ends of each edge. -/
def EdgesInside (mops : List Instruction) (edges : List Edge) : Prop :=
  ∀ e ∈ edges, e.killing ∈ mops ∧ e.dead ∈ mops

theorem EdgesInside.of_step {mops : List Instruction} {edges : List Edge}
    (hinside : EdgesInside mops edges) {m c : Instruction} (h : Step edges m c) :
    m ∈ mops ∧ c ∈ mops := by
  obtain ⟨e, he, -, rfl, rfl⟩ := h
  exact hinside e he

theorem edgesInside_candidatesOf (edges : List Edge) :
    EdgesInside (candidatesOf edges) edges := by
  intro e he
  exact ⟨mem_candidatesOf_iff.mpr ⟨e, he, Or.inl rfl⟩,
    mem_candidatesOf_iff.mpr ⟨e, he, Or.inr rfl⟩⟩

theorem children_recurringGraph {mops : List Instruction} {edges : List Edge} {m : Instruction}
    (hm : m ∈ mops) :
    children (recurringGraph mops edges) m = (vertexOf edges m).children := by
  have hfind : mops.find? (fun a => decide (a = m)) = some m := by
    cases hsome : mops.find? (fun a => decide (a = m)) with
    | none => simpa using List.find?_eq_none.mp hsome m hm
    | some a => simpa using List.find?_some hsome
  rw [children, recurringGraph_eq, List.find?_map]
  have hcomp : (fun v : Vertex => decide (v.mop = m)) ∘ vertexOf edges =
      fun a => decide (a = m) := rfl
  rw [hcomp, hfind, Option.map_some]

theorem mem_children_iff {mops : List Instruction} {edges : List Edge}
    (hinside : EdgesInside mops edges) {m c : Instruction} :
    c ∈ children (recurringGraph mops edges) m ↔ Step edges m c := by
  constructor
  · intro h
    exact edge_of_mem_children h
  · intro h
    rw [children_recurringGraph (hinside.of_step h).1]
    exact mem_vertexOf_children_iff.mpr h

theorem closedGraph_recurringGraph {mops : List Instruction} {edges : List Edge}
    (hinside : EdgesInside mops edges) : ClosedGraph (recurringGraph mops edges) := by
  intro u _ c hc
  rw [recurringGraph_mops]
  exact (hinside.of_step ((mem_children_iff hinside).mp hc)).2

/-! ## Rounds as greedy selections -/

section Rounds

variable {graph : List Vertex} {skip skip' : Selection → Vertex → Bool} {s : Selection}
  {vs : List Vertex}

/-- The children of what was visited were visited. -/
def Closed (graph : List Vertex) (s : Selection) : Prop :=
  ∀ m ∈ s.visited, ∀ c ∈ children graph m, c ∈ s.visited

def seen (s : Selection) : Set Instruction := {m | m ∈ s.visited}

@[simp] theorem mem_seen_iff {s : Selection} {m : Instruction} : m ∈ seen s ↔ m ∈ s.visited :=
  Iff.rfl

/-- `s'` continues `s` with the operations `picked`. -/
structure Continues (graph : List Vertex) (s : Selection) (picked : List Instruction)
    (s' : Selection) : Prop where
  domSet : s'.domSet = s.domSet ++ picked
  closed : Closed graph s'
  visited : ∀ m, m ∈ s'.visited ↔
    m ∈ s.visited ∨ ∃ k ∈ picked, Reaches (children graph) k m

theorem Continues.refl (hs : Closed graph s) : Continues graph s [] s :=
  ⟨(List.append_nil _).symm, hs, by simp⟩

theorem mem_push_visited (hclosed : ClosedGraph graph) (hs : Closed graph s) {v : Vertex}
    (hv : v ∈ graph) {m : Instruction} :
    m ∈ (s.push graph v).visited ↔ m ∈ s.visited ∨ Reaches (children graph) v.mop m :=
  mem_depthFirst_iff hclosed (List.mem_map_of_mem hv) hs

theorem Closed.push (hclosed : ClosedGraph graph) (hs : Closed graph s) {v : Vertex}
    (hv : v ∈ graph) : Closed graph (s.push graph v) := by
  intro m hm c hc
  rw [mem_push_visited hclosed hs hv] at hm ⊢
  cases hm with
  | inl hm => exact Or.inl (hs m hm c hc)
  | inr hm => exact Or.inr (hm.tail hc)

theorem Continues.push (hclosed : ClosedGraph graph) (hs : Closed graph s) {v : Vertex}
    (hv : v ∈ graph) {picked : List Instruction} {s' : Selection}
    (h : Continues graph (s.push graph v) picked s') :
    Continues graph s (v.mop :: picked) s' where
  domSet := by
    rw [h.domSet]
    simp [Selection.push]
  closed := h.closed
  visited m := by
    rw [h.visited, mem_push_visited hclosed hs hv]
    simp [or_assoc]

theorem seen_push (hclosed : ClosedGraph graph) (hs : Closed graph s) {v : Vertex}
    (hv : v ∈ graph) :
    seen (s.push graph v) = (seen s) ∪ {m | Reaches (children graph) v.mop m} := by
  ext m
  exact mem_push_visited hclosed hs hv

theorem foldl_skipVisited (hclosed : ClosedGraph graph) (hvs : ∀ v ∈ vs, v ∈ graph)
    (hs : Closed graph s) :
    Continues graph s (greedy (fun a b => b ∈ children graph a) (seen s) (vs.map Vertex.mop))
      (vs.foldl (select graph skipVisited) s) := by
  induction vs generalizing s with
  | nil => exact Continues.refl hs
  | cons v vs ih =>
      have hv := hvs v List.mem_cons_self
      have hvs' : ∀ w ∈ vs, w ∈ graph := fun w hw => hvs w (List.mem_cons_of_mem _ hw)
      rw [List.foldl_cons, List.map_cons]
      by_cases hmem : v.mop ∈ s.visited
      · rw [greedy_cons_of_mem (mem_seen_iff.mpr hmem), select, skipVisited, decide_eq_true hmem,
          if_pos rfl]
        exact ih hvs' hs
      · rw [greedy_cons_of_notMem (mt mem_seen_iff.mp hmem), select, skipVisited, decide_eq_false hmem,
          if_neg Bool.false_ne_true]
        apply Continues.push hclosed hs hv
        have hrest := ih hvs' (hs.push hclosed hv)
        rwa [seen_push hclosed hs hv] at hrest

theorem foldl_select_congr (hvs : ∀ v ∈ vs, v ∈ graph) (hclosed : ClosedGraph graph)
    (heq : ∀ s' : Selection, (∀ m ∈ s.visited, m ∈ s'.visited) →
      ∀ v ∈ vs, skip s' v = skip' s' v) :
    vs.foldl (select graph skip) s = vs.foldl (select graph skip') s := by
  induction vs generalizing s with
  | nil => rfl
  | cons v vs ih =>
      rw [List.foldl_cons, List.foldl_cons, select, select,
        heq s (fun _ h => h) v List.mem_cons_self]
      apply ih
      · exact fun w hw => hvs w (List.mem_cons_of_mem _ hw)
      · intro s' hs' w hw
        apply heq s' _ w (List.mem_cons_of_mem _ hw)
        intro m hm
        apply hs'
        split
        · exact hm
        · exact (push_spec hclosed (hvs v List.mem_cons_self)).initial_mem m hm

/-- The first round visits the vertices that it may take one by one. -/
theorem foldl_skipRoot (hclosed : ClosedGraph graph) (hvs : ∀ v ∈ vs, v ∈ graph)
    (hs : Closed graph s) (hnodup : (vs.map Vertex.mop).Nodup)
    (hsource : ∀ v ∈ vs, v.hasParent = false →
      IsSource (fun a b => b ∈ children graph a) v.mop ∧ v.mop ∉ s.visited) :
    Continues graph s
      (greedy (fun a b => b ∈ children graph a) (seen s)
        ((vs.filter fun v => !v.hasParent).map Vertex.mop))
      (vs.foldl (select graph skipRoot) s) := by
  induction vs generalizing s with
  | nil => exact Continues.refl hs
  | cons v vs ih =>
      have hv := hvs v List.mem_cons_self
      have hvs' : ∀ w ∈ vs, w ∈ graph := fun w hw => hvs w (List.mem_cons_of_mem _ hw)
      obtain ⟨hfresh, hnodup'⟩ := List.nodup_cons.mp hnodup
      rw [List.foldl_cons]
      cases hp : v.hasParent with
      | true =>
          rw [List.filter_cons, hp, select, skipRoot, hp, if_pos rfl]
          exact ih hvs' hs hnodup' fun w hw => hsource w (List.mem_cons_of_mem _ hw)
      | false =>
          have hmem := (hsource v List.mem_cons_self hp).2
          rw [List.filter_cons, hp, select, skipRoot, hp, if_neg Bool.false_ne_true]
          simp only [Bool.not_false, if_true, List.map_cons]
          rw [greedy_cons_of_notMem (mt mem_seen_iff.mp hmem)]
          apply Continues.push hclosed hs hv
          have hrest := ih hvs' (hs.push hclosed hv) hnodup' ?_
          · rwa [seen_push hclosed hs hv] at hrest
          · intro w hw hpw
            obtain ⟨hsourceW, hmemW⟩ := hsource w (List.mem_cons_of_mem _ hw) hpw
            refine ⟨hsourceW, ?_⟩
            rw [mem_push_visited hclosed hs hv]
            intro h
            cases h with
            | inl h => exact hmemW h
            | inr h =>
                have heq : v.mop = w.mop := hsourceW.eq_of_reach h
                exact hfresh (heq ▸ List.mem_map_of_mem hw)

end Rounds

/-! ## Both pipelines select the sources first -/

section Both

variable {mops : List Instruction} {edges : List Edge}

theorem step_eq (hinside : EdgesInside mops edges) :
    (fun a b => b ∈ children (recurringGraph mops edges) a) = Step edges := by
  funext a b
  exact propext (mem_children_iff hinside)

theorem isSource_of_mem (hinside : EdgesInside mops edges) {v : Vertex}
    (hv : v ∈ recurringGraph mops edges) :
    v.hasParent = false ↔
      IsSource (fun a b => b ∈ children (recurringGraph mops edges) a) v.mop := by
  rw [step_eq hinside]
  rw [recurringGraph_eq] at hv
  obtain ⟨m, -, rfl⟩ := List.mem_map.mp hv
  exact vertexOf_hasParent_iff

theorem filter_sources (mops : List Instruction) (edges : List Edge) :
    ((recurringGraph mops edges).filter fun v => !v.hasParent).map Vertex.mop =
      open scoped Classical in mops.filter fun m => IsSource (Step edges) m := by
  classical
  rw [recurringGraph_eq, List.filter_map, List.map_map]
  have hmop : Vertex.mop ∘ vertexOf edges = id := rfl
  rw [hmop, List.map_id]
  apply List.filter_congr
  intro m _
  simp [← vertexOf_hasParent_iff]

/-- Two rounds of which the second one skips what was visited. -/
theorem twoRounds_eq (hinside : EdgesInside mops edges) (hnodup : mops.Nodup)
    (given : List Instruction) :
    ((recurringGraph mops edges).foldl (select (recurringGraph mops edges) skipVisited)
        ((recurringGraph mops edges).foldl (select (recurringGraph mops edges) skipRoot)
          ⟨given, []⟩)).domSet =
      given ++ sourcesFirst (Step edges) mops := by
  have hclosed := closedGraph_recurringGraph hinside
  have hstart : Closed (recurringGraph mops edges) ⟨given, []⟩ := by
    intro m hm
    cases hm
  have hmops := recurringGraph_mops mops edges
  have hroots := foldl_skipRoot hclosed (fun _ h => h) hstart (hmops.symm ▸ hnodup)
    fun v hv hp => ⟨(isSource_of_mem hinside hv).mp hp, List.not_mem_nil⟩
  have hrest := foldl_skipVisited hclosed (fun _ h => h) hroots.closed
  have hempty : seen ⟨given, []⟩ = ∅ := by
    ext m
    simp
  have hseen : seen ((recurringGraph mops edges).foldl
        (select (recurringGraph mops edges) skipRoot) ⟨given, []⟩) =
      ∅ ∪ {m | ∃ k ∈ greedy (Step edges) ∅ (open scoped Classical in
        mops.filter fun m => IsSource (Step edges) m), Relation.ReflTransGen (Step edges) k m} := by
    ext m
    rw [mem_seen_iff, hroots.visited, hempty, filter_sources, step_eq hinside]
    simp only [Reaches, step_eq hinside]
    simp
  rw [hrest.domSet, hroots.domSet, List.append_assoc, hmops, filter_sources, step_eq hinside,
    hseen, hempty, sourcesFirst, greedy_append]

theorem dominatingVertices_eq (hinside : EdgesInside mops edges) (hnodup : mops.Nodup) :
    dominatingVertices (recurringGraph mops edges) = sourcesFirst (Step edges) mops :=
  twoRounds_eq hinside hnodup []

/-- The second round of the reducer also leaves out operations without a parent, which the
first round has visited. -/
theorem fillDominatingSet_eq (hinside : EdgesInside mops edges) (hnodup : mops.Nodup)
    (given : List Instruction) :
    fillDominatingSet (recurringGraph mops edges) given =
      given ++ sourcesFirst (Step edges) mops := by
  have hclosed := closedGraph_recurringGraph hinside
  rw [← twoRounds_eq hinside hnodup, fillDominatingSet]
  refine congrArg Selection.domSet (foldl_select_congr (fun _ h => h) hclosed ?_)
  intro s hs v hv
  cases hp : v.hasParent with
  | true => simp [skipRest, skipVisited, hp]
  | false =>
      have hvisit := @foldl_select_visits _ skipRoot ⟨given, []⟩ _
        (fun w => w.hasParent = true) hclosed (fun _ h => h) (fun _ _ h => Or.inl h) v hv
      have hmem : v.mop ∈ s.visited := by
        cases hvisit with
        | inl h => exact absurd (hp.symm.trans h) Bool.false_ne_true
        | inr h => exact hs _ h
      simp [skipRest, skipVisited, hp, hmem]

theorem distillEdges_eq (insts : List Instruction) (edges : List Edge) :
    distillEdges insts edges = (insts.filter fun i => i ∉ candidatesOf edges) ++
      sourcesFirst (Step edges) (candidatesOf edges) :=
  fillDominatingSet_eq (edgesInside_candidatesOf edges) (candidatesOf_nodup edges) _

theorem isIsolated_of_notMem (hinside : EdgesInside mops edges) {m : Instruction}
    (hm : m ∉ mops) : IsIsolated (Step edges) m := by
  intro u
  constructor
  · intro h
    exact hm (hinside.of_step h).2
  · intro h
    exact hm (hinside.of_step h).1

end Both

end Mair.MopIr
