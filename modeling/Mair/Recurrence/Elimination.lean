import Mathlib.Data.Finset.Basic
import Mathlib.Tactic.IntervalCases
import Mair.Recurrence.Model

/-! # Elimination is sound over chains and cycles of edges

A covering execution of a covering execution covers, whichever side of the covered one
each of them lies on. Every eliminated operation is reachable in the recurring graph from
a kept one, so the cover composes along the path. -/

namespace Mair.Recurrence

open Ir DepthFirst

/-! ## Executions -/

/-- One executed instruction and the bytes that it accesses. -/
structure Event where
  inst : Instruction
  bytes : Finset ℕ

abbrev Trace := List Event

def Executes (tr : Trace) (t : ℕ) (inst : Instruction) : Prop :=
  ∃ event, tr[t]? = some event ∧ event.inst = inst

def bytesAt (tr : Trace) (t : ℕ) : Finset ℕ :=
  match tr[t]? with
  | some event => event.bytes
  | none => ∅

/-- No event strictly between `lo` and `hi` satisfies `p`. -/
def FreeBetween (tr : Trace) (p : Instruction → Bool) (lo hi : ℕ) : Prop :=
  ∀ u event, lo < u → u < hi → tr[u]? = some event → p event.inst = false

/-- Two adjacent free windows join across an event that is free itself. -/
theorem FreeBetween.join {tr : Trace} {p : Instruction → Bool} {lo mid hi : ℕ}
    {inst : Instruction} (hlo : FreeBetween tr p lo mid) (hhi : FreeBetween tr p mid hi)
    (hmid : Executes tr mid inst) (hp : p inst = false) : FreeBetween tr p lo hi := by
  intro u event hu hu' hevent
  rcases Nat.lt_trichotomy u mid with h | rfl | h
  · exact hlo u event hu h hevent
  · obtain ⟨event', hevent', rfl⟩ := hmid
    rw [hevent] at hevent'
    cases hevent'
    exact hp
  · exact hhi u event h hu' hevent

/-! ## Covering executions -/

/-- The execution of `killing` at `t'` makes the check of `dead` at `t` redundant. -/
structure Covers (isTsan : Bool) (tr : Trace) (killing dead : Instruction) (t' t : ℕ) :
    Prop where
  killing_at : Executes tr t' killing
  dead_at : Executes tr t dead
  bytes : bytesAt tr t ⊆ bytesAt tr t'
  noCallAfter : FreeBetween tr isClobberingCall t t'
  noCallBefore : FreeBetween tr isClobberingCall t' t
  noRelease : isTsan = true → FreeBetween tr isRelease t' t
  noAcquire : isTsan = true → FreeBetween tr isAcquire t t'
  write : isTsan = true → isWrite killing = true ∨ isWrite dead = false

/-- Every execution of `dead` is covered by one of `killing`. -/
def PairSound (isTsan : Bool) (executions : Set Trace) (killing dead : Instruction) : Prop :=
  ∀ tr ∈ executions, ∀ t, Executes tr t dead →
    ∃ t', Covers isTsan tr killing dead t' t

/-- Covering composes: any two of the three windows meet at the middle execution, which is
a memory operation and so neither a call nor a barrier. -/
theorem Covers.trans {isTsan : Bool} {tr : Trace} {k₁ k₂ d : Instruction} {t t' t'' : ℕ}
    (hmop : isInterestingMop k₂ = true) (h₂ : Covers isTsan tr k₂ d t' t)
    (h₁ : Covers isTsan tr k₁ k₂ t'' t') : Covers isTsan tr k₁ d t'' t where
  killing_at := h₁.killing_at
  dead_at := h₂.dead_at
  bytes := h₂.bytes.trans h₁.bytes
  noCallAfter := h₂.noCallAfter.join h₁.noCallAfter h₂.killing_at
    (isClobberingCall_eq_false_of_mop hmop)
  noCallBefore := h₁.noCallBefore.join h₂.noCallBefore h₂.killing_at
    (isClobberingCall_eq_false_of_mop hmop)
  noRelease h := (h₁.noRelease h).join (h₂.noRelease h) h₂.killing_at
    (isRelease_eq_false_of_mop hmop)
  noAcquire h := (h₂.noAcquire h).join (h₁.noAcquire h) h₂.killing_at
    (isAcquire_eq_false_of_mop hmop)
  write h := by
    rcases h₁.write h with hw | hr
    · exact Or.inl hw
    · rcases h₂.write h with hw | hd
      · rw [hr] at hw
        cases hw
      · exact Or.inr hd

/-- Neighbouring executions have nothing between them. -/
theorem Covers.of_adjacent {isTsan : Bool} {tr : Trace} {k d : Instruction} {t t' : ℕ}
    (hadjacent : t' ≤ t + 1 ∧ t ≤ t' + 1) (hk : Executes tr t' k) (hd : Executes tr t d)
    (hbytes : bytesAt tr t ⊆ bytesAt tr t')
    (hwrite : isTsan = true → isWrite k = true ∨ isWrite d = false) :
    Covers isTsan tr k d t' t where
  killing_at := hk
  dead_at := hd
  bytes := hbytes
  noCallAfter u _ _ _ := by omega
  noCallBefore u _ _ _ := by omega
  noRelease _ u _ _ _ := by omega
  noAcquire _ u _ _ _ := by omega
  write := hwrite

/-! ## Edges of the recurring graph -/

/-- Both ends of an edge are input operations that passed `isInterestingMop`. -/
def EdgesWithin (insts : List Instruction) (edges : List Edge) : Prop :=
  ∀ e ∈ edges, (e.killing ∈ insts ∧ isInterestingMop e.killing = true) ∧
    (e.dead ∈ insts ∧ isInterestingMop e.dead = true)

theorem mem_insertNew_iff {set : List Instruction} {inst i : Instruction} :
    i ∈ insertNew set inst ↔ i ∈ set ∨ i = inst := by
  unfold insertNew
  split
  · next h =>
      constructor
      · exact Or.inl
      · rintro (hi | rfl)
        · exact hi
        · exact h
  · simp

theorem insertNew_nodup {set : List Instruction} (h : set.Nodup) (inst : Instruction) :
    (insertNew set inst).Nodup := by
  unfold insertNew
  split
  · exact h
  · next hn => exact List.nodup_append.mpr ⟨h, List.nodup_singleton _, by simp; grind⟩

theorem foldl_insertNew_spec (edges : List Edge) (set : List Instruction) (hset : set.Nodup) :
    let all := edges.foldl (fun set e => insertNew (insertNew set e.killing) e.dead) set
    all.Nodup ∧ ∀ i, i ∈ all ↔ i ∈ set ∨ ∃ e ∈ edges, i = e.killing ∨ i = e.dead := by
  induction edges generalizing set with
  | nil => simpa using hset
  | cons e edges ih =>
      obtain ⟨hnodup, hmem⟩ := ih _ (insertNew_nodup (insertNew_nodup hset e.killing) e.dead)
      refine ⟨hnodup, ?_⟩
      intro i
      rw [List.foldl_cons, hmem, mem_insertNew_iff, mem_insertNew_iff]
      simp [or_assoc]

theorem candidatesOf_nodup (edges : List Edge) : (candidatesOf edges).Nodup :=
  (foldl_insertNew_spec edges [] List.nodup_nil).1

theorem mem_candidatesOf_iff {edges : List Edge} {i : Instruction} :
    i ∈ candidatesOf edges ↔ ∃ e ∈ edges, i = e.killing ∨ i = e.dead := by
  have h := (foldl_insertNew_spec edges [] List.nodup_nil).2 i
  simpa [candidatesOf] using h

theorem addChildren_mops (graph : List Vertex) (killing dead : Instruction) :
    (addChildren graph killing dead).map Vertex.mop = graph.map Vertex.mop := by
  simp [addChildren, Function.comp_def]

theorem mem_children_addChildren {graph : List Vertex} {killing dead mop c : Instruction}
    (h : c ∈ children (addChildren graph killing dead) mop) :
    c ∈ children graph mop ∨ (mop = killing ∧ c = dead) := by
  unfold children addChildren at h
  rw [List.find?_map] at h
  unfold children
  simp only [Function.comp_def] at h
  cases hfind : graph.find? fun v => decide (v.mop = mop) with
  | none => simp [hfind] at h
  | some v =>
      have hv : v.mop = mop := by simpa using List.find?_some hfind
      rw [hfind] at h
      simp only [Option.map_some] at h
      by_cases hk : v.mop = killing
      · rw [if_pos hk, List.mem_append, List.mem_singleton] at h
        rcases h with h | h
        · exact Or.inl h
        · exact Or.inr ⟨hv.symm.trans hk, h⟩
      · rw [if_neg hk] at h
        exact Or.inl h

theorem foldl_addChildren_spec (edges : List Edge) (graph : List Vertex) :
    let all := edges.foldl
      (fun graph e => if e.blocked then graph else addChildren graph e.killing e.dead) graph
    all.map Vertex.mop = graph.map Vertex.mop ∧
      ∀ mop c, c ∈ children all mop → c ∈ children graph mop ∨
        ∃ e ∈ edges, e.blocked = false ∧ e.killing = mop ∧ e.dead = c := by
  induction edges generalizing graph with
  | nil => simp
  | cons e edges ih =>
      obtain ⟨hmops, hchildren⟩ :=
        ih (if e.blocked then graph else addChildren graph e.killing e.dead)
      simp only [List.foldl_cons]
      cases hb : e.blocked with
      | true =>
          simp only [hb, if_true] at hmops hchildren ⊢
          refine ⟨hmops, ?_⟩
          intro mop c hc
          rcases hchildren mop c hc with h | ⟨e', he', h⟩
          · exact Or.inl h
          · exact Or.inr ⟨e', List.mem_cons_of_mem _ he', h⟩
      | false =>
          simp only [hb, Bool.false_eq_true, if_false] at hmops hchildren ⊢
          refine ⟨hmops.trans (addChildren_mops _ _ _), ?_⟩
          intro mop c hc
          rcases hchildren mop c hc with h | ⟨e', he', h⟩
          · rcases mem_children_addChildren h with h | ⟨rfl, rfl⟩
            · exact Or.inl h
            · exact Or.inr ⟨e, List.mem_cons_self, hb, rfl, rfl⟩
          · exact Or.inr ⟨e', List.mem_cons_of_mem _ he', h⟩

theorem recurringGraph_mops (mops : List Instruction) (edges : List Edge) :
    (recurringGraph mops edges).map Vertex.mop = mops := by
  rw [recurringGraph, (foldl_addChildren_spec edges _).1]
  simp [Function.comp_def]

/-- A child in the graph comes from an unblocked edge. -/
theorem edge_of_mem_children {mops : List Instruction} {edges : List Edge}
    {mop c : Instruction} (h : c ∈ children (recurringGraph mops edges) mop) :
    ∃ e ∈ edges, e.blocked = false ∧ e.killing = mop ∧ e.dead = c := by
  rcases (foldl_addChildren_spec edges _).2 mop c h with h | h
  · unfold children at h
    rw [List.find?_map] at h
    cases hfind : mops.find? ((fun v : Vertex => decide (v.mop = mop)) ∘ fun m => ⟨m, [], false⟩)
      with
    | none =>
        rw [hfind] at h
        cases h
    | some m =>
        rw [hfind] at h
        cases h
  · exact h

/-! ## The two rounds of selection -/

section Selection

variable {graph : List Vertex} {skip : Selection → Vertex → Bool} {s : Selection}
  {vs : List Vertex}

def ClosedGraph (graph : List Vertex) : Prop :=
  ∀ u ∈ graph.map Vertex.mop, ∀ c ∈ children graph u, c ∈ graph.map Vertex.mop

/-- Every visited vertex is reachable from a selected one. -/
def Selection.Sound (graph : List Vertex) (s : Selection) : Prop :=
  ∀ m ∈ s.visited, ∃ k ∈ s.domSet, Reaches (children graph) k m

theorem push_spec (hclosed : ClosedGraph graph) {v : Vertex} (hv : v ∈ graph) :
    Spec (children graph) s.visited v.mop (s.push graph v).visited :=
  depthFirst_spec hclosed (List.mem_map_of_mem hv) s.visited

theorem push_sound (hclosed : ClosedGraph graph) {v : Vertex} (hv : v ∈ graph)
    (h : s.Sound graph) : (s.push graph v).Sound graph := by
  intro m hm
  rcases (push_spec hclosed hv).reach m hm with hm | hm
  · obtain ⟨k, hk, hreach⟩ := h m hm
    exact ⟨k, List.mem_append_left _ hk, hreach⟩
  · exact ⟨v.mop, List.mem_append_right _ (List.mem_singleton_self _), hm⟩

theorem foldl_select_sound (hclosed : ClosedGraph graph) (hvs : ∀ v ∈ vs, v ∈ graph)
    (h : s.Sound graph) : (vs.foldl (select graph skip) s).Sound graph := by
  induction vs generalizing s with
  | nil => exact h
  | cons v vs ih =>
      refine ih (fun w hw => hvs w (List.mem_cons_of_mem _ hw)) ?_
      unfold select
      split
      · exact h
      · exact push_sound hclosed (hvs v List.mem_cons_self) h

theorem foldl_select_visited_mono (hclosed : ClosedGraph graph) (hvs : ∀ v ∈ vs, v ∈ graph)
    {m : Instruction} (hm : m ∈ s.visited) :
    m ∈ (vs.foldl (select graph skip) s).visited := by
  induction vs generalizing s with
  | nil => exact hm
  | cons v vs ih =>
      refine ih (fun w hw => hvs w (List.mem_cons_of_mem _ hw)) ?_
      unfold select
      split
      · exact hm
      · exact (push_spec hclosed (hvs v List.mem_cons_self)).initial_mem m hm

/-- After a round each vertex is visited, except those that the round leaves out. -/
theorem foldl_select_visits {leave : Vertex → Prop} (hclosed : ClosedGraph graph)
    (hvs : ∀ v ∈ vs, v ∈ graph)
    (hskip : ∀ s v, skip s v = true → leave v ∨ v.mop ∈ s.visited) :
    ∀ v ∈ vs, leave v ∨ v.mop ∈ (vs.foldl (select graph skip) s).visited := by
  induction vs generalizing s with
  | nil => simp
  | cons v vs ih =>
      have hvs' : ∀ w ∈ vs, w ∈ graph := fun w hw => hvs w (List.mem_cons_of_mem _ hw)
      intro w hw
      rcases List.mem_cons.mp hw with rfl | hw
      · by_cases hs : skip s w = true
        · rcases hskip s w hs with h | h
          · exact Or.inl h
          · refine Or.inr (foldl_select_visited_mono hclosed hvs' ?_)
            rwa [select, if_pos hs]
        · refine Or.inr (foldl_select_visited_mono hclosed hvs' ?_)
          rw [select, if_neg hs]
          exact (push_spec hclosed (hvs w List.mem_cons_self)).start_mem
      · exact ih hvs' w hw

/-- A round appends a sublist of the vertices that it may take. -/
theorem foldl_select_domSet {keep : Vertex → Bool}
    (hskip : ∀ s v, keep v = false → skip s v = true) :
    ∃ picked : List Vertex, picked.Sublist (vs.filter keep) ∧
      (vs.foldl (select graph skip) s).domSet = s.domSet ++ picked.map Vertex.mop := by
  induction vs generalizing s with
  | nil => exact ⟨[], List.Sublist.refl _, by simp⟩
  | cons v vs ih =>
      obtain ⟨picked, hsub, hdom⟩ := @ih (select graph skip s v)
      rw [List.foldl_cons, hdom]
      by_cases hs : skip s v = true
      · refine ⟨picked, hsub.trans ((List.sublist_cons_self v vs).filter keep), ?_⟩
        rw [select, if_pos hs]
      · have hkeep : keep v = true := by
          cases hk : keep v with
          | true => rfl
          | false => exact absurd (hskip s v hk) hs
        refine ⟨v :: picked, ?_, ?_⟩
        · rw [List.filter_cons, if_pos hkeep]
          exact hsub.cons_cons v
        · simp [select, hs, Selection.push]

end Selection

/-- What the dominating set is: the given operations followed by distinct graph vertices,
from which every vertex of the graph can be reached. -/
structure DominatingSpec (graph : List Vertex) (given result : List Instruction) : Prop where
  shape : ∃ picked : List Instruction, picked.Nodup ∧ (∀ m ∈ picked, m ∈ graph.map Vertex.mop) ∧
    result = given ++ picked
  reached : ∀ m ∈ graph.map Vertex.mop, ∃ k ∈ result, Reaches (children graph) k m

theorem fillDominatingSet_spec {graph : List Vertex} {given : List Instruction}
    (hclosed : ClosedGraph graph) (hnodup : (graph.map Vertex.mop).Nodup) :
    DominatingSpec graph given (fillDominatingSet graph given) := by
  have hself : ∀ v ∈ graph, v ∈ graph := fun _ h => h
  let roots := graph.foldl (select graph skipRoot) ⟨given, []⟩
  have hroots : roots.Sound graph := foldl_select_sound hclosed hself (by simp [Selection.Sound])
  obtain ⟨first, hfirst, hdomFirst⟩ := @foldl_select_domSet graph skipRoot ⟨given, []⟩ graph
    (fun v => !v.hasParent) (by simp [skipRoot])
  obtain ⟨second, hsecond, hdomSecond⟩ := @foldl_select_domSet graph skipRest roots graph
    (fun v => v.hasParent) (fun _ v (h : v.hasParent = false) => by simp [skipRest, h])
  refine ⟨⟨first.map Vertex.mop ++ second.map Vertex.mop, ?_, ?_, ?_⟩, ?_⟩
  · refine List.nodup_append.mpr
      ⟨hnodup.sublist ((hfirst.trans List.filter_sublist).map _),
        hnodup.sublist ((hsecond.trans List.filter_sublist).map _), ?_⟩
    intro a ha b hb hab
    obtain ⟨v, hv, rfl⟩ := List.mem_map.mp ha
    obtain ⟨w, hw, hwb⟩ := List.mem_map.mp hb
    have hv' := List.mem_filter.mp (hfirst.subset hv)
    have hw' := List.mem_filter.mp (hsecond.subset hw)
    have heq : v = w := List.inj_on_of_nodup_map hnodup hv'.1 hw'.1 (hab.trans hwb.symm)
    rw [heq, hw'.2] at hv'
    simp at hv'
  · intro m hm
    rcases List.mem_append.mp hm with h | h
    · exact (((hfirst.trans List.filter_sublist).map _).subset h)
    · exact (((hsecond.trans List.filter_sublist).map _).subset h)
  · rw [fillDominatingSet, hdomSecond, hdomFirst, List.append_assoc]
  · intro m hm
    obtain ⟨v, hv, rfl⟩ := List.mem_map.mp hm
    have hsound : (graph.foldl (select graph skipRest) roots).Sound graph :=
      foldl_select_sound hclosed hself hroots
    apply hsound
    cases hp : v.hasParent with
    | false =>
        have hvisit := @foldl_select_visits graph skipRoot ⟨given, []⟩ graph
          (fun w => w.hasParent = true) hclosed hself (fun _ _ h => Or.inl h) v hv
        rcases hvisit with h | h
        · rw [hp] at h
          cases h
        · exact foldl_select_visited_mono hclosed hself h
    | true =>
        have hvisit := @foldl_select_visits graph skipRest roots graph
          (fun w => w.hasParent = false) hclosed hself (by simp [skipRest]) v hv
        rcases hvisit with h | h
        · rw [hp] at h
          cases h
        · exact h

/-! ## Soundness of the reducer -/

/-- The kept operations are distinct input operations, and one of them covers each
eliminated operation. -/
structure EliminationSpec (isTsan : Bool) (executions : Set Trace)
    (insts kept : List Instruction) : Prop where
  nodup : insts.Nodup → kept.Nodup
  subset : ∀ i ∈ kept, i ∈ insts
  covered : ∀ d ∈ insts, d ∉ kept → ∃ k ∈ kept, PairSound isTsan executions k d

section Soundness

variable {isTsan : Bool} {executions : Set Trace} {insts : List Instruction}
  {edges : List Edge}

/-- Along a path of sound edges the first operation covers the last. -/
theorem pairSound_of_reaches {k d : Instruction}
    (hwithin : EdgesWithin insts edges)
    (hsound : ∀ e ∈ edges, e.blocked = false → PairSound isTsan executions e.killing e.dead)
    (hne : k ≠ d) (h : Reaches (children (recurringGraph (candidatesOf edges) edges)) k d) :
    PairSound isTsan executions k d := by
  rcases Relation.reflTransGen_iff_eq_or_transGen.mp h with heq | h
  · exact absurd heq.symm hne
  · clear hne
    induction h with
    | single hkd =>
        obtain ⟨e, he, hb, rfl, rfl⟩ := edge_of_mem_children hkd
        exact hsound e he hb
    | tail _ hmd ih =>
        obtain ⟨e, he, hb, rfl, rfl⟩ := edge_of_mem_children hmd
        intro tr htr t ht
        obtain ⟨t', hcover⟩ := hsound e he hb tr htr t ht
        obtain ⟨t'', hcover'⟩ := ih (Relation.TransGen.to_reflTransGen ‹_›) tr htr t'
          hcover.killing_at
        exact ⟨t'', hcover.trans (hwithin e he).1.2 hcover'⟩

theorem distillEdges_dominating (edges : List Edge) (insts : List Instruction) :
    DominatingSpec (recurringGraph (candidatesOf edges) edges)
      (insts.filter fun i => i ∉ candidatesOf edges) (distillEdges insts edges) := by
  refine fillDominatingSet_spec ?_ ?_
  · intro u _ c hc
    obtain ⟨e, he, -, -, rfl⟩ := edge_of_mem_children hc
    rw [recurringGraph_mops]
    exact mem_candidatesOf_iff.mpr ⟨e, he, Or.inr rfl⟩
  · rw [recurringGraph_mops]
    exact candidatesOf_nodup edges

theorem distillEdges_spec (hwithin : EdgesWithin insts edges)
    (hsound : ∀ e ∈ edges, e.blocked = false → PairSound isTsan executions e.killing e.dead) :
    EliminationSpec isTsan executions insts (distillEdges insts edges) := by
  obtain ⟨⟨picked, hnodup, hpicked, hshape⟩, hreached⟩ := distillEdges_dominating edges insts
  rw [recurringGraph_mops] at hpicked hreached
  have hcandidate : ∀ i ∈ candidatesOf edges, i ∈ insts := by
    intro i hi
    obtain ⟨e, he, rfl | rfl⟩ := mem_candidatesOf_iff.mp hi
    · exact (hwithin e he).1.1
    · exact (hwithin e he).2.1
  refine ⟨?_, ?_, ?_⟩
  · intro hinsts
    rw [hshape]
    refine List.nodup_append.mpr ⟨hinsts.filter _, hnodup, ?_⟩
    rintro a ha b hb rfl
    have hout := (List.mem_filter.mp ha).2
    simp only [decide_eq_true_eq] at hout
    exact hout (hpicked a hb)
  · intro i hi
    rw [hshape] at hi
    rcases List.mem_append.mp hi with hi | hi
    · exact (List.mem_filter.mp hi).1
    · exact hcandidate i (hpicked i hi)
  · intro d hd hout
    have hdc : d ∈ candidatesOf edges := by
      by_contra hn
      apply hout
      rw [hshape]
      exact List.mem_append_left _ (List.mem_filter.mpr ⟨hd, by simpa using hn⟩)
    obtain ⟨k, hk, hreach⟩ := hreached d hdc
    refine ⟨k, hk, pairSound_of_reaches hwithin hsound ?_ hreach⟩
    rintro rfl
    exact hout hk

end Soundness

/-! ## The pass entry point -/

theorem isMopCheckRecurring_mop {state : MOPState} {killing dead fromI : Instruction}
    {writeSensitive : Bool}
    (h : state.isMopCheckRecurring killing dead writeSensitive = some fromI) :
    isInterestingMop killing = true ∧ isInterestingMop dead = true := by
  unfold MOPState.isMopCheckRecurring at h
  cases hk : isInterestingMop killing <;> cases hd : isInterestingMop dead <;> simp_all

theorem collectEdges_within (state : MOPState) (insts : List Instruction)
    (writeSensitive : Bool) : EdgesWithin insts (collectEdges state insts writeSensitive) := by
  intro e he
  simp only [collectEdges, List.mem_flatMap, List.mem_filterMap] at he
  obtain ⟨killing, hkilling, dead, hdead, hedge⟩ := he
  split at hedge
  · cases hedge
  · obtain ⟨fromI, hfrom, rfl⟩ := Option.map_eq_some_iff.mp hedge
    obtain ⟨hk, hd⟩ := isMopCheckRecurring_mop hfrom
    exact ⟨⟨hkilling, hk⟩, ⟨hdead, hd⟩⟩

theorem EdgesWithin.blockEdges {insts : List Instruction} {edges : List Edge}
    (h : EdgesWithin insts edges) (isActive : Instruction → Instruction → Bool → Bool) :
    EdgesWithin insts (edges.map (blockEdge isActive)) := by
  intro e he
  obtain ⟨e', he', rfl⟩ := List.mem_map.mp he
  exact h e' he'

theorem distillRecurringChecks_spec {state : MOPState}
    {isActive : List Instruction → Instruction → Instruction → Bool → Bool}
    {insts : List Instruction} {isTsan ignoreCalls : Bool} {executions : Set Trace}
    (hsound : ∀ e ∈ finalEdges state isActive insts isTsan ignoreCalls, e.blocked = false →
      PairSound isTsan executions e.killing e.dead) :
    EliminationSpec isTsan executions insts
      (distillRecurringChecks state isActive insts isTsan ignoreCalls) := by
  have hwithin := collectEdges_within state insts isTsan
  have hfinal : EdgesWithin insts (finalEdges state isActive insts isTsan ignoreCalls) := by
    unfold finalEdges
    split
    · exact hwithin
    · exact hwithin.blockEdges _
  unfold distillRecurringChecks
  split
  · exact ⟨id, fun _ h => h, fun d hd hn => absurd hd hn⟩
  · exact distillEdges_spec hfinal hsound

/-- Elimination is sound for every list of pairwise sound edges, and so for the edges that
the pass itself collects, whatever the analyses answer. -/
theorem elimination_sound (isTsan : Bool) (executions : Set Trace) (insts : List Instruction) :
    (∀ edges : List Edge, EdgesWithin insts edges →
      (∀ e ∈ edges, e.blocked = false → PairSound isTsan executions e.killing e.dead) →
      EliminationSpec isTsan executions insts (distillEdges insts edges)) ∧
    ∀ (state : MOPState) (isActive : List Instruction → Instruction → Instruction → Bool → Bool)
      (ignoreCalls : Bool),
      (∀ e ∈ finalEdges state isActive insts isTsan ignoreCalls, e.blocked = false →
        PairSound isTsan executions e.killing e.dead) →
      EliminationSpec isTsan executions insts
        (distillRecurringChecks state isActive insts isTsan ignoreCalls) :=
  ⟨fun _ hwithin hsound => distillEdges_spec hwithin hsound,
    fun _ _ _ hsound => distillRecurringChecks_spec hsound⟩

/-- A store and a second store that cover each other, and a load covered by the second. -/
theorem elimination_sound_cycle :
    ∃ k ∈ distillEdges [plainStore 0, plainStore 1, plainLoad 2]
        [⟨plainStore 0, plainStore 1, plainStore 0, false⟩,
          ⟨plainStore 1, plainStore 0, plainStore 0, false⟩,
          ⟨plainStore 1, plainLoad 2, plainStore 1, false⟩],
      PairSound true
        {[⟨plainStore 0, {8}⟩, ⟨plainStore 1, {8}⟩, ⟨plainLoad 2, {8}⟩]} k (plainLoad 2) := by
  refine ((elimination_sound true _ _).1 _ (by unfold EdgesWithin; decide) ?_).covered _
    (by decide) (by decide)
  intro e he _
  simp only [List.mem_cons, List.not_mem_nil, or_false] at he
  rcases he with rfl | rfl | rfl
  all_goals
    rintro tr rfl t ⟨event, hevent, hinst⟩
    obtain ⟨ht, rfl⟩ := List.getElem?_eq_some_iff.mp hevent
    simp only [List.length_cons, List.length_nil] at ht
    interval_cases t <;> simp [plainStore, plainLoad] at hinst
  · exact ⟨0, .of_adjacent (by decide) ⟨_, rfl, rfl⟩ ⟨_, rfl, rfl⟩ (by decide) (by decide)⟩
  · exact ⟨1, .of_adjacent (by decide) ⟨_, rfl, rfl⟩ ⟨_, rfl, rfl⟩ (by decide) (by decide)⟩
  · exact ⟨1, .of_adjacent (by decide) ⟨_, rfl, rfl⟩ ⟨_, rfl, rfl⟩ (by decide) (by decide)⟩

end Mair.Recurrence
