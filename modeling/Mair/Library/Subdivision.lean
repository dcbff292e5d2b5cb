import Mathlib.Data.List.ReduceOption
import Mathlib.Logic.Function.Basic
import Mathlib.Data.Set.Insert
import Mair.Library.Paths

/-! # Subdivided graphs

Nodes of a graph are split, new nodes are put on its edges, and labels are added. What a path of
the resulting graph executes of the old labels is what a path of the old graph executes. -/

namespace Mair

/-- The labels of a node are executed before control leaves it. -/
structure Graph (α ι : Type*) where
  succs : α → List α
  labels : α → List ι

namespace Graph

variable {α β ι : Type*}

def trace (g : Graph α ι) (p : List α) : List ι := p.flatMap g.labels

/-- The labels that were there before; the others are `none`. -/
def own (g : Graph α (Option ι)) (a : α) : List ι := (g.labels a).reduceOption

/-- `g` subdivides `f`: a node of `g` stands inside its origin, behind the labels that are
done. -/
structure Subdivides (f : Graph β ι) (g : Graph α (Option ι)) (emb : β → α) (nodes : Set α)
    (origin : α → β) (done : α → List ι) : Prop where
  emb_mem : ∀ x, emb x ∈ nodes
  origin_emb : ∀ x, origin (emb x) = x
  done_emb : ∀ x, done (emb x) = []
  closed : ∀ a ∈ nodes, ∀ c ∈ g.succs a, c ∈ nodes
  part : ∀ a ∈ nodes, done a ++ g.own a <+: f.labels (origin a)
  edge : ∀ a ∈ nodes, ∀ c ∈ g.succs a,
    (∃ x, c = emb x ∧ x ∈ f.succs (origin a) ∧ f.labels (origin a) = done a ++ g.own a) ∨
      ((∀ x, c ≠ emb x) ∧ origin c = origin a ∧ done c = done a ++ g.own a)
  exit : ∀ a ∈ nodes, g.succs a = [] →
    f.succs (origin a) = [] ∧ f.labels (origin a) = done a ++ g.own a

section Paths

variable {f : Graph β ι} {g : Graph α (Option ι)} {emb : β → α} {nodes : Set α}
  {origin : α → β} {done : α → List ι} {x : β} {p : List α} {c : α}

theorem trace_snoc (f : Graph β ι) (q : List β) (b : β) :
    f.trace (q ++ [b]) = f.trace q ++ f.labels b := by
  simp [trace]

/-- Behind a path of the subdivided graph, a path of the old one has executed the same labels, up
to those done in the last node. -/
theorem Subdivides.project (h : Subdivides f g emb nodes origin done)
    (hp : Path g.succs (emb x) p c) :
    c ∈ nodes ∧ ∃ q, Path f.succs x q (origin c) ∧ f.trace q ++ done c = p.flatMap g.own := by
  induction hp with
  | nil =>
      refine ⟨h.emb_mem x, [], ?_, ?_⟩
      · rw [h.origin_emb]
        exact .nil
      · rw [h.done_emb]
        rfl
  | @snoc p b c _ hc ih =>
      obtain ⟨hb, q, hq, htrace⟩ := ih
      refine ⟨h.closed b hb c hc, ?_⟩
      rw [List.flatMap_append, List.flatMap_singleton, ← htrace]
      rcases h.edge b hb c hc with hold | hnew
      · obtain ⟨y, rfl, hy, hlabels⟩ := hold
        refine ⟨q ++ [origin b], ?_, ?_⟩
        · rw [h.origin_emb]
          exact hq.snoc hy
        · rw [trace_snoc, h.done_emb, hlabels]
          simp
      · obtain ⟨-, horigin, hdone⟩ := hnew
        refine ⟨q, ?_, ?_⟩
        · rw [horigin]
          exact hq
        · rw [hdone, List.append_assoc]

/-- A path that ends where control stops executes the labels of a path that does. -/
theorem Subdivides.project_exit (h : Subdivides f g emb nodes origin done)
    (hp : Path g.succs (emb x) p c) (hc : g.succs c = []) :
    f.succs (origin c) = [] ∧ ∃ q, Path f.succs x q (origin c) ∧
      f.trace (q ++ [origin c]) = (p ++ [c]).flatMap g.own := by
  obtain ⟨hmem, q, hq, htrace⟩ := h.project hp
  obtain ⟨hexit, hlabels⟩ := h.exit c hmem hc
  refine ⟨hexit, q, hq, ?_⟩
  rw [trace_snoc, hlabels, ← List.append_assoc, htrace, List.flatMap_append,
    List.flatMap_singleton]

/-- So does a path with the edge that leaves its last node towards an old one. -/
theorem Subdivides.project_edge {y : β} (h : Subdivides f g emb nodes origin done)
    (hp : Path g.succs (emb x) p c) (hc : emb y ∈ g.succs c) :
    ∃ q, Path f.succs x q y ∧ f.trace q = (p ++ [c]).flatMap g.own := by
  obtain ⟨-, q, hq, htrace⟩ := h.project (hp.snoc hc)
  rw [h.origin_emb] at hq
  rw [h.done_emb, List.append_nil] at htrace
  exact ⟨q, hq, htrace⟩

theorem mem_own_iff {g : Graph α (Option ι)} {label : ι} :
    label ∈ p.flatMap g.own ↔ some label ∈ g.trace p := by
  simp only [List.mem_flatMap, own, List.reduceOption_mem_iff, trace]

/-- What a node executes belongs to its origin. -/
theorem Subdivides.own_subset (h : Subdivides f g emb nodes origin done) {a : α}
    (ha : a ∈ nodes) : g.own a ⊆ f.labels (origin a) := by
  intro label hlabel
  exact (h.part a ha).subset (List.mem_append_right _ hlabel)

end Paths

/-! ## Edits -/

section Edits

variable [DecidableEq α]

/-- Gives the successors of `b`, and the labels behind `first`, to a new node. -/
def splitNode (g : Graph α ι) (b n : α) (first second : List ι) : Graph α ι where
  succs := Function.update (Function.update g.succs n (g.succs b)) b [n]
  labels := Function.update (Function.update g.labels n second) b first

/-- Puts an empty node in front of `v`, on some of the edges that leave `u`. -/
def interpose (g : Graph α ι) (u v n : α) (succs : List α) : Graph α ι where
  succs := Function.update (Function.update g.succs n [v]) u succs
  labels := Function.update g.labels n []

variable {f : Graph β ι} {g : Graph α (Option ι)} {emb : β → α} {nodes : Set α}
  {origin : α → β} {done : α → List ι} {b n u v : α}

omit [DecidableEq α] in
/-- Labels of the edit itself change nothing. -/
theorem Subdivides.relabel {labels : α → List (Option ι)}
    (h : Subdivides f g emb nodes origin done)
    (hlabels : ∀ a, (labels a).reduceOption = g.own a) :
    Subdivides f { g with labels := labels } emb nodes origin done := by
  have hown : ∀ a, own { g with labels := labels } a = g.own a := hlabels
  refine ⟨h.emb_mem, h.origin_emb, h.done_emb, h.closed, ?_, ?_, ?_⟩
  · intro a ha
    rw [hown]
    exact h.part a ha
  · intro a ha c hc
    rw [hown]
    exact h.edge a ha c hc
  · intro a ha hc
    rw [hown]
    exact h.exit a ha hc

theorem Subdivides.splitNode {first second : List (Option ι)}
    (h : Subdivides f g emb nodes origin done) (hb : b ∈ nodes) (hn : n ∉ nodes)
    (hlabels : g.labels b = first ++ second) :
    Subdivides f (g.splitNode b n first second) emb (insert n nodes)
      (Function.update origin n (origin b))
      (Function.update done n (done b ++ first.reduceOption)) := by
  have hne : ∀ a ∈ nodes, a ≠ n := fun a ha heq => hn (heq ▸ ha)
  have hbn := hne b hb
  have hsplit : g.own b = first.reduceOption ++ second.reduceOption := by
    rw [own, hlabels, List.reduceOption_append]
  have hownb : (g.splitNode b n first second).own b = first.reduceOption := by
    simp [own, Graph.splitNode]
  have hownn : (g.splitNode b n first second).own n = second.reduceOption := by
    simp [own, Graph.splitNode, hbn.symm]
  have hown : ∀ a ∈ nodes, a ≠ b → (g.splitNode b n first second).own a = g.own a := by
    intro a ha hab
    simp [own, Graph.splitNode, hab, hne a ha]
  have hsuccsb : (g.splitNode b n first second).succs b = [n] := by simp [Graph.splitNode]
  have hsuccsn : (g.splitNode b n first second).succs n = g.succs b := by
    simp [Graph.splitNode, hbn.symm]
  have hsuccs : ∀ a ∈ nodes, a ≠ b → (g.splitNode b n first second).succs a = g.succs a := by
    intro a ha hab
    simp [Graph.splitNode, hab, hne a ha]
  have hemb : ∀ x, emb x ≠ n := fun x => hne _ (h.emb_mem x)
  have hdonen : ∀ a ∈ nodes,
      Function.update done n (done b ++ first.reduceOption) a = done a :=
    fun a ha => Function.update_of_ne (hne a ha) _ _
  have horiginn : ∀ a ∈ nodes, Function.update origin n (origin b) a = origin a :=
    fun a ha => Function.update_of_ne (hne a ha) _ _
  refine ⟨fun x => Set.mem_insert_of_mem _ (h.emb_mem x), ?_, ?_, ?_, ?_, ?_, ?_⟩
  · intro x
    rw [horiginn _ (h.emb_mem x), h.origin_emb]
  · intro x
    rw [hdonen _ (h.emb_mem x), h.done_emb]
  · intro a ha c hc
    rcases Set.mem_insert_iff.mp ha with rfl | ha
    · rw [hsuccsn] at hc
      exact Set.mem_insert_of_mem _ (h.closed b hb c hc)
    · by_cases hab : a = b
      · subst hab
        rw [hsuccsb, List.mem_singleton] at hc
        rw [hc]
        exact Set.mem_insert _ _
      · rw [hsuccs a ha hab] at hc
        exact Set.mem_insert_of_mem _ (h.closed a ha c hc)
  · intro a ha
    rcases Set.mem_insert_iff.mp ha with rfl | ha
    · rw [Function.update_self, Function.update_self, hownn, List.append_assoc, ← hsplit]
      exact h.part b hb
    · rw [hdonen a ha, horiginn a ha]
      by_cases hab : a = b
      · subst hab
        rw [hownb]
        refine List.IsPrefix.trans ?_ (h.part a ha)
        rw [hsplit, ← List.append_assoc]
        exact List.prefix_append _ _
      · rw [hown a ha hab]
        exact h.part a ha
  · intro a ha c hc
    rcases Set.mem_insert_iff.mp ha with rfl | ha
    · rw [hsuccsn] at hc
      rw [Function.update_self, Function.update_self, hownn, List.append_assoc, ← hsplit,
        hdonen c (h.closed b hb c hc), horiginn c (h.closed b hb c hc)]
      exact h.edge b hb c hc
    · rw [hdonen a ha, horiginn a ha]
      by_cases hab : a = b
      · subst hab
        rw [hsuccsb, List.mem_singleton] at hc
        subst hc
        refine Or.inr ⟨fun x => (hemb x).symm, ?_, ?_⟩
        · rw [Function.update_self]
        · rw [Function.update_self, hownb]
      · rw [hsuccs a ha hab] at hc
        rw [hown a ha hab, hdonen c (h.closed a ha c hc), horiginn c (h.closed a ha c hc)]
        exact h.edge a ha c hc
  · intro a ha hc
    rcases Set.mem_insert_iff.mp ha with rfl | ha
    · rw [hsuccsn] at hc
      rw [Function.update_self, Function.update_self, hownn, List.append_assoc, ← hsplit]
      exact h.exit b hb hc
    · rw [hdonen a ha, horiginn a ha]
      by_cases hab : a = b
      · subst hab
        rw [hsuccsb] at hc
        cases hc
      · rw [hsuccs a ha hab] at hc
        rw [hown a ha hab]
        exact h.exit a ha hc

theorem Subdivides.interpose {succs : List α}
    (h : Subdivides f g emb nodes origin done) (hu : u ∈ nodes) (hv : v ∈ g.succs u)
    (hn : n ∉ nodes) (hsuccs : ∀ c ∈ succs, c = n ∨ c ∈ g.succs u) (hne : succs ≠ []) :
    Subdivides f (g.interpose u v n succs) emb (insert n nodes)
      (Function.update origin n (origin u)) (Function.update done n (done u ++ g.own u)) := by
  have hnew : ∀ a ∈ nodes, a ≠ n := fun a ha heq => hn (heq ▸ ha)
  have hun := hnew u hu
  have hvmem := h.closed u hu v hv
  have hown : ∀ a ∈ nodes, (g.interpose u v n succs).own a = g.own a := by
    intro a ha
    simp [own, Graph.interpose, hnew a ha]
  have hownn : (g.interpose u v n succs).own n = [] := by simp [own, Graph.interpose]
  have hsuccsu : (g.interpose u v n succs).succs u = succs := by simp [Graph.interpose]
  have hsuccsn : (g.interpose u v n succs).succs n = [v] := by
    simp [Graph.interpose, hun.symm]
  have hsuccs' : ∀ a ∈ nodes, a ≠ u → (g.interpose u v n succs).succs a = g.succs a := by
    intro a ha hau
    simp [Graph.interpose, hau, hnew a ha]
  have hdonen : ∀ a ∈ nodes, Function.update done n (done u ++ g.own u) a = done a :=
    fun a ha => Function.update_of_ne (hnew a ha) _ _
  have horiginn : ∀ a ∈ nodes, Function.update origin n (origin u) a = origin a :=
    fun a ha => Function.update_of_ne (hnew a ha) _ _
  refine ⟨fun x => Set.mem_insert_of_mem _ (h.emb_mem x), ?_, ?_, ?_, ?_, ?_, ?_⟩
  · intro x
    rw [horiginn _ (h.emb_mem x), h.origin_emb]
  · intro x
    rw [hdonen _ (h.emb_mem x), h.done_emb]
  · intro a ha c hc
    rcases Set.mem_insert_iff.mp ha with rfl | ha
    · rw [hsuccsn, List.mem_singleton] at hc
      rw [hc]
      exact Set.mem_insert_of_mem _ hvmem
    · by_cases hau : a = u
      · subst hau
        rw [hsuccsu] at hc
        rcases hsuccs c hc with rfl | hc
        · exact Set.mem_insert _ _
        · exact Set.mem_insert_of_mem _ (h.closed a ha c hc)
      · rw [hsuccs' a ha hau] at hc
        exact Set.mem_insert_of_mem _ (h.closed a ha c hc)
  · intro a ha
    rcases Set.mem_insert_iff.mp ha with rfl | ha
    · rw [Function.update_self, Function.update_self, hownn, List.append_nil]
      exact h.part u hu
    · rw [hdonen a ha, horiginn a ha, hown a ha]
      exact h.part a ha
  · intro a ha c hc
    rcases Set.mem_insert_iff.mp ha with rfl | ha
    · rw [hsuccsn, List.mem_singleton] at hc
      subst hc
      rw [Function.update_self, Function.update_self, hownn, List.append_nil, hdonen _ hvmem,
        horiginn _ hvmem]
      exact h.edge u hu _ hv
    · rw [hdonen a ha, horiginn a ha, hown a ha]
      by_cases hau : a = u
      · subst hau
        rw [hsuccsu] at hc
        rcases hsuccs c hc with rfl | hc
        · refine Or.inr ⟨fun x => (hnew _ (h.emb_mem x)).symm, ?_, ?_⟩
          · rw [Function.update_self]
          · rw [Function.update_self]
        · rw [hdonen c (h.closed a ha c hc), horiginn c (h.closed a ha c hc)]
          exact h.edge a ha c hc
      · rw [hsuccs' a ha hau] at hc
        rw [hdonen c (h.closed a ha c hc), horiginn c (h.closed a ha c hc)]
        exact h.edge a ha c hc
  · intro a ha hc
    rcases Set.mem_insert_iff.mp ha with rfl | ha
    · rw [hsuccsn] at hc
      cases hc
    · rw [hdonen a ha, horiginn a ha, hown a ha]
      by_cases hau : a = u
      · subst hau
        rw [hsuccsu] at hc
        exact absurd hc hne
      · rw [hsuccs' a ha hau] at hc
        exact h.exit a ha hc

end Edits

end Graph

end Mair
