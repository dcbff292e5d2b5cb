import Mathlib.Algebra.BigOperators.Group.List.Basic
import Mathlib.Algebra.GroupWithZero.Nat
import Mathlib.Logic.Relation

/-! # Depth-first traversal with a shared visited set

The traversal keeps the unexplored children of each open node on a stack. The visited set
is passed in and returned, so several traversals can share it. -/

namespace Mair.DepthFirst

variable {α : Type*}

/-! ## Reachability -/

def Reaches (succs : α → List α) : α → α → Prop :=
  Relation.ReflTransGen fun a b => b ∈ succs a

variable {succs : α → List α} {nodes visited : List α}

/-- A set closed under children contains everything reachable from its members. -/
theorem Reaches.mem_of_closed {result : List α} {a b : α}
    (hclosed : ∀ v ∈ result, ∀ c ∈ succs v, c ∈ result) (ha : a ∈ result)
    (h : Reaches succs a b) : b ∈ result := by
  induction h with
  | refl => exact ha
  | tail _ hbc ih => exact hclosed _ ih _ hbc

/-! ## The traversal invariant -/

/-- Marked nodes were marked before or are reachable, and a node marked by this traversal
has each child marked or waiting on the stack. -/
structure Invariant (succs : α → List α) (nodes initial : List α) (start : α)
    (stack : List (List α)) (visited : List α) : Prop where
  initial_mem : ∀ v ∈ initial, v ∈ visited
  start_mem : start ∈ visited
  stack_mem : ∀ frame ∈ stack, ∀ v ∈ frame, v ∈ nodes ∧ Reaches succs start v
  reach : ∀ v ∈ visited, v ∈ initial ∨ Reaches succs start v
  children : ∀ v ∈ visited, v ∉ initial → ∀ c ∈ succs v,
    c ∈ visited ∨ ∃ frame ∈ stack, c ∈ frame

variable {initial : List α} {start : α} {stack : List (List α)}

theorem Invariant.pop (h : Invariant succs nodes initial start ([] :: stack) visited) :
    Invariant succs nodes initial start stack visited where
  initial_mem := h.initial_mem
  start_mem := h.start_mem
  stack_mem frame hf := h.stack_mem frame (List.mem_cons_of_mem _ hf)
  reach := h.reach
  children v hv hi c hc := by
    rcases h.children v hv hi c hc with hmem | ⟨frame, hf, hcf⟩
    · exact Or.inl hmem
    · rcases List.mem_cons.mp hf with rfl | hf
      · cases hcf
      · exact Or.inr ⟨frame, hf, hcf⟩

theorem Invariant.skip {c : α} {cs : List α}
    (h : Invariant succs nodes initial start ((c :: cs) :: stack) visited) (hc : c ∈ visited) :
    Invariant succs nodes initial start (cs :: stack) visited where
  initial_mem := h.initial_mem
  start_mem := h.start_mem
  stack_mem frame hf v hv := by
    rcases List.mem_cons.mp hf with rfl | hf
    · exact h.stack_mem _ List.mem_cons_self v (List.mem_cons_of_mem _ hv)
    · exact h.stack_mem frame (List.mem_cons_of_mem _ hf) v hv
  reach := h.reach
  children v hv hi d hd := by
    rcases h.children v hv hi d hd with hmem | ⟨frame, hf, hdf⟩
    · exact Or.inl hmem
    · rcases List.mem_cons.mp hf with rfl | hf
      · rcases List.mem_cons.mp hdf with rfl | hdf
        · exact Or.inl hc
        · exact Or.inr ⟨cs, List.mem_cons_self, hdf⟩
      · exact Or.inr ⟨frame, List.mem_cons_of_mem _ hf, hdf⟩

theorem Invariant.mark {c : α} {cs : List α} (hclosed : ∀ u ∈ nodes, ∀ v ∈ succs u, v ∈ nodes)
    (h : Invariant succs nodes initial start ((c :: cs) :: stack) visited) :
    Invariant succs nodes initial start (succs c :: cs :: stack) (c :: visited) where
  initial_mem v hv := List.mem_cons_of_mem _ (h.initial_mem v hv)
  start_mem := List.mem_cons_of_mem _ h.start_mem
  stack_mem frame hf v hv := by
    obtain ⟨hcn, hcr⟩ := h.stack_mem _ List.mem_cons_self c List.mem_cons_self
    rcases List.mem_cons.mp hf with rfl | hf
    · exact ⟨hclosed c hcn v hv, hcr.tail hv⟩
    · rcases List.mem_cons.mp hf with rfl | hf
      · exact h.stack_mem _ List.mem_cons_self v (List.mem_cons_of_mem _ hv)
      · exact h.stack_mem frame (List.mem_cons_of_mem _ hf) v hv
  reach v hv := by
    rcases List.mem_cons.mp hv with rfl | hv
    · exact Or.inr (h.stack_mem _ List.mem_cons_self v List.mem_cons_self).2
    · exact h.reach v hv
  children v hv hi d hd := by
    rcases List.mem_cons.mp hv with rfl | hv
    · exact Or.inr ⟨succs v, List.mem_cons_self, hd⟩
    · rcases h.children v hv hi d hd with hmem | ⟨frame, hf, hdf⟩
      · exact Or.inl (List.mem_cons_of_mem _ hmem)
      · rcases List.mem_cons.mp hf with rfl | hf
        · rcases List.mem_cons.mp hdf with rfl | hdf
          · exact Or.inl List.mem_cons_self
          · exact Or.inr ⟨cs, List.mem_cons_of_mem _ List.mem_cons_self, hdf⟩
        · exact Or.inr
            ⟨frame, List.mem_cons_of_mem _ (List.mem_cons_of_mem _ hf), hdf⟩

/-! ## The traversal -/

def cost (succs : α → List α) (nodes : List α) : ℕ :=
  (nodes.map fun u => (succs u).length + 1).sum

theorem cost_filter_le (succs : α → List α) (nodes : List α) (p : α → Bool) :
    cost succs (nodes.filter p) ≤ cost succs nodes := by
  induction nodes with
  | nil => exact Nat.le_refl _
  | cons u nodes ih =>
      unfold cost at ih ⊢
      cases h : p u with
      | false =>
          simp only [List.filter_cons, h, Bool.false_eq_true, if_false, List.map_cons,
            List.sum_cons]
          omega
      | true =>
          simp only [List.filter_cons, h, if_true, List.map_cons, List.sum_cons]
          omega

variable [DecidableEq α]

/-- Children of the top node are taken in order; a child seen for the first time is marked
and opened. -/
def run (succs : α → List α) : ℕ → List (List α) → List α → List α
  | 0, _, visited => visited
  | _ + 1, [], visited => visited
  | fuel + 1, [] :: stack, visited => run succs fuel stack visited
  | fuel + 1, (c :: cs) :: stack, visited =>
      if c ∈ visited then run succs fuel (cs :: stack) visited
      else run succs fuel (succs c :: cs :: stack) (c :: visited)

/-- Traverse from `start` unless it is already marked. `nodes` bounds the graph. -/
def depthFirst (succs : α → List α) (nodes visited : List α) (start : α) : List α :=
  if start ∈ visited then visited
  else run succs (cost succs nodes) [succs start] (start :: visited)

/-- Building an iterator over an external visited set marks the start. -/
def iterBegin (visited : List α) (start : α) : List α :=
  if start ∈ visited then visited else start :: visited

/-- Traversals from several starts over one visited set. -/
def depthFirstAll (succs : α → List α) (nodes : List α) (starts : List α) : List α :=
  starts.foldl (depthFirst succs nodes) []

theorem mem_iterBegin_iff {start v : α} :
    v ∈ iterBegin visited start ↔ v = start ∨ v ∈ visited := by
  unfold iterBegin
  split
  · next h =>
      constructor
      · exact Or.inr
      · rintro (rfl | hv)
        · exact h
        · exact hv
  · exact List.mem_cons

/-- A second iterator over the same set finds its start marked and visits nothing. -/
theorem depthFirst_iterBegin (succs : α → List α) (nodes visited : List α) (start : α) :
    depthFirst succs nodes (iterBegin visited start) start = iterBegin visited start := by
  rw [depthFirst, if_pos (mem_iterBegin_iff.mpr (Or.inl rfl))]

/-! ## Fuel -/

/-- The work left: the open frames, and the frames that unmarked nodes may still open. -/
def work (succs : α → List α) (nodes : List α) (stack : List (List α)) (visited : List α) : ℕ :=
  (stack.map fun frame => frame.length + 1).sum +
    cost succs (nodes.filter fun u => decide (u ∉ visited))

/-- Marking a node pays for the frame it opens. -/
theorem cost_mark_le (succs : α → List α) {c : α} (hc : c ∈ nodes) (hv : c ∉ visited) :
    cost succs (nodes.filter fun u => decide (u ∉ c :: visited)) + ((succs c).length + 1) ≤
      cost succs (nodes.filter fun u => decide (u ∉ visited)) := by
  induction nodes with
  | nil => cases hc
  | cons u nodes ih =>
      by_cases huc : u = c
      · subst huc
        have hsub : nodes.filter (fun w => decide (w ∉ u :: visited)) =
            (nodes.filter fun w => decide (w ∉ visited)).filter fun w => decide (w ≠ u) := by
          rw [List.filter_filter]
          apply List.filter_congr
          intro w _
          simp
        have hle := cost_filter_le succs (nodes.filter fun w => decide (w ∉ visited))
          fun w => decide (w ≠ u)
        rw [← hsub] at hle
        simp only [cost] at hle ⊢
        simp only [List.filter_cons, List.mem_cons, true_or, not_true_eq_false, decide_false,
          Bool.false_eq_true, if_false, hv, not_false_eq_true, decide_true, if_true, List.map_cons,
          List.sum_cons] at hle ⊢
        omega
      · have hc' : c ∈ nodes := by
          rcases List.mem_cons.mp hc with h | h
          · exact absurd h.symm huc
          · exact h
        have ih' := ih hc'
        by_cases huv : u ∈ visited
        · simpa [List.filter_cons, huc, huv] using ih'
        · simp only [cost] at ih' ⊢
          simp only [List.filter_cons, List.mem_cons, huc, huv, or_self, not_false_eq_true,
            decide_true, if_true, List.map_cons, List.sum_cons] at ih' ⊢
          omega

/-- Enough fuel empties the stack, and the invariant holds of the returned set. -/
theorem run_invariant (hclosed : ∀ u ∈ nodes, ∀ v ∈ succs u, v ∈ nodes) (fuel : ℕ)
    (hfuel : work succs nodes stack visited ≤ fuel)
    (h : Invariant succs nodes initial start stack visited) :
    Invariant succs nodes initial start [] (run succs fuel stack visited) := by
  induction fuel generalizing stack visited with
  | zero =>
      cases stack with
      | nil => exact h
      | cons frame stack =>
          simp only [work, List.map_cons, List.sum_cons] at hfuel
          omega
  | succ fuel ih =>
      rcases stack with _ | ⟨_ | ⟨c, cs⟩, stack⟩
      · exact h
      · refine ih ?_ h.pop
        simp only [work, List.map_cons, List.sum_cons, List.length_nil] at hfuel ⊢
        omega
      · rw [run]
        by_cases hc : c ∈ visited
        · rw [if_pos hc]
          refine ih ?_ (h.skip hc)
          simp only [work, List.map_cons, List.sum_cons, List.length_cons] at hfuel ⊢
          omega
        · rw [if_neg hc]
          refine ih ?_ (h.mark hclosed)
          have hcn := (h.stack_mem _ List.mem_cons_self c List.mem_cons_self).1
          have hmark := cost_mark_le succs hcn hc
          simp only [work, List.map_cons, List.sum_cons, List.length_cons] at hfuel ⊢
          omega

/-! ## What the traversal marks -/

/-- A fresh traversal marks its start, keeps the marks it was given, marks only reachable
nodes, and marks every child of a node it marks. -/
structure Spec (succs : α → List α) (initial : List α) (start : α) (result : List α) :
    Prop where
  initial_mem : ∀ v ∈ initial, v ∈ result
  start_mem : start ∈ result
  reach : ∀ v ∈ result, v ∈ initial ∨ Reaches succs start v
  children : ∀ v ∈ result, v ∉ initial → ∀ c ∈ succs v, c ∈ result

theorem run_spec (hclosed : ∀ u ∈ nodes, ∀ v ∈ succs u, v ∈ nodes) (hstart : start ∈ nodes)
    (hmem : start ∉ visited) {fuel : ℕ} (hfuel : cost succs nodes ≤ fuel) :
    Spec succs visited start (run succs fuel [succs start] (start :: visited)) := by
  have hinv : Invariant succs nodes visited start [succs start] (start :: visited) := by
    refine ⟨fun v hv => List.mem_cons_of_mem _ hv, List.mem_cons_self, ?_, ?_, ?_⟩
    · intro frame hf v hv
      rw [List.mem_singleton.mp hf] at hv
      exact ⟨hclosed start hstart v hv, Relation.ReflTransGen.single hv⟩
    · intro v hv
      rcases List.mem_cons.mp hv with rfl | hv
      · exact Or.inr Relation.ReflTransGen.refl
      · exact Or.inl hv
    · intro v hv hn c hc
      rcases List.mem_cons.mp hv with rfl | hv
      · exact Or.inr ⟨_, List.mem_singleton_self _, hc⟩
      · exact absurd hv hn
  have hwork : work succs nodes [succs start] (start :: visited) ≤ fuel := by
    have hmark := cost_mark_le succs hstart hmem
    have hle := cost_filter_le succs nodes fun u => decide (u ∉ visited)
    simp only [work, List.map_cons, List.map_nil, List.sum_cons, List.sum_nil]
    omega
  have hend := run_invariant hclosed _ hwork hinv
  refine ⟨hend.initial_mem, hend.start_mem, hend.reach, ?_⟩
  intro v hv hn c hc
  rcases hend.children v hv hn c hc with h | ⟨_, hf, _⟩
  · exact h
  · cases hf

theorem depthFirst_spec (hclosed : ∀ u ∈ nodes, ∀ v ∈ succs u, v ∈ nodes)
    (hstart : start ∈ nodes) (visited : List α) :
    Spec succs visited start (depthFirst succs nodes visited start) := by
  unfold depthFirst
  by_cases hmem : start ∈ visited
  · rw [if_pos hmem]
    exact ⟨fun _ h => h, hmem, fun _ h => Or.inl h, fun _ h hn => absurd h hn⟩
  · rw [if_neg hmem]
    exact run_spec hclosed hstart hmem (Nat.le_refl _)

/-- Over a closed visited set the traversal adds exactly the reachable nodes. -/
theorem mem_depthFirst_iff (hclosed : ∀ u ∈ nodes, ∀ v ∈ succs u, v ∈ nodes)
    (hstart : start ∈ nodes) (hvisited : ∀ v ∈ visited, ∀ c ∈ succs v, c ∈ visited) {v : α} :
    v ∈ depthFirst succs nodes visited start ↔ v ∈ visited ∨ Reaches succs start v := by
  have hspec := depthFirst_spec hclosed hstart visited
  constructor
  · exact hspec.reach v
  · rintro (h | h)
    · exact hspec.initial_mem v h
    · apply h.mem_of_closed _ hspec.start_mem
      intro u hu c hc
      by_cases hv : u ∈ visited
      · exact hspec.initial_mem c (hvisited u hv c hc)
      · exact hspec.children u hu hv c hc

theorem mem_foldl_depthFirst_iff (hclosed : ∀ u ∈ nodes, ∀ v ∈ succs u, v ∈ nodes)
    {starts : List α} (hstarts : ∀ s ∈ starts, s ∈ nodes)
    (hvisited : ∀ v ∈ visited, ∀ c ∈ succs v, c ∈ visited) {v : α} :
    v ∈ starts.foldl (depthFirst succs nodes) visited ↔
      v ∈ visited ∨ ∃ s ∈ starts, Reaches succs s v := by
  induction starts generalizing visited with
  | nil => simp
  | cons s starts ih =>
      have hs := hstarts s List.mem_cons_self
      have hmem : ∀ {u}, u ∈ depthFirst succs nodes visited s ↔
          u ∈ visited ∨ Reaches succs s u := mem_depthFirst_iff hclosed hs hvisited
      have hvisited' : ∀ u ∈ depthFirst succs nodes visited s, ∀ c ∈ succs u,
          c ∈ depthFirst succs nodes visited s := by
        intro u hu c hc
        rcases hmem.mp hu with h | h
        · exact hmem.mpr (Or.inl (hvisited u h c hc))
        · exact hmem.mpr (Or.inr (h.tail hc))
      rw [List.foldl_cons,
        ih (fun t ht => hstarts t (List.mem_cons_of_mem _ ht)) hvisited', hmem]
      simp [or_assoc]

/-- Traversals from several starts mark exactly what some start reaches. -/
theorem mem_depthFirstAll_iff (hclosed : ∀ u ∈ nodes, ∀ v ∈ succs u, v ∈ nodes)
    {starts : List α} (hstarts : ∀ s ∈ starts, s ∈ nodes) {v : α} :
    v ∈ depthFirstAll succs nodes starts ↔ ∃ s ∈ starts, Reaches succs s v := by
  rw [depthFirstAll, mem_foldl_depthFirst_iff hclosed hstarts (by simp)]
  simp

end Mair.DepthFirst
