import Mair.Library.DepthFirst
import Mathlib.Data.List.Nodup

/-! # Worklists that mark on removal

An item may wait several times. It is processed when it is taken from the end of the list for the
first time, and then its successors are appended. -/

namespace Mair.Walk

open DepthFirst

variable {ι σ : Type*} [DecidableEq ι]

/-- Process the pending items, the last one first; `none` is lack of fuel. -/
def walk (step : σ → ι → σ × List ι) : ℕ → List ι → List ι → σ → Option σ
  | _, [], _, acc => some acc
  | 0, _ :: _, _, _ => none
  | fuel + 1, i :: rest, visited, acc =>
      if i ∈ visited then walk step fuel rest visited acc
      else walk step fuel ((step acc i).2.reverse ++ rest) (i :: visited) (step acc i).1

/-- Walk from some items of a graph with the given nodes. -/
def walkFrom (step : σ → ι → σ × List ι) (succs : ι → List ι) (nodes first : List ι) (acc : σ) :
    Option σ :=
  walk step (first.length + cost succs nodes) first.reverse [] acc

variable {step : σ → ι → σ × List ι} {next succs : ι → List ι} {nodes first done pending : List ι}
  {i : ι}

/-- The processed items are reached, their successors are processed or pending, and every item is
processed once. -/
structure Invariant (next : ι → List ι) (first done pending : List ι) : Prop where
  nodup : done.Nodup
  reached : ∀ i, i ∈ done ∨ i ∈ pending → ∃ s ∈ first, Reaches next s i
  first_mem : ∀ i ∈ first, i ∈ done ∨ i ∈ pending
  closed : ∀ i ∈ done, ∀ j ∈ next i, j ∈ done ∨ j ∈ pending

omit [DecidableEq ι] in
theorem Invariant.init : Invariant next first [] first.reverse where
  nodup := List.nodup_nil
  reached i hi := by
    rcases hi with hi | hi
    · cases hi
    · exact ⟨i, List.mem_reverse.mp hi, .refl⟩
  first_mem i hi := Or.inr (List.mem_reverse.mpr hi)
  closed i hi := by cases hi

omit [DecidableEq ι] in
theorem Invariant.skip (h : Invariant next first done (i :: pending)) (hi : i ∈ done) :
    Invariant next first done pending := by
  have hmem : ∀ j, j ∈ done ∨ j ∈ i :: pending → j ∈ done ∨ j ∈ pending := by
    rintro j (hj | hj)
    · exact Or.inl hj
    · rcases List.mem_cons.mp hj with rfl | hj
      · exact Or.inl hi
      · exact Or.inr hj
  refine ⟨h.nodup, ?_, fun j hj => hmem j (h.first_mem j hj), ?_⟩
  · intro j hj
    exact h.reached j (hj.imp_right (List.mem_cons_of_mem i))
  · intro j hj k hk
    exact hmem k (h.closed j hj k hk)

omit [DecidableEq ι] in
theorem Invariant.process (h : Invariant next first done (i :: pending)) (hi : i ∉ done) :
    Invariant next first (done ++ [i]) ((next i).reverse ++ pending) := by
  have hmem : ∀ j, j ∈ done ∨ j ∈ i :: pending →
      j ∈ done ++ [i] ∨ j ∈ (next i).reverse ++ pending := by
    intro j hj
    simp only [List.mem_append, List.mem_cons, List.not_mem_nil, or_false] at hj ⊢
    tauto
  refine ⟨?_, ?_, fun j hj => hmem j (h.first_mem j hj), ?_⟩
  · rw [List.nodup_append]
    refine ⟨h.nodup, List.nodup_singleton i, ?_⟩
    intro j hj k hk
    rw [List.mem_singleton.mp hk]
    rintro rfl
    exact hi hj
  · intro j hj
    have hreach := h.reached i (Or.inr List.mem_cons_self)
    simp only [List.mem_append, List.mem_reverse, List.mem_cons, List.not_mem_nil, or_false] at hj
    rcases hj with (hj | rfl) | hj | hj
    · exact h.reached j (Or.inl hj)
    · exact hreach
    · obtain ⟨s, hs, hsi⟩ := hreach
      exact ⟨s, hs, hsi.tail hj⟩
    · exact h.reached j (Or.inr (List.mem_cons_of_mem i hj))
  · intro j hj k hk
    rcases List.mem_append.mp hj with hj | hj
    · exact hmem k (h.closed j hj k hk)
    · rw [List.mem_singleton.mp hj] at hk
      exact Or.inr (List.mem_append_left _ (List.mem_reverse.mpr hk))

/-- The work left pays for the items that wait and for those that still come. -/
theorem walk_invariant (hstep : ∀ acc i, (step acc i).2 = next i)
    (hnext : ∀ i, (next i).length ≤ (succs i).length)
    (hclosed : ∀ u ∈ nodes, ∀ v ∈ next u, v ∈ nodes) (fuel : ℕ) {visited : List ι}
    (hvisited : ∀ i, i ∈ visited ↔ i ∈ done) (hnodes : ∀ i ∈ pending, i ∈ nodes)
    (hfuel : pending.length + cost succs (nodes.filter fun u => decide (u ∉ visited)) ≤ fuel)
    (h : Invariant next first done pending) (acc : σ) :
    ∃ rest, Invariant next first (done ++ rest) [] ∧
      walk step fuel pending visited acc =
        some (rest.foldl (fun acc i => (step acc i).1) acc) := by
  induction fuel generalizing done pending visited acc with
  | zero =>
      cases pending with
      | nil => exact ⟨[], by simpa using h, rfl⟩
      | cons i pending =>
          simp only [List.length_cons] at hfuel
          omega
  | succ fuel ih =>
      cases pending with
      | nil => exact ⟨[], by simpa using h, rfl⟩
      | cons i pending =>
          rw [walk]
          simp only [List.length_cons] at hfuel
          have hrest : ∀ j ∈ pending, j ∈ nodes := fun j hj =>
            hnodes j (List.mem_cons_of_mem i hj)
          by_cases hi : i ∈ visited
          · rw [if_pos hi]
            exact ih hvisited hrest (by omega) (h.skip ((hvisited i).mp hi)) acc
          · rw [if_neg hi, hstep]
            have hinode := hnodes i List.mem_cons_self
            have hmark := cost_mark_le succs hinode hi
            have hlen := hnext i
            obtain ⟨rest, hinv, hrun⟩ := @ih (done ++ [i]) ((next i).reverse ++ pending)
              (i :: visited) (by simp [hvisited, or_comm])
              (by
                intro j hj
                rcases List.mem_append.mp hj with hj | hj
                · exact hclosed i hinode j (List.mem_reverse.mp hj)
                · exact hrest j hj)
              (by
                rw [List.length_append, List.length_reverse]
                omega)
              (h.process (mt (hvisited i).mpr hi)) (step acc i).1
            refine ⟨i :: rest, by simpa using hinv, ?_⟩
            rw [hrun, List.foldl_cons]

/-- The walk ends, and processes every item that the first ones reach exactly once. -/
theorem walkFrom_spec (hstep : ∀ acc i, (step acc i).2 = next i)
    (hnext : ∀ i, (next i).length ≤ (succs i).length)
    (hclosed : ∀ u ∈ nodes, ∀ v ∈ next u, v ∈ nodes) (hfirst : ∀ i ∈ first, i ∈ nodes) (acc : σ) :
    ∃ order : List ι, order.Nodup ∧ (∀ i, i ∈ order ↔ ∃ s ∈ first, Reaches next s i) ∧
      walkFrom step succs nodes first acc =
        some (order.foldl (fun acc i => (step acc i).1) acc) := by
  have hnodes : ∀ i ∈ first.reverse, i ∈ nodes := fun i hi => hfirst i (List.mem_reverse.mp hi)
  have hcost := cost_filter_le succs nodes fun u => decide (u ∉ ([] : List ι))
  obtain ⟨order, hinv, hrun⟩ := @walk_invariant ι σ _ step next succs nodes first [] first.reverse
    hstep hnext hclosed (first.length + cost succs nodes) [] (fun _ => Iff.rfl) hnodes
    (by rw [List.length_reverse]; omega) Invariant.init acc
  rw [List.nil_append] at hinv
  refine ⟨order, hinv.nodup, ?_, hrun⟩
  intro i
  constructor
  · intro hi
    exact hinv.reached i (Or.inl hi)
  · rintro ⟨s, hs, hreach⟩
    have hdone : ∀ j, j ∈ order ∨ j ∈ ([] : List ι) → j ∈ order := by
      rintro j (hj | hj)
      · exact hj
      · cases hj
    apply hreach.mem_of_closed
    · intro j hj k hk
      exact hdone k (hinv.closed j hj k hk)
    · exact hdone s (hinv.first_mem s hs)

end Mair.Walk
