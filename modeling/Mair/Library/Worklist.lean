import Mathlib.Data.List.Nodup
import Mair.Library.DepthFirst

/-! # Worklists that mark on insertion

An item is pushed when it is seen for the first time, and the items are taken from the end of
the list. Every item that the first ones reach is processed exactly once. -/

namespace Mair.Worklist

open DepthFirst

/-! ## The loop -/

structure State (ι : Type*) where
  pending : List ι
  visited : List ι

section Defs

variable {ι σ : Type*} [DecidableEq ι]

/-- Push the items that have not been pushed before. -/
def State.add (w : State ι) (items : List ι) : State ι :=
  items.foldl (fun w i => if i ∈ w.visited then w else ⟨i :: w.pending, i :: w.visited⟩) w

/-- Process the pending items; `none` is lack of fuel. -/
def drain (step : σ → ι → σ × List ι) : ℕ → State ι → σ → Option σ
  | _, ⟨[], _⟩, acc => some acc
  | 0, ⟨_ :: _, _⟩, _ => none
  | fuel + 1, ⟨i :: rest, visited⟩, acc =>
      drain step fuel (State.add ⟨rest, visited⟩ (step acc i).2) (step acc i).1

end Defs

/-! ## Marks -/

section Marks

variable {ι : Type*} {done : List ι} {w : State ι} {i : ι}

/-- The marked items are the processed and the pending ones, each listed once. -/
structure Marks (done : List ι) (w : State ι) : Prop where
  nodup : (done ++ w.pending).Nodup
  mem : ∀ i, i ∈ w.visited ↔ i ∈ done ∨ i ∈ w.pending

theorem Marks.push (h : Marks done w) (hi : i ∉ w.visited) :
    Marks done ⟨i :: w.pending, i :: w.visited⟩ where
  nodup := by
    have hnot := mt (h.mem i).mpr hi
    rw [List.nodup_middle, List.nodup_cons, List.mem_append]
    exact ⟨hnot, h.nodup⟩
  mem j := by
    simp only [List.mem_cons, h.mem j]
    tauto

/-- The first pending item is processed. -/
theorem Marks.pop {rest visited : List ι} (h : Marks done ⟨i :: rest, visited⟩) :
    Marks (done ++ [i]) ⟨rest, visited⟩ where
  nodup := by simpa using h.nodup
  mem j := by
    rw [h.mem j]
    simp only [List.mem_append, List.mem_cons, List.not_mem_nil, or_false]
    tauto

variable [DecidableEq ι]

theorem Marks.add (h : Marks done w) (items : List ι) : Marks done (w.add items) := by
  induction items generalizing w with
  | nil => exact h
  | cons i items ih =>
      unfold State.add
      rw [List.foldl_cons]
      split
      · exact ih h
      · next hi => exact ih (h.push hi)

theorem mem_add_iff {items : List ι} :
    i ∈ (w.add items).visited ↔ i ∈ w.visited ∨ i ∈ items := by
  induction items generalizing w with
  | nil => simp [State.add]
  | cons j items ih =>
      unfold State.add at ih ⊢
      rw [List.foldl_cons, ih, List.mem_cons]
      split
      · next hj =>
          constructor
          · rintro (h | h)
            · exact Or.inl h
            · exact Or.inr (Or.inr h)
          · rintro (h | rfl | h)
            · exact Or.inl h
            · exact Or.inl hj
            · exact Or.inr h
      · rw [List.mem_cons]
        tauto

end Marks

/-! ## The run -/

section Run

variable {ι σ : Type*} [DecidableEq ι] {next : ι → List ι} {step : σ → ι → σ × List ι}
  {first items done : List ι} {w : State ι} {i : ι}

def ReachedFrom (next : ι → List ι) (first : List ι) (i : ι) : Prop :=
  ∃ s ∈ first, Reaches next s i

/-- What is marked is reached, and the successors of a processed item are marked. -/
structure Invariant (next : ι → List ι) (first done : List ι) (w : State ι) : Prop where
  marks : Marks done w
  reached : ∀ i ∈ w.visited, ReachedFrom next first i
  first_mem : ∀ i ∈ first, i ∈ w.visited
  closed : ∀ i ∈ done, ∀ j ∈ next i, j ∈ w.visited

theorem Invariant.init :
    Invariant next first [] (State.add ⟨[], []⟩ first) where
  marks := Marks.add ⟨by simp, by simp⟩ first
  reached i hi := ⟨i, by simpa [mem_add_iff] using hi, .refl⟩
  first_mem i hi := mem_add_iff.mpr (Or.inr hi)
  closed i hi := by cases hi

theorem Invariant.process {rest visited : List ι}
    (h : Invariant next first done ⟨i :: rest, visited⟩) :
    Invariant next first (done ++ [i]) (State.add ⟨rest, visited⟩ (next i)) where
  marks := h.marks.pop.add (next i)
  reached j hj := by
    rcases mem_add_iff.mp hj with hj | hj
    · exact h.reached j hj
    · obtain ⟨s, hs, hreach⟩ := h.reached i ((h.marks.mem i).mpr (Or.inr List.mem_cons_self))
      exact ⟨s, hs, hreach.tail hj⟩
  first_mem j hj := mem_add_iff.mpr (Or.inl (h.first_mem j hj))
  closed j hj k hk := by
    rcases List.mem_append.mp hj with hj | hj
    · exact mem_add_iff.mpr (Or.inl (h.closed j hj k hk))
    · rw [List.mem_singleton.mp hj] at hk
      exact mem_add_iff.mpr (Or.inr hk)

omit [DecidableEq ι] in
theorem Invariant.length_le (h : Invariant next first done w)
    (hitems : ∀ i, ReachedFrom next first i → i ∈ items) :
    done.length + w.pending.length ≤ items.length := by
  rw [← List.length_append]
  refine (List.subperm_of_subset h.marks.nodup ?_).length_le
  intro i hi
  exact hitems i (h.reached i ((h.marks.mem i).mpr (List.mem_append.mp hi)))

omit [DecidableEq ι] in
/-- When nothing is pending, the processed items are exactly the reached ones. -/
theorem Invariant.mem_done_iff {visited : List ι}
    (h : Invariant next first done ⟨[], visited⟩) : i ∈ done ↔ ReachedFrom next first i := by
  have hmem : ∀ j, j ∈ visited ↔ j ∈ done := by simpa using h.marks.mem
  constructor
  · intro hi
    exact h.reached i ((hmem i).mpr hi)
  · rintro ⟨s, hs, hreach⟩
    refine hreach.mem_of_closed ?_ ((hmem s).mp (h.first_mem s hs))
    intro j hj k hk
    exact (hmem k).mp (h.closed j hj k hk)

theorem drain_invariant (hstep : ∀ acc i, (step acc i).2 = next i)
    (hitems : ∀ i, ReachedFrom next first i → i ∈ items) (fuel : ℕ)
    (hfuel : items.length ≤ fuel + done.length) (h : Invariant next first done w) (acc : σ) :
    ∃ rest visited, Invariant next first (done ++ rest) ⟨[], visited⟩ ∧
      drain step fuel w acc = some (rest.foldl (fun acc i => (step acc i).1) acc) := by
  induction fuel generalizing done w acc with
  | zero =>
      have hlen := h.length_le hitems
      obtain ⟨_ | ⟨i, pending⟩, visited⟩ := w
      · exact ⟨[], visited, by simpa using h, rfl⟩
      · simp only [List.length_cons] at hlen
        omega
  | succ fuel ih =>
      obtain ⟨_ | ⟨i, pending⟩, visited⟩ := w
      · exact ⟨[], visited, by simpa using h, rfl⟩
      · have hfuel' : items.length ≤ fuel + (done ++ [i]).length := by
          rw [List.length_append, List.length_singleton]
          omega
        obtain ⟨rest, visited', hinv, hrun⟩ := ih hfuel' h.process (step acc i).1
        refine ⟨i :: rest, visited', by simpa using hinv, ?_⟩
        rw [drain, hstep, hrun, List.foldl_cons]

/-- The loop processes every item that the first ones reach exactly once. -/
theorem drain_spec (hstep : ∀ acc i, (step acc i).2 = next i)
    (hitems : ∀ i, ReachedFrom next first i → i ∈ items) (acc : σ) :
    ∃ order : List ι, order.Nodup ∧ (∀ i, i ∈ order ↔ ReachedFrom next first i) ∧
      drain step items.length (State.add ⟨[], []⟩ first) acc =
        some (order.foldl (fun acc i => (step acc i).1) acc) := by
  obtain ⟨order, visited, hinv, hrun⟩ :=
    drain_invariant hstep hitems items.length (by simp) Invariant.init acc
  rw [List.nil_append] at hinv
  exact ⟨order, by simpa using hinv.marks.nodup, fun i => hinv.mem_done_iff, hrun⟩

end Run

end Mair.Worklist
