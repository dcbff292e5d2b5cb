import Mathlib.Data.List.DropRight
import Mathlib.Data.List.Infix

/-! # Runs of blanks

Two lists with the same words differ in their runs of blanks only. -/

namespace Mair.Blanks

variable {α : Type*}

/-- Each run of blanks becomes one space. The flag says that the space of the run that the list
goes on with is already there. -/
def squeeze (blank : α → Bool) (space : α) : Bool → List α → List α
  | _, [] => []
  | run, c :: l =>
      if blank c then
        if run then squeeze blank space true l else space :: squeeze blank space true l
      else c :: squeeze blank space false l

/-- Without blanks at the two ends. -/
def strip (blank : α → Bool) (l : List α) : List α := (l.dropWhile blank).rdropWhile blank

def collapse (blank : α → Bool) (space : α) (l : List α) : List α :=
  strip blank (squeeze blank space false l)

/-- The flag after a list. -/
def endsBlank (blank : α → Bool) : Bool → List α → Bool
  | run, [] => run
  | _, c :: l => endsBlank blank (blank c) l

variable {blank : α → Bool} {space : α} {run : Bool} {l a b w : List α} {q : ℕ}

theorem squeeze_append (a b : List α) (run : Bool) :
    squeeze blank space run (a ++ b) =
      squeeze blank space run a ++ squeeze blank space (endsBlank blank run a) b := by
  induction a generalizing run with
  | nil => rfl
  | cons c a ih =>
      rw [List.cons_append, squeeze, squeeze, endsBlank]
      by_cases hc : blank c = true
      · rw [if_pos hc, if_pos hc, hc, ih]
        cases run <;> rfl
      · rw [if_neg hc, if_neg hc, Bool.eq_false_iff.mpr hc, ih]
        rfl

theorem squeeze_squeeze (hspace : blank space = true) (l : List α) (run : Bool) :
    squeeze blank space run (squeeze blank space run l) = squeeze blank space run l := by
  induction l generalizing run with
  | nil => rfl
  | cons c l ih =>
      rw [squeeze]
      by_cases hc : blank c = true
      · rw [if_pos hc]
        cases run with
        | true => exact ih true
        | false => exact (by simp [squeeze, hspace, ih])
      · rw [if_neg hc, squeeze, if_neg hc, ih]

theorem dropWhile_squeeze_true (l : List α) :
    (squeeze blank space true l).dropWhile blank = squeeze blank space true l := by
  induction l with
  | nil => rfl
  | cons c l ih =>
      rw [squeeze]
      by_cases hc : blank c = true
      · rw [if_pos hc]
        exact ih
      · rw [if_neg hc, List.dropWhile_cons_of_neg hc]

theorem dropWhile_squeeze (hspace : blank space = true) (l : List α) :
    (squeeze blank space false l).dropWhile blank = squeeze blank space true l := by
  cases l with
  | nil => rfl
  | cons c l =>
      rw [squeeze, squeeze]
      by_cases hc : blank c = true
      · rw [if_pos hc, if_pos hc, if_neg Bool.false_ne_true, if_pos rfl,
          List.dropWhile_cons_of_pos hspace, dropWhile_squeeze_true]
      · rw [if_neg hc, if_neg hc, List.dropWhile_cons_of_neg hc]

theorem collapse_eq (hspace : blank space = true) (l : List α) :
    collapse blank space l = (squeeze blank space true l).rdropWhile blank := by
  rw [collapse, strip, dropWhile_squeeze hspace]

/-! ## Words -/

section Words

variable (hw : ∀ c ∈ w, blank c = false)

include hw

theorem squeeze_word (hne : w ≠ []) (run : Bool) (l : List α) :
    squeeze blank space run (w ++ l) = w ++ squeeze blank space false l := by
  induction w generalizing run with
  | nil => exact absurd rfl hne
  | cons c w ih =>
      have hc : ¬blank c = true := by
        rw [hw c List.mem_cons_self]
        exact Bool.false_ne_true
      rw [List.cons_append, squeeze, if_neg hc, List.cons_append]
      cases w with
      | nil => rfl
      | cons d w => rw [ih (fun e he => hw e (List.mem_cons_of_mem c he)) (List.cons_ne_nil d w)]

theorem prefix_of_prefix_squeeze (hspace : blank space = true)
    (h : w <+: squeeze blank space false l) : w <+: l := by
  induction w generalizing l with
  | nil => exact List.nil_prefix
  | cons x w ih =>
      have hx := hw x List.mem_cons_self
      cases l with
      | nil => exact absurd (List.prefix_nil.mp h) (List.cons_ne_nil x w)
      | cons c l =>
          rw [squeeze] at h
          by_cases hc : blank c = true
          · rw [if_pos hc, if_neg Bool.false_ne_true, List.cons_prefix_cons] at h
            rw [h.1, hspace] at hx
            cases hx
          · rw [if_neg hc, List.cons_prefix_cons] at h
            rw [List.cons_prefix_cons]
            exact ⟨h.1, ih (fun e he => hw e (List.mem_cons_of_mem x he)) h.2⟩

/-- A word of the squeezed list is in the list. -/
theorem exists_prefix_of_squeeze (hspace : blank space = true) (hne : w ≠ []) {run : Bool}
    (h : w <+: (squeeze blank space run l).drop q) : ∃ q', w <+: l.drop q' := by
  induction l generalizing run q with
  | nil =>
      rw [squeeze, List.drop_nil] at h
      exact ⟨0, h⟩
  | cons c l ih =>
      rw [squeeze] at h
      by_cases hc : blank c = true
      · rw [if_pos hc] at h
        cases run with
        | true =>
            obtain ⟨q', hq'⟩ := ih h
            exact ⟨q' + 1, hq'⟩
        | false =>
            rw [if_neg Bool.false_ne_true] at h
            cases q with
            | succ q =>
                obtain ⟨q', hq'⟩ := ih h
                exact ⟨q' + 1, hq'⟩
            | zero =>
                obtain ⟨x, w, rfl⟩ := List.exists_cons_of_ne_nil hne
                have hx := hw x List.mem_cons_self
                rw [List.drop_zero, List.cons_prefix_cons] at h
                rw [h.1, hspace] at hx
                cases hx
      · rw [if_neg hc] at h
        cases q with
        | succ q =>
            obtain ⟨q', hq'⟩ := ih h
            exact ⟨q' + 1, hq'⟩
        | zero =>
            refine ⟨0, prefix_of_prefix_squeeze hw hspace ?_⟩
            rw [List.drop_zero, squeeze, if_neg hc]
            exact h

theorem rdropWhile_word (hne : w ≠ []) (a b : List α) :
    (a ++ (w ++ b)).rdropWhile blank = a ++ (w ++ b.rdropWhile blank) := by
  induction b using List.reverseRecOn with
  | nil =>
      rw [List.append_nil, List.rdropWhile_nil, List.append_nil, List.rdropWhile_eq_self_iff]
      intro hl
      rw [List.getLast_append_of_ne_nil _ hne, hw _ (List.getLast_mem hne)]
      exact Bool.false_ne_true
  | append_singleton b x ih =>
      rw [← List.append_assoc, ← List.append_assoc]
      by_cases hx : blank x = true
      · rw [List.rdropWhile_concat_pos _ _ _ hx, List.rdropWhile_concat_pos _ _ _ hx,
          List.append_assoc, ih]
      · rw [List.rdropWhile_concat_neg _ _ _ hx, List.rdropWhile_concat_neg _ _ _ hx,
          List.append_assoc, List.append_assoc]

theorem collapse_append_word (hspace : blank space = true) (hne : w ≠ []) (a b : List α) :
    collapse blank space (a ++ (w ++ b)) =
      squeeze blank space true a ++ (w ++ (squeeze blank space false b).rdropWhile blank) := by
  rw [collapse_eq hspace, squeeze_append, squeeze_word hw hne, rdropWhile_word hw hne]

/-- Before a word the runs may already be squeezed. -/
theorem collapse_squeeze_append_word (hspace : blank space = true) (hne : w ≠ []) (a b : List α) :
    collapse blank space (squeeze blank space true a ++ (w ++ b)) =
      collapse blank space (a ++ (w ++ b)) := by
  rw [collapse_append_word hw hspace hne, collapse_append_word hw hspace hne,
    squeeze_squeeze hspace]

end Words

theorem filter_squeeze (hspace : blank space = true) (l : List α) (run : Bool) :
    (squeeze blank space run l).filter (! blank ·) = l.filter (! blank ·) := by
  induction l generalizing run with
  | nil => rfl
  | cons c l ih =>
      rw [squeeze, List.filter_cons]
      by_cases hc : blank c = true
      · rw [if_pos hc, hc]
        cases run with
        | true => exact ih true
        | false =>
            rw [if_neg Bool.false_ne_true, List.filter_cons, hspace]
            exact ih true
      · rw [if_neg hc, List.filter_cons, ih]

theorem filter_rdropWhile (l : List α) :
    (l.rdropWhile blank).filter (! blank ·) = l.filter (! blank ·) := by
  induction l using List.reverseRecOn with
  | nil => rfl
  | append_singleton l x ih =>
      by_cases hx : blank x = true
      · have hnone : [x].filter (! blank ·) = [] := by simp [hx]
        rw [List.rdropWhile_concat_pos _ _ _ hx, ih, List.filter_append, hnone, List.append_nil]
      · rw [List.rdropWhile_concat_neg _ _ _ hx]

theorem filter_collapse (hspace : blank space = true) (l : List α) :
    (collapse blank space l).filter (! blank ·) = l.filter (! blank ·) := by
  rw [collapse_eq hspace, filter_rdropWhile, filter_squeeze hspace]

end Mair.Blanks
