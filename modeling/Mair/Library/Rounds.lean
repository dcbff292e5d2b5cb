import Mathlib.Data.List.Infix
import Mathlib.Data.List.Count

/-! # Rounds of a list

The occurrences of a marker cut a list into rounds. An element is in the round that is numbered
by the markers up to it. -/

namespace Mair.Rounds

variable {α : Type*} [DecidableEq α] {h b : α} {l p seg q : List α} {r : ℕ}

/-- The rounds that `b` occurs in, in order. -/
def rounds (h b : α) (l : List α) : List ℕ :=
  (l.inits.filter fun p => p.getLast? = some b).map fun p => p.count h

theorem mem_rounds_iff :
    r ∈ rounds h b l ↔ ∃ p, p ++ [b] <+: l ∧ (p ++ [b]).count h = r := by
  simp only [rounds, List.mem_map, List.mem_filter, List.mem_inits, decide_eq_true_eq]
  constructor
  · intro hr
    obtain ⟨p, ⟨hp, hlast⟩, hcount⟩ := hr
    obtain ⟨p, rfl⟩ := List.getLast?_eq_some_iff.mp hlast
    exact ⟨p, hp, hcount⟩
  · intro hr
    obtain ⟨p, hp, hcount⟩ := hr
    exact ⟨p ++ [b], ⟨hp, List.getLast?_concat⟩, hcount⟩

theorem le_count_of_mem_rounds (hr : r ∈ rounds h b l) : r ≤ l.count h := by
  obtain ⟨p, hp, rfl⟩ := mem_rounds_iff.mp hr
  exact hp.sublist.count_le h

theorem rounds_eq_nil_iff : rounds h b l = [] ↔ b ∉ l := by
  constructor
  · intro hnil hmem
    obtain ⟨p, q, rfl⟩ := List.append_of_mem hmem
    have hr : (p ++ [b]).count h ∈ rounds h b (p ++ b :: q) :=
      mem_rounds_iff.mpr ⟨p, ⟨q, by simp⟩, rfl⟩
    rw [hnil] at hr
    cases hr
  · intro hmem
    refine List.eq_nil_iff_forall_not_mem.mpr ?_
    intro r hr
    obtain ⟨p, hp, -⟩ := mem_rounds_iff.mp hr
    exact hmem (hp.subset (by simp))

/-- The marker that opens the round after `r` markers. -/
theorem exists_marker (hr : r < l.count h) : ∃ p q, l = p ++ h :: q ∧ p.count h = r := by
  induction l generalizing r with
  | nil => simp at hr
  | cons x l ih =>
      by_cases hx : x = h
      · subst hx
        cases r with
        | zero => exact ⟨[], l, rfl, rfl⟩
        | succ r =>
            rw [List.count_cons_self] at hr
            obtain ⟨p, q, rfl, hp⟩ := ih (r := r) (by omega)
            exact ⟨x :: p, q, rfl, by rw [List.count_cons_self, hp]⟩
      · rw [List.count_cons_of_ne hx] at hr
        obtain ⟨p, q, rfl, hp⟩ := ih hr
        exact ⟨x :: p, q, rfl, by rw [List.count_cons_of_ne hx, hp]⟩

/-- A list starts with a part without the marker and then ends or shows the marker. -/
theorem exists_segment (l : List α) :
    ∃ seg q, l = seg ++ q ∧ h ∉ seg ∧ ∀ x, q.head? = some x → x = h := by
  by_cases hmem : h ∈ l
  · obtain ⟨seg, q, rfl, hseg⟩ := List.eq_append_cons_of_mem hmem
    refine ⟨seg, h :: q, rfl, hseg, ?_⟩
    intro x hx
    exact (Option.some.inj hx).symm
  · exact ⟨l, [], by simp, hmem, by simp⟩

theorem mem_rounds_append_iff {l' : List α} : r ∈ rounds h b (l ++ l') ↔
    r ∈ rounds h b l ∨ ∃ r' ∈ rounds h b l', r = l.count h + r' := by
  constructor
  · intro hr
    obtain ⟨p, ⟨q, hq⟩, hcount⟩ := mem_rounds_iff.mp hr
    rcases List.append_eq_append_iff.mp hq with ⟨w, hw, -⟩ | ⟨w, hw, hl⟩
    · exact Or.inl (mem_rounds_iff.mpr ⟨p, ⟨w, hw.symm⟩, hcount⟩)
    · cases w using List.reverseRecOn with
      | nil =>
          rw [List.append_nil] at hw
          exact Or.inl (mem_rounds_iff.mpr ⟨p, ⟨[], by rw [List.append_nil, hw]⟩, hcount⟩)
      | append_singleton w x =>
          rw [← List.append_assoc] at hw
          obtain ⟨rfl, hx⟩ := List.append_inj' hw rfl
          rw [List.cons.injEq] at hx
          obtain ⟨rfl, -⟩ := hx
          refine Or.inr ⟨(w ++ [b]).count h, mem_rounds_iff.mpr ⟨w, ⟨q, hl.symm⟩, rfl⟩, ?_⟩
          rw [← hcount, List.append_assoc, List.count_append]
  · intro hr
    rcases hr with hr | ⟨r', hr', rfl⟩
    · obtain ⟨p, hp, hcount⟩ := mem_rounds_iff.mp hr
      exact mem_rounds_iff.mpr ⟨p, hp.trans (List.prefix_append l l'), hcount⟩
    · obtain ⟨p, hp, rfl⟩ := mem_rounds_iff.mp hr'
      refine mem_rounds_iff.mpr ⟨l ++ p, ?_, ?_⟩
      · rw [List.append_assoc]
        exact (List.prefix_append_right_inj l).mpr hp
      · rw [List.append_assoc, List.count_append]

/-- A list that starts with the marker has no round zero. -/
theorem pos_of_mem_rounds (hl : ∀ x, l.head? = some x → x = h) (hr : r ∈ rounds h b l) :
    0 < r := by
  obtain ⟨p, hp, rfl⟩ := mem_rounds_iff.mp hr
  rw [List.count_pos_iff]
  cases l with
  | nil => simp at hp
  | cons x l =>
      obtain rfl := hl x rfl
      cases p with
      | nil =>
          rw [List.nil_append, List.cons_prefix_cons] at hp
          rw [hp.1]
          exact List.mem_cons_self
      | cons y p =>
          rw [List.cons_append, List.cons_prefix_cons] at hp
          rw [hp.1]
          exact List.mem_cons_self

/-- The round behind `p` is the marker with what follows up to the next one. -/
theorem mem_round_iff (hseg : h ∉ seg) (hq : ∀ x, q.head? = some x → x = h) :
    p.count h + 1 ∈ rounds h b (p ++ ((h :: seg) ++ q)) ↔ b ∈ h :: seg := by
  have hone : (h :: seg).count h = 1 := by
    rw [List.count_cons_self, List.count_eq_zero_of_not_mem hseg]
  rw [mem_rounds_append_iff]
  constructor
  · intro hr
    rcases hr with hr | ⟨r, hr, hcount⟩
    · have hle := le_count_of_mem_rounds hr
      omega
    · obtain rfl : r = 1 := by omega
      rcases mem_rounds_append_iff.mp hr with hr | ⟨r, hr, hcount⟩
      · by_contra hmem
        rw [rounds_eq_nil_iff.mpr hmem] at hr
        cases hr
      · have hpos := pos_of_mem_rounds hq hr
        omega
  · intro hmem
    refine Or.inr ⟨1, mem_rounds_append_iff.mpr (Or.inl ?_), rfl⟩
    obtain ⟨r, hr⟩ := List.exists_mem_of_ne_nil _ (mt rounds_eq_nil_iff.mp (not_not.mpr hmem))
    have hle := le_count_of_mem_rounds hr
    have hpos : 0 < r := by
      refine pos_of_mem_rounds ?_ hr
      intro x hx
      exact (Option.some.inj hx).symm
    obtain rfl : r = 1 := by omega
    exact hr

end Mair.Rounds
