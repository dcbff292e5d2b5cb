import Mathlib.Data.List.Basic

/-! # The last occurrence in a trace

Facts about the part of a trace that follows the last occurrence of an event. -/

namespace Mair.Occurrence

variable {α : Type*}

/-- The part of `tr` from the last occurrence of `m` on is `m :: post`. -/
def LastSplit (m : α) (tr pre post : List α) : Prop :=
  tr = pre ++ m :: post ∧ m ∉ post

/-- An event that satisfies `p` occurs at or after the last occurrence of `m`. -/
def SinceLast (p : α → Bool) (m : α) (tr : List α) : Prop :=
  ∃ pre post, LastSplit m tr pre post ∧ ∃ i ∈ m :: post, p i = true

/-- The part before the first occurrence is unique. -/
theorem firstSplit_unique {m : α} {u v x y : List α} (hu : m ∉ u) (hv : m ∉ v)
    (h : u ++ m :: x = v ++ m :: y) : u = v := by
  induction u generalizing v with
  | nil =>
      cases v with
      | nil => rfl
      | cons j v =>
          rw [List.nil_append, List.cons_append, List.cons.injEq] at h
          exact absurd (h.1 ▸ List.mem_cons_self) hv
  | cons i u ih =>
      cases v with
      | nil =>
          rw [List.nil_append, List.cons_append, List.cons.injEq] at h
          exact absurd (h.1 ▸ List.mem_cons_self) hu
      | cons j v =>
          rw [List.cons_append, List.cons_append, List.cons.injEq] at h
          rw [h.1, ih (List.not_mem_of_not_mem_cons hu) (List.not_mem_of_not_mem_cons hv) h.2]

/-- The part after the last occurrence is unique. -/
theorem lastSplit_unique {m : α} {tr pre post pre' post' : List α}
    (h : LastSplit m tr pre post) (h' : LastSplit m tr pre' post') : post = post' := by
  have hreverse : post.reverse ++ m :: pre.reverse = post'.reverse ++ m :: pre'.reverse := by
    have heq := congrArg List.reverse (h.1.symm.trans h'.1)
    simpa using heq
  have hpost := firstSplit_unique (mt List.mem_reverse.mp h.2) (mt List.mem_reverse.mp h'.2)
    hreverse
  exact List.reverse_injective hpost

theorem exists_lastSplit {m : α} {tr : List α} (h : m ∈ tr) :
    ∃ pre post, LastSplit m tr pre post := by
  induction tr with
  | nil => cases h
  | cons i tr ih =>
      by_cases hm : m ∈ tr
      · obtain ⟨pre, post, htr, hpost⟩ := ih hm
        exact ⟨i :: pre, post, by rw [htr, List.cons_append], hpost⟩
      · rcases List.mem_cons.mp h with rfl | h
        · exact ⟨[], tr, rfl, hm⟩
        · exact absurd h hm

theorem SinceLast.mem {p : α → Bool} {m : α} {tr : List α} (h : SinceLast p m tr) : m ∈ tr := by
  obtain ⟨pre, post, ⟨rfl, -⟩, -⟩ := h
  simp

theorem not_sinceLast_nil {p : α → Bool} {m : α} : ¬SinceLast p m [] := by
  intro h
  cases h.mem

/-- A segment that contains `m` hides what came before it; any other segment only adds its
own events. -/
theorem sinceLast_append {p : α → Bool} {m : α} {tr seg : List α} :
    SinceLast p m (tr ++ seg) ↔ SinceLast p m seg ∨
      (m ∉ seg ∧ (SinceLast p m tr ∨ (m ∈ tr ∧ ∃ i ∈ seg, p i = true))) := by
  constructor
  · rintro ⟨pre, post, ⟨heq, hpost⟩, i, hi, hp⟩
    rcases List.append_eq_append_iff.mp heq with ⟨mid, rfl, hseg⟩ | ⟨mid, rfl, hpost'⟩
    · exact Or.inl ⟨mid, post, ⟨hseg, hpost⟩, i, hi, hp⟩
    · cases mid with
      | nil => exact Or.inl ⟨[], post, ⟨by simpa using hpost'.symm, hpost⟩, i, hi, hp⟩
      | cons j mid =>
          rw [List.cons_append, List.cons.injEq] at hpost'
          obtain ⟨rfl, rfl⟩ := hpost'
          rw [List.mem_append, not_or] at hpost
          refine Or.inr ⟨hpost.2, ?_⟩
          rw [← List.cons_append, List.mem_append] at hi
          rcases hi with hi | hi
          · exact Or.inl ⟨pre, mid, ⟨rfl, hpost.1⟩, i, hi, hp⟩
          · exact Or.inr ⟨by simp, i, hi, hp⟩
  · rintro (⟨pre, post, ⟨rfl, hpost⟩, hex⟩ | ⟨hseg, hrest⟩)
    · exact ⟨tr ++ pre, post, ⟨by rw [List.append_assoc], hpost⟩, hex⟩
    · have hnot : ∀ post, m ∉ post → m ∉ post ++ seg := fun post hpost h =>
        (List.mem_append.mp h).elim hpost hseg
      rcases hrest with ⟨pre, post, ⟨rfl, hpost⟩, i, hi, hp⟩ | ⟨hm, i, hi, hp⟩
      · refine ⟨pre, post ++ seg, ⟨by simp, hnot post hpost⟩, i, ?_, hp⟩
        rw [← List.cons_append]
        exact List.mem_append_left _ hi
      · obtain ⟨pre, post, rfl, hpost⟩ := exists_lastSplit hm
        refine ⟨pre, post ++ seg, ⟨by simp, hnot post hpost⟩, i, ?_, hp⟩
        rw [← List.cons_append]
        exact List.mem_append_right _ hi

theorem sinceLast_singleton {p : α → Bool} {m i : α} :
    SinceLast p m [i] ↔ m = i ∧ p m = true := by
  constructor
  · rintro ⟨pre, post, ⟨heq, -⟩, j, hj, hp⟩
    cases pre with
    | nil =>
        simp only [List.nil_append, List.cons.injEq] at heq
        obtain ⟨rfl, rfl⟩ := heq
        rw [List.mem_singleton.mp hj] at hp
        exact ⟨rfl, hp⟩
    | cons k pre => simp at heq
  · rintro ⟨rfl, hp⟩
    exact ⟨[], [], ⟨rfl, by simp⟩, m, by simp, hp⟩

/-- Putting one more event in front matters only to an `m` that does not occur later. -/
theorem sinceLast_cons {p : α → Bool} {m i : α} {tr : List α} :
    SinceLast p m (i :: tr) ↔ SinceLast p m tr ∨
      (m ∉ tr ∧ m = i ∧ ∃ j ∈ i :: tr, p j = true) := by
  have h := @sinceLast_append _ p m [i] tr
  rw [List.singleton_append, sinceLast_singleton] at h
  rw [h]
  simp only [List.mem_cons, List.not_mem_nil, or_false, exists_eq_or_imp]
  constructor
  · rintro (h | ⟨hn, ⟨rfl, hp⟩ | ⟨rfl, hp⟩⟩)
    · exact Or.inl h
    · exact Or.inr ⟨hn, rfl, Or.inl hp⟩
    · exact Or.inr ⟨hn, rfl, Or.inr hp⟩
  · rintro (h | ⟨hn, rfl, hp | hp⟩)
    · exact Or.inl h
    · exact Or.inr ⟨hn, Or.inl ⟨rfl, hp⟩⟩
    · exact Or.inr ⟨hn, Or.inr ⟨rfl, hp⟩⟩

end Mair.Occurrence
