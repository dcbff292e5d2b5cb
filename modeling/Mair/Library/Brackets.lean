import Mathlib.Data.List.Count

/-! # Matching brackets

Brackets are two letters of an alphabet. What closes a bracket is found by counting. -/

namespace Mair.Brackets

variable {α : Type*} {o c x : α} {depth lower : ℕ} {l text t u b : List α}

theorem prefix_append_cases {v : List α} (h : t <+: u ++ v) :
    t <+: u ∨ ∃ s, t = u ++ s ∧ s <+: v := by
  rcases Nat.le_total t.length u.length with hle | hle
  · exact Or.inl (List.prefix_of_prefix_length_le h (List.prefix_append u v) hle)
  · obtain ⟨s, rfl⟩ := List.prefix_of_prefix_length_le (List.prefix_append u v) h hle
    exact Or.inr ⟨s, rfl, (List.prefix_append_right_inj u).mp h⟩

variable [DecidableEq α]

/-- No prefix closes more than it opens, and in the end all is closed. -/
structure Balanced (o c : α) (l : List α) : Prop where
  total : l.count o = l.count c
  count_le : ∀ t, t <+: l → t.count c ≤ t.count o

/-- The text closes that many open brackets, the last of them with its last letter. -/
structure Closed (o c : α) (depth : ℕ) (text : List α) : Prop where
  total : depth + text.count o = text.count c
  count_lt : ∀ t, t <+: text → t ≠ text → t.count c < depth + t.count o

theorem Balanced.append {v : List α} (hu : Balanced o c u) (hv : Balanced o c v) :
    Balanced o c (u ++ v) where
  total := by rw [List.count_append, List.count_append, hu.total, hv.total]
  count_le t ht := by
    rcases prefix_append_cases ht with ht | ⟨s, rfl, hs⟩
    · exact hu.count_le t ht
    · rw [List.count_append, List.count_append, hu.total]
      exact Nat.add_le_add_left (hv.count_le s hs) _

theorem balanced_of_not_mem (ho : o ∉ l) (hc : c ∉ l) : Balanced o c l where
  total := by rw [List.count_eq_zero_of_not_mem ho, List.count_eq_zero_of_not_mem hc]
  count_le t ht := by
    rw [List.count_eq_zero_of_not_mem fun hmem => hc (ht.subset hmem)]
    exact Nat.zero_le _

/-- An opener with one bracket, and the bracket that closes it. -/
theorem Balanced.enclose (h : Balanced o c l) (hne : o ≠ c) (ho : u.count o = 1) (hc : c ∉ u) :
    Balanced o c (u ++ l ++ [c]) where
  total := by
    simp only [List.count_append, ho, List.count_eq_zero_of_not_mem hc, h.total,
      List.count_singleton_self, List.count_cons_of_ne (Ne.symm hne), List.count_nil]
    omega
  count_le t ht := by
    rcases prefix_append_cases ht with ht | ⟨s, rfl, hs⟩
    · rcases prefix_append_cases ht with ht | ⟨s, rfl, hs⟩
      · rw [List.count_eq_zero_of_not_mem fun hmem => hc (ht.subset hmem)]
        exact Nat.zero_le _
      · have hle := h.count_le s hs
        rw [List.count_append, List.count_append, List.count_eq_zero_of_not_mem hc]
        omega
    · have hle : s.count c ≤ 1 := by
        rw [← List.count_singleton_self (a := c)]
        exact hs.sublist.count_le c
      simp only [List.count_append, ho, List.count_eq_zero_of_not_mem hc, h.total]
      omega

theorem closed_zero_iff : Closed o c 0 text ↔ text = [] := by
  constructor
  · intro h
    by_contra hne
    have hlt := h.count_lt [] List.nil_prefix (Ne.symm hne)
    simp at hlt
  · rintro rfl
    exact ⟨by simp, fun t ht hne => absurd (List.prefix_nil.mp ht) hne⟩

theorem count_cons_eq {a : α} : (x :: text).count a = [x].count a + text.count a := by
  rw [← List.singleton_append, List.count_append]

/-- One letter changes the number of open brackets. -/
theorem closed_cons_iff (h : depth + [x].count o = lower + [x].count c) (hdepth : 0 < depth) :
    Closed o c depth (x :: text) ↔ Closed o c lower text := by
  constructor
  · intro hclosed
    refine ⟨?_, ?_⟩
    · have htotal := hclosed.total
      rw [count_cons_eq (a := o), count_cons_eq (a := c)] at htotal
      omega
    · intro t ht hne
      have hlt := hclosed.count_lt (x :: t) (List.cons_prefix_cons.mpr ⟨rfl, ht⟩)
        (fun heq => hne (List.cons.inj heq).2)
      rw [count_cons_eq (a := o), count_cons_eq (a := c)] at hlt
      omega
  · intro hclosed
    refine ⟨?_, ?_⟩
    · have htotal := hclosed.total
      rw [count_cons_eq (a := o), count_cons_eq (a := c)]
      omega
    · intro t ht hne
      cases t with
      | nil => simpa using hdepth
      | cons y t =>
          obtain ⟨rfl, htail⟩ := List.cons_prefix_cons.mp ht
          have hlt := hclosed.count_lt t htail (fun heq => hne (congrArg (y :: ·) heq))
          rw [count_cons_eq (a := o), count_cons_eq (a := c)]
          omega

theorem closed_cons_open (hne : o ≠ c) :
    Closed o c (depth + 1) (o :: text) ↔ Closed o c (depth + 2) text := by
  refine closed_cons_iff ?_ (Nat.succ_pos depth)
  simp [hne]

theorem closed_cons_close (hne : o ≠ c) :
    Closed o c (depth + 1) (c :: text) ↔ Closed o c depth text := by
  refine closed_cons_iff ?_ (Nat.succ_pos depth)
  simp [Ne.symm hne]

theorem closed_cons_other (ho : x ≠ o) (hc : x ≠ c) :
    Closed o c (depth + 1) (x :: text) ↔ Closed o c (depth + 1) text := by
  refine closed_cons_iff ?_ (Nat.succ_pos depth)
  simp [ho, hc]

theorem not_closed_nil : ¬Closed o c (depth + 1) [] := by
  intro h
  have htotal := h.total
  simp at htotal

/-- Where the rest closes all that is open, one of its prefixes does so exactly. -/
theorem exists_closed (hne : o ≠ c) (h : depth + l.count o ≤ l.count c) :
    ∃ t, t <+: l ∧ Closed o c depth t := by
  induction l generalizing depth with
  | nil =>
      simp only [List.count_nil, Nat.add_zero, Nat.le_zero] at h
      exact ⟨[], List.nil_prefix, h ▸ closed_zero_iff.mpr rfl⟩
  | cons x l ih =>
      cases depth with
      | zero => exact ⟨[], List.nil_prefix, closed_zero_iff.mpr rfl⟩
      | succ depth =>
          rcases eq_or_ne x o with rfl | ho
          · rw [List.count_cons_self, List.count_cons_of_ne hne] at h
            obtain ⟨t, ht, hclosed⟩ := @ih (depth + 2) (by omega)
            exact ⟨x :: t, List.cons_prefix_cons.mpr ⟨rfl, ht⟩, (closed_cons_open hne).mpr hclosed⟩
          · rw [List.count_cons_of_ne ho] at h
            rcases eq_or_ne x c with rfl | hc
            · rw [List.count_cons_self] at h
              obtain ⟨t, ht, hclosed⟩ := @ih depth (by omega)
              exact ⟨x :: t, List.cons_prefix_cons.mpr ⟨rfl, ht⟩,
                (closed_cons_close hne).mpr hclosed⟩
            · rw [List.count_cons_of_ne hc] at h
              obtain ⟨t, ht, hclosed⟩ := @ih (depth + 1) h
              exact ⟨x :: t, List.cons_prefix_cons.mpr ⟨rfl, ht⟩,
                (closed_cons_other ho hc).mpr hclosed⟩

theorem Closed.not_proper (h : Closed o c depth text) (h' : Closed o c depth t)
    (hbegins : t <+: text) : t = text := by
  by_contra hne
  have hlt := h.count_lt t hbegins hne
  have htotal := h'.total
  omega

theorem Closed.unique (h : Closed o c depth text) (h' : Closed o c depth t) (hl : text <+: l)
    (hl' : t <+: l) : text = t := by
  rcases Nat.le_total text.length t.length with hle | hle
  · exact h'.not_proper h (List.prefix_of_prefix_length_le hl hl' hle)
  · exact (h.not_proper h' (List.prefix_of_prefix_length_le hl' hl hle)).symm

/-- Brackets that open before the last one closes are closed before it. -/
theorem Closed.nested {a : List α} (h : Closed o c depth (a ++ b)) (hb : b ≠ []) (hu : c ∉ u)
    (h' : Closed o c (u.count o) t) (hl : b <+: l) (hl' : u ++ t <+: l) :
    (u ++ t).length ≤ b.length := by
  by_contra hlt
  have hcount : b.count o < b.count c := by
    have hproper := h.count_lt a (List.prefix_append a b) (fun heq => hb (by simpa using heq))
    have htotal := h.total
    rw [List.count_append, List.count_append] at htotal
    omega
  have hbegins := List.prefix_of_prefix_length_le hl hl' (Nat.le_of_not_le hlt)
  rcases Nat.le_total b.length u.length with hle | hle
  · have hbu := List.prefix_of_prefix_length_le hbegins (List.prefix_append u t) hle
    rw [List.count_eq_zero_of_not_mem (fun hmem => hu (hbu.subset hmem))] at hcount
    exact Nat.not_lt_zero _ hcount
  · obtain ⟨s, rfl⟩ := List.prefix_of_prefix_length_le (List.prefix_append u t) hbegins hle
    rw [List.prefix_append_right_inj] at hbegins
    have hproper := h'.count_lt s hbegins (fun heq => hlt (heq ▸ Nat.le_refl _))
    rw [List.count_append, List.count_append, List.count_eq_zero_of_not_mem hu] at hcount
    omega

end Mair.Brackets
