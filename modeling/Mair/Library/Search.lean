import Mathlib.Data.List.Basic

/-! # First occurrences and removals in a list -/

namespace Mair.Search

variable {α : Type*}

/-! ## First occurrence -/

section Find

variable {needle l : List α} {p q : ℕ}

theorem length_le_of_prefix_drop (h : needle <+: l.drop p) (hne : needle ≠ []) :
    p + needle.length ≤ l.length := by
  have hle := h.length_le
  have hpos := List.length_pos_of_ne_nil hne
  rw [List.length_drop] at hle
  omega

theorem infix_append_cons {c : α} {a b : List α} (hc : c ∉ needle) (h : needle <:+: a ++ c :: b) :
    needle <:+: a ∨ needle <:+: b := by
  rcases List.infix_append_iff.mp h with ha | hb | hboth
  · exact .inl ha
  · rcases List.infix_cons_iff.mp hb with hpre | hb
    · cases needle with
      | nil => exact .inr (List.nil_infix)
      | cons d needle =>
          have := (List.cons_prefix_cons.mp hpre).1
          exact absurd this (by rintro rfl; simp at hc)
    · exact .inr hb
  · obtain ⟨s, t, rfl, hs, ht⟩ := hboth
    cases t with
    | nil =>
        rw [List.append_nil]
        exact .inl hs.isInfix
    | cons d t =>
        have hd := (List.cons_prefix_cons.mp ht).1
        rw [hd] at hc
        simp at hc

variable [DecidableEq α]

/-- The first position at which a pattern occurs. -/
def find (needle : List α) : List α → Option ℕ
  | [] => if needle = [] then some 0 else none
  | c :: l => if needle.isPrefixOf (c :: l) then some 0 else (find needle l).map (· + 1)

theorem prefix_of_find (h : find needle l = some p) : needle <+: l.drop p := by
  induction l generalizing p with
  | nil =>
      rw [find] at h
      split at h
      · next hnil => simp [hnil]
      · cases h
  | cons c l ih =>
      rw [find] at h
      split at h
      · next hbegins =>
          cases h
          exact List.isPrefixOf_iff_prefix.mp hbegins
      · obtain ⟨p', hp', rfl⟩ := Option.map_eq_some_iff.mp h
        exact ih hp'

theorem find_first (h : find needle l = some p) (hq : q < p) : ¬needle <+: l.drop q := by
  induction l generalizing p q with
  | nil =>
      rw [find] at h
      split at h
      · cases h
        omega
      · cases h
  | cons c l ih =>
      rw [find] at h
      split at h
      · cases h
        omega
      · next hbegins =>
          obtain ⟨p', hp', rfl⟩ := Option.map_eq_some_iff.mp h
          cases q with
          | zero => exact fun hq => hbegins (List.isPrefixOf_iff_prefix.mpr hq)
          | succ q => exact ih hp' (by omega)

theorem exists_find (h : needle <+: l.drop q) : ∃ p ≤ q, find needle l = some p := by
  induction l generalizing q with
  | nil =>
      rw [List.drop_nil, List.prefix_nil] at h
      exact ⟨0, Nat.zero_le q, by simp [find, h]⟩
  | cons c l ih =>
      by_cases hbegins : needle.isPrefixOf (c :: l) = true
      · exact ⟨0, Nat.zero_le q, by simp [find, hbegins]⟩
      · cases q with
        | zero => exact absurd (List.isPrefixOf_iff_prefix.mpr h) hbegins
        | succ q =>
            obtain ⟨p, hle, hp⟩ := ih h
            exact ⟨p + 1, by omega, by simp [find, hbegins, hp]⟩

theorem find_eq_none (h : find needle l = none) (q : ℕ) : ¬needle <+: l.drop q := by
  intro hq
  obtain ⟨p, -, hp⟩ := exists_find hq
  rw [h] at hp
  cases hp

theorem find_bound (h : find needle l = some p) (hne : needle ≠ []) :
    p + needle.length ≤ l.length :=
  length_le_of_prefix_drop (prefix_of_find h) hne

theorem find_eq_none_iff : find needle l = none ↔ ¬needle <:+: l := by
  constructor
  · intro h hin
    obtain ⟨s, t, rfl⟩ := hin
    apply find_eq_none h s.length
    rw [List.append_assoc, List.drop_left]
    exact List.prefix_append needle t
  · intro h
    cases hp : find needle l with
    | none => rfl
    | some p => exact absurd ((prefix_of_find hp).isInfix.trans (List.drop_suffix p l).isInfix) h

theorem find_append_cons {c : α} {a b : List α} (hc : c ∉ needle) (ha : find needle a = none)
    (hb : find needle b = none) : find needle (a ++ c :: b) = none := by
  rw [find_eq_none_iff] at ha hb ⊢
  intro h
  rcases infix_append_cons hc h with h | h
  · exact ha h
  · exact hb h

/-- The first occurrence, where the last element of the pattern stands only at its end. -/
theorem find_append (c : α) (init : List α) {a b : List α} (hc : c ∉ init)
    (ha : find (init ++ [c]) a = none) :
    find (init ++ [c]) (a ++ ((init ++ [c]) ++ b)) = some a.length := by
  have hhere : init ++ [c] <+: (a ++ ((init ++ [c]) ++ b)).drop a.length := by
    rw [List.drop_left]
    exact List.prefix_append _ _
  obtain ⟨p, hle, hp⟩ := exists_find hhere
  rw [hp]
  rcases Nat.lt_or_ge p a.length with hlt | hge
  · exfalso
    obtain ⟨tail, htail⟩ := prefix_of_find hp
    rw [List.drop_append_of_le_length hle] at htail
    rcases Nat.lt_or_ge (a.drop p).length (init ++ [c]).length with hlong | hshort
    · have hat := congrArg (fun l : List α => l[init.length]?) htail
      have hback : (a.drop p).length ≤ init.length := by
        rw [List.length_append, List.length_singleton] at hlong
        exact Nat.le_of_lt_succ hlong
      have hin : init.length - (a.drop p).length < init.length := by
        rw [List.length_drop] at hback ⊢
        omega
      simp only [List.append_assoc] at hat
      rw [List.getElem?_append_right (Nat.le_refl _), List.getElem?_append_right hback,
        List.getElem?_append_left hin] at hat
      simp at hat
      exact hc (List.mem_of_getElem? hat.symm)
    · have hpre : init ++ [c] <+: a.drop p :=
        List.prefix_of_prefix_length_le ⟨tail, htail⟩ (List.prefix_append _ _) hshort
      exact find_eq_none ha p hpre
  · rw [Nat.le_antisymm hle hge]

/-- The last position at which a pattern occurs. -/
def rfind (needle : List α) : List α → Option ℕ
  | [] => if needle = [] then some 0 else none
  | c :: l =>
      match rfind needle l with
      | some p => some (p + 1)
      | none => if needle.isPrefixOf (c :: l) then some 0 else none

theorem prefix_of_rfind (h : rfind needle l = some p) : needle <+: l.drop p := by
  induction l generalizing p with
  | nil =>
      rw [rfind] at h
      split at h
      · next hnil => simp [hnil]
      · cases h
  | cons c l ih =>
      rw [rfind] at h
      split at h
      · next p' hp' =>
          cases h
          exact ih hp'
      · split at h
        · next hbegins =>
            cases h
            exact List.isPrefixOf_iff_prefix.mp hbegins
        · cases h

theorem exists_rfind (h : needle <+: l.drop q) : ∃ p, rfind needle l = some p := by
  induction l generalizing q with
  | nil =>
      rw [List.drop_nil, List.prefix_nil] at h
      exact ⟨0, by simp [rfind, h]⟩
  | cons c l ih =>
      rw [rfind]
      cases hrest : rfind needle l with
      | some p => exact ⟨p + 1, rfl⟩
      | none =>
          cases q with
          | zero => exact ⟨0, if_pos (List.isPrefixOf_iff_prefix.mpr h)⟩
          | succ q =>
              obtain ⟨p, hp⟩ := ih h
              rw [hrest] at hp
              cases hp

theorem rfind_last (hne : needle ≠ []) (h : rfind needle l = some p) (hq : p < q) :
    ¬needle <+: l.drop q := by
  induction l generalizing p q with
  | nil =>
      rw [List.drop_nil, List.prefix_nil]
      exact hne
  | cons c l ih =>
      cases q with
      | zero => omega
      | succ q =>
          rw [rfind] at h
          split at h
          · next p' hp' =>
              cases h
              exact ih hp' (by omega)
          · next hnone =>
              intro hbegins
              obtain ⟨p', hp'⟩ := exists_rfind (l := l) hbegins
              rw [hnone] at hp'
              cases hp'

/-- Behind an occurrence that is followed by none there is no other one, where the first element of
the pattern does not come again in it. -/
theorem rfind_append {c : α} {rest a b : List α} (hc : c ∉ rest)
    (hb : ∀ q, ¬c :: rest <+: b.drop q) :
    rfind (c :: rest) (a ++ (c :: rest ++ b)) = some a.length := by
  have hhere : c :: rest <+: (a ++ (c :: rest ++ b)).drop a.length := by
    rw [List.drop_left]
    exact List.prefix_append _ _
  obtain ⟨p, hp⟩ := exists_rfind hhere
  have hbegins := prefix_of_rfind hp
  rw [hp]
  rcases Nat.lt_trichotomy p a.length with hlt | heq | hlt
  · exact absurd hhere (rfind_last (List.cons_ne_nil c rest) hp hlt)
  · rw [heq]
  · exfalso
    obtain ⟨k, rfl⟩ := Nat.exists_eq_add_of_lt hlt
    rw [Nat.add_assoc, ← List.drop_drop, List.drop_left, List.cons_append, List.drop_succ_cons]
      at hbegins
    rcases Nat.lt_or_ge k rest.length with hk | hk
    · obtain ⟨tail, htail⟩ := hbegins
      have hhead := congrArg List.head? htail
      rw [List.head?_drop, List.getElem?_append_left hk, List.cons_append, List.head?_cons]
        at hhead
      exact hc (List.mem_of_getElem? hhead.symm)
    · rw [List.drop_append, List.drop_eq_nil_of_le hk, List.nil_append] at hbegins
      exact hb _ hbegins

end Find

/-! ## Removing positions -/

/-- The second list is the first without the elements at some positions, which are counted from
a start. -/
inductive Without (P : ℕ → Prop) : ℕ → List α → List α → Prop
  | nil {n : ℕ} : Without P n [] []
  | drop {n : ℕ} {x : α} {l l' : List α} : P n → Without P (n + 1) l l' → Without P n (x :: l) l'
  | keep {n : ℕ} {x : α} {l l' : List α} : ¬P n → Without P (n + 1) l l' →
      Without P n (x :: l) (x :: l')

namespace Without

variable {P Q : ℕ → Prop} {n : ℕ} {l l' l₁ l₂ l₁' l₂' : List α}

theorem congr (h : Without P n l l') (hPQ : ∀ k, n ≤ k → k < n + l.length → (P k ↔ Q k)) :
    Without Q n l l' := by
  induction h with
  | nil => exact .nil
  | drop hP _ ih =>
      refine .drop ((hPQ _ (Nat.le_refl _) (by simp)).mp hP) (ih ?_)
      intro k hk hlt
      exact hPQ k (by omega) (by simp only [List.length_cons]; omega)
  | keep hP _ ih =>
      refine .keep (fun hQ => hP ((hPQ _ (Nat.le_refl _) (by simp)).mpr hQ)) (ih ?_)
      intro k hk hlt
      exact hPQ k (by omega) (by simp only [List.length_cons]; omega)

theorem refl (l : List α) (h : ∀ k, n ≤ k → k < n + l.length → ¬P k) : Without P n l l := by
  induction l generalizing n with
  | nil => exact .nil
  | cons x l ih =>
      refine .keep (h n (Nat.le_refl n) (by simp)) (ih ?_)
      intro k hk hlt
      exact h k (by omega) (by simp only [List.length_cons]; omega)

theorem append (h₁ : Without P n l₁ l₁') (h₂ : Without P (n + l₁.length) l₂ l₂') :
    Without P n (l₁ ++ l₂) (l₁' ++ l₂') := by
  induction h₁ with
  | nil => exact h₂
  | drop hP _ ih =>
      rw [List.length_cons, ← Nat.add_assoc, Nat.add_right_comm] at h₂
      exact .drop hP (ih h₂)
  | keep hP _ ih =>
      rw [List.length_cons, ← Nat.add_assoc, Nat.add_right_comm] at h₂
      exact .keep hP (ih h₂)

theorem all (l : List α) (h : ∀ k, n ≤ k → k < n + l.length → P k) : Without P n l [] := by
  induction l generalizing n with
  | nil => exact .nil
  | cons x l ih =>
      refine .drop (h n (Nat.le_refl n) (by simp)) (ih ?_)
      intro k hk hlt
      exact h k (by omega) (by simp only [List.length_cons]; omega)

theorem skip (h : ∀ k, n ≤ k → k < n + l₁.length → P k)
    (h₂ : Without P (n + l₁.length) l₂ l') : Without P n (l₁ ++ l₂) l' :=
  (all l₁ h).append h₂

/-- The same elements without their first predecessors. -/
theorem shift (h : Without P n l l') (m : ℕ) :
    Without (fun k => ∃ r, k = m + r ∧ P r) (m + n) l l' := by
  induction h with
  | nil => exact .nil
  | drop hP _ ih => exact .drop ⟨_, rfl, hP⟩ ih
  | keep hP _ ih =>
      refine .keep ?_ ih
      intro hr
      obtain ⟨r, heq, hr⟩ := hr
      rw [Nat.add_left_cancel heq] at hP
      exact hP hr

theorem length_le (h : Without P n l l₁) (h' : Without Q n l l₂) (hQP : ∀ k, Q k → P k) :
    l₁.length ≤ l₂.length := by
  induction h generalizing l₂ with
  | nil =>
      cases h'
      exact Nat.le_refl _
  | drop hP _ ih =>
      cases h' with
      | drop _ h' => exact ih h'
      | keep _ h' => exact Nat.le_succ_of_le (ih h')
  | keep hP _ ih =>
      cases h' with
      | drop hQ _ => exact absurd (hQP _ hQ) hP
      | keep _ h' => exact Nat.succ_le_succ (ih h')

/-- A removal that leaves the same list as a smaller one removes no more. -/
theorem subset (h : Without P n l l') (h' : Without Q n l l') (hQP : ∀ k, Q k → P k) {k : ℕ}
    (hn : n ≤ k) (hk : k < n + l.length) (hP : P k) : Q k := by
  induction h with
  | nil =>
      rw [List.length_nil] at hk
      omega
  | @drop n x l l' hn' htail ih =>
      cases h' with
      | drop hQ h' =>
          by_cases heq : n = k
          · rwa [← heq]
          · exact ih h' (by omega) (by rw [List.length_cons] at hk; omega)
      | keep hQ h' =>
          have := length_le htail h' hQP
          rw [List.length_cons] at this
          omega
  | @keep n x l l' hn' htail ih =>
      by_cases heq : n = k
      · rw [heq] at hn'
        exact absurd hP hn'
      · cases h' with
        | drop hQ _ => exact absurd (hQP n hQ) hn'
        | keep _ h' => exact ih h' (by omega) (by rw [List.length_cons] at hk; omega)

theorem unique (h : Without P n l l₁) (h' : Without P n l l₂) : l₁ = l₂ := by
  induction h generalizing l₂ with
  | nil =>
      cases h'
      rfl
  | drop hP _ ih =>
      cases h' with
      | drop _ h' => exact ih h'
      | keep hnot _ => exact absurd hP hnot
  | keep hnot _ ih =>
      cases h' with
      | drop hP _ => exact absurd hP hnot
      | keep _ h' => rw [ih h']

theorem sublist (h : Without P n l l') : l'.Sublist l := by
  induction h with
  | nil => exact .slnil
  | drop _ _ ih => exact ih.cons _
  | keep _ _ ih => exact ih.cons_cons _

end Without

end Mair.Search
