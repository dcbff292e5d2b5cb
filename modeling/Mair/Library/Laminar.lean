import Mathlib.Data.Nat.Find

/-! # Nested ranges and their scan from the left

A family of ranges is given by where each begins and ends. Two of them are nested or apart. A scan
that goes on behind each range it takes meets the ranges that lie in no other. -/

namespace Mair.Laminar

variable {span span' : ℕ → ℕ → Prop} {s p i : ℕ} {ps : List (ℕ × ℕ)}

/-- A range that no earlier one reaches into. -/
def Outermost (span : ℕ → ℕ → Prop) (p i : ℕ) : Prop :=
  span p i ∧ ∀ q j, q < p → span q j → j ≤ p

structure Nested (span : ℕ → ℕ → Prop) : Prop where
  unique : ∀ {p i j}, span p i → span p j → i = j
  lt_end : ∀ {p i}, span p i → p < i
  nested : ∀ {q j p i}, span q j → span p i → q < p → p < j → i ≤ j

/-- The ranges that a scan from `s` takes one after the other. -/
inductive Scan (span : ℕ → ℕ → Prop) : ℕ → List (ℕ × ℕ) → Prop
  | nil {s : ℕ} : (∀ p i, s ≤ p → ¬span p i) → Scan span s []
  | cons {s p i : ℕ} {ps : List (ℕ × ℕ)} : s ≤ p → span p i →
      (∀ q j, s ≤ q → q < p → ¬span q j) → Scan span i ps → Scan span s ((p, i) :: ps)

theorem Scan.le_of_mem (hspan : Nested span) (h : Scan span s ps) (hmem : (p, i) ∈ ps) :
    s ≤ p ∧ span p i := by
  induction h with
  | nil => cases hmem
  | cons hle hp hfirst hrest ih =>
      rcases List.mem_cons.mp hmem with heq | hmem
      · cases heq
        exact ⟨hle, hp⟩
      · have hi := hspan.lt_end hp
        exact ⟨Nat.le_trans hle (Nat.le_trans (Nat.le_of_lt hi) (ih hmem).1), (ih hmem).2⟩

theorem Scan.pairwise (hspan : Nested span) (h : Scan span s ps) :
    ps.Pairwise fun a b => a.2 ≤ b.1 := by
  induction h with
  | nil => exact .nil
  | cons hle hp hfirst hrest ih =>
      refine List.pairwise_cons.mpr ⟨?_, ih⟩
      intro b hb
      exact (hrest.le_of_mem hspan hb).1

/-- Where every range before `s` has ended, the scan takes the outermost ranges from there on. -/
theorem Scan.mem_iff (hspan : Nested span) (h : Scan span s ps)
    (hbefore : ∀ q j, q < s → span q j → j ≤ s) :
    (p, i) ∈ ps ↔ s ≤ p ∧ Outermost span p i := by
  induction h with
  | nil hnone =>
      refine iff_of_false List.not_mem_nil ?_
      intro hp
      exact hnone p i hp.1 hp.2.1
  | @cons s q j ps hle hq hfirst hrest ih =>
      have hj := hspan.lt_end hq
      have hended : ∀ r k, r < j → span r k → k ≤ j := by
        intro r k hr hk
        by_cases hrs : r < s
        · exact Nat.le_trans (hbefore r k hrs hk) (Nat.le_trans hle (Nat.le_of_lt hj))
        · by_cases hrq : r < q
          · exact absurd hk (hfirst r k (Nat.le_of_not_lt hrs) hrq)
          · rcases Nat.eq_or_lt_of_le (Nat.le_of_not_lt hrq) with rfl | hrq
            · exact Nat.le_of_eq (hspan.unique hk hq)
            · exact hspan.nested hq hk hrq hr
      rw [List.mem_cons, ih hended]
      constructor
      · intro hmem
        rcases hmem with heq | hmem
        · cases heq
          refine ⟨hle, hq, ?_⟩
          intro r k hr hk
          by_cases hrs : r < s
          · exact Nat.le_trans (hbefore r k hrs hk) hle
          · exact absurd hk (hfirst r k (Nat.le_of_not_lt hrs) hr)
        · exact ⟨Nat.le_trans hle (Nat.le_trans (Nat.le_of_lt hj) hmem.1), hmem.2⟩
      · intro hp
        obtain ⟨hsp, hspan_p, hout⟩ := hp
        rcases Nat.lt_trichotomy p q with hpq | rfl | hpq
        · exact absurd hspan_p (hfirst p i hsp hpq)
        · rw [hspan.unique hspan_p hq]
          exact Or.inl rfl
        · exact Or.inr ⟨hout q j hpq hq, hspan_p, hout⟩

/-- Each range lies in an outermost one. -/
theorem exists_outermost (hspan : Nested span) (h : span p i) :
    ∃ q j, Outermost span q j ∧ q ≤ p ∧ p < j := by
  classical
  have hexists : ∃ q, ∃ j, span q j ∧ q ≤ p ∧ p < j := ⟨p, i, h, Nat.le_refl p, hspan.lt_end h⟩
  obtain ⟨j, hj, hle, hlt⟩ := Nat.find_spec hexists
  refine ⟨Nat.find hexists, j, ⟨hj, ?_⟩, hle, hlt⟩
  intro r k hr hk
  by_contra hover
  have hinside := hspan.nested hk hj hr (Nat.lt_of_not_le hover)
  exact Nat.find_min hexists hr
    ⟨k, hk, Nat.le_trans (Nat.le_of_lt hr) hle, Nat.lt_of_lt_of_le hlt hinside⟩

/-- Ranges that end later leave fewer outermost ones. -/
theorem Outermost.of_later (hlater : ∀ q j, span q j → ∃ k, j ≤ k ∧ span' q k)
    (hp : span p i) {k : ℕ} (h : Outermost span' p k) : Outermost span p i := by
  refine ⟨hp, ?_⟩
  intro q j hq hj
  obtain ⟨m, hm, hspan'⟩ := hlater q j hj
  exact Nat.le_trans hm (h.2 q m hq hspan')

end Mair.Laminar
