import Mathlib.Data.List.Perm.Basic
import Mathlib.Data.List.Nodup

/-! # Removal by swapping

A removed element gives its place to the last one. The order changes, so that a search by key is
only certain when the keys are distinct. -/

namespace Mair.SwapRemoval

open List

variable {α κ : Type*}

/-- Removes what the test selects, from the first place on. -/
def sweep (p : α → Bool) : List α → List α
  | [] => []
  | a :: l =>
      if p a then
        if h : l = [] then [] else sweep p (l.getLast h :: l.dropLast)
      else a :: sweep p l
  termination_by l => l.length
  decreasing_by
  · have := List.length_pos_iff.mpr h
    simp only [List.length_cons, List.length_dropLast]
    omega
  · simp

variable {p : α → Bool} {l : List α} {a b : α}

theorem getLast_cons_dropLast_perm (h : l ≠ []) : l.getLast h :: l.dropLast ~ l := by
  have hperm : l.dropLast ++ [l.getLast h] ~ l.getLast h :: l.dropLast := perm_append_singleton ..
  rw [dropLast_append_getLast h] at hperm
  exact hperm.symm

/-- What remains is what the test does not select. -/
theorem sweep_perm (p : α → Bool) (l : List α) : sweep p l ~ l.filter fun a => !p a := by
  fun_induction sweep p l with
  | case1 => exact .nil
  | case2 a hp => simp [hp]
  | case3 a l hp h ih =>
      rw [filter_cons_of_neg (by simp [hp])]
      exact ih.trans ((getLast_cons_dropLast_perm h).filter _)
  | case4 a l hp ih =>
      rw [filter_cons_of_pos (by simp [hp])]
      exact ih.cons a

theorem mem_sweep_iff : a ∈ sweep p l ↔ a ∈ l ∧ p a = false := by
  rw [(sweep_perm p l).mem_iff, mem_filter]
  simp

section Keys

variable {key : α → κ} {k : κ}

theorem nodup_sweep (h : (l.map key).Nodup) : ((sweep p l).map key).Nodup := by
  rw [((sweep_perm p l).map key).nodup_iff]
  exact h.sublist (filter_sublist.map key)

variable [DecidableEq κ]

/-- With distinct keys a search finds the one element with its key. -/
theorem find_eq_some_iff (h : (l.map key).Nodup) :
    (l.find? fun a => key a = k) = some b ↔ b ∈ l ∧ key b = k := by
  induction l with
  | nil => simp
  | cons a l ih =>
      rw [map_cons, nodup_cons] at h
      by_cases hk : key a = k
      · rw [find?_cons_of_pos (by simpa using hk), Option.some_inj]
        constructor
        · rintro rfl
          exact ⟨mem_cons_self, hk⟩
        · intro hb
          rcases mem_cons.mp hb.1 with rfl | hmem
          · rfl
          · exact absurd (mem_map.mpr ⟨b, hmem, hb.2.trans hk.symm⟩) h.1
      · rw [find?_cons_of_neg (by simpa using hk), ih h.2]
        constructor
        · intro hb
          exact ⟨mem_cons_of_mem a hb.1, hb.2⟩
        · intro hb
          rcases mem_cons.mp hb.1 with rfl | hmem
          · exact absurd hb.2 hk
          · exact ⟨hmem, hb.2⟩

/-- A new element at the end is found when no other has its key. -/
theorem find_concat (h : ∀ a ∈ l, key a ≠ key b) :
    ((l ++ [b]).find? fun a => key a = key b) = some b := by
  rw [find?_append, find?_eq_none.mpr (by simpa using h)]
  simp

end Keys

end Mair.SwapRemoval
