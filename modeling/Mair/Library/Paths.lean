import Mathlib.Data.List.Induction
import Mathlib.Data.Set.Defs
import Mathlib.Logic.Relation

/-! # Paths through a graph

A path records the nodes it leaves, so two paths that meet concatenate without overlap. -/

namespace Mair

variable {α : Type*}

/-- `Path succs a p c`: control goes from `a` to the entry of `c` by executing the blocks
`p` in order. -/
inductive Path (succs : α → List α) (a : α) : List α → α → Prop where
  | nil : Path succs a [] a
  | snoc {p : List α} {b c : α} : Path succs a p b → c ∈ succs b → Path succs a (p ++ [b]) c

namespace Path

variable {succs : α → List α} {a b c : α} {p q : List α}

theorem append (hp : Path succs a p b) (hq : Path succs b q c) : Path succs a (p ++ q) c := by
  induction hq with
  | nil => rwa [List.append_nil]
  | snoc _ hc ih =>
      rw [← List.append_assoc]
      exact ih.snoc hc

theorem single (h : c ∈ succs a) : Path succs a [a] c :=
  Path.nil.snoc h

/-- A path can be cut at any position. -/
theorem split (h : Path succs a (p ++ q) c) : ∃ b, Path succs a p b ∧ Path succs b q c := by
  induction q using List.reverseRecOn generalizing c with
  | nil => exact ⟨c, by simpa using h, .nil⟩
  | append_singleton q d ih =>
      rw [← List.append_assoc] at h
      generalize hr : p ++ q ++ [d] = r at h
      cases h with
      | nil => simp at hr
      | snoc h hc =>
          obtain ⟨hr, hd⟩ := List.append_inj' hr rfl
          simp only [List.cons.injEq, and_true] at hd
          subst hr hd
          obtain ⟨b, hp, hq⟩ := ih h
          exact ⟨b, hp, hq.snoc hc⟩

theorem nil_iff : Path succs a [] c ↔ a = c := by
  constructor
  · intro h
    generalize hr : ([] : List α) = r at h
    cases h with
    | nil => rfl
    | snoc _ _ => simp at hr
  · rintro rfl
    exact .nil

/-- A nonempty path leaves its source first. -/
theorem cons_iff : Path succs a (b :: p) c ↔ b = a ∧ ∃ d ∈ succs a, Path succs d p c := by
  constructor
  · intro h
    obtain ⟨d, hb, hp⟩ := split (p := [b]) h
    generalize hr : [b] = r at hb
    cases hb with
    | nil => simp at hr
    | snoc h' hd =>
        obtain ⟨hr', hb⟩ := List.append_inj' (show [] ++ [b] = _ from hr) rfl
        simp only [List.cons.injEq, and_true] at hb
        subst hb
        rw [← hr', nil_iff] at h'
        subst h'
        exact ⟨rfl, d, hd, hp⟩
  · rintro ⟨rfl, d, hd, hp⟩
    exact (single hd).append hp

/-- The source of a path is its first block, or its target when it is empty. -/
theorem source_mem (h : Path succs a p c) : a ∈ c :: p := by
  cases p with
  | nil =>
      rw [nil_iff.mp h]
      exact List.mem_cons_self
  | cons b p =>
      rw [← (cons_iff.mp h).1]
      exact List.mem_cons_of_mem _ List.mem_cons_self

theorem headD_eq (h : Path succs a p c) : p.headD c = a := by
  cases p with
  | nil => exact (nil_iff.mp h).symm
  | cons b p => exact (cons_iff.mp h).1

/-- A path that leaves `b` can be cut in front of it. -/
theorem split_at (h : Path succs a (p ++ b :: q) c) :
    Path succs a p b ∧ Path succs b (b :: q) c := by
  obtain ⟨d, hp, hq⟩ := h.split
  obtain ⟨rfl, -⟩ := cons_iff.mp hq
  exact ⟨hp, hq⟩

/-- A path to `c` can be shortened so that it does not leave `c` on the way. -/
theorem exists_first (h : Path succs a (a :: p) c) :
    ∃ q, Path succs a (a :: q) c ∧ c ∉ q := by
  by_cases hc : c ∈ p
  · obtain ⟨q, r, rfl, hq⟩ := List.eq_append_cons_of_mem hc
    rw [← List.cons_append] at h
    exact ⟨q, h.split_at.1, hq⟩
  · exact ⟨p, h, hc⟩

theorem snoc_iff : Path succs a (p ++ [b]) c ↔ Path succs a p b ∧ c ∈ succs b := by
  constructor
  · intro h
    obtain ⟨hp, hb⟩ := split_at (q := []) h
    obtain ⟨-, d, hd, hnil⟩ := cons_iff.mp hb
    rw [nil_iff] at hnil
    subst hnil
    exact ⟨hp, hd⟩
  · intro h
    exact h.1.snoc h.2

/-- A path into a set can be cut where it meets the set first. -/
theorem exists_first_in {s : Set α} (h : Path succs a p c) (hc : c ∈ s) :
    ∃ q b, Path succs a q b ∧ b ∈ s ∧ ∀ x ∈ q, x ∉ s := by
  induction p generalizing a with
  | nil =>
      rw [nil_iff] at h
      subst h
      exact ⟨[], a, .nil, hc, by simp⟩
  | cons y p ih =>
      obtain ⟨rfl, d, hd, hp⟩ := cons_iff.mp h
      by_cases hy : y ∈ s
      · exact ⟨[], y, .nil, hy, by simp⟩
      · obtain ⟨q, b, hq, hb, hout⟩ := ih hp
        refine ⟨y :: q, b, cons_iff.mpr ⟨rfl, d, hd, hq⟩, hb, ?_⟩
        intro x hx
        rcases List.mem_cons.mp hx with rfl | hx
        · exact hy
        · exact hout x hx

/-- A path into a set from outside can be cut where it enters the set last. -/
theorem exists_last_in {s : Set α} (h : Path succs a p c) (ha : a ∉ s) (hc : c ∈ s) :
    ∃ y b q, b ∈ succs y ∧ y ∉ s ∧ b ∈ s ∧ Path succs b q c ∧ ∀ x ∈ q, x ∈ s := by
  induction h with
  | nil => exact absurd hc ha
  | @snoc p y c _ hyc ih =>
      by_cases hy : y ∈ s
      · obtain ⟨z, b, q, hzb, hz, hb, hq, hin⟩ := ih hy
        refine ⟨z, b, q ++ [y], hzb, hz, hb, hq.snoc hyc, ?_⟩
        intro x hx
        rcases List.mem_append.mp hx with hx | hx
        · exact hin x hx
        · rw [List.mem_singleton.mp hx]
          exact hy
      · exact ⟨y, c, [], hyc, hy, hc, .nil, by simp⟩

/-- A path can be cut where it leaves its source last. -/
theorem exists_last_source (h : Path succs a p c) :
    ∃ q, Path succs a q c ∧ a ∉ (q ++ [c]).tail ∧ q ⊆ p := by
  by_cases hac : a = c
  · subst hac
    exact ⟨[], .nil, by simp, by simp⟩
  · induction h with
    | nil => exact absurd rfl hac
    | @snoc p b c h hc ih =>
        by_cases hab : a = b
        · subst hab
          refine ⟨[a], single hc, by simpa using hac, ?_⟩
          exact List.subset_append_right p [a]
        · obtain ⟨q, hq, hnot, hsub⟩ := ih hab
          refine ⟨q ++ [b], hq.snoc hc, ?_, ?_⟩
          · cases q with
            | nil => exact absurd (nil_iff.mp hq) hab
            | cons x q =>
                intro hmem
                apply hnot
                simp only [List.cons_append, List.tail_cons, List.mem_append,
                  List.mem_singleton, hac, or_false] at hmem ⊢
                exact hmem
          · intro x hx
            rcases List.mem_append.mp hx with hx | hx
            · exact List.mem_append_left _ (hsub hx)
            · exact List.mem_append_right _ hx

theorem reflTransGen (h : Path succs a p c) :
    Relation.ReflTransGen (fun x y => y ∈ succs x) a c := by
  induction h with
  | nil => exact .refl
  | snoc _ hc ih => exact ih.tail hc

end Path

theorem exists_path_iff {succs : α → List α} {a c : α} :
    (∃ p, Path succs a p c) ↔ Relation.ReflTransGen (fun x y => y ∈ succs x) a c := by
  constructor
  · rintro ⟨p, hp⟩
    exact hp.reflTransGen
  · intro h
    induction h with
    | refl => exact ⟨[], .nil⟩
    | tail _ hc ih =>
        obtain ⟨p, hp⟩ := ih
        exact ⟨_, hp.snoc hc⟩

end Mair
