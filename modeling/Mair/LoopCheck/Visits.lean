import Mair.Library.Rounds
import Mair.LoopCheck.Combine

/-! # Visits of a loop

An execution of a loop is a stretch of a run of the function that lies in the loop and that
control enters and leaves. -/

namespace Mair.LoopCheck

open Ir Rounds

variable {β : Type*} {f : Function β}

/-- `after` and `stop` are executed behind the loop, before control enters it again. -/
structure Visit (f : Function β) (l : Loop f) where
  before : List β
  body : List β
  after : List β
  stop : β
  path : f.PathFrom f.entry (before ++ (body ++ after)) stop
  body_ne : body ≠ []
  inside : ∀ b ∈ body, b ∈ l.blocks
  entered : ∀ b, before.getLast? = some b → b ∉ l.blocks
  outside : ∀ b ∈ after ++ [stop], b ∉ l.blocks

namespace Visit

variable {l : Loop f} (v : Visit f l)

/-- The first block behind the loop. -/
def exitTo : β := v.after.headD v.stop

def last : β := v.body.getLast v.body_ne

section Counts

variable [DecidableEq β]

/-- Each header behind the first one is entered over the back edge. -/
def backedgesTaken : ℕ := v.body.tail.count l.header

/-- The iterations that execute a block, counted from zero. -/
def iterations (b : β) : List ℕ := (rounds l.header b v.body).map fun r => r - 1

end Counts

/-! ## Entering and leaving -/

theorem body_eq : ∃ rest, v.body = l.header :: rest := by
  have hpath := v.path
  cases hbody : v.body with
  | nil => exact absurd hbody v.body_ne
  | cons x rest =>
      have hx : x ∈ l.blocks := v.inside x (by rw [hbody]; exact List.mem_cons_self)
      rw [hbody, List.cons_append] at hpath
      obtain ⟨hbefore, -⟩ := hpath.split_at
      cases hlist : v.before using List.reverseRecOn with
      | nil =>
          rw [hlist, Path.nil_iff] at hbefore
          subst hbefore
          exact absurd hx l.entry_notMem
      | append_singleton before y =>
          rw [hlist, Path.snoc_iff] at hbefore
          have hy : y ∉ l.blocks := v.entered y (by rw [hlist]; exact List.getLast?_concat)
          rw [l.header_of_enter y x hbefore.2 hy hx]
          exact ⟨rest, rfl⟩

theorem body_eq_concat : v.body = v.body.dropLast ++ [v.last] :=
  (List.dropLast_append_getLast v.body_ne).symm

theorem last_mem : v.last ∈ l.blocks :=
  v.inside _ (List.getLast_mem v.body_ne)

theorem exitTo_notMem : v.exitTo ∉ l.blocks := by
  have hout := v.outside
  unfold exitTo
  cases hafter : v.after with
  | nil => exact hout v.stop (by simp)
  | cons x after => exact hout x (by simp [hafter])

/-- The part of the body behind a block, as a path that leaves the loop. -/
theorem path_of_body_eq {p q : List β} {x : β} (h : v.body = p ++ x :: q) :
    f.PathFrom x (x :: q) v.exitTo := by
  have hpath := v.path
  rw [h, List.append_assoc, List.cons_append, ← List.append_assoc] at hpath
  have hx := hpath.split_at.2
  rw [← List.cons_append] at hx
  obtain ⟨d, hd, hrest⟩ := hx.split
  have hexit : v.exitTo = d := hrest.headD_eq
  rw [hexit]
  exact hd

/-- The last block leads out of the loop. -/
theorem exitTo_mem_succs : v.exitTo ∈ f.succs v.last := by
  have hlast := v.path_of_body_eq v.body_eq_concat
  obtain ⟨-, d, hd, hnil⟩ := Path.cons_iff.mp hlast
  rw [Path.nil_iff] at hnil
  rwa [← hnil]

/-! ## Iterations -/

section Iterations

variable [DecidableEq β]

theorem count_body : v.body.count l.header = v.backedgesTaken + 1 := by
  obtain ⟨rest, hrest⟩ := v.body_eq
  rw [backedgesTaken, hrest, List.count_cons_self, List.tail_cons]

theorem mem_iterations_iff {b : β} {i : ℕ} :
    i ∈ v.iterations b ↔ i + 1 ∈ rounds l.header b v.body := by
  rw [iterations, List.mem_map]
  constructor
  · intro hi
    obtain ⟨r, hr, rfl⟩ := hi
    have hpos : 0 < r := by
      refine pos_of_mem_rounds ?_ hr
      intro x hx
      obtain ⟨rest, hrest⟩ := v.body_eq
      rw [hrest] at hx
      exact (Option.some.inj hx).symm
    rwa [Nat.sub_add_cancel hpos]
  · intro hi
    exact ⟨i + 1, hi, rfl⟩

theorem iterations_eq_nil_iff {b : β} : v.iterations b = [] ↔ b ∉ v.body := by
  rw [iterations, List.map_eq_nil_iff, rounds_eq_nil_iff]

theorem le_backedgesTaken {b : β} {i : ℕ} (h : i ∈ v.iterations b) : i ≤ v.backedgesTaken := by
  have hle := le_count_of_mem_rounds (v.mem_iterations_iff.mp h)
  rw [count_body] at hle
  omega

/-- Iteration `i` is a path from the header that leads to the header again or out of the
loop. -/
theorem exists_iteration {i : ℕ} (hi : i ≤ v.backedgesTaken) :
    ∃ seg next, l.header ∉ seg ∧ (∀ b ∈ seg, b ∈ l.blocks) ∧
      f.PathFrom l.header (l.header :: seg) next ∧
      (i < v.backedgesTaken ∧ next = l.header ∨ i = v.backedgesTaken ∧ next = v.exitTo) ∧
      ∀ b, i ∈ v.iterations b ↔ b ∈ l.header :: seg := by
  have hlt : i < v.body.count l.header := by
    rw [count_body]
    omega
  obtain ⟨p, q, hbody, hcount⟩ := exists_marker hlt
  obtain ⟨seg, rest, rfl, hseg, hrest⟩ := exists_segment (h := l.header) q
  have hpath := v.path_of_body_eq hbody
  have hin : ∀ b ∈ seg, b ∈ l.blocks := by
    intro b hb
    refine v.inside b ?_
    rw [hbody]
    simp [hb]
  have hround : ∀ b, i ∈ v.iterations b ↔ b ∈ l.header :: seg := by
    intro b
    rw [v.mem_iterations_iff, hbody, ← hcount, ← List.cons_append]
    exact mem_round_iff hseg hrest
  have htotal := v.count_body
  have hone : (l.header :: seg).count l.header = 1 := by
    rw [List.count_cons_self, List.count_eq_zero_of_not_mem hseg]
  rw [hbody, ← List.cons_append, List.count_append, List.count_append, hcount, hone] at htotal
  cases rest with
  | nil =>
      rw [List.append_nil] at hpath
      rw [List.count_nil] at htotal
      exact ⟨seg, v.exitTo, hseg, hin, hpath, Or.inr ⟨by omega, rfl⟩, hround⟩
  | cons x rest =>
      obtain rfl := hrest x rfl
      rw [List.count_cons_self] at htotal
      rw [← List.cons_append] at hpath
      exact ⟨seg, l.header, hseg, hin, hpath.split_at.1, Or.inl ⟨by omega, rfl⟩, hround⟩

end Iterations

end Visit

end Mair.LoopCheck
