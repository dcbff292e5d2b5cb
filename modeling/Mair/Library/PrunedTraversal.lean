import Mathlib.Algebra.Order.BigOperators.Group.List
import Mathlib.Algebra.Order.Group.Nat
import Mair.Library.DepthFirst

/-! # Depth-first traversal that skips children

Each traversal has a set of its own for the nodes it has seen. The kept nodes are shared by
several traversals, and a node that is pruned or already kept opens no children. -/

namespace Mair.DepthFirst

variable {α : Type*} [DecidableEq α]

/-! ## The traversal -/

structure Marks (α : Type*) where
  seen : List α
  kept : List α

def Marks.enter (m : Marks α) (succs : α → List α) (prune : α → Bool) (c : α) :
    Marks α × List α :=
  if prune c || c ∈ m.kept then (⟨c :: m.seen, m.kept⟩, [])
  else (⟨c :: m.seen, c :: m.kept⟩, succs c)

def prunedRun (succs : α → List α) (prune : α → Bool) : ℕ → List (List α) → Marks α → Marks α
  | 0, _, m => m
  | _ + 1, [], m => m
  | fuel + 1, [] :: stack, m => prunedRun succs prune fuel stack m
  | fuel + 1, (c :: cs) :: stack, m =>
      if c ∈ m.seen then prunedRun succs prune fuel (cs :: stack) m
      else
        prunedRun succs prune fuel ((m.enter succs prune c).2 :: cs :: stack)
          (m.enter succs prune c).1

/-- Traverse from `start` and return the kept nodes. `nodes` bounds the graph. -/
def prunedFrom (succs : α → List α) (prune : α → Bool) (nodes kept : List α) (start : α) :
    List α :=
  let first := Marks.enter ⟨[], kept⟩ succs prune start
  (prunedRun succs prune (cost succs nodes) [first.2] first.1).kept

def prunedAll (succs : α → List α) (prune : α → Bool) (nodes starts : List α) : List α :=
  starts.foldl (prunedFrom succs prune nodes) []

/-! ## One traversal is a traversal of the pruned graph -/

/-- The graph without the edges that leave a pruned or an already kept node. -/
def prunedSuccs (succs : α → List α) (prune : α → Bool) (kept : List α) (b : α) : List α :=
  if prune b || b ∈ kept then [] else succs b

section Run

variable {succs : α → List α} {prune : α → Bool} {nodes kept : List α} {m : Marks α}
  {start b c : α}

/-- The nodes kept so far are the given ones and the unpruned ones among those seen. -/
def Marks.Keeps (m : Marks α) (prune : α → Bool) (kept : List α) : Prop :=
  ∀ b, b ∈ m.kept ↔ b ∈ kept ∨ (b ∈ m.seen ∧ prune b = false)

theorem Marks.enter_seen : (m.enter succs prune c).1.seen = c :: m.seen := by
  unfold Marks.enter
  split <;> rfl

theorem Marks.Keeps.children (h : m.Keeps prune kept) (hc : c ∉ m.seen) :
    (m.enter succs prune c).2 = prunedSuccs succs prune kept c := by
  have hkept : c ∈ m.kept ↔ c ∈ kept := by simp [h c, hc]
  unfold Marks.enter prunedSuccs
  simp only [hkept]
  split <;> rfl

theorem Marks.Keeps.enter (h : m.Keeps prune kept) :
    (m.enter succs prune c).1.Keeps prune kept := by
  intro b
  unfold Marks.enter
  cases hp : prune c with
  | true =>
      simp only [Bool.true_or, if_true, List.mem_cons, h b]
      grind
  | false =>
      by_cases hk : c ∈ m.kept
      · have hc := (h c).mp hk
        simp only [hk, decide_true, Bool.or_true, if_true, List.mem_cons, h b]
        grind
      · simp only [hk, decide_false, Bool.or_false, Bool.false_eq_true, if_false, List.mem_cons,
          h b]
        grind

theorem prunedRun_spec (fuel : ℕ) (stack : List (List α)) (h : m.Keeps prune kept) :
    (prunedRun succs prune fuel stack m).seen =
        run (prunedSuccs succs prune kept) fuel stack m.seen ∧
      (prunedRun succs prune fuel stack m).Keeps prune kept := by
  induction fuel generalizing stack m with
  | zero => exact ⟨rfl, h⟩
  | succ fuel ih =>
      rcases stack with _ | ⟨_ | ⟨c, cs⟩, stack⟩
      · exact ⟨rfl, h⟩
      · exact ih stack h
      · rw [prunedRun, run]
        by_cases hc : c ∈ m.seen
        · rw [if_pos hc, if_pos hc]
          exact ih _ h
        · rw [if_neg hc, if_neg hc, h.children hc, ← Marks.enter_seen]
          exact ih _ h.enter

theorem cost_pruned_le (succs : α → List α) (prune : α → Bool) (nodes kept : List α) :
    cost (prunedSuccs succs prune kept) nodes ≤ cost succs nodes := by
  apply List.sum_le_sum
  intro b _
  unfold prunedSuccs
  split <;> simp

theorem prunedSuccs_subset (hclosed : ∀ u ∈ nodes, ∀ v ∈ succs u, v ∈ nodes) :
    ∀ u ∈ nodes, ∀ v ∈ prunedSuccs succs prune kept u, v ∈ nodes := by
  intro u hu v hv
  unfold prunedSuccs at hv
  split at hv
  · cases hv
  · exact hclosed u hu v hv

theorem mem_prunedFrom_iff (hclosed : ∀ u ∈ nodes, ∀ v ∈ succs u, v ∈ nodes)
    (hstart : start ∈ nodes) : b ∈ prunedFrom succs prune nodes kept start ↔
      b ∈ kept ∨ (Reaches (prunedSuccs succs prune kept) start b ∧ prune b = false) := by
  have hempty : Marks.Keeps ⟨[], kept⟩ prune kept := fun _ => by simp
  have hfirst : (Marks.enter ⟨[], kept⟩ succs prune start).1.Keeps prune kept := hempty.enter
  obtain ⟨hseen, hkeeps⟩ := @prunedRun_spec _ _ succs _ _ _ (cost succs nodes)
    [(Marks.enter ⟨[], kept⟩ succs prune start).2] hfirst
  have hspec := run_spec (@prunedSuccs_subset _ _ _ prune _ kept hclosed) hstart
    List.not_mem_nil (cost_pruned_le succs prune nodes kept)
  rw [hempty.children (by simp), Marks.enter_seen] at hseen
  unfold prunedFrom
  dsimp only
  rw [hempty.children (by simp)] at hkeeps ⊢
  rw [hkeeps b, hseen]
  have hreach : b ∈ run (prunedSuccs succs prune kept) (cost succs nodes)
      [prunedSuccs succs prune kept start] [start] ↔
      Reaches (prunedSuccs succs prune kept) start b := by
    constructor
    · intro h
      exact (hspec.reach b h).resolve_left (by simp)
    · intro h
      exact h.mem_of_closed (fun v hv c hc => hspec.children v hv (by simp) c hc) hspec.start_mem
  rw [hreach]

/-! ## Several traversals -/

/-- `b` is reached from `a` through unpruned nodes only, both included. -/
def ReachesWithin (succs : α → List α) (prune : α → Bool) (a b : α) : Prop :=
  Relation.ReflTransGen (fun u v => v ∈ succs u ∧ prune u = false) a b ∧ prune b = false

/-- The kept nodes are unpruned, and so is no node next to them that is not kept. -/
def ClosedWithin (succs : α → List α) (prune : α → Bool) (kept : List α) : Prop :=
  ∀ u ∈ kept, prune u = false ∧ ∀ v ∈ succs u, prune v = false → v ∈ kept

theorem reachesWithin_of_pruned (h : Reaches (prunedSuccs succs prune kept) start b)
    (hb : prune b = false) : ReachesWithin succs prune start b := by
  refine ⟨Relation.ReflTransGen.mono ?_ _ _ h, hb⟩
  intro u v huv
  unfold prunedSuccs at huv
  split at huv
  · cases huv
  · next hu =>
      rw [Bool.or_eq_true, not_or, Bool.not_eq_true] at hu
      exact ⟨huv, hu.1⟩

/-- Kept nodes stop the traversal, but only in front of other kept nodes. -/
theorem kept_or_reaches (hkept : ClosedWithin succs prune kept)
    (h : Relation.ReflTransGen (fun u v => v ∈ succs u ∧ prune u = false) start b)
    (hb : prune b = false) : b ∈ kept ∨ Reaches (prunedSuccs succs prune kept) start b := by
  induction h with
  | refl => exact Or.inr .refl
  | @tail u v _ huv ih =>
      obtain ⟨hv, hu⟩ := huv
      rcases ih hu with h | h
      · exact Or.inl ((hkept _ h).2 _ hv hb)
      · by_cases hk : u ∈ kept
        · exact Or.inl ((hkept _ hk).2 _ hv hb)
        · refine Or.inr (h.tail ?_)
          simp [prunedSuccs, hu, hk, hv]

theorem mem_prunedFrom_iff_of_closed (hclosed : ∀ u ∈ nodes, ∀ v ∈ succs u, v ∈ nodes)
    (hstart : start ∈ nodes) (hkept : ClosedWithin succs prune kept) :
    b ∈ prunedFrom succs prune nodes kept start ↔
      b ∈ kept ∨ ReachesWithin succs prune start b := by
  rw [mem_prunedFrom_iff hclosed hstart]
  constructor
  · rintro (h | ⟨h, hb⟩)
    · exact Or.inl h
    · exact Or.inr (reachesWithin_of_pruned h hb)
  · rintro (h | ⟨h, hb⟩)
    · exact Or.inl h
    · exact (kept_or_reaches hkept h hb).imp_right fun h => ⟨h, hb⟩

theorem closedWithin_prunedFrom (hclosed : ∀ u ∈ nodes, ∀ v ∈ succs u, v ∈ nodes)
    (hstart : start ∈ nodes) (hkept : ClosedWithin succs prune kept) :
    ClosedWithin succs prune (prunedFrom succs prune nodes kept start) := by
  have hmem := fun v => mem_prunedFrom_iff_of_closed (b := v) hclosed hstart hkept
  intro u hu
  rcases (hmem u).mp hu with h | ⟨h, hp⟩
  · exact ⟨(hkept u h).1, fun v hv hpv => (hmem v).mpr (Or.inl ((hkept u h).2 v hv hpv))⟩
  · exact ⟨hp, fun v hv hpv => (hmem v).mpr (Or.inr ⟨h.tail ⟨hv, hp⟩, hpv⟩)⟩

theorem mem_prunedAll_iff (hclosed : ∀ u ∈ nodes, ∀ v ∈ succs u, v ∈ nodes)
    {starts : List α} (hstarts : ∀ s ∈ starts, s ∈ nodes) :
    b ∈ prunedAll succs prune nodes starts ↔ ∃ s ∈ starts, ReachesWithin succs prune s b := by
  have hfold : ∀ kept, ClosedWithin succs prune kept →
      (b ∈ starts.foldl (prunedFrom succs prune nodes) kept ↔
        b ∈ kept ∨ ∃ s ∈ starts, ReachesWithin succs prune s b) := by
    induction starts with
    | nil => simp
    | cons s starts ih =>
        intro kept hkept
        have hs := hstarts s List.mem_cons_self
        rw [List.foldl_cons, ih (fun t ht => hstarts t (List.mem_cons_of_mem _ ht)) _
          (closedWithin_prunedFrom hclosed hs hkept),
          mem_prunedFrom_iff_of_closed hclosed hs hkept]
        simp [or_assoc]
  rw [prunedAll, hfold [] (by simp [ClosedWithin])]
  simp

end Run

end Mair.DepthFirst
