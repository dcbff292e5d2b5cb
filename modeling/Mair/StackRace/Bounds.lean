import Mair.StackRace.Model

/-! # Chains of blocks and bounds

The traversal from the spawns visits nothing beyond their own blocks, so the blocks between
are those that lead to a join through blocks with a spawn. The bounds of a block are its
first spawn and its last join. -/

namespace Mair.StackRace

open Ir DepthFirst

section

variable {β : Type*} {f : Function β}

/-- `b` contains one of the sites. -/
def Holds (sites : List (Site f)) (b : β) : Prop := ∃ s ∈ sites, s.block = b

/-- Control can go from `b` to a join without leaving the blocks that contain a spawn. -/
def Chained (mightSpawns mightJoins : List (Site f)) (b : β) : Prop :=
  ∃ p c, f.PathFrom b p c ∧ Holds mightJoins c ∧ ∀ x ∈ c :: p, Holds mightSpawns x

end

/-! ## The blocks between -/

section Blocks

variable {β : Type*} [DecidableEq β] {f : Function β} {prune : β → Bool}
  {mightSpawns mightJoins : List (Site f)} {b c : β}

theorem mem_predecessors_iff : c ∈ predecessors f b ↔ b ∈ f.succs c := by
  simp [predecessors, f.complete]

theorem mem_foldl_iterBegin_iff {starts visited : List β} :
    b ∈ starts.foldl
        (fun visited start => depthFirst f.succs f.blocks (iterBegin visited start) start)
        visited ↔ b ∈ visited ∨ b ∈ starts := by
  induction starts generalizing visited with
  | nil => simp
  | cons start starts ih =>
      rw [List.foldl_cons, ih, depthFirst_iterBegin, mem_iterBegin_iff, List.mem_cons]
      grind

/-- The loop finds each start marked, so nothing but the starts is visited. -/
theorem mem_depthFirstTraversal_iff {starts : List β} :
    b ∈ depthFirstTraversal f starts ↔ b ∈ starts := by
  rw [depthFirstTraversal, mem_foldl_iterBegin_iff]
  simp

theorem path_of_backward
    (h : Relation.ReflTransGen (fun u v => v ∈ predecessors f u ∧ prune u = false) c b) :
    ∃ p, f.PathFrom b p c ∧ (prune b = false → ∀ x ∈ c :: p, prune x = false) := by
  induction h with
  | refl => exact ⟨[], .nil, by simp⟩
  | @tail u v _ huv ih =>
      obtain ⟨p, hp, hall⟩ := ih
      refine ⟨v :: p, (Path.single (mem_predecessors_iff.mp huv.1)).append hp, ?_⟩
      intro hv x hx
      have hrest := hall huv.2
      simp only [List.mem_cons] at hx hrest
      rcases hx with rfl | rfl | hx
      · exact hrest x (Or.inl rfl)
      · exact hv
      · exact hrest x (Or.inr hx)

theorem backward_of_path {p : List β} (hp : f.PathFrom b p c)
    (hall : ∀ x ∈ c :: p, prune x = false) :
    Relation.ReflTransGen (fun u v => v ∈ predecessors f u ∧ prune u = false) c b := by
  induction p generalizing b with
  | nil =>
      rw [Path.nil_iff.mp hp]
  | cons x p ih =>
      obtain ⟨rfl, d, hd, hp⟩ := Path.cons_iff.mp hp
      have hrest : ∀ y ∈ c :: p, prune y = false := by
        intro y hy
        apply hall
        simp only [List.mem_cons] at hy ⊢
        tauto
      exact (ih hp hrest).tail ⟨mem_predecessors_iff.mpr hd, hrest d hp.source_mem⟩

theorem mem_blocksBetween_iff :
    b ∈ blocksBetween mightSpawns mightJoins ↔ Chained mightSpawns mightJoins b := by
  have hclosed : ∀ u ∈ f.blocks, ∀ v ∈ predecessors f u, v ∈ f.blocks :=
    fun _ _ v _ => f.complete v
  have hprune : ∀ x, (!decide (x ∈ depthFirstTraversal f (mightSpawns.map Site.block))) = false ↔
      Holds mightSpawns x := by
    intro x
    simp [mem_depthFirstTraversal_iff, Holds]
  unfold blocksBetween inverseDepthFirstTraversal
  simp only [decide_not]
  rw [mem_prunedAll_iff hclosed fun s _ => f.complete s]
  constructor
  · rintro ⟨c, hc, hback, hb⟩
    obtain ⟨p, hp, hall⟩ := path_of_backward hback
    refine ⟨p, c, hp, by simpa [Holds] using hc, ?_⟩
    intro x hx
    exact (hprune x).mp (hall hb x hx)
  · rintro ⟨p, c, hp, hc, hall⟩
    have hall' := fun x hx => (hprune x).mpr (hall x hx)
    exact ⟨c, by simpa [Holds] using hc, backward_of_path hp hall', hall' b hp.source_mem⟩

end Blocks

/-! ## Chains -/

section Chains

variable {β : Type*} {f : Function β} {mightSpawns mightJoins : List (Site f)} {b : β}

theorem chained_iff : Chained mightSpawns mightJoins b ↔ Holds mightSpawns b ∧
    (Holds mightJoins b ∨ ∃ c ∈ f.succs b, Chained mightSpawns mightJoins c) := by
  constructor
  · rintro ⟨p, c, hp, hc, hall⟩
    refine ⟨hall b hp.source_mem, ?_⟩
    cases p with
    | nil =>
        rw [Path.nil_iff.mp hp]
        exact Or.inl hc
    | cons x p =>
        obtain ⟨rfl, d, hd, hp⟩ := Path.cons_iff.mp hp
        refine Or.inr ⟨d, hd, p, c, hp, hc, ?_⟩
        intro y hy
        apply hall
        simp only [List.mem_cons] at hy ⊢
        tauto
  · rintro ⟨hs, hj | ⟨d, hd, p, c, hp, hc, hall⟩⟩
    · exact ⟨[], b, .nil, hj, by simpa using hs⟩
    · refine ⟨b :: p, c, (Path.single hd).append hp, hc, ?_⟩
      intro y hy
      simp only [List.mem_cons] at hy hall
      rcases hy with rfl | rfl | hy
      · exact hall y (Or.inl rfl)
      · exact hs
      · exact hall y (Or.inr hy)

/-- A chained block leads to the block of a join. -/
theorem Chained.exists_path (h : Chained mightSpawns mightJoins b) :
    ∃ p, ∃ j ∈ mightJoins, f.PathFrom b p j.block := by
  obtain ⟨p, _, hp, ⟨j, hj, rfl⟩, -⟩ := h
  exact ⟨p, j, hj, hp⟩

end Chains

/-! ## The bounds -/

section Bounds

variable {β : Type*} [DecidableEq β] {f : Function β} {between : List β} {isUpperBounds : Bool}
  {bounds : β → Option (Site f)} {processed : List (Site f)} {cb mop : Site f} {b : β}

/-- `a` lies outside of a bound `b` of the given kind. -/
def outside (isUpperBounds : Bool) (a b : Site f) : Bool :=
  if isUpperBounds then a.comesBefore b else b.comesBefore a

omit [DecidableEq β] in
theorem outside_eq_false_iff {a b : Site f} (hab : a.block = b.block) :
    outside isUpperBounds a b = false ↔
      if isUpperBounds then b.pos ≤ a.pos else a.pos ≤ b.pos := by
  cases isUpperBounds <;> simp [outside, Site.comesBefore_eq hab, Site.comesBefore_eq hab.symm]

/-- The bound of a block is one of its processed calls, and none lies outside of it. -/
structure BoundsInvariant (between : List β) (isUpperBounds : Bool)
    (processed : List (Site f)) (bounds : β → Option (Site f)) : Prop where
  skipped : ∀ b, isUnbounded (f := f) between isUpperBounds b = true → bounds b = none
  covered : ∀ c ∈ processed, isUnbounded (f := f) between isUpperBounds c.block = false →
    ∃ e, bounds c.block = some e
  extremal : ∀ b e, bounds b = some e → e ∈ processed ∧ e.block = b ∧
    ∀ c ∈ processed, c.block = b → outside isUpperBounds c e = false

theorem BoundsInvariant.nil :
    BoundsInvariant (f := f) between isUpperBounds [] fun _ => none where
  skipped _ _ := rfl
  covered _ h _ := by cases h
  extremal _ _ h := by cases h

/-- Of the old bound and the new call the outer one is kept. -/
theorem exists_insertBound (hblock : ∀ last, bounds cb.block = some last →
    last.block = cb.block) :
    ∃ e, insertBound isUpperBounds bounds cb cb.block = some e ∧
      (e = cb ∨ bounds cb.block = some e) ∧ outside isUpperBounds cb e = false ∧
      ∀ last, bounds cb.block = some last → outside isUpperBounds last e = false := by
  unfold insertBound
  simp only [if_true]
  cases hlast : bounds cb.block with
  | none =>
      refine ⟨cb, rfl, Or.inl rfl, ?_, by simp⟩
      rw [outside_eq_false_iff rfl]
      split <;> exact Nat.le_refl _
  | some last =>
      have hb := hblock last hlast
      simp only [Option.some.injEq, forall_eq', Site.comesBefore_eq hb]
      refine ⟨_, rfl, ?_⟩
      cases isUpperBounds <;> by_cases hpos : last.pos < cb.pos <;>
        simp [hpos, outside_eq_false_iff, hb] <;> omega

/-- A call in a block that is given up changes nothing. -/
theorem BoundsInvariant.skip
    (h : BoundsInvariant between isUpperBounds processed bounds)
    (hskip : isUnbounded (f := f) between isUpperBounds cb.block = true) :
    BoundsInvariant between isUpperBounds (processed ++ [cb]) bounds where
  skipped := h.skipped
  covered c hc hbounded := by
    rcases List.mem_append.mp hc with hc | hc
    · exact h.covered c hc hbounded
    · rw [List.mem_singleton.mp hc, hskip] at hbounded
      cases hbounded
  extremal b e he := by
    obtain ⟨hmem, hblock, hext⟩ := h.extremal b e he
    refine ⟨List.mem_append_left _ hmem, hblock, ?_⟩
    intro c hc hcb
    rcases List.mem_append.mp hc with hc | hc
    · exact hext c hc hcb
    · rw [List.mem_singleton.mp hc] at hcb
      rw [← hcb, h.skipped _ hskip] at he
      cases he

theorem BoundsInvariant.insert
    (h : BoundsInvariant between isUpperBounds processed bounds)
    (hskip : isUnbounded (f := f) between isUpperBounds cb.block = false) :
    BoundsInvariant between isUpperBounds (processed ++ [cb])
      (insertBound isUpperBounds bounds cb) := by
  have hother : ∀ b, b ≠ cb.block → insertBound isUpperBounds bounds cb b = bounds b :=
    fun b hb => if_neg hb
  obtain ⟨e, he, hmem, hcb, hold⟩ := @exists_insertBound β _ f isUpperBounds bounds cb
    fun last hlast => (h.extremal cb.block last hlast).2.1
  refine ⟨?_, ?_, ?_⟩
  · intro b hb
    have hne : b ≠ cb.block := by
      rintro rfl
      rw [hskip] at hb
      cases hb
    rw [hother b hne]
    exact h.skipped b hb
  · intro c hc hbounded
    by_cases hblock : c.block = cb.block
    · rw [hblock]
      exact ⟨e, he⟩
    · rw [hother _ hblock]
      rcases List.mem_append.mp hc with hc | hc
      · exact h.covered c hc hbounded
      · exact absurd (congrArg Site.block (List.mem_singleton.mp hc)) hblock
  · intro b e' he'
    by_cases hb : b = cb.block
    · subst hb
      rw [he, Option.some.injEq] at he'
      subst he'
      have heblock : e.block = cb.block := by
        rcases hmem with rfl | hmem
        · rfl
        · exact (h.extremal _ e hmem).2.1
      refine ⟨?_, heblock, ?_⟩
      · rcases hmem with rfl | hmem
        · simp
        · exact List.mem_append_left _ (h.extremal _ e hmem).1
      · intro c hc hcblock
        rcases List.mem_append.mp hc with hc | hc
        · obtain ⟨last, hlast⟩ := h.covered c hc (by rwa [hcblock])
          rw [hcblock] at hlast
          obtain ⟨-, hlb, hext⟩ := h.extremal _ last hlast
          have hout := hext c hc hcblock
          have hout' := hold last hlast
          rw [outside_eq_false_iff (hcblock.trans hlb.symm)] at hout
          rw [outside_eq_false_iff (hlb.trans heblock.symm)] at hout'
          rw [outside_eq_false_iff (hcblock.trans heblock.symm)]
          split at hout <;> simp_all only [if_true, if_false, Bool.false_eq_true] <;> omega
        · rw [List.mem_singleton.mp hc]
          exact hcb
    · rw [hother b hb] at he'
      obtain ⟨hmem', hblock, hext⟩ := h.extremal b e' he'
      refine ⟨List.mem_append_left _ hmem', hblock, ?_⟩
      intro c hc hcblock
      rcases List.mem_append.mp hc with hc | hc
      · exact hext c hc hcblock
      · rw [List.mem_singleton.mp hc] at hcblock
        exact absurd hcblock.symm hb

theorem deriveBounds_invariant (origBounds : List (Site f)) :
    BoundsInvariant between isUpperBounds origBounds
      (deriveBounds between isUpperBounds origBounds) := by
  have hfold : ∀ (processed : List (Site f)) bounds,
      BoundsInvariant between isUpperBounds processed bounds →
      BoundsInvariant between isUpperBounds (processed ++ origBounds)
        (origBounds.foldl
          (fun bounds cb =>
            if isUnbounded (f := f) between isUpperBounds cb.block then bounds
            else insertBound isUpperBounds bounds cb) bounds) := by
    induction origBounds with
    | nil => simp
    | cons cb origBounds ih =>
        intro processed bounds h
        rw [List.foldl_cons, List.append_cons]
        apply ih
        split
        · next hskip => exact h.skip hskip
        · next hskip => exact h.insert (by simpa using hskip)
  exact hfold [] _ .nil

/-- An access is ruled out when it lies outside of every call of its kind in its block and
control cannot stay between across the block edge. -/
theorem mustNoRaceInBounds_iff {origBounds : List (Site f)} :
    mustNoRaceInBounds (deriveBounds between isUpperBounds origBounds) isUpperBounds mop = true ↔
      isUnbounded (f := f) between isUpperBounds mop.block = false ∧
        Holds origBounds mop.block ∧
        ∀ c ∈ origBounds, c.block = mop.block → outside isUpperBounds mop c = true := by
  have hinv := @deriveBounds_invariant β _ f between isUpperBounds origBounds
  unfold mustNoRaceInBounds
  cases he : deriveBounds between isUpperBounds origBounds mop.block with
  | none =>
      simp only [Bool.false_eq_true, false_iff, not_and]
      rintro hbounded ⟨c, hc, hblock⟩
      obtain ⟨e, he'⟩ := hinv.covered c hc (by rwa [hblock])
      rw [hblock, he] at he'
      cases he'
  | some e =>
      obtain ⟨hmem, hblock, hext⟩ := hinv.extremal _ e he
      have hbounded : isUnbounded (f := f) between isUpperBounds mop.block = false := by
        by_contra h
        rw [hinv.skipped _ (by simpa using h)] at he
        cases he
      change outside isUpperBounds mop e = true ↔ _
      simp only [hbounded, true_and]
      constructor
      · intro hout
        refine ⟨⟨e, hmem, hblock⟩, ?_⟩
        intro c hc hcb
        have hc' := hext c hc hcb
        by_contra hn
        rw [Bool.not_eq_true, outside_eq_false_iff hcb.symm] at hn
        rw [outside_eq_false_iff (hcb.trans hblock.symm)] at hc'
        rw [← Bool.not_eq_false, outside_eq_false_iff hblock.symm] at hout
        split at hn <;> simp_all only [if_true, if_false, Bool.false_eq_true] <;> omega
      · rintro ⟨-, hall⟩
        exact hall e hmem hblock

end Bounds

end Mair.StackRace
