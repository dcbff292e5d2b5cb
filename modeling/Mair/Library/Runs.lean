import Mathlib.Data.List.Basic

/-! # Runs of a partial step function with observations

A step may be refused; an accepted step changes the state and is observed. The rules lift
what one step preserves to whole runs. -/

namespace Mair.Runs

variable {σ ε ω : Type*} (step : σ → ε → Option (σ × List ω))

def run : σ → List ε → Option (σ × List ω)
  | s, [] => some (s, [])
  | s, e :: es =>
      (step s e).bind fun next =>
        (run next.1 es).map fun last => (last.1, next.2 ++ last.2)

/-- Every step of the run is taken in a state that meets the condition. -/
def Meets (C : σ → ε → Prop) : σ → List ε → Prop
  | _, [] => True
  | s, e :: es => C s e ∧ ∀ s' obs, step s e = some (s', obs) → Meets C s' es

variable {step} {s s' t : σ} {e : ε} {es : List ε} {obs : List ω}

@[simp] theorem run_nil : run step s [] = some (s, []) := rfl

theorem run_cons_iff : run step s (e :: es) = some (t, obs) ↔
    ∃ s' first rest, step s e = some (s', first) ∧ run step s' es = some (t, rest) ∧
      obs = first ++ rest := by
  rw [run, Option.bind_eq_some_iff]
  constructor
  · intro h
    obtain ⟨⟨s', first⟩, hstep, h⟩ := h
    obtain ⟨⟨t', rest⟩, hrun, h⟩ := Option.map_eq_some_iff.mp h
    cases h
    exact ⟨s', first, rest, hstep, hrun, rfl⟩
  · intro h
    obtain ⟨s', first, rest, hstep, hrun, rfl⟩ := h
    exact ⟨(s', first), hstep, by rw [hrun]; rfl⟩

/-- An invariant of the steps that meet a condition holds along every run that meets it, and
so does what such steps show. -/
theorem run_meets {C : σ → ε → Prop} {Inv : σ → Prop} {Good : ω → Prop}
    (hstep : ∀ s e s' obs, Inv s → C s e → step s e = some (s', obs) →
      Inv s' ∧ ∀ o ∈ obs, Good o)
    (hs : Inv s) (hmeets : Meets step C s es) (hrun : run step s es = some (t, obs)) :
    Inv t ∧ ∀ o ∈ obs, Good o := by
  induction es generalizing s obs with
  | nil =>
      cases hrun
      exact ⟨hs, by simp⟩
  | cons e es ih =>
      obtain ⟨s', first, rest, hfirst, hrest, rfl⟩ := run_cons_iff.mp hrun
      obtain ⟨hinv, hgood⟩ := hstep s e s' first hs hmeets.1 hfirst
      obtain ⟨ht, hgood'⟩ := ih hinv (hmeets.2 s' first hfirst) hrest
      refine ⟨ht, ?_⟩
      intro o ho
      rcases List.mem_append.mp ho with ho | ho
      · exact hgood o ho
      · exact hgood' o ho

theorem run_invariant {Inv : σ → Prop}
    (hstep : ∀ s e s' obs, Inv s → step s e = some (s', obs) → Inv s') (hs : Inv s)
    (hrun : run step s es = some (t, obs)) : Inv t := by
  induction es generalizing s obs with
  | nil =>
      cases hrun
      exact hs
  | cons e es ih =>
      obtain ⟨s', first, rest, hfirst, hrest, -⟩ := run_cons_iff.mp hrun
      exact ih (hstep s e s' first hs hfirst) hrest

theorem Meets.mono {C D : σ → ε → Prop} (h : ∀ s e, C s e → D s e) (hmeets : Meets step C s es) :
    Meets step D s es := by
  induction es generalizing s with
  | nil => trivial
  | cons e es ih =>
      refine ⟨h s e hmeets.1, ?_⟩
      intro s' obs hstep
      exact ih (hmeets.2 s' obs hstep)

theorem meets_and_iff {C D : σ → ε → Prop} :
    Meets step (fun s e => C s e ∧ D s e) s es ↔ Meets step C s es ∧ Meets step D s es := by
  constructor
  · intro h
    exact ⟨h.mono fun _ _ => And.left, h.mono fun _ _ => And.right⟩
  · intro h
    induction es generalizing s with
    | nil => trivial
    | cons e es ih =>
        refine ⟨⟨h.1.1, h.2.1⟩, ?_⟩
        intro s' obs hstep
        exact ih ⟨h.1.2 s' obs hstep, h.2.2 s' obs hstep⟩

/-- Under an assumption on every step: if the steps that meet a condition keep the invariant and
look good, and the others look bad, then the good runs are the ones that meet the condition. -/
theorem run_good_iff_of_meets {A C : σ → ε → Prop} {Inv : σ → Prop} {Good : ω → Prop}
    (hstep : ∀ s e s' obs, Inv s → A s e → C s e → step s e = some (s', obs) →
      Inv s' ∧ ∀ o ∈ obs, Good o)
    (hbad : ∀ s e s' obs, Inv s → A s e → ¬C s e → step s e = some (s', obs) →
      ∃ o ∈ obs, ¬Good o)
    (hs : Inv s) (hassumed : Meets step A s es) (hrun : run step s es = some (t, obs)) :
    (∀ o ∈ obs, Good o) ↔ Meets step C s es := by
  induction es generalizing s obs with
  | nil =>
      cases hrun
      simp [Meets]
  | cons e es ih =>
      obtain ⟨s', first, rest, hfirst, hrest, rfl⟩ := run_cons_iff.mp hrun
      constructor
      · intro hgood
        have hC : C s e := by
          by_contra hC
          obtain ⟨o, ho, hnot⟩ := hbad s e s' first hs hassumed.1 hC hfirst
          exact hnot (hgood o (List.mem_append_left _ ho))
        refine ⟨hC, ?_⟩
        intro s'' obs' hstep'
        rw [hfirst, Option.some.injEq, Prod.mk.injEq] at hstep'
        obtain ⟨rfl, rfl⟩ := hstep'
        obtain ⟨hinv, -⟩ := hstep s e s' first hs hassumed.1 hC hfirst
        refine (ih hinv (hassumed.2 s' first hfirst) hrest).mp ?_
        intro o ho
        exact hgood o (List.mem_append_right _ ho)
      · intro hmeets
        have hboth := meets_and_iff.mpr ⟨hassumed, hmeets⟩
        refine (run_meets ?_ hs hboth hrun).2
        intro s e s' obs hinv hconds
        exact hstep s e s' obs hinv hconds.1 hconds.2

/-- Without an assumption. -/
theorem run_good_iff {C : σ → ε → Prop} {Inv : σ → Prop} {Good : ω → Prop}
    (hstep : ∀ s e s' obs, Inv s → C s e → step s e = some (s', obs) →
      Inv s' ∧ ∀ o ∈ obs, Good o)
    (hbad : ∀ s e s' obs, Inv s → ¬C s e → step s e = some (s', obs) → ∃ o ∈ obs, ¬Good o)
    (hs : Inv s) (hrun : run step s es = some (t, obs)) :
    (∀ o ∈ obs, Good o) ↔ Meets step C s es := by
  have htrue : ∀ (es : List ε) (s : σ), Meets step (fun _ _ => True) s es := by
    intro es
    induction es with
    | nil => exact fun _ => trivial
    | cons e es ih => exact fun s => ⟨trivial, fun s' _ _ => ih s'⟩
  exact run_good_iff_of_meets (fun s e s' obs hinv _ => hstep s e s' obs hinv)
    (fun s e s' obs hinv _ => hbad s e s' obs hinv) hs (htrue es s) hrun

end Mair.Runs
