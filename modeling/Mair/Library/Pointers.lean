import Mathlib.Data.Fintype.Card
import Mathlib.Data.Set.Finite.List
import Mathlib.Logic.Relation

/-! # Following a partial function

Over finitely many values, following a partial function from one value to the next ends
exactly when it does not come to a circle. -/

namespace Mair.Pointers

open Relation

variable {α : Type*} {next next' : α → Option α} {a b : α}

def Points (next : α → Option α) (a b : α) : Prop := next a = some b

/-- Following the function ends at a value without a next one. -/
def Ends (next : α → Option α) (a : α) : Prop :=
  ∃ b, ReflTransGen (Points next) a b ∧ next b = none

def OnCircle (next : α → Option α) (a : α) : Prop := TransGen (Points next) a a

theorem Points.eq {c : α} (h : Points next a b) (h' : Points next a c) : b = c :=
  Option.some.inj (h.symm.trans h')

theorem OnCircle.of_points (h : OnCircle next a) (hab : Points next a b) : OnCircle next b := by
  obtain ⟨c, hac, hca⟩ := TransGen.head'_iff.mp h
  rw [← hab.eq hac] at hca
  exact TransGen.tail' hca hab

theorem OnCircle.of_reach (h : OnCircle next a) (hab : ReflTransGen (Points next) a b) :
    OnCircle next b := by
  induction hab with
  | refl => exact h
  | tail _ hstep ih => exact ih.of_points hstep

theorem OnCircle.exists_next (h : OnCircle next a) : ∃ b, Points next a b := by
  obtain ⟨b, hab, -⟩ := TransGen.head'_iff.mp h
  exact ⟨b, hab⟩

/-- Nothing on a circle leads to an end. -/
theorem OnCircle.not_ends (h : OnCircle next a) : ¬Ends next a := by
  intro hends
  obtain ⟨b, hreach, hnone⟩ := hends
  obtain ⟨c, hc⟩ := (h.of_reach hreach).exists_next
  rw [Points, hnone] at hc
  cases hc

/-- The values of a circle reach one another. -/
theorem OnCircle.reach_back (h : OnCircle next a) (hab : ReflTransGen (Points next) a b) :
    ReflTransGen (Points next) b a := by
  induction hab with
  | refl => exact ReflTransGen.refl
  | @tail b c hab hbc ih =>
      obtain ⟨d, hbd, hdb⟩ := TransGen.head'_iff.mp (h.of_reach hab)
      rw [← hbc.eq hbd] at hdb
      exact hdb.trans ih

/-- A circle of one function is one of another function that agrees with it there. -/
theorem OnCircle.congr (h : OnCircle next a)
    (hagree : ∀ b, ReflTransGen (Points next) a b → next' b = next b) : OnCircle next' a := by
  have hpoints : ∀ b c, ReflTransGen (Points next) a b → Points next b c → Points next' b c := by
    intro b c hab hbc
    rw [Points, hagree b hab]
    exact hbc
  have hreach : ∀ b, TransGen (Points next) a b → TransGen (Points next') a b := by
    intro b hab
    induction hab with
    | single hab => exact TransGen.single (hpoints _ _ ReflTransGen.refl hab)
    | tail hab hbc ih => exact ih.tail (hpoints _ _ hab.to_reflTransGen hbc)
  exact hreach a h

theorem ends_of_forall_not_onCircle {vs : List α}
    (hclosed : ∀ a ∈ vs, ∀ b, Points next a b → b ∈ vs)
    (hfree : ∀ a ∈ vs, ¬OnCircle next a) (ha : a ∈ vs) : Ends next a := by
  let below : {a // a ∈ vs} → {a // a ∈ vs} → Prop := fun x y => TransGen (Points next) y x
  have hfinite : Finite {a // a ∈ vs} := (List.finite_toSet vs).to_subtype
  have htrans : IsTrans _ below := ⟨fun _ _ _ hxy hyz => TransGen.trans hyz hxy⟩
  have hirrefl : Std.Irrefl below := ⟨fun x hx => hfree x.1 x.2 hx⟩
  have hwf : WellFounded below := Finite.wellFounded_of_trans_of_irrefl below
  have hall : ∀ x : {a // a ∈ vs}, Ends next x.1 := by
    intro x
    induction x using hwf.induction with
    | h x ih =>
        cases hnext : next x.1 with
        | none => exact ⟨x.1, ReflTransGen.refl, hnext⟩
        | some b =>
            have hb : b ∈ vs := hclosed x.1 x.2 b hnext
            obtain ⟨c, hreach, hnone⟩ := ih ⟨b, hb⟩ (TransGen.single hnext)
            exact ⟨c, ReflTransGen.head hnext hreach, hnone⟩
  exact hall ⟨a, ha⟩

end Mair.Pointers
