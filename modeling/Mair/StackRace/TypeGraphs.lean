import Mathlib.Order.WellFounded
import Mair.Library.DepthFirst

/-! # The search for thread ids in a type

Named structs make a type a node of a graph, which may have cycles. The search for a pointer that
can hold a thread id keeps its answers, but it writes each of them down only when it returns. -/

namespace Mair.StackRace

open DepthFirst

/-! ## Type graphs -/

inductive TypeShape (τ : Type*) where
  | int (bits : ℕ)
  | opaquePointer
  | pointer (elem : τ)
  | struct (elems : List τ)
  | array (elem : τ)
  | vector (elem : τ)
  | other

abbrev TypeGraph (τ : Type*) := τ → TypeShape τ

abbrev PlausibleTypes (τ : Type*) := τ → Option Bool

section Search

variable {τ : Type*}

def TypeShape.isIntegerTy64 : TypeShape τ → Bool
  | .int bits => bits = 64
  | _ => false

/-- One after the other, until one is suspicious. -/
def anySuspicious (search : PlausibleTypes τ → τ → Option (Bool × PlausibleTypes τ)) :
    PlausibleTypes τ → List τ → Option (Bool × PlausibleTypes τ)
  | memo, [] => some (false, memo)
  | memo, ty :: tys =>
      (search memo ty).bind fun r =>
        if r.1 then some (true, r.2) else anySuspicious search r.2 tys

variable [DecidableEq τ] (g : TypeGraph τ)

def PlausibleTypes.insert (memo : PlausibleTypes τ) (ty : τ) (suspicious : Bool) :
    PlausibleTypes τ :=
  fun t => if t = ty then some suspicious else memo t

/-- The bound is one of the depth of the recursion. -/
def TypeGraph.containsSuspiciousPointer :
    ℕ → PlausibleTypes τ → τ → Option (Bool × PlausibleTypes τ)
  | 0, _, _ => none
  | fuel + 1, memo, ty =>
      match memo ty with
      | some suspicious => some (suspicious, memo)
      | none =>
          let answer :=
            match g ty with
            | .opaquePointer => some (true, memo)
            | .pointer elem =>
                if (g elem).isIntegerTy64 then some (true, memo)
                else TypeGraph.containsSuspiciousPointer fuel memo elem
            | .struct elems => anySuspicious (TypeGraph.containsSuspiciousPointer fuel) memo elems
            | .array elem => TypeGraph.containsSuspiciousPointer fuel memo elem
            | .vector elem => TypeGraph.containsSuspiciousPointer fuel memo elem
            | _ => some (false, memo)
          answer.map fun r => (r.1, r.2.insert ty r.1)

/-- The answers to several queries. -/
def ask (fuel : ℕ) : PlausibleTypes τ → List τ → Option (List Bool × PlausibleTypes τ)
  | memo, [] => some ([], memo)
  | memo, ty :: tys =>
      (g.containsSuspiciousPointer fuel memo ty).bind fun r =>
        (ask fuel r.2 tys).map fun rest => (r.1 :: rest.1, rest.2)

end Search

/-! ## The law and when it holds -/

section Law

variable {τ : Type*} (g : TypeGraph τ)

/-- The element and pointee steps. -/
def TypeGraph.steps (ty : τ) : List τ :=
  match g ty with
  | .pointer elem | .array elem | .vector elem => [elem]
  | .struct elems => elems
  | _ => []

/-- An opaque pointer, or a pointer to a 64-bit integer. -/
def TypeGraph.holdsThreadId (ty : τ) : Bool :=
  match g ty with
  | .opaquePointer => true
  | .pointer elem => (g elem).isIntegerTy64
  | _ => false

def TypeGraph.Suspicious (ty : τ) : Prop :=
  ∃ t, Reaches g.steps ty t ∧ g.holdsThreadId t = true

/-- The search goes on to an element if neither the type itself nor what an earlier element reaches
is suspicious. -/
def TypeGraph.Explores (ty t : τ) : Prop :=
  g.holdsThreadId ty = false ∧
    ∃ before after, g.steps ty = before ++ t :: after ∧ ∀ u ∈ before, ¬g.Suspicious u

/-- The steps of the search never end. -/
def TypeGraph.Endless (ty : τ) : Prop :=
  ∃ f : ℕ → τ, f 0 = ty ∧ ∀ n, g.Explores (f n) (f (n + 1))

/-- All queries end, with exact answers, which are those of a search that has no answers yet. -/
def TypeGraph.Exact [DecidableEq τ] (queries : List τ) : Prop :=
  ∃ fuel answers memo, ask g fuel (fun _ => none) queries = some (answers, memo) ∧
    ∀ p ∈ queries.zip answers, (p.2 = true ↔ g.Suspicious p.1) ∧
      ∃ fuel', (g.containsSuspiciousPointer fuel' (fun _ => none) p.1).map Prod.fst = some p.2

end Law

section Answers

variable {τ : Type*} {g : TypeGraph τ} {ty t : τ} {tys : List τ}

theorem suspicious_iff :
    g.Suspicious ty ↔ g.holdsThreadId ty = true ∨ ∃ t ∈ g.steps ty, g.Suspicious t := by
  constructor
  · rintro ⟨t, hreach, ht⟩
    rcases hreach.cases_head with rfl | ⟨u, hu, hut⟩
    · exact Or.inl ht
    · exact Or.inr ⟨u, hu, t, hut, ht⟩
  · rintro (hty | ⟨u, hu, t, hut, ht⟩)
    · exact ⟨ty, .refl, hty⟩
    · exact ⟨t, hut.head hu, ht⟩

/-- The relation on which the recursion of the search is well-founded. -/
def TypeGraph.Ends (g : TypeGraph τ) (ty : τ) : Prop := Acc (fun t ty => g.Explores ty t) ty

theorem ends_iff : g.Ends ty ↔ ¬g.Endless ty := by
  have hchain := @not_acc_iff_exists_descending_chain τ (fun t ty => g.Explores ty t) ty
  rw [TypeGraph.Ends, TypeGraph.Endless, ← hchain, not_not]

variable {memo : PlausibleTypes τ} {fuel fuel' : ℕ} {b : Bool} {r : Bool × PlausibleTypes τ}

theorem anySuspicious_singleton (f : PlausibleTypes τ → τ → Option (Bool × PlausibleTypes τ)) :
    anySuspicious f memo [ty] = f memo ty := by
  rw [anySuspicious]
  cases f memo ty with
  | none => rfl
  | some r =>
      obtain ⟨b, memo'⟩ := r
      cases b <;> rfl

/-- The answers that were written down are exact, and came from searches that end. -/
def TypeGraph.Remembers (g : TypeGraph τ) (memo : PlausibleTypes τ) : Prop :=
  ∀ t b, memo t = some b → (b = true ↔ g.Suspicious t) ∧ g.Ends t

/-- What a search of one type shows. -/
def TypeGraph.Answers (g : TypeGraph τ) (ty : τ) (r : Bool × PlausibleTypes τ) : Prop :=
  g.Remembers r.2 ∧ (r.1 = true ↔ g.Suspicious ty) ∧ g.Ends ty

theorem anySuspicious_answers {f : PlausibleTypes τ → τ → Option (Bool × PlausibleTypes τ)}
    (hf : ∀ memo ty r, f memo ty = some r → g.Remembers memo → g.Answers ty r)
    (hany : anySuspicious f memo tys = some r) (hmemo : g.Remembers memo) :
    g.Remembers r.2 ∧ (r.1 = true ↔ ∃ t ∈ tys, g.Suspicious t) ∧
      ∀ before t after, tys = before ++ t :: after → (∀ u ∈ before, ¬g.Suspicious u) →
        g.Ends t := by
  induction tys generalizing memo with
  | nil =>
      cases hany
      refine ⟨hmemo, by simp, ?_⟩
      intro before t after htys
      simp at htys
  | cons ty tys ih =>
      obtain ⟨first, hfirst, hrest⟩ := Option.bind_eq_some_iff.mp hany
      obtain ⟨hmemo', hexact, hends⟩ := hf memo ty first hfirst hmemo
      split_ifs at hrest with hsus
      · cases hrest
        refine ⟨hmemo', by simpa using Or.inl (hexact.mp hsus), ?_⟩
        intro before t after htys hbefore
        cases before with
        | nil =>
            cases htys
            exact hends
        | cons u before =>
            cases htys
            exact absurd (hexact.mp hsus) (hbefore _ List.mem_cons_self)
      · obtain ⟨hmemo'', hexact', hends'⟩ := ih hrest hmemo'
        have hnot := mt hexact.mpr hsus
        refine ⟨hmemo'', ?_, ?_⟩
        · rw [hexact']
          simp [hnot]
        · intro before t after htys hbefore
          cases before with
          | nil =>
              cases htys
              exact hends
          | cons u before =>
              cases htys
              exact hends' before t after rfl fun u hu => hbefore u (List.mem_cons_of_mem _ hu)

theorem anySuspicious_mono {f f' : PlausibleTypes τ → τ → Option (Bool × PlausibleTypes τ)}
    (hf : ∀ memo ty r, f memo ty = some r → f' memo ty = some r)
    (hany : anySuspicious f memo tys = some r) : anySuspicious f' memo tys = some r := by
  induction tys generalizing memo with
  | nil => exact hany
  | cons ty tys ih =>
      obtain ⟨first, hfirst, hrest⟩ := Option.bind_eq_some_iff.mp hany
      rw [anySuspicious, hf memo ty first hfirst, Option.bind_some]
      split_ifs at hrest ⊢ with hsus
      · exact hrest
      · exact ih hrest

theorem remembers_nothing : g.Remembers fun _ => none := by
  intro t b hlook
  cases hlook

variable [DecidableEq τ]

theorem search_succ : g.containsSuspiciousPointer (fuel + 1) memo ty =
    match memo ty with
    | some suspicious => some (suspicious, memo)
    | none =>
        (if g.holdsThreadId ty = true then some (true, memo)
          else anySuspicious (g.containsSuspiciousPointer fuel) memo (g.steps ty)).map
            fun r => (r.1, r.2.insert ty r.1) := by
  rw [TypeGraph.containsSuspiciousPointer]
  cases memo ty with
  | some suspicious => rfl
  | none =>
      cases hshape : g ty with
      | int bits => simp [TypeGraph.holdsThreadId, TypeGraph.steps, hshape, anySuspicious]
      | opaquePointer => simp [TypeGraph.holdsThreadId, hshape]
      | pointer elem =>
          simp [TypeGraph.holdsThreadId, TypeGraph.steps, hshape, anySuspicious_singleton]
      | struct elems => simp [TypeGraph.holdsThreadId, TypeGraph.steps, hshape]
      | array elem =>
          simp [TypeGraph.holdsThreadId, TypeGraph.steps, hshape, anySuspicious_singleton]
      | vector elem =>
          simp [TypeGraph.holdsThreadId, TypeGraph.steps, hshape, anySuspicious_singleton]
      | other => simp [TypeGraph.holdsThreadId, TypeGraph.steps, hshape, anySuspicious]

theorem TypeGraph.Remembers.insert (hmemo : g.Remembers memo) (hb : b = true ↔ g.Suspicious ty)
    (hends : g.Ends ty) : g.Remembers (memo.insert ty b) := by
  intro t b' hlook
  rw [PlausibleTypes.insert] at hlook
  split_ifs at hlook with ht
  · cases hlook
    rw [ht]
    exact ⟨hb, hends⟩
  · exact hmemo t b' hlook

theorem search_answers (hsearch : g.containsSuspiciousPointer fuel memo ty = some r)
    (hmemo : g.Remembers memo) : g.Answers ty r := by
  induction fuel generalizing memo ty r with
  | zero => cases hsearch
  | succ fuel ih =>
      rw [search_succ] at hsearch
      cases hlook : memo ty with
      | some suspicious =>
          rw [hlook] at hsearch
          cases hsearch
          exact ⟨hmemo, hmemo ty suspicious hlook⟩
      | none =>
          rw [hlook] at hsearch
          obtain ⟨r', hr', rfl⟩ := Option.map_eq_some_iff.mp hsearch
          split_ifs at hr' with hhere
          · cases hr'
            have hsus : true = true ↔ g.Suspicious ty := by
              simpa using suspicious_iff.mpr (Or.inl hhere)
            have hends : g.Ends ty := by
              refine Acc.intro _ fun t hexplores => ?_
              have hnot := hexplores.1
              rw [hhere] at hnot
              cases hnot
            exact ⟨hmemo.insert hsus hends, hsus, hends⟩
          · obtain ⟨hmemo', hexact, hends⟩ :=
              anySuspicious_answers (fun memo ty r => @ih ty memo r) hr' hmemo
            have hsus : r'.1 = true ↔ g.Suspicious ty := by
              rw [hexact, suspicious_iff]
              simp [hhere]
            have hty : g.Ends ty := by
              refine Acc.intro _ fun t hexplores => ?_
              obtain ⟨-, before, after, hsteps, hbefore⟩ := hexplores
              exact hends before t after hsteps hbefore
            exact ⟨hmemo'.insert hsus hty, hsus, hty⟩

/-! ## Searches that end -/

theorem search_mono (hle : fuel ≤ fuel')
    (hsearch : g.containsSuspiciousPointer fuel memo ty = some r) :
    g.containsSuspiciousPointer fuel' memo ty = some r := by
  induction fuel generalizing fuel' memo ty r with
  | zero => cases hsearch
  | succ fuel ih =>
      cases fuel' with
      | zero => omega
      | succ fuel' =>
          rw [search_succ] at hsearch ⊢
          cases hlook : memo ty with
          | some suspicious =>
              rw [hlook] at hsearch
              exact hsearch
          | none =>
              rw [hlook] at hsearch
              obtain ⟨r', hr', heq⟩ := Option.map_eq_some_iff.mp hsearch
              refine Option.map_eq_some_iff.mpr ⟨r', ?_, heq⟩
              split_ifs at hr' ⊢ with hhere
              · exact hr'
              · exact anySuspicious_mono (fun memo ty r => ih (by omega)) hr'

theorem exists_anySuspicious
    (hends : ∀ before t after, tys = before ++ t :: after → (∀ u ∈ before, ¬g.Suspicious u) →
      ∀ memo, g.Remembers memo → ∃ fuel r, g.containsSuspiciousPointer fuel memo t = some r)
    (hmemo : g.Remembers memo) :
    ∃ fuel r, anySuspicious (g.containsSuspiciousPointer fuel) memo tys = some r := by
  induction tys generalizing memo with
  | nil => exact ⟨0, _, rfl⟩
  | cons ty tys ih =>
      obtain ⟨fuel, first, hfirst⟩ := hends [] ty tys rfl (by simp) memo hmemo
      obtain ⟨hmemo', hexact, -⟩ := search_answers hfirst hmemo
      by_cases hsus : first.1 = true
      · refine ⟨fuel, (true, first.2), ?_⟩
        rw [anySuspicious, hfirst, Option.bind_some, if_pos hsus]
      · have hnot := mt hexact.mpr hsus
        obtain ⟨fuel', r, hrest⟩ := ih (fun before t after htys hbefore => by
          refine hends (ty :: before) t after (by rw [htys]; rfl) ?_
          intro u hu
          rcases List.mem_cons.mp hu with rfl | hu
          · exact hnot
          · exact hbefore u hu) hmemo'
        refine ⟨max fuel fuel', r, ?_⟩
        rw [anySuspicious, search_mono (Nat.le_max_left fuel fuel') hfirst, Option.bind_some,
          if_neg hsus]
        exact anySuspicious_mono (fun memo ty r => search_mono (Nat.le_max_right fuel fuel')) hrest

theorem exists_search (hends : g.Ends ty) (memo : PlausibleTypes τ) (hmemo : g.Remembers memo) :
    ∃ fuel r, g.containsSuspiciousPointer fuel memo ty = some r := by
  induction hends generalizing memo with
  | intro ty _ ih =>
      cases hlook : memo ty with
      | some suspicious => exact ⟨1, _, by rw [search_succ, hlook]⟩
      | none =>
          by_cases hhere : g.holdsThreadId ty = true
          · exact ⟨1, _, by rw [search_succ, hlook, if_pos hhere]; rfl⟩
          · obtain ⟨fuel, r, hany⟩ := exists_anySuspicious
              (fun before t after hsteps hbefore =>
                ih t ⟨by simpa using hhere, before, after, hsteps, hbefore⟩) hmemo
            exact ⟨fuel + 1, _, by rw [search_succ, hlook, if_neg hhere, hany]; rfl⟩

/-! ## Queries -/

theorem ask_cons_iff {answers : List Bool} {memo' : PlausibleTypes τ} :
    ask g fuel memo (ty :: tys) = some (answers, memo') ↔
      ∃ first rest, g.containsSuspiciousPointer fuel memo ty = some first ∧
        ask g fuel first.2 tys = some (rest, memo') ∧ answers = first.1 :: rest := by
  rw [ask, Option.bind_eq_some_iff]
  constructor
  · rintro ⟨first, hfirst, hmap⟩
    obtain ⟨⟨rest, last⟩, hrest, heq⟩ := Option.map_eq_some_iff.mp hmap
    cases heq
    exact ⟨first, rest, hfirst, hrest, rfl⟩
  · rintro ⟨first, rest, hfirst, hrest, rfl⟩
    exact ⟨first, hfirst, by rw [hrest]; rfl⟩

theorem ask_answers {answers : List Bool} {memo' : PlausibleTypes τ}
    (hask : ask g fuel memo tys = some (answers, memo')) (hmemo : g.Remembers memo) :
    (∀ ty ∈ tys, g.Ends ty) ∧ ∀ p ∈ tys.zip answers, p.2 = true ↔ g.Suspicious p.1 := by
  induction tys generalizing memo answers with
  | nil => exact ⟨by simp, by simp⟩
  | cons ty tys ih =>
      obtain ⟨first, rest, hfirst, hrest, rfl⟩ := ask_cons_iff.mp hask
      obtain ⟨hmemo', hexact, hends⟩ := search_answers hfirst hmemo
      obtain ⟨hends', hexact'⟩ := ih hrest hmemo'
      constructor
      · intro t ht
        rcases List.mem_cons.mp ht with rfl | ht
        · exact hends
        · exact hends' t ht
      · intro p hp
        rw [List.zip_cons_cons, List.mem_cons] at hp
        rcases hp with rfl | hp
        · exact hexact
        · exact hexact' p hp

theorem ask_mono {answers : List Bool} {memo' : PlausibleTypes τ} (hle : fuel ≤ fuel')
    (hask : ask g fuel memo tys = some (answers, memo')) :
    ask g fuel' memo tys = some (answers, memo') := by
  induction tys generalizing memo answers with
  | nil => exact hask
  | cons ty tys ih =>
      obtain ⟨first, rest, hfirst, hrest, rfl⟩ := ask_cons_iff.mp hask
      exact ask_cons_iff.mpr ⟨first, rest, search_mono hle hfirst, ih hrest, rfl⟩

theorem exists_ask (hends : ∀ ty ∈ tys, g.Ends ty) (hmemo : g.Remembers memo) :
    ∃ fuel answers memo', ask g fuel memo tys = some (answers, memo') := by
  induction tys generalizing memo with
  | nil => exact ⟨0, _, _, rfl⟩
  | cons ty tys ih =>
      obtain ⟨fuel, first, hfirst⟩ := exists_search (hends ty List.mem_cons_self) memo hmemo
      obtain ⟨fuel', answers, memo', hrest⟩ :=
        ih (fun t ht => hends t (List.mem_cons_of_mem ty ht)) (search_answers hfirst hmemo).1
      refine ⟨max fuel fuel', first.1 :: answers, memo', ?_⟩
      exact ask_cons_iff.mpr ⟨first, answers, search_mono (Nat.le_max_left _ _) hfirst,
        ask_mono (Nat.le_max_right _ _) hrest, rfl⟩

/-- A search that ends gives the answer that is exact. -/
theorem exists_fresh_search (hends : g.Ends ty) (hb : b = true ↔ g.Suspicious ty) :
    ∃ fuel, (g.containsSuspiciousPointer fuel (fun _ => none) ty).map Prod.fst = some b := by
  obtain ⟨fuel, r, hsearch⟩ := exists_search hends _ remembers_nothing
  refine ⟨fuel, ?_⟩
  have hexact := (search_answers hsearch remembers_nothing).2.1
  rw [hsearch, Option.map_some, Option.some.injEq, Bool.eq_iff_iff, hexact, hb]

/-- Every sequence of queries ends with exact answers that the kept ones do not change, if and only
if from no type of it the steps of the search go on for ever. -/
theorem exact_iff_not_endless (g : TypeGraph τ) (queries : List τ) :
    g.Exact queries ↔ ∀ ty ∈ queries, ¬g.Endless ty := by
  constructor
  · rintro ⟨fuel, answers, memo, hask, -⟩ ty hty
    exact ends_iff.mp ((ask_answers hask remembers_nothing).1 ty hty)
  · intro hends
    have hacc : ∀ ty ∈ queries, g.Ends ty := fun ty hty => ends_iff.mpr (hends ty hty)
    obtain ⟨fuel, answers, memo, hask⟩ := exists_ask hacc remembers_nothing
    refine ⟨fuel, answers, memo, hask, ?_⟩
    intro p hp
    have hexact := (ask_answers hask remembers_nothing).2 p hp
    exact ⟨hexact, exists_fresh_search (hacc p.1 (List.of_mem_zip hp).1) hexact⟩

end Answers

/-! ## A linked list -/

/-- The node of a linked list is a struct with a pointer to such a node. -/
def listNode : TypeGraph Bool
  | true => .struct [false]
  | false => .pointer true

theorem listNode_never_ends :
    (∀ fuel, listNode.containsSuspiciousPointer fuel (fun _ => none) true = none) ∧
      ¬listNode.Exact [true] := by
  have hnone : ∀ fuel ty, listNode.containsSuspiciousPointer fuel (fun _ => none) ty = none := by
    intro fuel
    induction fuel with
    | zero => exact fun _ => rfl
    | succ fuel ih =>
        intro ty
        cases ty with
        | true => simp [TypeGraph.containsSuspiciousPointer, listNode, anySuspicious, ih]
        | false => simp [TypeGraph.containsSuspiciousPointer, listNode, TypeShape.isIntegerTy64, ih]
  refine ⟨fun fuel => hnone fuel true, ?_⟩
  rintro ⟨fuel, answers, memo, hask, -⟩
  rw [ask, hnone] at hask
  cases hask

end Mair.StackRace
