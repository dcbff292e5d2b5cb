import Mair.LoopCheck.Combine

/-! # Representatives of accesses with one address

The scan over a call-free segment runs backwards, so the last access at an address represents
the others. It is as strong as they are only when it is the strongest of them. -/

namespace Mair.LoopCheck

open Ir

variable {β : Type*} {f : Function β}

/-! ## What the scan collects -/

/-- An access that represents those of its address among the accesses behind it in the
scan. -/
def LoopMop.standingFor (mop : LoopMop f) (behind : List (LoopMop f)) : LoopMop f :=
  { mop with
    dupTo := mop.dupTo ++ (behind.filter fun d => d.address = mop.address).map LoopMop.inst }

/-- The representatives of a scanned list are the first accesses at their address. -/
structure Collected (scanned seen : List (LoopMop f)) : Prop where
  keys : (seen.map LoopMop.address).Nodup
  once : (seen.flatMap LoopMop.delegated).Perm (scanned.flatMap LoopMop.delegated)
  order : (seen.map LoopMop.inst).Sublist (scanned.map LoopMop.inst)
  first : ∀ r ∈ seen, ∃ ahead mop behind, scanned = ahead ++ mop :: behind ∧
    (∀ m ∈ ahead, m.address ≠ mop.address) ∧ r = mop.standingFor behind
  kept : ∀ ahead mop behind, scanned = ahead ++ mop :: behind →
    (∀ m ∈ ahead, m.address ≠ mop.address) → mop.standingFor behind ∈ seen

section Scan

variable {scanned seen mops : List (LoopMop f)} {mop r : LoopMop f}

theorem LoopMop.standingFor_address (mop : LoopMop f) (behind : List (LoopMop f)) :
    (mop.standingFor behind).address = mop.address := rfl

theorem LoopMop.standingFor_nil (mop : LoopMop f) : mop.standingFor [] = mop := by
  simp [standingFor]

theorem LoopMop.standingFor_concat (mop last : LoopMop f) (behind : List (LoopMop f)) :
    mop.standingFor (behind ++ [last]) =
      if mop.address = last.address then
        { mop.standingFor behind with dupTo := (mop.standingFor behind).dupTo ++ [last.inst] }
      else mop.standingFor behind := by
  by_cases h : mop.address = last.address
  · simp [standingFor, h]
  · have h' : last.address ≠ mop.address := Ne.symm h
    simp [standingFor, h, h']

/-- The address of each scanned access has a representative. -/
theorem Collected.exists_address (h : Collected scanned seen) (hmop : mop ∈ scanned) :
    ∃ r ∈ seen, r.address = mop.address := by
  have hfound : (scanned.find? fun m => m.address = mop.address).isSome := by
    rw [List.find?_isSome]
    exact ⟨mop, hmop, by simp⟩
  obtain ⟨m, hm⟩ := Option.isSome_iff_exists.mp hfound
  obtain ⟨haddr, ahead, behind, heq, hahead⟩ := List.find?_eq_some_iff_append.mp hm
  have haddr : m.address = mop.address := of_decide_eq_true haddr
  refine ⟨m.standingFor behind, h.kept ahead m behind heq ?_, haddr⟩
  intro m' hm'
  rw [haddr]
  simpa using hahead m' hm'

theorem map_inst_addMop (seen : List (LoopMop f)) (mop : LoopMop f) :
    (addMop seen mop).map LoopMop.inst =
      seen.map LoopMop.inst ++
        if seen.any (fun other => other.address = mop.address) then [] else [mop.inst] := by
  rw [addMop]
  split
  · rw [List.append_nil, List.map_map]
    apply List.map_congr_left
    intro r _
    rw [Function.comp_apply]
    split <;> rfl
  · rw [List.map_append]
    rfl

theorem map_address_addMop (seen : List (LoopMop f)) (mop : LoopMop f) :
    (addMop seen mop).map LoopMop.address =
      seen.map LoopMop.address ++
        if seen.any (fun other => other.address = mop.address) then [] else [mop.address] := by
  rw [addMop]
  split
  · rw [List.append_nil, List.map_map]
    apply List.map_congr_left
    intro r _
    rw [Function.comp_apply]
    split <;> rfl
  · rw [List.map_append]
    rfl

theorem nodup_addMop (haddr : (seen.map LoopMop.address).Nodup) (mop : LoopMop f) :
    ((addMop seen mop).map LoopMop.address).Nodup := by
  rw [map_address_addMop]
  split
  · rwa [List.append_nil]
  · next hany =>
      rw [List.nodup_append]
      refine ⟨haddr, List.nodup_singleton _, ?_⟩
      intro a ha b hb heq
      rw [List.mem_singleton.mp hb] at heq
      obtain ⟨r, hr, hra⟩ := List.mem_map.mp ha
      apply hany
      rw [List.any_eq_true]
      exact ⟨r, hr, decide_eq_true (hra.trans heq)⟩

/-- Each scanned access ends up in one list of duplicates or as a representative. -/
theorem delegated_addMop (haddr : (seen.map LoopMop.address).Nodup) (hdup : mop.dupTo = []) :
    ((addMop seen mop).flatMap LoopMop.delegated).Perm
      (seen.flatMap LoopMop.delegated ++ [mop.inst]) := by
  rw [addMop]
  split
  · next hany =>
      induction seen with
      | nil => cases hany
      | cons r rest ih =>
          rw [List.map_cons, List.nodup_cons] at haddr
          rw [List.map_cons, List.flatMap_cons, List.flatMap_cons]
          by_cases hr : r.address = mop.address
          · have hrest : ∀ other ∈ rest, other.address ≠ mop.address := by
              intro other hother heq
              exact haddr.1 (List.mem_map.mpr ⟨other, hother, heq.trans hr.symm⟩)
            have hsame : (rest.map fun other =>
                if other.address = mop.address then
                  { other with dupTo := other.dupTo ++ [mop.inst] }
                else other) = rest := by
              conv_rhs => rw [← List.map_id rest]
              apply List.map_congr_left
              intro other hother
              rw [if_neg (hrest other hother), id]
            rw [hsame, if_pos hr, List.append_assoc]
            change (r.delegated ++ [mop.inst] ++ rest.flatMap LoopMop.delegated).Perm _
            rw [List.append_assoc]
            exact List.Perm.append_left _ List.perm_append_comm
          · have hany' : rest.any (fun other => other.address = mop.address) = true := by
              rw [List.any_cons, Bool.or_eq_true] at hany
              exact hany.resolve_left (by simpa using hr)
            rw [if_neg hr, List.append_assoc]
            exact (ih haddr.2 hany').append_left _
  · rw [List.flatMap_append]
    simp [LoopMop.delegated, hdup]

/-- A representative in the grown list represented the same access before, or is new. -/
theorem mem_addMop_iff : r ∈ addMop seen mop ↔
    (∃ old ∈ seen, r = if old.address = mop.address then
      { old with dupTo := old.dupTo ++ [mop.inst] } else old) ∨
    (∀ old ∈ seen, old.address ≠ mop.address) ∧ r = mop := by
  rw [addMop]
  split
  · next hany =>
      obtain ⟨other, hother, haddr⟩ := List.any_eq_true.mp hany
      have haddr : other.address = mop.address := of_decide_eq_true haddr
      rw [List.mem_map]
      constructor
      · intro h
        obtain ⟨old, hold, heq⟩ := h
        exact Or.inl ⟨old, hold, heq.symm⟩
      · intro h
        cases h with
        | inl h =>
            obtain ⟨old, hold, heq⟩ := h
            exact ⟨old, hold, heq.symm⟩
        | inr h => exact absurd haddr (h.1 other hother)
  · next hany =>
      have hnone : ∀ old ∈ seen, old.address ≠ mop.address := by
        intro old hold heq
        apply hany
        rw [List.any_eq_true]
        exact ⟨old, hold, decide_eq_true heq⟩
      rw [List.mem_append, List.mem_singleton]
      constructor
      · intro h
        cases h with
        | inl h => exact Or.inl ⟨r, h, by rw [if_neg (hnone r h)]⟩
        | inr h => exact Or.inr ⟨hnone, h⟩
      · intro h
        cases h with
        | inl h =>
            obtain ⟨old, hold, heq⟩ := h
            rw [if_neg (hnone old hold)] at heq
            exact Or.inl (heq ▸ hold)
        | inr h => exact Or.inr h.2

/-- One step of the scan. -/
theorem Collected.add (h : Collected scanned seen) (hdup : mop.dupTo = []) :
    Collected (scanned ++ [mop]) (addMop seen mop) where
  keys := nodup_addMop h.keys mop
  once := by
    rw [List.flatMap_append]
    simp only [List.flatMap_cons, List.flatMap_nil, List.append_nil, LoopMop.delegated, hdup]
    exact (delegated_addMop h.keys hdup).trans (h.once.append_right _)
  order := by
    rw [map_inst_addMop, List.map_append]
    apply h.order.append
    split
    · exact List.nil_sublist _
    · exact List.Sublist.refl _
  first := by
    intro r hr
    cases mem_addMop_iff.mp hr with
    | inl hold =>
        obtain ⟨old, hold, heq⟩ := hold
        obtain ⟨ahead, m, behind, hscanned, hahead, hm⟩ := h.first old hold
        subst hm
        refine ⟨ahead, m, behind ++ [mop], by rw [hscanned]; simp, hahead, ?_⟩
        rw [heq, LoopMop.standingFor_concat, LoopMop.standingFor_address]
        rfl
    | inr hnew =>
        refine ⟨scanned, mop, [], rfl, ?_, by rw [hnew.2, LoopMop.standingFor_nil]⟩
        intro m hm heq
        obtain ⟨old, hold, haddr⟩ := h.exists_address hm
        exact hnew.1 old hold (haddr.trans heq)
  kept := by
    intro ahead m behind heq hahead
    rw [mem_addMop_iff]
    rcases List.eq_nil_or_concat behind with rfl | ⟨front, last, rfl⟩
    · obtain ⟨rfl, hm⟩ := List.append_inj' heq rfl
      cases hm
      refine Or.inr ⟨?_, LoopMop.standingFor_nil _⟩
      intro old hold hsame
      obtain ⟨ahead', m', behind', hscanned, -, hold'⟩ := h.first old hold
      have hmem : m' ∈ scanned := by rw [hscanned]; simp
      rw [hold', LoopMop.standingFor_address] at hsame
      exact hahead m' hmem hsame
    · rw [List.concat_eq_append, ← List.cons_append, ← List.append_assoc] at heq
      obtain ⟨hscanned, hlast⟩ := List.append_inj' heq rfl
      cases hlast
      refine Or.inl ⟨m.standingFor front, h.kept ahead m front hscanned hahead, ?_⟩
      rw [List.concat_eq_append, LoopMop.standingFor_concat, LoopMop.standingFor_address]
      rfl

/-- The whole scan. -/
theorem Collected.foldl (h : Collected scanned seen) (hdup : ∀ m ∈ mops, m.dupTo = []) :
    Collected (scanned ++ mops) (mops.foldl addMop seen) := by
  induction mops generalizing scanned seen with
  | nil => rwa [List.append_nil]
  | cons mop rest ih =>
      have hstep := h.add (hdup mop List.mem_cons_self)
      have hrest := ih hstep fun m hm => hdup m (List.mem_cons_of_mem _ hm)
      rwa [List.append_assoc] at hrest

theorem collected_nil : Collected ([] : List (LoopMop f)) [] where
  keys := List.nodup_nil
  once := List.Perm.refl _
  order := List.Sublist.refl _
  first r hr := absurd hr List.not_mem_nil
  kept ahead mop behind h := by simp at h

theorem collected_filterAndAddMops (hdup : ∀ m ∈ mops, m.dupTo = []) :
    Collected mops.reverse (filterAndAddMops mops).reverse := by
  have h := collected_nil.foldl fun m hm => hdup m (List.mem_reverse.mp hm)
  rwa [List.nil_append, ← List.reverse_reverse (mops.reverse.foldl addMop [])] at h

end Scan

/-! ## Representatives as strong as their duplicates -/

/-- What the checks of the representatives must do for all accesses of the segment. -/
structure Represented (mops result : List (LoopMop f)) : Prop where
  once : (result.flatMap LoopMop.delegated).Perm (mops.map LoopMop.inst)
  order : (result.map LoopMop.inst).Sublist (mops.map LoopMop.inst)
  stronger : ∀ r ∈ result, ∀ d ∈ mops, d.inst ∈ r.dupTo → r.address = d.address ∧
    (d.isWrite = false ∨ r.isWrite = true) ∧ d.mopSize ≤ r.mopSize

/-- The last access at each address is a write if one of them is, and none is wider. -/
def LastStrongest (mops : List (LoopMop f)) : Prop :=
  ∀ before last after, mops = before ++ last :: after →
    (∀ m ∈ after, m.address ≠ last.address) → ∀ d ∈ before, d.address = last.address →
      (d.isWrite = false ∨ last.isWrite = true) ∧ d.mopSize ≤ last.mopSize

section Strength

variable {mops : List (LoopMop f)}

theorem flatMap_delegated (hdup : ∀ m ∈ mops, m.dupTo = []) :
    mops.flatMap LoopMop.delegated = mops.map LoopMop.inst := by
  induction mops with
  | nil => rfl
  | cons mop rest ih =>
      rw [List.flatMap_cons, List.map_cons, LoopMop.delegated, hdup mop List.mem_cons_self,
        ih fun m hm => hdup m (List.mem_cons_of_mem _ hm)]
      rfl

/-- Duplicates are the other accesses at the address, given that accesses are told apart by
their instructions. -/
theorem inst_mem_standingFor_iff {behind : List (LoopMop f)} {mop d : LoopMop f}
    (hinsts : (behind.map LoopMop.inst).Nodup) (hd : d ∈ behind) (hdup : mop.dupTo = []) :
    d.inst ∈ (mop.standingFor behind).dupTo ↔ d.address = mop.address := by
  rw [LoopMop.standingFor, hdup, List.nil_append, List.mem_map]
  constructor
  · intro h
    obtain ⟨e, he, heq⟩ := h
    rw [List.mem_filter, decide_eq_true_eq] at he
    rw [← List.inj_on_of_nodup_map hinsts he.1 hd heq]
    exact he.2
  · intro h
    exact ⟨d, List.mem_filter.mpr ⟨hd, decide_eq_true h⟩, rfl⟩

/-- Every access of a segment is represented once and in order; the representatives are as
strong as their duplicates exactly when the last access at each address is the strongest. -/
theorem filterAndAddMops_represented_iff (hdup : ∀ m ∈ mops, m.dupTo = [])
    (hinsts : (mops.map LoopMop.inst).Nodup) :
    Represented mops (filterAndAddMops mops) ↔ LastStrongest mops := by
  have hcollected := collected_filterAndAddMops hdup
  constructor
  · intro h before last after hmops hafter d hd haddr
    have hrev : mops.reverse = after.reverse ++ last :: before.reverse := by simp [hmops]
    have hmem : last.standingFor before.reverse ∈ filterAndAddMops mops := by
      apply List.mem_reverse.mp
      apply hcollected.kept after.reverse last before.reverse hrev
      intro m hm
      exact hafter m (List.mem_reverse.mp hm)
    have hdmops : d ∈ mops := by
      rw [hmops]
      exact List.mem_append_left _ hd
    have hbefore : (before.reverse.map LoopMop.inst).Nodup := by
      rw [hmops, List.map_append, List.nodup_append] at hinsts
      rw [List.map_reverse]
      exact List.nodup_reverse.mpr hinsts.1
    have hlast : last.dupTo = [] := hdup last (by rw [hmops]; simp)
    have hin := (inst_mem_standingFor_iff hbefore (List.mem_reverse.mpr hd) hlast).mpr haddr
    exact (h.stronger _ hmem d hdmops hin).2
  · intro h
    refine ⟨?_, ?_, ?_⟩
    · have honce := hcollected.once
      have hleft := (List.reverse_perm (filterAndAddMops mops)).flatMap_right LoopMop.delegated
      have hright := (List.reverse_perm mops).flatMap_right LoopMop.delegated
      rw [← flatMap_delegated hdup]
      exact hleft.symm.trans (honce.trans hright)
    · have horder := hcollected.order
      rw [List.map_reverse, List.map_reverse] at horder
      exact List.reverse_sublist.mp horder
    · intro r hr d hd hin
      obtain ⟨ahead, last, behind, hrev, hahead, rfl⟩ :=
        hcollected.first r (List.mem_reverse.mpr hr)
      have hmops : mops = behind.reverse ++ last :: ahead.reverse := by
        rw [← List.reverse_reverse mops, hrev]
        simp
      have hlast : last.dupTo = [] := hdup last (by rw [hmops]; simp)
      rw [LoopMop.standingFor, hlast, List.nil_append, List.mem_map] at hin
      obtain ⟨e, he, heq⟩ := hin
      rw [List.mem_filter, decide_eq_true_eq] at he
      have hemops : e ∈ mops := by
        rw [hmops]
        exact List.mem_append_left _ (List.mem_reverse.mpr he.1)
      rw [← List.inj_on_of_nodup_map hinsts hemops hd heq]
      refine ⟨he.2.symm, h behind.reverse last ahead.reverse hmops ?_ e
        (List.mem_reverse.mpr he.1) he.2⟩
      intro m hm
      exact hahead m (List.mem_reverse.mp hm)

end Strength

/-! ## A write behind a read -/

section Overwritten

/-- The body of a loop that stores a value and loads it again. -/
def storeThenLoad : Function Unit where
  blocks := [()]
  entry := ()
  insts _ := [plainStore 0, plainLoad 1]
  succs _ := [()]
  complete _ := List.mem_singleton_self _
  nodup _ := by decide
  parent _ _ _ _ _ := rfl

def storeThenLoadMops : List (LoopMop storeThenLoad) :=
  [⟨plainStore 0, (), 0, 8, [], false, true⟩, ⟨plainLoad 1, (), 0, 8, [], false, false⟩]

theorem filterAndAddMops_represented_iff_storeThenLoad :
    Represented storeThenLoadMops (filterAndAddMops storeThenLoadMops) ↔
      LastStrongest storeThenLoadMops :=
  filterAndAddMops_represented_iff (by decide) (by decide)

/-- The load represents the store, so no check of a write is left. -/
theorem storeThenLoad_weakened :
    ¬Represented storeThenLoadMops (filterAndAddMops storeThenLoadMops) := by
  intro h
  have hweak := h.stronger ⟨plainLoad 1, (), 0, 8, [plainStore 0], false, false⟩
    List.mem_cons_self ⟨plainStore 0, (), 0, 8, [], false, true⟩ List.mem_cons_self
    (List.mem_singleton_self _)
  cases hweak.2.1 <;> contradiction

end Overwritten

end Mair.LoopCheck
