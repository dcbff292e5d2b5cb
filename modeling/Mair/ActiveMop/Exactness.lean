import Mathlib.Data.Fin.VecNotation
import Mathlib.Tactic.FinCases
import Mair.ActiveMop.Lattice
import Mair.Library.Occurrence

/-! # The analysis computes the meet over all paths

A block's summary says what happens since the last occurrence of an operation within the
block; composed along a path, the transfer functions say what happens since its last
occurrence on the path. -/

namespace Mair.ActiveMop

open Ir Dataflow Occurrence

/-! ## Identifiers -/

/-- The identifier that a scan marks for an instruction. -/
def markedId (mops : List Instruction) (inst : Instruction) : Option (Fin mops.length) :=
  if isInterestingMop inst then mopId mops inst else none

section Identifiers

variable {mops : List Instruction} {inst m : Instruction} {id : Fin mops.length}

theorem foldl_mopId_spec (ids : List (Fin mops.length)) (acc : Option (Fin mops.length))
    (hacc : ∀ id, acc = some id → mops.get id = inst) :
    let found := ids.foldl (fun acc id => if mops.get id = inst then some id else acc) acc
    (∀ id, found = some id → mops.get id = inst) ∧
      ((acc.isSome = true ∨ ∃ id ∈ ids, mops.get id = inst) → found.isSome = true) := by
  induction ids generalizing acc with
  | nil => exact ⟨hacc, by simp⟩
  | cons j ids ih =>
      by_cases hj : mops.get j = inst
      · have h := ih (some j) (by rintro id ⟨⟩; exact hj)
        simp only [List.foldl_cons, if_pos hj]
        exact ⟨h.1, fun _ => h.2 (Or.inl rfl)⟩
      · have h := ih acc hacc
        simp only [List.foldl_cons, if_neg hj]
        refine ⟨h.1, ?_⟩
        rintro (hsome | ⟨id, hid, hget⟩)
        · exact h.2 (Or.inl hsome)
        · rcases List.mem_cons.mp hid with rfl | hid
          · exact absurd hget hj
          · exact h.2 (Or.inr ⟨id, hid, hget⟩)

theorem get_of_mopId (h : mopId mops inst = some id) : mops.get id = inst :=
  (foldl_mopId_spec (List.finRange mops.length) none (by simp)).1 id h

theorem exists_mopId (h : inst ∈ mops) : ∃ id, mopId mops inst = some id := by
  obtain ⟨id, hid⟩ := List.get_of_mem h
  have hfound := (foldl_mopId_spec (List.finRange mops.length) none (by simp)).2
    (Or.inr ⟨id, List.mem_finRange id, hid⟩)
  exact Option.isSome_iff_exists.mp hfound

theorem markedId_eq_some (hm : isInterestingMop m = true) (h : mopId mops m = some id) :
    markedId mops m = some id := by
  rw [markedId, if_pos hm, h]

/-- Two marked instructions with one identifier are the same instruction. -/
theorem markedId_inj (hinst : markedId mops inst = some id) (hm : markedId mops m = some id) :
    m = inst := by
  unfold markedId at hinst hm
  split at hinst
  · split at hm
    · rw [← get_of_mopId hm, ← get_of_mopId hinst]
    · cases hm
  · cases hinst

end Identifiers

/-! ## Block summaries -/

section Summaries

variable {mops : List Instruction} {m : Instruction} {id : Fin mops.length}
  {usedForTsan : Bool}

theorem scanStep_eq (inst : Instruction) (acc : Scan mops.length) :
    scanStep mops usedForTsan inst acc =
      match markedId mops inst with
      | none => acc.note usedForTsan inst
      | some id => (acc.note usedForTsan inst).set id := by
  unfold scanStep markedId
  cases isInterestingMop inst <;> rfl

theorem note_acq (inst : Instruction) (acc : Scan mops.length) :
    (acc.note true inst).containsAcq = (acc.containsAcq || isAcquire inst) := by
  simp [Scan.note, getAtomicInsnOrder_eq]

theorem note_rel (inst : Instruction) (acc : Scan mops.length) :
    (acc.note true inst).containsRel = (acc.containsRel || isRelease inst) := by
  simp [Scan.note, getAtomicInsnOrder_eq]

theorem scanStep_containsCall (inst : Instruction) (acc : Scan mops.length) :
    (scanStep mops usedForTsan inst acc).containsCall =
      (acc.containsCall || isClobberingCall inst) := by
  rw [scanStep_eq]
  cases markedId mops inst <;> rfl

theorem scanStep_containsAcq (inst : Instruction) (acc : Scan mops.length) :
    (scanStep mops true inst acc).containsAcq = (acc.containsAcq || isAcquire inst) := by
  rw [scanStep_eq, ← note_acq]
  cases markedId mops inst <;> rfl

theorem scanStep_containsRel (inst : Instruction) (acc : Scan mops.length) :
    (scanStep mops true inst acc).containsRel = (acc.containsRel || isRelease inst) := by
  rw [scanStep_eq, ← note_rel]
  cases markedId mops inst <;> rfl

theorem mem_scanStep_useGen (inst : Instruction) (acc : Scan mops.length) :
    id ∈ (scanStep mops usedForTsan inst acc).useGen ↔
      markedId mops inst = some id ∨ id ∈ acc.useGen := by
  rw [scanStep_eq]
  cases markedId mops inst with
  | none => simp [Scan.note]
  | some j => simp [Scan.note, Scan.set, @eq_comm _ id j]

/-- Membership in a set that takes the marked bit under a condition. -/
theorem mem_ite_insert_iff {c : Bool} {j : Fin mops.length} {s : Finset (Fin mops.length)} :
    id ∈ (if c then insert j s else s) ↔ (some j = some id ∧ c = true) ∨ id ∈ s := by
  cases c <;> simp [@eq_comm _ id j]

theorem mem_scanStep_gen (inst : Instruction) (acc : Scan mops.length) :
    id ∈ (scanStep mops usedForTsan inst acc).gen ↔
      (markedId mops inst = some id ∧ (acc.containsCall || isClobberingCall inst) = true) ∨
        id ∈ acc.gen := by
  rw [scanStep_eq]
  cases markedId mops inst with
  | none => simp [Scan.note]
  | some j => exact mem_ite_insert_iff

theorem mem_scanStep_genAcq (inst : Instruction) (acc : Scan mops.length) :
    id ∈ (scanStep mops true inst acc).genAcq ↔
      (markedId mops inst = some id ∧ (acc.containsAcq || isAcquire inst) = true) ∨
        id ∈ acc.genAcq := by
  rw [scanStep_eq, ← note_acq]
  cases markedId mops inst with
  | none => simp [Scan.note]
  | some j => exact mem_ite_insert_iff

theorem mem_scanStep_genRel (inst : Instruction) (acc : Scan mops.length) :
    id ∈ (scanStep mops true inst acc).genRel ↔
      (markedId mops inst = some id ∧ (acc.containsRel || isRelease inst) = true) ∨
        id ∈ acc.genRel := by
  rw [scanStep_eq, ← note_rel]
  cases markedId mops inst with
  | none => simp [Scan.note]
  | some j => exact mem_ite_insert_iff

theorem scanBlock_cons (inst : Instruction) (insts : List Instruction) :
    scanBlock mops usedForTsan (inst :: insts) =
      scanStep mops usedForTsan inst (scanBlock mops usedForTsan insts) := rfl

theorem scanBlock_containsCall (insts : List Instruction) :
    (scanBlock mops usedForTsan insts).containsCall = true ↔
      ∃ i ∈ insts, isClobberingCall i = true := by
  induction insts with
  | nil => simp [scanBlock]
  | cons inst insts ih =>
      rw [scanBlock_cons, scanStep_containsCall, Bool.or_eq_true, ih]
      simp [or_comm]

theorem scanBlock_containsAcq (insts : List Instruction) :
    (scanBlock mops true insts).containsAcq = true ↔ ∃ i ∈ insts, isAcquire i = true := by
  induction insts with
  | nil => simp [scanBlock]
  | cons inst insts ih =>
      rw [scanBlock_cons, scanStep_containsAcq, Bool.or_eq_true, ih]
      simp [or_comm]

theorem scanBlock_containsRel (insts : List Instruction) :
    (scanBlock mops true insts).containsRel = true ↔ ∃ i ∈ insts, isRelease i = true := by
  induction insts with
  | nil => simp [scanBlock]
  | cons inst insts ih =>
      rw [scanBlock_cons, scanStep_containsRel, Bool.or_eq_true, ih]
      simp [or_comm]

theorem mem_scanBlock_useGen (hm : markedId mops m = some id) (insts : List Instruction) :
    id ∈ (scanBlock mops usedForTsan insts).useGen ↔ m ∈ insts := by
  induction insts with
  | nil => simp [scanBlock]
  | cons inst insts ih =>
      rw [scanBlock_cons, mem_scanStep_useGen, ih, List.mem_cons]
      constructor
      · rintro (h | h)
        · exact Or.inl (markedId_inj h hm)
        · exact Or.inr h
      · rintro (rfl | h)
        · exact Or.inl hm
        · exact Or.inr h

/-- A bit that each marked instruction sets when a barrier follows it says that a barrier
occurs since the last occurrence. -/
theorem scan_sinceLast_iff {p : Instruction → Bool} (member : List Instruction → Prop)
    (hnil : ¬member [])
    (hcons : ∀ inst insts, member (inst :: insts) ↔
      (markedId mops inst = some id ∧ ∃ i ∈ inst :: insts, p i = true) ∨ member insts)
    (hm : markedId mops m = some id) {insts : List Instruction} (hnodup : insts.Nodup) :
    member insts ↔ SinceLast p m insts := by
  induction insts with
  | nil => exact iff_of_false hnil not_sinceLast_nil
  | cons inst insts ih =>
      obtain ⟨hnot, hnodup⟩ := List.nodup_cons.mp hnodup
      rw [hcons, ih hnodup, sinceLast_cons, or_comm]
      apply or_congr_right
      constructor
      · rintro ⟨hmark, hex⟩
        have heq := markedId_inj hmark hm
        exact ⟨heq ▸ hnot, heq, hex⟩
      · rintro ⟨-, rfl, hex⟩
        exact ⟨hm, hex⟩

theorem mem_scanBlock_gen (hm : markedId mops m = some id) {insts : List Instruction}
    (hnodup : insts.Nodup) :
    id ∈ (scanBlock mops usedForTsan insts).gen ↔ SinceLast isClobberingCall m insts := by
  refine scan_sinceLast_iff (fun insts => id ∈ (scanBlock mops usedForTsan insts).gen) ?_ ?_ hm hnodup
  · simp [scanBlock]
  · intro inst insts
    rw [scanBlock_cons, mem_scanStep_gen, Bool.or_eq_true, scanBlock_containsCall]
    simp [or_comm]

theorem mem_scanBlock_genAcq (hm : markedId mops m = some id) {insts : List Instruction}
    (hnodup : insts.Nodup) :
    id ∈ (scanBlock mops true insts).genAcq ↔ SinceLast isAcquire m insts := by
  refine scan_sinceLast_iff (fun insts => id ∈ (scanBlock mops true insts).genAcq) ?_ ?_ hm hnodup
  · simp [scanBlock]
  · intro inst insts
    rw [scanBlock_cons, mem_scanStep_genAcq, Bool.or_eq_true, scanBlock_containsAcq]
    simp [or_comm]

theorem mem_scanBlock_genRel (hm : markedId mops m = some id) {insts : List Instruction}
    (hnodup : insts.Nodup) :
    id ∈ (scanBlock mops true insts).genRel ↔ SinceLast isRelease m insts := by
  refine scan_sinceLast_iff (fun insts => id ∈ (scanBlock mops true insts).genRel) ?_ ?_ hm hnodup
  · simp [scanBlock]
  · intro inst insts
    rw [scanBlock_cons, mem_scanStep_genRel, Bool.or_eq_true, scanBlock_containsRel]
    simp [or_comm]

end Summaries

/-! ## Paths -/

section Paths

variable {β : Type*} [DecidableEq β] {f : Function β} {mops : List Instruction}
  {usedForTsan : Bool} {m : Instruction} {id : Fin mops.length}

theorem activeSystem_transfer (b : β) (a : Lattice mops.length usedForTsan) :
    (activeSystem f mops usedForTsan).transfer b a =
      transfer (getInitializedBlockInfo mops usedForTsan (f.insts b)) a := rfl

theorem mem_useGen_iff (hm : markedId mops m = some id) (insts : List Instruction) :
    id ∈ (getInitializedBlockInfo mops usedForTsan insts).useGen ↔ m ∈ insts :=
  mem_scanBlock_useGen hm insts

theorem mem_notUseGen_iff (hm : markedId mops m = some id) (insts : List Instruction) :
    id ∈ (getInitializedBlockInfo mops usedForTsan insts).notUseGen ↔ m ∉ insts := by
  simp [getInitializedBlockInfo, mem_scanBlock_useGen hm]

theorem mem_reachable_pathValue (hm : markedId mops m = some id) (p : List β) :
    id ∈ ((activeSystem f mops usedForTsan).pathValue p).reachable ↔ m ∈ f.trace p := by
  induction p using List.reverseRecOn with
  | nil => simp [System.pathValue, Function.trace]
  | append_singleton p b ih =>
      rw [System.pathValue_snoc, Function.trace_snoc, List.mem_append, activeSystem_transfer,
        transfer_reachable, Finset.mem_union, ih, mem_useGen_iff hm]

/-- The barrier vector after one more block, read as facts about the longer trace. -/
theorem mem_throughBlock_iff {p : Instruction → Bool} {tr seg : List Instruction}
    {invariant : BlockInvariant mops.length} {contains : Bool}
    {gen reachable barrier : Finset (Fin mops.length)}
    (huse : id ∈ invariant.notUseGen ↔ m ∉ seg) (hgen : id ∈ gen ↔ SinceLast p m seg)
    (hcontains : contains = true ↔ ∃ i ∈ seg, p i = true) (hreach : id ∈ reachable ↔ m ∈ tr)
    (hbarrier : id ∈ barrier ↔ SinceLast p m tr) :
    id ∈ throughBlock invariant contains gen reachable barrier ↔ SinceLast p m (tr ++ seg) := by
  have hcarry : id ∈ (if contains then reachable else barrier) ↔
      SinceLast p m tr ∨ (m ∈ tr ∧ ∃ i ∈ seg, p i = true) := by
    rw [← hcontains, ← hreach, ← hbarrier]
    cases contains with
    | false => simp
    | true =>
        have hsub : id ∈ barrier → id ∈ reachable := fun h => hreach.mpr (hbarrier.mp h).mem
        simp only [if_true, and_true]
        exact ⟨Or.inr, fun h => h.elim hsub fun h => h⟩
  rw [throughBlock, Finset.mem_union, Finset.mem_inter, hcarry, huse, hgen, sinceLast_append]
  exact or_comm.trans (or_congr_right and_comm)

theorem mem_notActive_pathValue (hm : markedId mops m = some id) (p : List β) :
    id ∈ ((activeSystem f mops usedForTsan).pathValue p).notActive ↔
      SinceLast isClobberingCall m (f.trace p) := by
  induction p using List.reverseRecOn with
  | nil => exact iff_of_false (by simp [System.pathValue]) not_sinceLast_nil
  | append_singleton p b ih =>
      rw [System.pathValue_snoc, Function.trace_snoc, activeSystem_transfer, transfer_notActive]
      exact mem_throughBlock_iff (mem_notUseGen_iff hm _) (mem_scanBlock_gen hm (f.nodup b))
        (scanBlock_containsCall _) (mem_reachable_pathValue hm p) ih

theorem mem_anyAcq_pathValue (hm : markedId mops m = some id) (p : List β) :
    id ∈ ((activeSystem f mops true).pathValue p).anyAcq ↔
      SinceLast isAcquire m (f.trace p) := by
  induction p using List.reverseRecOn with
  | nil => exact iff_of_false (by simp [System.pathValue]) not_sinceLast_nil
  | append_singleton p b ih =>
      rw [System.pathValue_snoc, Function.trace_snoc, activeSystem_transfer, transfer_anyAcq]
      exact mem_throughBlock_iff (mem_notUseGen_iff hm _) (mem_scanBlock_genAcq hm (f.nodup b))
        (scanBlock_containsAcq _) (mem_reachable_pathValue hm p) ih

theorem mem_anyRel_pathValue (hm : markedId mops m = some id) (p : List β) :
    id ∈ ((activeSystem f mops true).pathValue p).anyRel ↔
      SinceLast isRelease m (f.trace p) := by
  induction p using List.reverseRecOn with
  | nil => exact iff_of_false (by simp [System.pathValue]) not_sinceLast_nil
  | append_singleton p b ih =>
      rw [System.pathValue_snoc, Function.trace_snoc, activeSystem_transfer, transfer_anyRel]
      exact mem_throughBlock_iff (mem_notUseGen_iff hm _) (mem_scanBlock_genRel hm (f.nodup b))
        (scanBlock_containsRel _) (mem_reachable_pathValue hm p) ih

end Paths

/-! ## Exactness of the solved analysis -/

/-- The four bits of an operation at the entry of a block, as facts about the paths to it. -/
structure EntryExact {β : Type*} (f : Function β) (m : Instruction) (b : β) {numMops : ℕ}
    {usedForTsan : Bool} (id : Fin numMops) (a : Lattice numMops usedForTsan) : Prop where
  reachable : id ∈ a.reachable ↔ ∃ p, f.PathFrom f.entry p b ∧ m ∈ f.trace p
  notActive : id ∈ a.notActive ↔
    ∃ p, f.PathFrom f.entry p b ∧ SinceLast isClobberingCall m (f.trace p)
  anyAcq : usedForTsan = true →
    (id ∈ a.anyAcq ↔ ∃ p, f.PathFrom f.entry p b ∧ SinceLast isAcquire m (f.trace p))
  anyRel : usedForTsan = true →
    (id ∈ a.anyRel ↔ ∃ p, f.PathFrom f.entry p b ∧ SinceLast isRelease m (f.trace p))

section Exactness

variable {β : Type*} [DecidableEq β] {f : Function β} {mops : List Instruction}
  {usedForTsan : Bool} {m : Instruction} {id : Fin mops.length}
  {s : State β (Lattice mops.length usedForTsan)}

theorem entryExact_of_solution (h : Solution (activeSystem f mops usedForTsan) s)
    (hm : markedId mops m = some id) {b : β} (hb : f.ReachableBlock b) :
    EntryExact f m b id (s.inn b) where
  reachable := by
    rw [h.inn_iff b hb (fun a => id ∈ a.reachable) (fun x y => by simp) (by simp)]
    simp only [mem_reachable_pathValue hm]
    rfl
  notActive := by
    rw [h.inn_iff b hb (fun a => id ∈ a.notActive) (fun x y => by simp) (by simp)]
    simp only [mem_notActive_pathValue hm]
    rfl
  anyAcq ht := by
    subst ht
    rw [h.inn_iff b hb (fun a => id ∈ a.anyAcq) (fun x y => by simp) (by simp)]
    simp only [mem_anyAcq_pathValue hm]
    rfl
  anyRel ht := by
    subst ht
    rw [h.inn_iff b hb (fun a => id ∈ a.anyRel) (fun x y => by simp) (by simp)]
    simp only [mem_anyRel_pathValue hm]
    rfl

omit [DecidableEq β] in
/-- If no path to `b` has `p` since the last `m`, then after the last `m` of each path
that executes `m` there is no `p`. -/
theorem free_after_last {p : Instruction → Bool} {b : β} {path : List β}
    (hnone : ¬∃ path, f.PathFrom f.entry path b ∧ SinceLast p m (f.trace path))
    (hpath : f.PathFrom f.entry path b) {pre post : List Instruction}
    (hsplit : LastSplit m (f.trace path) pre post) : ∀ i ∈ m :: post, p i = false := by
  intro i hi
  by_contra hp
  exact hnone ⟨path, hpath, pre, post, hsplit, i, hi, by simpa using hp⟩

/-- A block generates barrier bits only for operations that it generates. -/
theorem scanBlock_gen_subset (insts : List Instruction) :
    (scanBlock mops usedForTsan insts).gen ⊆ (scanBlock mops usedForTsan insts).useGen := by
  induction insts with
  | nil => exact Finset.Subset.refl _
  | cons inst insts ih =>
      intro j hj
      rw [scanBlock_cons, mem_scanStep_gen] at hj
      rw [scanBlock_cons, mem_scanStep_useGen]
      exact hj.imp And.left fun h => ih h

theorem scanBlock_genAcq_subset (insts : List Instruction) :
    (scanBlock mops true insts).genAcq ⊆ (scanBlock mops true insts).useGen := by
  induction insts with
  | nil => exact Finset.Subset.refl _
  | cons inst insts ih =>
      intro j hj
      rw [scanBlock_cons, mem_scanStep_genAcq] at hj
      rw [scanBlock_cons, mem_scanStep_useGen]
      exact hj.imp And.left fun h => ih h

theorem scanBlock_genRel_subset (insts : List Instruction) :
    (scanBlock mops true insts).genRel ⊆ (scanBlock mops true insts).useGen := by
  induction insts with
  | nil => exact Finset.Subset.refl _
  | cons inst insts ih =>
      intro j hj
      rw [scanBlock_cons, mem_scanStep_genRel] at hj
      rw [scanBlock_cons, mem_scanStep_useGen]
      exact hj.imp And.left fun h => ih h

theorem throughBlock_subset {numMops : ℕ} (invariant : BlockInvariant numMops) (contains : Bool)
    {gen reachable barrier : Finset (Fin numMops)} (hgen : gen ⊆ invariant.useGen)
    (hbarrier : barrier ⊆ reachable) :
    throughBlock invariant contains gen reachable barrier ⊆ reachable ∪ invariant.useGen := by
  refine Finset.union_subset ?_ (hgen.trans Finset.subset_union_right)
  refine Finset.inter_subset_left.trans (Finset.Subset.trans ?_ Finset.subset_union_left)
  cases contains with
  | false => exact hbarrier
  | true => exact Finset.Subset.refl _

/-- The barrier vectors never leave the reachable one. -/
theorem within_stable (f : Function β) (mops : List Instruction) (usedForTsan : Bool) :
    Stable (activeSystem f mops usedForTsan) Lattice.Within where
  bot := ⟨Finset.Subset.refl _, Finset.Subset.refl _, Finset.Subset.refl _⟩
  sup hx hy := by
    refine ⟨?_, ?_, ?_⟩ <;> simp only [Lattice.sup_reachable, Lattice.sup_notActive,
      Lattice.sup_anyAcq, Lattice.sup_anyRel]
    · exact Finset.union_subset_union hx.notActive hy.notActive
    · exact Finset.union_subset_union hx.anyAcq hy.anyAcq
    · exact Finset.union_subset_union hx.anyRel hy.anyRel
  transfer b x hx := by
    rw [activeSystem_transfer]
    refine ⟨?_, ?_, ?_⟩
    · rw [transfer_notActive, transfer_reachable]
      exact throughBlock_subset _ _ (scanBlock_gen_subset _) hx.notActive
    · cases usedForTsan with
      | false => simp [Lattice.asanAcq _ rfl]
      | true =>
          rw [transfer_anyAcq, transfer_reachable]
          exact throughBlock_subset _ _ (scanBlock_genAcq_subset _) hx.anyAcq
    · cases usedForTsan with
      | false => simp [Lattice.asanRel _ rfl]
      | true =>
          rw [transfer_anyRel, transfer_reachable]
          exact throughBlock_subset _ _ (scanBlock_genRel_subset _) hx.anyRel

theorem isActive_iff {numMops : ℕ} {a : Lattice numMops usedForTsan} {id : Fin numMops} :
    a.isActive id = true ↔ id ∈ a.reachable ∧ id ∉ a.notActive := by
  simp [Lattice.isActive]

theorem isActiveOrdered_iff {numMops : ℕ} {a : Lattice numMops usedForTsan} {id : Fin numMops}
    {acq : Bool} : a.isActiveOrdered id acq = true ↔
      a.isActive id = true ∧ id ∉ (if acq then a.anyAcq else a.anyRel) := by
  cases acq <;> simp [Lattice.isActiveOrdered]

/-- What activity at the entry of `b` promises about a dominating operation: after its last
execution on each path to `b` there is no clobbering call and, in TSan mode, no barrier of
the queried kind. -/
structure EntryActive {β : Type*} (f : Function β) (fromI : Instruction) (b : β) {numMops : ℕ}
    {usedForTsan : Bool} (id : Fin numMops) (a : Lattice numMops usedForTsan) : Prop where
  noCall : a.isActive id = true → ∀ path, f.PathFrom f.entry path b →
    ∃ pre post, LastSplit fromI (f.trace path) pre post ∧
      ∀ i ∈ post, isClobberingCall i = false
  noBarrier : usedForTsan = true → ∀ acq, a.isActiveOrdered id acq = true →
    ∀ path, f.PathFrom f.entry path b → ∃ pre post, LastSplit fromI (f.trace path) pre post ∧
      ∀ i ∈ post, isClobberingCall i = false ∧
        (if acq then isAcquire i else isRelease i) = false

omit [DecidableEq β] in
theorem EntryExact.entryActive {b : β} {a : Lattice mops.length usedForTsan}
    (h : EntryExact f m b id a) (hdom : f.DominatesEntry m b) : EntryActive f m b id a where
  noCall hactive path hpath := by
    obtain ⟨pre, post, hsplit⟩ := exists_lastSplit (hdom path hpath)
    have hcall := mt h.notActive.mpr (isActive_iff.mp hactive).2
    exact ⟨pre, post, hsplit, fun i hi =>
      free_after_last hcall hpath hsplit i (List.mem_cons_of_mem _ hi)⟩
  noBarrier ht acq hactive path hpath := by
    obtain ⟨hplain, hordered⟩ := isActiveOrdered_iff.mp hactive
    obtain ⟨pre, post, hsplit⟩ := exists_lastSplit (hdom path hpath)
    have hcall := mt h.notActive.mpr (isActive_iff.mp hplain).2
    refine ⟨pre, post, hsplit, fun i hi => ⟨free_after_last hcall hpath hsplit i
      (List.mem_cons_of_mem _ hi), ?_⟩⟩
    cases acq with
    | false =>
        exact free_after_last (mt (h.anyRel ht).mpr hordered) hpath hsplit i
          (List.mem_cons_of_mem _ hi)
    | true =>
        exact free_after_last (mt (h.anyAcq ht).mpr hordered) hpath hsplit i
          (List.mem_cons_of_mem _ hi)

end Exactness

/-! ## The analysis as a whole -/

/-- The analysis stops, its entry values are the meets over all paths whatever the visiting
order, its barrier vectors stay within the reachable one, and activity of a dominating
operation excludes calls and barriers since its last execution. -/
theorem dataflow_exact {β : Type*} [DecidableEq β] (f : Function β) (mops : List Instruction)
    (usedForTsan : Bool) (order : List β) (horder : ∀ b, b ∈ order ↔ f.ReachableBlock b) :
    (∃ s : State β (Lattice mops.length usedForTsan),
      (∀ fuel, analysisFuel f mops ≤ fuel →
        dataflowAnalyze f mops usedForTsan order fuel = some s) ∧
      (∀ b, f.ReachableBlock b → ∀ m ∈ mops, isInterestingMop m = true →
        ∃ id, mopId mops m = some id ∧ EntryExact f m b id (s.inn b) ∧
          (f.DominatesEntry m b → EntryActive f m b id (s.inn b))) ∧
      ∀ order', (∀ b, b ∈ order' ↔ f.ReachableBlock b) → ∀ s',
        Relation.ReflTransGen (Step (activeSystem f mops usedForTsan))
          (State.sweep (activeSystem f mops usedForTsan) order') s' → s'.work = [] →
        ∀ b, f.ReachableBlock b → s'.inn b = s.inn b ∧ s'.out b = s.out b) ∧
    ∀ s', Intermediate (activeSystem f mops usedForTsan) order s' →
      ∀ b, (s'.inn b).Within ∧ (s'.out b).Within := by
  obtain ⟨s, hdrain, hsolution⟩ : ∃ s,
      (∀ fuel, analysisFuel f mops ≤ fuel →
        dataflowAnalyze f mops usedForTsan order fuel = some s) ∧
      Solution (activeSystem f mops usedForTsan) s :=
    solve_spec (activeSystem f mops usedForTsan) Lattice.ranked horder
  refine ⟨⟨s, hdrain, ?_, ?_⟩, fun s' hs' => (within_stable f mops usedForTsan).intermediate hs'⟩
  · intro b hb m hmem hm
    obtain ⟨id, hid⟩ := exists_mopId hmem
    have hexact := entryExact_of_solution hsolution (markedId_eq_some hm hid) hb
    exact ⟨id, hid, hexact, hexact.entryActive⟩
  · intro order' horder' s' hsteps hwork b hb
    exact (solution_of_steps horder' hsteps hwork).unique hsolution hb

/-- Block 1 stores in a loop whose back edge makes a call; block 3 stores again behind it. -/
def retryLoop : Function (Fin 4) where
  blocks := [0, 1, 2, 3]
  entry := 0
  insts := ![[], [plainStore 0], [plainCall 1], [plainStore 2]]
  succs := ![[1], [2, 3], [1], []]
  complete := by decide
  nodup := by decide
  parent := by
    intro b b' inst hb hb'
    fin_cases b <;> fin_cases b' <;> simp_all [plainStore, plainCall]

theorem retryLoop_reachable (b : Fin 4) : retryLoop.ReachableBlock b := by
  have h0 : retryLoop.PathFrom 0 [] 0 := .nil
  have h1 : retryLoop.PathFrom 0 [0] 1 := h0.snoc (by decide)
  have h2 : retryLoop.PathFrom 0 [0, 1] 2 := h1.snoc (by decide)
  have h3 : retryLoop.PathFrom 0 [0, 1] 3 := h1.snoc (by decide)
  fin_cases b
  · exact ⟨_, h0⟩
  · exact ⟨_, h1⟩
  · exact ⟨_, h2⟩
  · exact ⟨_, h3⟩

theorem dataflow_exact_retryLoop :
    ∃ s, ∀ fuel, analysisFuel retryLoop [plainStore 0, plainStore 2] ≤ fuel →
      dataflowAnalyze retryLoop [plainStore 0, plainStore 2] true [0, 1, 2, 3] fuel = some s := by
  have horder : ∀ b, b ∈ [0, 1, 2, 3] ↔ retryLoop.ReachableBlock b := fun b =>
    iff_of_true (by fin_cases b <;> decide) (retryLoop_reachable b)
  obtain ⟨⟨s, hdrain, -⟩, -⟩ :=
    dataflow_exact retryLoop [plainStore 0, plainStore 2] true [0, 1, 2, 3] horder
  exact ⟨s, hdrain⟩

end Mair.ActiveMop
