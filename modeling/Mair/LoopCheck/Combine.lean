import Mair.LoopCheck.Counter
import Mair.LoopCheck.Model

/-! # The pass that combines periodic checks

The candidates in simple loops, their duplicates, and the candidates whose check moves behind
the loop of their address. -/

namespace Mair.LoopCheck

open Ir Platform

variable {β : Type*}

/-! ## What the pass asks the compiler -/

/-- A recurrence over the iterations of a loop; `constStep` is a step known to the compiler. -/
structure AddRec (f : Function β) where
  loop : Loop f
  isAffine : Bool
  constStep : Option Uptr
  safeToExpand : Bool

/-- The scalar evolution of an address: a recurrence, a sum that the rewriter turns into one
over a counter of its own width, or neither. -/
inductive AddressScev (f : Function β) where
  | addRec (ar : AddRec f)
  | rewritten (ar : AddRec f) (counterBits : ℕ) (pos : 0 < counterBits)
      (baseOffsetIsZero : Bool)
  | other

structure Analyses (f : Function β) where
  getLoopFor : β → Option (Loop f)
  dt : DominatorTree f
  address : Instruction → ℕ
  sizeInBits : Instruction → ℕ
  shouldInstrument : Instruction → Bool
  scev : Instruction → AddressScev f
  backedgeTakenBits : Loop f → Option ℕ
  phis : Loop f → List (Phi β)

/-! ## Candidates -/

structure LoopMop (f : Function β) where
  inst : Instruction
  block : β
  address : ℕ
  mopSize : ℕ
  dupTo : List Instruction
  inBranch : Bool
  isWrite : Bool

section Pass

variable {f : Function β}

/-- Adds an access to the accesses behind it: as a duplicate when one of them has the same
address. -/
def addMop (seen : List (LoopMop f)) (mop : LoopMop f) : List (LoopMop f) :=
  if seen.any fun other => other.address = mop.address then
    seen.map fun other =>
      if other.address = mop.address then { other with dupTo := other.dupTo ++ [mop.inst] }
      else other
  else seen ++ [mop]

def filterAndAddMops (mops : List (LoopMop f)) : List (LoopMop f) :=
  (mops.reverse.foldl addMop []).reverse

/-- The access of an instruction, unless it is of no interest. -/
def loopMop (a : Analyses f) (b : β) (inBranch : Bool) (inst : Instruction) :
    Option (LoopMop f) :=
  if !a.shouldInstrument inst then none
  else if a.sizeInBits inst ∈ [8, 16, 32, 64, 128] then
    some ⟨inst, b, a.address inst, a.sizeInBits inst / 8, [], inBranch, inst.isStore⟩
  else none

/-- The candidates of a block, where `segment` holds those since the last call. -/
def collectFrom (a : Analyses f) (b : β) (inBranch : Bool) :
    List Instruction → List (LoopMop f) → List (LoopMop f)
  | [], segment => filterAndAddMops segment
  | inst :: rest, segment =>
      if inst.nosanitize || inst.isVolatile || inst.isAtomic || inst.isDbgInfo then
        collectFrom a b inBranch rest segment
      else if inst.isStore || inst.isLoad then
        collectFrom a b inBranch rest (segment ++ (loopMop a b inBranch inst).toList)
      else if inst.isCall && inst.mayWriteToMemory then
        filterAndAddMops segment ++ collectFrom a b inBranch rest []
      else collectFrom a b inBranch rest segment

variable [DecidableEq β]

def collectLoopMopCandidates (a : Analyses f) : List (LoopMop f) :=
  f.blocks.flatMap fun b =>
    match a.getLoopFor b with
    | none => []
    | some l =>
        match l.getLoopLatch with
        | none => []
        | some latch =>
            if l.isSimpleLoop then collectFrom a b (!a.dt.dominates b latch) (f.insts b) []
            else []

/-! ## Combined checks -/

structure CombinedCheck (f : Function β) where
  mop : LoopMop f
  loop : Loop f
  constStep : Option Uptr
  counterBits : ℕ
  counting : Counting
  beforeExiting : Bool
  site : CheckSite β

/-- The recurrence of an address and the width of its counter. -/
def getAddRec : AddressScev f → Option (AddRec f × ℕ)
  | .addRec ar => some (ar, 64)
  | .rewritten ar counterBits _ baseOffsetIsZero =>
      if counterBits < 64 && !baseOffsetIsZero then none else some (ar, counterBits)
  | .other => none

/-- The counter that the expansion uses, when it does not fail. -/
def getCounting (a : Analyses f) (l : Loop f) (counterBits : ℕ) : Option Counting :=
  match a.backedgeTakenBits l with
  | some bits => some (.backedgeTaken bits)
  | none => getOrInsertLoopCounter l (a.phis l) counterBits

def combineMop (a : Analyses f) (rangeAccessOnly : Bool) (mop : LoopMop f) :
    Option (CombinedCheck f) :=
  if mop.inBranch then none
  else
    (getAddRec (a.scev mop.inst)).bind fun (ar, counterBits) =>
      if !ar.isAffine || !ar.loop.isSimpleLoop then none
      else
        let isRange := ar.constStep.any fun step => isRangeAccess true step mop.mopSize
        if rangeAccessOnly && !isRange then none
        else
          ar.loop.getExitingBlock.bind fun exiting =>
            ar.loop.getUniqueExitBlock.bind fun exit =>
              if !ar.safeToExpand then none
              else
                (getCounting a ar.loop counterBits).map fun counting =>
                  ⟨mop, ar.loop, ar.constStep, counterBits, counting,
                    a.dt.dominates mop.block exiting, checkSite f exiting exit⟩

def combinePeriodicChecks (a : Analyses f) (rangeAccessOnly : Bool) : List (CombinedCheck f) :=
  (collectLoopMopCandidates a).filterMap (combineMop a rangeAccessOnly)

end Pass

/-- The instructions whose own check is dropped. -/
def LoopMop.delegated {f : Function β} (mop : LoopMop f) : List Instruction :=
  mop.inst :: mop.dupTo

/-! ## What the candidates are -/

/-- All instructions of a candidate lie in its block and access its address. -/
structure LoopMop.Valid {f : Function β} (a : Analyses f) (b : β) (inBranch : Bool)
    (mop : LoopMop f) : Prop where
  block : mop.block = b
  inBranch : mop.inBranch = inBranch
  size : mop.mopSize ∈ [1, 2, 4, 8, 16]
  insts : ∀ inst ∈ mop.delegated, inst ∈ f.insts b ∧ a.address inst = mop.address

section Candidates

variable {f : Function β} {a : Analyses f} {b : β} {inBranch : Bool}

theorem valid_addMop {seen : List (LoopMop f)} {mop : LoopMop f}
    (hseen : ∀ other ∈ seen, other.Valid a b inBranch) (hmop : mop.Valid a b inBranch) :
    ∀ other ∈ addMop seen mop, other.Valid a b inBranch := by
  intro other hother
  rw [addMop] at hother
  split at hother
  · obtain ⟨r, hr, rfl⟩ := List.mem_map.mp hother
    have hvalid := hseen r hr
    split
    · next haddr =>
        refine ⟨hvalid.block, hvalid.inBranch, hvalid.size, ?_⟩
        intro inst hinst
        rw [LoopMop.delegated, ← List.cons_append, List.mem_append, List.mem_singleton] at hinst
        rcases hinst with hinst | rfl
        · exact hvalid.insts inst hinst
        · have hown := hmop.insts mop.inst List.mem_cons_self
          exact ⟨hown.1, hown.2.trans haddr.symm⟩
    · exact hvalid
  · rcases List.mem_append.mp hother with h | h
    · exact hseen other h
    · rw [List.mem_singleton.mp h]
      exact hmop

theorem valid_filterAndAddMops {mops : List (LoopMop f)}
    (h : ∀ mop ∈ mops, mop.Valid a b inBranch) :
    ∀ mop ∈ filterAndAddMops mops, mop.Valid a b inBranch := by
  have hfold : ∀ (rest seen : List (LoopMop f)), (∀ mop ∈ rest, mop.Valid a b inBranch) →
      (∀ mop ∈ seen, mop.Valid a b inBranch) →
      ∀ mop ∈ rest.foldl addMop seen, mop.Valid a b inBranch := by
    intro rest
    induction rest with
    | nil =>
        intro seen _ hseen
        exact hseen
    | cons mop rest ih =>
        intro seen hrest hseen
        have hmop := hrest mop List.mem_cons_self
        exact ih _ (fun m hm => hrest m (List.mem_cons_of_mem _ hm)) (valid_addMop hseen hmop)
  intro mop hmop
  rw [filterAndAddMops, List.mem_reverse] at hmop
  refine hfold mops.reverse [] ?_ (by simp) mop hmop
  intro m hm
  exact h m (List.mem_reverse.mp hm)

theorem valid_loopMop {inst : Instruction} {mop : LoopMop f} (hinst : inst ∈ f.insts b)
    (h : loopMop a b inBranch inst = some mop) : mop.Valid a b inBranch := by
  rw [loopMop] at h
  split at h
  · cases h
  · split at h
    · next hsize =>
        cases h
        refine ⟨rfl, rfl, ?_, ?_⟩
        · simp only [List.mem_cons, List.not_mem_nil, or_false] at hsize ⊢
          omega
        · intro i hi
          rw [List.mem_singleton.mp hi]
          exact ⟨hinst, rfl⟩
    · cases h

theorem valid_collectFrom {insts : List Instruction} {segment : List (LoopMop f)}
    (hinsts : ∀ inst ∈ insts, inst ∈ f.insts b)
    (hsegment : ∀ mop ∈ segment, mop.Valid a b inBranch) :
    ∀ mop ∈ collectFrom a b inBranch insts segment, mop.Valid a b inBranch := by
  induction insts generalizing segment with
  | nil => exact valid_filterAndAddMops hsegment
  | cons inst rest ih =>
      have hrest : ∀ i ∈ rest, i ∈ f.insts b := fun i hi => hinsts i (List.mem_cons_of_mem _ hi)
      have hinst := hinsts inst List.mem_cons_self
      rw [collectFrom]
      split
      · exact ih hrest hsegment
      · split
        · refine ih hrest ?_
          intro mop hmop
          rcases List.mem_append.mp hmop with hmop | hmop
          · exact hsegment mop hmop
          · exact valid_loopMop hinst (Option.mem_toList.mp hmop)
        · split
          · intro mop hmop
            rcases List.mem_append.mp hmop with hmop | hmop
            · exact valid_filterAndAddMops hsegment mop hmop
            · exact ih hrest (by simp) mop hmop
          · exact ih hrest hsegment

variable [DecidableEq β]

/-- Whether a candidate is in a branch is decided by the latch of the loop around it. -/
theorem mem_collectLoopMopCandidates {mop : LoopMop f}
    (h : mop ∈ collectLoopMopCandidates a) : ∃ parent latch,
      a.getLoopFor mop.block = some parent ∧ parent.isSimpleLoop = true ∧
        parent.getLoopLatch = some latch ∧
        mop.Valid a mop.block (!a.dt.dominates mop.block latch) := by
  obtain ⟨b, -, hb⟩ := List.mem_flatMap.mp h
  cases hparent : a.getLoopFor b with
  | none =>
      rw [hparent] at hb
      cases hb
  | some parent =>
      simp only [hparent] at hb
      cases hlatch : parent.getLoopLatch with
      | none =>
          rw [hlatch] at hb
          cases hb
      | some latch =>
          simp only [hlatch] at hb
          split at hb
          · next hsimple =>
              have hvalid := valid_collectFrom (fun i hi => hi) (by simp) mop hb
              obtain rfl := hvalid.block
              exact ⟨parent, latch, hparent, hsimple, hlatch, hvalid⟩
          · cases hb

end Candidates

/-! ## What a combined check is -/

section Combined

variable [DecidableEq β] {f : Function β} {a : Analyses f} {rangeAccessOnly : Bool}
  {c : CombinedCheck f}

/-- The combined check stands behind a simple loop, and its count includes the last iteration
when the access dominates the exiting block. -/
structure CombinedCheck.Valid (a : Analyses f) (c : CombinedCheck f) (latch exiting exit : β) :
    Prop where
  mop : c.mop ∈ collectLoopMopCandidates a
  notInBranch : c.mop.inBranch = false
  counterBits : 0 < c.counterBits
  latch_eq : c.loop.getLoopLatch = some latch
  exiting_eq : c.loop.getExitingBlock = some exiting
  exit_eq : c.loop.getUniqueExitBlock = some exit
  beforeExiting_eq : c.beforeExiting = a.dt.dominates c.mop.block exiting
  site_eq : c.site = checkSite f exiting exit

omit [DecidableEq β] in
theorem counterBits_pos {scev : AddressScev f} {ar : AddRec f} {counterBits : ℕ}
    (h : getAddRec scev = some (ar, counterBits)) : 0 < counterBits := by
  cases scev with
  | addRec ar' =>
      rw [getAddRec, Option.some.injEq, Prod.mk.injEq] at h
      omega
  | rewritten ar' bits pos zero =>
      rw [getAddRec] at h
      split at h
      · cases h
      · rw [Option.some.injEq, Prod.mk.injEq] at h
        omega
  | other => cases h

theorem combinePeriodicChecks_valid (h : c ∈ combinePeriodicChecks a rangeAccessOnly) :
    ∃ latch exiting exit, c.Valid a latch exiting exit := by
  obtain ⟨mop, hmop, hc⟩ := List.mem_filterMap.mp h
  rw [combineMop] at hc
  split at hc
  · cases hc
  · next hbranch =>
      obtain ⟨⟨ar, counterBits⟩, har, hc⟩ := Option.bind_eq_some_iff.mp hc
      have hpos := counterBits_pos har
      simp only at hc
      split at hc
      · cases hc
      · next hshape =>
          rw [Bool.or_eq_true, not_or, Bool.not_eq_true', Bool.not_eq_true',
            Bool.not_eq_false, Bool.not_eq_false] at hshape
          obtain ⟨latch, -, -, hlatch, -, -⟩ := isSimpleLoop_spec hshape.2
          split at hc
          · cases hc
          · obtain ⟨exiting, hexiting, hc⟩ := Option.bind_eq_some_iff.mp hc
            obtain ⟨exit, hexit, hc⟩ := Option.bind_eq_some_iff.mp hc
            split at hc
            · cases hc
            · obtain ⟨counting, -, rfl⟩ := Option.map_eq_some_iff.mp hc
              exact ⟨latch, exiting, exit, hmop, eq_false_of_ne_true hbranch, hpos, hlatch,
                hexiting, hexit, rfl, rfl⟩

end Combined

end Mair.LoopCheck
