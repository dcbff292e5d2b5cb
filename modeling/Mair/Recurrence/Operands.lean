import Mair.Recurrence.Elimination

/-! # The operands that are left after the reduction

`AsanRequireAnalysisPass` hands the reducible operations of a function to the reducer and
puts the operands of the others into a new list while it filters them. -/

namespace Mair.Recurrence

open Ir

/-! ## Memory operands -/

structure InterestingMemoryOperand where
  insn : Instruction
  operandNo : ℕ
  isWrite : Bool
  opType : ℕ
  alignment : Option ℕ
  maybeMask : Option ℕ
  deriving DecidableEq

/-- What the collection reads off an instruction. `masked` tells the masked accesses apart,
and `ignored` combines the switches with `ignoreAccess`. -/
structure OperandInfo where
  ignored : Instruction → ℕ → Bool
  accessType : Instruction → ℕ → ℕ
  alignment : Instruction → ℕ → Option ℕ
  masked : Instruction → Option (Bool × ℕ)
  argSize : Instruction → ℕ
  isByValArgument : Instruction → ℕ → Bool

section Operands

variable (info : OperandInfo)

/-- The operand of a load or a store. -/
def accessOperand (inst : Instruction) : InterestingMemoryOperand :=
  let operandNo := if inst.isStore then 1 else 0
  { insn := inst
    operandNo := operandNo
    isWrite := inst.isStore
    opType := info.accessType inst operandNo
    alignment := info.alignment inst operandNo
    maybeMask := none }

def atomicOperand (inst : Instruction) : InterestingMemoryOperand where
  insn := inst
  operandNo := 0
  isWrite := true
  opType := info.accessType inst 0
  alignment := none
  maybeMask := none

def maskedOperand (inst : Instruction) (isWrite : Bool) (mask : ℕ) :
    InterestingMemoryOperand :=
  let opOffset := if isWrite then 1 else 0
  { insn := inst
    operandNo := opOffset
    isWrite := isWrite
    opType := info.accessType inst opOffset
    alignment := info.alignment inst opOffset
    maybeMask := some mask }

def byValOperand (inst : Instruction) (argNo : ℕ) : InterestingMemoryOperand where
  insn := inst
  operandNo := argNo
  isWrite := false
  opType := info.accessType inst argNo
  alignment := some 1
  maybeMask := none

def unlessIgnored (op : InterestingMemoryOperand) : List InterestingMemoryOperand :=
  if info.ignored op.insn op.operandNo then [] else [op]

def getInterestingMemoryOperands (inst : Instruction) : List InterestingMemoryOperand :=
  match inst.opcode with
  | .load .. => unlessIgnored info (accessOperand info inst)
  | .store .. => unlessIgnored info (accessOperand info inst)
  | .atomicRMW _ => unlessIgnored info (atomicOperand info inst)
  | .atomicCmpXchg _ _ => unlessIgnored info (atomicOperand info inst)
  | .call _ =>
      match info.masked inst with
      | some (isWrite, mask) => unlessIgnored info (maskedOperand info inst isWrite mask)
      | none =>
          ((List.range (info.argSize inst)).filter fun argNo =>
            info.isByValArgument inst argNo && !info.ignored inst argNo).map (byValOperand info inst)
  | _ => []

/-- A list that the collection makes of a function: operands of its instructions in their
order, some of them left out because their address was seen before. -/
structure Collected (insts : List Instruction) (ops : List InterestingMemoryOperand) : Prop where
  nodup : insts.Nodup
  sublist : ops.Sublist (insts.flatMap (getInterestingMemoryOperands info))

/-! ## The pass -/

/-- The predicate of the filter, which hands the operands of other operations on. -/
def filterOperand (delegated : Instruction → Bool)
    (newOperands : List InterestingMemoryOperand) (op : InterestingMemoryOperand) :
    Bool × List InterestingMemoryOperand :=
  if delegated op.insn then (false, newOperands)
  else if isInterestingMop op.insn then (true, newOperands)
  else (false, newOperands ++ [op])

/-- The new operands of a function. `evaluations` lists the operands on which the predicate
is evaluated while the range is copied into a vector. -/
def operandsToInstrument (delegated : Instruction → Bool)
    (evaluations : List InterestingMemoryOperand → List InterestingMemoryOperand)
    (distill : List Instruction → List Instruction) (ops : List InterestingMemoryOperand) :
    List InterestingMemoryOperand :=
  let newOperands := (evaluations ops).foldl (fun new op => (filterOperand delegated new op).2) []
  let tmpInsts := (ops.filter fun op => (filterOperand delegated [] op).1).map (·.insn)
  newOperands ++ (distill tmpInsts).map (accessOperand info)

/-- The operations that the reducer is given. -/
def reducible (delegated : Instruction → Bool) (inst : Instruction) : Bool :=
  !delegated inst && isInterestingMop inst

/-- The operations whose operands go into the new list as they are. -/
def handedOn (delegated : Instruction → Bool) (inst : Instruction) : Bool :=
  !delegated inst && !isInterestingMop inst

end Operands

/-! ## Collected operands -/

section Collection

variable {info : OperandInfo} {insts : List Instruction} {ops : List InterestingMemoryOperand}
  {inst : Instruction} {op op' : InterestingMemoryOperand}

theorem mem_unlessIgnored (h : op ∈ unlessIgnored info op') : op = op' := by
  unfold unlessIgnored at h
  split at h
  · cases h
  · exact List.mem_singleton.mp h

theorem insn_of_mem (h : op ∈ getInterestingMemoryOperands info inst) : op.insn = inst := by
  unfold getInterestingMemoryOperands at h
  split at h
  · rw [mem_unlessIgnored h, accessOperand]
  · rw [mem_unlessIgnored h, accessOperand]
  · rw [mem_unlessIgnored h, atomicOperand]
  · rw [mem_unlessIgnored h, atomicOperand]
  · split at h
    · rw [mem_unlessIgnored h, maskedOperand]
    · obtain ⟨argNo, -, rfl⟩ := List.mem_map.mp h
      rfl
  · cases h

theorem unlessIgnored_nodup (op : InterestingMemoryOperand) : (unlessIgnored info op).Nodup := by
  unfold unlessIgnored
  split
  · exact List.nodup_nil
  · exact List.nodup_singleton op

theorem getInterestingMemoryOperands_nodup (inst : Instruction) :
    (getInterestingMemoryOperands info inst).Nodup := by
  unfold getInterestingMemoryOperands
  split
  · exact unlessIgnored_nodup _
  · exact unlessIgnored_nodup _
  · exact unlessIgnored_nodup _
  · exact unlessIgnored_nodup _
  · split
    · exact unlessIgnored_nodup _
    · apply (List.nodup_range.filter _).map
      intro a b hab
      exact congrArg InterestingMemoryOperand.operandNo hab
  · exact List.nodup_nil

/-- A load or a store has one operand. -/
theorem eq_accessOperand (hmop : isInterestingMop inst = true)
    (h : op ∈ getInterestingMemoryOperands info inst) : op = accessOperand info inst := by
  have haccess := ((isInterestingMop_iff inst).mp hmop).2.2
  unfold getInterestingMemoryOperands at h
  split at h
  · exact mem_unlessIgnored h
  · exact mem_unlessIgnored h
  all_goals
    next hop => simp [Instruction.isStore, Instruction.isLoad, *] at haccess

theorem Collected.mem (hc : Collected info insts ops) (h : op ∈ ops) :
    op ∈ getInterestingMemoryOperands info op.insn := by
  obtain ⟨inst, -, hop⟩ := List.mem_flatMap.mp (hc.sublist.subset h)
  rwa [insn_of_mem hop]

theorem Collected.ops_nodup (hc : Collected info insts ops) : ops.Nodup := by
  refine List.Nodup.sublist hc.sublist (List.nodup_flatMap.mpr ⟨?_, ?_⟩)
  · exact fun inst _ => getInterestingMemoryOperands_nodup inst
  · apply hc.nodup.imp
    intro a b hne op ha hb
    exact hne ((insn_of_mem ha).symm.trans (insn_of_mem hb))

theorem Collected.eq_accessOperand (hc : Collected info insts ops) (h : op ∈ ops)
    (hmop : isInterestingMop op.insn = true) : op = accessOperand info op.insn :=
  Recurrence.eq_accessOperand hmop (hc.mem h)

end Collection

/-! ## The new list -/

section Lists

variable {info : OperandInfo} {delegated : Instruction → Bool}
  {evaluations : List InterestingMemoryOperand → List InterestingMemoryOperand}
  {distill : List Instruction → List Instruction} {ops : List InterestingMemoryOperand}

theorem foldl_filterOperand (new evaluated : List InterestingMemoryOperand) :
    evaluated.foldl (fun new op => (filterOperand delegated new op).2) new =
      new ++ evaluated.filter fun op => handedOn delegated op.insn := by
  induction evaluated generalizing new with
  | nil => simp
  | cons op evaluated ih =>
      rw [List.foldl_cons, ih, filterOperand, List.filter_cons, handedOn]
      cases delegated op.insn with
      | true => simp
      | false => cases isInterestingMop op.insn <;> simp

theorem filterOperand_fst (op : InterestingMemoryOperand) :
    (filterOperand delegated [] op).1 = reducible delegated op.insn := by
  rw [filterOperand, reducible]
  cases delegated op.insn with
  | true => simp
  | false => cases isInterestingMop op.insn <;> simp

/-- The operations of a list that are given to the reducer. -/
def reducibleInsts (delegated : Instruction → Bool) (ops : List InterestingMemoryOperand) :
    List Instruction :=
  (ops.filter fun op => reducible delegated op.insn).map (·.insn)

theorem operandsToInstrument_eq :
    operandsToInstrument info delegated evaluations distill ops =
      (evaluations ops).filter (fun op => handedOn delegated op.insn) ++
        (distill (reducibleInsts delegated ops)).map (accessOperand info) := by
  simp only [operandsToInstrument, foldl_filterOperand, List.nil_append, filterOperand_fst,
    reducibleInsts]

/-! ## Nothing lost and nothing duplicated -/

/-- The new list has the operands of the operations that are not reducible and of those that
the reducer kept once each, and no others. -/
structure OperandsExact (delegated : Instruction → Bool) (kept : List Instruction)
    (ops new : List InterestingMemoryOperand) : Prop where
  others : ∀ op ∈ ops, handedOn delegated op.insn = true → new.count op = 1
  survivors : ∀ op ∈ ops, op.insn ∈ kept → new.count op = 1
  sound : ∀ op ∈ new, op ∈ ops ∧ delegated op.insn = false ∧
    (isInterestingMop op.insn = true → op.insn ∈ kept)

theorem mem_reducibleInsts_iff {inst : Instruction} : inst ∈ reducibleInsts delegated ops ↔
    ∃ op ∈ ops, op.insn = inst ∧ reducible delegated inst = true := by
  simp only [reducibleInsts, List.mem_map, List.mem_filter]
  constructor
  · intro h
    obtain ⟨op, hop, rfl⟩ := h
    exact ⟨op, hop.1, rfl, hop.2⟩
  · intro h
    obtain ⟨op, hop, rfl, hred⟩ := h
    exact ⟨op, ⟨hop, hred⟩, rfl⟩

theorem reducible_iff {inst : Instruction} :
    reducible delegated inst = true ↔ delegated inst = false ∧ isInterestingMop inst = true := by
  simp [reducible]

theorem handedOn_iff {inst : Instruction} :
    handedOn delegated inst = true ↔
      delegated inst = false ∧ isInterestingMop inst = false := by
  simp [handedOn]

section Kept

variable {insts kept : List Instruction} {op : InterestingMemoryOperand}

theorem Collected.reducibleInsts_nodup (hc : Collected info insts ops) :
    (reducibleInsts delegated ops).Nodup := by
  apply (hc.ops_nodup.filter _).map_on
  intro a ha b hb hab
  obtain ⟨ha, hared⟩ := List.mem_filter.mp ha
  obtain ⟨hb, hbred⟩ := List.mem_filter.mp hb
  rw [hc.eq_accessOperand ha (reducible_iff.mp hared).2,
    hc.eq_accessOperand hb (reducible_iff.mp hbred).2, hab]

theorem count_map_accessOperand (hnodup : kept.Nodup) (inst : Instruction) :
    (kept.map (accessOperand info)).count (accessOperand info inst) =
      if inst ∈ kept then 1 else 0 := by
  have hinj : Function.Injective (accessOperand info) := fun a b hab =>
    congrArg InterestingMemoryOperand.insn hab
  rw [List.count_map_of_injective _ _ hinj, hnodup.count]

/-- The operand of a kept operation. -/
theorem eq_accessOperand_of_kept (hc : Collected info insts ops)
    (hsub : ∀ i ∈ kept, i ∈ reducibleInsts delegated ops) (hop : op ∈ ops)
    (hkept : op.insn ∈ kept) : op = accessOperand info op.insn := by
  obtain ⟨-, -, -, hred⟩ := mem_reducibleInsts_iff.mp (hsub _ hkept)
  exact hc.eq_accessOperand hop (reducible_iff.mp hred).2

/-- The list is exact when the predicate is evaluated once on each operand that it hands on,
and on none that was not collected. -/
theorem operandsExact_iff_once (hc : Collected info insts ops)
    (heval : ∀ op ∈ evaluations ops, op ∈ ops) (hnodup : kept.Nodup)
    (hsub : ∀ i ∈ kept, i ∈ reducibleInsts delegated ops) :
    OperandsExact delegated kept ops
        ((evaluations ops).filter (fun op => handedOn delegated op.insn) ++
          kept.map (accessOperand info)) ↔
      ∀ op ∈ ops, handedOn delegated op.insn = true → (evaluations ops).count op = 1 := by
  have hcount : ∀ op ∈ ops, handedOn delegated op.insn = true →
      ((evaluations ops).filter (fun op => handedOn delegated op.insn) ++
        kept.map (accessOperand info)).count op = (evaluations ops).count op := by
    intro op hop hhanded
    have hzero : (kept.map (accessOperand info)).count op = 0 := by
      apply List.count_eq_zero_of_not_mem
      intro hmem
      obtain ⟨i, hi, rfl⟩ := List.mem_map.mp hmem
      obtain ⟨-, -, -, hred⟩ := mem_reducibleInsts_iff.mp (hsub i hi)
      have hplain := (handedOn_iff.mp hhanded).2
      exact Bool.false_ne_true (hplain.symm.trans (reducible_iff.mp hred).2)
    rw [List.count_append, hzero, Nat.add_zero]
    exact List.count_filter hhanded
  constructor
  · intro h op hop hhanded
    rw [← hcount op hop hhanded]
    exact h.others op hop hhanded
  · intro h
    constructor
    · intro op hop hhanded
      rw [hcount op hop hhanded]
      exact h op hop hhanded
    · intro op hop hkept
      obtain ⟨-, -, -, hred⟩ := mem_reducibleInsts_iff.mp (hsub _ hkept)
      have hmop := reducible_iff.mp hred
      have hzero : ((evaluations ops).filter fun op =>
          handedOn delegated op.insn).count op = 0 := by
        apply List.count_eq_zero_of_not_mem
        intro hmem
        have hplain := (handedOn_iff.mp (List.mem_filter.mp hmem).2).2
        exact Bool.false_ne_true (hplain.symm.trans hmop.2)
      rw [List.count_append, hzero, Nat.zero_add, eq_accessOperand_of_kept hc hsub hop hkept,
        count_map_accessOperand hnodup]
      exact if_pos hkept
    · intro op hop
      cases List.mem_append.mp hop with
      | inl hhanded =>
          obtain ⟨hevaluated, hhanded⟩ := List.mem_filter.mp hhanded
          obtain ⟨hdelegated, hplain⟩ := handedOn_iff.mp hhanded
          refine ⟨heval op hevaluated, hdelegated, ?_⟩
          intro hmop
          exact absurd (hplain.symm.trans hmop) Bool.false_ne_true
      | inr hkept =>
          obtain ⟨i, hi, rfl⟩ := List.mem_map.mp hkept
          obtain ⟨op', hop', rfl, hred⟩ := mem_reducibleInsts_iff.mp (hsub i hi)
          obtain ⟨hdelegated, hmop⟩ := reducible_iff.mp hred
          have heq := hc.eq_accessOperand hop' hmop
          refine ⟨?_, hdelegated, fun _ => hi⟩
          rwa [← heq]

end Kept

end Lists

/-! ## The reducer between the two halves -/

/-- Building the vector evaluates the predicate for the distance of the range and once more
for the copy. -/
def EvaluatedTwice
    (evaluations : List InterestingMemoryOperand → List InterestingMemoryOperand) : Prop :=
  ∀ ops op, (evaluations ops).count op = 2 * ops.count op

section Pass

variable {info : OperandInfo} {delegated : Instruction → Bool}
  {evaluations : List InterestingMemoryOperand → List InterestingMemoryOperand}
  {insts : List Instruction} {ops : List InterestingMemoryOperand}

theorem distillRecurringChecks_subset (state : MOPState)
    (isActive : List Instruction → Instruction → Instruction → Bool → Bool)
    (isTsan ignoreCalls : Bool) :
    (insts.Nodup → (distillRecurringChecks state isActive insts isTsan ignoreCalls).Nodup) ∧
      ∀ i ∈ distillRecurringChecks state isActive insts isTsan ignoreCalls, i ∈ insts := by
  have hspec := @distillRecurringChecks_spec state isActive insts isTsan ignoreCalls ∅
    fun _ _ _ tr htr => absurd htr (Set.notMem_empty tr)
  exact ⟨hspec.nodup, hspec.subset⟩

end Pass

/-! ## A load and an atomic operation -/

def wordAccess : OperandInfo where
  ignored _ _ := false
  accessType _ _ := 32
  alignment _ _ := some 4
  masked _ := none
  argSize _ := 0
  isByValArgument _ _ := false

def loadThenAtomic : List Instruction :=
  [plainLoad 0, ⟨1, .atomicRMW .sequentiallyConsistent, false⟩]

def loadThenAtomicOperands : List InterestingMemoryOperand :=
  loadThenAtomic.flatMap (getInterestingMemoryOperands wordAccess)

def noAliases : MOPState where
  dominates _ _ := false
  postDominates _ _ := false
  isAccessRangeContains _ _ := false

theorem loadThenAtomic_collected :
    Collected wordAccess loadThenAtomic loadThenAtomicOperands :=
  ⟨by decide, List.Sublist.refl _⟩

theorem evaluatedTwice_append : EvaluatedTwice fun ops => ops ++ ops := by
  intro ops op
  rw [List.count_append]
  omega

end Mair.Recurrence
