import Mair.Ir.Instruction
import Mair.Library.ByteRange

/-! # Containment of access ranges

The routine that lets the check of one access stand for the check of another one, over the
answers of the analysis library, and when the bytes of the second access really lie among
the bytes of the first. -/

namespace Mair.Recurrence

open Ir ByteRange

/-! ## Locations and accesses -/

inductive LocationSize where
  | precise (size : BitVec 64)
  | imprecise
  deriving DecidableEq

structure MemoryLocation (Value : Type) where
  ptr : Value
  size : LocationSize

inductive AliasResult where
  | noAlias | mayAlias
  | partialAlias (offset : Option (BitVec 32))
  | mustAlias
  deriving DecidableEq

/-- What the routine reads of a call. `chk` is `memset_chk` or `memcpy_chk` with the third
argument where that is a constant. -/
inductive Callee (Value : Type) where
  | notCall
  | memIntrinsic (length : Value)
  | maskedStore (ptr mask : Value)
  | chk (length : Option (BitVec 64))
  | other

structure Access (Value Block : Type) where
  inst : Instruction
  parent : Block
  callee : Callee Value
  loc : MemoryLocation Value
  callee_eq : inst.isCall = false → callee = .notCall

/-! ## The routine -/

/-- The answers of the analysis library. -/
structure RangeState (Value Block Loop : Type) where
  stripPointerCasts : Value → Value
  /-- The pointer operand of a `getelementptr` all of whose indices are constant. -/
  constantIndexed : Value → Option Value
  /-- The block of a value that is an instruction. -/
  definedIn : Value → Option Block
  isEntryBlock : Block → Bool
  getLoopFor : Block → Option Loop
  containsIrreducibleLoops : Bool
  getUnderlyingObject : Value → Value
  isIdentifiedObject : Value → Bool
  getPointerSize : Value → Option (BitVec 64)
  aliasResult : MemoryLocation Value → MemoryLocation Value → AliasResult
  getPointerBaseWithConstantOffset : Value → Value × BitVec 64

namespace RangeState

variable {Value Block Loop : Type} [DecidableEq Value] [DecidableEq Block] [DecidableEq Loop]
  (state : RangeState Value Block Loop)

def isGuaranteedLoopInvariant (ptr : Value) : Bool :=
  let stripped := state.stripPointerCasts ptr
  let base :=
    match state.constantIndexed stripped with
    | some operand => state.stripPointerCasts operand
    | none => stripped
  match state.definedIn base with
  | some block =>
      state.isEntryBlock block ||
        (!state.containsIrreducibleLoops && (state.getLoopFor block).isNone)
  | none => true

def isGuaranteedLoopIndependent (current killingDef : Access Value Block)
    (currentLoc : MemoryLocation Value) : Bool :=
  if current.parent = killingDef.parent then true
  else if !state.containsIrreducibleLoops && (state.getLoopFor current.parent).isSome &&
      state.getLoopFor current.parent = state.getLoopFor killingDef.parent then true
  else state.isGuaranteedLoopInvariant currentLoc.ptr

def strengthenLocationSize (access : Access Value Block) (size : LocationSize) : LocationSize :=
  match access.callee with
  | .chk (some length) => .precise length
  | _ => size

/-- The killing access overwrites the whole object that both accesses are based on. -/
def overwritesObject (killing dead : Access Value Block) : Bool :=
  let deadUndObj := state.getUnderlyingObject (state.stripPointerCasts dead.loc.ptr)
  let killingUndObj := state.getUnderlyingObject (state.stripPointerCasts killing.loc.ptr)
  match strengthenLocationSize killing killing.loc.size with
  | .precise size =>
      deadUndObj = killingUndObj && state.isIdentifiedObject killingUndObj &&
        state.getPointerSize killingUndObj = some size
  | .imprecise => false

/-- `BatchAAResults::isMustAlias`; two bare pointers are compared at size 1. -/
def isMustAlias (a b : MemoryLocation Value) : Bool := state.aliasResult a b = .mustAlias

def isMaskedStoreOverwrite (killing dead : Access Value Block) : Bool :=
  match killing.callee, dead.callee with
  | .maskedStore killingPtr killingMask, .maskedStore deadPtr deadMask =>
      let killingPtr := state.stripPointerCasts killingPtr
      let deadPtr := state.stripPointerCasts deadPtr
      if killingPtr ≠ deadPtr &&
          !state.isMustAlias ⟨killingPtr, .precise 1⟩ ⟨deadPtr, .precise 1⟩ then false
      else killingMask = deadMask
  | _, _ => false

/-- Two memory intrinsics of one length at one address. -/
def equalLength (killing dead : Access Value Block) : Bool :=
  match killing.callee, dead.callee with
  | .memIntrinsic killingV, .memIntrinsic deadV =>
      killingV = deadV && state.isMustAlias dead.loc killing.loc
  | _, _ => false

/-- The two locations overlap at a known offset of 32 bits. -/
def partialOverwrite (killing dead : Access Value Block) (killingSize deadSize : BitVec 64) :
    Bool :=
  match state.aliasResult killing.loc dead.loc with
  | .partialAlias (some off) =>
      (0 : BitVec 32).sle off && off.signExtend 64 + deadSize ≤ killingSize
  | _ => false

/-- The two addresses are constant offsets from one base in one object. -/
def baseOverwrite (killing dead : Access Value Block) (killingSize deadSize : BitVec 64) : Bool :=
  let deadPtr := state.stripPointerCasts dead.loc.ptr
  let killingPtr := state.stripPointerCasts killing.loc.ptr
  if state.getUnderlyingObject deadPtr ≠ state.getUnderlyingObject killingPtr then false
  else
    let deadBase := state.getPointerBaseWithConstantOffset deadPtr
    let killingBase := state.getPointerBaseWithConstantOffset killingPtr
    if deadBase.1 ≠ killingBase.1 then false
    else killingBase.2.sle deadBase.2 && deadBase.2 - killingBase.2 + deadSize ≤ killingSize

/-- The part of the routine for two precise sizes. -/
def containsPrecise (killing dead : Access Value Block) (killingSize deadSize : BitVec 64) :
    Bool :=
  if state.isMustAlias killing.loc dead.loc && deadSize ≤ killingSize then true
  else if state.partialOverwrite killing dead killingSize deadSize then true
  else state.baseOverwrite killing dead killingSize deadSize

def isAccessRangeContains (killing dead : Access Value Block) : Bool :=
  if !state.isGuaranteedLoopIndependent dead killing dead.loc then false
  else if state.overwritesObject killing dead then true
  else
    match killing.loc.size, dead.loc.size with
    | .precise killingSize, .precise deadSize =>
        state.containsPrecise killing dead killingSize deadSize
    | _, _ => state.equalLength killing dead || state.isMaskedStoreOverwrite killing dead

end RangeState

/-! ## Run-time valuations -/

/-- The addresses of the pointers and the bytes that each location spans in one run. -/
structure Valuation (Value : Type) where
  address : Value → BitVec 64
  extent : MemoryLocation Value → BitVec 64

def Valuation.bytes {Value : Type} (ρ : Valuation Value) (loc : MemoryLocation Value) :
    Set (BitVec 64) :=
  byteRange (ρ.address loc.ptr) (ρ.extent loc)

/-- The library's answers are right in the run. -/
structure Valuation.Respects {Value Block Loop : Type} (ρ : Valuation Value)
    (state : RangeState Value Block Loop) : Prop where
  extent_precise : ∀ loc size, loc.size = .precise size → ρ.extent loc = size
  address_strip : ∀ v, ρ.address (state.stripPointerCasts v) = ρ.address v
  address_base : ∀ v, ρ.address v =
    ρ.address (state.getPointerBaseWithConstantOffset v).1 +
      (state.getPointerBaseWithConstantOffset v).2
  mustAlias : ∀ a b, state.aliasResult a b = .mustAlias → ρ.address a.ptr = ρ.address b.ptr
  partialAlias : ∀ a b off, state.aliasResult a b = .partialAlias (some off) →
    ρ.address b.ptr = ρ.address a.ptr + off.signExtend 64

/-! ## Distances between the two addresses -/

section Sound

variable {Value Block Loop : Type} {state : RangeState Value Block Loop} {ρ : Valuation Value}
  {killing dead : Access Value Block}

namespace RangeState

def PartialDistance (state : RangeState Value Block Loop) (killing dead : Access Value Block)
    (d : BitVec 64) : Prop :=
  ∃ off, state.aliasResult killing.loc dead.loc = .partialAlias (some off) ∧
    (0 : BitVec 32).sle off = true ∧ d = off.signExtend 64

def BaseDistance (state : RangeState Value Block Loop) (killing dead : Access Value Block)
    (d : BitVec 64) : Prop :=
  let deadPtr := state.stripPointerCasts dead.loc.ptr
  let killingPtr := state.stripPointerCasts killing.loc.ptr
  let deadBase := state.getPointerBaseWithConstantOffset deadPtr
  let killingBase := state.getPointerBaseWithConstantOffset killingPtr
  state.getUnderlyingObject deadPtr = state.getUnderlyingObject killingPtr ∧
    deadBase.1 = killingBase.1 ∧ killingBase.2.sle deadBase.2 = true ∧
      d = deadBase.2 - killingBase.2

/-- The distance from the killing to the dead address that the routine reads off the alias
result or off the offsets from a common base. -/
def Distance (state : RangeState Value Block Loop) (killing dead : Access Value Block)
    (d : BitVec 64) : Prop :=
  state.PartialDistance killing dead d ∨ state.BaseDistance killing dead d

theorem partialOverwrite_iff (killingSize deadSize : BitVec 64) :
    state.partialOverwrite killing dead killingSize deadSize = true ↔
      ∃ d, state.PartialDistance killing dead d ∧ d + deadSize ≤ killingSize := by
  rw [partialOverwrite]
  simp only [PartialDistance]
  cases state.aliasResult killing.loc dead.loc with
  | noAlias => simp
  | mayAlias => simp
  | mustAlias => simp
  | partialAlias offset =>
      cases offset with
      | none => simp
      | some off => simp

theorem baseOverwrite_iff [DecidableEq Value] (killingSize deadSize : BitVec 64) :
    state.baseOverwrite killing dead killingSize deadSize = true ↔
      ∃ d, state.BaseDistance killing dead d ∧ d + deadSize ≤ killingSize := by
  simp [baseOverwrite, BaseDistance, and_assoc]

theorem containsPrecise_iff [DecidableEq Value] (killingSize deadSize : BitVec 64) :
    state.containsPrecise killing dead killingSize deadSize = true ↔
      (state.aliasResult killing.loc dead.loc = .mustAlias ∧ deadSize ≤ killingSize) ∨
        ∃ d, state.Distance killing dead d ∧ d + deadSize ≤ killingSize := by
  have hsplit : (∃ d, state.Distance killing dead d ∧ d + deadSize ≤ killingSize) ↔
      state.partialOverwrite killing dead killingSize deadSize = true ∨
        state.baseOverwrite killing dead killingSize deadSize = true := by
    rw [partialOverwrite_iff, baseOverwrite_iff, ← exists_or]
    simp only [Distance, or_and_right]
  rw [hsplit, containsPrecise]
  simp [isMustAlias]

/-- The end of the dead access that is compared with the killing size does not overflow. -/
def NoOverflow (state : RangeState Value Block Loop) (killing dead : Access Value Block) : Prop :=
  ∀ killingSize deadSize d, killing.loc.size = .precise killingSize →
    dead.loc.size = .precise deadSize → state.Distance killing dead d →
      d + deadSize ≤ killingSize → deadSize = 0 ∨ d.toNat + deadSize.toNat < 2 ^ 64

end RangeState

/-! ## When containment holds -/

theorem RangeState.noOverflow_of_imprecise
    (hsize : killing.loc.size = .imprecise ∨ dead.loc.size = .imprecise) :
    state.NoOverflow killing dead := by
  intro killingSize deadSize d hkilling hdead
  rw [hkilling, hdead] at hsize
  simp at hsize

namespace Valuation

/-- The dead access starts and ends among the bytes of the killing one. -/
def InRange (ρ : Valuation Value) (killing dead : Access Value Block) : Prop :=
  ρ.extent dead.loc = 0 ∨
    (ρ.address dead.loc.ptr - ρ.address killing.loc.ptr).toNat + (ρ.extent dead.loc).toNat ≤
      (ρ.extent killing.loc).toNat

theorem bytes_subset_iff :
    ρ.bytes dead.loc ⊆ ρ.bytes killing.loc ↔ ρ.InRange killing dead :=
  byteRange_subset_iff _ _ _ _

/-- What the exit for whole objects takes for granted: accesses inside an object that the
killing access fills lie among the killing bytes. -/
theorem inRange_of_inBounds {base size : BitVec 64} (hfills : ρ.extent killing.loc = size)
    (hkilling : ρ.bytes killing.loc ⊆ byteRange base size)
    (hdead : ρ.bytes dead.loc ⊆ byteRange base size) : ρ.InRange killing dead := by
  have hwhole : ρ.bytes killing.loc = byteRange base size := by
    rw [bytes, hfills] at hkilling ⊢
    exact byteRange_eq_of_subset hkilling
  apply bytes_subset_iff.mp
  rw [hwhole]
  exact hdead

theorem Respects.address_sub (hρ : ρ.Respects state) {d : BitVec 64}
    (hd : state.Distance killing dead d) :
    ρ.address dead.loc.ptr - ρ.address killing.loc.ptr = d := by
  cases hd with
  | inl hpartial =>
      obtain ⟨off, halias, -, rfl⟩ := hpartial
      rw [hρ.partialAlias _ _ _ halias, add_sub_cancel_left]
  | inr hbase =>
      obtain ⟨-, hbase, -, rfl⟩ := hbase
      rw [← hρ.address_strip dead.loc.ptr, ← hρ.address_strip killing.loc.ptr,
        hρ.address_base (state.stripPointerCasts dead.loc.ptr),
        hρ.address_base (state.stripPointerCasts killing.loc.ptr), hbase]
      rw [add_sub_add_left_eq_sub]

theorem Respects.inRange_of_mustAlias (hρ : ρ.Respects state) {killingSize deadSize : BitVec 64}
    (hkilling : killing.loc.size = .precise killingSize)
    (hdead : dead.loc.size = .precise deadSize)
    (halias : state.aliasResult killing.loc dead.loc = .mustAlias)
    (hle : deadSize ≤ killingSize) : ρ.InRange killing dead := by
  apply Or.inr
  rw [hρ.extent_precise _ _ hkilling, hρ.extent_precise _ _ hdead, hρ.mustAlias _ _ halias,
    sub_self]
  simpa [BitVec.le_def] using hle

theorem Respects.inRange_iff_of_distance (hρ : ρ.Respects state)
    {killingSize deadSize d : BitVec 64} (hkilling : killing.loc.size = .precise killingSize)
    (hdead : dead.loc.size = .precise deadSize) (hd : state.Distance killing dead d)
    (hle : d + deadSize ≤ killingSize) :
    ρ.InRange killing dead ↔ deadSize = 0 ∨ d.toNat + deadSize.toNat < 2 ^ 64 := by
  rw [InRange, hρ.extent_precise _ _ hkilling, hρ.extent_precise _ _ hdead, hρ.address_sub hd]
  exact end_le_iff hle

theorem Respects.containsPrecise_sound_iff [DecidableEq Value] (hρ : ρ.Respects state)
    {killingSize deadSize : BitVec 64} (hkilling : killing.loc.size = .precise killingSize)
    (hdead : dead.loc.size = .precise deadSize) :
    (state.containsPrecise killing dead killingSize deadSize = true → ρ.InRange killing dead) ↔
      state.NoOverflow killing dead := by
  rw [state.containsPrecise_iff]
  constructor
  · intro h killingSize' deadSize' d hkilling' hdead' hd hle
    cases hkilling.symm.trans hkilling'
    cases hdead.symm.trans hdead'
    apply (hρ.inRange_iff_of_distance hkilling hdead hd hle).mp
    exact h (Or.inr ⟨d, hd, hle⟩)
  · intro h hcontains
    cases hcontains with
    | inl hmust => exact hρ.inRange_of_mustAlias hkilling hdead hmust.1 hmust.2
    | inr hdist =>
        obtain ⟨d, hd, hle⟩ := hdist
        apply (hρ.inRange_iff_of_distance hkilling hdead hd hle).mpr
        exact h _ _ d hkilling hdead hd hle

end Valuation

variable [DecidableEq Value] [DecidableEq Block] [DecidableEq Loop]

/-- The exits for memory intrinsics and masked stores never accept two loads or stores. -/
theorem RangeState.isAccessRangeContains_of_imprecise
    (hkilling : isInterestingMop killing.inst = true)
    (hfirst : state.overwritesObject killing dead = false)
    (hsize : killing.loc.size = .imprecise ∨ dead.loc.size = .imprecise) :
    state.isAccessRangeContains killing dead = false := by
  have hcallee := killing.callee_eq (isCall_eq_false_of_mop hkilling)
  rw [isAccessRangeContains, hfirst]
  cases hk : killing.loc.size with
  | imprecise => simp [equalLength, isMaskedStoreOverwrite, hcallee]
  | precise killingSize =>
      cases hd : dead.loc.size with
      | imprecise => simp [equalLength, isMaskedStoreOverwrite, hcallee]
      | precise deadSize => simp [hk, hd] at hsize

theorem RangeState.isAccessRangeContains_of_precise {killingSize deadSize : BitVec 64}
    (hloop : state.isGuaranteedLoopIndependent dead killing dead.loc = true)
    (hfirst : state.overwritesObject killing dead = false)
    (hkilling : killing.loc.size = .precise killingSize)
    (hdead : dead.loc.size = .precise deadSize) :
    state.isAccessRangeContains killing dead =
      state.containsPrecise killing dead killingSize deadSize := by
  simp [isAccessRangeContains, hloop, hfirst, hkilling, hdead]

/-- For two loads or stores the routine is right in a run exactly when a dead access of the
overwritten object stays among the killing bytes, and elsewhere no computed end overflows. -/
theorem containment_sound_iff (hρ : ρ.Respects state)
    (hkilling : isInterestingMop killing.inst = true) :
    (state.isAccessRangeContains killing dead = true →
        ρ.bytes dead.loc ⊆ ρ.bytes killing.loc) ↔
      (state.isGuaranteedLoopIndependent dead killing dead.loc = true →
        (state.overwritesObject killing dead = true → ρ.InRange killing dead) ∧
        (state.overwritesObject killing dead = false → state.NoOverflow killing dead)) := by
  rw [Valuation.bytes_subset_iff]
  cases hloop : state.isGuaranteedLoopIndependent dead killing dead.loc with
  | false => simp [RangeState.isAccessRangeContains, hloop]
  | true =>
      cases hwhole : state.overwritesObject killing dead with
      | true => simp [RangeState.isAccessRangeContains, hloop, hwhole]
      | false =>
          cases hk : killing.loc.size with
          | imprecise =>
              rw [RangeState.isAccessRangeContains_of_imprecise hkilling hwhole (Or.inl hk)]
              simp [RangeState.noOverflow_of_imprecise (Or.inl hk)]
          | precise killingSize =>
              cases hd : dead.loc.size with
              | imprecise =>
                  rw [RangeState.isAccessRangeContains_of_imprecise hkilling hwhole (Or.inr hd)]
                  simp [RangeState.noOverflow_of_imprecise (Or.inr hd)]
              | precise deadSize =>
                  rw [RangeState.isAccessRangeContains_of_precise hloop hwhole hk hd,
                    hρ.containsPrecise_sound_iff hk hd]
                  simp

end Sound

/-! ## An index past the end of a stored object -/

/-- Value 0 is an object of four bytes, value 1 points to it through a variable index. -/
def fourByteObject : RangeState ℕ ℕ ℕ where
  stripPointerCasts v := v
  constantIndexed _ := none
  definedIn _ := some 0
  isEntryBlock _ := true
  getLoopFor _ := none
  containsIrreducibleLoops := false
  getUnderlyingObject _ := 0
  isIdentifiedObject v := v = 0
  getPointerSize v := if v = 0 then some 4 else none
  aliasResult a b := if a.ptr = b.ptr then .mustAlias else .mayAlias
  getPointerBaseWithConstantOffset v := (v, 0)

def storeObject : Access ℕ ℕ := ⟨plainStore 0, 0, .notCall, ⟨0, .precise 4⟩, fun _ => rfl⟩

def loadElement : Access ℕ ℕ := ⟨plainLoad 1, 0, .notCall, ⟨1, .precise 4⟩, fun _ => rfl⟩

/-- The index is ten. -/
def indexTen : Valuation ℕ where
  address v := if v = 0 then 4096 else 4136
  extent loc :=
    match loc.size with
    | .precise size => size
    | .imprecise => 0

theorem indexTen_respects : indexTen.Respects fourByteObject where
  extent_precise loc size h := by simp [indexTen, h]
  address_strip v := rfl
  address_base v := by simp [fourByteObject]
  mustAlias a b h := by
    have hptr : a.ptr = b.ptr := by
      by_contra hne
      simp [fourByteObject, hne] at h
    rw [hptr]
  partialAlias a b off h := by
    by_cases hptr : a.ptr = b.ptr
    · simp [fourByteObject, hptr] at h
    · simp [fourByteObject, hptr] at h

theorem containment_sound_iff_indexTen :
    (fourByteObject.isAccessRangeContains storeObject loadElement = true →
        indexTen.bytes loadElement.loc ⊆ indexTen.bytes storeObject.loc) ↔
      (fourByteObject.isGuaranteedLoopIndependent loadElement storeObject loadElement.loc = true →
        (fourByteObject.overwritesObject storeObject loadElement = true →
          indexTen.InRange storeObject loadElement) ∧
        (fourByteObject.overwritesObject storeObject loadElement = false →
          fourByteObject.NoOverflow storeObject loadElement)) :=
  containment_sound_iff indexTen_respects (by decide)

/-- The store of the object makes the check of the element redundant, whose bytes lie past
the end of the object. -/
theorem storeObject_contains_outOfBounds :
    indexTen.Respects fourByteObject ∧ isInterestingMop storeObject.inst = true ∧
      isInterestingMop loadElement.inst = true ∧
      fourByteObject.isAccessRangeContains storeObject loadElement = true ∧
      ¬indexTen.bytes loadElement.loc ⊆ indexTen.bytes storeObject.loc := by
  refine ⟨indexTen_respects, by decide, by decide, by decide, ?_⟩
  rw [Valuation.bytes_subset_iff, Valuation.InRange]
  decide

end Mair.Recurrence
