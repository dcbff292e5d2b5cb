import Mair.Platform.Mapping

/-! # Combined periodic checks

The call that the pass emits behind a loop for an access at an affine address, and the
functions of the runtime that it calls. -/

namespace Mair.LoopCheck

open Platform

/-! ## The emitted call -/

inductive CheckCall where
  | range (beg fin : Uptr)
  | period (beg fin step : Uptr)

structure Bounds where
  beg : Uptr
  fin : Uptr
  stepVal : Uptr

/-- The expansion once the iteration counter is known. `constStep` says that the step is a
compile-time constant. -/
def expandBegAndEnd (constStep : Bool) (start step iterCounter : Uptr) : Bounds :=
  let isConstStepNegative := constStep && step.toInt < 0
  let start := if isConstStepNegative then start + -step else start
  let stepIsOne := constStep && step = 1
  let offset := if stepIsOne then iterCounter else iterCounter * step
  let fin := start + offset
  if isConstStepNegative then ⟨fin, start, -step⟩ else ⟨start, fin, step⟩

def isRangeAccess (constStep : Bool) (step : Uptr) (mopSize : ℕ) : Bool :=
  constStep && step.toInt.natAbs = mopSize

def combinePeriodicCheck (constStep : Bool) (start step iterCounter : Uptr) (mopSize : ℕ) :
    CheckCall :=
  let bounds := expandBegAndEnd constStep start step iterCounter
  if isRangeAccess constStep step mopSize then .range bounds.beg bounds.fin
  else .period bounds.beg bounds.fin bounds.stepVal

/-! ## The runtime -/

inductive Check where
  | range (beg size : Uptr)
  | access (addr : Uptr)

/-- The range functions. The assertion `beg < end` is not part of a release build. -/
def xsanRange (m : Mapping) (beg fin : Uptr) : List Check :=
  if beg = fin then []
  else if m.isAppMem beg then [.range beg (fin - beg)]
  else []

/-- The loop of the periodic functions; `none` is lack of fuel. -/
def periodLoop (step fin : Uptr) : ℕ → Uptr → Option (List Check)
  | 0, offset => if offset < fin then none else some []
  | fuel + 1, offset =>
      if offset < fin then
        (periodLoop step fin fuel (offset + step)).map fun checks => .access offset :: checks
      else some []

/-- The periodic functions for accesses of `sizeParam` bytes. -/
def xsanPeriod (m : Mapping) (sizeParam : ℕ) : ℕ → Uptr → Uptr → Uptr → Option (List Check)
  | 0, beg, fin, _ => if beg = fin then some [] else none
  | fuel + 1, beg, fin, step =>
      if beg = fin then some []
      else if step.toInt < 0 then xsanPeriod m sizeParam fuel (fin - step) (beg - step) (-step)
      else if step = BitVec.ofNat 64 sizeParam then some (xsanRange m beg fin)
      else periodLoop step fin fuel beg

def CheckCall.run (m : Mapping) (mopSize fuel : ℕ) : CheckCall → Option (List Check)
  | .range beg fin => some (xsanRange m beg fin)
  | .period beg fin step => xsanPeriod m mopSize fuel beg fin step

end Mair.LoopCheck
