import Mathlib.Algebra.Group.Nat.Defs
import Mathlib.Logic.Function.Basic
import Mathlib.Order.Basic
import Mathlib.Data.Fintype.Basic

/-! # Shadow values of the race detector

Eight bytes of user memory share one shadow cell of four values. A value records one access:
the bytes of the cell it touched, the slot and the epoch of the thread, and its kind. -/

namespace Mair.RaceDetector

abbrev Sid := Fin 256

def kFreeSid : Sid := ⟨255, by decide⟩

/-! Epochs are values of a `u16`; the runtime makes none above `kEpochOver`. -/

def kEpochZero : ℕ := 0

def kEpochOver : ℕ := 16384

def kEpochLast : ℕ := 16383

def epochInc (epoch : ℕ) : ℕ := (epoch + 1) % 65536

def epochOverflow (epoch : ℕ) : Bool := epoch == kEpochOver

def kShadowCell : ℕ := 8

/-- The flags of `AccessType` that the checks read. -/
structure AccessType where
  read : Bool
  atomic : Bool
  free : Bool := false
  checkOnly : Bool := false
  noRodata : Bool := false
  slotLocked : Bool := false
  deriving DecidableEq

structure FastState where
  sid : Sid
  epoch : Fin 16384
  ignoreAccesses : Bool
  deriving DecidableEq

namespace FastState

def setEpoch (s : FastState) (epoch : ℕ) : FastState :=
  { s with epoch := ⟨epoch % 16384, Nat.mod_lt _ (by decide)⟩ }

def reset : FastState := setEpoch ⟨kFreeSid, ⟨0, by decide⟩, false⟩ kEpochLast

end FastState

/-- The parts of a 32-bit shadow value. -/
structure Shadow where
  access : BitVec 8
  sid : Sid
  epoch : Fin 16384
  isRead : Bool
  isAtomic : Bool
  deriving DecidableEq

/-- The bytes of a cell that `size` bytes from `addr` touch. -/
def accessMask (addr size : ℕ) : BitVec 8 :=
  BitVec.ofNat 8 ((2 ^ size - 1) * 2 ^ (addr % 8))

namespace Shadow

def zeroSid : Sid := ⟨0, by decide⟩

def zeroEpoch : Fin 16384 := ⟨0, by decide⟩

def kEmpty : Shadow := ⟨0#8, zeroSid, zeroEpoch, false, false⟩

/-- Marks read-only data. -/
def kRodata : Shadow := ⟨0#8, zeroSid, zeroEpoch, true, false⟩

def kFreeAccess : BitVec 8 := 0x81#8

/-- The bit of an atomic access is also the ignore bit of the state. -/
def make (state : FastState) (addr size : ℕ) (typ : AccessType) : Shadow where
  access := accessMask addr size
  sid := state.sid
  epoch := state.epoch
  isRead := typ.read
  isAtomic := typ.atomic || state.ignoreAccesses

def isBothReadsOrAtomic (s : Shadow) (typ : AccessType) : Bool :=
  (s.isRead && typ.read) || (s.isAtomic && typ.atomic)

def isRWWeakerOrEqual (s : Shadow) (typ : AccessType) : Bool :=
  (s.isAtomic && !typ.atomic) || (s.isAtomic == typ.atomic && (s.isRead || !typ.read))

def freedMarker : Shadow :=
  make FastState.reset 0 8 { read := false, atomic := false }

def freedInfo (sid : Sid) (epoch : Fin 16384) : Shadow := ⟨kFreeAccess, sid, epoch, false, false⟩

end Shadow

/-- The values of one cell. -/
abbrev Cells := Fin 4 → Shadow

def firstIdx : Fin 4 := ⟨0, by decide⟩

def secondIdx : Fin 4 := ⟨1, by decide⟩

def emptyCells : Cells := fun _ => Shadow.kEmpty

/-- One value in front, the others empty: what `ShadowSet` writes to each cell. -/
def cellsOf (v : Shadow) : Cells := Function.update emptyCells firstIdx v

def freedCells (sid : Sid) (epoch : Fin 16384) : Cells :=
  Function.update (cellsOf Shadow.freedMarker) secondIdx (Shadow.freedInfo sid epoch)

/-! ## The scalar checks -/

def containsSameAccess (cells : Cells) (cur : Shadow) (typ : AccessType) : Bool :=
  (List.finRange 4).any fun i =>
    let old := cells i
    if typ.read then
      ({ old with isRead := true } : Shadow) = cur || (!typ.noRodata && old = Shadow.kRodata)
    else old = cur

/-- What a check leaves in the cell, and the earlier access of the race it reports. -/
structure CheckResult where
  cells : Cells
  report : Option Shadow

/-- The cell is emptied so that it is not reported again. The marker of freed memory stands for
the value behind it, which tells who freed. -/
def doReportRace (cells : Cells) (old : Shadow) : CheckResult where
  cells := cellsOf Shadow.kRodata
  report := some (if old.sid = kFreeSid then cells secondIdx else old)

/-- `trace_pos` picks the value to evict. -/
def evictIdx (tracePos : ℕ) : Fin 4 := ⟨tracePos / 8 % 4, Nat.mod_lt _ (by decide)⟩

section

variable (clock : Sid → ℕ) (cur : Shadow) (typ : AccessType) (tracePos : ℕ)

def checkRacesLoop : List (Fin 4) → Cells → Bool → CheckResult
  | [], cells, stored =>
      if stored then ⟨cells, none⟩
      else ⟨Function.update cells (evictIdx tracePos) cur, none⟩
  | idx :: rest, cells, stored =>
      let old := cells idx
      if old = Shadow.kEmpty then
        if !typ.checkOnly && !stored then ⟨Function.update cells idx cur, none⟩
        else ⟨cells, none⟩
      else if cur.access &&& old.access = 0#8 then checkRacesLoop rest cells stored
      else if cur.sid = old.sid then
        if !typ.checkOnly && cur.access = old.access && old.isRWWeakerOrEqual typ then
          checkRacesLoop rest (Function.update cells idx cur) true
        else checkRacesLoop rest cells stored
      else if old.isBothReadsOrAtomic typ then checkRacesLoop rest cells stored
      else if (old.epoch : ℕ) ≤ clock old.sid then checkRacesLoop rest cells stored
      else doReportRace cells old

def checkRaces (cells : Cells) : CheckResult :=
  checkRacesLoop clock cur typ tracePos (List.finRange 4) cells false

end

end Mair.RaceDetector
