import Mair.Library.Causality
import Mair.RaceDetector.VectorChecks

/-! # Slots, clocks and shadow memory

The part of the runtime that decides about races. A thread runs under a slot and an epoch of that
slot; slots are handed on from thread to thread. Clocks belong to threads and to synchronisation
objects. The log is for the specification: it lists what happened and no operation reads it. -/

namespace Mair.RaceDetector

open Function Causality

abbrev Tid := ℕ

/-- `clk_`, by slot. -/
abbrev VectorClock := Sid → ℕ

namespace VectorClock

def reset : VectorClock := fun _ => kEpochZero

def set (c : VectorClock) (sid : Sid) (v : ℕ) : VectorClock := update c sid v

def acquire (c : VectorClock) : Option VectorClock → VectorClock
  | none => c
  | some src => fun i => max (c i) (src i)

/-- What the clock object holds afterwards; a missing one is allocated empty. -/
def release (c : VectorClock) (dst : Option VectorClock) : VectorClock :=
  acquire (dst.getD reset) (some c)

end VectorClock

/-- The owners of clocks: the two clocks of a sync object and the one that a created or a
finished thread leaves. -/
inductive Object where
  | clock (addr : ℕ)
  | readClock (addr : ℕ)
  | thread (tid : Tid)
  deriving DecidableEq

structure TidSlot where
  thr : Option Tid
  epoch : ℕ

structure ThreadState where
  slot : Option Sid
  fastState : FastState
  clock : VectorClock
  slotEpoch : ℕ
  ignoreReadsAndWrites : ℕ
  ignoreSync : ℕ

def ThreadState.initial : ThreadState where
  slot := none
  fastState := FastState.reset
  clock := VectorClock.reset
  slotEpoch := 0
  ignoreReadsAndWrites := 0
  ignoreSync := 0

/-- The thread gets a slot and an epoch; its clock starts anew after a reset of the shadow
memory. -/
def ThreadState.attach (thr : ThreadState) (globalEpoch : ℕ) (s : Sid) (epoch : ℕ) :
    ThreadState :=
  { thr with
    slot := some s
    fastState := ({ thr.fastState with sid := s } : FastState).setEpoch epoch
    slotEpoch := globalEpoch
    clock := VectorClock.set
      (if thr.slotEpoch ≠ globalEpoch then VectorClock.reset else thr.clock) s epoch }

/-- What an entry of the log tells beside its synchronisation: a thread enters an epoch of a
slot, accesses a cell, frees it or wipes its history. -/
inductive Note where
  | plain
  | epoch (sid : Sid) (epoch : ℕ)
  | access (cell : ℕ) (cur : Shadow) (typ : AccessType)
  | freed (cell : ℕ) (sid : Sid) (epoch : Fin 16384)
  | wiped (cell : ℕ)
  deriving DecidableEq

abbrev LogEntry := Event Tid Object Note

structure RaceReport where
  thread : Tid
  cell : ℕ
  cur : Shadow
  old : Shadow
  typ : AccessType

structure Detector where
  slots : Sid → TidSlot
  slotQueue : List Sid
  globalEpoch : ℕ
  threads : Tid → ThreadState
  clocks : Object → Option VectorClock
  shadow : ℕ → Cells
  reports : List RaceReport
  log : List LogEntry

namespace Detector

/-- `kFreeSid` is never queued. -/
def initial : Detector where
  slots := fun _ => ⟨none, kEpochZero⟩
  slotQueue := (List.finRange 256).filter fun s => s ≠ kFreeSid
  globalEpoch := 1
  threads := fun _ => ThreadState.initial
  clocks := fun _ => none
  shadow := fun _ => emptyCells
  reports := []
  log := []

def setThread (d : Detector) (t : Tid) (thr : ThreadState) : Detector :=
  { d with threads := update d.threads t thr }

def setSlot (d : Detector) (s : Sid) (slot : TidSlot) : Detector :=
  { d with slots := update d.slots s slot }

def setCells (d : Detector) (cell : ℕ) (cells : Cells) : Detector :=
  { d with shadow := update d.shadow cell cells }

def note (d : Detector) (t : Tid) (action : Action Object) (n : Note) : Detector :=
  { d with log := d.log ++ [⟨t, action, n⟩] }

/-! ## Slots -/

/-- The first slot that is not exhausted goes to the back of the queue. -/
def popSlot (slots : Sid → TidSlot) : List Sid → Option (Sid × List Sid)
  | [] => none
  | s :: queue =>
      if (slots s).epoch ≠ kEpochLast then some (s, queue ++ [s]) else popSlot slots queue

/-- A slot in use is taken from its thread, which only notices at its next `slotLock`. -/
def preempt (d : Detector) (s : Sid) : Detector :=
  match (d.slots s).thr with
  | some owner => d.setSlot s ⟨none, (d.threads owner).fastState.epoch⟩
  | none => d

/-- A slot that turns out to be exhausted leaves the queue, so that each round shortens it. An
empty queue means a reset of the shadow memory; there the run ends. -/
def findSlotLoop : ℕ → Detector → Option (Sid × Detector)
  | 0, _ => none
  | fuel + 1, d => do
      let (s, queue) ← popSlot d.slots d.slotQueue
      let d := preempt { d with slotQueue := queue } s
      if (d.slots s).epoch ≠ kEpochLast then some (s, d)
      else findSlotLoop fuel { d with slotQueue := d.slotQueue.erase s }

def findSlotAndLock (d : Detector) : Option (Sid × Detector) :=
  findSlotLoop (d.slotQueue.length + 1) d

def slotAttachAndLock (d : Detector) (t : Tid) : Option Detector := do
  let (s, d) ← d.findSlotAndLock
  let epoch := epochInc (d.slots s).epoch
  if epochOverflow epoch || (d.slots s).thr.isSome || (d.threads t).slot.isSome then none
  else
    let thr := (d.threads t).attach d.globalEpoch s epoch
    some (((d.setSlot s ⟨some t, epoch⟩).setThread t thr).note t .internal (.epoch s epoch))

def slotDetachImpl (d : Detector) (t : Tid) (exiting : Bool) : Option Detector := do
  let thr := d.threads t
  let s ← thr.slot
  let d := d.setThread t { thr with slot := none }
  if (d.slots s).thr ≠ some t then some d
  else if !exiting && (thr.fastState.epoch : ℕ) ≠ kEpochLast then none
  else some (d.setSlot s ⟨none, thr.fastState.epoch⟩)

def slotLock (d : Detector) (t : Tid) : Option Detector := do
  let s ← (d.threads t).slot
  if (d.slots s).thr = some t ∧ ((d.threads t).fastState.epoch : ℕ) ≠ kEpochLast then some d
  else
    let d ← d.slotDetachImpl t false
    d.slotAttachAndLock t

/-- The slot moves to the back of the queue if it is queued. -/
def traceSwitchPart (d : Detector) (t : Tid) : Option Detector := do
  let d ← d.slotLock t
  let s ← (d.threads t).slot
  if s ∈ d.slotQueue then some { d with slotQueue := d.slotQueue.erase s ++ [s] } else some d

def incrementEpoch (d : Detector) (t : Tid) : Option Detector := do
  let thr := d.threads t
  let epoch := epochInc thr.fastState.epoch
  if epochOverflow epoch then some d
  else
    let sid := thr.fastState.sid
    let s ← thr.slot
    let d := d.setThread t { thr with
      clock := thr.clock.set sid epoch, fastState := thr.fastState.setEpoch epoch }
    let d := d.setSlot s { d.slots s with epoch := epoch }
    some (d.note t .internal (.epoch sid epoch))

/-! ## Clocks -/

def acquire (d : Detector) (t : Tid) (x : Object) : Detector :=
  let thr := d.threads t
  (d.setThread t { thr with clock := thr.clock.acquire (d.clocks x) }).note t (.acquire x) .plain

def release (d : Detector) (t : Tid) (x : Object) : Detector :=
  ({ d with clocks := update d.clocks x (some ((d.threads t).clock.release (d.clocks x))) } :
    Detector).note t (.release x) .plain

def releaseStore (d : Detector) (t : Tid) (x : Object) : Detector :=
  ({ d with clocks := update d.clocks x (some (d.threads t).clock) } : Detector).note t
    (.store x) .plain

/-- `dst = max(dst, clk)` and then `clk = dst`. -/
def releaseAcquire (d : Detector) (t : Tid) (x : Object) : Detector :=
  (d.acquire t x).release t x

/-- `Free` of a clock. -/
def freeClock (d : Detector) (t : Tid) (x : Object) : Detector :=
  ({ d with clocks := update d.clocks x none } : Detector).note t (.forget x) .plain

/-! ## Accesses -/

section

variable (vectorize : Bool)

def sameAccess (d : Detector) (cell : ℕ) (cur : Shadow) (typ : AccessType) : Bool :=
  if vectorize then containsSameAccessV (shadowLanes (d.shadow cell)) (Lanes.set1 cur.raw) typ
  else containsSameAccess (d.shadow cell) cur typ

def runChecks (clock : VectorClock) (cur : Shadow) (typ : AccessType) (tracePos : ℕ)
    (cells : Cells) : CheckResult :=
  if vectorize then checkRacesV clock cur typ tracePos cells
  else checkRaces clock cur typ tracePos cells

/-- What a check leaves behind. -/
def checked (d : Detector) (t : Tid) (cell : ℕ) (cur : Shadow) (typ : AccessType)
    (r : CheckResult) : Detector :=
  { d.setCells cell r.cells with
    reports := d.reports ++ (r.report.map fun old => ⟨t, cell, cur, old, typ⟩).toList }

/-- `CheckRaces` with what `DoReportRace` does; the flag says whether there was a report. The
slot is let go while a race is reported. -/
def check (d : Detector) (t : Tid) (cell : ℕ) (cur : Shadow) (typ : AccessType) (tracePos : ℕ) :
    Option (Detector × Bool) := do
  let r := runChecks vectorize (d.threads t).clock cur typ tracePos (d.shadow cell)
  let d := d.checked t cell cur typ r
  if r.report.isNone then some (d, false)
  else
    let d ← if typ.slotLocked then d.slotLock t else some d
    some (d, true)

/-- One cell of an access: nothing to do if the cell has it already. -/
def accessCell (d : Detector) (t : Tid) (cell : ℕ) (cur : Shadow) (typ : AccessType)
    (tracePos : ℕ) : Option (Detector × Bool) :=
  let d := d.note t .internal (.access cell cur typ)
  if d.sameAccess vectorize cell cur typ then some (d, false)
  else d.check vectorize t cell cur typ tracePos

end

end Detector

end Mair.RaceDetector
