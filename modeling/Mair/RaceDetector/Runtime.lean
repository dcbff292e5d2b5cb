import Mair.RaceDetector.Detector

/-! # The operations of the runtime

What the instrumented program and the interceptors call: memory accesses, mutexes, atomics,
threads and the heap. Each operation runs the detector; the bookkeeping beside it is that of the
mutexes and of the thread registry. -/

namespace Mair.RaceDetector

open Function Causality

/-- The build, the flags and the platform. -/
structure Env where
  vectorize : Bool
  reportMutexBugs : Bool
  reportDestroyLocked : Bool
  isAppMem : ℕ → Bool
  clearShadowMmapThreshold : ℕ
  pageSize : ℕ

structure MutexFlags where
  linkerInit : Bool := false
  writeReentrant : Bool := false
  readReentrant : Bool := false
  notStatic : Bool := false
  recursiveLock : Bool := false
  recursiveUnlock : Bool := false
  broken : Bool := false

namespace MutexFlags

/-- Whether the flags meet `MutexCreationFlagMask`. -/
def anyCreation (f : MutexFlags) : Bool :=
  f.linkerInit || f.writeReentrant || f.readReentrant || f.notStatic

/-- `SetFlags(flagz & MutexCreationFlagMask)`. -/
def setCreation (f flagz : MutexFlags) : MutexFlags :=
  { f with
    linkerInit := f.linkerInit || flagz.linkerInit
    writeReentrant := f.writeReentrant || flagz.writeReentrant
    readReentrant := f.readReentrant || flagz.readReentrant
    notStatic := f.notStatic || flagz.notStatic }

def updateFlags (f flagz : MutexFlags) : MutexFlags :=
  if !flagz.anyCreation || f.anyCreation then f else f.setCreation flagz

end MutexFlags

/-- A sync object without its clocks, which the detector keeps. -/
structure SyncVar where
  ownerTid : Option Tid := none
  recursion : ℤ := 0
  flags : MutexFlags := {}

namespace SyncVar

/-- The checks of `MutexPostLock` on the owner and the depth. -/
def passesChecks (s : SyncVar) (t : Tid) : Bool :=
  match s.ownerTid with
  | none => s.recursion == 0
  | some owner => owner != t || decide (0 < s.recursion)

def isDoubleLock (s : SyncVar) (env : Env) (t : Tid) (flagz : MutexFlags) : Bool :=
  match s.ownerTid with
  | none => false
  | some owner => owner != t && env.reportMutexBugs && !(s.flags.updateFlags flagz).broken

def afterLock (s : SyncVar) (t : Tid) (flagz : MutexFlags) (recs : ℤ) (double : Bool) :
    SyncVar where
  ownerTid := some (s.ownerTid.getD t)
  recursion := s.recursion + if flagz.recursiveLock then recs else 1
  flags :=
    let flags := s.flags.updateFlags flagz
    { flags with broken := flags.broken || double }

def afterUnlock (s : SyncVar) (flagz : MutexFlags) : SyncVar :=
  let recs := if flagz.recursiveUnlock then s.recursion else 1
  { s with
    ownerTid := if s.recursion - recs = 0 then none else s.ownerTid
    recursion := s.recursion - recs }

def setBroken (s : SyncVar) (b : Bool) : SyncVar :=
  { s with flags := { s.flags with broken := s.flags.broken || b } }

end SyncVar

inductive ThreadStatus where
  | invalid
  | created
  | running
  | finished
  | dead
  deriving DecidableEq

/-- The registry's entry of a thread, with the stack that the thread runs on. -/
structure ThreadContext where
  status : ThreadStatus
  detached : Bool
  syncEpoch : ℕ
  stkAddr : ℕ := 0
  stkSize : ℕ := 0

inductive MutexMisuse where
  | doubleLock
  | badUnlock
  | badReadLock
  | badReadUnlock
  | destroyLocked

structure Ctx where
  detector : Detector
  contexts : Tid → ThreadContext
  metamap : ℕ → Option SyncVar
  /-- The sizes of the heap blocks, by their first address. -/
  blocks : ℕ → Option ℕ
  misuses : List (MutexMisuse × ℕ)

namespace Ctx

def initial : Ctx where
  detector := Detector.initial
  contexts := fun _ => { status := .invalid, detached := false, syncEpoch := 0 }
  metamap := fun _ => none
  blocks := fun _ => none
  misuses := []

def setSync (ctx : Ctx) (addr : ℕ) (s : SyncVar) : Ctx :=
  { ctx with metamap := update ctx.metamap addr (some s) }

def setContext (ctx : Ctx) (tid : Tid) (tctx : ThreadContext) : Ctx :=
  { ctx with contexts := update ctx.contexts tid tctx }

def getSyncOrCreate (ctx : Ctx) (addr : ℕ) : SyncVar := (ctx.metamap addr).getD {}

def misuse (ctx : Ctx) (b : Bool) (kind : MutexMisuse) (addr : ℕ) : Ctx :=
  if b then { ctx with misuses := ctx.misuses ++ [(kind, addr)] } else ctx

def ignoresSync (ctx : Ctx) (t : Tid) : Bool := (ctx.detector.threads t).ignoreSync != 0

end Ctx

/-! ## Memory accesses -/

def roundUp (n : ℕ) : ℕ := (n + 7) / 8 * 8

/-- The parts of an access in the cells it touches: the cell, the position in it and the size. -/
structure Piece where
  cell : ℕ
  pos : ℕ
  size : ℕ
  deriving DecidableEq

def memoryAccessPieces (addr size : ℕ) : List Piece := [⟨addr / 8, addr, size⟩]

def memoryAccess16Pieces (addr : ℕ) : List Piece := [⟨addr / 8, 0, 8⟩, ⟨addr / 8 + 1, 0, 8⟩]

def unalignedPieces (addr size : ℕ) : List Piece :=
  let size1 := min size (roundUp (addr + 1) - addr)
  let size2 := size - size1
  ⟨addr / 8, addr, size1⟩ :: if size2 = 0 then [] else [⟨addr / 8 + 1, 0, size2⟩]

/-- The whole cells of a range and what is left behind them. -/
def middlePieces (cell size : ℕ) : List Piece :=
  (List.range (size / 8)).map (fun i => ⟨cell + i, 0, 8⟩) ++
    if size % 8 = 0 then [] else [⟨cell + size / 8, 0, size % 8⟩]

def rangePieces (addr size : ℕ) : List Piece :=
  if addr % 8 = 0 then middlePieces (addr / 8) size
  else
    let size1 := min size (roundUp addr - addr)
    ⟨addr / 8, addr, size1⟩ :: middlePieces (addr / 8 + 1) (size - size1)

namespace Detector

variable (env : Env)

/-- One part after the other, until a race is reported. The constructor of `Shadow` checks the
size. -/
def accessPieces (d : Detector) (t : Tid) (typ : AccessType) (tracePos : ℕ) :
    List Piece → Option Detector
  | [] => some d
  | p :: ps =>
      if p.size = 0 || decide (8 < p.size) then none
      else do
        let cur := Shadow.make (d.threads t).fastState p.pos p.size typ
        let (d, raced) ← d.accessCell env.vectorize t p.cell cur typ tracePos
        if raced then some d else accessPieces d t typ tracePos ps

/-- A thread that ignores its accesses changes nothing; one that never had a slot has no trace
to write to. -/
def accessMemory (d : Detector) (t : Tid) (typ : AccessType) (tracePos : ℕ)
    (pieces : List Piece) : Option Detector :=
  if (d.threads t).fastState.ignoreAccesses then some d
  else if (d.threads t).slot.isNone then none
  else d.accessPieces env t typ tracePos pieces

def memoryAccess (d : Detector) (t : Tid) (addr size : ℕ) (typ : AccessType) (tracePos : ℕ) :
    Option Detector :=
  d.accessMemory env t typ tracePos (memoryAccessPieces addr size)

def memoryAccess16 (d : Detector) (t : Tid) (addr : ℕ) (typ : AccessType) (tracePos : ℕ) :
    Option Detector :=
  d.accessMemory env t typ tracePos (memoryAccess16Pieces addr)

def unalignedMemoryAccess (d : Detector) (t : Tid) (addr size : ℕ) (typ : AccessType)
    (tracePos : ℕ) : Option Detector :=
  d.accessMemory env t typ tracePos (unalignedPieces addr size)

/-- Read-only data is told by its first cell. -/
def memoryAccessRange (d : Detector) (t : Tid) (addr size : ℕ) (isRead : Bool) (tracePos : ℕ) :
    Option Detector :=
  if size = 0 || decide (d.shadow (addr / 8) firstIdx = Shadow.kRodata) then some d
  else d.accessMemory env t { read := isRead, atomic := false, noRodata := true } tracePos
    (rangePieces addr size)

def wipeCell (d : Detector) (t : Tid) (cell : ℕ) : Detector :=
  (d.setCells cell emptyCells).note t .internal (.wiped cell)

def imitateCell (d : Detector) (t : Tid) (cur : Shadow) (cell : ℕ) : Detector :=
  ((d.wipeCell t cell).setCells cell (cellsOf cur)).note t .internal
    (.access cell cur { read := false, atomic := false })

/-- The cells of a range that are written one by one: all of a small range; of a big one those
before the first page boundary that leaves half a page and those after the last one. A cell has
sixteen bytes of shadow. -/
def isSetOneByOne (size first last cell : ℕ) : Bool :=
  decide (size ≤ env.clearShadowMmapThreshold) ||
    decide (16 * cell < (16 * first + env.pageSize / 2 + env.pageSize - 1) / env.pageSize *
      env.pageSize) ||
    decide (16 * last / env.pageSize * env.pageSize ≤ 16 * cell)

/-- `MemoryRangeSet`; the other cells of a big range are mapped anew. -/
def memoryRangeSet (d : Detector) (t : Tid) (addr size : ℕ) (val : Option Shadow) : Detector :=
  if size = 0 || !env.isAppMem addr || !env.isAppMem (addr + size - 1) then d
  else
    let first := addr / 8
    let last := first + size / 8
    (List.range' first (size / 8)).foldl (fun d cell =>
      match val with
      | some cur =>
          if isSetOneByOne env size first last cell then d.imitateCell t cur cell
          else d.wipeCell t cell
      | none => d.wipeCell t cell) d

def memoryResetRange (d : Detector) (t : Tid) (addr size : ℕ) : Detector :=
  let addr1 := addr / 8 * 8
  d.memoryRangeSet env t addr1 (roundUp (size + addr - addr1)) none

/-- The write is traced, which needs a slot. -/
def memoryRangeImitateWrite (d : Detector) (t : Tid) (addr size : ℕ) : Option Detector :=
  if (d.threads t).slot.isNone then none
  else some (d.memoryRangeSet env t addr (roundUp size)
    (some (Shadow.make (d.threads t).fastState 0 8 { read := false, atomic := false })))

/-- `DontNeedShadowFor`: the pages of shadow that lie inside the range are given back. -/
def dontNeedShadowFor (d : Detector) (t : Tid) (addr size : ℕ) : Detector :=
  let first := addr / 8
  let last := (addr + size) / 8
  ((List.range' first (last - first)).filter fun cell =>
    decide ((16 * first + env.pageSize - 1) / env.pageSize * env.pageSize ≤ 16 * cell) &&
      decide (16 * cell + 16 ≤ 16 * last / env.pageSize * env.pageSize)).foldl
    (fun d cell => d.wipeCell t cell) d

def freeAccess : AccessType :=
  { read := false, atomic := false, free := true, checkOnly := true, noRodata := true,
    slotLocked := true }

/-- Each cell is checked and then marked as freed, until a race is reported. -/
def freeCells (d : Detector) (t : Tid) (cur : Shadow) (tracePos : ℕ) :
    List ℕ → Option Detector
  | [] => some d
  | cell :: cells => do
      let d := d.note t .internal (.access cell cur freeAccess)
      let (d, raced) ← d.check env.vectorize t cell cur freeAccess tracePos
      if raced then some d
      else
        let d := (d.setCells cell (freedCells cur.sid cur.epoch)).note t .internal
          (.freed cell cur.sid cur.epoch)
        freeCells d t cur tracePos cells

/-- No more than the first kilobyte. -/
def memoryRangeFreed (d : Detector) (t : Tid) (addr size : ℕ) (tracePos : ℕ) : Option Detector :=
  let size := min (roundUp size) 1024
  let cur := Shadow.make (d.threads t).fastState 0 8 freeAccess
  d.freeCells env t cur tracePos (List.range' (addr / 8) (size / 8))

end Detector

namespace Ctx

variable (env : Env)

/-- Runs the detector alone. -/
def detect (ctx : Ctx) (f : Detector → Option Detector) : Option Ctx := do
  let d ← f ctx.detector
  some { ctx with detector := d }

/-- The access to the mutex itself, when it lies in the memory of the program. -/
def accessMutex (ctx : Ctx) (t : Tid) (addr : ℕ) (typ : AccessType) (tracePos : ℕ) : Option Ctx :=
  if env.isAppMem addr then
    ctx.detect fun d => d.memoryAccess env t addr 1 typ tracePos
  else some ctx

def readAtomic : AccessType := { read := true, atomic := true }

/-! ## Mutexes -/

def mutexCreate (ctx : Ctx) (t : Tid) (addr : ℕ) (flagz : MutexFlags) (tracePos : ℕ) :
    Option Ctx := do
  let ctx ← if !flagz.linkerInit then
      ctx.accessMutex env t addr { read := false, atomic := false } tracePos
    else some ctx
  let ctx ← ctx.detect fun d => d.slotLock t
  let s := ctx.getSyncOrCreate addr
  some (ctx.setSync addr { s with flags := s.flags.setCreation flagz })

/-- `SyncVar::Reset` of a sync object that stays in the map. -/
def resetSync (ctx : Ctx) (t : Tid) (addr : ℕ) : Option Ctx := do
  let ctx ← ctx.detect fun d => some ((d.freeClock t (.clock addr)).freeClock t (.readClock addr))
  some (ctx.setSync addr {})

def mutexDestroy (ctx : Ctx) (t : Tid) (addr : ℕ) (flagz : MutexFlags) (tracePos : ℕ) :
    Option Ctx :=
  match ctx.metamap addr with
  | none => some ctx
  | some s => do
      let ctx ← ctx.detect fun d => d.slotLock t
      if flagz.linkerInit || s.flags.linkerInit || (flagz.notStatic && !s.flags.notStatic) then
        some ctx
      else
        let locked := env.reportDestroyLocked && s.ownerTid.isSome && !s.flags.broken
        let ctx ← ctx.resetSync t addr
        let ctx ← ctx.accessMutex env t addr
          { read := false, atomic := false, free := true, slotLocked := true } tracePos
        some (ctx.misuse locked .destroyLocked addr)

def mutexPostLock (ctx : Ctx) (t : Tid) (addr : ℕ) (flagz : MutexFlags) (recs : ℤ)
    (tracePos : ℕ) : Option Ctx := do
  if flagz.recursiveLock && decide (recs ≤ 0) then none
  else
    let ctx ← ctx.accessMutex env t addr readAtomic tracePos
    let ctx ← ctx.detect fun d => d.slotLock t
    let s := ctx.getSyncOrCreate addr
    let first := s.recursion == 0
    if !s.passesChecks t then none
    else
      let double := s.isDoubleLock env t flagz
      let ctx := ctx.setSync addr (s.afterLock t flagz recs double)
      let ctx ← if first && !ctx.ignoresSync t then
          ctx.detect fun d => some ((d.acquire t (.clock addr)).acquire t (.readClock addr))
        else some ctx
      some (ctx.misuse double .doubleLock addr)

def mutexUnlock (ctx : Ctx) (t : Tid) (addr : ℕ) (flagz : MutexFlags) (tracePos : ℕ) :
    Option Ctx := do
  let ctx ← ctx.accessMutex env t addr readAtomic tracePos
  let ctx ← ctx.detect fun d => d.slotLock t
  let s := ctx.getSyncOrCreate addr
  if s.recursion == 0 || decide (s.ownerTid ≠ some t) then
    let bad := env.reportMutexBugs && !s.flags.broken
    some ((ctx.setSync addr (s.setBroken bad)).misuse bad .badUnlock addr)
  else
    let s := s.afterUnlock flagz
    let ctx := ctx.setSync addr s
    if s.recursion == 0 && !ctx.ignoresSync t then
      ctx.detect fun d => (d.releaseStore t (.clock addr)).incrementEpoch t
    else some ctx

def mutexPostReadLock (ctx : Ctx) (t : Tid) (addr : ℕ) (flagz : MutexFlags) (tracePos : ℕ) :
    Option Ctx := do
  let ctx ← ctx.accessMutex env t addr readAtomic tracePos
  let ctx ← ctx.detect fun d => d.slotLock t
  let s := ctx.getSyncOrCreate addr
  let s := { s with flags := s.flags.updateFlags flagz }
  let bad := s.ownerTid.isSome && env.reportMutexBugs && !s.flags.broken
  let ctx := ctx.setSync addr (s.setBroken bad)
  let ctx ← if !ctx.ignoresSync t then
      ctx.detect fun d => some (d.acquire t (.clock addr))
    else some ctx
  some (ctx.misuse bad .badReadLock addr)

def mutexReadUnlock (ctx : Ctx) (t : Tid) (addr : ℕ) (tracePos : ℕ) : Option Ctx := do
  let ctx ← ctx.accessMutex env t addr readAtomic tracePos
  let ctx ← ctx.detect fun d => d.slotLock t
  let s := ctx.getSyncOrCreate addr
  let bad := s.ownerTid.isSome && env.reportMutexBugs && !s.flags.broken
  let ctx := ctx.setSync addr (s.setBroken bad)
  let ctx ← if !ctx.ignoresSync t then
      ctx.detect fun d => (d.release t (.readClock addr)).incrementEpoch t
    else some ctx
  some (ctx.misuse bad .badReadUnlock addr)

def mutexReadOrWriteUnlock (ctx : Ctx) (t : Tid) (addr : ℕ) (tracePos : ℕ) : Option Ctx := do
  let ctx ← ctx.accessMutex env t addr readAtomic tracePos
  let ctx ← ctx.detect fun d => d.slotLock t
  let s := ctx.getSyncOrCreate addr
  let ctx := ctx.setSync addr s
  match s.ownerTid with
  | none =>
      if !ctx.ignoresSync t then
        ctx.detect fun d => (d.release t (.readClock addr)).incrementEpoch t
      else some ctx
  | some owner =>
      if owner = t then
        if s.recursion ≤ 0 then none
        else
          let s := s.afterUnlock {}
          let ctx := ctx.setSync addr s
          if s.recursion == 0 && !ctx.ignoresSync t then
            ctx.detect fun d => (d.releaseStore t (.clock addr)).incrementEpoch t
          else some ctx
      else
        let bad := !s.flags.broken
        some ((ctx.setSync addr (s.setBroken bad)).misuse bad .badUnlock addr)

def mutexRepair (ctx : Ctx) (t : Tid) (addr : ℕ) : Option Ctx := do
  let ctx ← ctx.detect fun d => d.slotLock t
  some (ctx.setSync addr { ctx.getSyncOrCreate addr with ownerTid := none, recursion := 0 })

/-! ## Synchronisation on an address -/

def acquire (ctx : Ctx) (t : Tid) (addr : ℕ) : Option Ctx :=
  if ctx.ignoresSync t then some ctx
  else
    match ctx.metamap addr with
    | none => some ctx
    | some _ => ctx.detect fun d => do
        let d ← d.slotLock t
        some (d.acquire t (.clock addr))

/-- `Release` and `ReleaseStore`: the clock object is created if need be. -/
def releaseWith (ctx : Ctx) (t : Tid) (addr : ℕ) (f : Detector → Tid → Object → Detector) :
    Option Ctx := do
  let ctx ← ctx.detect fun d => d.slotLock t
  let ctx := ctx.setSync addr (ctx.getSyncOrCreate addr)
  ctx.detect fun d => (f d t (.clock addr)).incrementEpoch t

def release (ctx : Ctx) (t : Tid) (addr : ℕ) : Option Ctx :=
  if ctx.ignoresSync t then some ctx else ctx.releaseWith t addr Detector.release

def releaseStore (ctx : Ctx) (t : Tid) (addr : ℕ) : Option Ctx :=
  if ctx.ignoresSync t then some ctx else ctx.releaseWith t addr Detector.releaseStore

end Ctx

/-! ## Atomic operations -/

inductive MemoryOrder where
  | relaxed
  | consume
  | acquire
  | release
  | acqRel
  | seqCst
  deriving DecidableEq

namespace MemoryOrder

def isReleaseOrder (mo : MemoryOrder) : Bool := mo = release || mo = acqRel || mo = seqCst

def isAcquireOrder (mo : MemoryOrder) : Bool :=
  mo = consume || mo = acquire || mo = acqRel || mo = seqCst

def isAcqRelOrder (mo : MemoryOrder) : Bool := mo = acqRel || mo = seqCst

end MemoryOrder

namespace Ctx

variable (env : Env)

def atomicAccess (ctx : Ctx) (t : Tid) (addr size : ℕ) (isRead : Bool) (tracePos : ℕ) :
    Option Ctx :=
  ctx.detect fun d => d.memoryAccess env t addr size { read := isRead, atomic := true } tracePos

def atomicLoad (ctx : Ctx) (t : Tid) (addr size : ℕ) (mo : MemoryOrder) (tracePos : ℕ) :
    Option Ctx :=
  if ctx.ignoresSync t then some ctx
  else if !mo.isAcquireOrder then ctx.atomicAccess env t addr size true tracePos
  else do
    let ctx ← match ctx.metamap addr with
      | none => some ctx
      | some _ => ctx.detect fun d => do
          let d ← d.slotLock t
          some (d.acquire t (.clock addr))
    ctx.atomicAccess env t addr size true tracePos

def atomicStore (ctx : Ctx) (t : Tid) (addr size : ℕ) (mo : MemoryOrder) (tracePos : ℕ) :
    Option Ctx :=
  if ctx.ignoresSync t then some ctx
  else do
    let ctx ← ctx.atomicAccess env t addr size false tracePos
    if !mo.isReleaseOrder then some ctx else ctx.releaseWith t addr Detector.releaseStore

/-- What an operation that reads and writes does to the clock under a memory order. -/
def synchronize (ctx : Ctx) (t : Tid) (addr : ℕ) (mo : MemoryOrder) (releases : Bool) :
    Option Ctx := do
  let ctx ← ctx.detect fun d => d.slotLock t
  let ctx := ctx.setSync addr (ctx.getSyncOrCreate addr)
  let x := Object.clock addr
  if releases && mo.isAcqRelOrder then
    ctx.detect fun d => (d.releaseAcquire t x).incrementEpoch t
  else if releases && mo.isReleaseOrder then
    ctx.detect fun d => (d.release t x).incrementEpoch t
  else if mo.isAcquireOrder then ctx.detect fun d => some (d.acquire t x)
  else some ctx

def atomicRMW (ctx : Ctx) (t : Tid) (addr size : ℕ) (mo : MemoryOrder) (tracePos : ℕ) :
    Option Ctx :=
  if ctx.ignoresSync t then some ctx
  else do
    let ctx ← ctx.atomicAccess env t addr size false tracePos
    if mo = .relaxed then some ctx else ctx.synchronize t addr mo true

/-- The value in memory decides whether a compare-and-swap succeeds. -/
def atomicCAS (ctx : Ctx) (t : Tid) (addr size : ℕ) (mo fmo : MemoryOrder) (success : Bool)
    (tracePos : ℕ) : Option Ctx :=
  if ctx.ignoresSync t then some ctx
  else do
    let ctx ← ctx.atomicAccess env t addr size false tracePos
    if mo = .relaxed ∧ fmo = .relaxed then some ctx
    else ctx.synchronize t addr (if success then mo else fmo) success

/-! ## Threads -/

def threadCreate (ctx : Ctx) (t tid : Tid) (detached : Bool) : Option Ctx :=
  if (ctx.contexts tid).status ≠ .invalid then none
  else if ctx.ignoresSync t then 
    some (ctx.setContext tid { status := .created, detached := detached, syncEpoch := 0 })
  else do
    let ctx ← ctx.detect fun d => d.slotLock t
    let ctx := ctx.setContext tid
      { status := .created, detached := detached, syncEpoch := ctx.detector.globalEpoch }
    ctx.detect fun d => (d.releaseStore t (.thread tid)).incrementEpoch t

/-- The main thread is created without a parent. -/
def mainCreate (ctx : Ctx) (tid : Tid) : Option Ctx :=
  if (ctx.contexts tid).status ≠ .invalid then none
  else some (ctx.setContext tid { status := .created, detached := false, syncEpoch := 0 })

/-- The state of a thread that has not started is the initial one. The stack of a thread other
than the main one counts as written by it. -/
def threadStart (ctx : Ctx) (tid : Tid) (isMain : Bool) (stkAddr stkSize : ℕ) : Option Ctx :=
  if (ctx.contexts tid).status ≠ .created then none
  else do
    let tctx := ctx.contexts tid
    let ctx := ctx.setContext tid
      { tctx with status := .running, stkAddr := stkAddr, stkSize := stkSize }
    let ctx ← if ctx.ignoresSync tid then some ctx else ctx.detect fun d => do
        let d ← d.slotAttachAndLock tid
        some (if tctx.syncEpoch = d.globalEpoch then d.acquire tid (.thread tid) else d)
    let ctx ← ctx.detect fun d => some (d.freeClock tid (.thread tid))
    ctx.detect fun d =>
      if isMain || stkSize = 0 then some d else d.memoryRangeImitateWrite env tid stkAddr stkSize

def threadFinish (ctx : Ctx) (tid : Tid) : Option Ctx :=
  if (ctx.contexts tid).status ≠ .running then none
  else do
    let tctx := ctx.contexts tid
    let ctx ← ctx.detect fun d => some (d.dontNeedShadowFor env tid tctx.stkAddr tctx.stkSize)
    let ctx ← if ctx.ignoresSync tid then some ctx else do
        let ctx ← ctx.detect fun d => d.slotLock tid
        if !tctx.detached then
          let ctx := ctx.setContext tid { tctx with syncEpoch := ctx.detector.globalEpoch }
          ctx.detect fun d => (d.releaseStore tid (.thread tid)).incrementEpoch tid
        else some ctx
    let ctx ← ctx.detect fun d => d.slotDetachImpl tid true
    some (ctx.setContext tid { ctx.contexts tid with
      status := if tctx.detached then .dead else .finished })

/-- Joining waits for the thread to finish. -/
def threadJoin (ctx : Ctx) (t tid : Tid) : Option Ctx :=
  let tctx := ctx.contexts tid
  if tctx.status ≠ .finished || tctx.detached then none
  else do
    let ctx := ctx.setContext tid { tctx with status := .dead, syncEpoch := 0 }
    let ctx ← if ctx.ignoresSync t then some ctx else ctx.detect fun d => do
        let d ← d.slotLock t
        some (if tctx.syncEpoch = d.globalEpoch then d.acquire t (.thread tid) else d)
    ctx.detect fun d => some (d.freeClock t (.thread tid))

def threadDetach (ctx : Ctx) (t tid : Tid) : Option Ctx :=
  let tctx := ctx.contexts tid
  if tctx.status = .invalid then some ctx
  else do
    let ctx ← ctx.detect fun d => some (d.freeClock t (.thread tid))
    if tctx.status = .finished then some (ctx.setContext tid { tctx with status := .dead })
    else some (ctx.setContext tid { tctx with detached := true })

def threadIgnoreBegin (ctx : Ctx) (t : Tid) : Option Ctx :=
  ctx.detect fun d =>
    let thr := d.threads t
    some (d.setThread t { thr with
      ignoreReadsAndWrites := thr.ignoreReadsAndWrites + 1
      fastState := { thr.fastState with ignoreAccesses := true } })

def threadIgnoreEnd (ctx : Ctx) (t : Tid) : Option Ctx :=
  ctx.detect fun d =>
    let thr := d.threads t
    if thr.ignoreReadsAndWrites = 0 then none
    else
      let left := thr.ignoreReadsAndWrites - 1
      some (d.setThread t { thr with
        ignoreReadsAndWrites := left
        fastState := if left = 0 then { thr.fastState with ignoreAccesses := false }
          else thr.fastState })

def threadIgnoreSyncBegin (ctx : Ctx) (t : Tid) : Option Ctx :=
  ctx.detect fun d =>
    let thr := d.threads t
    some (d.setThread t { thr with ignoreSync := thr.ignoreSync + 1 })

def threadIgnoreSyncEnd (ctx : Ctx) (t : Tid) : Option Ctx :=
  ctx.detect fun d =>
    let thr := d.threads t
    if thr.ignoreSync = 0 then none
    else some (d.setThread t { thr with ignoreSync := thr.ignoreSync - 1 })

/-! ## The heap -/

def onUserAlloc (ctx : Ctx) (t : Tid) (p sz : ℕ) (write : Bool) : Option Ctx := do
  let ctx := { ctx with blocks := update ctx.blocks p (some sz) }
  ctx.detect fun d =>
    let thr := d.threads t
    if write && decide (thr.ignoreReadsAndWrites = 0) && thr.slot.isSome then
      d.memoryRangeImitateWrite env t p sz
    else some (d.memoryResetRange env t p sz)

/-- The sync objects of a freed block go, with their clocks. -/
def freeSyncs (ctx : Ctx) (t : Tid) : List ℕ → Option Ctx
  | [] => some ctx
  | addr :: addrs => do
      let ctx ← match ctx.metamap addr with
        | none => some ctx
        | some _ => do
            let ctx ← ctx.resetSync t addr
            some { ctx with metamap := update ctx.metamap addr none }
      freeSyncs ctx t addrs

def onUserFree (ctx : Ctx) (t : Tid) (p : ℕ) (write : Bool) (tracePos : ℕ) : Option Ctx := do
  let sz ← ctx.blocks p
  let ctx := { ctx with blocks := update ctx.blocks p none }
  if (ctx.detector.threads t).slot.isNone then ctx.freeSyncs t (List.range' p (roundUp sz))
  else
    let ctx ← ctx.detect fun d => d.slotLock t
    let ctx ← ctx.freeSyncs t (List.range' p (roundUp sz))
    if write && decide ((ctx.detector.threads t).ignoreReadsAndWrites = 0) then
      ctx.detect fun d => d.memoryRangeFreed env t p (roundUp sz) tracePos
    else some ctx

end Ctx

/-! ## Runs -/

inductive Op where
  | memoryAccess (t : Tid) (addr size : ℕ) (typ : AccessType) (tracePos : ℕ)
  | memoryAccess16 (t : Tid) (addr : ℕ) (typ : AccessType) (tracePos : ℕ)
  | unalignedMemoryAccess (t : Tid) (addr size : ℕ) (typ : AccessType) (tracePos : ℕ)
  | memoryAccessRange (t : Tid) (addr size : ℕ) (isRead : Bool) (tracePos : ℕ)
  | memoryResetRange (t : Tid) (addr size : ℕ)
  | memoryRangeImitateWrite (t : Tid) (addr size : ℕ)
  | traceSwitchPart (t : Tid)
  | threadIgnoreBegin (t : Tid)
  | threadIgnoreEnd (t : Tid)
  | threadIgnoreSyncBegin (t : Tid)
  | threadIgnoreSyncEnd (t : Tid)
  | mutexCreate (t : Tid) (addr : ℕ) (flagz : MutexFlags) (tracePos : ℕ)
  | mutexDestroy (t : Tid) (addr : ℕ) (flagz : MutexFlags) (tracePos : ℕ)
  | mutexPostLock (t : Tid) (addr : ℕ) (flagz : MutexFlags) (recs : ℤ) (tracePos : ℕ)
  | mutexUnlock (t : Tid) (addr : ℕ) (flagz : MutexFlags) (tracePos : ℕ)
  | mutexPostReadLock (t : Tid) (addr : ℕ) (flagz : MutexFlags) (tracePos : ℕ)
  | mutexReadUnlock (t : Tid) (addr : ℕ) (tracePos : ℕ)
  | mutexReadOrWriteUnlock (t : Tid) (addr : ℕ) (tracePos : ℕ)
  | mutexRepair (t : Tid) (addr : ℕ)
  | acquire (t : Tid) (addr : ℕ)
  | release (t : Tid) (addr : ℕ)
  | releaseStore (t : Tid) (addr : ℕ)
  | atomicLoad (t : Tid) (addr size : ℕ) (mo : MemoryOrder) (tracePos : ℕ)
  | atomicStore (t : Tid) (addr size : ℕ) (mo : MemoryOrder) (tracePos : ℕ)
  | atomicRMW (t : Tid) (addr size : ℕ) (mo : MemoryOrder) (tracePos : ℕ)
  | atomicCAS (t : Tid) (addr size : ℕ) (mo fmo : MemoryOrder) (success : Bool) (tracePos : ℕ)
  | mainCreate (tid : Tid)
  | threadCreate (t tid : Tid) (detached : Bool)
  | threadStart (tid : Tid) (isMain : Bool) (stkAddr stkSize : ℕ)
  | threadFinish (tid : Tid)
  | threadJoin (t tid : Tid)
  | threadDetach (t tid : Tid)
  | onUserAlloc (t : Tid) (p sz : ℕ) (write : Bool)
  | onUserFree (t : Tid) (p : ℕ) (write : Bool) (tracePos : ℕ)

namespace Ctx

variable (env : Env)

/-- An operation that the runtime would answer with a failed check or with a reset of the shadow
memory is refused. -/
def step (ctx : Ctx) : Op → Option Ctx
  | .memoryAccess t addr size typ tracePos =>
      ctx.detect fun d => d.memoryAccess env t addr size typ tracePos
  | .memoryAccess16 t addr typ tracePos =>
      ctx.detect fun d => d.memoryAccess16 env t addr typ tracePos
  | .unalignedMemoryAccess t addr size typ tracePos =>
      ctx.detect fun d => d.unalignedMemoryAccess env t addr size typ tracePos
  | .memoryAccessRange t addr size isRead tracePos =>
      ctx.detect fun d => d.memoryAccessRange env t addr size isRead tracePos
  | .memoryResetRange t addr size => ctx.detect fun d => some (d.memoryResetRange env t addr size)
  | .memoryRangeImitateWrite t addr size =>
      ctx.detect fun d => d.memoryRangeImitateWrite env t addr size
  | .traceSwitchPart t => ctx.detect fun d => d.traceSwitchPart t
  | .threadIgnoreBegin t => ctx.threadIgnoreBegin t
  | .threadIgnoreEnd t => ctx.threadIgnoreEnd t
  | .threadIgnoreSyncBegin t => ctx.threadIgnoreSyncBegin t
  | .threadIgnoreSyncEnd t => ctx.threadIgnoreSyncEnd t
  | .mutexCreate t addr flagz tracePos => ctx.mutexCreate env t addr flagz tracePos
  | .mutexDestroy t addr flagz tracePos => ctx.mutexDestroy env t addr flagz tracePos
  | .mutexPostLock t addr flagz recs tracePos => ctx.mutexPostLock env t addr flagz recs tracePos
  | .mutexUnlock t addr flagz tracePos => ctx.mutexUnlock env t addr flagz tracePos
  | .mutexPostReadLock t addr flagz tracePos => ctx.mutexPostReadLock env t addr flagz tracePos
  | .mutexReadUnlock t addr tracePos => ctx.mutexReadUnlock env t addr tracePos
  | .mutexReadOrWriteUnlock t addr tracePos => ctx.mutexReadOrWriteUnlock env t addr tracePos
  | .mutexRepair t addr => ctx.mutexRepair t addr
  | .acquire t addr => ctx.acquire t addr
  | .release t addr => ctx.release t addr
  | .releaseStore t addr => ctx.releaseStore t addr
  | .atomicLoad t addr size mo tracePos => ctx.atomicLoad env t addr size mo tracePos
  | .atomicStore t addr size mo tracePos => ctx.atomicStore env t addr size mo tracePos
  | .atomicRMW t addr size mo tracePos => ctx.atomicRMW env t addr size mo tracePos
  | .atomicCAS t addr size mo fmo success tracePos =>
      ctx.atomicCAS env t addr size mo fmo success tracePos
  | .mainCreate tid => ctx.mainCreate tid
  | .threadCreate t tid detached => ctx.threadCreate t tid detached
  | .threadStart tid isMain stkAddr stkSize => ctx.threadStart env tid isMain stkAddr stkSize
  | .threadFinish tid => ctx.threadFinish env tid
  | .threadJoin t tid => ctx.threadJoin t tid
  | .threadDetach t tid => ctx.threadDetach t tid
  | .onUserAlloc t p sz write => ctx.onUserAlloc env t p sz write
  | .onUserFree t p write tracePos => ctx.onUserFree env t p write tracePos

def run (ctx : Ctx) (ops : List Op) : Option Ctx := ops.foldlM (step env) ctx

end Ctx

end Mair.RaceDetector
