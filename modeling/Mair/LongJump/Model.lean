import Mathlib.Algebra.Group.Nat.Defs
import Mathlib.Data.Int.Basic
import Mair.Library.SwapRemoval

/-! # The thread state across `setjmp` and `longjmp`

What TSan keeps of a thread when control leaves a function or a signal handler other than by a
return: the shadow stack, the jump records and the ignore state. -/

namespace Mair.LongJump

open SwapRemoval

/-! ## State -/

def kShadowStackSize : ℕ := 64 * 1024

/-- `inSignalHandler` counts the handlers that run. -/
structure JmpBuf where
  sp : ℕ
  intSignalSend : ℤ
  inBlockingFunc : Bool
  inSignalHandler : ℕ
  shadowStackPos : ℕ
  deriving DecidableEq

/-- `ignore_reads_and_writes` and `ignore_sync`. -/
structure Ignores where
  readsAndWrites : ℤ
  sync : ℤ
  deriving DecidableEq

/-- The positions count from the start of the shadow stack. `optimised` stands for the single-thread
optimisation of the main thread without `tsan_ignore_runtime`, and `mainThreadTsanDisabled` and
`mainThreadState` for the two globals. -/
structure ThreadState where
  ignoreBit : Bool
  ignores : Ignores
  ignoreInterceptors : ℤ
  inSymbolizer : ℤ
  nomalloc : ℤ
  isInited : Bool
  inSignalHandler : ℕ
  inBlockingFunc : Bool
  intSignalSend : ℤ
  shadowStack : ℕ → ℕ
  shadowStackPos : ℕ
  stackOverflow : ℕ
  jmpBufs : List JmpBuf
  optimised : Bool
  mainThreadTsanDisabled : Bool
  mainThreadState : Ignores

namespace ThreadState

/-! ## The shadow stack -/

/-- `stack_overflow` has 32 bits. -/
def funcEntry (t : ThreadState) (pc : ℕ) : ThreadState :=
  if t.shadowStackPos ≥ kShadowStackSize - 1 then
    { t with
      shadowStack := Function.update t.shadowStack (kShadowStackSize - 2) pc
      stackOverflow := (t.stackOverflow + 1) % 2 ^ 32 }
  else
    { t with
      shadowStack := Function.update t.shadowStack t.shadowStackPos pc
      shadowStackPos := t.shadowStackPos + 1 }

def funcExit (t : ThreadState) : ThreadState :=
  if t.stackOverflow ≠ 0 then { t with stackOverflow := t.stackOverflow - 1 }
  else { t with shadowStackPos := t.shadowStackPos - 1 }

/-- The loop of `LongJmp` that unwinds the stack. -/
def unwind (t : ThreadState) (pos : ℕ) : ThreadState :=
  if t.shadowStackPos > pos then t.funcExit.unwind pos else t
  termination_by t.stackOverflow + t.shadowStackPos
  decreasing_by
    unfold funcExit
    split
    · simp only
      omega
    · simp only
      omega

/-! ## The ignore state -/

def threadIgnoreBegin (t : ThreadState) : Option ThreadState :=
  if t.ignores.readsAndWrites + 1 > 0 then
    some { t with
      ignores := { t.ignores with readsAndWrites := t.ignores.readsAndWrites + 1 }
      ignoreBit := true }
  else none

def threadIgnoreEnd (t : ThreadState) : Option ThreadState :=
  if t.ignores.readsAndWrites > 0 then
    some { t with
      ignores := { t.ignores with readsAndWrites := t.ignores.readsAndWrites - 1 }
      ignoreBit := if t.ignores.readsAndWrites - 1 = 0 then false else t.ignoreBit }
  else none

def threadIgnoreSyncBegin (t : ThreadState) : Option ThreadState :=
  if t.ignores.sync + 1 > 0 then
    some { t with ignores := { t.ignores with sync := t.ignores.sync + 1 } }
  else none

def threadIgnoreSyncEnd (t : ThreadState) : Option ThreadState :=
  if t.ignores.sync > 0 then
    some { t with ignores := { t.ignores with sync := t.ignores.sync - 1 } }
  else none

def disableTsan (t : ThreadState) : Option ThreadState :=
  t.threadIgnoreSyncBegin.bind threadIgnoreBegin

def enableTsan (t : ThreadState) : Option ThreadState :=
  t.threadIgnoreEnd.bind threadIgnoreSyncEnd

def storeCurrentTsanState (t : ThreadState) : ThreadState := { t with mainThreadState := t.ignores }

def restoreTsanState (t : ThreadState) : ThreadState := { t with ignores := t.mainThreadState }

def disableMainThreadTsan (t : ThreadState) : Option ThreadState :=
  if t.inSignalHandler ≠ 0 then some t
  else if t.mainThreadTsanDisabled then some t
  else ({ t with mainThreadTsanDisabled := true }).disableTsan.map storeCurrentTsanState

def enableMainThreadTsan (t : ThreadState) : Option ThreadState :=
  if t.inSignalHandler ≠ 0 then some t
  else if !t.mainThreadTsanDisabled then some t
  else ({ t with mainThreadTsanDisabled := false }).enableTsan.map storeCurrentTsanState

/-! ## Jump records -/

def jmpBufGarbageCollect (t : ThreadState) (sp : ℕ) : ThreadState :=
  { t with
    jmpBufs := sweep (fun buf =>
      decide (buf.inSignalHandler ≠ 0) == decide (t.inSignalHandler ≠ 0) && buf.sp ≤ sp) t.jmpBufs }

/-- The record that `SetJmp` makes. -/
def jmpBuf (t : ThreadState) (sp : ℕ) : JmpBuf where
  sp := sp
  intSignalSend := t.intSignalSend
  inBlockingFunc := t.inBlockingFunc
  inSignalHandler := t.inSignalHandler
  shadowStackPos := t.shadowStackPos

def setJmp (t : ThreadState) (sp : ℕ) : ThreadState :=
  if !t.isInited then t
  else
    let t := t.jmpBufGarbageCollect sp
    { t with jmpBufs := t.jmpBufs ++ [t.jmpBuf sp] }

/-- A failed `CHECK` is `none`. -/
def longJmp (t : ThreadState) (sp : ℕ) : Option ThreadState :=
  match t.jmpBufs.find? fun buf => buf.sp = sp with
  | none => none
  | some buf =>
      if t.shadowStackPos < buf.shadowStackPos then none
      else
        let t := t.unwind buf.shadowStackPos
        let t := { t with intSignalSend := buf.intSignalSend }
        let t := if t.inSignalHandler ≠ 0 ∧ t.optimised then t.restoreTsanState else t
        let t := { t with inBlockingFunc := buf.inBlockingFunc }
        let t := { t with inSignalHandler := buf.inSignalHandler }
        some (t.jmpBufGarbageCollect (buf.sp - 1))

end ThreadState

/-! ## Signal handlers -/

/-- What `CallUserSignalHandler` and its caller keep on the stack. -/
structure Interrupted where
  ignores : Ignores
  ignoreInterceptors : ℤ
  inSymbolizer : ℤ
  blocking : Bool
  deriving DecidableEq

namespace ThreadState

/-- The way into a handler: `sighandler`, or `ProcessPendingSignals` if `pending`, and
`CallUserSignalHandler` up to the call. -/
def deliver (t : ThreadState) (pending : Bool) : ThreadState × Interrupted :=
  let blocking := !pending && t.inBlockingFunc
  ({ t with
      inSignalHandler := t.inSignalHandler + 1
      inBlockingFunc := t.inBlockingFunc && !blocking
      ignores := ⟨0, 0⟩
      ignoreBit := false
      ignoreInterceptors := 0
      inSymbolizer := 0 },
    ⟨t.ignores, t.ignoreInterceptors, t.inSymbolizer, blocking⟩)

/-- The way back from a handler that returns. -/
def resume (t : ThreadState) (saved : Interrupted) : ThreadState :=
  { t with
    ignores := saved.ignores
    ignoreBit := t.ignoreBit || saved.ignores.readsAndWrites ≠ 0
    ignoreInterceptors := saved.ignoreInterceptors
    inSymbolizer := saved.inSymbolizer
    inBlockingFunc := t.inBlockingFunc || saved.blocking
    inSignalHandler := t.inSignalHandler - 1 }

end ThreadState

/-! ## Ignore scopes of the runtime -/

/-- What `ScopedIgnoreTsan` keeps. -/
structure ScopedIgnoreTsan where
  nomalloc : Bool
  inSignalHandler : ℕ
  deriving DecidableEq

namespace ThreadState

/-- The constructor, and the destructor below. -/
def openScope (t : ThreadState) : Option (ThreadState × ScopedIgnoreTsan) :=
  t.disableTsan.map fun t' =>
    ({ t' with nomalloc := 0, inSignalHandler := 0 }, ⟨t.nomalloc ≠ 0, t.inSignalHandler⟩)

def closeScope (t : ThreadState) (scope : ScopedIgnoreTsan) : Option ThreadState :=
  ({ t with
    nomalloc := if scope.nomalloc then 1 else 0
    inSignalHandler := scope.inSignalHandler }).enableTsan

end ThreadState

end Mair.LongJump
