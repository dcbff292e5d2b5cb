import Mathlib.Data.Int.Basic
import Mair.Library.Runs

/-! # The single-thread optimisation

TSan is disabled on the main thread while no other thread is unjoined. The flag
`tsan_ignore_single_thread` is on and `tsan_ignore_runtime` is off. -/

namespace Mair.SingleThread

/-! ## State -/

/-- `ignore_reads_and_writes` and `ignore_sync` of the main thread. -/
structure Counters where
  ignoreReadsAndWrites : ℤ
  ignoreSync : ℤ
  deriving DecidableEq

namespace Counters

def zero : Counters := ⟨0, 0⟩

/-- `ThreadIgnoreSyncBegin` and `ThreadIgnoreBegin`. -/
def disableTsan (c : Counters) : Counters := ⟨c.ignoreReadsAndWrites + 1, c.ignoreSync + 1⟩

/-- `ThreadIgnoreEnd` and `ThreadIgnoreSyncEnd`. -/
def enableTsan (c : Counters) : Counters := ⟨c.ignoreReadsAndWrites - 1, c.ignoreSync - 1⟩

end Counters

/-- The counters on one level of handler nesting, and the part of them that scopes other than
`DisableMainThreadTsan` have added. -/
structure Level where
  counters : Counters
  others : Counters
  deriving DecidableEq

/-- A scope other than `DisableMainThreadTsan` changes the counters. -/
def Level.add (l : Level) (writes sync : ℤ) : Level where
  counters := ⟨l.counters.ignoreReadsAndWrites + writes, l.counters.ignoreSync + sync⟩
  others := ⟨l.others.ignoreReadsAndWrites + writes, l.others.ignoreSync + sync⟩

structure ThreadContext where
  started : Bool
  finished : Bool
  joined : Bool
  detached : Bool
  deriving DecidableEq

/-- `saved` holds what `CallUserSignalHandler` has saved, the innermost handler first, and
`threads` the threads and fibers that `ThreadCreate` has registered after the main thread. -/
structure Runtime where
  numAliveThreads : ℕ
  numUnjoinedThreads : ℕ
  mainThreadTsanDisabled : Bool
  mainThreadState : Counters
  current : Level
  saved : List Level
  threads : List ThreadContext
  deriving DecidableEq

/-- Who runs: the main thread or a thread or fiber of the registry. -/
inductive Actor where
  | main
  | thread (tid : ℕ)

/-! ## Runtime functions -/

namespace Runtime

def inSignalHandler (r : Runtime) : ℕ := r.saved.length

def storeCurrentTsanState (r : Runtime) : Runtime :=
  { r with mainThreadState := r.current.counters }

def disableMainThreadTsan (r : Runtime) : Runtime :=
  if r.inSignalHandler ≠ 0 then r
  else if r.mainThreadTsanDisabled then r
  else
    storeCurrentTsanState
      { r with
        mainThreadTsanDisabled := true
        current := { r.current with counters := r.current.counters.disableTsan } }

def enableMainThreadTsan (r : Runtime) : Runtime :=
  if r.inSignalHandler ≠ 0 then r
  else if !r.mainThreadTsanDisabled then r
  else
    storeCurrentTsanState
      { r with
        mainThreadTsanDisabled := false
        current := { r.current with counters := r.current.counters.enableTsan } }

/-- `started` is true for a fiber, which `FiberCreate` starts at once. -/
def threadCreate (r : Runtime) (actor : Actor) (detached started : Bool) : Runtime :=
  let r := { r with
    numAliveThreads := r.numAliveThreads + 1
    numUnjoinedThreads := r.numUnjoinedThreads + 1 }
  let r := match actor with
    | .main => r.enableMainThreadTsan
    | .thread _ => r
  { r with threads := r.threads ++ [⟨started, false, false, detached⟩] }

def threadStart (r : Runtime) (tid : ℕ) (t : ThreadContext) : Runtime :=
  { r with threads := r.threads.set tid { t with started := true } }

def threadFinish (r : Runtime) (tid : ℕ) (t : ThreadContext) : Runtime :=
  { r with
    numAliveThreads := r.numAliveThreads - 1
    threads := r.threads.set tid { t with finished := true } }

def isNowAllJoined (r : Runtime) : Bool := r.numUnjoinedThreads ≤ 1

def threadJoin (r : Runtime) (actor : Actor) (tid : ℕ) (t : ThreadContext) : Runtime :=
  let r := { r with threads := r.threads.set tid { t with joined := true } }
  let r := { r with numUnjoinedThreads := r.numUnjoinedThreads - 1 }
  match actor with
  | .main => if r.isNowAllJoined then r.disableMainThreadTsan else r
  | .thread _ => r

def threadDetach (r : Runtime) (tid : ℕ) (t : ThreadContext) : Runtime :=
  { r with threads := r.threads.set tid { t with detached := true } }

/-- The first half of `CallUserSignalHandler`. -/
def enterHandler (r : Runtime) : Runtime :=
  { r with saved := r.current :: r.saved, current := ⟨.zero, .zero⟩ }

def canRun (r : Runtime) : Actor → Bool
  | .main => true
  | .thread tid =>
      match r.threads[tid]? with
      | some t => t.started && !t.finished
      | none => false

end Runtime

/-! ## Runs -/

/-- A failed join opens and closes an ignore scope, as every other user of the counters does. -/
inductive Event where
  | create (actor : Actor) (detached : Bool)
  | start (tid : ℕ)
  | finish (tid : ℕ)
  | join (actor : Actor) (tid : ℕ)
  | detach (actor : Actor) (tid : ℕ)
  | fiberCreate (actor : Actor)
  | fiberDestroy (actor : Actor) (tid : ℕ)
  | signal
  | signalReturn
  | ignoreBegin
  | ignoreEnd
  | syncBegin
  | syncEnd

/-- The thread with the given identifier, if it passes the check. -/
def Runtime.find (r : Runtime) (tid : ℕ) (check : ThreadContext → Bool) : Option ThreadContext :=
  (r.threads[tid]?).bind fun t => if check t then some t else none

/-- `none` refuses an event that cannot happen in the state. -/
def next (r : Runtime) : Event → Option Runtime
  | .create actor detached =>
      if r.canRun actor then some (r.threadCreate actor detached false) else none
  | .start tid => (r.find tid fun t => !t.started).map (r.threadStart tid)
  | .finish tid => (r.find tid fun t => t.started && !t.finished).map (r.threadFinish tid)
  | .join actor tid =>
      if r.canRun actor then
        (r.find tid fun t => t.finished && !t.joined && !t.detached).map (r.threadJoin actor tid)
      else none
  | .detach actor tid =>
      if r.canRun actor then
        (r.find tid fun t => !t.joined && !t.detached).map (r.threadDetach tid)
      else none
  | .fiberCreate actor =>
      if r.canRun actor then some (r.threadCreate actor true true) else none
  | .fiberDestroy actor tid =>
      if r.canRun actor then
        (r.find tid fun t => t.started && !t.finished).map (r.threadFinish tid)
      else none
  | .signal => some r.enterHandler
  | .signalReturn =>
      match r.saved with
      | [] => none
      | level :: saved => some { r with current := level, saved := saved }
  | .ignoreBegin => some { r with current := r.current.add 1 0 }
  | .ignoreEnd =>
      if 0 < r.current.others.ignoreReadsAndWrites then
        some { r with current := r.current.add (-1) 0 }
      else none
  | .syncBegin => some { r with current := r.current.add 0 1 }
  | .syncEnd =>
      if 0 < r.current.others.ignoreSync then some { r with current := r.current.add 0 (-1) }
      else none

/-- Every state that is reached is observed. -/
def step (r : Runtime) (e : Event) : Option (Runtime × List Runtime) :=
  (next r e).map fun r' => (r', [r'])

/-- The state after `ThreadCreate` and `ThreadStart` of the main thread. -/
def initial : Runtime :=
  Runtime.disableMainThreadTsan ⟨1, 1, false, .zero, ⟨.zero, .zero⟩, [], []⟩

end Mair.SingleThread
