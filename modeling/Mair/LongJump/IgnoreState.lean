import Mair.Library.Runs
import Mair.LongJump.Operations

/-! # The ignore state after a signal handler

A handler that returns restores what was saved for it. A jump out of a handler restores
what `DisableMainThreadTsan` or `EnableMainThreadTsan` stored last, and leaves the ignore bit as
it is. -/

namespace Mair.LongJump

/-! ## The main thread -/

/-- The scopes that are open on one level: those of `ScopedIgnoreTsan`, the innermost first, and the
number of open `ThreadIgnoreBegin` and `ThreadIgnoreSyncBegin`. -/
structure Scopes where
  runtime : List ScopedIgnoreTsan
  writes : ℕ
  sync : ℕ
  deriving DecidableEq

def Scopes.closed : Scopes := ⟨[], 0, 0⟩

/-- A handler that runs: the scopes of the code that it interrupted, what `CallUserSignalHandler`
keeps, and `in_signal_handler` before. -/
structure Handling where
  interrupted : Scopes
  saved : Interrupted
  inSignalHandler : ℕ

/-- The handlers that run, the innermost first, and the open scopes of the innermost level. -/
structure MainThread where
  current : Scopes
  handlers : List Handling
  thread : ThreadState

/-- `longjmp` leaves a handler and `outer` others around it. -/
inductive IgnoreEvent where
  | openScope
  | closeScope
  | ignoreBegin
  | ignoreEnd
  | syncBegin
  | syncEnd
  | disableMainThread
  | enableMainThread
  | setjmp (sp : ℕ)
  | deliver (pending : Bool)
  | ret
  | longjmp (outer sp : ℕ)

namespace MainThread

/-- What the handler interrupted, and the thread after the exit from it. -/
abbrev Exit := Interrupted × ThreadState

variable (m : MainThread)

/-- A scope is opened or closed on the innermost level. -/
def within (scopes : Scopes) (result : Option ThreadState) : Option (MainThread × List Exit) :=
  result.map fun t => ({ m with current := scopes, thread := t }, [])

/-- Shows the exits from handlers. Scopes are closed on the level on which they were opened, all of
them before the handler returns; a jump goes to a `setjmp` of the interrupted code. A failed `CHECK`
ends the run. -/
def step : IgnoreEvent → Option (MainThread × List Exit)
  | .openScope =>
      m.thread.openScope.map fun r =>
        ({ m with
          current := { m.current with runtime := r.2 :: m.current.runtime }
          thread := r.1 }, [])
  | .closeScope =>
      match m.current.runtime with
      | [] => none
      | scope :: rest =>
          m.within { m.current with runtime := rest } (m.thread.closeScope scope)
  | .ignoreBegin =>
      m.within { m.current with writes := m.current.writes + 1 } m.thread.threadIgnoreBegin
  | .ignoreEnd =>
      if m.current.writes = 0 then none
      else m.within { m.current with writes := m.current.writes - 1 } m.thread.threadIgnoreEnd
  | .syncBegin =>
      m.within { m.current with sync := m.current.sync + 1 } m.thread.threadIgnoreSyncBegin
  | .syncEnd =>
      if m.current.sync = 0 then none
      else m.within { m.current with sync := m.current.sync - 1 } m.thread.threadIgnoreSyncEnd
  | .disableMainThread => m.within m.current m.thread.disableMainThreadTsan
  | .enableMainThread => m.within m.current m.thread.enableMainThreadTsan
  | .setjmp sp => m.within m.current (some (m.thread.setJmp sp))
  | .deliver pending =>
      let t := m.thread.deliver pending
      some (⟨.closed, ⟨m.current, t.2, m.thread.inSignalHandler⟩ :: m.handlers, t.1⟩, [])
  | .ret =>
      match m.handlers with
      | [] => none
      | h :: rest =>
          if m.current = .closed then
            let t := m.thread.resume h.saved
            some (⟨h.interrupted, rest, t⟩, [(h.saved, t)])
          else none
  | .longjmp outer sp =>
      match m.handlers.drop outer with
      | [] => none
      | h :: rest =>
          if (m.thread.jmpBufs.find? fun buf => buf.sp = sp).map JmpBuf.inSignalHandler =
              some h.inSignalHandler then
            (m.thread.longJmp sp).map fun t => (⟨h.interrupted, rest, t⟩, [(h.saved, t)])
          else none

end MainThread

/-! ## The law and when it holds -/

/-- The counters are what they were, and the bit says whether accesses are ignored. -/
def Restored (e : MainThread.Exit) : Prop :=
  e.2.ignores = e.1.ignores ∧ (e.2.ignoreBit = true ↔ 0 < e.2.ignores.readsAndWrites)

/-- The counters that `LongJmp` leaves behind. -/
def ThreadState.ignoresAfterJump (t : ThreadState) : Ignores :=
  if t.inSignalHandler ≠ 0 then t.mainThreadState else t.ignores

/-- A handler returns with an open ignore only to code that has one. A handler is left by a jump
with the counters stored last, or its own in a scope of the runtime, equal to those at the delivery,
and with an open ignore if and only if the interrupted code has one. -/
def Neutral (m : MainThread) : IgnoreEvent → Prop
  | .ret => ∀ h ∈ m.handlers.head?,
      0 < m.thread.ignores.readsAndWrites → 0 < h.saved.ignores.readsAndWrites
  | .longjmp outer _ => ∀ h ∈ (m.handlers.drop outer).head?,
      m.thread.ignoresAfterJump = h.saved.ignores ∧
        (0 < h.saved.ignores.readsAndWrites ↔ 0 < m.thread.ignores.readsAndWrites)
  | _ => True

/-! ## The bit and the counter -/

namespace ThreadState

variable {t t' : ThreadState} {sp : ℕ}

/-- The main thread, with the single-thread optimisation, ignores accesses when the bit is set. -/
structure Mirrored (t : ThreadState) : Prop where
  optimised : t.optimised = true
  nonneg : 0 ≤ t.ignores.readsAndWrites
  bit : t.ignoreBit = true ↔ 0 < t.ignores.readsAndWrites

theorem Mirrored.threadIgnoreBegin (h : Mirrored t) (hbegin : t.threadIgnoreBegin = some t') :
    Mirrored t' := by
  have hnonneg := h.nonneg
  rw [ThreadState.threadIgnoreBegin, Option.ite_none_right_eq_some, Option.some_inj] at hbegin
  obtain ⟨hpos, rfl⟩ := hbegin
  exact ⟨h.optimised, by simp only; omega, by simpa using hpos⟩

theorem Mirrored.threadIgnoreEnd (h : Mirrored t) (hend : t.threadIgnoreEnd = some t') :
    Mirrored t' := by
  have hbit := h.bit
  rw [ThreadState.threadIgnoreEnd, Option.ite_none_right_eq_some, Option.some_inj] at hend
  obtain ⟨hpos, rfl⟩ := hend
  refine ⟨h.optimised, by simp only; omega, ?_⟩
  by_cases hzero : t.ignores.readsAndWrites - 1 = 0
  · simp [hzero]
  · simp only [if_neg hzero, hbit.mpr hpos, true_iff]
    omega

theorem Mirrored.congr (h : Mirrored t) (hoptimised : t'.optimised = t.optimised)
    (hbit : t'.ignoreBit = t.ignoreBit)
    (hignores : t'.ignores.readsAndWrites = t.ignores.readsAndWrites) : Mirrored t' :=
  ⟨hoptimised.trans h.optimised, hignores ▸ h.nonneg, by rw [hbit, hignores]; exact h.bit⟩

theorem Mirrored.threadIgnoreSyncBegin (h : Mirrored t)
    (hbegin : t.threadIgnoreSyncBegin = some t') : Mirrored t' := by
  rw [ThreadState.threadIgnoreSyncBegin, Option.ite_none_right_eq_some, Option.some_inj] at hbegin
  obtain ⟨-, rfl⟩ := hbegin
  exact h.congr rfl rfl rfl

theorem Mirrored.threadIgnoreSyncEnd (h : Mirrored t) (hend : t.threadIgnoreSyncEnd = some t') :
    Mirrored t' := by
  rw [ThreadState.threadIgnoreSyncEnd, Option.ite_none_right_eq_some, Option.some_inj] at hend
  obtain ⟨-, rfl⟩ := hend
  exact h.congr rfl rfl rfl

theorem Mirrored.disableTsan (h : Mirrored t) (hdisable : t.disableTsan = some t') :
    Mirrored t' := by
  obtain ⟨u, hsync, hbegin⟩ := Option.bind_eq_some_iff.mp hdisable
  exact (h.threadIgnoreSyncBegin hsync).threadIgnoreBegin hbegin

theorem Mirrored.enableTsan (h : Mirrored t) (henable : t.enableTsan = some t') : Mirrored t' := by
  obtain ⟨u, hend, hsync⟩ := Option.bind_eq_some_iff.mp henable
  exact (h.threadIgnoreEnd hend).threadIgnoreSyncEnd hsync

theorem Mirrored.disableMainThreadTsan (h : Mirrored t)
    (hdisable : t.disableMainThreadTsan = some t') : Mirrored t' := by
  rw [ThreadState.disableMainThreadTsan] at hdisable
  split_ifs at hdisable
  · cases hdisable
    exact h
  · cases hdisable
    exact h
  · obtain ⟨u, hu, rfl⟩ := Option.map_eq_some_iff.mp hdisable
    have hset : Mirrored { t with mainThreadTsanDisabled := true } := h.congr rfl rfl rfl
    exact (hset.disableTsan hu).congr rfl rfl rfl

theorem Mirrored.enableMainThreadTsan (h : Mirrored t)
    (henable : t.enableMainThreadTsan = some t') : Mirrored t' := by
  rw [ThreadState.enableMainThreadTsan] at henable
  split_ifs at henable
  · cases henable
    exact h
  · cases henable
    exact h
  · obtain ⟨u, hu, rfl⟩ := Option.map_eq_some_iff.mp henable
    have hset : Mirrored { t with mainThreadTsanDisabled := false } := h.congr rfl rfl rfl
    exact (hset.enableTsan hu).congr rfl rfl rfl

theorem Mirrored.openScope {r : ThreadState × ScopedIgnoreTsan} (h : Mirrored t)
    (hopen : t.openScope = some r) : Mirrored r.1 := by
  obtain ⟨u, hu, rfl⟩ := Option.map_eq_some_iff.mp hopen
  exact (h.disableTsan hu).congr rfl rfl rfl

theorem Mirrored.closeScope {scope : ScopedIgnoreTsan} (h : Mirrored t)
    (hclose : t.closeScope scope = some t') : Mirrored t' := by
  have hset : Mirrored { t with
      nomalloc := if scope.nomalloc then 1 else 0
      inSignalHandler := scope.inSignalHandler } := h.congr rfl rfl rfl
  exact hset.enableTsan hclose

theorem Mirrored.setJmp (h : Mirrored t) : Mirrored (t.setJmp sp) := by
  rw [ThreadState.setJmp]
  split_ifs
  · exact h
  · exact h.congr rfl rfl rfl

theorem Mirrored.deliver {pending : Bool} (h : Mirrored t) : Mirrored (t.deliver pending).1 :=
  ⟨h.optimised, Int.le_refl 0, by simp [ThreadState.deliver]⟩

/-- A return restores the counters, and the bit unless the handler has left an ignore open. -/
theorem Mirrored.restored_resume {saved : Interrupted} (h : Mirrored t)
    (hsaved : 0 ≤ saved.ignores.readsAndWrites) :
    Restored (saved, t.resume saved) ↔
      (0 < t.ignores.readsAndWrites → 0 < saved.ignores.readsAndWrites) := by
  have hbit := h.bit
  simp only [Restored, ThreadState.resume, true_and, Bool.or_eq_true, decide_eq_true_eq, hbit]
  omega

/-- A jump restores the counters stored last, and leaves the bit as it is. -/
theorem Mirrored.restored_jump {buf : JmpBuf} (h : Mirrored t) (saved : Interrupted)
    (hjump : Jumped buf t t') :
    Restored (saved, t') ↔ t.ignoresAfterJump = saved.ignores ∧
      (0 < saved.ignores.readsAndWrites ↔ 0 < t.ignores.readsAndWrites) := by
  have hignores : t'.ignores = t.ignoresAfterJump := by
    rw [hjump.ignores, ThreadState.ignoresAfterJump]
    simp [h.optimised]
  simp only [Restored, hjump.ignoreBit, h.bit, hignores]
  constructor
  · rintro ⟨hcounters, hbit⟩
    rw [hcounters] at hbit
    exact ⟨hcounters, hbit.symm⟩
  · intro hneutral
    rw [hneutral.1]
    exact ⟨rfl, hneutral.2.symm⟩

theorem Mirrored.resume {saved : Interrupted} (h : Mirrored t)
    (hsaved : 0 ≤ saved.ignores.readsAndWrites) (hrestored : Restored (saved, t.resume saved)) :
    Mirrored (t.resume saved) :=
  ⟨h.optimised, hsaved, hrestored.2⟩

end ThreadState

/-! ## Steps -/

namespace MainThread

open ThreadState

variable {m m' : MainThread} {e : IgnoreEvent} {obs : List Exit}

structure Inv (m : MainThread) : Prop where
  mirrored : Mirrored m.thread
  saved : ∀ h ∈ m.handlers, 0 ≤ h.saved.ignores.readsAndWrites

/-- What is to be shown of a step. -/
def StepSpec (m : MainThread) (e : IgnoreEvent) (m' : MainThread) (obs : List Exit) : Prop :=
  (Neutral m e → m'.Inv ∧ ∀ o ∈ obs, Restored o) ∧ (¬Neutral m e → ∃ o ∈ obs, ¬Restored o)

theorem StepSpec.of_inv (hneutral : Neutral m e) (h : m'.Inv) : StepSpec m e m' [] :=
  ⟨fun _ => ⟨h, by simp⟩, fun hnot => absurd hneutral hnot⟩

theorem Inv.within {scopes : Scopes} {result : Option ThreadState} (h : m.Inv)
    (hneutral : Neutral m e) (hresult : ∀ t, result = some t → Mirrored t)
    (hstep : m.within scopes result = some (m', obs)) : StepSpec m e m' obs := by
  obtain ⟨t, ht, heq⟩ := Option.map_eq_some_iff.mp hstep
  cases heq
  exact .of_inv hneutral ⟨hresult t ht, h.saved⟩

theorem Inv.ret (h : m.Inv) (hstep : m.step .ret = some (m', obs)) : StepSpec m .ret m' obs := by
  obtain ⟨current, handlers, t⟩ := m
  cases handlers with
  | nil => cases hstep
  | cons handling rest =>
      simp only [MainThread.step, Option.ite_none_right_eq_some, Option.some_inj,
        Prod.mk.injEq] at hstep
      obtain ⟨-, rfl, rfl⟩ := hstep
      have hsaved := h.saved handling List.mem_cons_self
      have hiff := h.mirrored.restored_resume hsaved
      constructor
      · intro hneutral
        have hrestored := hiff.mpr (hneutral handling rfl)
        refine ⟨⟨h.mirrored.resume hsaved hrestored, ?_⟩, by simpa using hrestored⟩
        intro handling' hmem
        exact h.saved handling' (List.mem_cons_of_mem _ hmem)
      · intro hnot
        refine ⟨_, List.mem_singleton_self _, ?_⟩
        intro hrestored
        refine hnot ?_
        intro handling' hhead
        cases hhead
        exact hiff.mp hrestored

theorem Inv.longjmp {outer sp : ℕ} (h : m.Inv)
    (hstep : m.step (.longjmp outer sp) = some (m', obs)) :
    StepSpec m (.longjmp outer sp) m' obs := by
  cases hdrop : m.handlers.drop outer with
  | nil => simp [MainThread.step, hdrop] at hstep
  | cons handling rest =>
      simp only [MainThread.step, hdrop, Option.ite_none_right_eq_some] at hstep
      obtain ⟨-, hstep⟩ := hstep
      obtain ⟨t, ht, heq⟩ := Option.map_eq_some_iff.mp hstep
      cases heq
      obtain ⟨buf, -, hjump⟩ := exists_jumped ht
      have hmem : ∀ handling' ∈ handling :: rest, handling' ∈ m.handlers := by
        intro handling' hmem
        rw [← hdrop] at hmem
        exact List.mem_of_mem_drop hmem
      have hsaved := h.saved handling (hmem handling List.mem_cons_self)
      have hiff := h.mirrored.restored_jump handling.saved hjump
      constructor
      · intro hneutral
        have hrestored := hiff.mpr (hneutral handling (by rw [hdrop]; rfl))
        have hnonneg : 0 ≤ t.ignores.readsAndWrites := hrestored.1 ▸ hsaved
        refine ⟨⟨⟨hjump.optimised.trans h.mirrored.optimised, hnonneg, hrestored.2⟩, ?_⟩,
          by simpa using hrestored⟩
        intro handling' hmem'
        exact h.saved handling' (hmem handling' (List.mem_cons_of_mem _ hmem'))
      · intro hnot
        refine ⟨_, List.mem_singleton_self _, ?_⟩
        intro hrestored
        refine hnot ?_
        intro handling' hhead
        rw [hdrop] at hhead
        cases hhead
        exact hiff.mp hrestored

theorem Inv.step (h : m.Inv) (hstep : m.step e = some (m', obs)) : StepSpec m e m' obs := by
  cases e with
  | openScope =>
      obtain ⟨r, hr, heq⟩ := Option.map_eq_some_iff.mp hstep
      cases heq
      exact .of_inv trivial ⟨h.mirrored.openScope hr, h.saved⟩
  | closeScope =>
      cases hruntime : m.current.runtime with
      | nil => simp [MainThread.step, hruntime] at hstep
      | cons scope rest =>
          simp only [MainThread.step, hruntime] at hstep
          exact h.within trivial (fun t ht => h.mirrored.closeScope ht) hstep
  | ignoreBegin => exact h.within trivial (fun t ht => h.mirrored.threadIgnoreBegin ht) hstep
  | ignoreEnd =>
      simp only [MainThread.step, Option.ite_none_left_eq_some] at hstep
      exact h.within trivial (fun t ht => h.mirrored.threadIgnoreEnd ht) hstep.2
  | syncBegin => exact h.within trivial (fun t ht => h.mirrored.threadIgnoreSyncBegin ht) hstep
  | syncEnd =>
      simp only [MainThread.step, Option.ite_none_left_eq_some] at hstep
      exact h.within trivial (fun t ht => h.mirrored.threadIgnoreSyncEnd ht) hstep.2
  | disableMainThread =>
      exact h.within trivial (fun t ht => h.mirrored.disableMainThreadTsan ht) hstep
  | enableMainThread =>
      exact h.within trivial (fun t ht => h.mirrored.enableMainThreadTsan ht) hstep
  | setjmp sp =>
      refine h.within trivial ?_ hstep
      intro t ht
      cases ht
      exact h.mirrored.setJmp
  | deliver pending =>
      cases hstep
      refine .of_inv trivial ⟨h.mirrored.deliver, ?_⟩
      intro handling hmem
      rcases List.mem_cons.mp hmem with rfl | hmem
      · exact h.mirrored.nonneg
      · exact h.saved handling hmem
  | ret => exact h.ret hstep
  | longjmp outer sp => exact h.longjmp hstep

/-! ## Runs -/

/-- The main thread at the start of the program. -/
def start (t : ThreadState) : MainThread := ⟨.closed, [], t⟩

/-- No ignore is open, and the single-thread optimisation is on. -/
structure Unignored (t : ThreadState) : Prop where
  optimised : t.optimised = true
  ignores : t.ignores = ⟨0, 0⟩
  ignoreBit : t.ignoreBit = false
  mainThreadTsanDisabled : t.mainThreadTsanDisabled = false
  mainThreadState : t.mainThreadState = ⟨0, 0⟩

def optimisedThread : ThreadState := { idleThread with optimised := true }

/-- TSan is disabled on the main thread when the signal comes. -/
def aloneJump : List IgnoreEvent :=
  [.disableMainThread, .setjmp 100, .deliver false, .longjmp 0 100]

end MainThread

end Mair.LongJump
