import Mair.Vfork.Phases

/-! # The TSan state around vfork

The child disables TSan in the state that it shares with its parent, and the parent undoes
it after the child has left. -/

namespace Mair.Vfork

open Runs

/-! ## The thread state -/

/-- The counters are C `int`s that stay far from overflow. -/
@[ext]
structure ThreadState where
  ignoreInterceptors : ℤ
  suppressReports : ℤ
  ignoreReadsAndWrites : ℤ
  ignoreSync : ℤ
  inVforkChild : Bool
  ignoreBit : Bool
  ignoreBit_eq : ignoreBit = decide (0 < ignoreReadsAndWrites)

namespace ThreadState

def threadIgnoreBegin (thr : ThreadState) : ThreadState :=
  { thr with
    ignoreReadsAndWrites := thr.ignoreReadsAndWrites + 1
    ignoreBit := decide (0 < thr.ignoreReadsAndWrites + 1)
    ignoreBit_eq := rfl }

def threadIgnoreEnd (thr : ThreadState) : ThreadState :=
  { thr with
    ignoreReadsAndWrites := thr.ignoreReadsAndWrites - 1
    ignoreBit := decide (0 < thr.ignoreReadsAndWrites - 1)
    ignoreBit_eq := rfl }

def threadIgnoreSyncBegin (thr : ThreadState) : ThreadState :=
  { thr with ignoreSync := thr.ignoreSync + 1 }

def threadIgnoreSyncEnd (thr : ThreadState) : ThreadState :=
  { thr with ignoreSync := thr.ignoreSync - 1 }

/-- `ignore_interceptors` is set to `true` and then incremented. -/
def disableTsanForVfork (thr : ThreadState) : ThreadState :=
  let thr := { thr with ignoreInterceptors := 1 }
  let thr := { thr with ignoreInterceptors := thr.ignoreInterceptors + 1 }
  let thr := { thr with suppressReports := thr.suppressReports + 1, inVforkChild := true }
  thr.threadIgnoreBegin.threadIgnoreSyncBegin

def recoverTsanAfterVforkParent (thr : ThreadState) : ThreadState :=
  let thr := { thr with ignoreInterceptors := thr.ignoreInterceptors - 1 }
  let thr := { thr with suppressReports := thr.suppressReports - 1, inVforkChild := false }
  thr.threadIgnoreEnd.threadIgnoreSyncEnd

/-- The hooks of TSan. -/
def runHook (thr : ThreadState) : Hook → ThreadState
  | .vforkBefore => thr
  | .vforkChildAfter => thr.disableTsanForVfork
  | .vforkParentAfter => thr.recoverTsanAfterVforkParent

end ThreadState

/-! ## Runs of one thread -/

/-- The ignore scopes that a live child has opened. -/
structure Scopes where
  ignores : ℕ
  syncs : ℕ

/-- One thread and its live vfork children, with the open scopes of each child. -/
structure Thread where
  space : Space
  tsan : ThreadState
  scopes : List Scopes

inductive Action where
  | vfork (child : Pid)
  | vforkFails
  | leave
  | ignoreBegin
  | ignoreEnd
  | syncBegin
  | syncEnd

/-- The state after a change, and the state when an outermost vfork has returned. -/
inductive Snapshot where
  | changed (thr : ThreadState)
  | returned (thr : ThreadState)

def returned (s : Space) (thr : ThreadState) : List Snapshot :=
  match s.children with
  | [] => [.returned thr]
  | _ :: _ => []

/-- A child opens and closes its own scopes, and leaves when all are closed. -/
def threadStep (t : Thread) : Action → Option (Thread × List Snapshot)
  | .vfork child =>
      if child ∈ t.space.pids then none
      else
        let result := t.space.vfork child
        let before := t.tsan.runHook result.2.1
        let after := before.runHook result.2.2
        some (⟨result.1, after, ⟨0, 0⟩ :: t.scopes⟩, [.changed before, .changed after])
  | .vforkFails =>
      let result := t.space.vforkFails
      let before := t.tsan.runHook result.2.1
      let after := before.runHook result.2.2
      some (⟨result.1, after, t.scopes⟩,
        [.changed before, .changed after] ++ returned result.1 after)
  | .leave =>
      match t.scopes with
      | ⟨0, 0⟩ :: scopes =>
          let result := t.space.leave
          let after := t.tsan.runHook result.2
          some (⟨result.1, after, scopes⟩, .changed after :: returned result.1 after)
      | _ => none
  | .ignoreBegin =>
      match t.scopes with
      | opened :: scopes =>
          let after := t.tsan.threadIgnoreBegin
          some (⟨t.space, after, ⟨opened.ignores + 1, opened.syncs⟩ :: scopes⟩, [.changed after])
      | [] => none
  | .ignoreEnd =>
      match t.scopes with
      | ⟨ignores + 1, syncs⟩ :: scopes =>
          let after := t.tsan.threadIgnoreEnd
          some (⟨t.space, after, ⟨ignores, syncs⟩ :: scopes⟩, [.changed after])
      | _ => none
  | .syncBegin =>
      match t.scopes with
      | opened :: scopes =>
          let after := t.tsan.threadIgnoreSyncBegin
          some (⟨t.space, after, ⟨opened.ignores, opened.syncs + 1⟩ :: scopes⟩, [.changed after])
      | [] => none
  | .syncEnd =>
      match t.scopes with
      | ⟨ignores, syncs + 1⟩ :: scopes =>
          let after := t.tsan.threadIgnoreSyncEnd
          some (⟨t.space, after, ⟨ignores, syncs⟩ :: scopes⟩, [.changed after])
      | _ => none

/-- A thread outside vfork. -/
def start (pid ppid : Pid) (initial : ThreadState) : Thread := ⟨⟨-1, pid, ppid, []⟩, initial, []⟩

/-! ## The condition -/

/-- No counter is below its initial value, and an outermost vfork returns with the initial
state. -/
def Snapshot.Restores (initial : ThreadState) : Snapshot → Prop
  | .changed thr =>
      initial.ignoreInterceptors ≤ thr.ignoreInterceptors ∧
        initial.suppressReports ≤ thr.suppressReports ∧
        initial.ignoreReadsAndWrites ≤ thr.ignoreReadsAndWrites ∧
        initial.ignoreSync ≤ thr.ignoreSync
  | .returned thr => thr = initial

/-- A vfork succeeds outside vfork children, on a thread that ignores interceptors exactly
once and is not marked as a vfork child. -/
def Restorable (t : Thread) : Action → Prop
  | .vfork _ =>
      t.space.children = [] ∧ t.tsan.ignoreInterceptors = 1 ∧ t.tsan.inVforkChild = false
  | .vforkFails => False
  | _ => True

/-! ## The state while a child runs -/

/-- The initial state with the effect of one `disableTsanForVfork` and of open scopes. -/
def disabled (initial : ThreadState) (opened : Scopes) : ThreadState where
  ignoreInterceptors := 2
  suppressReports := initial.suppressReports + 1
  ignoreReadsAndWrites := initial.ignoreReadsAndWrites + 1 + opened.ignores
  ignoreSync := initial.ignoreSync + 1 + opened.syncs
  inVforkChild := true
  ignoreBit := decide (0 < initial.ignoreReadsAndWrites + 1 + opened.ignores)
  ignoreBit_eq := rfl

/-- Outside vfork the state is the initial one; a child runs on the disabled state. -/
def ThreadConsistent (initial : ThreadState) (t : Thread) : Prop :=
  (t.space.children = [] ∧ t.space.pidBeforeVfork = -1 ∧ t.scopes = [] ∧ t.tsan = initial) ∨
    ∃ child opened, t.space.children = [child] ∧ t.space.pidBeforeVfork = t.space.root ∧
      t.scopes = [opened] ∧ t.tsan = disabled initial opened ∧
      initial.ignoreInterceptors = 1 ∧ initial.inVforkChild = false

section Steps

variable {initial : ThreadState} {t t' : Thread} {opened : Scopes} {obs : List Snapshot}
  {a : Action}

theorem ext_of_counters {thr thr' : ThreadState}
    (hinterceptors : thr.ignoreInterceptors = thr'.ignoreInterceptors)
    (hreports : thr.suppressReports = thr'.suppressReports)
    (hwrites : thr.ignoreReadsAndWrites = thr'.ignoreReadsAndWrites)
    (hsync : thr.ignoreSync = thr'.ignoreSync) (hchild : thr.inVforkChild = thr'.inVforkChild) :
    thr = thr' := by
  refine ThreadState.ext hinterceptors hreports hwrites hsync hchild ?_
  rw [thr.ignoreBit_eq, thr'.ignoreBit_eq, hwrites]

theorem disable_eq (initial : ThreadState) :
    initial.disableTsanForVfork = disabled initial ⟨0, 0⟩ := by
  apply ext_of_counters <;>
    simp [ThreadState.disableTsanForVfork, ThreadState.threadIgnoreBegin,
      ThreadState.threadIgnoreSyncBegin, disabled]

theorem recover_eq (hinterceptors : initial.ignoreInterceptors = 1)
    (hchild : initial.inVforkChild = false) :
    (disabled initial ⟨0, 0⟩).recoverTsanAfterVforkParent = initial := by
  apply ext_of_counters <;>
    simp [ThreadState.recoverTsanAfterVforkParent, ThreadState.threadIgnoreEnd,
      ThreadState.threadIgnoreSyncEnd, disabled, hinterceptors, hchild]

theorem restores_refl : (Snapshot.changed initial).Restores initial :=
  ⟨le_rfl, le_rfl, le_rfl, le_rfl⟩

theorem restores_disabled (hinterceptors : initial.ignoreInterceptors = 1) :
    (Snapshot.changed (disabled initial opened)).Restores initial := by
  refine ⟨?_, ?_, ?_, ?_⟩ <;> simp only [disabled] <;> omega

/-- Opening and closing a scope moves between disabled states. -/
theorem disabled_ignoreBegin :
    (disabled initial opened).threadIgnoreBegin =
      disabled initial ⟨opened.ignores + 1, opened.syncs⟩ := by
  apply ext_of_counters <;> simp [ThreadState.threadIgnoreBegin, disabled, add_assoc]

theorem disabled_ignoreEnd {ignores syncs : ℕ} :
    (disabled initial ⟨ignores + 1, syncs⟩).threadIgnoreEnd = disabled initial ⟨ignores, syncs⟩ := by
  apply ext_of_counters <;> simp [ThreadState.threadIgnoreEnd, disabled]
  omega

theorem disabled_syncBegin :
    (disabled initial opened).threadIgnoreSyncBegin =
      disabled initial ⟨opened.ignores, opened.syncs + 1⟩ := by
  apply ext_of_counters <;> simp [ThreadState.threadIgnoreSyncBegin, disabled, add_assoc]

theorem disabled_syncEnd {ignores syncs : ℕ} :
    (disabled initial ⟨ignores, syncs + 1⟩).threadIgnoreSyncEnd =
      disabled initial ⟨ignores, syncs⟩ := by
  apply ext_of_counters <;> simp [ThreadState.threadIgnoreSyncEnd, disabled]
  omega

/-- A scope that a running child opens or closes. -/
theorem scope_spec {child : Pid} {opened' : Scopes} (hchildren : t.space.children = [child])
    (hsaved : t.space.pidBeforeVfork = t.space.root) (hinterceptors : initial.ignoreInterceptors = 1)
    (hmark : initial.inVforkChild = false) :
    ThreadConsistent initial ⟨t.space, disabled initial opened', [opened']⟩ ∧
      ∀ o ∈ [Snapshot.changed (disabled initial opened')], o.Restores initial := by
  refine ⟨Or.inr ⟨child, opened', hchildren, hsaved, rfl, rfl, hinterceptors, hmark⟩, ?_⟩
  intro o ho
  rw [List.mem_singleton.mp ho]
  exact restores_disabled hinterceptors

/-- What a step that meets the condition preserves. -/
theorem threadStep_spec (ht : ThreadConsistent initial t) (hmeets : Restorable t a)
    (hstep : threadStep t a = some (t', obs)) :
    ThreadConsistent initial t' ∧ ∀ o ∈ obs, o.Restores initial := by
  obtain ⟨space, tsan, scopes⟩ := t
  cases a with
  | vfork child =>
      obtain ⟨hnone, hone, hmark⟩ := hmeets
      rcases ht with ⟨-, hsaved, rfl, rfl⟩ | ⟨child', opened, hchildren, -⟩
      · have hundisturbed : space.Undisturbed := by
          refine ⟨hnone, ?_, ?_⟩
          · rw [hsaved]
            exact fun h => space.root.property h.symm
          · rw [hsaved]
            exact fun h => space.rootPpid.property h.symm
        rw [threadStep] at hstep
        split at hstep
        · cases hstep
        · next hunused =>
            have hne : child ≠ space.root := by
              intro h
              exact hunused (by simp [Space.pids, h])
            simp only [Space.vfork_of_undisturbed hundisturbed hne, ThreadState.runHook,
              disable_eq] at hstep
            cases hstep
            refine ⟨Or.inr ⟨child, ⟨0, 0⟩, rfl, rfl, rfl, rfl, hone, hmark⟩, ?_⟩
            intro o ho
            rcases List.mem_cons.mp ho with rfl | ho
            · exact restores_refl
            · rw [List.mem_singleton.mp ho]
              exact restores_disabled hone
      · rw [hnone] at hchildren
        cases hchildren
  | vforkFails => exact hmeets.elim
  | leave =>
      rcases ht with ⟨-, -, rfl, -⟩ | ⟨child, opened, hchildren, hsaved, rfl, rfl, hone, hmark⟩
      · cases hstep
      · rw [threadStep] at hstep
        split at hstep
        · next heq =>
            cases heq
            simp only [Space.leave_of_child hchildren hsaved, ThreadState.runHook,
              recover_eq hone hmark] at hstep
            cases hstep
            refine ⟨Or.inl ⟨rfl, rfl, rfl, rfl⟩, ?_⟩
            intro o ho
            rcases List.mem_cons.mp ho with rfl | ho
            · exact restores_refl
            · rw [List.mem_singleton.mp ho]
              rfl
        · cases hstep
  | ignoreBegin =>
      rcases ht with ⟨-, -, rfl, -⟩ | ⟨child, opened, hchildren, hsaved, rfl, rfl, hone, hmark⟩
      · cases hstep
      · simp only [threadStep, disabled_ignoreBegin] at hstep
        cases hstep
        exact scope_spec hchildren hsaved hone hmark
  | ignoreEnd =>
      rcases ht with ⟨-, -, rfl, -⟩ | ⟨child, opened, hchildren, hsaved, rfl, rfl, hone, hmark⟩
      · cases hstep
      · rw [threadStep] at hstep
        split at hstep
        · next heq =>
            cases heq
            simp only [disabled_ignoreEnd] at hstep
            cases hstep
            exact scope_spec hchildren hsaved hone hmark
        · cases hstep
  | syncBegin =>
      rcases ht with ⟨-, -, rfl, -⟩ | ⟨child, opened, hchildren, hsaved, rfl, rfl, hone, hmark⟩
      · cases hstep
      · simp only [threadStep, disabled_syncBegin] at hstep
        cases hstep
        exact scope_spec hchildren hsaved hone hmark
  | syncEnd =>
      rcases ht with ⟨-, -, rfl, -⟩ | ⟨child, opened, hchildren, hsaved, rfl, rfl, hone, hmark⟩
      · cases hstep
      · rw [threadStep] at hstep
        split at hstep
        · next heq =>
            cases heq
            simp only [disabled_syncEnd] at hstep
            cases hstep
            exact scope_spec hchildren hsaved hone hmark
        · cases hstep

end Steps

/-! ## Runs -/

/-- In a run whose vforks all succeed outside vfork children, on a thread that ignores
interceptors exactly once, no counter falls below its initial value and every vfork returns
with the initial state. -/
theorem vfork_restores (pid ppid : Pid) (initial : ThreadState) (actions : List Action)
    (last : Thread) (obs : List Snapshot)
    (hrun : run threadStep (start pid ppid initial) actions = some (last, obs))
    (hmeets : Meets threadStep Restorable (start pid ppid initial) actions) :
    ∀ o ∈ obs, o.Restores initial := by
  have hstart : ThreadConsistent initial (start pid ppid initial) :=
    Or.inl ⟨rfl, rfl, rfl, rfl⟩
  refine (run_meets ?_ hstart hmeets hrun).2
  intro t a t' o ht hC hstep
  exact threadStep_spec ht hC hstep

/-! ## One vfork -/

/-- A thread that ignores interceptors `n` times and nothing else. -/
def plainState (n : ℤ) : ThreadState := ⟨n, 0, 0, 0, false, false, rfl⟩

theorem run_once (n : ℤ) :
    run threadStep (start parentPid initPid (plainState n)) [.vfork childPid, .leave] =
      some (start parentPid initPid (plainState 1),
        [.changed (plainState n), .changed (disabled (plainState n) ⟨0, 0⟩),
          .changed (plainState 1), .returned (plainState 1)]) := rfl

/-- After one vfork the thread ignores interceptors, although it did not before. -/
theorem vfork_leaves_interceptors_ignored :
    ∃ last obs, run threadStep (start parentPid initPid (plainState 0)) [.vfork childPid, .leave] =
        some (last, obs) ∧ ¬∀ o ∈ obs, o.Restores (plainState 0) := by
  refine ⟨_, _, run_once 0, ?_⟩
  intro h
  have hreturned : plainState 1 = plainState 0 := h (.returned (plainState 1)) (by simp)
  have hone : (1 : ℤ) = 0 := congrArg ThreadState.ignoreInterceptors hreturned
  cases hone

theorem vfork_restores_once :
    ∃ last obs, run threadStep (start parentPid initPid (plainState 1)) [.vfork childPid, .leave] =
        some (last, obs) ∧ ∀ o ∈ obs, o.Restores (plainState 1) :=
  ⟨_, _, run_once 1, vfork_restores parentPid initPid (plainState 1) [.vfork childPid, .leave] _ _
    (run_once 1) ⟨⟨rfl, rfl, rfl⟩, fun _ _ _ => ⟨trivial, fun _ _ _ => trivial⟩⟩⟩

end Mair.Vfork
