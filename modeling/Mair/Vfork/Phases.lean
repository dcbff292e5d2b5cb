import Mair.Vfork.Model

/-! # Which runs execute the right hooks

The saved identifier tells the phases apart as long as no vfork child calls vfork itself and
no process mistakes an identifier that it inherited by fork for its own vfork. -/

namespace Mair.Vfork

open Runs

/-! ## The condition -/

/-- The executed hook matches the phase, and a completed vfork leaves the initial value. -/
def Observation.Faithful : Observation → Prop
  | .call phase fired => fired = phase
  | .completed pidBeforeVfork => pidBeforeVfork = -1

/-- The caller is no live vfork child, and an identifier saved before a fork is neither its
own nor its parent's. -/
def Space.Undisturbed (s : Space) : Prop :=
  s.children = [] ∧ s.pidBeforeVfork ≠ s.root ∧ s.pidBeforeVfork ≠ s.rootPpid

def Undisturbed (system : List Space) : Event → Prop
  | .vfork i _ => ∀ s, system[i]? = some s → s.Undisturbed
  | .vforkFails i => ∀ s, system[i]? = some s → s.Undisturbed
  | _ => True

/-- At most one vfork child is alive, and while it is the saved value is its parent's
identifier. -/
def Space.Consistent (s : Space) : Prop :=
  s.children = [] ∨ ∃ child, s.children = [child] ∧ s.pidBeforeVfork = s.root ∧ child ≠ s.root

def Consistent (system : List Space) : Prop := ∀ s ∈ system, s.Consistent

/-! ## One space -/

namespace Space

variable {s : Space} {child dead reaper : Pid}

theorem vfork_of_undisturbed (h : s.Undisturbed) (hchild : child ≠ s.root) :
    s.vfork child =
      ({ s with pidBeforeVfork := s.root, children := [child] }, .vforkBefore, .vforkChildAfter) := by
  obtain ⟨hnone, hroot, hppid⟩ := h
  have hval : child.val ≠ s.root.val := fun h => hchild (Subtype.ext h)
  simp [vfork, call, push, getpid, getppid, xsanExtraSpillArea, hnone, hroot.symm, hppid.symm, hval]

theorem vforkFails_of_undisturbed (h : s.Undisturbed) :
    s.vforkFails = ({ s with pidBeforeVfork := -1 }, .vforkBefore, .vforkParentAfter) := by
  obtain ⟨hnone, hroot, hppid⟩ := h
  simp [vforkFails, call, getpid, getppid, xsanExtraSpillArea, hnone, hroot.symm, hppid.symm]

theorem leave_of_child (hone : s.children = [child]) (hsaved : s.pidBeforeVfork = s.root) :
    s.leave = ({ s with pidBeforeVfork := -1, children := [] }, .vforkParentAfter) := by
  simp [leave, call, pop, getpid, xsanExtraSpillArea, hone, hsaved]

/-- Any other caller of vfork executes a wrong hook first. -/
theorem call_ne_vforkBefore (hs : s.Consistent) (h : ¬s.Undisturbed) :
    s.call.2 ≠ .vforkBefore := by
  rcases hs with hnone | ⟨child, hone, hsaved, hne⟩
  · have hsaved : s.pidBeforeVfork = s.root ∨ s.pidBeforeVfork = s.rootPpid := by
      by_contra hnot
      rw [not_or] at hnot
      exact h ⟨hnone, hnot.1, hnot.2⟩
    rcases hsaved with hsaved | hsaved
    · simp [call, getpid, xsanExtraSpillArea, hnone, hsaved]
    · simp only [call, getpid, getppid, xsanExtraSpillArea, hnone, hsaved]
      split <;> simp
  · have hval : child.val ≠ s.root.val := fun h => hne (Subtype.ext h)
    simp [call, getpid, getppid, xsanExtraSpillArea, hone, hsaved, hval]

theorem Consistent.reparent (h : s.Consistent) : (s.reparent dead reaper).Consistent := by
  unfold Space.reparent
  split
  · exact h
  · exact h

end Space

/-! ## Systems -/

section Systems

variable {system system' : List Space} {e : Event} {obs : List Observation} {i : ℕ} {s s' : Space}

theorem consistent_set (hsystem : Consistent system) (hs' : s'.Consistent) :
    Consistent (system.set i s') := by
  intro s hs
  rcases List.mem_or_eq_of_mem_set hs with hs | rfl
  · exact hsystem s hs
  · exact hs'

theorem consistent_snoc (hsystem : Consistent system) (hs' : s'.Consistent) :
    Consistent (system ++ [s']) := by
  intro s hs
  rcases List.mem_append.mp hs with hs | hs
  · exact hsystem s hs
  · rw [List.mem_singleton.mp hs]
    exact hs'

theorem consistent_reparent {dead reaper : Pid} (hsystem : Consistent system) :
    Consistent (system.map (Space.reparent dead reaper)) := by
  intro s hs
  obtain ⟨t, ht, rfl⟩ := List.mem_map.mp hs
  exact (hsystem t ht).reparent

theorem ne_root_of_unused {child : Pid} (hs : system[i]? = some s)
    (hunused : child ∉ system.flatMap Space.pids) : child ≠ s.root := by
  intro heq
  apply hunused
  rw [List.mem_flatMap]
  exact ⟨s, List.mem_of_getElem? hs, by simp [Space.pids, heq]⟩

/-- The parent of a vfork child returns as it started. -/
theorem leave_spec (hs : s.Consistent) {child : Pid} {rest : List Pid}
    (hchildren : s.children = child :: rest) :
    s.leave.1.Consistent ∧
      ∀ o ∈ Observation.call .vforkParentAfter s.leave.2 :: completed s.leave.1, o.Faithful := by
  rcases hs with hnone | ⟨c, hone, hsaved, -⟩
  · rw [hnone] at hchildren
    cases hchildren
  · rw [Space.leave_of_child hone hsaved]
    refine ⟨Or.inl rfl, ?_⟩
    simp [completed, Observation.Faithful]

/-- Steps that meet the condition keep the system consistent and execute the right hooks. -/
theorem step_spec (hsystem : Consistent system) (hmeets : Undisturbed system e)
    (hstep : step system e = some (system', obs)) :
    Consistent system' ∧ ∀ o ∈ obs, o.Faithful := by
  cases e with
  | vfork i child =>
      rw [step, Option.bind_eq_some_iff] at hstep
      obtain ⟨s, hs, hstep⟩ := hstep
      split at hstep
      · cases hstep
      · next hunused =>
          have hne := ne_root_of_unused hs hunused
          rw [Space.vfork_of_undisturbed (hmeets s hs) hne] at hstep
          cases hstep
          refine ⟨consistent_set hsystem (Or.inr ⟨child, rfl, rfl, hne⟩), ?_⟩
          simp [Observation.Faithful]
  | vforkFails i =>
      rw [step, Option.map_eq_some_iff] at hstep
      obtain ⟨s, hs, hstep⟩ := hstep
      rw [Space.vforkFails_of_undisturbed (hmeets s hs)] at hstep
      cases hstep
      have hnone := (hmeets s hs).1
      refine ⟨consistent_set hsystem (Or.inl hnone), ?_⟩
      simp [completed, hnone, Observation.Faithful]
  | fork i child =>
      rw [step, Option.bind_eq_some_iff] at hstep
      obtain ⟨s, -, hstep⟩ := hstep
      split at hstep
      · cases hstep
      · cases hstep
        exact ⟨consistent_snoc hsystem (Or.inl rfl), by simp⟩
  | exit i reaper =>
      rw [step, Option.map_eq_some_iff] at hstep
      obtain ⟨s, hs, hstep⟩ := hstep
      split at hstep
      · cases hstep
        refine ⟨consistent_reparent ?_, by simp⟩
        intro t ht
        exact hsystem t (List.mem_of_mem_eraseIdx ht)
      · next hchildren =>
          obtain ⟨hleft, hgood⟩ := leave_spec (hsystem s (List.mem_of_getElem? hs)) hchildren
          cases hstep
          exact ⟨consistent_reparent (consistent_set hsystem hleft), hgood⟩
  | exec i =>
      rw [step, Option.map_eq_some_iff] at hstep
      obtain ⟨s, hs, hstep⟩ := hstep
      split at hstep
      · next hchildren =>
          cases hstep
          exact ⟨consistent_set hsystem (Or.inl hchildren), by simp⟩
      · next hchildren =>
          obtain ⟨hleft, hgood⟩ := leave_spec (hsystem s (List.mem_of_getElem? hs)) hchildren
          cases hstep
          exact ⟨consistent_snoc (consistent_set hsystem hleft) (Or.inl rfl), hgood⟩

/-- A step that does not meet the condition executes a wrong hook. -/
theorem step_unfaithful (hsystem : Consistent system) (hnot : ¬Undisturbed system e)
    (hstep : step system e = some (system', obs)) : ∃ o ∈ obs, ¬o.Faithful := by
  have hwrong : ∀ (i : ℕ) (s : Space), system[i]? = some s →
      (¬∀ t : Space, system[i]? = some t → t.Undisturbed) →
        ¬(Observation.call .vforkBefore s.call.2).Faithful := by
    intro i s hs hnot
    refine Space.call_ne_vforkBefore (hsystem s (List.mem_of_getElem? hs)) ?_
    intro h
    apply hnot
    intro t ht
    rw [hs, Option.some.injEq] at ht
    rwa [← ht]
  cases e with
  | vfork i child =>
      rw [step, Option.bind_eq_some_iff] at hstep
      obtain ⟨s, hs, hstep⟩ := hstep
      split at hstep
      · cases hstep
      · cases hstep
        exact ⟨_, List.mem_cons_self, hwrong i s hs hnot⟩
  | vforkFails i =>
      rw [step, Option.map_eq_some_iff] at hstep
      obtain ⟨s, hs, hstep⟩ := hstep
      cases hstep
      exact ⟨_, List.mem_append_left _ List.mem_cons_self, hwrong i s hs hnot⟩
  | fork i child => exact absurd trivial hnot
  | exit i reaper => exact absurd trivial hnot
  | exec i => exact absurd trivial hnot

end Systems

/-! ## Runs -/

/-- A process that has not called vfork. -/
def fresh (pid ppid : Pid) : List Space := [⟨-1, pid, ppid, []⟩]

/-- A run executes the hook of the true phase at every call, with the saved value reset after
each outermost vfork, if and only if every vfork in it is called undisturbed. -/
theorem spillArea_faithful_iff (pid ppid : Pid) (events : List Event) (system : List Space)
    (obs : List Observation) (hrun : run step (fresh pid ppid) events = some (system, obs)) :
    (∀ o ∈ obs, o.Faithful) ↔ Meets step Undisturbed (fresh pid ppid) events := by
  have hfresh : Consistent (fresh pid ppid) := by
    intro s hs
    rw [List.mem_singleton.mp hs]
    exact Or.inl rfl
  refine run_good_iff ?_ ?_ hfresh hrun
  · intro s e s' o hs hC hstep
    exact step_spec hs hC hstep
  · intro s e s' o hs hC hstep
    exact step_unfaithful hs hC hstep

/-! ## A vfork child that calls vfork -/

def initPid : Pid := ⟨1, by decide⟩

def parentPid : Pid := ⟨100, by decide⟩

def childPid : Pid := ⟨101, by decide⟩

def grandchildPid : Pid := ⟨102, by decide⟩

/-- The child's own call is taken for the second half of its parent's vfork. -/
theorem nested_vfork_misfires :
    ∃ system obs,
      run step (fresh parentPid initPid)
          [.vfork 0 childPid, .vfork 0 grandchildPid] = some (system, obs) ∧
        Observation.call .vforkBefore .vforkChildAfter ∈ obs ∧ ¬∀ o ∈ obs, o.Faithful := by
  refine ⟨_, _, rfl, by decide, ?_⟩
  intro h
  have hcall := h (.call .vforkBefore .vforkChildAfter) (by decide)
  cases hcall

theorem spillArea_faithful_iff_single :
    ∃ system obs,
      run step (fresh parentPid initPid)
          [.vfork 0 childPid, .exit 0 initPid] = some (system, obs) ∧
        ((∀ o ∈ obs, o.Faithful) ↔
          Meets step Undisturbed (fresh parentPid initPid)
            [.vfork 0 childPid, .exit 0 initPid]) :=
  ⟨_, _, rfl, spillArea_faithful_iff _ _ _ _ _ rfl⟩

end Mair.Vfork
