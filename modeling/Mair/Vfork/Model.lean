import Mathlib.Data.BitVec
import Mair.Library.Runs

/-! # The vfork hook

`__xsan_extra_spill_area` runs around every vfork and infers its phase from one saved
process identifier that a vfork child shares with its parent and a forked process copies. -/

namespace Mair.Vfork

/-! ## Processes -/

abbrev Uptr := BitVec 64

/-- No process has ID -1. -/
abbrev Pid := { pid : Uptr // pid ≠ -1 }

inductive Hook where
  | vforkBefore | vforkChildAfter | vforkParentAfter
  deriving DecidableEq

/-- The new value of `pid_before_vfork` and the hook that is executed. -/
def xsanExtraSpillArea (pidBeforeVfork : Uptr) (pid ppid : Pid) : Uptr × Hook :=
  if pid.val ≠ pidBeforeVfork then
    if ppid.val = pidBeforeVfork then (pidBeforeVfork, .vforkChildAfter)
    else (pid.val, .vforkBefore)
  else (-1, .vforkParentAfter)

/-- The memory of one thread with the process that owns it and the live vfork children that
run on it, the innermost first. All but the innermost process are suspended. -/
structure Space where
  pidBeforeVfork : Uptr
  root : Pid
  rootPpid : Pid
  children : List Pid
  deriving DecidableEq

namespace Space

/-- The process that runs. -/
def getpid (s : Space) : Pid := s.children.headD s.root

/-- The parent of a vfork child is suspended and keeps its identifier. -/
def getppid (s : Space) : Pid :=
  match s.children with
  | [] => s.rootPpid
  | _ :: rest => rest.headD s.root

def pids (s : Space) : List Pid := s.children ++ [s.root]

instance decidableMemPids (child : Pid) (s : Space) : Decidable (child ∈ s.pids) :=
  inferInstanceAs (Decidable (child ∈ s.children ++ [s.root]))

def call (s : Space) : Space × Hook :=
  let result := xsanExtraSpillArea s.pidBeforeVfork s.getpid s.getppid
  ({ s with pidBeforeVfork := result.1 }, result.2)

def push (s : Space) (child : Pid) : Space := { s with children := child :: s.children }

def pop (s : Space) : Space := { s with children := s.children.tail }

/-- The parent calls the hook, and the child does on the same memory. -/
def vfork (s : Space) (child : Pid) : Space × Hook × Hook :=
  let before := s.call
  let after := (before.1.push child).call
  (after.1, before.2, after.2)

/-- No child is created, and the parent makes both calls. -/
def vforkFails (s : Space) : Space × Hook × Hook :=
  let before := s.call
  let after := before.1.call
  (after.1, before.2, after.2)

/-- The child is gone, and the parent makes its second call. -/
def leave (s : Space) : Space × Hook := s.pop.call

/-- An orphan is given to another process. -/
def reparent (dead reaper : Pid) (s : Space) : Space :=
  if s.rootPpid = dead then { s with rootPpid := reaper } else s

end Space

/-! ## Systems of processes -/

inductive Event where
  | vfork (i : ℕ) (child : Pid)
  | vforkFails (i : ℕ)
  | fork (i : ℕ) (child : Pid)
  | exit (i : ℕ) (reaper : Pid)
  | exec (i : ℕ)

/-- A call in a true phase with the hook that it executed, and the saved value when an
outermost vfork has completed. -/
inductive Observation where
  | call (phase fired : Hook)
  | completed (pidBeforeVfork : Uptr)
  deriving DecidableEq

def completed (s : Space) : List Observation :=
  match s.children with
  | [] => [.completed s.pidBeforeVfork]
  | _ :: _ => []

/-- The running process of space `i` makes a system call. New identifiers are unused. -/
def step (system : List Space) : Event → Option (List Space × List Observation)
  | .vfork i child =>
      (system[i]?).bind fun s =>
        if child ∈ system.flatMap Space.pids then none
        else
          let result := s.vfork child
          some (system.set i result.1,
            [.call .vforkBefore result.2.1, .call .vforkChildAfter result.2.2])
  | .vforkFails i =>
      (system[i]?).map fun s =>
        let result := s.vforkFails
        (system.set i result.1,
          [.call .vforkBefore result.2.1, .call .vforkParentAfter result.2.2] ++
            completed result.1)
  | .fork i child =>
      (system[i]?).bind fun s =>
        if child ∈ system.flatMap Space.pids then none
        else some (system ++ [⟨s.pidBeforeVfork, child, s.getpid, []⟩], [])
  | .exit i reaper =>
      (system[i]?).map fun s =>
        match s.children with
        | [] => ((system.eraseIdx i).map (Space.reparent s.root reaper), [])
        | child :: _ =>
            let result := s.leave
            ((system.set i result.1).map (Space.reparent child reaper),
              .call .vforkParentAfter result.2 :: completed result.1)
  | .exec i =>
      (system[i]?).map fun s =>
        match s.children with
        | [] => (system.set i { s with pidBeforeVfork := -1 }, [])
        | child :: _ =>
            let result := s.leave
            (system.set i result.1 ++ [⟨-1, child, s.getppid, []⟩],
              .call .vforkParentAfter result.2 :: completed result.1)

end Mair.Vfork
