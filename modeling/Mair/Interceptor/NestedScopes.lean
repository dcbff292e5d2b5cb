import Mathlib.Algebra.Order.Group.Int
import Mathlib.Tactic.Common

/-! # Checks of nested interceptors

`FuncScope` keeps the depth at which an interceptor is entered in one slot for each thread, which
the interceptors that run inside it overwrite. -/

namespace Mair.Interceptor

/-! ## The scopes of a thread -/

structure MsanThread where
  inInterceptorScope : ℤ
  savedScope : ℤ
  deriving DecidableEq

/-- `enter` and `leave` are those of `FuncScope` for common interceptors, `raise` and `lower` those
of `InterceptorScope`, or a call that disables the checks and one that enables them again. -/
inductive ScopeEvent where
  | enter
  | leave
  | raise
  | lower
  | commonReadRange

namespace MsanThread

def next (t : MsanThread) : ScopeEvent → MsanThread
  | .enter => ⟨t.inInterceptorScope + 1, t.inInterceptorScope⟩
  | .leave => { t with inInterceptorScope := t.inInterceptorScope - 1 }
  | .raise => { t with inInterceptorScope := t.inInterceptorScope + 1 }
  | .lower => { t with inInterceptorScope := t.inInterceptorScope - 1 }
  | .commonReadRange => t

/-- Whether `CommonReadRange` checks its range. -/
def checks (t : MsanThread) : Bool := !decide (t.savedScope ≠ 0)

/-- What the calls of `CommonReadRange` do, in order. -/
def answers (t : MsanThread) : List ScopeEvent → List Bool
  | [] => []
  | .commonReadRange :: es => t.checks :: t.answers es
  | e :: es => (t.next e).answers es

end MsanThread

/-! ## Well-nested sequences -/

/-- What runs inside an interceptor: its own calls of `CommonReadRange`, nested interceptors, and
scopes of other code. -/
inductive Body where
  | done
  | read (rest : Body)
  | interceptor (inner rest : Body)
  | scope (inner rest : Body)

/-- What runs on a thread outside of interceptors. -/
inductive Program where
  | done
  | interceptor (body : Body) (rest : Program)
  | scope (inner rest : Program)

def Body.events : Body → List ScopeEvent
  | .done => []
  | .read rest => .commonReadRange :: rest.events
  | .interceptor inner rest => .enter :: (inner.events ++ .leave :: rest.events)
  | .scope inner rest => .raise :: (inner.events ++ .lower :: rest.events)

def Program.events : Program → List ScopeEvent
  | .done => []
  | .interceptor body rest => .enter :: (body.events ++ .leave :: rest.events)
  | .scope inner rest => .raise :: (inner.events ++ .lower :: rest.events)

/-- Each call checks if and only if its interceptor was entered at depth 0. The interceptor was
entered at depth `own`, and the body runs at `depth`. -/
def Body.intended (own depth : ℤ) : Body → List Bool
  | .done => []
  | .read rest => decide (own = 0) :: rest.intended own depth
  | .interceptor inner rest => inner.intended depth (depth + 1) ++ rest.intended own depth
  | .scope inner rest => inner.intended own (depth + 1) ++ rest.intended own depth

def Program.intended (depth : ℤ) : Program → List Bool
  | .done => []
  | .interceptor body rest => body.intended depth (depth + 1) ++ rest.intended depth
  | .scope inner rest => inner.intended (depth + 1) ++ rest.intended depth

/-! ## Reads before nested interceptors -/

/-- The interceptor itself calls `CommonReadRange`. -/
def Body.reads : Body → Bool
  | .done => false
  | .read _ => true
  | .interceptor _ rest => rest.reads
  | .scope inner rest => inner.reads || rest.reads

/-- Another interceptor is entered. -/
def Body.calls : Body → Bool
  | .done => false
  | .read rest => rest.calls
  | .interceptor _ _ => true
  | .scope inner rest => inner.calls || rest.calls

/-- The interceptor does not call `CommonReadRange` after another one has run inside it. -/
def Body.ReadsFirst : Body → Prop
  | .done => True
  | .read rest => rest.ReadsFirst
  | .interceptor _ rest => rest.reads = false
  | .scope inner rest =>
      inner.ReadsFirst ∧ if inner.calls then rest.reads = false else rest.ReadsFirst

/-- This holds of the interceptors that are entered at depth 0. -/
def Program.ReadsFirst : Program → Prop
  | .done => True
  | .interceptor body rest => body.ReadsFirst ∧ rest.ReadsFirst
  | .scope _ rest => rest.ReadsFirst

/-! ## The slot -/

namespace Body

/-- What the code answers, with this in the slot. -/
def answers (depth saved : ℤ) : Body → List Bool × ℤ
  | .done => ([], saved)
  | .read rest =>
      let r := rest.answers depth saved
      (decide (saved = 0) :: r.1, r.2)
  | .interceptor inner rest =>
      let i := inner.answers (depth + 1) depth
      let r := rest.answers depth i.2
      (i.1 ++ r.1, r.2)
  | .scope inner rest =>
      let i := inner.answers (depth + 1) saved
      let r := rest.answers depth i.2
      (i.1 ++ r.1, r.2)

variable {own depth saved : ℤ}

/-- The slot is all that a body leaves behind. -/
theorem answers_events (b : Body) (es : List ScopeEvent) :
    MsanThread.answers ⟨depth, saved⟩ (b.events ++ es) =
      (b.answers depth saved).1 ++ MsanThread.answers ⟨depth, (b.answers depth saved).2⟩ es := by
  induction b generalizing depth saved es with
  | done => rfl
  | read rest ih =>
      simp only [events, List.cons_append, MsanThread.answers, ih, answers]
      simp [MsanThread.checks]
  | interceptor inner rest ihinner ihrest =>
      simp only [events, List.cons_append, List.append_assoc, MsanThread.answers, MsanThread.next,
        ihinner, ihrest, answers, add_sub_cancel_right]
  | scope inner rest ihinner ihrest =>
      simp only [events, List.cons_append, List.append_assoc, MsanThread.answers, MsanThread.next,
        ihinner, ihrest, answers, add_sub_cancel_right]

theorem length_answers (b : Body) :
    (b.answers depth saved).1.length = (b.intended own depth).length := by
  induction b generalizing own depth saved with
  | done => rfl
  | read rest ih =>
      simp only [answers, intended, List.length_cons]
      rw [ih]
  | interceptor inner rest ihinner ihrest =>
      simp only [answers, intended, List.length_append]
      rw [ihinner, ihrest]
  | scope inner rest ihinner ihrest =>
      simp only [answers, intended, List.length_append]
      rw [ihinner, ihrest]

theorem append_eq_iff {inner : Body} {answered wanted : List Bool} :
    (inner.answers depth saved).1 ++ answered = inner.intended own depth ++ wanted ↔
      (inner.answers depth saved).1 = inner.intended own depth ∧ answered = wanted := by
  constructor
  · intro h
    exact List.append_inj h inner.length_answers
  · rintro ⟨hinner, hrest⟩
    rw [hinner, hrest]

/-- An interceptor that is entered at a positive depth is answered right. -/
theorem answers_of_pos (b : Body) (hown : 0 < own) (hdepth : 0 < depth) (hsaved : 0 < saved) :
    (b.answers depth saved).1 = b.intended own depth ∧ 0 < (b.answers depth saved).2 := by
  induction b generalizing own depth saved with
  | done => exact ⟨rfl, hsaved⟩
  | read rest ih =>
      obtain ⟨hrest, hslot⟩ := ih hown hdepth hsaved
      refine ⟨?_, hslot⟩
      simp only [answers, intended]
      rw [hrest, decide_eq_false (by omega), decide_eq_false (by omega)]
  | interceptor inner rest ihinner ihrest =>
      have hsucc : 0 < depth + 1 := by omega
      obtain ⟨hinner, hslot⟩ := ihinner hdepth hsucc hdepth
      obtain ⟨hrest, hslot'⟩ := ihrest hown hdepth hslot
      refine ⟨?_, hslot'⟩
      simp only [answers, intended]
      rw [hinner, hrest]
  | scope inner rest ihinner ihrest =>
      have hsucc : 0 < depth + 1 := by omega
      obtain ⟨hinner, hslot⟩ := ihinner hown hsucc hsaved
      obtain ⟨hrest, hslot'⟩ := ihrest hown hdepth hslot
      refine ⟨?_, hslot'⟩
      simp only [answers, intended]
      rw [hinner, hrest]

/-- Once the slot is lost, a call of `CommonReadRange` does not check. -/
theorem answers_of_lost (b : Body) (hdepth : 0 < depth) (hsaved : 0 < saved) :
    ((b.answers depth saved).1 = b.intended 0 depth ↔ b.reads = false) ∧
      0 < (b.answers depth saved).2 := by
  induction b generalizing depth saved with
  | done => exact ⟨by simp [answers, intended, reads], hsaved⟩
  | read rest ih =>
      refine ⟨?_, (ih hdepth hsaved).2⟩
      simp only [answers, intended, reads]
      rw [decide_eq_false (by omega)]
      simp
  | interceptor inner rest ihinner ihrest =>
      have hsucc : 0 < depth + 1 := by omega
      obtain ⟨hinner, hslot⟩ := inner.answers_of_pos hdepth hsucc hdepth
      obtain ⟨hrest, hslot'⟩ := ihrest hdepth hslot
      refine ⟨?_, hslot'⟩
      simp only [answers, intended, reads]
      rw [append_eq_iff, hrest]
      exact and_iff_right hinner
  | scope inner rest ihinner ihrest =>
      have hsucc : 0 < depth + 1 := by omega
      obtain ⟨hinner, hslot⟩ := ihinner hsucc hsaved
      obtain ⟨hrest, hslot'⟩ := ihrest hdepth hslot
      refine ⟨?_, hslot'⟩
      simp only [answers, intended, reads]
      rw [append_eq_iff, Bool.or_eq_false_iff, hinner, hrest]

/-- An interceptor that is entered at depth 0 keeps its slot until another one is entered. -/
theorem answers_of_kept (b : Body) (hdepth : 0 < depth) :
    ((b.answers depth 0).1 = b.intended 0 depth ↔ b.ReadsFirst) ∧
      (b.calls = true → 0 < (b.answers depth 0).2) ∧
        (b.calls = false → (b.answers depth 0).2 = 0) := by
  induction b generalizing depth with
  | done => exact ⟨by simp [answers, intended, ReadsFirst], by simp [calls], fun _ => rfl⟩
  | read rest ih =>
      obtain ⟨hrest, hslot⟩ := ih hdepth
      refine ⟨?_, hslot⟩
      simp only [answers, intended, ReadsFirst]
      rw [← hrest]
      simp
  | interceptor inner rest ihinner ihrest =>
      have hsucc : 0 < depth + 1 := by omega
      obtain ⟨hinner, hslot⟩ := inner.answers_of_pos hdepth hsucc hdepth
      obtain ⟨hrest, hslot'⟩ := rest.answers_of_lost hdepth hslot
      refine ⟨?_, fun _ => hslot', by simp [calls]⟩
      simp only [answers, intended, ReadsFirst]
      rw [append_eq_iff, hrest]
      exact and_iff_right hinner
  | scope inner rest ihinner ihrest =>
      have hsucc : 0 < depth + 1 := by omega
      obtain ⟨hinner, hlost, hkept⟩ := ihinner hsucc
      simp only [answers, intended, ReadsFirst, calls]
      rw [append_eq_iff, hinner]
      cases hcalls : inner.calls with
      | true =>
          obtain ⟨hrest, hslot⟩ := rest.answers_of_lost hdepth (hlost hcalls)
          rw [hrest]
          exact ⟨by simp, fun _ => hslot, by simp⟩
      | false =>
          obtain ⟨hrest, hslot⟩ := ihrest hdepth
          rw [hkept hcalls, hrest]
          exact ⟨by simp, by simpa using hslot.1, by simpa using hslot.2⟩

end Body

/-! ## A thread -/

namespace Program

variable {depth : ℤ}

theorem answers_of_pos (p : Program) (hdepth : 0 < depth) (saved : ℤ) (es : List ScopeEvent) :
    ∃ slot, MsanThread.answers ⟨depth, saved⟩ (p.events ++ es) =
      p.intended depth ++ MsanThread.answers ⟨depth, slot⟩ es := by
  induction p generalizing depth saved es with
  | done => exact ⟨saved, rfl⟩
  | interceptor body rest ih =>
      have hsucc : 0 < depth + 1 := by omega
      obtain ⟨hbody, -⟩ := body.answers_of_pos hdepth hsucc hdepth
      obtain ⟨slot, hrest⟩ := ih hdepth (body.answers (depth + 1) depth).2 es
      refine ⟨slot, ?_⟩
      simp only [events, List.cons_append, List.append_assoc, MsanThread.answers, MsanThread.next,
        Body.answers_events, add_sub_cancel_right, intended]
      rw [hbody, hrest]
  | scope inner rest ihinner ihrest =>
      have hsucc : 0 < depth + 1 := by omega
      obtain ⟨slot, hinner⟩ := ihinner hsucc saved (.lower :: (rest.events ++ es))
      obtain ⟨slot', hrest⟩ := ihrest hdepth slot es
      refine ⟨slot', ?_⟩
      simp only [events, List.cons_append, List.append_assoc, MsanThread.answers, MsanThread.next,
        intended]
      rw [hinner]
      simp only [MsanThread.answers, MsanThread.next, add_sub_cancel_right]
      rw [hrest]

/-- On a thread that is in no interceptor, each call of `CommonReadRange` checks if and only if its
own interceptor was entered at depth 0, exactly when the interceptors that are entered at depth 0 read
before they let another one run. -/
theorem answers_eq_intended_iff (p : Program) (saved : ℤ) :
    MsanThread.answers ⟨0, saved⟩ p.events = p.intended 0 ↔ p.ReadsFirst := by
  induction p generalizing saved with
  | done => simp [events, MsanThread.answers, intended, ReadsFirst]
  | interceptor body rest ih =>
      obtain ⟨hbody, -⟩ := body.answers_of_kept Int.one_pos
      simp only [events, MsanThread.answers, MsanThread.next, Body.answers_events, zero_add,
        sub_self, intended, ReadsFirst]
      rw [Body.append_eq_iff, hbody, ih]
  | scope inner rest ihinner ihrest =>
      obtain ⟨slot, hinner⟩ := inner.answers_of_pos Int.one_pos saved (.lower :: rest.events)
      simp only [events, MsanThread.answers, MsanThread.next, zero_add, intended, ReadsFirst]
      rw [hinner, ← ihrest slot]
      simp only [MsanThread.answers, MsanThread.next, sub_self, List.append_cancel_left_eq]

/-! ## A check after a callback -/

/-- An interceptor runs a callback that calls another one, and then reads. -/
def readAfterCallback : Program := .interceptor (.interceptor .done (.read .done)) .done

/-- The read is not checked. -/
theorem readAfterCallback_unchecked :
    MsanThread.answers ⟨0, 0⟩ readAfterCallback.events = [false] ∧
      readAfterCallback.intended 0 = [true] := by
  decide

end Program

end Mair.Interceptor
