import Mair.Compiler.RtMatching

/-! # Runs of the rewriter -/

namespace Mair.Compiler.RtRewriter

open Search

variable {r : RtRewriter} {st st' : State} {args rest : List CString} {arg newRt back x : CString}
  {goOn skip : Bool}

/-! ## One argument -/

/-- What can become of an argument. -/
inductive Eaten (r : RtRewriter) (st : State) (arg : CString) : State → Bool → Prop
  | kept : r.replaceSanitizerRt arg = .ok none →
      Eaten r st arg { st with newCmdArgs := st.newCmdArgs ++ [arg] } true
  | inserted {newRt back : CString} : r.replaceSanitizerRt arg = .ok (some newRt) →
      st.newCmdArgs.getLast? = some back → newRt ∉ st.seenRts →
      Eaten r st arg (r.insertRt st back arg newRt) true
  | dropped {newRt back : CString} : r.replaceSanitizerRt arg = .ok (some newRt) →
      st.newCmdArgs.getLast? = some back → newRt ∈ st.seenRts → back ≠ preRt →
      Eaten r st arg st true
  | popped {newRt : CString} {front : List CString} :
      r.replaceSanitizerRt arg = .ok (some newRt) → st.newCmdArgs = front ++ [preRt] →
      newRt ∈ st.seenRts → Eaten r st arg { st with newCmdArgs := front } false

theorem eaten_of_eatOneArg (h : r.eatOneArg st arg = .ok (st', goOn)) :
    r.Eaten st arg st' goOn := by
  rw [eatOneArg] at h
  cases hrt : r.replaceSanitizerRt arg with
  | error stop =>
      rw [hrt] at h
      cases h
  | ok result =>
      rw [hrt] at h
      cases result with
      | none =>
          cases h
          exact .kept hrt
      | some newRt =>
          cases hback : st.newCmdArgs.getLast? with
          | none =>
              rw [hback] at h
              cases h
          | some back =>
              rw [hback] at h
              simp only at h
              split at h
              · next hseen =>
                  split at h
                  · next hpre =>
                      cases h
                      obtain ⟨front, hfront⟩ := List.getLast?_eq_some_iff.mp hback
                      rw [hpre] at hfront
                      have hpop := Eaten.popped hrt hfront hseen
                      rw [hfront, List.dropLast_concat]
                      exact hpop
                  · next hpre =>
                      cases h
                      exact .dropped hrt hback hseen hpre
              · next hseen =>
                  cases h
                  exact .inserted hrt hback hseen

theorem exists_eaten (h : r.eatArgs (arg :: rest) false st = .ok st') :
    ∃ st₁ goOn, r.Eaten st arg st₁ goOn ∧ r.eatArgs rest (!goOn) st₁ = .ok st' := by
  rw [eatArgs] at h
  cases hone : r.eatOneArg st arg with
  | error stop =>
      rw [hone] at h
      cases h
  | ok result =>
      rw [hone] at h
      exact ⟨result.1, result.2, eaten_of_eatOneArg hone, h⟩

theorem eatArgs_kept (h : r.replaceSanitizerRt arg = .ok none) :
    r.eatArgs (arg :: rest) false st =
      r.eatArgs rest false { st with newCmdArgs := st.newCmdArgs ++ [arg] } := by
  rw [eatArgs, eatOneArg, h]
  rfl

theorem replaceSanitizerRt_of_find (h : find compilerRt arg = none) :
    r.replaceSanitizerRt arg = .ok none := by
  rw [replaceSanitizerRt, findSanRtSuffix, h]

theorem replaceSanitizerRt_preRt : r.replaceSanitizerRt preRt = .ok none :=
  replaceSanitizerRt_of_find (by decide)

theorem replaceSanitizerRt_postRt : r.replaceSanitizerRt postRt = .ok none :=
  replaceSanitizerRt_of_find (by decide)

theorem ne_preRt_of_begins (h : r.prefixToReplace <+: x) : x ≠ preRt := by
  rintro rfl
  exact absurd (h.subset r.dot_mem_prefixToReplace) (by decide)

theorem ne_preRt_of_dynList (h : r.prefixToReplace <+: x) : dynList ++ x ≠ preRt := by
  intro heq
  have hmem : '.' ∈ dynList ++ x := List.mem_append_right _ (h.subset r.dot_mem_prefixToReplace)
  rw [heq] at hmem
  exact absurd hmem (by decide)

theorem rPathOpt_ne_preRt (r : RtRewriter) : r.rPathOpt ≠ preRt := by
  intro h
  have hsecond := congrArg (fun l : CString => l[1]?) h
  cases hsecond

/-! ## What is written stays -/

theorem prefix_of_eaten {front : List CString} (h : r.Eaten st arg st' goOn)
    (hpre : front ++ [x] <+: st.newCmdArgs) (hx : x ≠ preRt) : front ++ [x] <+: st'.newCmdArgs := by
  cases h with
  | kept _ => exact hpre.trans (List.prefix_append _ _)
  | inserted _ _ _ =>
      rw [insertRt]
      exact hpre.trans ((List.prefix_append _ _).trans (List.prefix_append _ _))
  | dropped _ _ _ _ => exact hpre
  | popped _ hfront _ =>
      rw [hfront] at hpre
      rcases List.prefix_concat_iff.mp hpre with heq | hpre
      · exact absurd (List.append_singleton_inj.mp heq).2 hx
      · exact hpre

theorem prefix_of_eatArgs {front : List CString} (h : r.eatArgs args skip st = .ok st')
    (hpre : front ++ [x] <+: st.newCmdArgs) (hx : x ≠ preRt) : front ++ [x] <+: st'.newCmdArgs := by
  induction args generalizing skip st with
  | nil =>
      cases h
      exact hpre
  | cons arg args ih =>
      cases skip with
      | true => exact ih h hpre
      | false =>
          obtain ⟨st₁, goOn, heaten, hrun⟩ := exists_eaten h
          exact ih hrun (prefix_of_eaten heaten hpre hx)

/-! ## Only these arguments are written -/

/-- The rewriter writes what it does not replace, the new runtimes and the option for them. -/
def Produced (r : RtRewriter) (x : CString) : Prop :=
  r.replaceSanitizerRt x = .ok none ∨ x = r.rPathOpt ∨ r.prefixToReplace <+: x ∨
    dynList ++ r.prefixToReplace <+: x

theorem produced_insertRt (hrt : r.replaceSanitizerRt arg = .ok (some newRt))
    (h : ∀ x ∈ st.newCmdArgs, r.Produced x) :
    ∀ x ∈ (r.insertRt st back arg newRt).newCmdArgs, r.Produced x := by
  have hpre := prefixToReplace_begins hrt
  intro x hx
  rw [insertRt, List.mem_append, List.mem_append] at hx
  rcases hx with (hx | hx) | hx
  · exact h x hx
  · split at hx
    · exact .inr (.inl (List.mem_singleton.mp hx))
    · cases hx
  · rw [List.mem_singleton] at hx
    split at hx
    · rw [hx]
      exact .inr (.inr (.inr ((List.prefix_append_right_inj dynList).mpr hpre)))
    · rw [hx]
      exact .inr (.inr (.inl hpre))

theorem produced_of_eaten (heaten : r.Eaten st arg st' goOn)
    (h : ∀ x ∈ st.newCmdArgs, r.Produced x) : ∀ x ∈ st'.newCmdArgs, r.Produced x := by
  cases heaten with
  | kept hrt =>
      intro x hx
      rcases List.mem_append.mp hx with hx | hx
      · exact h x hx
      · rw [List.mem_singleton.mp hx]
        exact .inl hrt
  | inserted hrt _ _ => exact produced_insertRt hrt h
  | dropped _ _ _ _ => exact h
  | popped _ hfront _ =>
      intro x hx
      apply h
      rw [hfront]
      exact List.mem_append_left _ hx

theorem produced_of_eatArgs (hrun : r.eatArgs args skip st = .ok st')
    (h : ∀ x ∈ st.newCmdArgs, r.Produced x) : ∀ x ∈ st'.newCmdArgs, r.Produced x := by
  induction args generalizing skip st with
  | nil =>
      cases hrun
      exact h
  | cons arg args ih =>
      cases skip with
      | true => exact ih hrun h
      | false =>
          obtain ⟨st₁, goOn, heaten, hrun⟩ := exists_eaten hrun
          exact ih hrun (produced_of_eaten heaten h)

/-! ## One runtime of the line -/

section Line

variable {rt : Runtime}

def NoFatal {α : Type} (result : Except Stop α) : Prop :=
  ∀ message, result ≠ .error (.fatal message)

/-- The state behind the first runtime with its target. -/
def place (r : RtRewriter) (st : State) (rt : Runtime) : State where
  newCmdArgs := st.newCmdArgs ++ r.newArgs rt
  seenRts := r.target rt :: st.seenRts
  shouldHasStaticRt := st.shouldHasStaticRt && (find staticSuffix rt.arg).isNone

theorem args_of_archive (hkind : rt.kind = .archive) : rt.args = [preRt, rt.arg, postRt] := by
  rw [Runtime.args, hkind]

theorem args_of_ne_archive (hkind : rt.kind ≠ .archive) : rt.args = [rt.arg] := by
  rw [Runtime.args]
  split
  · next h => exact absurd h hkind
  · rfl

theorem noShared_of_noFatal (hdir : find compilerRt rt.dir = none)
    (hrun : NoFatal (r.eatArgs (rt.args ++ rest) false st)) (hkind : rt.kind = .shared) :
    ¬r.NoShared := by
  intro hno
  apply hrun sharedWithMsan
  rw [args_of_ne_archive (by rw [hkind]; decide), List.singleton_append, eatArgs, eatOneArg,
    replaceSanitizerRt_fatal hdir hkind hno]

theorem getLast?_concat_preRt {front : List CString} :
    (front ++ [preRt]).getLast? = some preRt := by
  rw [List.getLast?_concat]

theorem exists_back {l : List CString} (h : l ≠ []) : ∃ back, l.getLast? = some back :=
  ⟨_, List.getLast?_eq_some_getLast h⟩

theorem eatOneArg_first (st : State) (hrt : r.replaceSanitizerRt arg = .ok (some newRt))
    (hback : st.newCmdArgs.getLast? = some back) (hseen : newRt ∉ st.seenRts) :
    r.eatOneArg st arg = .ok (r.insertRt st back arg newRt, true) := by
  rw [eatOneArg, hrt]
  simp only [hback, if_neg hseen]

/-- The first runtime with its target is put in. -/
theorem eatArgs_place (hrt : r.replaceSanitizerRt rt.arg = .ok (some (r.target rt)))
    (hseen : r.target rt ∉ st.seenRts) (hne : rt.kind ≠ .archive → st.newCmdArgs ≠ [])
    (hlast : rt.kind = .symbols → st.newCmdArgs.getLast? ≠ some preRt) :
    r.eatArgs (rt.args ++ rest) false st = r.eatArgs rest false (r.place st rt) := by
  cases hkind : rt.kind with
  | archive =>
      have hso : ¬dotSo <:+ rt.arg := by
        rw [Runtime.dotSo_suffix_arg, hkind]
        decide
      have hone := eatOneArg_first { st with newCmdArgs := st.newCmdArgs ++ [preRt] } hrt
        getLast?_concat_preRt hseen
      rw [args_of_archive hkind, List.cons_append, eatArgs_kept replaceSanitizerRt_preRt,
        List.cons_append, eatArgs, hone]
      simp only [Bool.not_true, List.singleton_append]
      rw [eatArgs_kept replaceSanitizerRt_postRt, insertRt, if_neg hso,
        if_neg fun h => h.1 rfl, place, newArgs, newArg, hkind]
      simp
  | symbols =>
      have hne' : rt.kind ≠ .archive := by rw [hkind]; decide
      have hso : ¬dotSo <:+ rt.arg := by
        rw [Runtime.dotSo_suffix_arg, hkind]
        decide
      obtain ⟨back, hback⟩ := exists_back (hne hne')
      have hpre : back ≠ preRt := fun heq => hlast hkind (heq ▸ hback)
      rw [args_of_ne_archive hne', List.singleton_append, eatArgs,
        eatOneArg_first st hrt hback hseen]
      simp only [Bool.not_true]
      rw [insertRt, if_neg hso, if_pos ⟨hpre, Runtime.dynList_prefix_arg.mpr hkind⟩, place, newArgs,
        newArg, hkind]
      simp
  | shared =>
      have hne' : rt.kind ≠ .archive := by rw [hkind]; decide
      have hdyn : ¬dynList <+: rt.arg := by
        rw [Runtime.dynList_prefix_arg, hkind]
        decide
      obtain ⟨back, hback⟩ := exists_back (hne hne')
      rw [args_of_ne_archive hne', List.singleton_append, eatArgs,
        eatOneArg_first st hrt hback hseen]
      simp only [Bool.not_true]
      rw [insertRt, if_pos (Runtime.dotSo_suffix_arg.mpr hkind), if_neg fun h => hdyn h.2, place,
        newArgs, newArg, hkind]
      simp

/-- A later one is dropped. -/
theorem eatArgs_repeat (hrt : r.replaceSanitizerRt rt.arg = .ok (some (r.target rt)))
    (hseen : r.target rt ∈ st.seenRts) (hne : rt.kind ≠ .archive → st.newCmdArgs ≠ [])
    (hlast : rt.kind ≠ .archive → st.newCmdArgs.getLast? ≠ some preRt) :
    r.eatArgs (rt.args ++ rest) false st = r.eatArgs rest false st := by
  by_cases hkind : rt.kind = .archive
  · rw [args_of_archive hkind, List.cons_append, eatArgs_kept replaceSanitizerRt_preRt,
      List.cons_append, eatArgs, eatOneArg, hrt]
    simp only [getLast?_concat_preRt, if_pos hseen, List.dropLast_concat]
    rw [if_pos trivial]
    simp [eatArgs]
  · obtain ⟨back, hback⟩ := exists_back (hne hkind)
    have hpre : back ≠ preRt := fun heq => hlast hkind (heq ▸ hback)
    rw [args_of_ne_archive hkind, List.singleton_append, eatArgs, eatOneArg, hrt]
    simp only [hback, if_pos hseen, if_neg hpre, Bool.not_true]

end Line

end Mair.Compiler.RtRewriter
