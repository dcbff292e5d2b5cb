import Mair.Compiler.WantedLine

/-! # How often `--whole-archive` is written -/

namespace Mair.Compiler.RtRewriter

open Search

local instance lawfulOther : LawfulBEq CString where
  eq_of_beq h := by simpa using h
  rfl := by simp

/-- An archive that is none of the other arguments. -/
def archiveArg (r : RtRewriter) (others : List CString) (x : CString) : Bool :=
  dotA <:+ x ∧ x ≠ r.rPathOpt ∧ x ∉ others

variable {r : RtRewriter} {others rest : List CString} {st st' : State} {rt : Runtime}
  {items : List LinkArg} {seen : List CString} {arg newRt x : CString} {goOn skip : Bool}

/-! ## Archives -/

theorem archiveArg_eq_false (h : ¬dotA <:+ x) : r.archiveArg others x = false :=
  decide_eq_false fun harchive => h harchive.1

@[simp] theorem archiveArg_preRt : r.archiveArg others preRt = false :=
  archiveArg_eq_false (by decide)

@[simp] theorem archiveArg_postRt : r.archiveArg others postRt = false :=
  archiveArg_eq_false (by decide)

theorem archiveArg_arg (hkind : rt.kind = .archive) (h : rt.arg ∉ others) :
    r.archiveArg others rt.arg = true :=
  decide_eq_true ⟨Runtime.dotA_suffix_arg.mpr hkind, arg_ne_rPathOpt r rt, h⟩

theorem ne_rPathOpt_of_begins (h : r.prefixToReplace <+: x) : x ≠ r.rPathOpt := by
  rintro rfl
  exact absurd (length_rPathOpt_lt r) (Nat.not_lt.mpr h.length_le)

theorem archiveArg_new (hsuf : dotA <:+ x) (hpre : r.prefixToReplace <+: x)
    (hothers : ∀ x ∈ others, ¬r.prefixToReplace <+: x) : r.archiveArg others x = true :=
  decide_eq_true ⟨hsuf, ne_rPathOpt_of_begins hpre, fun hmem => hothers x hmem hpre⟩

/-! ## One argument -/

/-- No argument brings another `--whole-archive` than itself. -/
theorem count_of_eaten (others : List CString) (h : r.Eaten st arg st' goOn) :
    st'.newCmdArgs.count preRt + st.newCmdArgs.countP (r.archiveArg others) ≤
      st.newCmdArgs.count preRt + [arg].count preRt +
        st'.newCmdArgs.countP (r.archiveArg others) := by
  cases h with
  | kept _ =>
      simp only [List.count_append, List.countP_append]
      omega
  | @inserted newRt back hrt _ _ =>
      have hpre := prefixToReplace_begins hrt
      have hopt : (if dotSo <:+ arg then [r.rPathOpt] else []).count preRt = 0 := by
        split
        · exact List.count_eq_zero_of_not_mem fun hmem =>
            rPathOpt_ne_preRt r (List.mem_singleton.mp hmem).symm
        · rfl
      have hnew : [if back ≠ preRt ∧ dynList <+: arg then dynList ++ newRt else newRt].count
          preRt = 0 := by
        apply List.count_eq_zero_of_not_mem
        intro hmem
        rw [List.mem_singleton] at hmem
        split at hmem
        · exact ne_preRt_of_dynList hpre hmem.symm
        · exact ne_preRt_of_begins hpre hmem.symm
      simp only [insertRt, List.count_append, List.countP_append, hopt, hnew]
      omega
  | dropped _ _ _ _ => omega
  | popped _ hfront _ =>
      simp only [hfront, List.count_append, List.countP_append, List.countP_singleton,
        archiveArg_preRt, List.count_singleton_self, Bool.false_eq_true, if_false]
      omega

theorem count_of_popped (r : RtRewriter) (others : List CString) {front : List CString}
    (hfront : st.newCmdArgs = front ++ [preRt]) :
    front.count preRt + 1 = st.newCmdArgs.count preRt ∧
      front.countP (r.archiveArg others) = st.newCmdArgs.countP (r.archiveArg others) := by
  simp [hfront, List.count_append, List.countP_append]

/-! ## An archive with its two options -/

theorem count_of_archive (hkind : rt.kind = .archive)
    (hplain : ∀ x ∈ others, isRuntime x = false)
    (hothers : ∀ x ∈ others, ¬r.prefixToReplace <+: x)
    (hrun : r.eatArgs (rt.args ++ rest) false st = .ok st') :
    ∃ st₁, r.eatArgs rest false st₁ = .ok st' ∧
      st₁.newCmdArgs.count preRt + st.newCmdArgs.countP (r.archiveArg others) ≤
        st.newCmdArgs.count preRt + st₁.newCmdArgs.countP (r.archiveArg others) := by
  have hdotA := Runtime.dotA_suffix_arg.mpr hkind
  have hpost : postRt ≠ preRt := by decide
  rw [args_of_archive hkind, List.cons_append, eatArgs_kept replaceSanitizerRt_preRt,
    List.cons_append] at hrun
  obtain ⟨st₁, goOn, heaten, hrun⟩ := exists_eaten hrun
  cases heaten with
  | kept _ =>
      have harg : rt.arg ∉ others :=
        fun hmem => ne_of_isRuntime (isRuntime_arg rt) (hplain _ hmem) rfl
      have hne := ne_of_isRuntime (isRuntime_arg rt) isRuntime_preRt
      rw [Bool.not_true, List.singleton_append, eatArgs_kept replaceSanitizerRt_postRt] at hrun
      refine ⟨_, hrun, ?_⟩
      simp [List.count_append, List.countP_append, archiveArg_arg hkind harg, hne, hpost]
      omega
  | @inserted newRt back hrt hback _ =>
      have hpre := prefixToReplace_begins hrt
      have hso : ¬dotSo <:+ rt.arg := by
        rw [Runtime.dotSo_suffix_arg, hkind]
        decide
      rw [getLast?_concat_preRt] at hback
      cases hback
      rw [Bool.not_true, List.singleton_append, eatArgs_kept replaceSanitizerRt_postRt] at hrun
      refine ⟨_, hrun, ?_⟩
      simp [insertRt, hso, List.count_append, List.countP_append,
        archiveArg_new (dotA_suffix_of_archive hrt hdotA) hpre hothers, ne_preRt_of_begins hpre,
        hpost]
      omega
  | dropped _ hback _ hne =>
      rw [getLast?_concat_preRt] at hback
      cases hback
      exact absurd rfl hne
  | popped _ hfront _ =>
      have hsame := (List.append_cancel_right hfront).symm
      refine ⟨_, hrun, ?_⟩
      simp [hsame]

/-! ## The whole line -/

theorem eatArgs_skip_archive (hkind : rt.kind = .archive) :
    r.eatArgs (rt.args ++ rest) true st = r.eatArgs rest false st := by
  have harg := ne_of_isRuntime (isRuntime_arg rt) isRuntime_postRt
  have hpre : preRt ≠ postRt := by decide
  simp [args_of_archive hkind, eatArgs, harg, hpre]

theorem count_of_eatArgs (hplain : ∀ x ∈ others, isRuntime x = false)
    (hothers : ∀ x ∈ others, ¬r.prefixToReplace <+: x)
    (hrun : r.eatArgs (linkLine items) skip st = .ok st') :
    st'.newCmdArgs.count preRt + st.newCmdArgs.countP (r.archiveArg others) ≤
      st.newCmdArgs.count preRt + (otherArgs items).count preRt +
        st'.newCmdArgs.countP (r.archiveArg others) := by
  induction items generalizing skip st with
  | nil =>
      cases hrun
      omega
  | cons item items ih =>
      rw [linkLine, List.flatMap_cons] at hrun
      cases item with
      | other arg plain =>
          have hcount : (otherArgs (.other arg plain :: items)).count preRt =
              [arg].count preRt + (otherArgs items).count preRt := by
            rw [← List.count_append]
            rfl
          cases skip with
          | true =>
              have hrest := ih hrun
              omega
          | false =>
              obtain ⟨st₁, goOn, heaten, hrun⟩ := exists_eaten hrun
              have hone := count_of_eaten others heaten
              have hrest := ih hrun
              omega
      | runtime rt =>
          have hsame : otherArgs (.runtime rt :: items) = otherArgs items := rfl
          rw [hsame]
          by_cases hkind : rt.kind = .archive
          · cases skip with
            | true =>
                rw [LinkArg.args, eatArgs_skip_archive hkind] at hrun
                exact ih hrun
            | false =>
                obtain ⟨st₁, hrun, hone⟩ := count_of_archive hkind hplain hothers hrun
                have hrest := ih hrun
                omega
          · rw [LinkArg.args, args_of_ne_archive hkind] at hrun
            cases skip with
            | true => exact ih hrun
            | false =>
                obtain ⟨st₁, goOn, heaten, hrun⟩ := exists_eaten hrun
                have hne := ne_of_isRuntime (isRuntime_arg rt) isRuntime_preRt
                have hone := count_of_eaten others heaten
                have hrest := ih hrun
                rw [List.count_singleton, if_neg (by simpa using hne)] at hone
                omega

theorem countP_newArgs (hothers : ∀ x ∈ others, ¬r.prefixToReplace <+: x) :
    (r.newArgs rt).countP (r.archiveArg others) = if rt.kind = .archive then 1 else 0 := by
  have hopt : r.archiveArg others r.rPathOpt = false := decide_eq_false fun h => h.2.1 rfl
  obtain ⟨front, hfront⟩ := newArg_eq_extension r rt
  have hsuf : dotA <:+ r.newArg rt ↔ rt.kind = .archive := by
    rw [hfront]
    exact extension_suffix_iff _ _ .archive
  rw [newArgs]
  cases hkind : rt.kind with
  | archive =>
      have hpre : r.prefixToReplace <+: r.newArg rt := by
        rw [newArg, hkind]
        exact List.prefix_append _ _
      simp [archiveArg_new (hsuf.mpr hkind) hpre hothers]
  | symbols =>
      have hnot : r.archiveArg others (r.newArg rt) = false := archiveArg_eq_false fun h =>
        absurd (hkind ▸ hsuf.mp h) (by decide)
      simp [hnot]
  | shared =>
      have hnot : r.archiveArg others (r.newArg rt) = false := archiveArg_eq_false fun h =>
        absurd (hkind ▸ hsuf.mp h) (by decide)
      simp [hnot, hopt]

/-- In the line that is wanted each archive has its own `--whole-archive`. -/
theorem count_wanted (hsan : r.sanType ≠ .sanNone)
    (hothers : ∀ x ∈ others, ¬r.prefixToReplace <+: x)
    (hsub : ∀ x ∈ otherArgs items, x ∈ others) (seen : List CString) :
    (r.wanted seen items).count preRt =
      (otherArgs items).count preRt + (r.wanted seen items).countP (r.archiveArg others) := by
  induction items generalizing seen with
  | nil => rfl
  | cons item items ih =>
      cases item with
      | other arg plain =>
          have harg : r.archiveArg others arg = false :=
            decide_eq_false fun h => h.2.2 (hsub arg List.mem_cons_self)
          have hrest := ih (fun x hx => hsub x (List.mem_cons_of_mem arg hx)) seen
          simp only [wanted_other, otherArgs, List.count_cons, List.countP_cons, harg]
          simp only [Bool.false_eq_true, if_false]
          omega
      | runtime rt =>
          by_cases hseen : r.target rt ∈ seen
          · rw [wanted_repeat hseen]
            exact ih hsub seen
          · have hrest := ih hsub (r.target rt :: seen)
            simp only [wanted_first hseen, otherArgs, List.count_append, List.countP_append,
              count_newArgs_preRt hsan, countP_newArgs hothers]
            omega

end Mair.Compiler.RtRewriter
