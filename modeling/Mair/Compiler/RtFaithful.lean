import Mair.Compiler.RtCounts

/-! # When the rewritten line is faithful -/

namespace Mair.Compiler.RtRewriter

open Search

variable {r : RtRewriter} {others rest front : List CString} {st st' : State} {rt : Runtime}
  {items : List LinkArg} {seen : List CString} {arg newRt x : CString} {last : Option CString}
  {plain : isRuntime arg = false}

/-! ## The last argument -/

/-- The rewriter reads of its last argument only whether it is `--whole-archive`. -/
structure Behind (st : State) (last : Option CString) : Prop where
  none : st.newCmdArgs = [] ↔ last = none
  preRt : st.newCmdArgs.getLast? = some preRt ↔ last = some preRt
  begun : st.newCmdArgs = [] → st.seenRts = []

theorem behind_concat (st : State) (arg : CString) :
    Behind { st with newCmdArgs := st.newCmdArgs ++ [arg] } (some arg) where
  none := by simp
  preRt := by rw [List.getLast?_concat]
  begun h := by simp at h

theorem newArgs_ne_nil (r : RtRewriter) (rt : Runtime) : r.newArgs rt ≠ [] := by
  rw [newArgs]
  split <;> exact List.cons_ne_nil _ _

theorem getLast?_newArgs (hsan : r.sanType ≠ .sanNone) (rt : Runtime) :
    (r.newArgs rt).getLast? ≠ some preRt := by
  have hnew := ne_of_isRuntime (isRuntime_newArg hsan rt) isRuntime_preRt
  have hpost : postRt ≠ preRt := by decide
  rw [newArgs]
  cases rt.kind <;> simp [hnew, hpost]

theorem behind_place (hsan : r.sanType ≠ .sanNone) (st : State) (rt : Runtime) :
    Behind (r.place st rt) (some rt.arg) where
  none := by simp [place, newArgs_ne_nil]
  preRt := by
    have harg := ne_of_isRuntime (isRuntime_arg rt) isRuntime_preRt
    rw [place, List.getLast?_append_of_ne_nil _ (newArgs_ne_nil r rt)]
    exact iff_of_false (getLast?_newArgs hsan rt) fun h => harg (Option.some.inj h)
  begun h := absurd (List.append_eq_nil_iff.mp h).2 (newArgs_ne_nil r rt)

theorem Behind.ne_nil (h : Behind st last) {newRt : CString} (hseen : newRt ∈ st.seenRts) :
    st.newCmdArgs ≠ [] := by
  intro hnil
  rw [h.begun hnil] at hseen
  cases hseen

/-! ## A line in order is rewritten as wanted -/

/-- The state behind a line whose arguments are all at their places. -/
def Reached (r : RtRewriter) (st : State) (items : List LinkArg) (st' : State) : Prop :=
  st'.newCmdArgs = st.newCmdArgs ++ r.wanted st.seenRts items ∧
    st'.shouldHasStaticRt = (st.shouldHasStaticRt &&
      (runtimes (r.keepFirsts st.seenRts items)).all fun rt => (find staticSuffix rt.arg).isNone)

theorem eatArgs_linkLine (hsan : r.sanType ≠ .sanNone) (st : State)
    (hothers : ∀ arg ∈ otherArgs items, r.replaceSanitizerRt arg = .ok none)
    (hdirs : ∀ rt ∈ runtimes items, find compilerRt rt.dir = none)
    (horder : r.InOrder st.seenRts last items) (hlast : Behind st last)
    (hfatal : NoFatal (r.eatArgs (linkLine items) false st)) :
    ∃ st', r.eatArgs (linkLine items) false st = .ok st' ∧ r.Reached st items st' := by
  induction items generalizing st last with
  | nil => exact ⟨st, rfl, (List.append_nil _).symm, (Bool.and_true _).symm⟩
  | cons item items ih =>
      rw [linkLine, List.flatMap_cons] at hfatal ⊢
      cases item with
      | other arg plain =>
          rw [LinkArg.args, List.singleton_append,
            eatArgs_kept (hothers arg List.mem_cons_self)] at hfatal ⊢
          obtain ⟨st', hrun, hargs, hflag⟩ :=
            ih { st with newCmdArgs := st.newCmdArgs ++ [arg] }
              (fun arg' h => hothers arg' (List.mem_cons_of_mem arg h)) hdirs horder
              (behind_concat st arg) hfatal
          refine ⟨st', hrun, ?_, hflag⟩
          rw [hargs, wanted_other, List.append_assoc, List.singleton_append]
      | runtime rt =>
          have hdir := hdirs rt List.mem_cons_self
          have hrest : ∀ rt' ∈ runtimes items, find compilerRt rt'.dir = none :=
            fun rt' h => hdirs rt' (List.mem_cons_of_mem rt h)
          have hrt := replaceSanitizerRt_arg (r := r) hdir (noShared_of_noFatal hdir hfatal)
          rw [InOrder] at horder
          by_cases hseen : r.target rt ∈ st.seenRts
          · rw [if_pos hseen] at horder
            rw [LinkArg.args, eatArgs_repeat hrt hseen (fun _ => hlast.ne_nil hseen)
              fun hkind h => horder.1 hkind (hlast.preRt.mp h)] at hfatal ⊢
            obtain ⟨st', hrun, hargs, hflag⟩ := ih st hothers hrest horder.2 hlast hfatal
            refine ⟨st', hrun, ?_, ?_⟩
            · rw [hargs, wanted_repeat hseen]
            · rw [hflag, keepFirsts, if_pos hseen]
          · rw [if_neg hseen] at horder
            rw [LinkArg.args, eatArgs_place hrt hseen
              (fun hkind h => horder.1 hkind (hlast.none.mp h))
              fun hkind h => horder.2.1 hkind (hlast.preRt.mp h)] at hfatal ⊢
            obtain ⟨st', hrun, hargs, hflag⟩ :=
              ih (r.place st rt) hothers hrest horder.2.2 (behind_place hsan st rt) hfatal
            refine ⟨st', hrun, ?_, ?_⟩
            · rw [hargs, place, wanted_first hseen, List.append_assoc]
            · rw [hflag, keepFirsts, if_neg hseen, place, Bool.and_assoc]
              rfl

/-! ## Runtimes that are put in the wrong place -/

/-- The name of the runtime comes first in a directory. -/
def Misplaced (arg : CString) : Prop := ∃ p, find compilerRt arg = some p ∧ '/' ∈ arg.drop p

theorem misplaced_arg (h : find compilerRt rt.dir ≠ none) : Misplaced rt.arg := by
  obtain ⟨p, hp, hle⟩ := find_arg_of_dir h
  exact ⟨p, hp, slash_mem_drop (by omega)⟩

theorem not_misplaced_of_find (h : find compilerRt arg = none) : ¬Misplaced arg := by
  intro hmis
  obtain ⟨p, hp, -⟩ := hmis
  rw [h] at hp
  cases hp

theorem misplaced_iff {tail : CString} (h : find compilerRt arg = none) :
    Misplaced (arg ++ (compilerRt ++ tail)) ↔ '/' ∈ tail := by
  have hfind := find_compilerRt h tail
  constructor
  · intro hmis
    obtain ⟨p, hp, hmem⟩ := hmis
    rw [hfind] at hp
    cases hp
    rw [List.drop_left, List.mem_append] at hmem
    exact hmem.resolve_left (by decide)
  · intro hmem
    refine ⟨arg.length, hfind, ?_⟩
    rw [List.drop_left]
    exact List.mem_append_right _ hmem

theorem exists_prefix_eq (h : find compilerRt r.xsanRtDir = none) : ∃ base,
    find compilerRt base = none ∧
      r.prefixToReplace = base ++ (compilerRt ++ hackedSanName r.sanType) := by
  obtain ⟨base, hbase, -, hdir⟩ := exists_joinPath r.xsanRtDir
  refine ⟨base, ?_, ?_⟩
  · rcases hdir with hdir | hdir
    · rw [← hdir]
      exact h
    · rw [hdir]
      exact find_append_cons (by decide) h rfl
  · rw [prefixToReplace, hbase, List.append_assoc]

theorem misplaced_new_iff (h : find compilerRt r.xsanRtDir = none) (tail : CString) :
    Misplaced (r.prefixToReplace ++ tail) ↔ '/' ∈ tail := by
  obtain ⟨base, hbase, hpre⟩ := exists_prefix_eq h
  rw [hpre, List.append_assoc, List.append_assoc, misplaced_iff hbase, List.mem_append]
  exact or_iff_right slash_notMem_hackedSanName

theorem misplaced_dynList_iff (h : find compilerRt r.xsanRtDir = none) (tail : CString) :
    Misplaced (dynList ++ (r.prefixToReplace ++ tail)) ↔ '/' ∈ tail := by
  obtain ⟨base, hbase, hpre⟩ := exists_prefix_eq h
  rw [hpre, List.append_assoc, List.append_assoc, ← List.append_assoc dynList,
    misplaced_iff (find_dynList hbase), List.mem_append]
  exact or_iff_right slash_notMem_hackedSanName

theorem not_misplaced_newArg (h : find compilerRt r.xsanRtDir = none) (rt : Runtime) :
    ¬Misplaced (r.newArg rt) := by
  have hslash := r.slash_notMem_target_tail rt
  rw [newArg]
  split
  · exact fun hmis => hslash ((misplaced_dynList_iff h _).mp hmis)
  · exact fun hmis => hslash ((misplaced_new_iff h _).mp hmis)

theorem exists_misplaced_arg (st : State) (happart : r.Apart items)
    (hdir : find compilerRt rt.dir ≠ none)
    (hseen : ∀ newRt ∈ st.seenRts, ∃ rt', newRt = r.target rt')
    (hrun : r.eatArgs (rt.arg :: rest) false st = .ok st') :
    ∃ x ∈ st'.newCmdArgs, Misplaced x ∧ x ∉ otherArgs items := by
  obtain ⟨st₁, goOn, heaten, hrun⟩ := exists_eaten hrun
  have hunseen : ∀ newRt, r.replaceSanitizerRt rt.arg = .ok (some newRt) → newRt ∉ st.seenRts := by
    intro newRt hrt hmem
    obtain ⟨tail, hnew, hslash⟩ := slash_mem_of_find hdir happart.arch hrt
    obtain ⟨rt', hrt'⟩ := hseen newRt hmem
    rw [hnew, target] at hrt'
    rw [List.append_cancel_left hrt'] at hslash
    exact r.slash_notMem_target_tail rt' hslash
  cases heaten with
  | kept _ =>
      have hne := ne_of_isRuntime (isRuntime_arg rt) isRuntime_preRt
      have hstays := prefix_of_eatArgs hrun (List.prefix_refl _) hne
      refine ⟨rt.arg, hstays.subset (by simp), misplaced_arg hdir, ?_⟩
      intro hmem
      exact ne_of_isRuntime (isRuntime_arg rt) (plain_of_mem_otherArgs hmem) rfl
  | @inserted newRt back hrt hback _ =>
      obtain ⟨tail, hnew, hslash⟩ := slash_mem_of_find hdir happart.arch hrt
      have hpre := prefixToReplace_begins hrt
      by_cases hdyn : back ≠ preRt ∧ dynList <+: rt.arg
      · have hstays := prefix_of_eatArgs (x := dynList ++ newRt) hrun
          (by rw [insertRt, if_pos hdyn]) (ne_preRt_of_dynList hpre)
        refine ⟨dynList ++ newRt, hstays.subset (by simp), ?_, ?_⟩
        · rw [hnew]
          exact (misplaced_dynList_iff happart.dir tail).mpr hslash
        · intro hmem
          exact (happart.others _ hmem).2 ((List.prefix_append_right_inj dynList).mpr hpre)
      · have hstays := prefix_of_eatArgs (x := newRt) hrun
          (by rw [insertRt, if_neg hdyn]) (ne_preRt_of_begins hpre)
        refine ⟨newRt, hstays.subset (by simp), ?_, ?_⟩
        · rw [hnew]
          exact (misplaced_new_iff happart.dir tail).mpr hslash
        · intro hmem
          exact (happart.others _ hmem).1 hpre
  | dropped hrt _ hin _ => exact absurd hin (hunseen _ hrt)
  | popped hrt _ hin => exact absurd hin (hunseen _ hrt)

/-- A runtime in a directory with the name leaves such an argument. -/
theorem exists_misplaced (happart : r.Apart items) (hdir : find compilerRt rt.dir ≠ none)
    (hseen : ∀ newRt ∈ st.seenRts, ∃ rt', newRt = r.target rt')
    (hrun : r.eatArgs (rt.args ++ rest) false st = .ok st') :
    ∃ x ∈ st'.newCmdArgs, Misplaced x ∧ x ∉ otherArgs items := by
  by_cases hkind : rt.kind = .archive
  · rw [args_of_archive hkind, List.cons_append, eatArgs_kept replaceSanitizerRt_preRt] at hrun
    exact exists_misplaced_arg { st with newCmdArgs := st.newCmdArgs ++ [preRt] } happart hdir
      hseen hrun
  · rw [args_of_ne_archive hkind] at hrun
    exact exists_misplaced_arg st happart hdir hseen hrun

theorem not_misplaced_of_mem (h : find compilerRt r.xsanRtDir = none)
    (hmem : x ∈ r.wanted [] items ++ r.added items) : x ∈ otherArgs items ∨ ¬Misplaced x := by
  have hpre : ¬Misplaced preRt := not_misplaced_of_find (by decide)
  have hpost : ¬Misplaced postRt := not_misplaced_of_find (by decide)
  rcases List.mem_append.mp hmem with hmem | hmem
  · rcases mem_wanted hmem with hx | rfl | rfl | rfl | ⟨rt, -, rfl⟩
    · exact .inl hx
    · exact .inr hpre
    · exact .inr hpost
    · exact .inr (not_misplaced_of_find (find_rPathOpt h))
    · exact .inr (not_misplaced_newArg h rt)
  · rw [added] at hmem
    split at hmem
    · simp only [staticArgs, List.mem_cons, List.not_mem_nil, or_false] at hmem
      rcases hmem with rfl | rfl | rfl
      · exact .inr hpre
      · rw [← newArg_staticRuntime]
        exact .inr (not_misplaced_newArg h staticRuntime)
      · exact .inr hpost
    · cases hmem

/-! ## A line that is rewritten as wanted is in order -/

section Necessity

variable {line : List LinkArg} {added' wantedTail : List CString}

theorem count_staticArgs (hsan : r.sanType ≠ .sanNone)
    (hothers : ∀ x ∈ others, ¬r.prefixToReplace <+: x)
    (h : added' = [] ∨ added' = r.staticArgs) :
    added'.count preRt = added'.countP (r.archiveArg others) := by
  rcases h with rfl | rfl
  · rfl
  · have hnew : r.staticArgs = r.newArgs staticRuntime := by
      rw [staticArgs, ← newArg_staticRuntime]
      rfl
    rw [hnew, count_newArgs_preRt hsan, countP_newArgs hothers]

/-- An argument that is taken for the one behind `--whole-archive` costs this option. -/
theorem not_popped (hsan : r.sanType ≠ .sanNone) (happart : r.Apart line)
    (hsub : ∀ x ∈ otherArgs items, x ∈ otherArgs line)
    (hadded : added' = [] ∨ added' = r.staticArgs)
    (hwanted : wantedTail = [] ∨ wantedTail = r.staticArgs)
    (hfront : st.newCmdArgs = front ++ [preRt])
    (hrun : r.eatArgs (linkLine items) true { st with newCmdArgs := front } = .ok st') :
    st'.newCmdArgs ++ added' ≠ st.newCmdArgs ++ r.wanted seen items ++ wantedTail := by
  intro heq
  have hothers : ∀ x ∈ otherArgs line, ¬r.prefixToReplace <+: x := fun x h => (happart.others x h).1
  have hrest := count_of_eatArgs (fun _ h => plain_of_mem_otherArgs h) hothers hrun
  have hpop := count_of_popped r (otherArgs line) hfront
  have hline := count_wanted hsan hothers hsub seen
  have htail := count_staticArgs hsan hothers hadded
  have htail' := count_staticArgs hsan hothers hwanted
  have hcount := congrArg (List.count preRt) heq
  have hcountP := congrArg (List.countP (r.archiveArg (otherArgs line))) heq
  simp only [List.count_append, List.countP_append] at hcount hcountP
  simp only at hrest
  omega

theorem eaten_of_target (hkind : rt.kind ≠ .archive)
    (hrt : r.replaceSanitizerRt rt.arg = .ok (some (r.target rt)))
    (hrun : r.eatArgs (rt.args ++ rest) false st = .ok st') :
    (r.target rt ∉ st.seenRts ∧ ∃ back, st.newCmdArgs.getLast? = some back ∧
      r.eatArgs rest false (r.insertRt st back rt.arg (r.target rt)) = .ok st') ∨
    (r.target rt ∈ st.seenRts ∧ ∀ front, st.newCmdArgs = front ++ [preRt] →
      r.eatArgs rest true { st with newCmdArgs := front } = .ok st') := by
  rw [args_of_ne_archive hkind] at hrun
  obtain ⟨st₁, goOn, heaten, hrun⟩ := exists_eaten hrun
  cases heaten with
  | kept hnone =>
      rw [hrt] at hnone
      cases hnone
  | inserted hsome hback hseen =>
      rw [hrt] at hsome
      cases hsome
      exact .inl ⟨hseen, _, hback, hrun⟩
  | dropped hsome hback hseen hne =>
      rw [hrt] at hsome
      cases hsome
      refine .inr ⟨hseen, ?_⟩
      intro front hfront
      rw [hfront, List.getLast?_concat] at hback
      exact absurd (Option.some.inj hback).symm hne
  | popped hsome hfront hseen =>
      rw [hrt] at hsome
      cases hsome
      refine .inr ⟨hseen, ?_⟩
      intro front hfront'
      rw [hfront] at hfront'
      rw [← List.append_cancel_right hfront']
      exact hrun

/-- A symbol list behind `--whole-archive` loses its option. -/
theorem symbols_not_behind (hkind : rt.kind = .symbols)
    (hrt : r.replaceSanitizerRt rt.arg = .ok (some (r.target rt)))
    (hseen : r.target rt ∉ st.seenRts) (hback : st.newCmdArgs.getLast? = some preRt)
    (hrun : r.eatArgs (rt.args ++ rest) false st = .ok st') :
    st'.newCmdArgs ++ added' ≠ st.newCmdArgs ++ (r.newArgs rt ++ wantedTail) := by
  intro heq
  have hso : ¬dotSo <:+ rt.arg := by
    rw [Runtime.dotSo_suffix_arg, hkind]
    decide
  rcases eaten_of_target (by rw [hkind]; decide) hrt hrun with hfirst | hrepeat
  · obtain ⟨-, back, hback', hrun⟩ := hfirst
    rw [hback] at hback'
    cases hback'
    have htarget : r.prefixToReplace <+: r.target rt := List.prefix_append _ _
    have hstays : st.newCmdArgs ++ [r.target rt] <+: st'.newCmdArgs := by
      apply prefix_of_eatArgs hrun _ (ne_preRt_of_begins htarget)
      rw [insertRt, if_neg hso, if_neg fun h => h.1 rfl, List.append_nil]
    have hpre := hstays.trans (List.prefix_append _ added')
    have hnew : r.newArgs rt = [dynList ++ r.target rt] := by
      rw [newArgs, newArg, hkind]
    rw [heq, List.prefix_append_right_inj, hnew] at hpre
    have hlen := congrArg List.length (List.cons_prefix_cons.mp hpre).1
    rw [List.length_append] at hlen
    have hdyn : 0 < dynList.length := by decide
    omega
  · exact hseen hrepeat.1

theorem linkLine_other : linkLine (.other arg plain :: items) = arg :: linkLine items := rfl

theorem linkLine_runtime : linkLine (.runtime rt :: items) = rt.args ++ linkLine items := rfl

theorem inOrder_of_placed (hsan : r.sanType ≠ .sanNone) (happart : r.Apart line)
    (hunmatched : ∀ arg ∈ otherArgs line, r.replaceSanitizerRt arg = .ok none)
    (hadded : added' = [] ∨ added' = r.staticArgs)
    (hwanted : wantedTail = [] ∨ wantedTail = r.staticArgs)
    (hplaced : ∀ x ∈ st'.newCmdArgs, x ∈ otherArgs line ∨ ¬Misplaced x) (st : State)
    (hsub : ∀ x ∈ otherArgs items, x ∈ otherArgs line)
    (hseen : ∀ newRt ∈ st.seenRts, ∃ rt, newRt = r.target rt) (hlast : Behind st last)
    (hrun : r.eatArgs (linkLine items) false st = .ok st')
    (heq : st'.newCmdArgs ++ added' =
      st.newCmdArgs ++ r.wanted st.seenRts items ++ wantedTail) :
    (∀ rt ∈ runtimes items, find compilerRt rt.dir = none) ∧ r.InOrder st.seenRts last items := by
  induction items generalizing st last with
  | nil => exact ⟨fun rt h => absurd h List.not_mem_nil, trivial⟩
  | cons item items ih =>
      cases item with
      | other arg plain =>
          rw [linkLine_other, eatArgs_kept (hunmatched arg (hsub arg List.mem_cons_self))] at hrun
          apply ih { st with newCmdArgs := st.newCmdArgs ++ [arg] }
            (fun x h => hsub x (List.mem_cons_of_mem arg h)) hseen (behind_concat st arg) hrun
          rw [heq, wanted_other]
          simp
      | runtime rt =>
          rw [linkLine_runtime] at hrun
          replace hsub : ∀ x ∈ otherArgs items, x ∈ otherArgs line := hsub
          have hnofatal : NoFatal (r.eatArgs (rt.args ++ linkLine items) false st) := by
            intro message h
            rw [h] at hrun
            cases hrun
          have hdir : find compilerRt rt.dir = none := by
            by_contra hdir
            obtain ⟨x, hx, hmis, hother⟩ := exists_misplaced happart hdir hseen hrun
            rcases hplaced x hx with h | h
            · exact hother h
            · exact h hmis
          have hrt := replaceSanitizerRt_arg (r := r) hdir (noShared_of_noFatal hdir hnofatal)
          have hdirs' : (∀ rt' ∈ runtimes items, find compilerRt rt'.dir = none) →
              ∀ rt' ∈ rt :: runtimes items, find compilerRt rt'.dir = none := by
            intro hdirs rt' h
            rcases List.mem_cons.mp h with rfl | h
            · exact hdir
            · exact hdirs rt' h
          rw [InOrder]
          by_cases hin : r.target rt ∈ st.seenRts
          · rw [wanted_repeat hin] at heq
            have horder : rt.kind ≠ .archive → last ≠ some preRt := by
              intro hkind hpre
              obtain ⟨front, hfront⟩ := List.getLast?_eq_some_iff.mp (hlast.preRt.mpr hpre)
              rcases eaten_of_target hkind hrt hrun with hfirst | hrepeat
              · exact hfirst.1 hin
              · exact not_popped hsan happart hsub hadded hwanted hfront (hrepeat.2 front hfront)
                  heq
            rw [eatArgs_repeat hrt hin (fun _ => hlast.ne_nil hin)
              fun hkind h => horder hkind (hlast.preRt.mp h)] at hrun
            obtain ⟨hdirs, hrest⟩ := ih st hsub hseen hlast hrun heq
            rw [if_pos hin]
            exact ⟨hdirs' hdirs, horder, hrest⟩
          · rw [wanted_first hin, List.append_assoc, List.append_assoc] at heq
            have hne : rt.kind ≠ .archive → last ≠ none := by
              intro hkind hnone
              rcases eaten_of_target hkind hrt hrun with hfirst | hrepeat
              · obtain ⟨-, back, hback, -⟩ := hfirst
                rw [hlast.none.mpr hnone] at hback
                cases hback
              · exact hin hrepeat.1
            have hpre : rt.kind = .symbols → last ≠ some preRt := fun hkind hpre =>
              symbols_not_behind hkind hrt hin (hlast.preRt.mpr hpre) hrun heq
            rw [eatArgs_place hrt hin (fun hkind h => hne hkind (hlast.none.mp h))
              fun hkind h => hpre hkind (hlast.preRt.mp h)] at hrun
            have hseen' : ∀ newRt ∈ (r.place st rt).seenRts, ∃ rt', newRt = r.target rt' := by
              intro newRt h
              rcases List.mem_cons.mp h with rfl | h
              · exact ⟨rt, rfl⟩
              · exact hseen newRt h
            have heq' : st'.newCmdArgs ++ added' = (r.place st rt).newCmdArgs ++
                r.wanted (r.place st rt).seenRts items ++ wantedTail := by
              rw [heq]
              simp [place]
            obtain ⟨hdirs, hrest⟩ :=
              ih (r.place st rt) hsub hseen' (behind_place hsan st rt) hrun heq'
            rw [if_neg hin]
            exact ⟨hdirs' hdirs, hne, hpre, hrest⟩

end Necessity

/-! ## The static runtime -/

theorem exists_first (h : rt ∈ runtimes items) (hseen : r.target rt ∉ seen) :
    ∃ rt' ∈ runtimes (r.keepFirsts seen items), r.target rt' = r.target rt := by
  induction items generalizing seen with
  | nil => cases h
  | cons item items ih =>
      cases item with
      | other arg plain => exact ih h hseen
      | runtime rt₁ =>
          rw [keepFirsts]
          by_cases hin : r.target rt₁ ∈ seen
          · rw [if_pos hin]
            rcases List.mem_cons.mp h with rfl | h
            · exact absurd hin hseen
            · exact ih h hseen
          · rw [if_neg hin]
            by_cases heq : r.target rt₁ = r.target rt
            · exact ⟨rt₁, List.mem_cons_self, heq⟩
            · have hmem : rt ∈ runtimes items := by
                rcases List.mem_cons.mp h with rfl | h
                · exact absurd rfl heq
                · exact h
              have hnot : r.target rt ∉ r.target rt₁ :: seen := by
                intro hin'
                rcases List.mem_cons.mp hin' with h' | h'
                · exact heq h'.symm
                · exact hseen h'
              obtain ⟨rt', hrt', htarget⟩ := ih hmem hnot
              exact ⟨rt', List.mem_cons_of_mem rt₁ hrt', htarget⟩

theorem find_static_of_target (h : r.target rt = r.staticRt) :
    find staticSuffix rt.arg ≠ none := by
  have hkind : rt.kind = .archive := by
    rw [← target_staticRuntime] at h
    exact kind_of_target h
  have hvariant : r.withoutArch rt.variant = staticSuffix := by
    rw [target, staticRt, hkind, List.append_assoc] at h
    exact List.append_cancel_right (List.append_cancel_left h)
  have hpre : staticSuffix <+: rt.variant := hvariant ▸ r.withoutArch_begins rt.variant
  have hin : rt.variant <:+: rt.arg := by
    rw [Runtime.arg_eq_name, Runtime.tail, ← List.append_assoc compilerRt,
      ← List.append_assoc (rt.front ++ _), ← List.append_assoc]
    exact ⟨_, _, rfl⟩
  intro hnone
  exact find_eq_none_iff.mp hnone (hpre.isInfix.trans hin)

theorem added_eq_iff (items : List LinkArg) :
    (if (r.needsStaticRt && (runtimes (r.keepFirsts [] items)).all fun rt =>
        (find staticSuffix rt.arg).isNone) = true then r.staticArgs else []) = r.added items ↔
      (r.needsStaticRt = true → r.HasStatic items ∨
        ∀ rt ∈ runtimes (r.keepFirsts [] items), find staticSuffix rt.arg = none) := by
  have hall : (runtimes (r.keepFirsts [] items)).all
      (fun rt => (find staticSuffix rt.arg).isNone) = true ↔
        ∀ rt ∈ runtimes (r.keepFirsts [] items), find staticSuffix rt.arg = none := by
    simp
  have hstatic : r.HasStatic items →
      ¬∀ rt ∈ runtimes (r.keepFirsts [] items), find staticSuffix rt.arg = none := by
    intro hhas hnone
    obtain ⟨rt, hmem, htarget⟩ := hhas
    obtain ⟨rt', hmem', htarget'⟩ := exists_first hmem (r := r) List.not_mem_nil
    exact find_static_of_target (htarget'.trans htarget) (hnone rt' hmem')
  have hne : r.staticArgs ≠ [] := List.cons_ne_nil _ _
  rw [added]
  cases hneeds : r.needsStaticRt with
  | false => simp
  | true =>
      cases hflag : (runtimes (r.keepFirsts [] items)).all
          fun rt => (find staticSuffix rt.arg).isNone with
      | true =>
          have hnone := hall.mp hflag
          have hhas : ¬r.HasStatic items := fun hhas => hstatic hhas hnone
          exact iff_of_true (by simp [hhas]) fun _ => .inr hnone
      | false =>
          have hnone :
              ¬∀ rt ∈ runtimes (r.keepFirsts [] items), find staticSuffix rt.arg = none := by
            rw [← hall, hflag]
            decide
          by_cases hhas : r.HasStatic items
          · exact iff_of_true (by simp [hhas]) fun _ => .inl hhas
          · refine iff_of_false (by simp [hhas, hne.symm]) fun h => ?_
            rcases h rfl with h | h
            · exact hhas h
            · exact hnone h

/-! ## The rewriter -/

/-- The line is rewritten as it should be. -/
def Rewrites (r : RtRewriter) (items : List LinkArg) : Prop :=
  ∃ out, r.rewriteArgs (linkLine items) = .ok out ∧ r.Faithful items out

theorem rewriteArgs_ok (hsan : r.sanType ≠ .sanNone) {args : List CString}
    (h : r.eatArgs args false ⟨[], [], r.needsStaticRt⟩ = .ok st') :
    r.rewriteArgs args =
      .ok (st'.newCmdArgs ++ if st'.shouldHasStaticRt = true then r.staticArgs else []) := by
  rw [rewriteArgs, if_neg hsan, generateNewArgs, h]

theorem exists_eatArgs (hsan : r.sanType ≠ .sanNone) {args out : List CString}
    (h : r.rewriteArgs args = .ok out) :
    ∃ st', r.eatArgs args false ⟨[], [], r.needsStaticRt⟩ = .ok st' ∧
      out = st'.newCmdArgs ++ if st'.shouldHasStaticRt = true then r.staticArgs else [] := by
  rw [rewriteArgs, if_neg hsan, generateNewArgs] at h
  cases hrun : r.eatArgs args false ⟨[], [], r.needsStaticRt⟩ with
  | error stop =>
      rw [hrun] at h
      cases h
  | ok st' =>
      rw [hrun] at h
      cases h
      exact ⟨st', rfl, rfl⟩

theorem behind_start (flag : Bool) : Behind ⟨[], [], flag⟩ none where
  none := by simp
  preRt := by simp
  begun _ := rfl

theorem rewrites_of_undisturbed (hsan : r.sanType ≠ .sanNone)
    (hfatal : NoFatal (r.rewriteArgs (linkLine items))) (h : r.Undisturbed items) :
    r.Rewrites items := by
  have hnofatal : NoFatal (r.eatArgs (linkLine items) false ⟨[], [], r.needsStaticRt⟩) := by
    intro message hrun
    apply hfatal message
    rw [rewriteArgs, if_neg hsan, generateNewArgs, hrun]
  obtain ⟨st', hrun, hargs, hflag⟩ :=
    eatArgs_linkLine hsan _ h.others h.dirs h.inOrder (behind_start _) hnofatal
  refine ⟨_, rewriteArgs_ok hsan hrun, ?_⟩
  rw [hargs, hflag, (added_eq_iff items).mpr h.static]
  exact faithful_of_placed hsan items

theorem others_of_rewrites (hsan : r.sanType ≠ .sanNone) (happart : r.Apart items)
    {out : List CString} (hout : r.rewriteArgs (linkLine items) = .ok out)
    (hfaithful : r.Faithful items out) :
    ∀ arg ∈ otherArgs items, r.replaceSanitizerRt arg = .ok none := by
  obtain ⟨st', hrun, rfl⟩ := exists_eatArgs hsan hout
  intro arg hmem
  have hproduced : r.Produced arg := by
    rcases List.mem_append.mp (hfaithful.order.subset hmem) with h | h
    · exact produced_of_eatArgs hrun (fun x hx => absurd hx List.not_mem_nil) arg h
    · split at h
      · simp only [staticArgs, List.mem_cons, List.not_mem_nil, or_false] at h
        rcases h with rfl | rfl | rfl
        · exact .inl replaceSanitizerRt_preRt
        · rw [staticRt, List.append_assoc]
          exact .inr (.inr (.inl (List.prefix_append _ _)))
        · exact .inl replaceSanitizerRt_postRt
      · cases h
  rcases hproduced with h | rfl | h | h
  · exact h
  · exact replaceSanitizerRt_of_find (find_rPathOpt happart.dir)
  · exact absurd h (happart.others arg hmem).1
  · exact absurd h (happart.others arg hmem).2

theorem undisturbed_of_rewrites (hsan : r.sanType ≠ .sanNone) (happart : r.Apart items)
    (h : r.Rewrites items) : r.Undisturbed items := by
  obtain ⟨out, hout, hfaithful⟩ := h
  have hothers := others_of_rewrites hsan happart hout hfaithful
  obtain ⟨st', hrun, rfl⟩ := exists_eatArgs hsan hout
  have hplaced := hfaithful.placed
  have hadded : ∀ b : Prop, [Decidable b] →
      (if b then r.staticArgs else []) = [] ∨ (if b then r.staticArgs else []) = r.staticArgs := by
    intro b _
    split
    · exact .inr rfl
    · exact .inl rfl
  have hmis : ∀ x ∈ st'.newCmdArgs, x ∈ otherArgs items ∨ ¬Misplaced x := by
    intro x hx
    apply not_misplaced_of_mem happart.dir
    rw [← hplaced]
    exact List.mem_append_left _ hx
  obtain ⟨hdirs, horder⟩ := inOrder_of_placed hsan happart hothers (hadded _) (hadded _) hmis
    ⟨[], [], r.needsStaticRt⟩ (fun _ hx => hx) (fun _ hx => absurd hx List.not_mem_nil)
    (behind_start _) hrun hplaced
  have hnofatal : NoFatal (r.eatArgs (linkLine items) false ⟨[], [], r.needsStaticRt⟩) := by
    intro message hrun'
    rw [hrun'] at hrun
    cases hrun
  obtain ⟨st₁, hrun₁, hargs, hflag⟩ :=
    eatArgs_linkLine hsan _ hothers hdirs horder (behind_start _) hnofatal
  rw [hrun] at hrun₁
  cases hrun₁
  rw [hargs, hflag] at hplaced
  exact ⟨hothers, hdirs, horder, (added_eq_iff items).mp (List.append_cancel_left hplaced)⟩

/-- The rewriter does what it is for on every line in which nothing misleads it, and, unless another
argument looks like one of its runtimes, on no other line. -/
theorem rewrites_undisturbed (r : RtRewriter) (items : List LinkArg) (hsan : r.sanType ≠ .sanNone)
    (hfatal : NoFatal (r.rewriteArgs (linkLine items))) :
    (r.Undisturbed items → r.Rewrites items) ∧
      (r.Apart items → (r.Rewrites items ↔ r.Undisturbed items)) :=
  ⟨rewrites_of_undisturbed hsan hfatal, fun happart =>
    ⟨undisturbed_of_rewrites hsan happart, rewrites_of_undisturbed hsan hfatal⟩⟩

/-- `-xsan` without AddressSanitizer. -/
def withoutAsan : RtRewriter where
  sanType := .xsan
  xsanMask := bit .tsan
  xsanRtDir := "/xsan".toList
  archName := "x86_64".toList

def tsanIn (dir : CString) (h : dir.head? ≠ some '-') : List LinkArg :=
  [.other "ld".toList (by decide), .runtime ⟨.archive, dir, .tsan, "-x86_64".toList, by decide, h,
    by decide⟩]

theorem rewriteArgs_tsanIn_lib :
    withoutAsan.rewriteArgs (linkLine (tsanIn "/lib".toList (by decide))) =
      .ok (["ld", "--whole-archive", "/xsan/libclang_rt.xsan.a", "--no-whole-archive",
        "--whole-archive", "/xsan/libclang_rt.xsan_static.a", "--no-whole-archive"].map
          String.toList) := by
  decide +kernel

theorem undisturbed_tsanIn_lib : withoutAsan.Undisturbed (tsanIn "/lib".toList (by decide)) where
  others := by
    simp only [tsanIn, otherArgs, List.mem_singleton, forall_eq]
    decide +kernel
  dirs := by
    simp only [tsanIn, runtimes, List.mem_singleton, forall_eq]
    decide +kernel
  inOrder := by simp [tsanIn, InOrder]
  static := by decide +kernel

theorem tsanIn_lib_rewrites : withoutAsan.Undisturbed (tsanIn "/lib".toList (by decide)) ∧
    withoutAsan.Rewrites (tsanIn "/lib".toList (by decide)) :=
  ⟨undisturbed_tsanIn_lib, (rewrites_undisturbed withoutAsan _ (by decide)
    (by rw [rewriteArgs_tsanIn_lib]; exact fun _ => nofun)).1 undisturbed_tsanIn_lib⟩

/-- A directory with `_static` in its name takes the place of the static runtime. -/
theorem tsanIn_static_not_rewritten : ¬∀ (r : RtRewriter) (items : List LinkArg),
    r.sanType ≠ .sanNone → NoFatal (r.rewriteArgs (linkLine items)) → r.Rewrites items := by
  intro h
  have hout : withoutAsan.rewriteArgs (linkLine (tsanIn "/llvm_static".toList (by decide))) =
      .ok (["ld", "--whole-archive", "/xsan/libclang_rt.xsan.a", "--no-whole-archive"].map
        String.toList) := by
    decide +kernel
  obtain ⟨out, hrun, hfaithful⟩ := h withoutAsan (tsanIn "/llvm_static".toList (by decide))
    (by decide) (by rw [hout]; exact fun _ => nofun)
  rw [hout] at hrun
  cases hrun
  have hcount := hfaithful.static (by decide)
  revert hcount
  decide +kernel

end Mair.Compiler.RtRewriter
