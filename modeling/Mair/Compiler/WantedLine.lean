import Mair.Compiler.RtRuns

/-! # The line that is wanted is faithful -/

namespace Mair.Compiler.RtRewriter

open Search

variable {r : RtRewriter} {rt rt' : Runtime} {items : List LinkArg} {seen : List CString}
  {arg x : CString} {plain : isRuntime arg = false}

/-! ## Equations -/

@[simp] theorem wanted_nil : r.wanted seen [] = [] := rfl

@[simp] theorem wanted_other :
    r.wanted seen (.other arg plain :: items) = arg :: r.wanted seen items := rfl

theorem wanted_repeat (h : r.target rt ∈ seen) :
    r.wanted seen (.runtime rt :: items) = r.wanted seen items := by
  rw [wanted, keepFirsts, if_pos h, wanted]

theorem wanted_first (h : r.target rt ∉ seen) :
    r.wanted seen (.runtime rt :: items) =
      r.newArgs rt ++ r.wanted (r.target rt :: seen) items := by
  rw [wanted, keepFirsts, if_neg h, List.flatMap_cons, rewritten, wanted]

/-! ## Arguments that differ -/

theorem plain_of_mem_otherArgs (h : arg ∈ otherArgs items) : isRuntime arg = false := by
  induction items with
  | nil => cases h
  | cons item items ih =>
      cases item with
      | other arg' plain =>
          rcases List.mem_cons.mp h with rfl | h
          · exact plain
          · exact ih h
      | runtime rt => exact ih h

theorem ne_of_isRuntime (h : isRuntime x = true) (hplain : isRuntime arg = false) : x ≠ arg := by
  rintro rfl
  rw [h] at hplain
  cases hplain

theorem isRuntime_preRt : isRuntime preRt = false := by
  decide

theorem isRuntime_postRt : isRuntime postRt = false := by
  decide

theorem length_rPathOpt_lt (r : RtRewriter) : r.rPathOpt.length < r.prefixToReplace.length := by
  obtain ⟨base, hbase, -, hdir⟩ := exists_joinPath r.xsanRtDir
  have hlen : r.xsanRtDir.length ≤ base.length := by
    rcases hdir with h | h
    · rw [h]
    · rw [h, List.length_append]
      omega
  have hopt : r.rPathOpt.length = 7 + r.xsanRtDir.length := List.length_append
  have hpre : r.prefixToReplace.length = base.length + 12 + (hackedSanName r.sanType).length := by
    rw [prefixToReplace, hbase, List.length_append, List.length_append]
    rfl
  rw [hopt, hpre]
  omega

theorem length_prefix_le_newArg (r : RtRewriter) (rt : Runtime) :
    r.prefixToReplace.length ≤ (r.newArg rt).length := by
  rw [newArg]
  split <;> simp only [target, List.length_append] <;> omega

theorem newArg_ne_rPathOpt (r : RtRewriter) (rt : Runtime) : r.newArg rt ≠ r.rPathOpt := by
  intro h
  have hlen := length_prefix_le_newArg r rt
  rw [h] at hlen
  exact absurd (length_rPathOpt_lt r) (Nat.not_lt.mpr hlen)

theorem rPathOpt_ne_postRt (r : RtRewriter) : r.rPathOpt ≠ postRt := by
  intro h
  have hsecond := congrArg (fun l : CString => l[1]?) h
  cases hsecond

theorem kind_of_target (h : r.target rt = r.target rt') : rt.kind = rt'.kind := by
  rw [target, target, ← List.append_assoc, ← List.append_assoc] at h
  exact kind_of_extension h

theorem newArg_eq_extension (r : RtRewriter) (rt : Runtime) : ∃ front,
    r.newArg rt = front ++ rt.kind.extension := by
  rw [newArg]
  split
  · exact ⟨dynList ++ (r.prefixToReplace ++ r.withoutArch rt.variant), by simp [target]⟩
  · exact ⟨r.prefixToReplace ++ r.withoutArch rt.variant, by simp [target]⟩

theorem newArg_inj : r.newArg rt = r.newArg rt' ↔ r.target rt = r.target rt' := by
  constructor
  · intro h
    have hkind : rt.kind = rt'.kind := by
      obtain ⟨front, hfront⟩ := newArg_eq_extension r rt
      obtain ⟨front', hfront'⟩ := newArg_eq_extension r rt'
      rw [hfront, hfront'] at h
      exact kind_of_extension h
    rw [newArg, newArg, hkind] at h
    cases hkind' : rt'.kind with
    | symbols =>
        rw [hkind'] at h
        exact List.append_cancel_left h
    | archive =>
        rw [hkind'] at h
        exact h
    | shared =>
        rw [hkind'] at h
        exact h
  · intro h
    rw [newArg, newArg, kind_of_target h, h]

/-! ## What the line contains -/

theorem mem_newArgs (h : x ∈ r.newArgs rt) :
    x = preRt ∨ x = postRt ∨ x = r.rPathOpt ∨ x = r.newArg rt := by
  rw [newArgs] at h
  cases hkind : rt.kind with
  | archive =>
      rw [hkind] at h
      simp only [List.mem_cons, List.not_mem_nil, or_false] at h
      rcases h with h | h | h
      · exact .inl h
      · exact .inr (.inr (.inr h))
      · exact .inr (.inl h)
  | symbols =>
      rw [hkind] at h
      exact .inr (.inr (.inr (List.mem_singleton.mp h)))
  | shared =>
      rw [hkind] at h
      simp only [List.mem_cons, List.not_mem_nil, or_false] at h
      rcases h with h | h
      · exact .inr (.inr (.inl h))
      · exact .inr (.inr (.inr h))

theorem mem_wanted (h : x ∈ r.wanted seen items) :
    x ∈ otherArgs items ∨ x = preRt ∨ x = postRt ∨ x = r.rPathOpt ∨
      ∃ rt ∈ runtimes items, x = r.newArg rt := by
  induction items generalizing seen with
  | nil => cases h
  | cons item items ih =>
      cases item with
      | other arg plain =>
          rcases List.mem_cons.mp h with h | h
          · rw [h]
            exact .inl List.mem_cons_self
          · rcases ih h with h | h
            · exact .inl (List.mem_cons_of_mem arg h)
            · exact .inr h
      | runtime rt =>
          have hrest : ∀ seen', x ∈ r.wanted seen' items → x ∈ otherArgs items ∨ x = preRt ∨
              x = postRt ∨ x = r.rPathOpt ∨ ∃ rt' ∈ rt :: runtimes items, x = r.newArg rt' := by
            intro seen' hx
            rcases ih hx with hx | hx | hx | hx | hx
            · exact .inl hx
            · exact .inr (.inl hx)
            · exact .inr (.inr (.inl hx))
            · exact .inr (.inr (.inr (.inl hx)))
            · obtain ⟨rt', hmem, heq⟩ := hx
              exact .inr (.inr (.inr (.inr ⟨rt', List.mem_cons_of_mem rt hmem, heq⟩)))
          by_cases hseen : r.target rt ∈ seen
          · rw [wanted_repeat hseen] at h
            exact hrest seen h
          · rw [wanted_first hseen] at h
            rcases List.mem_append.mp h with h | h
            · rcases mem_newArgs h with h | h | h | h
              · exact .inr (.inl h)
              · exact .inr (.inr (.inl h))
              · exact .inr (.inr (.inr (.inl h)))
              · exact .inr (.inr (.inr (.inr ⟨rt, List.mem_cons_self, h⟩)))
            · exact hrest _ h

theorem otherArgs_sublist_wanted (r : RtRewriter) (seen : List CString) (items : List LinkArg) :
    (otherArgs items).Sublist (r.wanted seen items) := by
  induction items generalizing seen with
  | nil => exact List.Sublist.slnil
  | cons item items ih =>
      cases item with
      | other arg plain => exact (ih seen).cons_cons arg
      | runtime rt =>
          by_cases hseen : r.target rt ∈ seen
          · rw [wanted_repeat hseen]
            exact ih seen
          · rw [wanted_first hseen]
            exact (ih _).trans (List.sublist_append_right _ _)

/-! ## How often -/

section Counts

theorem count_newArgs_preRt (hsan : r.sanType ≠ .sanNone) (rt : Runtime) :
    (r.newArgs rt).count preRt = if rt.kind = .archive then 1 else 0 := by
  have hnew : r.newArg rt ≠ preRt := ne_of_isRuntime (isRuntime_newArg hsan rt) isRuntime_preRt
  have hpost : postRt ≠ preRt := by decide
  rw [newArgs]
  cases rt.kind <;> simp [hnew, hpost, rPathOpt_ne_preRt r]

theorem count_newArgs_postRt (hsan : r.sanType ≠ .sanNone) (rt : Runtime) :
    (r.newArgs rt).count postRt = if rt.kind = .archive then 1 else 0 := by
  have hnew : r.newArg rt ≠ postRt := ne_of_isRuntime (isRuntime_newArg hsan rt) isRuntime_postRt
  have hpre : preRt ≠ postRt := by decide
  rw [newArgs]
  cases rt.kind <;> simp [hnew, hpre, rPathOpt_ne_postRt r]

theorem count_newArgs_newArg (hsan : r.sanType ≠ .sanNone) (rt rt' : Runtime) :
    (r.newArgs rt').count (r.newArg rt) = if r.target rt' = r.target rt then 1 else 0 := by
  have hrt := isRuntime_newArg hsan rt
  have hpre := (ne_of_isRuntime hrt isRuntime_preRt).symm
  have hpost := (ne_of_isRuntime hrt isRuntime_postRt).symm
  have hopt := (newArg_ne_rPathOpt r rt).symm
  rw [newArgs]
  cases rt'.kind <;> simp [List.count_cons, hpre, hpost, hopt, newArg_inj]

theorem count_newArg_of_seen (hsan : r.sanType ≠ .sanNone) (h : r.target rt ∈ seen) :
    (r.wanted seen items).count (r.newArg rt) = 0 := by
  induction items generalizing seen with
  | nil => rfl
  | cons item items ih =>
      cases item with
      | other arg plain =>
          have hne := (ne_of_isRuntime (isRuntime_newArg hsan rt) plain).symm
          rw [wanted_other, List.count_cons_of_ne hne]
          exact ih h
      | runtime rt' =>
          by_cases hseen : r.target rt' ∈ seen
          · rw [wanted_repeat hseen]
            exact ih h
          · have hne : r.target rt' ≠ r.target rt := fun heq => hseen (heq ▸ h)
            rw [wanted_first hseen, List.count_append, count_newArgs_newArg hsan, if_neg hne,
              ih (List.mem_cons_of_mem _ h)]

/-- Every new runtime stands once in the line. -/
theorem count_newArg (hsan : r.sanType ≠ .sanNone) (h : r.target rt ∉ seen)
    (hmem : ∃ rt' ∈ runtimes items, r.target rt' = r.target rt) :
    (r.wanted seen items).count (r.newArg rt) = 1 := by
  induction items generalizing seen with
  | nil =>
      obtain ⟨rt', hmem, -⟩ := hmem
      cases hmem
  | cons item items ih =>
      cases item with
      | other arg plain =>
          have hne := (ne_of_isRuntime (isRuntime_newArg hsan rt) plain).symm
          rw [wanted_other, List.count_cons_of_ne hne]
          exact ih h hmem
      | runtime rt' =>
          have hrest : r.target rt' ≠ r.target rt →
              ∃ rt' ∈ runtimes items, r.target rt' = r.target rt := by
            intro hne
            obtain ⟨rt₁, hmem, heq⟩ := hmem
            rcases List.mem_cons.mp hmem with rfl | hmem
            · exact absurd heq hne
            · exact ⟨rt₁, hmem, heq⟩
          by_cases hseen : r.target rt' ∈ seen
          · rw [wanted_repeat hseen]
            exact ih h (hrest fun heq => h (heq ▸ hseen))
          · rw [wanted_first hseen, List.count_append, count_newArgs_newArg hsan]
            by_cases heq : r.target rt' = r.target rt
            · rw [if_pos heq, count_newArg_of_seen hsan (heq ▸ List.mem_cons_self)]
            · rw [if_neg heq, ih _ (hrest heq)]
              intro hin
              rcases List.mem_cons.mp hin with hin | hin
              · exact heq hin.symm
              · exact h hin

theorem balanced_wanted (hsan : r.sanType ≠ .sanNone) (seen : List CString)
    (items : List LinkArg) :
    (r.wanted seen items).count preRt + (otherArgs items).count postRt =
      (r.wanted seen items).count postRt + (otherArgs items).count preRt := by
  induction items generalizing seen with
  | nil => rfl
  | cons item items ih =>
      cases item with
      | other arg plain =>
          have hrest := ih seen
          simp only [wanted_other, otherArgs, List.count_cons]
          omega
      | runtime rt =>
          by_cases hseen : r.target rt ∈ seen
          · rw [wanted_repeat hseen]
            exact ih seen
          · have hrest := ih (r.target rt :: seen)
            simp only [wanted_first hseen, otherArgs, List.count_append,
              count_newArgs_preRt hsan, count_newArgs_postRt hsan]
            omega

theorem count_other (hsan : r.sanType ≠ .sanNone) (h : isRuntime arg = false) (hpre : arg ≠ preRt)
    (hpost : arg ≠ postRt) (hopt : arg ≠ r.rPathOpt) :
    (r.wanted seen items).count arg = (otherArgs items).count arg := by
  induction items generalizing seen with
  | nil => rfl
  | cons item items ih =>
      cases item with
      | other arg' plain => simp only [wanted_other, otherArgs, List.count_cons, ih]
      | runtime rt =>
          by_cases hseen : r.target rt ∈ seen
          · rw [wanted_repeat hseen]
            exact ih
          · have hnone : arg ∉ r.newArgs rt := by
              intro hmem
              rcases mem_newArgs hmem with heq | heq | heq | heq
              · exact hpre heq
              · exact hpost heq
              · exact hopt heq
              · exact ne_of_isRuntime (isRuntime_newArg hsan rt) h heq.symm
            rw [wanted_first hseen, List.count_append, List.count_eq_zero_of_not_mem hnone,
              Nat.zero_add, ih]
            rfl

end Counts

/-! ## The static runtime -/

def staticRuntime : Runtime where
  kind := .archive
  dir := []
  san := .asan
  variant := staticSuffix
  named := by decide
  noOption := by decide
  plain := by decide

theorem newArg_staticRuntime (r : RtRewriter) : r.newArg staticRuntime = r.staticRt := by
  have harch : ¬r.archSuffix <:+ staticSuffix := by
    intro h
    have hmem : '-' ∈ staticSuffix := h.subset List.mem_cons_self
    exact absurd hmem (by decide)
  rw [staticRt, List.append_assoc]
  exact congrArg (fun v => r.prefixToReplace ++ (v ++ dotA)) (if_neg harch)

theorem target_staticRuntime (r : RtRewriter) : r.target staticRuntime = r.staticRt :=
  newArg_staticRuntime r

theorem count_added (hsan : r.sanType ≠ .sanNone) (h : isRuntime arg = false) (hpre : arg ≠ preRt)
    (hpost : arg ≠ postRt) : (r.added items).count arg = 0 := by
  have hstatic := ne_of_isRuntime (isRuntime_newArg hsan staticRuntime) h
  rw [newArg_staticRuntime] at hstatic
  rw [added]
  split
  · simp [staticArgs, hpre.symm, hpost.symm, hstatic]
  · rfl

theorem balanced_added (hsan : r.sanType ≠ .sanNone) (items : List LinkArg) :
    (r.added items).count preRt = (r.added items).count postRt := by
  have hpre := ne_of_isRuntime (isRuntime_newArg hsan staticRuntime) isRuntime_preRt
  have hpost := ne_of_isRuntime (isRuntime_newArg hsan staticRuntime) isRuntime_postRt
  have hne : preRt ≠ postRt := by decide
  rw [newArg_staticRuntime] at hpre hpost
  rw [added]
  split
  · simp [staticArgs, hpre, hpost, hne, hne.symm]
  · rfl

theorem count_added_newArg (hsan : r.sanType ≠ .sanNone) (rt : Runtime) :
    (r.added items).count (r.newArg rt) =
      if (r.needsStaticRt = true ∧ ¬r.HasStatic items) ∧ r.target rt = r.staticRt then 1
      else 0 := by
  have hrt := isRuntime_newArg hsan rt
  have hpre := (ne_of_isRuntime hrt isRuntime_preRt).symm
  have hpost := (ne_of_isRuntime hrt isRuntime_postRt).symm
  have hstatic : r.staticRt = r.newArg rt ↔ r.target rt = r.staticRt := by
    rw [← newArg_staticRuntime, newArg_inj, newArg_staticRuntime, target_staticRuntime, eq_comm]
  rw [added]
  split
  · next hadd => simp [staticArgs, List.count_cons, hpre, hpost, hstatic, hadd]
  · next hadd =>
      rw [if_neg fun h => hadd h.1]
      rfl

/-! ## The properties of the line -/

theorem once_of_placed (hsan : r.sanType ≠ .sanNone) (h : rt ∈ runtimes items) :
    (r.wanted [] items ++ r.added items).count (r.newArg rt) = 1 := by
  have hnone : ¬((r.needsStaticRt = true ∧ ¬r.HasStatic items) ∧ r.target rt = r.staticRt) :=
    fun hadd => hadd.1.2 ⟨rt, h, hadd.2⟩
  rw [List.count_append, count_newArg hsan List.not_mem_nil ⟨rt, h, rfl⟩, count_added_newArg hsan,
    if_neg hnone]

theorem static_of_placed (hsan : r.sanType ≠ .sanNone) (hneeds : r.needsStaticRt = true) :
    (r.wanted [] items ++ r.added items).count r.staticRt = 1 := by
  by_cases hhas : r.HasStatic items
  · obtain ⟨rt, hmem, htarget⟩ := hhas
    have heq : r.newArg rt = r.staticRt := by
      rw [← newArg_staticRuntime, newArg_inj, htarget, target_staticRuntime]
    rw [← heq]
    exact once_of_placed hsan hmem
  · have hnot : r.newArg staticRuntime ∉ r.wanted [] items := by
      intro hmem
      rcases mem_wanted hmem with h | h | h | h | ⟨rt, hrt, h⟩
      · exact ne_of_isRuntime (isRuntime_newArg hsan _) (plain_of_mem_otherArgs h) rfl
      · exact ne_of_isRuntime (isRuntime_newArg hsan _) isRuntime_preRt h
      · exact ne_of_isRuntime (isRuntime_newArg hsan _) isRuntime_postRt h
      · exact newArg_ne_rPathOpt r _ h
      · exact hhas ⟨rt, hrt, by rw [← newArg_inj.mp h, target_staticRuntime]⟩
    rw [← newArg_staticRuntime, List.count_append, List.count_eq_zero_of_not_mem hnot,
      count_added_newArg hsan, if_pos ⟨⟨hneeds, hhas⟩, target_staticRuntime r⟩]

theorem arg_ne_rPathOpt (r : RtRewriter) (rt : Runtime) : rt.arg ≠ r.rPathOpt := by
  intro h
  by_cases hkind : rt.kind = .symbols
  · obtain ⟨rest, hrest⟩ := Runtime.dynList_prefix_arg.mpr hkind
    rw [← hrest] at h
    have hsecond := congrArg (fun l : CString => l[1]?) h
    cases hsecond
  · apply rt.head?_path
    rw [← Runtime.arg_of_ne_symbols hkind, h]
    rfl

theorem replaced_of_placed
    (h : rt.arg ∈ r.wanted [] items ++ r.added items) :
    r.prefixToReplace <+: rt.arg ∨ dynList ++ r.prefixToReplace <+: rt.arg := by
  have hnew : ∀ rt', r.prefixToReplace <+: r.newArg rt' ∨
      dynList ++ r.prefixToReplace <+: r.newArg rt' := by
    intro rt'
    have htarget : r.prefixToReplace <+: r.target rt' := List.prefix_append _ _
    rw [newArg]
    split
    · exact .inr ((List.prefix_append_right_inj dynList).mpr htarget)
    · exact .inl htarget
  have hrt := isRuntime_arg rt
  rcases List.mem_append.mp h with h | h
  · rcases mem_wanted h with h | h | h | h | ⟨rt', -, h⟩
    · exact absurd rfl (ne_of_isRuntime hrt (plain_of_mem_otherArgs h))
    · exact absurd h (ne_of_isRuntime hrt isRuntime_preRt)
    · exact absurd h (ne_of_isRuntime hrt isRuntime_postRt)
    · exact absurd h (arg_ne_rPathOpt r rt)
    · rw [h]
      exact hnew rt'
  · rw [added] at h
    split at h
    · simp only [staticArgs, List.mem_cons, List.not_mem_nil, or_false] at h
      rcases h with h | h | h
      · exact absurd h (ne_of_isRuntime hrt isRuntime_preRt)
      · rw [h, ← newArg_staticRuntime]
        exact hnew staticRuntime
      · exact absurd h (ne_of_isRuntime hrt isRuntime_postRt)
    · cases h

/-- A line with every argument at its place has the properties that are asked for. -/
theorem faithful_of_placed (hsan : r.sanType ≠ .sanNone) (items : List LinkArg) :
    r.Faithful items (r.wanted [] items ++ r.added items) where
  placed := rfl
  order := (r.otherArgs_sublist_wanted [] items).trans (List.sublist_append_left _ _)
  multiplicity arg hmem hpre hpost hopt := by
    have hplain := plain_of_mem_otherArgs hmem
    rw [List.count_append, count_other hsan hplain hpre hpost hopt,
      count_added hsan hplain hpre hpost, Nat.add_zero]
  balanced := by
    have hwanted := balanced_wanted hsan [] items
    have hadded := balanced_added hsan items
    rw [List.count_append, List.count_append]
    omega
  replaced rt _ h := replaced_of_placed h
  once rt h := once_of_placed hsan h
  static h := static_of_placed hsan h

end Mair.Compiler.RtRewriter
