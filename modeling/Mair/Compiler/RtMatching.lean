import Mair.Compiler.LinkArgs

/-! # What the rewriter makes of one argument -/

namespace Mair.Compiler.RtRewriter

open Search

variable {r : RtRewriter} {rt rt' : Runtime} {arg newRt dir rest : CString}
  {san san' : SanitizerType}

/-! ## Runtimes and their file names -/

theorem slash_notMem_hackedSanName : '/' ∉ hackedSanName san := by
  cases san <;> decide

theorem hackedSanName_ne_nil (h : san ≠ .sanNone) : hackedSanName san ≠ [] := by
  cases san with
  | sanNone => exact absurd rfl h
  | _ => decide

theorem hackedSanName_mem (san : SanitizerType) :
    hackedSanName san ∈ hackedSanNames := by
  cases san <;> simp [hackedSanNames]

theorem slash_notMem_extension (kind : RtKind) : '/' ∉ kind.extension := by
  cases kind <;> decide

theorem extension_ne_nil (kind : RtKind) : kind.extension ≠ [] := by
  cases kind <;> decide

theorem kind_of_extension {a b : CString} {kind kind' : RtKind}
    (h : a ++ kind.extension = b ++ kind'.extension) : kind = kind' := by
  have hlast := congrArg List.getLast? h
  rw [List.getLast?_append_of_ne_nil _ (extension_ne_nil kind),
    List.getLast?_append_of_ne_nil _ (extension_ne_nil kind')] at hlast
  cases kind <;> cases kind' <;> first | rfl | exact absurd hlast (by decide)

theorem extension_suffix_iff (l : CString) (kind kind' : RtKind) :
    kind'.extension <:+ l ++ kind.extension ↔ kind = kind' := by
  constructor
  · rintro ⟨front, hfront⟩
    exact (kind_of_extension hfront).symm
  · rintro rfl
    exact List.suffix_append l kind.extension

namespace Runtime

/-- What stands before the file name. -/
def front (rt : Runtime) : CString :=
  (match rt.kind with | .symbols => dynList | _ => []) ++ rt.dir

theorem arg_eq (rt : Runtime) :
    rt.arg = rt.front ++ '/' :: (compilerRt ++ (hackedSanName rt.san ++ rt.tail)) := by
  rw [arg, front]
  cases rt.kind <;> simp [path]

theorem slash_notMem_tail (rt : Runtime) : '/' ∉ rt.tail := by
  rw [tail, List.mem_append]
  intro h
  rcases h with h | h
  · exact rt.plain h
  · exact slash_notMem_extension rt.kind h

end Runtime

theorem ne_slash_of_mem_reverse (h : '/' ∉ arg) : ∀ c ∈ arg.reverse, (c ≠ '/' : Bool) = true := by
  intro c hc
  have hne : c ≠ '/' := by
    rintro rfl
    exact h (List.mem_reverse.mp hc)
  simpa using hne

theorem fileName_append_cons {file : CString} (h : '/' ∉ file) :
    fileName (dir ++ '/' :: file) = file := by
  rw [fileName, List.reverse_append, List.reverse_cons, List.append_assoc,
    List.takeWhile_append_of_pos (ne_slash_of_mem_reverse h)]
  simp

theorem fileName_of_notMem (h : '/' ∉ arg) : fileName arg = arg := by
  have htake := @List.takeWhile_append_of_pos _ _ _ [] (ne_slash_of_mem_reverse h)
  rw [List.append_nil, List.takeWhile_nil, List.append_nil] at htake
  rw [fileName, htake, List.reverse_reverse]

/-- The directory of a path that is joined to a file name. -/
theorem exists_joinPath (dir : CString) : ∃ base, (∀ file, joinPath dir file = base ++ file) ∧
    (∀ file, '/' ∉ file → fileName (base ++ file) = file) ∧ (dir = base ∨ base = dir ++ ['/']) := by
  by_cases hnil : dir = []
  · exact ⟨[], fun file => by simp [joinPath, hnil], fun file h => fileName_of_notMem h, .inl hnil⟩
  · by_cases hslash : dir.getLast? = some '/'
    · obtain ⟨init, rfl⟩ := List.getLast?_eq_some_iff.mp hslash
      refine ⟨init ++ ['/'], fun file => by simp [joinPath], ?_, .inl rfl⟩
      intro file h
      rw [List.append_assoc]
      exact fileName_append_cons h
    · refine ⟨dir ++ ['/'], fun file => by simp [joinPath, hnil, hslash], ?_, .inr rfl⟩
      intro file h
      rw [List.append_assoc]
      exact fileName_append_cons h

theorem isRuntimePath_of_fileName (tail : CString) (h : san ≠ .sanNone)
    (hfile : fileName arg = compilerRt ++ (hackedSanName san ++ tail)) :
    isRuntimePath arg = true := by
  rw [isRuntimePath, List.any_eq_true]
  refine ⟨hackedSanName san, hackedSanName_mem san, ?_⟩
  rw [hfile, ← List.append_assoc]
  simpa using hackedSanName_ne_nil h

theorem slash_notMem_name {tail : CString} (h : '/' ∉ tail) :
    '/' ∉ compilerRt ++ (hackedSanName san ++ tail) := by
  rw [List.mem_append, List.mem_append]
  intro hmem
  rcases hmem with hmem | hmem | hmem
  · exact absurd hmem (by decide)
  · exact slash_notMem_hackedSanName hmem
  · exact h hmem

theorem isRuntime_dynList (h : isRuntimePath arg = true) : isRuntime (dynList ++ arg) = true := by
  rw [isRuntime, List.drop_left, h, List.isPrefixOf_iff_prefix.mpr (List.prefix_append _ _)]
  simp

theorem isRuntime_of_path (h : isRuntimePath arg = true) : isRuntime arg = true := by
  rw [isRuntime, h, Bool.true_or]

theorem isRuntime_arg (rt : Runtime) : isRuntime rt.arg = true := by
  have hpath : isRuntimePath rt.path = true :=
    isRuntimePath_of_fileName rt.tail rt.named
      (fileName_append_cons (slash_notMem_name rt.slash_notMem_tail))
  rw [Runtime.arg]
  cases rt.kind with
  | symbols => exact isRuntime_dynList hpath
  | archive => exact isRuntime_of_path hpath
  | shared => exact isRuntime_of_path hpath

theorem withoutArch_begins (r : RtRewriter) (variant : CString) :
    r.withoutArch variant <+: variant := by
  rw [withoutArch]
  split
  · exact List.take_prefix _ _
  · exact List.prefix_refl _

theorem slash_notMem_target_tail (r : RtRewriter) (rt : Runtime) :
    '/' ∉ r.withoutArch rt.variant ++ rt.kind.extension := by
  rw [List.mem_append]
  intro h
  rcases h with h | h
  · exact rt.plain ((r.withoutArch_begins rt.variant).subset h)
  · exact slash_notMem_extension rt.kind h

theorem isRuntimePath_target (h : r.sanType ≠ .sanNone) (rt : Runtime) :
    isRuntimePath (r.target rt) = true := by
  obtain ⟨base, hbase, hname, -⟩ := exists_joinPath r.xsanRtDir
  apply isRuntimePath_of_fileName (r.withoutArch rt.variant ++ rt.kind.extension) h
  rw [target, prefixToReplace, hbase, List.append_assoc, List.append_assoc]
  exact hname _ (slash_notMem_name (r.slash_notMem_target_tail rt))

theorem isRuntime_newArg (h : r.sanType ≠ .sanNone) (rt : Runtime) :
    isRuntime (r.newArg rt) = true := by
  have hpath := isRuntimePath_target h rt
  rw [newArg]
  cases rt.kind with
  | symbols => exact isRuntime_dynList hpath
  | archive => exact isRuntime_of_path hpath
  | shared => exact isRuntime_of_path hpath

/-! ## A runtime in a directory without the name -/

theorem eq_of_hackedSanName_begins (h : san ≠ .sanNone) (h' : san' ≠ .sanNone)
    (hpre : hackedSanName san <+: hackedSanName san' ++ rest) : san = san' := by
  have hhead : (hackedSanName san).head? = (hackedSanName san').head? := by
    obtain ⟨tail, htail⟩ := hpre
    have hheads := congrArg List.head? htail
    rwa [List.head?_append_of_ne_nil _ (hackedSanName_ne_nil h),
      List.head?_append_of_ne_nil _ (hackedSanName_ne_nil h')] at hheads
  cases san <;> cases san' <;>
    first | rfl | exact absurd rfl h | exact absurd rfl h' | exact absurd hhead (by decide)

theorem find_hackedSanName (h : san ≠ .sanNone) (rest : CString) :
    (hackedSanNames.find? fun sanName => sanName ≠ [] ∧ sanName <+: hackedSanName san ++ rest) =
      some (hackedSanName san) := by
  cases hfound : hackedSanNames.find? fun sanName =>
      sanName ≠ [] ∧ sanName <+: hackedSanName san ++ rest with
  | none =>
      have hno := List.find?_eq_none.mp hfound _ (hackedSanName_mem san)
      simp [hackedSanName_ne_nil h] at hno
  | some sanName =>
      have hholds := List.find?_some hfound
      obtain ⟨hne, hpre⟩ := of_decide_eq_true hholds
      obtain ⟨san', -, rfl⟩ := List.mem_map.mp (List.mem_of_find?_eq_some hfound)
      have hsan' : san' ≠ .sanNone := by
        rintro rfl
        exact hne rfl
      rw [eq_of_hackedSanName_begins hsan' h hpre]

theorem find_compilerRt (h : find compilerRt dir = none) (rest : CString) :
    find compilerRt (dir ++ (compilerRt ++ rest)) = some dir.length :=
  find_append '.' "libclang_rt".toList (by decide) h

theorem findSanRtSuffix_of_find (hdir : find compilerRt dir = none) (hsan : san ≠ .sanNone)
    (tail : CString) :
    ∃ pos, findSanRtSuffix (dir ++ (compilerRt ++ (hackedSanName san ++ tail))) = some pos ∧
      (dir ++ (compilerRt ++ (hackedSanName san ++ tail))).drop pos = tail := by
  refine ⟨dir.length + compilerRt.length + (hackedSanName san).length, ?_, ?_⟩
  · have hdrop : (dir ++ (compilerRt ++ (hackedSanName san ++ tail))).drop
        (dir.length + compilerRt.length) = hackedSanName san ++ tail := by
      rw [← List.append_assoc, ← List.length_append, List.drop_left]
    rw [findSanRtSuffix, find_compilerRt hdir]
    simp only [hdrop, find_hackedSanName hsan tail, Option.map_some]
  · rw [← List.append_assoc, ← List.append_assoc, ← List.length_append, ← List.length_append,
      List.drop_left]

theorem find_dynList (h : find compilerRt arg = none) :
    find compilerRt (dynList ++ arg) = none :=
  find_append_cons (a := "--dynamic-list".toList) (c := '=') (by decide) (by decide) h

theorem find_rPathOpt (h : find compilerRt r.xsanRtDir = none) :
    find compilerRt r.rPathOpt = none :=
  find_append_cons (a := "-rpath".toList) (c := '=') (by decide) (by decide) h

namespace Runtime

theorem find_front (h : find compilerRt rt.dir = none) :
    find compilerRt (rt.front ++ ['/']) = none := by
  have hdir : find compilerRt (rt.dir ++ ['/']) = none := find_append_cons (by decide) h rfl
  rw [front]
  cases rt.kind with
  | symbols =>
      rw [List.append_assoc]
      exact find_dynList hdir
  | archive => exact hdir
  | shared => exact hdir

theorem arg_eq_name (rt : Runtime) :
    rt.arg = (rt.front ++ ['/']) ++ (compilerRt ++ (hackedSanName rt.san ++ rt.tail)) := by
  rw [arg_eq, List.append_assoc, List.singleton_append]

theorem findSanRtSuffix_arg (h : find compilerRt rt.dir = none) :
    ∃ pos, findSanRtSuffix rt.arg = some pos ∧ rt.arg.drop pos = rt.tail := by
  rw [arg_eq_name]
  exact findSanRtSuffix_of_find (find_front h) rt.named rt.tail

theorem arg_eq_extension (rt : Runtime) : ∃ front, rt.arg = front ++ rt.kind.extension := by
  rw [arg_eq_name, tail, ← List.append_assoc, ← List.append_assoc, ← List.append_assoc]
  exact ⟨_, rfl⟩

theorem extension_suffix_arg (kind : RtKind) : kind.extension <:+ rt.arg ↔ rt.kind = kind := by
  obtain ⟨front, hfront⟩ := rt.arg_eq_extension
  rw [hfront]
  exact extension_suffix_iff _ _ _

theorem dotSo_suffix_arg : dotSo <:+ rt.arg ↔ rt.kind = .shared :=
  extension_suffix_arg .shared

theorem dotA_suffix_arg : dotA <:+ rt.arg ↔ rt.kind = .archive :=
  extension_suffix_arg .archive

theorem dotSo_suffix_tail : dotSo <:+ rt.tail ↔ rt.kind = .shared :=
  extension_suffix_iff _ _ .shared

theorem head?_path (rt : Runtime) : rt.path.head? ≠ some '-' := by
  rw [path]
  cases hdir : rt.dir with
  | nil =>
      intro h
      cases h
  | cons c dir =>
      have hno := rt.noOption
      rw [hdir] at hno
      exact hno

theorem arg_of_ne_symbols (h : rt.kind ≠ .symbols) : rt.arg = rt.path := by
  rw [arg]
  split
  · next hk => exact absurd hk h
  · rfl

theorem dynList_prefix_arg : dynList <+: rt.arg ↔ rt.kind = .symbols := by
  constructor
  · intro h
    by_contra hkind
    rw [arg_of_ne_symbols hkind] at h
    obtain ⟨rest, hrest⟩ := h
    apply rt.head?_path
    rw [← hrest]
    rfl
  · intro h
    rw [arg, h]
    exact List.prefix_append _ _

theorem extension_pos (rt : Runtime) :
    (if dotSo <:+ rt.tail then some (rt.tail.length - 3) else rfind dotA rt.tail) =
      some rt.variant.length := by
  cases hkind : rt.kind with
  | shared =>
      rw [if_pos (dotSo_suffix_tail.mpr hkind), tail, hkind, List.length_append]
      rfl
  | archive =>
      have hso : ¬dotSo <:+ rt.tail := fun h => absurd (hkind ▸ dotSo_suffix_tail.mp h) (by decide)
      have hpos := @rfind_append Char _ '.' ['a'] rt.variant [] (by decide) (by simp)
      rw [if_neg hso, tail, hkind]
      rw [List.append_nil] at hpos
      exact hpos
  | symbols =>
      have hso : ¬dotSo <:+ rt.tail := fun h => absurd (hkind ▸ dotSo_suffix_tail.mp h) (by decide)
      rw [if_neg hso, tail, hkind]
      apply @rfind_append Char _ '.' ['a'] rt.variant ".syms".toList (by decide)
      intro q hq
      have hin := hq.isInfix.trans (List.drop_suffix q ".syms".toList).isInfix
      exact absurd hin (by decide)

end Runtime

/-- The runtime is built without a shared version. -/
def NoShared (r : RtRewriter) : Prop := r.sanType = .xsan ∧ has r.xsanMask .msan = true

theorem replaceSanitizerRt_fatal (h : find compilerRt rt.dir = none) (hkind : rt.kind = .shared)
    (hno : r.NoShared) : r.replaceSanitizerRt rt.arg = .error (.fatal sharedWithMsan) := by
  obtain ⟨pos, hpos, hdrop⟩ := Runtime.findSanRtSuffix_arg h
  rw [replaceSanitizerRt, hpos]
  simp only [hdrop]
  exact if_pos ⟨Runtime.dotSo_suffix_tail.mpr hkind, hno⟩

theorem replaceSanitizerRt_arg (h : find compilerRt rt.dir = none)
    (hkind : rt.kind = .shared → ¬r.NoShared) :
    r.replaceSanitizerRt rt.arg = .ok (some (r.target rt)) := by
  obtain ⟨pos, hpos, hdrop⟩ := Runtime.findSanRtSuffix_arg h
  have hok : ¬(dotSo <:+ rt.tail ∧ r.sanType = .xsan ∧ has r.xsanMask .msan = true) :=
    fun hso => hkind (Runtime.dotSo_suffix_tail.mp hso.1) hso.2
  have htake : rt.tail.take rt.variant.length = rt.variant := List.take_left
  have hext : rt.tail.drop rt.variant.length = rt.kind.extension := List.drop_left
  rw [replaceSanitizerRt, hpos]
  simp only [hdrop]
  rw [if_neg hok, Runtime.extension_pos]
  simp only [htake, hext]
  rw [target, withoutArch]
  split
  · rw [Runtime.tail, List.take_append_of_le_length (Nat.sub_le _ _), List.append_assoc]
  · rfl

/-! ## Any replaced argument -/

/-- What replaces an argument ends like it, with the architecture in front of the extension
removed. -/
theorem replaceSanitizerRt_spec (h : r.replaceSanitizerRt arg = .ok (some newRt)) :
    ∃ pos body extension, findSanRtSuffix arg = some pos ∧ arg.drop pos = body ++ extension ∧
      2 ≤ extension.length ∧ newRt = r.prefixToReplace ++ (r.withoutArch body ++ extension) := by
  rw [replaceSanitizerRt] at h
  cases hpos : findSanRtSuffix arg with
  | none =>
      rw [hpos] at h
      cases h
  | some pos =>
      rw [hpos] at h
      simp only at h
      split at h
      · cases h
      · split at h
        · cases h
        · next hok n hn =>
            have hlen : n + 2 ≤ (arg.drop pos).length := by
              split at hn
              · next hso =>
                  have hle : 3 ≤ (arg.drop pos).length := hso.length_le
                  have heq := Option.some.inj hn
                  omega
              · exact length_le_of_prefix_drop (prefix_of_rfind hn) (by decide)
            refine ⟨pos, (arg.drop pos).take n, (arg.drop pos).drop n, rfl,
              (List.take_append_drop n _).symm, ?_, ?_⟩
            · rw [List.length_drop]
              omega
            · rw [withoutArch]
              split at h
              · next harch =>
                  have hmin : min n (arg.drop pos).length = n := Nat.min_eq_left (by omega)
                  rw [if_pos harch, List.length_take, hmin, List.take_take,
                    Nat.min_eq_left (Nat.sub_le _ _)]
                  rw [← Option.some.inj (Except.ok.inj h), List.append_assoc]
              · next harch =>
                  rw [if_neg harch, List.take_append_drop]
                  exact (Option.some.inj (Except.ok.inj h)).symm

theorem prefixToReplace_begins (h : r.replaceSanitizerRt arg = .ok (some newRt)) :
    r.prefixToReplace <+: newRt := by
  obtain ⟨pos, body, extension, -, -, -, rfl⟩ := replaceSanitizerRt_spec h
  exact List.prefix_append _ _

theorem dot_mem_prefixToReplace (r : RtRewriter) : '.' ∈ r.prefixToReplace := by
  obtain ⟨base, hbase, -, -⟩ := exists_joinPath r.xsanRtDir
  rw [prefixToReplace, hbase]
  exact List.mem_append_left _ (List.mem_append_right _ (by decide))

theorem dotA_suffix_of_archive (h : r.replaceSanitizerRt arg = .ok (some newRt))
    (harg : dotA <:+ arg) : dotA <:+ newRt := by
  obtain ⟨pos, body, extension, -, hdrop, hlen, rfl⟩ := replaceSanitizerRt_spec h
  have hsuf : extension <:+ arg :=
    (hdrop ▸ List.suffix_append body extension).trans (List.drop_suffix pos arg)
  rw [← List.append_assoc]
  exact (List.suffix_of_suffix_length_le harg hsuf hlen).trans (List.suffix_append _ _)

theorem length_le_of_prefix_append_cons {c : Char} {a b : CString} (hc : c ∉ dir)
    (h : dir <+: a ++ c :: b) : dir.length ≤ a.length := by
  by_contra hlt
  rw [Nat.not_le] at hlt
  have hpre : a ++ [c] <+: dir := by
    refine List.prefix_of_prefix_length_le ?_ h ?_
    · exact ⟨b, by rw [List.append_assoc, List.singleton_append]⟩
    · rw [List.length_append, List.length_singleton]
      exact hlt
  exact hc (hpre.subset (by simp))

theorem slash_mem_withoutArch (harch : '/' ∉ r.archName) {body : CString} (h : '/' ∈ body) :
    '/' ∈ r.withoutArch body := by
  rw [withoutArch]
  split
  · next hsuf =>
      rw [List.suffix_iff_eq_append] at hsuf
      rw [← hsuf, List.mem_append] at h
      rcases h with h | h
      · exact h
      · rw [archSuffix, List.mem_cons] at h
        rcases h with h | h
        · cases h
        · exact absurd h harch
  · exact h

theorem find_arg_of_dir (hdir : find compilerRt rt.dir ≠ none) :
    ∃ p, find compilerRt rt.arg = some p ∧ p + compilerRt.length ≤ rt.front.length := by
  have hfront : find compilerRt rt.front ≠ none := by
    intro hnone
    apply hdir
    rw [find_eq_none_iff] at hnone ⊢
    exact fun hin => hnone (hin.trans ⟨_, [], by rw [List.append_nil]; rfl⟩)
  obtain ⟨q, hq⟩ := Option.ne_none_iff_exists'.mp hfront
  have hbound := find_bound hq (by decide)
  have hinarg : compilerRt <+: rt.arg.drop q := by
    rw [Runtime.arg_eq, List.drop_append_of_le_length (by omega)]
    exact (prefix_of_find hq).trans (List.prefix_append _ _)
  obtain ⟨p, hle, hp⟩ := exists_find hinarg
  exact ⟨p, hp, by omega⟩

theorem slash_mem_drop {p : ℕ} (h : p ≤ rt.front.length) : '/' ∈ rt.arg.drop p := by
  rw [Runtime.arg_eq, List.drop_append_of_le_length h]
  exact List.mem_append_right _ List.mem_cons_self

/-- A runtime in a directory with the name is not replaced by its target. -/
theorem slash_mem_of_find (hdir : find compilerRt rt.dir ≠ none) (harch : '/' ∉ r.archName)
    (h : r.replaceSanitizerRt rt.arg = .ok (some newRt)) :
    ∃ tail, newRt = r.prefixToReplace ++ tail ∧ '/' ∈ tail := by
  obtain ⟨pos, body, extension, hpos, hdrop, -, rfl⟩ := replaceSanitizerRt_spec h
  refine ⟨_, rfl, ?_⟩
  obtain ⟨p, hp, hle⟩ := find_arg_of_dir hdir
  rw [findSanRtSuffix, hp] at hpos
  obtain ⟨sanName, hname, hsum⟩ := Option.map_eq_some_iff.mp hpos
  have hholds := List.find?_some hname
  obtain ⟨-, hpre⟩ := of_decide_eq_true hholds
  obtain ⟨san, -, rfl⟩ := List.mem_map.mp (List.mem_of_find?_eq_some hname)
  rw [Runtime.arg_eq, List.drop_append_of_le_length hle] at hpre
  have hlen := length_le_of_prefix_append_cons slash_notMem_hackedSanName hpre
  rw [List.length_drop] at hlen
  have hmem : '/' ∈ rt.arg.drop pos := slash_mem_drop (by omega)
  rw [hdrop, List.mem_append] at hmem
  rw [List.mem_append]
  rcases hmem with hmem | hmem
  · exact .inl (slash_mem_withoutArch harch hmem)
  · exact .inr hmem

end Mair.Compiler.RtRewriter
