import Mair.Compiler.Agreement

/-! # The last mention of a sanitizer

Each argument enables or disables the sanitizers that it mentions. The wrapper follows the last
mention unless a `-ubsan` switch is counted for another sanitizer. -/

namespace Mair.Compiler

/-! ## Mentions -/

def sanitizers : List SanitizerType := [.asan, .tsan, .msan, .ubsan]

/-- The name in the lists. -/
def listName : SanitizerType → CString
  | .asan => "address".toList
  | .tsan => "thread".toList
  | .msan => "memory".toList
  | .ubsan => "undefined".toList
  | .xsan => "all".toList
  | .sanNone => []

local instance lawfulListed : LawfulBEq CString where
  eq_of_beq h := by simpa using h
  rfl := by simp

/-- Whether the argument enables or disables the sanitizer, if it mentions it. -/
def mention (s : SanitizerType) (cur : CString) : Option Bool :=
  if cur = typeName s ∨ cur = optionName .xsan then some true
  else
    match dropPrefix? "-fsanitize=".toList cur with
    | some val => if listName s ∈ val.splitOn ',' then some true else none
    | none =>
        match dropPrefix? "-fno-sanitize=".toList cur with
        | some val =>
            if listName s ∈ val.splitOn ',' ∨ listName .xsan ∈ val.splitOn ',' then some false
            else none
        | none => none

def lastMention (s : SanitizerType) (args : List CString) : Option Bool :=
  (args.filterMap (mention s)).getLast?

/-- A sanitizer is enabled if and only if its last mention enables it. -/
def LastMentionWins (contains : Contains) (argv : List CString) (d : Detection) : Prop :=
  ∀ s ∈ sanitizers, supportSubsanitizers contains s = true →
    (has d.actSanitizers s = true ↔ lastMention s argv.tail = some true)

def OnlyEnables (args : List CString) : Prop :=
  ∀ cur ∈ args, ∀ s ∈ sanitizers, mention s cur ≠ some false

/-- Arguments that only enable sanitizers stand in another order. -/
def Reordered (argv argv' : List CString) : Prop :=
  ∃ front mid mid' back, argv.tail = front ++ mid ++ back ∧ argv'.tail = front ++ mid' ++ back ∧
    OnlyEnables mid ∧ mid.Perm mid'

/-- The order of such arguments makes no difference. -/
def OrderIrrelevant (contains : Contains) (argv : List CString) (d : Detection) : Prop :=
  ∀ argv' d', Reordered argv argv' → detectSanType contains argv' = .ok d' →
    ∀ s ∈ sanitizers, supportSubsanitizers contains s = true →
      has d'.actSanitizers s = has d.actSanitizers s

/-! ## The switch that is counted for another sanitizer -/

/-- The loop over the arguments. -/
def scan (contains : Contains) (args : List CString) : Except CString Detection :=
  args.foldlM (applyArgument contains) ⟨.sanNone, 0⟩

/-- The last mention decides about the sanitizer, although a `-ubsan` switch behind something
enabled is counted for the switch in force: UBSan is enabled anyway, and the type in force is not
one that has been disabled. -/
def SwitchInOrder (contains : Contains) (args : List CString) (s : SanitizerType) : Prop :=
  ∀ before after d, args = before ++ optionName .ubsan :: after → scan contains before = .ok d →
    hasAny d.actSanitizers = true → (∀ cur ∈ after, mention s cur = none) →
      if s = .ubsan then d.xsanTy = .ubsan ∨ has d.actSanitizers .ubsan = true
      else d.xsanTy = s → lastMention s before = some true

/-- No `-ubsan` switch goes astray. -/
def UbsanInOrder (contains : Contains) (argv : List CString) : Prop :=
  ∀ s ∈ sanitizers, supportSubsanitizers contains s = true → SwitchInOrder contains argv.tail s

/-! ## One argument -/

section Argument

variable {contains : Contains} {d d' : Detection} {cur pre rest : CString} {s sanTy : SanitizerType}
  {mask : Mask} {opt : SanitizerOption}

theorem dropPrefix?_eq_some : dropPrefix? pre cur = some rest ↔ cur = pre ++ rest := by
  rw [dropPrefix?]
  constructor
  · intro h
    split at h
    · next hpre =>
        obtain ⟨tail, rfl⟩ := hpre
        rw [List.drop_left] at h
        rw [Option.some.inj h]
    · cases h
  · intro h
    rw [h, if_pos (List.prefix_append pre rest), List.drop_left]

theorem dropPrefix?_append (pre pre' : CString) :
    dropPrefix? (pre ++ pre') cur = (dropPrefix? pre cur).bind (dropPrefix? pre') := by
  apply Option.ext
  intro rest
  rw [dropPrefix?_eq_some, Option.bind_eq_some_iff]
  constructor
  · intro h
    exact ⟨pre' ++ rest, dropPrefix?_eq_some.mpr (by rw [h, List.append_assoc]),
      dropPrefix?_eq_some.mpr rfl⟩
  · intro h
    obtain ⟨middle, hmiddle, hrest⟩ := h
    rw [dropPrefix?_eq_some.mp hmiddle, dropPrefix?_eq_some.mp hrest, List.append_assoc]

/-- The two list options. -/
theorem applySanitizeList_eq : applySanitizeList mask cur =
    match dropPrefix? "-fsanitize=".toList cur with
    | some val => applyList false .sanNone mask (val.splitOn ',')
    | none =>
        match dropPrefix? "-fno-sanitize=".toList cur with
        | some val => applyList true .sanNone mask (val.splitOn ',')
        | none => mask := by
  have henable : dropPrefix? "-fsanitize=".toList cur =
      (dropPrefix? "-f".toList cur).bind (dropPrefix? "sanitize=".toList) :=
    dropPrefix?_append "-f".toList "sanitize=".toList
  have hdisable : dropPrefix? "-fno-sanitize=".toList cur =
      (dropPrefix? "-f".toList cur).bind fun rest =>
        (dropPrefix? "no-".toList rest).bind (dropPrefix? "sanitize=".toList) := by
    rw [show "-fno-sanitize=".toList = "-f".toList ++ ("no-".toList ++ "sanitize=".toList) from rfl,
      dropPrefix?_append]
    exact congrArg _ (funext fun rest => dropPrefix?_append _ _)
  rw [applySanitizeList, henable, hdisable]
  cases dropPrefix? "-f".toList cur with
  | none => rfl
  | some rest =>
      simp only [Option.bind_some]
      cases hno : dropPrefix? "no-".toList rest with
      | none =>
          simp only [Option.getD_none, Option.isSome_none, Option.bind_none]
          cases dropPrefix? "sanitize=".toList rest with
          | none => rfl
          | some val => rfl
      | some rest' =>
          have hlist : dropPrefix? "sanitize=".toList rest = none := by
            rw [dropPrefix?_eq_some.mp hno, dropPrefix?, if_neg]
            intro hpre
            exact absurd (List.cons_prefix_cons.mp hpre).1 (by decide)
          simp only [Option.getD_some, Option.isSome_some, Option.bind_some, hlist]
          cases dropPrefix? "sanitize=".toList rest' with
          | none => rfl
          | some val => rfl

theorem listedType_eq_some (h : s ≠ .sanNone) {part : CString} :
    listedType part = some s ↔ part = listName s := by
  constructor
  · intro hlisted
    rw [listedType] at hlisted
    split_ifs at hlisted with hpart hpart hpart hpart hpart
    all_goals
      cases hlisted
      exact hpart
  · intro hpart
    rw [hpart]
    cases s with
    | sanNone => exact absurd rfl h
    | _ => decide

/-- A list of sanitizers to enable enables what it names. -/
theorem has_applyList_enable (h : s ≠ .sanNone) {parts : List CString}
    (hlast : sanTy = s → has mask s = true) :
    has (applyList false sanTy mask parts) s = (has mask s || decide (listName s ∈ parts)) := by
  induction parts generalizing sanTy mask with
  | nil => simp [applyList]
  | cons part parts ih =>
      have hstep := @ih ((listedType part).getD sanTy) (set mask ((listedType part).getD sanTy))
        fun heq => by simp [heq]
      rw [applyList, if_neg Bool.false_ne_true, hstep, has_set]
      cases hlisted : listedType part with
      | none =>
          have hne : listName s ≠ part := by
            intro heq
            rw [(listedType_eq_some h).mpr heq.symm] at hlisted
            cases hlisted
          have hsame : (decide (s = sanTy) || has mask s) = has mask s := by
            by_cases heq : s = sanTy
            · simp [heq, ← hlast heq.symm]
            · simp [heq]
          rw [Option.getD_none, hsame]
          simp only [List.mem_cons, hne, false_or]
      | some s' =>
          have hname : listName s = part ↔ s = s' := by
            rw [eq_comm, ← listedType_eq_some h, hlisted, Option.some.injEq, eq_comm]
          rw [Option.getD_some]
          simp only [List.mem_cons, hname, Bool.decide_or]
          cases has mask s <;> simp

/-- A list of sanitizers to disable disables what it names, or all. -/
theorem has_applyList_disable (h : s ≠ .sanNone) {parts : List CString}
    (hlast : sanTy = s ∨ sanTy = .xsan → has mask s = false) :
    has (applyList true sanTy mask parts) s =
      (has mask s && !decide (listName s ∈ parts ∨ listName .xsan ∈ parts)) := by
  induction parts generalizing sanTy mask with
  | nil => simp [applyList]
  | cons part parts ih =>
      have hstep := @ih ((listedType part).getD sanTy) (clear mask ((listedType part).getD sanTy))
        fun heq => by rcases heq with heq | heq <;> simp [heq]
      rw [applyList, if_pos rfl, hstep, has_clear]
      cases hlisted : listedType part with
      | none =>
          have hne : ∀ s, s ≠ .sanNone → listName s ≠ part := by
            intro s hs heq
            rw [(listedType_eq_some hs).mpr heq.symm] at hlisted
            cases hlisted
          have hsame : (decide (sanTy ≠ .xsan) && decide (s ≠ sanTy) && has mask s) =
              has mask s := by
            by_cases heq : sanTy = s ∨ sanTy = .xsan
            · rw [hlast heq, Bool.and_false]
            · rw [not_or] at heq
              simp [heq.2, Ne.symm heq.1]
          have hx := hne .xsan (by decide)
          rw [Option.getD_none, hsame]
          simp only [List.mem_cons, hne s h, hx, false_or]
      | some s' =>
          have hname : ∀ s, s ≠ .sanNone → (listName s = part ↔ s = s') := by
            intro s hs
            rw [eq_comm, ← listedType_eq_some hs, hlisted, Option.some.injEq, eq_comm]
          have hx : listName .xsan = part ↔ s' = .xsan := by rw [hname .xsan (by decide), eq_comm]
          rw [Option.getD_some]
          simp only [List.mem_cons, hname s h, hx]
          by_cases hs : s = s' <;> by_cases hall : s' = .xsan <;> simp [hs, hall]

theorem exists_optionName (h : s ≠ .sanNone) : ∃ opt, typeName s = optionName opt := by
  cases s with
  | sanNone => exact absurd rfl h
  | asan => exact ⟨.asan, rfl⟩
  | tsan => exact ⟨.tsan, rfl⟩
  | msan => exact ⟨.msan, rfl⟩
  | ubsan => exact ⟨.ubsan, rfl⟩
  | xsan => exact ⟨.xsan, rfl⟩

theorem has_applySanitizeList (h : s ∈ sanitizers) (hswitch : ∀ opt, cur ≠ optionName opt) :
    has (applySanitizeList mask cur) s = (mention s cur).getD (has mask s) := by
  have hs : s ≠ .sanNone := by
    rintro rfl
    exact absurd h (by decide)
  have hx : s ≠ .xsan := by
    rintro rfl
    exact absurd h (by decide)
  have hname : ¬(cur = typeName s ∨ cur = optionName .xsan) := by
    obtain ⟨opt, hopt⟩ := exists_optionName hs
    rw [hopt, not_or]
    exact ⟨hswitch opt, hswitch .xsan⟩
  rw [applySanitizeList_eq, mention, if_neg hname]
  cases dropPrefix? "-fsanitize=".toList cur with
  | some val =>
      simp only
      rw [has_applyList_enable hs fun heq => absurd heq.symm hs]
      by_cases hmem : listName s ∈ val.splitOn ',' <;> simp [hmem]
  | none =>
      simp only
      cases dropPrefix? "-fno-sanitize=".toList cur with
      | some val =>
          simp only
          rw [has_applyList_disable hs]
          · by_cases hmem : listName s ∈ val.splitOn ',' ∨ listName .xsan ∈ val.splitOn ',' <;>
              simp [hmem]
          · rintro (heq | heq)
            · exact absurd heq.symm hs
            · cases heq
      | none => rfl

/-- A switch mentions the sanitizer of its name. -/
theorem mention_optionName (h : s ∈ sanitizers) : mention s (optionName opt) =
    if opt = .xsan ∨ getSanitizerType opt = s then some true else none := by
  revert s
  cases opt <;> decide

theorem applySanitizeList_optionName : applySanitizeList mask (optionName opt) = mask := by
  cases opt <;> rfl

theorem filter_optionName :
    (allOptions.filter fun opt' => optionName opt = optionName opt') = [opt] := by
  cases opt <;> decide

/-- An argument is a switch, or leaves the type in force. -/
theorem applyArgument_cases (h : applyArgument contains d cur = .ok d') :
    (∃ opt, cur = optionName opt ∧ applySwitch contains d opt = .ok d') ∨
      (∀ opt, cur ≠ optionName opt) ∧
        d' = { d with actSanitizers := applySanitizeList d.actSanitizers cur } := by
  rw [applyArgument, bind_eq_ok] at h
  obtain ⟨d₁, hswitch, hd'⟩ := h
  cases hd'
  by_cases hopt : ∃ opt, cur = optionName opt
  · obtain ⟨opt, rfl⟩ := hopt
    rw [filter_optionName, List.foldlM_cons, bind_eq_ok] at hswitch
    obtain ⟨d₂, hok, hnil⟩ := hswitch
    cases hnil
    refine Or.inl ⟨opt, rfl, ?_⟩
    rw [hok, applySanitizeList_optionName]
  · rw [not_exists] at hopt
    have hnone : (allOptions.filter fun opt => cur = optionName opt) = [] := by
      rw [List.filter_eq_nil_iff]
      intro opt _
      simpa using hopt opt
    rw [hnone] at hswitch
    cases hswitch
    exact Or.inr ⟨hopt, rfl⟩

/-- An argument other than `-ubsan` does what it mentions. -/
theorem has_applyArgument (h : applyArgument contains d cur = .ok d') (hs : s ∈ sanitizers)
    (hsupport : supportSubsanitizers contains s = true) (hcur : cur ≠ optionName .ubsan) :
    has d'.actSanitizers s = (mention s cur).getD (has d.actSanitizers s) := by
  rcases applyArgument_cases h with ⟨opt, rfl, hswitch⟩ | ⟨hopt, rfl⟩
  · rw [applySwitch_ok hswitch, mention_optionName hs]
    by_cases hx : opt = .xsan
    · simp [hx, hsupport]
    · have hne : getSanitizerType opt ≠ .ubsan := by
        cases opt with
        | ubsan => exact absurd rfl hcur
        | _ => nofun
      rw [if_neg hx, switchedType, if_neg hne, has_set]
      by_cases hsan : getSanitizerType opt = s
      · simp [hsan]
      · simp [hx, hsan, Ne.symm hsan]
  · exact has_applySanitizeList hs hopt

/-- The switch `-ubsan` enables the type that is then in force. -/
theorem has_applyArgument_ubsan (h : applyArgument contains d (optionName .ubsan) = .ok d') :
    has d'.actSanitizers s =
      (decide (s = switchedType d .ubsan) || has d.actSanitizers s) := by
  rcases applyArgument_cases h with ⟨opt, hopt, hswitch⟩ | ⟨hopt, -⟩
  · have heq : opt = .ubsan := by
      cases opt <;> first | rfl | exact absurd hopt (by decide)
    subst heq
    rw [applySwitch_ok hswitch]
    exact has_set
  · exact absurd rfl (hopt .ubsan)

end Argument

/-! ## All arguments -/

section Scan

variable {contains : Contains} {d d' : Detection} {cur : CString} {s : SanitizerType}
  {args args' front mid back : List CString}

theorem scan_snoc : scan contains (args ++ [cur]) = .ok d' ↔
    ∃ d, scan contains args = .ok d ∧ applyArgument contains d cur = .ok d' := by
  rw [scan, List.foldlM_append, bind_eq_ok]
  refine exists_congr fun d => and_congr_right fun _ => ?_
  rw [List.foldlM_cons, bind_eq_ok]
  constructor
  · intro h
    obtain ⟨d'', hd'', hnil⟩ := h
    cases hnil
    exact hd''
  · intro h
    exact ⟨d', h, rfl⟩

theorem lastMention_snoc :
    lastMention s (args ++ [cur]) = (mention s cur).or (lastMention s args) := by
  rw [lastMention, lastMention, List.filterMap_append]
  cases h : mention s cur with
  | none => simp [h]
  | some b => simp [h]

theorem lastMention_append :
    lastMention s (front ++ back) = (lastMention s back).or (lastMention s front) := by
  rw [lastMention, List.filterMap_append, List.getLast?_append]
  rfl

theorem lastMention_eq_none (h : ∀ cur ∈ args, mention s cur = none) :
    lastMention s args = none := by
  rw [lastMention, List.filterMap_eq_nil_iff.mpr h, List.getLast?_nil]

/-- An argument that is not a `-ubsan` switch and does not mention the sanitizer changes nothing. -/
theorem inOrder_snoc (hcur : cur ≠ optionName .ubsan) (hmention : mention s cur = none) :
    SwitchInOrder contains (args ++ [cur]) s ↔ SwitchInOrder contains args s := by
  constructor
  · intro h before after d hargs hscan hany hafter
    refine h before (after ++ [cur]) d (by simp [hargs]) hscan hany ?_
    intro other hother
    rcases List.mem_append.mp hother with hother | hother
    · exact hafter other hother
    · rw [List.mem_singleton.mp hother]
      exact hmention
  · intro h before after d hargs hscan hany hafter
    cases after using List.reverseRecOn with
    | nil =>
        have hlast := (List.append_inj' hargs rfl).2
        rw [List.cons.injEq] at hlast
        exact absurd hlast.1 hcur
    | append_singleton after other _ =>
        rw [← List.cons_append, ← List.append_assoc] at hargs
        have hsame := (List.append_inj' hargs rfl).1
        exact h before after d hsame hscan hany fun cur hcur =>
          hafter cur (List.mem_append_left _ hcur)

theorem inOrder_mention (hcur : cur ≠ optionName .ubsan) (hmention : mention s cur ≠ none) :
    SwitchInOrder contains (args ++ [cur]) s := by
  intro before after d hargs _ _ hafter
  cases after using List.reverseRecOn with
  | nil =>
      have hlast := (List.append_inj' hargs rfl).2
      rw [List.cons.injEq] at hlast
      exact absurd hlast.1 hcur
  | append_singleton after other _ =>
      rw [← List.cons_append, ← List.append_assoc] at hargs
      have hlast := (List.append_inj' hargs rfl).2
      rw [List.cons.injEq] at hlast
      rw [hlast.1] at hmention
      exact absurd (hafter other (by simp)) hmention

/-- What a `-ubsan` switch at the end has to meet. -/
theorem inOrder_ubsan (hscan : scan contains args = .ok d) :
    SwitchInOrder contains (args ++ [optionName .ubsan]) s ↔
      (hasAny d.actSanitizers = true →
        if s = .ubsan then d.xsanTy = .ubsan ∨ has d.actSanitizers .ubsan = true
        else d.xsanTy = s → lastMention s args = some true) ∧
      (mention s (optionName .ubsan) = none → SwitchInOrder contains args s) := by
  constructor
  · intro h
    refine ⟨fun hany => h args [] d rfl hscan hany nofun, ?_⟩
    intro hmention before after d hargs hscan hany hafter
    refine h before (after ++ [optionName .ubsan]) d (by simp [hargs]) hscan hany ?_
    intro other hother
    rcases List.mem_append.mp hother with hother | hother
    · exact hafter other hother
    · rw [List.mem_singleton.mp hother]
      exact hmention
  · intro h before after d' hargs hscan' hany hafter
    cases after using List.reverseRecOn with
    | nil =>
        obtain rfl := (List.append_inj' hargs rfl).1
        rw [hscan] at hscan'
        cases hscan'
        exact h.1 hany
    | append_singleton after other _ =>
        rw [← List.cons_append, ← List.append_assoc] at hargs
        obtain ⟨hsame, hlast⟩ := List.append_inj' hargs rfl
        rw [List.cons.injEq] at hlast
        have hmention := hafter other (by simp)
        rw [← hlast.1] at hmention
        exact h.2 hmention before after d' hsame hscan' hany fun cur hcur =>
          hafter cur (List.mem_append_left _ hcur)

/-- A type whose last mention enables it may be counted for a `-ubsan` switch. -/
theorem inOrder_of_enabled (hs : s ∈ sanitizers) (hubsan : s ≠ .ubsan)
    (h : lastMention s args = some true) : SwitchInOrder contains args s := by
  intro before after d hargs _ _ hafter
  rw [if_neg hubsan]
  intro _
  have hswitch : mention s (optionName .ubsan) = none := by
    rw [mention_optionName hs, if_neg]
    simpa [getSanitizerType] using hubsan.symm
  have hnone : lastMention s (optionName .ubsan :: after) = none :=
    lastMention_eq_none (List.forall_mem_cons.mpr ⟨hswitch, hafter⟩)
  rwa [hargs, lastMention_append, hnone, Option.none_or] at h

theorem switchedType_ubsan_eq (h : s ≠ .ubsan) :
    s = switchedType d .ubsan ↔ hasAny d.actSanitizers = true ∧ d.xsanTy = s := by
  rw [switchedType, if_pos rfl]
  cases hasAny d.actSanitizers with
  | true => simp [eq_comm]
  | false => simp [h]

/-- The last mention decides if and only if the switches are in order. -/
theorem scan_has_iff (hscan : scan contains args = .ok d) (hs : s ∈ sanitizers)
    (hsupport : supportSubsanitizers contains s = true) :
    (has d.actSanitizers s = true ↔ lastMention s args = some true) ↔
      SwitchInOrder contains args s := by
  induction args using List.reverseRecOn generalizing d with
  | nil =>
      cases hscan
      have hempty : SwitchInOrder contains [] s := by
        intro before after d hargs
        simp at hargs
      rw [has_zero]
      simp [lastMention, hempty]
  | append_singleton args cur ih =>
      obtain ⟨d₀, hscan₀, happly⟩ := scan_snoc.mp hscan
      have ih₀ := ih hscan₀
      rw [lastMention_snoc]
      by_cases hcur : cur = optionName .ubsan
      · subst hcur
        rw [inOrder_ubsan hscan₀, has_applyArgument_ubsan happly, mention_optionName hs]
        by_cases hubsan : s = .ubsan
        · subst hubsan
          rw [switchedType, if_pos rfl]
          cases hasAny d₀.actSanitizers with
          | false => simp [getSanitizerType]
          | true => simp [getSanitizerType, @eq_comm _ SanitizerType.ubsan d₀.xsanTy]
        · have hne : ¬(SanitizerOption.ubsan = .xsan ∨ getSanitizerType .ubsan = s) := by
            simpa [getSanitizerType] using Ne.symm hubsan
          have henabled := @inOrder_of_enabled contains s args hs hubsan
          rw [if_neg hne, if_neg hubsan, Option.none_or, Bool.or_eq_true, decide_eq_true_eq,
            switchedType_ubsan_eq hubsan]
          by_cases hforce : hasAny d₀.actSanitizers = true ∧ d₀.xsanTy = s
          · simp only [hforce, and_self, true_or, true_iff, forall_const]
            exact ⟨fun hlast => ⟨hlast, henabled hlast⟩, And.left⟩
          · have hfree : hasAny d₀.actSanitizers = true → d₀.xsanTy = s →
                lastMention s args = some true :=
              fun hany hsame => absurd ⟨hany, hsame⟩ hforce
            rw [or_iff_right hforce, ih₀]
            exact ⟨fun hin => ⟨hfree, fun _ => hin⟩, fun hboth => hboth.2 rfl⟩
      · rw [has_applyArgument happly hs hsupport hcur]
        cases hmention : mention s cur with
        | none => simpa [inOrder_snoc hcur hmention] using ih₀
        | some b =>
            have hin : SwitchInOrder contains (args ++ [cur]) s :=
              inOrder_mention hcur (by simp [hmention])
            simp [hin]

/-- The loop decides about the four sanitizers; what follows it may add XSan. -/
theorem has_settle (hs : s ∈ sanitizers) :
    has (settle d).actSanitizers s = has d.actSanitizers s := by
  have hx : s ≠ .xsan := by
    rintro rfl
    exact absurd hs (by decide)
  simp only [settle]
  split_ifs <;> simp [hx]

theorem lastMention_of_onlyEnables (h : OnlyEnables args) (hs : s ∈ sanitizers) :
    lastMention s args = if ∃ cur ∈ args, mention s cur = some true then some true else none := by
  induction args using List.reverseRecOn with
  | nil => simp [lastMention]
  | append_singleton args cur ih =>
      have hargs : OnlyEnables args := fun other hother => h other (List.mem_append_left _ hother)
      have hcur := h cur (by simp) s hs
      rw [lastMention_snoc, ih hargs]
      cases hmention : mention s cur with
      | none =>
          have hiff : (∃ other ∈ args ++ [cur], mention s other = some true) ↔
              ∃ other ∈ args, mention s other = some true := by
            simp [or_and_right, exists_or, hmention]
          simp only [hiff, Option.none_or]
      | some b =>
          cases b with
          | false => exact absurd hmention hcur
          | true =>
              rw [Option.some_or, if_pos]
              exact ⟨cur, by simp, hmention⟩

theorem lastMention_reordered {argv argv' : List CString} (h : Reordered argv argv')
    (hs : s ∈ sanitizers) : lastMention s argv'.tail = lastMention s argv.tail := by
  obtain ⟨front, mid, mid', back, htail, htail', honly, hperm⟩ := h
  have honly' : OnlyEnables mid' := fun cur hcur => honly cur (hperm.mem_iff.mpr hcur)
  have hmid : lastMention s mid' = lastMention s mid := by
    rw [lastMention_of_onlyEnables honly hs, lastMention_of_onlyEnables honly' hs]
    simp only [hperm.mem_iff]
  rw [htail, htail', lastMention_append, lastMention_append, lastMention_append,
    lastMention_append, hmid]

theorem lastMentionWins_of_detect {argv : List CString} (h : detectSanType contains argv = .ok d) :
    LastMentionWins contains argv d ↔ UbsanInOrder contains argv := by
  obtain ⟨d₀, hscan, hsettle⟩ := bind_eq_ok.mp h
  cases hsettle
  refine forall_congr' fun s => forall_congr' fun hs => forall_congr' fun hsupport => ?_
  rw [has_settle hs]
  exact scan_has_iff hscan hs hsupport

end Scan

/-- On every argument vector on which the wrapper does not stop, the last mentions win if and only
if no `-ubsan` switch goes astray, and the order of enabling arguments makes no difference either if
and only if this holds of all their orders. -/
theorem lastMentionWins_iff (contains : Contains) (argv : List CString) (d : Detection)
    (h : detectSanType contains argv = .ok d) :
    (LastMentionWins contains argv d ↔ UbsanInOrder contains argv) ∧
      (LastMentionWins contains argv d ∧ OrderIrrelevant contains argv d ↔
        ∀ argv' d', Reordered argv argv' → detectSanType contains argv' = .ok d' →
          UbsanInOrder contains argv') := by
  have hwins := lastMentionWins_of_detect h
  have hself : Reordered argv argv := ⟨argv.tail, [], [], [], by simp, by simp, nofun, .nil⟩
  refine ⟨hwins, ?_⟩
  constructor
  · intro hboth argv' d' hreordered h'
    rw [← lastMentionWins_of_detect h']
    intro s hs hsupport
    rw [hboth.2 argv' d' hreordered h' s hs hsupport, lastMention_reordered hreordered hs]
    exact hboth.1 s hs hsupport
  · intro hall
    have hlast := hwins.mpr (hall argv d hself h)
    refine ⟨hlast, ?_⟩
    intro argv' d' hreordered h' s hs hsupport
    have hlast' := (lastMentionWins_of_detect h').mpr (hall argv' d' hreordered h') s hs hsupport
    rw [lastMention_reordered hreordered hs] at hlast'
    rw [Bool.eq_iff_iff]
    exact hlast'.trans (hlast s hs hsupport).symm

/-! ## A switch that goes astray -/

/-- `cc -asan -ubsan`. -/
def ubsanLast : List CString := ["cc".toList, "-asan".toList, "-ubsan".toList]

def ubsanFirst : List CString := ["cc".toList, "-ubsan".toList, "-asan".toList]

/-- UBSan is not enabled, but it is in the other order. -/
theorem ubsanLast_lost : detectSanType everySanitizer ubsanLast = .ok ⟨.asan, 2⟩ ∧
    ¬LastMentionWins everySanitizer ubsanLast ⟨.asan, 2⟩ ∧
    ¬OrderIrrelevant everySanitizer ubsanLast ⟨.asan, 2⟩ := by
  refine ⟨by decide, ?_, ?_⟩
  · intro h
    exact absurd ((h .ubsan (by decide) rfl).mpr (by decide)) (by decide)
  · intro h
    have hperm : Reordered ubsanLast ubsanFirst :=
      ⟨[], ubsanLast.tail, ubsanFirst.tail, [], rfl, rfl, by unfold OnlyEnables; decide,
        List.Perm.swap _ _ _⟩
    exact absurd (h ubsanFirst ⟨.asan, 18⟩ hperm (by decide) .ubsan (by decide) rfl) (by decide)

theorem lastMentionWins_iff_ubsanFirst :
    LastMentionWins everySanitizer ubsanFirst ⟨.asan, 18⟩ ↔
      UbsanInOrder everySanitizer ubsanFirst :=
  (lastMentionWins_iff everySanitizer ubsanFirst ⟨.asan, 18⟩ (by decide)).1

end Mair.Compiler
