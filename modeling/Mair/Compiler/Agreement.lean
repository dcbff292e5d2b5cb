import Mathlib.Tactic.FinCases
import Mair.Compiler.Options

/-! # When the wrapper and the live patch agree

The arguments are a sequence of requests. What they leave enabled and which switch they leave
in force decides whether the mask alone tells the live patch what the wrapper has chosen. -/

namespace Mair.Compiler

/-! ## Requests -/

inductive Request where
  | switch (opt : SanitizerOption)
  | enable (sanTy : SanitizerType)
  | disable (sanTy : SanitizerType)

def listRequests (isNeg : Bool) : SanitizerType → List CString → List Request
  | _, [] => []
  | sanTy, part :: parts =>
      let sanTy := (listedType part).getD sanTy
      (if isNeg then .disable sanTy else .enable sanTy) :: listRequests isNeg sanTy parts

def sanitizeRequests (cur : CString) : List Request :=
  match dropPrefix? "-f".toList cur with
  | none => []
  | some cur =>
      match dropPrefix? "sanitize=".toList ((dropPrefix? "no-".toList cur).getD cur) with
      | none => []
      | some val =>
          listRequests (dropPrefix? "no-".toList cur).isSome .sanNone (val.splitOn ',')

def argumentRequests (cur : CString) : List Request :=
  (allOptions.filter fun opt => cur = optionName opt).map .switch ++ sanitizeRequests cur

/-- What the arguments ask for, in order. -/
def requests (argv : List CString) : List Request := argv.tail.flatMap argumentRequests

/-! ## The condition on the requests

The requests are read from the last one backwards. -/

mutual

/-- The type is left enabled. -/
def enabled (contains : Contains) : List Request → SanitizerType → Bool
  | [], _ => false
  | .enable s :: earlier, sanTy => sanTy = s || enabled contains earlier sanTy
  | .disable s :: earlier, sanTy => s ≠ .xsan && sanTy ≠ s && enabled contains earlier sanTy
  | .switch .xsan :: earlier, sanTy =>
      supportSubsanitizers contains sanTy || enabled contains earlier sanTy
  | .switch .ubsan :: earlier, sanTy =>
      sanTy = (if [SanitizerType.asan, .tsan, .msan, .ubsan].any (enabled contains earlier) then
        chosen contains earlier else .ubsan) || enabled contains earlier sanTy
  | .switch opt :: earlier, sanTy =>
      sanTy = getSanitizerType opt || enabled contains earlier sanTy

/-- The switch that is left in force; `-ubsan` yields to anything that is enabled. -/
def chosen (contains : Contains) : List Request → SanitizerType
  | [] => .sanNone
  | .enable _ :: earlier => chosen contains earlier
  | .disable _ :: earlier => chosen contains earlier
  | .switch .ubsan :: earlier =>
      if [SanitizerType.asan, .tsan, .msan, .ubsan].any (enabled contains earlier) then
        chosen contains earlier else .ubsan
  | .switch opt :: _ => getSanitizerType opt

end

/-- How many of ASan, TSan and MSan are enabled. -/
def tools (on : SanitizerType → Bool) : ℕ := [SanitizerType.asan, .tsan, .msan].countP on

/-- With an XSan switch in force, XSan is still enabled; without a switch, XSan is enabled
only together with a tool; with another switch, XSan is not enabled, nor are two tools, nor a
tool beside standalone UBSan. -/
def Coherent (xsanTy : SanitizerType) (on : SanitizerType → Bool) : Bool :=
  match xsanTy with
  | .xsan => on .xsan
  | .sanNone => !on .xsan || tools on ≠ 0
  | .ubsan => !on .xsan && tools on ≤ 1 && (!on .ubsan || tools on = 0)
  | _ => !on .xsan && tools on ≤ 1

/-- The live patch reads what the wrapper has chosen, both use the same combination name, and
several tools are enabled only under XSan. -/
structure Agrees (d : Detection) : Prop where
  sanType : getSanType (exportedMask d) = d.xsanTy
  combName : Livepatch.getXsanCombName (exportedMask d) (d.actSanitizers.setWidth 6) =
    Wrapper.getXsanCombName d.actSanitizers
  combined : 2 ≤ tools (has d.actSanitizers) → d.xsanTy = .xsan

/-! ## Masks bit by bit -/

section Masks

variable {mask : Mask} {sanTy s : SanitizerType} {contains : Contains}

theorem index_lt (s : SanitizerType) : s.index < 6 := by
  cases s <;> decide

theorem index_inj : sanTy.index = s.index ↔ sanTy = s := by
  cases sanTy <;> cases s <;> decide

theorem has_eq (mask : Mask) (s : SanitizerType) : has mask s = mask.getLsbD s.index := by
  have hne : BitVec.twoPow 64 s.index ≠ 0#64 := by
    cases s <;> decide
  rw [has, bit, BitVec.and_twoPow]
  cases h : mask.getLsbD s.index with
  | true => simpa using hne
  | false => simp

theorem getLsbD_bit (i : ℕ) : (bit s).getLsbD i = decide (s.index = i) := by
  have hlt := index_lt s
  rw [bit, BitVec.getLsbD_twoPow]
  by_cases heq : s.index = i
  · have hi : i < 64 := by omega
    simp [heq, hi]
  · simp [heq]

@[simp] theorem has_set : has (set mask s) sanTy = (decide (sanTy = s) || has mask sanTy) := by
  rw [has_eq, has_eq, set, BitVec.getLsbD_or, getLsbD_bit, Bool.or_comm]
  simp only [index_inj, eq_comm]

@[simp] theorem has_or_bit :
    has (mask ||| bit s) sanTy = (decide (sanTy = s) || has mask sanTy) := has_set

@[simp] theorem has_clear :
    has (clear mask s) sanTy = (decide (s ≠ .xsan) && decide (sanTy ≠ s) && has mask sanTy) := by
  have hlt := index_lt sanTy
  rw [has_eq, has_eq, clear, BitVec.getLsbD_and]
  by_cases hx : s = .xsan
  · simp [hx]
  · have hi : sanTy.index < 64 := by omega
    rw [if_neg hx, BitVec.getLsbD_not, getLsbD_bit, Bool.and_comm]
    simp [hx, hi, index_inj, eq_comm]

@[simp] theorem has_setAll :
    has (setAll contains mask) sanTy =
      (supportSubsanitizers contains sanTy || has mask sanTy) := by
  obtain ⟨a, t, m, u⟩ := contains
  cases a <;> cases t <;> cases m <;> cases u <;> cases sanTy <;>
    simp [setAll, supportSubsanitizers]

/-- Only the bits of the types are in use. -/
def Low (mask : Mask) : Prop := ∀ i, 6 ≤ i → mask.getLsbD i = false

theorem low_zero : Low 0 := by
  intro i _
  simp

theorem Low.set (h : Low mask) (s : SanitizerType) : Low (set mask s) := by
  intro i hi
  have hlt := index_lt s
  have hne : s.index ≠ i := by omega
  rw [Compiler.set, BitVec.getLsbD_or, h i hi, getLsbD_bit]
  simp [hne]

theorem Low.clear (h : Low mask) (s : SanitizerType) : Low (clear mask s) := by
  intro i hi
  rw [Compiler.clear, BitVec.getLsbD_and, h i hi, Bool.false_and]

theorem Low.set_if (h : Low mask) (c : Bool) (s : SanitizerType) :
    Low (if c then Compiler.set mask s else mask) := by
  cases c with
  | true => exact h.set s
  | false => exact h

theorem Low.setAll (h : Low mask) (contains : Contains) : Low (setAll contains mask) :=
  ((((h.set_if contains.ubsan .ubsan).set_if contains.tsan .tsan).set_if contains.msan
    .msan).set_if contains.asan .asan).set .xsan

theorem has_zero (s : SanitizerType) : has 0 s = false := by
  rw [has_eq]
  simp

theorem hasAny_eq (h : Low mask) :
    hasAny mask = [SanitizerType.asan, .tsan, .msan, .ubsan].any (has mask) := by
  have hbit : ∀ i, (mask &&& ~~~(bit .xsan ||| bit .sanNone)).getLsbD i =
      (mask.getLsbD i && decide (i < 64) && decide (i ≠ 5) && decide (i ≠ 0)) := by
    intro i
    rw [BitVec.getLsbD_and, BitVec.getLsbD_not, BitVec.getLsbD_or, getLsbD_bit, getLsbD_bit]
    simp [SanitizerType.index, eq_comm, Bool.and_assoc]
  rw [hasAny, Bool.eq_iff_iff, decide_eq_true_iff, List.any_eq_true]
  constructor
  · intro hne
    by_contra hnone
    apply hne
    apply BitVec.eq_of_getLsbD_eq
    intro i hi
    rw [hbit]
    have hoff : ∀ s ∈ [SanitizerType.asan, .tsan, .msan, .ubsan],
        mask.getLsbD s.index = false := by
      intro s hs
      by_contra hon
      exact hnone ⟨s, hs, by simpa [has_eq] using hon⟩
    have hclear : mask.getLsbD i = false ∨ i = 5 ∨ i = 0 := by
      by_cases hlow : 6 ≤ i
      · exact Or.inl (h i hlow)
      · have hcases : i = 0 ∨ i = 1 ∨ i = 2 ∨ i = 3 ∨ i = 4 ∨ i = 5 := by omega
        rcases hcases with rfl | rfl | rfl | rfl | rfl | rfl
        · exact Or.inr (Or.inr rfl)
        · exact Or.inl (hoff .asan (by decide))
        · exact Or.inl (hoff .tsan (by decide))
        · exact Or.inl (hoff .msan (by decide))
        · exact Or.inl (hoff .ubsan (by decide))
        · exact Or.inr (Or.inl rfl)
    rcases hclear with hclear | rfl | rfl
    · simp [hclear]
    · simp
    · simp
  · intro h hzero
    obtain ⟨s, hs, hon⟩ := h
    have hindex : s.index < 64 ∧ s.index ≠ 5 ∧ s.index ≠ 0 := by
      fin_cases hs <;> decide
    have hs' := hbit s.index
    rw [has_eq] at hon
    have hoff : (0 : Mask).getLsbD s.index = false := by simp
    rw [hzero, hon, hoff] at hs'
    simp [hindex] at hs'

end Masks

/-! ## What the arguments leave behind -/

section Arguments

variable {contains : Contains} {d d' : Detection} {cur : CString} {argv : List CString}

def applyRequest (contains : Contains) (d : Detection) : Request → Except CString Detection
  | .switch opt => applySwitch contains d opt
  | .enable sanTy => .ok { d with actSanitizers := set d.actSanitizers sanTy }
  | .disable sanTy => .ok { d with actSanitizers := clear d.actSanitizers sanTy }

theorem foldlM_listRequests (isNeg : Bool) (sanTy : SanitizerType) (parts : List CString) :
    (listRequests isNeg sanTy parts).foldlM (applyRequest contains) d =
      .ok { d with actSanitizers := applyList isNeg sanTy d.actSanitizers parts } := by
  induction parts generalizing sanTy d with
  | nil => rfl
  | cons part parts ih =>
      cases isNeg with
      | true => exact ih _
      | false => exact ih _

theorem foldlM_sanitizeRequests :
    (sanitizeRequests cur).foldlM (applyRequest contains) d =
      .ok { d with actSanitizers := applySanitizeList d.actSanitizers cur } := by
  unfold sanitizeRequests applySanitizeList
  cases dropPrefix? "-f".toList cur with
  | none => rfl
  | some cur =>
      simp only
      cases dropPrefix? "sanitize=".toList ((dropPrefix? "no-".toList cur).getD cur) with
      | none => rfl
      | some val => exact foldlM_listRequests _ _ _

theorem applyArgument_eq :
    applyArgument contains d cur = (argumentRequests cur).foldlM (applyRequest contains) d := by
  rw [applyArgument, argumentRequests, List.foldlM_append, List.foldlM_map]
  simp only [foldlM_sanitizeRequests]
  rfl

theorem foldlM_requests (args : List CString) :
    args.foldlM (applyArgument contains) d =
      (args.flatMap argumentRequests).foldlM (applyRequest contains) d := by
  induction args generalizing d with
  | nil => rfl
  | cons cur args ih =>
      rw [List.flatMap_cons, List.foldlM_append, List.foldlM_cons, applyArgument_eq]
      simp only [ih]

/-- The local variable and the mask are what the requests say. -/
structure Left (contains : Contains) (rs : List Request) (d : Detection) : Prop where
  xsanTy : d.xsanTy = chosen contains rs
  has_eq : ∀ s, has d.actSanitizers s = enabled contains rs s
  low : Low d.actSanitizers

theorem applySwitch_ok {opt : SanitizerOption} (h : applySwitch contains d opt = .ok d') :
    d' = ⟨switchedType d (getSanitizerType opt), if opt = .xsan then setAll contains d.actSanitizers
      else set d.actSanitizers (switchedType d (getSanitizerType opt))⟩ := by
  simp only [applySwitch] at h
  split at h
  · cases h
  · split at h
    · cases h
    · split at h
      · next hopt =>
          cases h
          rw [if_pos hopt]
      · next hopt =>
          cases h
          rw [if_neg hopt]

theorem switched_eq {rs : List Request} (h : Left contains rs d) (opt : SanitizerOption) :
    switchedType d (getSanitizerType opt) = chosen contains (.switch opt :: rs) := by
  have hany : hasAny d.actSanitizers =
      [SanitizerType.asan, .tsan, .msan, .ubsan].any (enabled contains rs) := by
    rw [hasAny_eq h.low, funext h.has_eq]
  cases opt with
  | ubsan =>
      rw [getSanitizerType, switchedType, if_pos rfl, hany, h.xsanTy, chosen]
      cases [SanitizerType.asan, .tsan, .msan, .ubsan].any (enabled contains rs) <;> rfl
  | _ => rfl

theorem applyRequest_left {rs : List Request} {r : Request} (h : Left contains rs d)
    (hr : applyRequest contains d r = .ok d') : Left contains (r :: rs) d' := by
  cases r with
  | enable s =>
      cases hr
      refine ⟨h.xsanTy, ?_, h.low.set s⟩
      intro sanTy
      rw [has_set, h.has_eq, enabled]
  | disable s =>
      cases hr
      refine ⟨h.xsanTy, ?_, h.low.clear s⟩
      intro sanTy
      rw [has_clear, h.has_eq, enabled]
  | switch opt =>
      rw [applySwitch_ok hr, switched_eq h]
      cases opt with
      | xsan =>
          refine ⟨rfl, ?_, h.low.setAll contains⟩
          intro sanTy
          rw [if_pos rfl, has_setAll, h.has_eq, enabled]
      | _ =>
          refine ⟨rfl, ?_, h.low.set _⟩
          intro sanTy
          rw [if_neg (by decide), has_set, h.has_eq]
          rfl

theorem scan_left (rs : List Request)
    (h : rs.foldlM (applyRequest contains) ⟨.sanNone, 0⟩ = .ok d) :
    Left contains rs.reverse d := by
  induction rs using List.reverseRecOn generalizing d with
  | nil =>
      cases h
      exact ⟨rfl, has_zero, low_zero⟩
  | append_singleton rs r ih =>
      rw [List.foldlM_append, bind_eq_ok] at h
      obtain ⟨d', hd', hr⟩ := h
      rw [List.reverse_append]
      refine applyRequest_left (ih hd') ?_
      obtain ⟨d'', hd'', hok⟩ := bind_eq_ok.mp hr
      cases hok
      exact hd''

end Arguments

/-! ## Agreement -/

section Agreement

variable {mask : Mask} {sanTy s : SanitizerType} {d : Detection}

theorem getLsbD_xsanMask : (getXsanMask (some mask)).getLsbD s.index = has mask s := by
  rw [has_eq, getXsanMask, Option.getD_some, BitVec.getLsbD_setWidth]
  simp [index_lt]

theorem getSanType_some : getSanType (some mask) =
    if has mask .xsan then .xsan else if has mask .asan then .asan else if has mask .tsan then .tsan
    else if has mask .msan then .msan else if has mask .ubsan then .ubsan else .sanNone := by
  simp only [getSanType, List.find?_cons, List.find?_nil, getLsbD_xsanMask]
  cases has mask .xsan <;> cases has mask .asan <;> cases has mask .tsan <;>
    cases has mask .msan <;> cases has mask .ubsan <;> rfl

theorem getSanType_none : getSanType none = .sanNone := by decide

theorem getSanType_eq_xsan : getSanType (some mask) = .xsan ↔ has mask .xsan = true := by
  rw [getSanType_some]
  cases has mask .xsan <;> cases has mask .asan <;> cases has mask .tsan <;>
    cases has mask .msan <;> cases has mask .ubsan <;> decide

/-- The live patch's name is the wrapper's if both decide for XSan. -/
theorem combName_some :
    Livepatch.getXsanCombName (some mask) (mask.setWidth 6) = Wrapper.getXsanCombName mask := by
  have hbit : ∀ s : SanitizerType, (mask.setWidth 6).getLsbD s.index = has mask s := fun s =>
    getLsbD_xsanMask
  simp only [Livepatch.getXsanCombName, Wrapper.getXsanCombName, hbit, getSanType_eq_xsan]
  cases has mask .xsan <;> rfl

theorem combName_none : Livepatch.getXsanCombName none (mask.setWidth 6) =
    Wrapper.getXsanCombName mask ↔ has mask .xsan = false := by
  rw [Livepatch.getXsanCombName, getSanType_none, if_neg (by decide), Wrapper.getXsanCombName]
  cases has mask .xsan with
  | false => simp
  | true => simp [combination]

theorem agrees_some (h : sanTy ≠ .sanNone) : Agrees ⟨sanTy, mask⟩ ↔
    getSanType (some mask) = sanTy ∧ (2 ≤ tools (has mask) → sanTy = .xsan) := by
  have hexport : exportedMask ⟨sanTy, mask⟩ = some mask := if_neg h
  constructor
  · intro hagrees
    have htype := hagrees.sanType
    rw [hexport] at htype
    exact ⟨htype, hagrees.combined⟩
  · intro hboth
    refine ⟨?_, ?_, hboth.2⟩
    · rw [hexport]
      exact hboth.1
    · rw [hexport]
      exact combName_some

theorem agrees_none : Agrees ⟨.sanNone, mask⟩ ↔
    has mask .xsan = false ∧ tools (has mask) ≤ 1 := by
  have hexport : exportedMask ⟨.sanNone, mask⟩ = none := rfl
  constructor
  · intro hagrees
    have hname := hagrees.combName
    rw [hexport] at hname
    refine ⟨combName_none.mp hname, ?_⟩
    by_contra hmany
    have hxsan := hagrees.combined (Nat.lt_of_not_le hmany)
    cases hxsan
  · intro hboth
    refine ⟨?_, ?_, ?_⟩
    · rw [hexport, getSanType_none]
    · rw [hexport]
      exact combName_none.mpr hboth.1
    · intro hmany
      exact absurd hmany (Nat.not_le.mpr (Nat.lt_succ_of_le hboth.2))

theorem tools_eq (on : SanitizerType → Bool) :
    tools on = (on .asan).toNat + (on .tsan).toNat + (on .msan).toNat := by
  simp only [tools, List.countP_cons, List.countP_nil]
  cases on .asan <;> cases on .tsan <;> cases on .msan <;> rfl

/-- A conflict is a tool beside XSan or beside another tool. -/
theorem hasConflict_eq : hasConflict mask =
    (has mask .asan && (has mask .xsan || has mask .tsan || has mask .msan) ||
      has mask .tsan && (has mask .xsan || has mask .asan || has mask .msan) ||
      has mask .msan && (has mask .xsan || has mask .asan || has mask .tsan)) := by
  simp [hasConflict, incompatibleSanTypes, Bool.or_assoc]

/-- A type of its own stays in force as long as it is in the mask. -/
theorem settle_of_single (h : sanTy ≠ .xsan) (h' : sanTy ≠ .sanNone) :
    settle ⟨sanTy, mask⟩ = ⟨if has mask sanTy then sanTy else .sanNone, mask⟩ := by
  rw [settle]
  simp only [if_neg h']
  cases has mask sanTy <;> simp [h]

/-- Agreement depends on what was left before XSan is enabled automatically. -/
theorem settle_agrees (d : Detection) :
    Agrees (settle d) ↔ Coherent d.xsanTy (has d.actSanitizers) = true := by
  obtain ⟨sanTy, mask⟩ := d
  have hsingle : sanTy ≠ .xsan → sanTy ≠ .sanNone →
      (Agrees (settle ⟨sanTy, mask⟩) ↔ if has mask sanTy then
        getSanType (some mask) = sanTy ∧ tools (has mask) ≤ 1
      else has mask .xsan = false ∧ tools (has mask) ≤ 1) := by
    intro hxsan hnone
    rw [settle_of_single hxsan hnone]
    cases has mask sanTy with
    | true =>
        simp only [if_true]
        rw [agrees_some hnone]
        refine and_congr_right fun _ => ?_
        constructor
        · intro hmany
          by_contra hle
          exact hxsan (hmany (Nat.lt_of_not_le hle))
        · intro hfew hmany
          exact absurd hmany (Nat.not_le.mpr (Nat.lt_succ_of_le hfew))
    | false =>
        simp only [Bool.false_eq_true, if_false]
        exact agrees_none
  cases sanTy with
  | xsan =>
      have hsettle : settle ⟨.xsan, mask⟩ = ⟨.xsan, mask⟩ := by simp [settle]
      rw [hsettle, agrees_some (by decide), getSanType_eq_xsan]
      simp [Coherent]
  | sanNone =>
      cases hc : hasConflict mask with
      | true =>
          have hsettle : settle ⟨.sanNone, mask⟩ = ⟨.xsan, mask ||| bit .xsan⟩ := by
            simp [settle, hc]
          have hagrees : Agrees ⟨.xsan, mask ||| bit .xsan⟩ :=
            (agrees_some (by decide)).mpr ⟨getSanType_eq_xsan.mpr (by simp), fun _ => rfl⟩
          rw [hsettle]
          refine iff_of_true hagrees ?_
          rw [hasConflict_eq] at hc
          simp only [Coherent, tools_eq]
          revert hc
          cases has mask .xsan <;> cases has mask .asan <;> cases has mask .tsan <;>
            cases has mask .msan <;> decide
      | false =>
          have hsettle : settle ⟨.sanNone, mask⟩ = ⟨.sanNone, mask⟩ := by
            simp only [settle, hc]
            cases has mask .sanNone <;> simp
          rw [hsettle, agrees_none]
          rw [hasConflict_eq] at hc
          simp only [Coherent, tools_eq]
          revert hc
          cases has mask .xsan <;> cases has mask .asan <;> cases has mask .tsan <;>
            cases has mask .msan <;> decide
  | _ =>
      rw [hsingle (by decide) (by decide), getSanType_some]
      simp only [Coherent, tools_eq]
      cases has mask .xsan <;> cases has mask .asan <;> cases has mask .tsan <;>
        cases has mask .msan <;> cases has mask .ubsan <;> decide

end Agreement

/-- On every argument vector on which the wrapper does not stop, the wrapper and the live
patch agree if and only if the switch that is left in force matches what is left enabled. -/
theorem detect_agrees_iff (contains : Contains) (argv : List CString) (d : Detection)
    (h : detectSanType contains argv = .ok d) :
    Agrees d ↔ Coherent (chosen contains (requests argv).reverse)
      (enabled contains (requests argv).reverse) = true := by
  obtain ⟨d', hscan, hsettle⟩ := bind_eq_ok.mp h
  rw [foldlM_requests] at hscan
  have hleft := scan_left _ hscan
  cases hsettle
  rw [settle_agrees, hleft.xsanTy, funext hleft.has_eq]
  rfl

/-! ## A switch beside a list -/

def everySanitizer : Contains := ⟨true, true, true, true⟩

/-- `cc -tsan -fsanitize=address`. -/
def switchBesideList : List CString :=
  ["cc".toList, "-tsan".toList, "-fsanitize=address".toList]

/-- The wrapper chooses TSan, and the live patch reads ASan. -/
theorem switchBesideList_disagrees :
    ∃ d, detectSanType everySanitizer switchBesideList = .ok d ∧ d.xsanTy = .tsan ∧
      getSanType (exportedMask d) = .asan ∧ ¬Agrees d := by
  refine ⟨⟨.tsan, 6⟩, by decide, rfl, by decide, ?_⟩
  intro h
  exact absurd h.sanType (by decide)

theorem detect_agrees_iff_switchBesideList :
    Agrees ⟨.tsan, 6⟩ ↔
      Coherent (chosen everySanitizer (requests switchBesideList).reverse)
        (enabled everySanitizer (requests switchBesideList).reverse) = true :=
  detect_agrees_iff everySanitizer switchBesideList ⟨.tsan, 6⟩ (by decide)

end Mair.Compiler
