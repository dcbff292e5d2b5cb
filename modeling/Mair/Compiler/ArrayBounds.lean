import Mathlib.Algebra.Group.Nat.Even
import Mair.Compiler.EditParams

/-! # Inside the two arrays

How many entries each argument stands for, and when `edit_params` reads and writes inside its
arrays. -/

namespace Mair.Compiler

/-! ## The entries of an argument -/

/-- `-fsanitize-<option>` and `-fno-sanitize-<option>`. -/
def sanitizeOption (cur : CString) : Option (CString × Bool) :=
  if !optMatch cur "-f".toList then none
  else
    let isNeg := optMatch (cur.drop 2) "no-".toList
    let arg := if isNeg then cur.drop 5 else cur.drop 2
    if !optMatch arg "sanitize-".toList then none else some (arg.drop 9, isNeg)

def isRemoved (cur : CString) : Bool :=
  isDropped cur || cur = "-lib-only".toList || allOptions.any fun opt => cur = optionName opt

/-- The operands of `-mllvm` are not options of the driver. -/
def pendingOption (prev cur : CString) : Option (CString × Bool) :=
  if isRemoved cur || prev = "-mllvm".toList then none else sanitizeOption cur

/-- The options that are kept bring two entries more, the one that is replaced one entry more. -/
def asanGrowth (arg : CString) : ℕ :=
  if !optMatch arg "address-".toList then 0
  else
    let arg := arg.drop 8
    if arg = "globals-dead-stripping".toList then 0
    else if arg = "poison-custom-array-cookie".toList then 0
    else if optMatch arg "use-after-return=".toList then 2
    else if arg = "use-after-scope".toList then 2
    else if arg = "use-odr-indicator".toList then 2
    else if optMatch arg "destructor=".toList then 2
    else if arg = "outline-instrumentation".toList then 1
    else 0

def tsanGrowth (arg : CString) (isNeg : Bool) : ℕ :=
  if !optMatch arg "thread-".toList then 0
  else
    let arg := arg.drop 7
    if arg = "atomics".toList then if !isNeg then 0 else 1
    else if arg = "func-entry-exit".toList then if !isNeg then 0 else 1
    else if arg = "memory-access".toList then if !isNeg then 0 else 3
    else 0

def msanGrowth (arg : CString) : ℕ :=
  if !optMatch arg "memory-".toList then 0
  else
    let arg := arg.drop 7
    if arg = "track-origins".toList then 1
    else if optMatch arg "track-origins=".toList then 1
    else if arg = "param-retval".toList then 1
    else 0

def growth (sanTy : SanitizerType) (arg : CString) (isNeg : Bool) : ℕ :=
  match sanTy with
  | .asan => asanGrowth arg
  | .tsan => tsanGrowth arg isNeg
  | .msan => msanGrowth arg
  | .xsan => asanGrowth arg + tsanGrowth arg isNeg + msanGrowth arg
  | .ubsan => 0
  | .sanNone => 0

def argumentEntries (sanTy : SanitizerType) (prev cur : CString) : ℕ :=
  if isRemoved cur then 0
  else
    match pendingOption prev cur with
    | some (arg, isNeg) => 1 + growth sanTy arg isNeg
    | none => 1

/-- The arguments, when no assembler source is among them. -/
def forwardedEntries (sanTy : SanitizerType) : CString → List CString → ℕ
  | _, [] => 0
  | prev, cur :: rest => argumentEntries sanTy prev cur + forwardedEntries sanTy cur rest

/-! ## The options about recovery and dead globals -/

def argumentRecover (contains : Contains) (mask : Mask) (prev cur : CString) : Mask :=
  match pendingOption prev cur with
  | some (arg, isNeg) =>
      if optMatch arg "recover=".toList then recover contains mask isNeg (arg.drop 8) else mask
  | none => mask

def recoverAfter (contains : Contains) : Mask → CString → List CString → Mask
  | mask, _, [] => mask
  | mask, prev, cur :: rest =>
      recoverAfter contains (argumentRecover contains mask prev cur) cur rest

def optionStripping (arg : CString) (isNeg stripping : Bool) : Bool :=
  if optMatch arg "address-".toList ∧ arg.drop 8 = "globals-dead-stripping".toList then !isNeg
  else stripping

def argumentStripping (sanTy : SanitizerType) (stripping : Bool) (prev cur : CString) : Bool :=
  match pendingOption prev cur with
  | some (arg, isNeg) =>
      if sanTy = .asan ∨ sanTy = .xsan then optionStripping arg isNeg stripping else stripping
  | none => stripping

def strippingAfter (sanTy : SanitizerType) : Bool → CString → List CString → Bool
  | stripping, _, [] => stripping
  | stripping, prev, cur :: rest =>
      strippingAfter sanTy (argumentStripping sanTy stripping prev cur) cur rest

/-! ## The wrapper's own entries -/

def initEntries (env : Environ) (d : Detection) : ℕ :=
  let on := has d.actSanitizers
  if d.xsanTy = .sanNone then 0
  else
    (decide (d.xsanTy = .xsan)).toNat + (on .asan).toNat + (on .tsan).toNat + (on .msan).toNat +
      (on .ubsan).toNat + (on .ubsan && (env.xsanInAsanTest || env.xsanInTsanTest)).toNat +
      3 * (on .ubsan && on .asan).toNat

def pluginEntries (d : Detection) : ℕ :=
  let on := has d.actSanitizers
  match passName d.xsanTy with
  | none => 0
  | some _ =>
      3 + if d.xsanTy = .xsan then
        2 * (!on .asan).toNat + 2 * (!on .tsan).toNat + 2 * (!on .msan).toNat else 0

def runtimeEntries (build : Build) (d : Detection) (s : Flags) : ℕ :=
  if build.useLivepatch || d.xsanTy = .sanNone then 0
  else
    (decide (d.xsanTy = .xsan)).toNat + 2 * (s.needsSharedRt && d.xsanTy ≠ .msan).toNat +
      (if d.xsanTy = .asan ∨ d.xsanTy = .xsan then
        3 + (s.needsSharedRt && !s.sharedLinking).toNat else 0) +
      if s.sharedLinking || s.needsSharedRt then 0 else 9 + 2 * s.isCxx.toNat

def passEntries (d : Detection) (recovered : Mask) (globalsGc : Bool) : ℕ :=
  let on := has d.actSanitizers
  if d.xsanTy = .sanNone then 0
  else
    2 * (on .asan && !globalsGc).toNat + 2 * (on .asan && has recovered .asan).toNat +
      2 * (on .msan && has recovered .msan).toNat

def environmentEntries (env : Environ) (s : Flags) : ℕ :=
  env.xHarden.toNat + (env.xHarden && !s.fortifySet).toNat +
    2 * (!s.asanSet && (env.xUseAsan || env.xUseMsan)).toNat + 8 * env.xNoBuiltin.toNat +
    2 * (!s.haveC).toNat

/-- With the name of the compiler and the terminator. -/
def ownEntries (build : Build) (env : Environ) (d : Detection) (s : Flags) (argv0 : CString)
    (args : List CString) : ℕ :=
  let opt := { s.frontendOpt with
    sanitizeAddressGlobalsDeadStripping := strippingAfter d.xsanTy
      s.frontendOpt.sanitizeAddressGlobalsDeadStripping argv0 args }
  3 + 2 * s.xSet.toNat + initEntries env d + (if s.onlyLib then 0 else pluginEntries d) +
    (if s.haveC then 0 else runtimeEntries build d s) +
    (if s.onlyLib then 0 else
      passEntries d (recoverAfter build.contains 0 argv0 args) (asanUseGlobalsGc opt)) +
    environmentEntries env s

/-! ## Assembler sources -/

/-- The argument, or the option `-x` with its language, says that the source is assembler. -/
def selectsAssembler (cur : CString) (next : Option CString) : Bool :=
  match handleXOption cur next with
  | .ok (some isAssembler) => isAssembler
  | .ok none =>
      isAssembly cur && !strstr cur "FORTIFY_SOURCE".toList && !optMatch cur "-O".toList &&
        !optMatch cur "-funroll-loops".toList && !optMatch cur "--target=".toList
  | .error _ => false

def assembles : List CString → Bool
  | [] => false
  | cur :: rest => selectsAssembler cur rest.head? || assembles rest

/-- How many times `-mllvm` stands at the end. -/
def trailingMllvm (args : List CString) : ℕ :=
  (args.reverse.takeWhile (· = "-mllvm".toList)).length

/-! ## What the arguments say -/

/-- The option `-x`, with its language or before it. -/
def isXOption (cur : CString) : Bool :=
  optMatch cur "-x".toList && !decide (cur = "-xsan".toList ∨ cur = "-xsan-only".toList)

def mentionsFortify (cur : CString) : Bool :=
  strstr cur "FORTIFY_SOURCE".toList && !isXOption cur

/-- The object format after the argument. -/
def formatAfter (format : ObjectFormatType) (cur : CString) : ObjectFormatType :=
  if optMatch cur "--target=".toList && !strstr cur "FORTIFY_SOURCE".toList then
    targetFormat (cur.drop 9)
  else format

/-- Each flag says whether its option stands among the arguments. -/
def flagsOf (s : Flags) (args : List CString) : Flags where
  isCxx := args.contains "--driver-mode=g++".toList || s.isCxx
  xSet := args.any isXOption || s.xSet
  asanSet := args.contains "-fsanitize=address".toList ||
    (args.contains "-fsanitize=memory".toList || s.asanSet)
  fortifySet := args.any mentionsFortify || s.fortifySet
  sharedLinking := args.contains "-shared".toList ||
    (args.contains "-dynamiclib".toList || s.sharedLinking)
  haveC := args.contains "-c".toList || s.haveC
  onlyLib := args.contains "-lib-only".toList || s.onlyLib
  needsSharedRt := args.contains "-shared-libsan".toList || s.needsSharedRt
  frontendOpt :=
    { s.frontendOpt with
      asmAsSource := assembles args || s.frontendOpt.asmAsSource
      disableIntegratedAS := args.contains "-no-integrated-as".toList ||
        s.frontendOpt.disableIntegratedAS
      objFormat := args.foldl formatAfter s.frontendOpt.objFormat }

/-! ## Staying inside -/

/-- The arguments are read to their end and no further, and the entries with their terminator fit
into `argc + 256` places. -/
def StaysInside (args : List CString) (r : Except Fault Edited) : Prop :=
  ∃ e, r = .ok e ∧ e.unread = [] ∧ e.ccParams.length + 1 ≤ args.length + 1 + 256

/-- The last argument is not `-x`; before an assembler each `-mllvm` has an operand; and otherwise
the entries are not too many. -/
structure Fits (build : Build) (env : Environ) (argv0 : CString) (args : List CString) : Prop where
  language : args.getLast? ≠ some "-x".toList
  operand : assembles args = true → Even (trailingMllvm args)
  entries : assembles args = false → ∀ d, detectSanType build.contains (argv0 :: args) = .ok d →
    ownEntries build env d (flagsOf (initialFlags build
        (optMatch (programName argv0) "xclang++".toList)) args) argv0 args +
      forwardedEntries d.xsanTy argv0 args ≤ args.length + 1 + 256

/-! ## One entry after the other -/

section Globals

variable {g g' : Globals} {entries : List CString} {opt arg cur : CString} {c : Bool}

@[simp] theorem add_ccParams : (g.add entries).ccParams = g.ccParams ++ entries := rfl

@[simp] theorem add_actSanitizers : (g.add entries).actSanitizers = g.actSanitizers := rfl

@[simp] theorem add_recoverSanitizers :
    (g.add entries).recoverSanitizers = g.recoverSanitizers := rfl

@[simp] theorem add_frontendOpt : (g.add entries).frontendOpt = g.frontendOpt := rfl

@[simp] theorem length_addIf : (g.addIf c entries).ccParams.length =
    g.ccParams.length + c.toNat * entries.length := by
  cases c <;> simp [Globals.addIf]

@[simp] theorem addIf_actSanitizers : (g.addIf c entries).actSanitizers = g.actSanitizers := by
  cases c <;> rfl

@[simp] theorem addIf_recoverSanitizers :
    (g.addIf c entries).recoverSanitizers = g.recoverSanitizers := by
  cases c <;> rfl

@[simp] theorem addIf_frontendOpt : (g.addIf c entries).frontendOpt = g.frontendOpt := by
  cases c <;> rfl

@[simp] theorem length_addLlvmMiddleEndOption :
    (g.addLlvmMiddleEndOption opt).ccParams.length =
      g.ccParams.length + 2 * (!g.frontendOpt.asmAsSource).toNat := by
  rw [Globals.addLlvmMiddleEndOption, length_addIf, Nat.mul_comm]
  rfl

@[simp] theorem addLlvmMiddleEndOption_actSanitizers :
    (g.addLlvmMiddleEndOption opt).actSanitizers = g.actSanitizers := addIf_actSanitizers

@[simp] theorem addLlvmMiddleEndOption_recoverSanitizers :
    (g.addLlvmMiddleEndOption opt).recoverSanitizers = g.recoverSanitizers :=
  addIf_recoverSanitizers

@[simp] theorem addLlvmMiddleEndOption_frontendOpt :
    (g.addLlvmMiddleEndOption opt).frontendOpt = g.frontendOpt := addIf_frontendOpt

/-- What an option of a sanitizer changes: beside a discarded argument it brings `n` entries, none
of them in an assembler source, and it may set the option about dead globals. -/
structure Handled (g : Globals) (r : Globals × Bool) (n : ℕ) (stripping : Bool) : Prop where
  length : g.frontendOpt.asmAsSource = false →
    r.1.ccParams.length = g.ccParams.length + (r.2.toNat + n)
  length_le : g.frontendOpt.asmAsSource = true →
    r.1.ccParams.length ≤ g.ccParams.length + r.2.toNat
  actSanitizers : r.1.actSanitizers = g.actSanitizers
  recoverSanitizers : r.1.recoverSanitizers = g.recoverSanitizers
  frontendOpt : r.1.frontendOpt =
    { g.frontendOpt with sanitizeAddressGlobalsDeadStripping := stripping }

theorem handled_none : Handled g (g, false) 0 g.frontendOpt.sanitizeAddressGlobalsDeadStripping :=
  ⟨fun _ => rfl, fun _ => Nat.le_refl _, rfl, rfl, rfl⟩

theorem handled_mllvm {entry : CString} : Handled g (g.add [entry], true) 0
    g.frontendOpt.sanitizeAddressGlobalsDeadStripping :=
  ⟨fun _ => by simp, fun _ => by simp, rfl, rfl, rfl⟩

theorem handled_stripping {stripping : Bool} : Handled g
    ({ g with frontendOpt.sanitizeAddressGlobalsDeadStripping := stripping }, false) 0
    stripping :=
  ⟨fun _ => rfl, fun _ => Nat.le_refl _, rfl, rfl, rfl⟩

theorem handled_kept : Handled g (g.addLlvmMiddleEndOption opt, false) 2
    g.frontendOpt.sanitizeAddressGlobalsDeadStripping where
  length hasm := by simp [hasm]
  length_le hasm := by simp [hasm]
  actSanitizers := addLlvmMiddleEndOption_actSanitizers
  recoverSanitizers := addLlvmMiddleEndOption_recoverSanitizers
  frontendOpt := addLlvmMiddleEndOption_frontendOpt

theorem handled_replaced : Handled g (g.addLlvmMiddleEndOption opt, true) 1
    g.frontendOpt.sanitizeAddressGlobalsDeadStripping where
  length hasm := by simp [hasm]
  length_le hasm := by simp [hasm]
  actSanitizers := addLlvmMiddleEndOption_actSanitizers
  recoverSanitizers := addLlvmMiddleEndOption_recoverSanitizers
  frontendOpt := addLlvmMiddleEndOption_frontendOpt

theorem handled_twice {opt' : CString} :
    Handled g ((g.addLlvmMiddleEndOption opt).addLlvmMiddleEndOption opt', true) 3
      g.frontendOpt.sanitizeAddressGlobalsDeadStripping where
  length hasm := by simp [hasm]
  length_le hasm := by simp [hasm]
  actSanitizers := by simp
  recoverSanitizers := by simp
  frontendOpt := by simp

theorem handleAsanOptions_spec (isMllvmArg isNeg : Bool) :
    Handled g (handleAsanOptions g arg isMllvmArg isNeg) (if isMllvmArg then 0 else asanGrowth arg)
      (if isMllvmArg then g.frontendOpt.sanitizeAddressGlobalsDeadStripping
        else optionStripping arg isNeg g.frontendOpt.sanitizeAddressGlobalsDeadStripping) := by
  rw [handleAsanOptions]
  cases isMllvmArg with
  | true =>
      simp only [if_true]
      split_ifs
      · exact handled_none
      · exact handled_mllvm
  | false =>
      rw [asanGrowth, optionStripping]
      simp only [Bool.false_eq_true, if_false]
      cases optMatch arg "address-".toList with
      | false => simpa using handled_none
      | true =>
          simp only [Bool.not_true, Bool.false_eq_true, if_false, true_and]
          split_ifs
          · exact handled_stripping
          · exact handled_none
          · exact handled_kept
          · exact handled_kept
          · exact handled_kept
          · exact handled_kept
          · exact handled_kept
          · exact handled_kept
          · exact handled_replaced
          · exact handled_replaced
          · exact handled_none

theorem handleTsanOptions_spec (isMllvmArg isNeg : Bool) :
    Handled g (handleTsanOptions g arg isMllvmArg isNeg)
      (if isMllvmArg then 0 else tsanGrowth arg isNeg)
      g.frontendOpt.sanitizeAddressGlobalsDeadStripping := by
  rw [handleTsanOptions]
  cases isMllvmArg with
  | true =>
      simp only [if_true]
      split_ifs
      · exact handled_none
      · exact handled_mllvm
  | false =>
      rw [tsanGrowth]
      simp only [Bool.false_eq_true, if_false]
      cases optMatch arg "thread-".toList with
      | false => simpa using handled_none
      | true =>
          simp only [Bool.not_true, Bool.false_eq_true, if_false]
          split_ifs
          · exact handled_none
          · exact handled_replaced
          · exact handled_none
          · exact handled_replaced
          · exact handled_none
          · exact handled_twice
          · exact handled_none

theorem handleMsanOptions_spec (isMllvmArg isNeg : Bool) :
    Handled g (handleMsanOptions g arg isMllvmArg isNeg) (if isMllvmArg then 0 else msanGrowth arg)
      g.frontendOpt.sanitizeAddressGlobalsDeadStripping := by
  rw [handleMsanOptions]
  cases isMllvmArg with
  | true =>
      simp only [if_true]
      split_ifs
      · exact handled_none
      · exact handled_mllvm
  | false =>
      rw [msanGrowth]
      simp only [Bool.false_eq_true, if_false]
      cases optMatch arg "memory-".toList with
      | false => simpa using handled_none
      | true =>
          simp only [Bool.not_true, Bool.false_eq_true, if_false]
          split_ifs
          · exact handled_replaced
          · exact handled_replaced
          · exact handled_replaced
          · exact handled_replaced
          · exact handled_replaced
          · exact handled_none

/-- Two different continuations cannot both match. -/
theorem optMatch_append {a b : Char} {common pre pre' : CString}
    (h : optMatch arg (common ++ a :: pre) = true) (hne : a ≠ b) :
    optMatch arg (common ++ b :: pre') = false := by
  induction common generalizing arg with
  | nil =>
      cases arg with
      | nil => cases h
      | cons c arg =>
          rw [List.nil_append, optMatch, List.isPrefixOf_cons_cons, Bool.and_eq_true,
            beq_iff_eq] at h
          rw [List.nil_append, optMatch, List.isPrefixOf_cons_cons, ← h.1]
          simp [Ne.symm hne]
  | cons x common ih =>
      cases arg with
      | nil => cases h
      | cons c arg =>
          rw [List.cons_append, optMatch, List.isPrefixOf_cons_cons, Bool.and_eq_true] at h
          rw [List.cons_append, optMatch, List.isPrefixOf_cons_cons]
          have hrest := ih h.2
          rw [optMatch] at hrest
          rw [hrest, Bool.and_false]

/-- At most one of two handlers discards the argument. -/
theorem Handled.then {a t : Globals × Bool} {n n' : ℕ} {stripping : Bool}
    (ha : Handled g a n stripping)
    (ht : Handled a.1 t n' a.1.frontendOpt.sanitizeAddressGlobalsDeadStripping)
    (hone : a.2 = true → t.2 = false) : Handled g (t.1, a.2 || t.2) (n + n') stripping := by
  have hasm : a.1.frontendOpt.asmAsSource = g.frontendOpt.asmAsSource := by rw [ha.frontendOpt]
  have hsum : (a.2 || t.2).toNat = a.2.toNat + t.2.toNat := by
    cases hdiscarded : a.2 with
    | false => simp
    | true => simp [hone hdiscarded]
  constructor
  · intro hsource
    rw [ht.length (hasm.trans hsource), ha.length hsource, hsum]
    omega
  · intro hsource
    have hle := ha.length_le hsource
    have hle' := ht.length_le (hasm.trans hsource)
    simp only [hsum]
    omega
  · rw [ht.actSanitizers, ha.actSanitizers]
  · rw [ht.recoverSanitizers, ha.recoverSanitizers]
  · rw [ht.frontendOpt, ha.frontendOpt]

/-- What a discarded argument begins with. -/
def asanStart (isMllvmArg : Bool) : CString :=
  if isMllvmArg then "-asan-".toList else "address-".toList

def tsanStart (isMllvmArg : Bool) : CString :=
  if isMllvmArg then "-tsan-".toList else "thread-".toList

def msanStart (isMllvmArg : Bool) : CString :=
  if isMllvmArg then "-msan-".toList else "memory-".toList

theorem optMatch_asanStart {isMllvmArg isNeg : Bool}
    (h : (handleAsanOptions g arg isMllvmArg isNeg).2 = true) :
    optMatch arg (asanStart isMllvmArg) = true := by
  cases hmatch : optMatch arg (asanStart isMllvmArg) with
  | true => rfl
  | false =>
      rw [asanStart] at hmatch
      cases isMllvmArg <;>
        simp only [Bool.false_eq_true, if_false, if_true] at hmatch <;>
        simp only [handleAsanOptions, hmatch, Bool.not_false, Bool.false_eq_true, if_false,
          if_true] at h

theorem optMatch_tsanStart {isMllvmArg isNeg : Bool}
    (h : (handleTsanOptions g arg isMllvmArg isNeg).2 = true) :
    optMatch arg (tsanStart isMllvmArg) = true := by
  cases hmatch : optMatch arg (tsanStart isMllvmArg) with
  | true => rfl
  | false =>
      rw [tsanStart] at hmatch
      cases isMllvmArg <;>
        simp only [Bool.false_eq_true, if_false, if_true] at hmatch <;>
        simp only [handleTsanOptions, hmatch, Bool.not_false, Bool.false_eq_true, if_false,
          if_true] at h

theorem optMatch_msanStart {isMllvmArg isNeg : Bool}
    (h : (handleMsanOptions g arg isMllvmArg isNeg).2 = true) :
    optMatch arg (msanStart isMllvmArg) = true := by
  cases hmatch : optMatch arg (msanStart isMllvmArg) with
  | true => rfl
  | false =>
      rw [msanStart] at hmatch
      cases isMllvmArg <;>
        simp only [Bool.false_eq_true, if_false, if_true] at hmatch <;>
        simp only [handleMsanOptions, hmatch, Bool.not_false, Bool.false_eq_true, if_false,
          if_true] at h

/-- An argument begins with the name of one sanitizer at most. -/
theorem starts_disjoint {isMllvmArg : Bool} :
    (optMatch arg (asanStart isMllvmArg) = true → ¬optMatch arg (tsanStart isMllvmArg) = true) ∧
      (optMatch arg (asanStart isMllvmArg) = true → ¬optMatch arg (msanStart isMllvmArg) = true) ∧
      (optMatch arg (tsanStart isMllvmArg) = true →
        ¬optMatch arg (msanStart isMllvmArg) = true) := by
  have hdisjoint : ∀ {a b : Char} {common pre pre' : CString}, a ≠ b →
      optMatch arg (common ++ a :: pre) = true → ¬optMatch arg (common ++ b :: pre') = true := by
    intro a b common pre pre' hne hmatch
    rw [optMatch_append hmatch hne]
    exact Bool.false_ne_true
  cases isMllvmArg with
  | false =>
      exact ⟨@hdisjoint 'a' 't' [] _ _ (by decide), @hdisjoint 'a' 'm' [] _ _ (by decide),
        @hdisjoint 't' 'm' [] _ _ (by decide)⟩
  | true =>
      exact ⟨@hdisjoint 'a' 't' ['-'] _ _ (by decide), @hdisjoint 'a' 'm' ['-'] _ _ (by decide),
        @hdisjoint 't' 'm' ['-'] _ _ (by decide)⟩

/-- Under XSan at most one of the handlers does anything. -/
theorem handleXsan_spec (isMllvmArg isNeg : Bool) {a t m : Globals × Bool}
    (ha : handleAsanOptions g arg isMllvmArg isNeg = a)
    (ht : handleTsanOptions a.1 arg isMllvmArg isNeg = t)
    (hm : handleMsanOptions t.1 arg isMllvmArg isNeg = m) :
    Handled g (m.1, a.2 || t.2 || m.2)
      (if isMllvmArg then 0 else asanGrowth arg + tsanGrowth arg isNeg + msanGrowth arg)
      (if isMllvmArg then g.frontendOpt.sanitizeAddressGlobalsDeadStripping
        else optionStripping arg isNeg g.frontendOpt.sanitizeAddressGlobalsDeadStripping) := by
  have hasan := @handleAsanOptions_spec g arg isMllvmArg isNeg
  have htsan := @handleTsanOptions_spec a.1 arg isMllvmArg isNeg
  have hmsan := @handleMsanOptions_spec t.1 arg isMllvmArg isNeg
  rw [ha] at hasan
  rw [ht] at htsan
  rw [hm] at hmsan
  obtain ⟨hatStart, hamStart, htmStart⟩ := @starts_disjoint arg isMllvmArg
  have hat : a.2 = true → t.2 = false := by
    intro hdiscarded
    rw [← ha] at hdiscarded
    rw [← Bool.not_eq_true, ← ht]
    exact mt optMatch_tsanStart (hatStart (optMatch_asanStart hdiscarded))
  have hatm : (a.2 || t.2) = true → m.2 = false := by
    intro hdiscarded
    rw [← Bool.not_eq_true, ← hm]
    refine mt optMatch_msanStart ?_
    rcases Bool.or_eq_true_iff.mp hdiscarded with hdiscarded | hdiscarded
    · rw [← ha] at hdiscarded
      exact hamStart (optMatch_asanStart hdiscarded)
    · rw [← ht] at hdiscarded
      exact htmStart (optMatch_tsanStart hdiscarded)
  have hall := (hasan.then htsan hat).then hmsan hatm
  cases isMllvmArg with
  | true => exact hall
  | false => exact hall

variable {contains : Contains} {sanTy : SanitizerType} {prev : CString} {isMllvmArg isNeg : Bool}

/-- The common part looks at the removed arguments, and then at the option. -/
theorem handleGenericSanitizerOptions_eq (hcur : isDropped cur = false) (checkSanOpt : Bool) :
    handleGenericSanitizerOptions contains g cur checkSanOpt =
      if isRemoved cur then (g, .remove)
      else if !checkSanOpt then (g, .pending cur false)
      else
        match sanitizeOption cur with
        | none => (g, .keep)
        | some (arg, isNeg) =>
            if optMatch arg "recover=".toList then
              ({ g with recoverSanitizers :=
                  recover contains g.recoverSanitizers isNeg (arg.drop 8) }, .keep)
            else (g, .pending arg isNeg) := by
  rw [handleGenericSanitizerOptions, isRemoved, hcur, Bool.false_or, sanitizeOption]
  by_cases hlib : cur = "-lib-only".toList
  · simp only [hlib, if_true, decide_true, Bool.true_or]
  · simp only [hlib, if_false, decide_false, Bool.false_or]
    cases allOptions.any fun opt => cur = optionName opt with
    | true => rfl
    | false =>
        cases checkSanOpt with
        | false => rfl
        | true =>
            cases optMatch cur "-f".toList with
            | false => rfl
            | true =>
                simp only [Bool.not_true, Bool.false_eq_true, if_false]
                cases optMatch (if optMatch (cur.drop 2) "no-".toList then cur.drop 5
                  else cur.drop 2) "sanitize-".toList with
                | false => rfl
                | true => rfl

theorem handled_pending
    (h : handleGenericSanitizerOptions contains g cur (!isMllvmArg) = (g, .pending arg isNeg)) :
    Handled g (handleSanitizerOptions contains g cur isMllvmArg sanTy)
      (if isMllvmArg then 0 else growth sanTy arg isNeg)
      (if ¬isMllvmArg ∧ (sanTy = .asan ∨ sanTy = .xsan) then
        optionStripping arg isNeg g.frontendOpt.sanitizeAddressGlobalsDeadStripping
        else g.frontendOpt.sanitizeAddressGlobalsDeadStripping) := by
  rw [handleSanitizerOptions, h]
  cases sanTy with
  | asan =>
      have hspec := @handleAsanOptions_spec g arg isMllvmArg isNeg
      cases isMllvmArg with
      | true => simpa using hspec
      | false => simpa [growth] using hspec
  | tsan => simpa [growth] using @handleTsanOptions_spec g arg isMllvmArg isNeg
  | msan => simpa [growth] using @handleMsanOptions_spec g arg isMllvmArg isNeg
  | xsan =>
      have hspec := @handleXsan_spec g arg isMllvmArg isNeg _ _ _ rfl rfl rfl
      cases isMllvmArg with
      | true => simpa using hspec
      | false => simpa [growth] using hspec
  | ubsan => simpa [growth] using @handled_none g
  | sanNone => simpa [growth] using @handled_none g

/-- What the loop does with one argument. -/
structure Forwarded (contains : Contains) (sanTy : SanitizerType) (prev cur : CString)
    (g : Globals) (r : Globals × Bool) : Prop where
  length : g.frontendOpt.asmAsSource = false →
    r.1.ccParams.length + (!r.2).toNat = g.ccParams.length + argumentEntries sanTy prev cur
  length_le : g.frontendOpt.asmAsSource = true →
    r.1.ccParams.length + (!r.2).toNat ≤ g.ccParams.length + 1
  actSanitizers : r.1.actSanitizers = g.actSanitizers
  recoverSanitizers :
    r.1.recoverSanitizers = argumentRecover contains g.recoverSanitizers prev cur
  frontendOpt : r.1.frontendOpt = { g.frontendOpt with
    sanitizeAddressGlobalsDeadStripping := argumentStripping sanTy
      g.frontendOpt.sanitizeAddressGlobalsDeadStripping prev cur }

theorem growth_of_recover (h : optMatch arg "recover=".toList = true) :
    growth sanTy arg isNeg = 0 ∧ ∀ stripping, optionStripping arg isNeg stripping = stripping := by
  have hother : ∀ {b : Char} {pre : CString}, 'r' ≠ b → optMatch arg (b :: pre) = false :=
    fun hne => @optMatch_append arg 'r' _ [] _ _ h hne
  have haddress : optMatch arg "address-".toList = false := hother (by decide)
  have hthread : optMatch arg "thread-".toList = false := hother (by decide)
  have hmemory : optMatch arg "memory-".toList = false := hother (by decide)
  have hasan : asanGrowth arg = 0 := by
    rw [asanGrowth, haddress, if_pos Bool.not_false]
  have htsan : tsanGrowth arg isNeg = 0 := by
    rw [tsanGrowth, hthread, if_pos Bool.not_false]
  have hmsan : msanGrowth arg = 0 := by
    rw [msanGrowth, hmemory, if_pos Bool.not_false]
  constructor
  · cases sanTy with
    | asan => exact hasan
    | tsan => exact htsan
    | msan => exact hmsan
    | xsan => rw [growth, hasan, htsan, hmsan]
    | ubsan => rfl
    | sanNone => rfl
  · intro stripping
    rw [optionStripping, haddress, if_neg]
    exact fun hboth => Bool.false_ne_true hboth.1

theorem handleSanitizerOptions_spec (hcur : isDropped cur = false) :
    Forwarded contains sanTy prev cur g
      (handleSanitizerOptions contains g cur (prev = "-mllvm".toList) sanTy) := by
  have hgeneric := @handleGenericSanitizerOptions_eq g cur contains hcur
  have hsum : ∀ {r : Globals × Bool} {n : ℕ}, r.1.ccParams.length = g.ccParams.length +
      (r.2.toNat + n) → r.1.ccParams.length + (!r.2).toNat = g.ccParams.length + (1 + n) := by
    intro r n hlength
    cases hdiscarded : r.2 <;> simp only [hdiscarded, Bool.not_false, Bool.not_true,
      Bool.toNat_false, Bool.toNat_true] at hlength ⊢ <;> omega
  have hsum_le : ∀ {r : Globals × Bool}, r.1.ccParams.length ≤ g.ccParams.length + r.2.toNat →
      r.1.ccParams.length + (!r.2).toNat ≤ g.ccParams.length + 1 := by
    intro r hlength
    cases hdiscarded : r.2 <;> simp only [hdiscarded, Bool.not_false, Bool.not_true,
      Bool.toNat_false, Bool.toNat_true] at hlength ⊢ <;> omega
  cases hremoved : isRemoved cur with
  | true =>
      have hpending : pendingOption prev cur = none := by
        rw [pendingOption, hremoved, Bool.true_or, if_pos rfl]
      have hentries : argumentEntries sanTy prev cur = 0 := by
        rw [argumentEntries, hremoved, if_pos rfl]
      have hr : handleSanitizerOptions contains g cur (prev = "-mllvm".toList) sanTy =
          (g, true) := by
        rw [handleSanitizerOptions, hgeneric, hremoved, if_pos rfl]
      rw [hr]
      refine ⟨fun _ => by rw [hentries]; rfl, fun _ => Nat.le_succ _, rfl, ?_, ?_⟩
      · rw [argumentRecover, hpending]
      · rw [argumentStripping, hpending]
  | false =>
      by_cases hmllvm : prev = "-mllvm".toList
      · have hpending : pendingOption prev cur = none := by
          rw [pendingOption, decide_eq_true hmllvm, Bool.or_true, if_pos rfl]
        have hentries : argumentEntries sanTy prev cur = 1 := by
          rw [argumentEntries, hremoved, if_neg Bool.false_ne_true, hpending]
        have hhandled := @handled_pending g cur cur contains sanTy true false (by
          rw [hgeneric, hremoved]
          rfl)
        rw [decide_eq_true hmllvm]
        refine ⟨fun hasm => ?_, fun hasm => hsum_le (hhandled.length_le hasm),
          hhandled.actSanitizers, ?_, ?_⟩
        · rw [hentries]
          exact hsum (hhandled.length hasm)
        · rw [hhandled.recoverSanitizers, argumentRecover, hpending]
        · rw [hhandled.frontendOpt, argumentStripping, hpending]
          rfl
      · have hpending : pendingOption prev cur = sanitizeOption cur := by
          rw [pendingOption, hremoved, decide_eq_false hmllvm, Bool.or_false,
            if_neg Bool.false_ne_true]
        have hgen := hgeneric (!false)
        rw [hremoved, if_neg Bool.false_ne_true, Bool.not_false, Bool.not_true,
          if_neg Bool.false_ne_true] at hgen
        rw [decide_eq_false hmllvm]
        cases hoption : sanitizeOption cur with
        | none =>
            rw [hoption] at hgen hpending
            have hentries : argumentEntries sanTy prev cur = 1 := by
              rw [argumentEntries, hremoved, if_neg Bool.false_ne_true, hpending]
            have hr : handleSanitizerOptions contains g cur false sanTy = (g, false) := by
              rw [handleSanitizerOptions, Bool.not_false, hgen]
            rw [hr]
            refine ⟨fun _ => by rw [hentries]; rfl, fun _ => Nat.le_refl _, rfl, ?_, ?_⟩
            · rw [argumentRecover, hpending]
            · rw [argumentStripping, hpending]
        | some option =>
            obtain ⟨arg, isNeg⟩ := option
            rw [hoption] at hgen hpending
            have hentries : argumentEntries sanTy prev cur = 1 + growth sanTy arg isNeg := by
              rw [argumentEntries, hremoved, if_neg Bool.false_ne_true, hpending]
            simp only at hgen
            cases hrecover : optMatch arg "recover=".toList with
            | true =>
                obtain ⟨hgrowth, hstripping⟩ := @growth_of_recover arg sanTy isNeg hrecover
                rw [hrecover, if_pos rfl] at hgen
                have hr : handleSanitizerOptions contains g cur false sanTy =
                    ({ g with recoverSanitizers :=
                        recover contains g.recoverSanitizers isNeg (arg.drop 8) }, false) := by
                  rw [handleSanitizerOptions, Bool.not_false, hgen]
                rw [hr]
                refine ⟨fun _ => by rw [hentries, hgrowth]; rfl, fun _ => Nat.le_refl _, rfl,
                  ?_, ?_⟩
                · simp only [argumentRecover, hpending, hrecover, if_true]
                · simp only [argumentStripping, hpending, hstripping, ite_self]
            | false =>
                rw [hrecover, if_neg Bool.false_ne_true] at hgen
                have hhandled := @handled_pending g arg cur contains sanTy false isNeg hgen
                refine ⟨fun hasm => ?_, fun hasm => hsum_le (hhandled.length_le hasm),
                  hhandled.actSanitizers, ?_, ?_⟩
                · rw [hentries]
                  exact hsum (hhandled.length hasm)
                · rw [hhandled.recoverSanitizers]
                  simp only [argumentRecover, hpending, hrecover, Bool.false_eq_true, if_false]
                · rw [hhandled.frontendOpt]
                  simp only [argumentStripping, hpending, Bool.false_eq_true, not_false_eq_true,
                    true_and]

theorem argument_of_isRemoved (h : isRemoved cur = true) :
    argumentEntries sanTy prev cur = 0 ∧
      (∀ mask, argumentRecover contains mask prev cur = mask) ∧
      ∀ stripping, argumentStripping sanTy stripping prev cur = stripping := by
  have hpending : pendingOption prev cur = none := by
    rw [pendingOption, h, Bool.true_or, if_pos rfl]
  refine ⟨?_, ?_, ?_⟩
  · rw [argumentEntries, h, if_pos rfl]
  · intro mask
    rw [argumentRecover, hpending]
  · intro stripping
    rw [argumentStripping, hpending]

theorem isRemoved_of_isDropped (h : isDropped cur = true) : isRemoved cur = true := by
  rw [isRemoved, h, Bool.true_or, Bool.true_or]

end Globals

/-! ## The forwarding loop -/

section Loop

variable {contains : Contains} {sanTy : SanitizerType} {g : Globals} {prev : CString}
  {args : List CString} {argc : BitVec 32}

theorem counter_sub_one {n : ℕ} : BitVec.ofNat 32 (n + 1) - 1 = BitVec.ofNat 32 n := by
  apply BitVec.eq_of_toNat_eq
  have hsub : (2 ^ 32 - 1 % 2 ^ 32 + (n + 1) % 2 ^ 32) % 2 ^ 32 = n % 2 ^ 32 := by omega
  simpa [BitVec.toNat_sub] using hsub

theorem counter_ne_zero {n : ℕ} (h : n + 1 < 2 ^ 32) : BitVec.ofNat 32 (n + 1) ≠ 0 := by
  intro heq
  have hnat := congrArg BitVec.toNat heq
  rw [BitVec.toNat_ofNat, Nat.mod_eq_of_lt h] at hnat
  simp at hnat

/-- Every argument is read, and brings its entries. -/
theorem forwardLoop_source (hasm : g.frontendOpt.asmAsSource = false)
    (hlen : args.length + 1 < 2 ^ 32) :
    ∃ g', forwardLoop contains sanTy (BitVec.ofNat 32 (args.length + 1)) g prev args =
        .ok (g', []) ∧
      g'.ccParams.length = g.ccParams.length + forwardedEntries sanTy prev args ∧
      g'.actSanitizers = g.actSanitizers ∧
      g'.recoverSanitizers = recoverAfter contains g.recoverSanitizers prev args ∧
      g'.frontendOpt = { g.frontendOpt with
        sanitizeAddressGlobalsDeadStripping := strippingAfter sanTy
          g.frontendOpt.sanitizeAddressGlobalsDeadStripping prev args } := by
  induction args generalizing g prev with
  | nil => exact ⟨g, rfl, rfl, rfl, rfl, rfl⟩
  | cons cur rest ih =>
      rw [List.length_cons] at hlen ⊢
      have hrest : rest.length + 1 < 2 ^ 32 := Nat.lt_of_succ_lt hlen
      rw [forwardLoop, counter_sub_one, if_neg (counter_ne_zero hrest), forwardedEntries,
        recoverAfter, strippingAfter]
      cases hdropped : isDropped cur with
      | true =>
          obtain ⟨hentries, hrecover, hstripping⟩ := @argument_of_isRemoved cur contains sanTy prev
            (isRemoved_of_isDropped hdropped)
          rw [if_pos rfl, hentries, hrecover, hstripping, Nat.zero_add]
          exact ih hasm hrest
      | false =>
          have hspec := @handleSanitizerOptions_spec g cur contains sanTy prev hdropped
          rw [if_neg Bool.false_ne_true]
          generalize handleSanitizerOptions contains g cur (prev = "-mllvm".toList) sanTy = r at *
          obtain ⟨g₁, discarded⟩ := r
          have hlength := hspec.length hasm
          have hasm₁ : g₁.frontendOpt.asmAsSource = false := by rw [hspec.frontendOpt, hasm]
          rw [← hspec.recoverSanitizers]
          cases discarded with
          | true =>
              obtain ⟨g', hok, hlength', hact, hrecover, hopt⟩ := @ih g₁ cur hasm₁ hrest
              refine ⟨g', hok, ?_, hact.trans hspec.actSanitizers, hrecover, ?_⟩
              · rw [hlength', ← Nat.add_assoc, ← hlength]
                rfl
              · rw [hopt, hspec.frontendOpt]
          | false =>
              obtain ⟨g', hok, hlength', hact, hrecover, hopt⟩ :=
                @ih (g₁.add [cur]) cur hasm₁ hrest
              refine ⟨g', ?_, ?_, hact.trans hspec.actSanitizers, hrecover, ?_⟩
              · simp only [hasm₁, Bool.false_and, Bool.false_eq_true, if_false]
                exact hok
              · rw [hlength', ← Nat.add_assoc, ← hlength, add_ccParams, List.length_append]
                rfl
              · rw [hopt, add_frontendOpt, hspec.frontendOpt]

/-- A last `-mllvm` is left without its operand. -/
def dangles : List CString → Bool
  | [] => false
  | [cur] => cur = "-mllvm".toList
  | cur :: operand :: rest =>
      if cur = "-mllvm".toList then dangles rest else dangles (operand :: rest)

theorem dangles_of_ne {cur : CString} {rest : List CString} (h : cur ≠ "-mllvm".toList) :
    dangles (cur :: rest) = dangles rest := by
  cases rest with
  | nil => exact decide_eq_false h
  | cons operand rest => exact if_neg h

theorem dangles_operand {operand : CString} {rest : List CString} :
    dangles ("-mllvm".toList :: operand :: rest) = dangles rest := if_pos rfl

theorem handleSanitizerOptions_mllvm {isMllvmArg : Bool} :
    handleSanitizerOptions contains g "-mllvm".toList isMllvmArg sanTy = (g, false) := by
  cases isMllvmArg <;> cases sanTy <;> rfl

/-- Before an assembler, a `-mllvm` without operand makes the counter wrap. -/
theorem forwardLoop_assembler (hasm : g.frontendOpt.asmAsSource = true)
    (hlen : args.length + 1 < 2 ^ 32) :
    if dangles args then
      forwardLoop contains sanTy (BitVec.ofNat 32 (args.length + 1)) g prev args =
        .error .outOfRange
    else ∃ g', forwardLoop contains sanTy (BitVec.ofNat 32 (args.length + 1)) g prev args =
        .ok (g', []) ∧
      g'.ccParams.length ≤ g.ccParams.length + args.length ∧
      g'.actSanitizers = g.actSanitizers ∧ g'.frontendOpt.asmAsSource = true := by
  induction hn : args.length using Nat.strong_induction_on generalizing args g prev with
  | _ n ih =>
      subst hn
      cases args with
      | nil => exact ⟨g, rfl, Nat.le_refl _, rfl, hasm⟩
      | cons cur rest =>
          rw [List.length_cons] at hlen ⊢
          have hrest : rest.length + 1 < 2 ^ 32 := Nat.lt_of_succ_lt hlen
          rw [forwardLoop, counter_sub_one, if_neg (counter_ne_zero hrest)]
          by_cases hmllvm : cur = "-mllvm".toList
          · subst hmllvm
            have hdropped : isDropped "-mllvm".toList = false := by decide
            rw [hdropped, if_neg Bool.false_ne_true, handleSanitizerOptions_mllvm]
            simp only [hasm, decide_true, Bool.and_true, if_true]
            cases rest with
            | nil => rfl
            | cons operand rest =>
                rw [List.length_cons, counter_sub_one, dangles_operand]
                have hlen' : rest.length + 1 < 2 ^ 32 := Nat.lt_of_succ_lt hrest
                have hspec :=
                  @ih rest.length (Nat.lt_succ_of_lt (Nat.lt_succ_self _)) g operand rest
                    hasm hlen' rfl
                cases hdangles : dangles rest with
                | true =>
                    rw [hdangles, if_pos rfl] at hspec
                    exact hspec
                | false =>
                    rw [hdangles, if_neg Bool.false_ne_true] at hspec
                    obtain ⟨g', hok, hle, hrest⟩ := hspec
                    exact ⟨g', hok, by omega, hrest⟩
          · rw [dangles_of_ne hmllvm]
            have hnext : ∀ g₁ : Globals, g₁.frontendOpt.asmAsSource = true →
                g₁.ccParams.length ≤ g.ccParams.length + 1 →
                g₁.actSanitizers = g.actSanitizers →
                if dangles rest then
                  forwardLoop contains sanTy (BitVec.ofNat 32 (rest.length + 1)) g₁ cur rest =
                    .error .outOfRange
                else ∃ g', forwardLoop contains sanTy (BitVec.ofNat 32 (rest.length + 1)) g₁ cur
                    rest = .ok (g', []) ∧
                  g'.ccParams.length ≤ g.ccParams.length + (rest.length + 1) ∧
                  g'.actSanitizers = g.actSanitizers ∧ g'.frontendOpt.asmAsSource = true := by
              intro g₁ hasm₁ hle₁ hact₁
              have hspec := @ih rest.length (by simp) g₁ cur rest hasm₁ hrest rfl
              cases hdangles : dangles rest with
              | true =>
                  rw [hdangles, if_pos rfl] at hspec
                  exact hspec
              | false =>
                  rw [hdangles, if_neg Bool.false_ne_true] at hspec
                  obtain ⟨g', hok, hle, hact, hasm'⟩ := hspec
                  exact ⟨g', hok, by omega, hact.trans hact₁, hasm'⟩
            cases hdropped : isDropped cur with
            | true =>
                rw [if_pos rfl]
                exact hnext g hasm (Nat.le_succ _) rfl
            | false =>
                have hspec := @handleSanitizerOptions_spec g cur contains sanTy prev hdropped
                rw [if_neg Bool.false_ne_true]
                generalize handleSanitizerOptions contains g cur (prev = "-mllvm".toList) sanTy = r
                  at *
                obtain ⟨g₁, discarded⟩ := r
                have hle := hspec.length_le hasm
                have hasm₁ : g₁.frontendOpt.asmAsSource = true := by rw [hspec.frontendOpt, hasm]
                cases discarded with
                | true => exact hnext g₁ hasm₁ hle hspec.actSanitizers
                | false =>
                    simp only [decide_eq_false hmllvm, Bool.and_false, Bool.false_eq_true,
                      if_false]
                    refine hnext (g₁.add [cur]) hasm₁ ?_ hspec.actSanitizers
                    rw [add_ccParams, List.length_append]
                    exact hle

theorem trailingMllvm_cons {cur : CString} {rest : List CString} :
    trailingMllvm (cur :: rest) =
      if trailingMllvm rest = rest.length then
        rest.length + (decide (cur = "-mllvm".toList)).toNat
      else trailingMllvm rest := by
  rw [trailingMllvm, trailingMllvm, List.reverse_cons, List.takeWhile_append, List.length_reverse]
  split
  · rw [List.length_append, List.length_reverse]
    rw [List.takeWhile_cons]
    cases decide (cur = "-mllvm".toList) <;> rfl
  · rfl

theorem trailingMllvm_le : trailingMllvm args ≤ args.length := by
  rw [trailingMllvm]
  exact (List.takeWhile_prefix _).length_le.trans_eq List.length_reverse

/-- The operand is missing after an odd number of trailing `-mllvm`. -/
theorem dangles_iff : dangles args = true ↔ ¬Even (trailingMllvm args) := by
  induction args using dangles.induct with
  | case1 => simp [dangles, trailingMllvm]
  | case2 cur =>
      rw [dangles, decide_eq_true_iff, trailingMllvm_cons]
      by_cases hmllvm : cur = "-mllvm".toList
      · rw [decide_eq_true hmllvm]
        exact iff_of_true hmllvm (by decide)
      · rw [decide_eq_false hmllvm]
        exact iff_of_false hmllvm (by decide)
  | case3 operand rest ih =>
      rw [dangles_operand, ih, trailingMllvm_cons, trailingMllvm_cons]
      have hle := @trailingMllvm_le rest
      rw [List.length_cons]
      simp only [decide_true, Bool.toNat_true]
      by_cases hall : trailingMllvm rest = rest.length
      · rw [if_pos hall]
        by_cases hoperand : operand = "-mllvm".toList
        · rw [decide_eq_true hoperand, Bool.toNat_true, if_pos rfl, hall, Nat.even_add_one,
            Nat.even_add_one, not_not]
        · rw [decide_eq_false hoperand, Bool.toNat_false, Nat.add_zero, if_neg (by omega), hall]
      · rw [if_neg hall, if_neg (by omega)]
  | case4 cur operand rest hmllvm ih =>
      rw [dangles_of_ne hmllvm, ih, @trailingMllvm_cons cur]
      split
      · next hall => rw [hall, decide_eq_false hmllvm, Bool.toNat_false, Nat.add_zero]
      · rfl

end Loop

/-! ## The scanning loop -/

/-- The flags after one argument. -/
def flagsAfter (s : Flags) (cur : CString) (next : Option CString) : Flags where
  isCxx := "--driver-mode=g++".toList == cur || s.isCxx
  xSet := isXOption cur || s.xSet
  asanSet := "-fsanitize=address".toList == cur ||
    ("-fsanitize=memory".toList == cur || s.asanSet)
  fortifySet := mentionsFortify cur || s.fortifySet
  sharedLinking := "-shared".toList == cur || ("-dynamiclib".toList == cur || s.sharedLinking)
  haveC := "-c".toList == cur || s.haveC
  onlyLib := "-lib-only".toList == cur || s.onlyLib
  needsSharedRt := "-shared-libsan".toList == cur || s.needsSharedRt
  frontendOpt :=
    { s.frontendOpt with
      asmAsSource := selectsAssembler cur next || s.frontendOpt.asmAsSource
      disableIntegratedAS := "-no-integrated-as".toList == cur ||
        s.frontendOpt.disableIntegratedAS
      objFormat := formatAfter s.frontendOpt.objFormat cur }

/-- The options with a flag of their own. -/
def flagged : List CString :=
  ["--driver-mode=g++".toList, "-fsanitize=address".toList, "-fsanitize=memory".toList,
    "-shared".toList, "-dynamiclib".toList, "-c".toList, "-lib-only".toList,
    "-shared-libsan".toList, "-no-integrated-as".toList]

section Scan

variable {d : Detection} {s s' : Flags} {cur : CString} {next : Option CString}
  {args rest : List CString}

/-- Only the language of a last `-x` lies beyond the arguments. -/
theorem handleXOption_ne_fatal : handleXOption cur next ≠ .error .fatal := by
  rw [handleXOption]
  split_ifs
  · nofun
  · nofun
  · cases next <;> nofun
  · nofun

theorem handleXOption_outOfRange :
    handleXOption cur next = .error .outOfRange ↔ cur = "-x".toList ∧ next = none := by
  rw [handleXOption]
  split_ifs with hx hsan heq
  · refine iff_of_false nofun ?_
    intro h
    rw [h.1] at hx
    exact absurd hx (by decide)
  · refine iff_of_false nofun ?_
    intro h
    rw [h.1] at hsan
    exact absurd hsan (by decide)
  · rw [and_iff_right heq]
    cases next with
    | none => exact iff_of_true rfl rfl
    | some language => exact iff_of_false nofun nofun
  · exact iff_of_false nofun fun h => heq h.1

theorem scanOption_ne_outOfRange : scanOption d s cur ≠ .error .outOfRange := by
  intro h
  rw [scanOption] at h
  iterate 8
    rcases ite_eq_iff.mp h with ⟨-, h⟩ | ⟨-, h⟩
    · cases h
  rcases ite_eq_iff.mp h with ⟨-, h⟩ | ⟨-, h⟩
  · rcases ite_eq_iff.mp h with ⟨-, h⟩ | ⟨-, h⟩
    · cases h
    · cases h
  iterate 4
    rcases ite_eq_iff.mp h with ⟨-, h⟩ | ⟨-, h⟩
    · cases h
  cases h

theorem flagsOf_cons : flagsOf s (cur :: rest) = flagsOf (flagsAfter s cur rest.head?) rest := by
  have hswap : ∀ a b c : Bool, (a || b || c) = (b || (a || c)) := by decide
  rw [flagsOf, flagsOf, flagsAfter]
  simp only [List.contains_cons, List.any_cons, assembles, List.foldl_cons, hswap]
  rw [Bool.or_left_comm ("-fsanitize=address".toList == cur)
      (rest.contains "-fsanitize=memory".toList),
    Bool.or_left_comm ("-shared".toList == cur) (rest.contains "-dynamiclib".toList)]

theorem not_flagged {p : CString → Bool} (hcur : p cur = true)
    (hp : ∀ option ∈ flagged, p option = false) : cur ∉ flagged := by
  intro h
  rw [hp cur h] at hcur
  cases hcur

theorem flagsAfter_of_not_flagged (h : cur ∉ flagged) :
    flagsAfter s cur next =
      { s with
        xSet := isXOption cur || s.xSet
        fortifySet := mentionsFortify cur || s.fortifySet
        frontendOpt :=
          { s.frontendOpt with
            asmAsSource := selectsAssembler cur next || s.frontendOpt.asmAsSource
            objFormat := formatAfter s.frontendOpt.objFormat cur } } := by
  have hne : ∀ option ∈ flagged, (option == cur) = false := by
    intro option hmem
    rw [beq_eq_false_iff_ne]
    rintro rfl
    exact h hmem
  simp only [flagged, List.forall_mem_cons] at hne
  obtain ⟨h₁, h₂, h₃, h₄, h₅, h₆, h₇, h₈, h₉, -⟩ := hne
  rw [flagsAfter, h₁, h₂, h₃, h₄, h₅, h₆, h₇, h₈, h₉]
  rfl

theorem isXOption_iff : isXOption cur = false ↔ handleXOption cur next = .ok none := by
  rw [isXOption, handleXOption]
  cases optMatch cur "-x".toList with
  | false => exact iff_of_true rfl rfl
  | true =>
      by_cases hsan : cur = "-xsan".toList ∨ cur = "-xsan-only".toList
      · rw [decide_eq_true hsan, if_pos hsan]
        exact iff_of_true rfl rfl
      · rw [decide_eq_false hsan, if_neg hsan]
        refine iff_of_false (by decide) ?_
        rw [if_neg (by decide)]
        split
        · nofun
        · nofun

/-- After the comparisons with `-x`. -/
theorem scanOption_flags (hx : handleXOption cur next = .ok none)
    (hfirst : cur ≠ "--driver-mode=g++".toList) (h : scanOption d s cur = .ok s') :
    s' = flagsAfter s cur next := by
  have hnot := isXOption_iff.mpr hx
  have hselects : selectsAssembler cur next =
      (isAssembly cur && !strstr cur "FORTIFY_SOURCE".toList && !optMatch cur "-O".toList &&
        !optMatch cur "-funroll-loops".toList && !optMatch cur "--target=".toList) := by
    rw [selectsAssembler, hx]
  have hkeep : cur ∉ flagged → strstr cur "FORTIFY_SOURCE".toList = false →
      optMatch cur "--target=".toList = false → selectsAssembler cur next = false →
        s = flagsAfter s cur next := by
    intro hcur hfortify htarget hasm
    rw [flagsAfter_of_not_flagged hcur, hasm, hnot, mentionsFortify, formatAfter, hfortify,
      htarget]
    rfl
  rw [scanOption] at h
  rcases ite_eq_iff.mp h with ⟨hsan, h⟩ | ⟨hsan, h⟩
  · cases h
    rcases hsan with rfl | rfl <;> rfl
  rcases ite_eq_iff.mp h with ⟨hfortify, h⟩ | ⟨hfortify, h⟩
  · cases h
    have hcur : cur ∉ flagged :=
      not_flagged (p := fun cur => strstr cur "FORTIFY_SOURCE".toList) hfortify (by decide)
    rw [flagsAfter_of_not_flagged hcur, hselects, hnot, mentionsFortify, formatAfter, hfortify,
      hnot]
    simp only [Bool.not_true, Bool.and_false, Bool.false_and]
    rfl
  rw [Bool.not_eq_true] at hfortify
  rcases ite_eq_iff.mp h with ⟨rfl, h⟩ | ⟨-, h⟩
  · cases h
    rfl
  rcases ite_eq_iff.mp h with ⟨hshared, h⟩ | ⟨hshared, h⟩
  · cases h
    rcases hshared with rfl | rfl <;> rfl
  rcases ite_eq_iff.mp h with ⟨hlate, h⟩ | ⟨-, h⟩
  · cases h
    rw [recordedLate, decide_eq_true_eq] at hlate
    simp only [List.mem_cons, List.not_mem_nil, or_false] at hlate
    rcases hlate with rfl | rfl | rfl | rfl | rfl <;> rfl
  rcases ite_eq_iff.mp h with ⟨rfl, h⟩ | ⟨hc, h⟩
  · cases h
    rfl
  rcases ite_eq_iff.mp h with ⟨hopt, h⟩ | ⟨hopt, h⟩
  · cases h
    refine hkeep (not_flagged (p := fun cur => optMatch cur "-O".toList) hopt (by decide)) hfortify
      (@optMatch_append cur 'O' '-' ['-'] [] "target=".toList hopt (by decide)) ?_
    rw [hselects, hopt]
    simp only [Bool.not_true, Bool.and_false, Bool.false_and]
  rcases ite_eq_iff.mp h with ⟨hunroll, h⟩ | ⟨hunroll, h⟩
  · cases h
    refine hkeep (not_flagged (p := fun cur => optMatch cur "-funroll-loops".toList) hunroll
      (by decide)) hfortify (@optMatch_append cur 'f' '-' ['-'] _ "target=".toList hunroll
        (by decide)) ?_
    rw [hselects, hunroll]
    simp only [Bool.not_true, Bool.and_false, Bool.false_and]
  rcases ite_eq_iff.mp h with ⟨hlibsan, h⟩ | ⟨hlibsan, h⟩
  · rcases ite_eq_iff.mp h with ⟨-, h⟩ | ⟨-, h⟩
    · cases h
    · cases h
      subst hlibsan
      rfl
  rcases ite_eq_iff.mp h with ⟨rfl, h⟩ | ⟨hlib, h⟩
  · cases h
    rfl
  rcases ite_eq_iff.mp h with ⟨rfl, h⟩ | ⟨has, h⟩
  · cases h
    rfl
  rcases ite_eq_iff.mp h with ⟨htarget, h⟩ | ⟨htarget, h⟩
  · cases h
    have hcur : cur ∉ flagged :=
      not_flagged (p := fun cur => optMatch cur "--target=".toList) htarget (by decide)
    rw [flagsAfter_of_not_flagged hcur, hselects, hnot, mentionsFortify, formatAfter, hfortify,
      htarget]
    simp only [Bool.not_true, Bool.and_false]
    rfl
  rw [Bool.not_eq_true] at hopt hunroll htarget
  rcases ite_eq_iff.mp h with ⟨hassembly, h⟩ | ⟨hassembly, h⟩
  · cases h
    rw [flagsAfter_of_not_flagged (not_flagged hassembly (by decide)), hselects, hnot,
      mentionsFortify, formatAfter, hfortify, htarget, hopt, hunroll, hassembly]
    rfl
  · cases h
    refine hkeep ?_ hfortify htarget ?_
    · intro hmem
      rw [flagged] at hmem
      simp only [List.mem_cons, List.not_mem_nil, or_false] at hmem
      rw [not_or] at hsan hshared
      rcases hmem with hmem | hmem | hmem | hmem | hmem | hmem | hmem | hmem | hmem
      · exact hfirst hmem
      · exact hsan.1 hmem
      · exact hsan.2 hmem
      · exact hshared.1 hmem
      · exact hshared.2 hmem
      · exact hc hmem
      · exact hlib hmem
      · exact hlibsan hmem
      · exact has hmem
    · rw [hselects, Bool.eq_false_of_not_eq_true hassembly]
      rfl

/-- The arguments before the comparison with `-x` are none of the others. -/
theorem ne_xOption_of_first (h : cur = "--driver-mode=g++".toList ∨ cur ∈ recorded) :
    cur ≠ "-x".toList := by
  rw [recorded] at h
  simp only [List.mem_cons, List.not_mem_nil, or_false] at h
  rcases h with rfl | rfl | rfl | rfl <;> decide

theorem scanArgument_outOfRange :
    scanArgument d s cur next = .error .outOfRange ↔ cur = "-x".toList ∧ next = none := by
  rw [scanArgument]
  by_cases hmode : cur = "--driver-mode=g++".toList
  · rw [if_pos hmode]
    exact iff_of_false nofun fun h => ne_xOption_of_first (Or.inl hmode) h.1
  · rw [if_neg hmode]
    by_cases hrecorded : cur ∈ recorded
    · rw [if_pos hrecorded]
      exact iff_of_false nofun fun h => ne_xOption_of_first (Or.inr hrecorded) h.1
    · rw [if_neg hrecorded, ← handleXOption_outOfRange]
      cases handleXOption cur next with
      | error fault =>
          cases fault with
          | fatal => exact iff_of_false nofun nofun
          | outOfRange => exact iff_of_true rfl rfl
      | ok isAssembler =>
          cases isAssembler with
          | none => exact iff_of_false scanOption_ne_outOfRange nofun
          | some isAssembler => exact iff_of_false nofun nofun

theorem scanArgument_flags (h : scanArgument d s cur next = .ok s') :
    s' = flagsAfter s cur next := by
  rw [scanArgument] at h
  rcases ite_eq_iff.mp h with ⟨rfl, h⟩ | ⟨hfirst, h⟩
  · cases h
    rfl
  rcases ite_eq_iff.mp h with ⟨hrecorded, h⟩ | ⟨-, h⟩
  · cases h
    rw [recorded] at hrecorded
    simp only [List.mem_cons, List.not_mem_nil, or_false] at hrecorded
    rcases hrecorded with rfl | rfl | rfl <;> rfl
  cases hx : handleXOption cur next with
  | error fault =>
      rw [hx] at h
      cases h
  | ok isAssembler =>
      rw [hx] at h
      cases isAssembler with
      | none => exact scanOption_flags hx hfirst h
      | some isAssembler =>
          cases h
          have hoption : isXOption cur = true := by
            rw [← Bool.not_eq_false, isXOption_iff, hx]
            nofun
          have hopt : optMatch cur "-x".toList = true := (Bool.and_eq_true_iff.mp hoption).1
          have htarget := @optMatch_append cur 'x' '-' ['-'] [] "target=".toList hopt (by decide)
          have hcur : cur ∉ flagged :=
            not_flagged (p := fun cur => optMatch cur "-x".toList) hopt (by decide)
          have htarget : optMatch cur "--target=".toList = false := htarget
          rw [flagsAfter_of_not_flagged hcur, selectsAssembler, hx, mentionsFortify, formatAfter,
            hoption, htarget, Bool.or_comm isAssembler]
          simp only [Bool.not_true, Bool.and_false]
          rfl

/-- The scanning loop reads behind the last argument if and only if that is `-x`. -/
theorem scanArguments_cases (hfatal : scanArguments d s args ≠ .error .fatal) :
    args.getLast? = some "-x".toList ∧ scanArguments d s args = .error .outOfRange ∨
      args.getLast? ≠ some "-x".toList ∧ scanArguments d s args = .ok (flagsOf s args) := by
  induction args generalizing s with
  | nil => exact Or.inr ⟨nofun, rfl⟩
  | cons cur rest ih =>
      rw [flagsOf_cons]
      rw [scanArguments] at hfatal ⊢
      cases hscan : scanArgument d s cur rest.head? with
      | error fault =>
          rw [hscan] at hfatal
          cases fault with
          | fatal => exact absurd rfl hfatal
          | outOfRange =>
              obtain ⟨hcur, hhead⟩ := scanArgument_outOfRange.mp hscan
              rw [List.head?_eq_none_iff] at hhead
              rw [hcur, hhead]
              exact Or.inl ⟨rfl, rfl⟩
      | ok s₁ =>
          rw [hscan] at hfatal
          rw [← scanArgument_flags hscan, ok_bind]
          have hlast : (cur :: rest).getLast? = some "-x".toList ↔
              rest.getLast? = some "-x".toList := by
            cases rest with
            | nil =>
                refine iff_of_false ?_ nofun
                intro hcur
                have hrange := (@scanArgument_outOfRange d s cur none).mpr
                  ⟨Option.some.inj hcur, rfl⟩
                rw [List.head?_nil] at hscan
                rw [hscan] at hrange
                cases hrange
            | cons next rest => rw [List.getLast?_cons_cons]
          rw [Ne, hlast]
          exact ih hfatal

end Scan

/-! ## The entries of the wrapper's own -/

section Own

variable {build : Build} {env : Environ} {d : Detection} {s : Flags} {g g' : Globals}

/-- Entries are added, and nothing else changes. -/
structure Adds (g g' : Globals) (n : ℕ) : Prop where
  length : g'.ccParams.length = g.ccParams.length + n
  actSanitizers : g'.actSanitizers = g.actSanitizers
  recoverSanitizers : g'.recoverSanitizers = g.recoverSanitizers
  frontendOpt : g'.frontendOpt = g.frontendOpt

theorem Adds.refl (g : Globals) : Adds g g 0 := ⟨rfl, rfl, rfl, rfl⟩

theorem Adds.trans {g'' : Globals} {m n : ℕ} (h : Adds g g' m) (h' : Adds g' g'' n) :
    Adds g g'' (m + n) :=
  ⟨by rw [h'.length, h.length, Nat.add_assoc], h'.actSanitizers.trans h.actSanitizers,
    h'.recoverSanitizers.trans h.recoverSanitizers, h'.frontendOpt.trans h.frontendOpt⟩

theorem adds_add {entries : List CString} : Adds g (g.add entries) entries.length :=
  ⟨List.length_append, rfl, rfl, rfl⟩

theorem adds_addIf {c : Bool} {entries : List CString} :
    Adds g (g.addIf c entries) (c.toNat * entries.length) :=
  ⟨length_addIf, addIf_actSanitizers, addIf_recoverSanitizers, addIf_frontendOpt⟩

theorem adds_middleEnd {opt : CString} :
    Adds g (g.addLlvmMiddleEndOption opt) (2 * (!g.frontendOpt.asmAsSource).toNat) :=
  ⟨length_addLlvmMiddleEndOption, addLlvmMiddleEndOption_actSanitizers,
    addLlvmMiddleEndOption_recoverSanitizers, addLlvmMiddleEndOption_frontendOpt⟩

/-- A middle-end option that depends on a condition. -/
theorem adds_middleEnd_if {c : Bool} {opt : CString} :
    Adds g (if c then g.addLlvmMiddleEndOption opt else g)
      (2 * (c && !g.frontendOpt.asmAsSource).toNat) := by
  cases c with
  | true => exact adds_middleEnd
  | false => exact Adds.refl g

theorem Adds.congr {m n : ℕ} (h : Adds g g' m) (hn : m = n) : Adds g g' n := hn ▸ h

theorem initSanitizerSetting_adds (hact : g.actSanitizers = d.actSanitizers)
    (h : initSanitizerSetting build env g d.xsanTy = .ok g') :
    Adds g g' (initEntries env d) := by
  rw [initSanitizerSetting] at h
  rcases ite_eq_iff.mp h with ⟨hnone, h⟩ | ⟨hnone, h⟩
  · cases h
    rw [initEntries, if_pos hnone]
    exact Adds.refl g
  · rcases ite_eq_iff.mp h with ⟨-, h⟩ | ⟨-, h⟩
    · cases h
    · cases h
      rw [initEntries, if_neg hnone, hact]
      refine (((((((adds_addIf).trans adds_addIf).trans adds_addIf).trans adds_addIf).trans
        adds_addIf).trans adds_addIf).trans adds_addIf).congr ?_
      simp only [List.length_cons, List.length_nil, Nat.zero_add, Nat.mul_one]
      omega

theorem initSanitizerSetting_ne_outOfRange {sanTy : SanitizerType} :
    initSanitizerSetting build env g sanTy ≠ .error .outOfRange := by
  intro h
  rw [initSanitizerSetting] at h
  rcases ite_eq_iff.mp h with ⟨-, h⟩ | ⟨-, h⟩
  · cases h
  · rcases ite_eq_iff.mp h with ⟨-, h⟩ | ⟨-, h⟩
    · cases h
    · cases h

theorem Adds.middleEnd_if {n : ℕ} {c : Bool} {opt : CString} (h : Adds g g' n) :
    Adds g (if c then g'.addLlvmMiddleEndOption opt else g')
      (n + 2 * (c && !g.frontendOpt.asmAsSource).toNat) := by
  have hnext := @adds_middleEnd_if g' c opt
  rw [h.frontendOpt] at hnext
  exact h.trans hnext

theorem middleEnd_if_actSanitizers {c : Bool} {opt : CString} :
    (if c then g.addLlvmMiddleEndOption opt else g).actSanitizers = g.actSanitizers :=
  adds_middleEnd_if.actSanitizers

theorem middleEnd_if_recoverSanitizers {c : Bool} {opt : CString} :
    (if c then g.addLlvmMiddleEndOption opt else g).recoverSanitizers = g.recoverSanitizers :=
  adds_middleEnd_if.recoverSanitizers

theorem registPassPlugin_adds (hact : g.actSanitizers = d.actSanitizers) :
    ∃ n, Adds g (registPassPlugin build env g d.xsanTy) n ∧
      (g.frontendOpt.asmAsSource = false → n = pluginEntries d) ∧
      (g.frontendOpt.asmAsSource = true → n ≤ 3) := by
  rw [registPassPlugin, pluginEntries]
  cases passName d.xsanTy with
  | none => exact ⟨0, Adds.refl g, fun _ => rfl, fun _ => Nat.zero_le _⟩
  | some sanPass =>
      by_cases hxsan : d.xsanTy = .xsan
      · simp only [hxsan, ne_eq, not_true_eq_false, if_false, if_true,
          middleEnd_if_actSanitizers, add_actSanitizers, hact]
        refine ⟨_, ((adds_add.middleEnd_if).middleEnd_if).middleEnd_if, ?_, ?_⟩
        · intro hasm
          simp only [hasm, Bool.not_false, Bool.and_true, List.length_cons, List.length_nil]
          omega
        · intro hasm
          simp only [hasm, Bool.not_true, Bool.and_false, Bool.toNat_false, List.length_cons,
            List.length_nil]
          omega
      · simp only [hxsan, ne_eq, not_false_eq_true, if_true, if_false]
        exact ⟨3, adds_add, fun _ => rfl, fun _ => Nat.le_refl _⟩

theorem Adds.add {n : ℕ} {entries : List CString} (h : Adds g g' n) :
    Adds g (g'.add entries) (n + entries.length) :=
  h.trans adds_add

theorem Adds.addIf {n : ℕ} {c : Bool} {entries : List CString} (h : Adds g g' n) :
    Adds g (g'.addIf c entries) (n + c.toNat * entries.length) :=
  h.trans adds_addIf

/-- The static runtime, between the two options about archives. -/
theorem Adds.staticRuntime {n : ℕ} {c : Prop} [Decidable c] {preinit : Bool}
    {first preinitRt last : List CString} (h : Adds g g' n) :
    Adds g (if c then ((g'.add first).addIf preinit preinitRt).add last else g')
      (n + if c then first.length + preinit.toNat * preinitRt.length + last.length else 0) := by
  by_cases hc : c
  · rw [if_pos hc, if_pos hc]
    refine ((h.add).addIf.add).congr ?_
    omega
  · rw [if_neg hc, if_neg hc]
    exact h

theorem addSanitizerRuntime_adds :
    Adds g (addSanitizerRuntime build env g d.xsanTy s.isCxx s.sharedLinking s.needsSharedRt)
      (runtimeEntries build d s) := by
  rw [addSanitizerRuntime, runtimeEntries]
  cases build.useLivepatch with
  | true => exact Adds.refl g
  | false =>
      cases hname : runtimeName d.xsanTy with
      | none =>
          have hnone : d.xsanTy = .sanNone := by
            cases hty : d.xsanTy <;> rw [hty] at hname <;> first | rfl | cases hname
          simp only [hnone, decide_true, Bool.or_true, if_true]
          exact Adds.refl g
      | some san =>
          have hsome : d.xsanTy ≠ .sanNone := by
            intro hnone
            rw [hnone] at hname
            cases hname
          simp only [hsome, decide_false, Bool.or_false, Bool.false_eq_true, if_false]
          cases s.sharedLinking with
          | true =>
              refine ((Adds.refl g).addIf.addIf.staticRuntime).congr ?_
              simp only [Bool.true_or, if_true, List.length_cons, List.length_nil]
              split <;> omega
          | false =>
              cases s.needsSharedRt with
              | true =>
                  refine ((Adds.refl g).addIf.addIf.staticRuntime).congr ?_
                  simp only [Bool.false_or, if_true, List.length_cons, List.length_nil]
                  split <;> omega
              | false =>
                  refine ((Adds.refl g).addIf.addIf.staticRuntime.add.addIf.add.addIf.add).congr ?_
                  simp only [Bool.or_self, Bool.false_eq_true, if_false, List.length_cons,
                    List.length_nil]
                  split <;> omega

theorem addPassOptions_adds (hact : g.actSanitizers = d.actSanitizers) :
    ∃ n, Adds g (addPassOptions g d.xsanTy) n ∧
      (g.frontendOpt.asmAsSource = false →
        n = passEntries d g.recoverSanitizers (asanUseGlobalsGc g.frontendOpt)) ∧
      (g.frontendOpt.asmAsSource = true → n = 0) := by
  rw [addPassOptions, passEntries]
  by_cases hnone : d.xsanTy = .sanNone
  · rw [if_pos hnone, if_pos hnone]
    exact ⟨0, Adds.refl g, fun _ => rfl, fun _ => rfl⟩
  · rw [if_neg hnone, if_neg hnone, hact]
    cases has d.actSanitizers .asan with
    | false =>
        cases hmsan : has d.actSanitizers .msan with
        | false =>
            simp only [hact, hmsan, Bool.false_eq_true, if_false, Bool.false_and]
            exact ⟨0, Adds.refl g, fun _ => rfl, fun _ => rfl⟩
        | true =>
            simp only [hact, hmsan, Bool.false_eq_true, if_false, if_true, Bool.false_and,
              Bool.true_and]
            refine ⟨_, adds_middleEnd_if, fun hasm => ?_, fun hasm => ?_⟩
            · simp only [hasm, Bool.not_false, Bool.and_true, Bool.toNat_false]
              omega
            · rw [hasm, Bool.not_true, Bool.and_false]
              rfl
    | true =>
        simp only [if_true, middleEnd_if_recoverSanitizers, middleEnd_if_actSanitizers, hact,
          Bool.true_and]
        cases hmsan : has d.actSanitizers .msan with
        | false =>
            simp only [Bool.false_eq_true, if_false, Bool.false_and]
            refine ⟨_, adds_middleEnd_if.middleEnd_if, fun hasm => ?_, fun hasm => ?_⟩
            · simp only [hasm, Bool.not_false, Bool.and_true, Bool.toNat_false]
              omega
            · simp only [hasm, Bool.not_true, Bool.and_false, Bool.toNat_false]
        | true =>
            simp only [if_true, Bool.true_and]
            refine ⟨_, adds_middleEnd_if.middleEnd_if.middleEnd_if, fun hasm => ?_,
              fun hasm => ?_⟩
            · simp only [hasm, Bool.not_false, Bool.and_true]
            · simp only [hasm, Bool.not_true, Bool.and_false, Bool.toNat_false]

theorem addEnvironment_adds (h : addEnvironment env s g = .ok g') :
    Adds g g' (environmentEntries env s) := by
  rw [addEnvironment] at h
  rcases ite_eq_iff.mp h with ⟨-, h⟩ | ⟨-, h⟩
  · cases h
  · cases h
    rw [environmentEntries]
    refine ((((((adds_addIf).trans adds_addIf).trans adds_addIf).trans adds_addIf).trans
      adds_addIf).trans adds_addIf).congr ?_
    have huse : (!s.asanSet && env.xUseAsan).toNat +
        (!s.asanSet && !env.xUseAsan && env.xUseMsan).toNat =
          (!s.asanSet && (env.xUseAsan || env.xUseMsan)).toNat := by
      cases s.asanSet <;> cases env.xUseAsan <;> cases env.xUseMsan <;> rfl
    simp only [noBuiltin, List.length_cons, List.length_nil, Nat.zero_add, Nat.mul_one]
    omega

theorem addEnvironment_ne_outOfRange : addEnvironment env s g ≠ .error .outOfRange := by
  intro h
  rw [addEnvironment] at h
  rcases ite_eq_iff.mp h with ⟨-, h⟩ | ⟨-, h⟩
  · cases h
  · cases h

/-- What the wrapper adds before the arguments. -/
theorem addPreamble_adds (hact : g.actSanitizers = d.actSanitizers)
    (h : addPreamble build env d.xsanTy s g = .ok g') :
    ∃ n, Adds g g' (2 * s.xSet.toNat + initEntries env d + n +
        if s.haveC then 0 else runtimeEntries build d s) ∧
      (g.frontendOpt.asmAsSource = false → n = if s.onlyLib then 0 else pluginEntries d) ∧
      (g.frontendOpt.asmAsSource = true → n ≤ 3) := by
  rw [addPreamble] at h
  have hx : Adds g (g.addIf s.xSet ["-x".toList, "none".toList]) (2 * s.xSet.toNat) :=
    adds_addIf.congr (Nat.mul_comm _ _)
  generalize g.addIf s.xSet ["-x".toList, "none".toList] = g₁ at h hx
  obtain ⟨g₂, hinit, hrest⟩ := bind_eq_ok.mp h
  have h₂ := hx.trans (initSanitizerSetting_adds (hx.actSanitizers.trans hact) hinit)
  have hplugin : ∃ n,
      Adds g₂ (if !s.onlyLib then registPassPlugin build env g₂ d.xsanTy else g₂) n ∧
      (g₂.frontendOpt.asmAsSource = false → n = if s.onlyLib then 0 else pluginEntries d) ∧
      (g₂.frontendOpt.asmAsSource = true → n ≤ 3) := by
    cases s.onlyLib with
    | true => exact ⟨0, Adds.refl g₂, fun _ => rfl, fun _ => Nat.zero_le _⟩
    | false => exact registPassPlugin_adds (h₂.actSanitizers.trans hact)
  obtain ⟨n, h₃, hn, hn_le⟩ := hplugin
  rw [h₂.frontendOpt] at hn hn_le
  refine ⟨n, ?_, hn, hn_le⟩
  generalize (if !s.onlyLib then registPassPlugin build env g₂ d.xsanTy else g₂) = g₃ at hrest h₃
  cases hrest
  cases s.haveC with
  | true => exact h₂.trans h₃
  | false => exact (h₂.trans h₃).trans addSanitizerRuntime_adds

theorem addPreamble_ne_outOfRange {sanTy : SanitizerType} :
    addPreamble build env sanTy s g ≠ .error .outOfRange := by
  rw [addPreamble]
  cases hinit :
      initSanitizerSetting build env (g.addIf s.xSet ["-x".toList, "none".toList]) sanTy with
  | ok g' => nofun
  | error fault =>
      cases fault with
      | fatal => nofun
      | outOfRange => exact absurd hinit initSanitizerSetting_ne_outOfRange

theorem initEntries_le : initEntries env d ≤ 9 := by
  have hle := fun c : Bool => c.toNat_le
  rw [initEntries]
  split
  · exact Nat.zero_le _
  · have h₀ := hle (decide (d.xsanTy = .xsan))
    have h₁ := hle (has d.actSanitizers .asan)
    have h₂ := hle (has d.actSanitizers .tsan)
    have h₃ := hle (has d.actSanitizers .msan)
    have h₄ := hle (has d.actSanitizers .ubsan)
    have h₅ := hle (has d.actSanitizers .ubsan && (env.xsanInAsanTest || env.xsanInTsanTest))
    have h₆ := hle (has d.actSanitizers .ubsan && has d.actSanitizers .asan)
    omega

theorem runtimeEntries_le : runtimeEntries build d s ≤ 18 := by
  have hle := fun c : Bool => c.toNat_le
  rw [runtimeEntries]
  split
  · exact Nat.zero_le _
  · have h₀ := hle (decide (d.xsanTy = .xsan))
    have h₁ := hle (s.needsSharedRt && d.xsanTy ≠ .msan)
    have h₂ := hle (s.needsSharedRt && !s.sharedLinking)
    have h₃ := hle s.isCxx
    split <;> split <;> omega

theorem environmentEntries_le : environmentEntries env s ≤ 14 := by
  have hle := fun c : Bool => c.toNat_le
  have h₀ := hle env.xHarden
  have h₁ := hle (env.xHarden && !s.fortifySet)
  have h₂ := hle (!s.asanSet && (env.xUseAsan || env.xUseMsan))
  have h₃ := hle env.xNoBuiltin
  have h₄ := hle (!s.haveC)
  rw [environmentEntries]
  omega

end Own

/-! ## When the wrapper stays inside -/

section Whole

variable {build : Build} {env : Environ} {argv0 : CString} {args : List CString} {d : Detection}
  {s : Flags} {g g' : Globals} {unread : List CString}

/-- The end of `edit_params`. -/
theorem finish_adds {e : Except Fault Edited} (hact : g.actSanitizers = d.actSanitizers)
    (he : e = (do
      let g := if !s.onlyLib then addPassOptions g d.xsanTy else g
      let g ← addEnvironment env s g
      return ⟨g.ccParams, unread⟩)) (hfatal : e ≠ .error .fatal) :
    ∃ n result, e = .ok ⟨result, unread⟩ ∧
      result.length = g.ccParams.length + n + environmentEntries env s ∧
      (g.frontendOpt.asmAsSource = false → n = if s.onlyLib then 0 else
        passEntries d g.recoverSanitizers (asanUseGlobalsGc g.frontendOpt)) ∧
      (g.frontendOpt.asmAsSource = true → n = 0) := by
  have hpass : ∃ n, Adds g (if !s.onlyLib then addPassOptions g d.xsanTy else g) n ∧
      (g.frontendOpt.asmAsSource = false → n = if s.onlyLib then 0 else
        passEntries d g.recoverSanitizers (asanUseGlobalsGc g.frontendOpt)) ∧
      (g.frontendOpt.asmAsSource = true → n = 0) := by
    cases s.onlyLib with
    | true => exact ⟨0, Adds.refl g, fun _ => rfl, fun _ => rfl⟩
    | false => exact addPassOptions_adds hact
  obtain ⟨n, hadds, hn, hn'⟩ := hpass
  generalize (if !s.onlyLib then addPassOptions g d.xsanTy else g) = g₁ at he hadds
  cases henv : addEnvironment env s g₁ with
  | error fault =>
      cases fault with
      | fatal =>
          refine absurd ?_ hfatal
          rw [he]
          simp only [henv]
          rfl
      | outOfRange => exact absurd henv addEnvironment_ne_outOfRange
  | ok g₂ =>
      refine ⟨n, g₂.ccParams, ?_, ?_, hn, hn'⟩
      · rw [he]
        simp only [henv]
        rfl
      · rw [(addEnvironment_adds henv).length, hadds.length]

/-- What follows the wrapper's first entries. -/
def forwardAndFinish (build : Build) (env : Environ) (d : Detection) (s : Flags) (argv0 : CString)
    (args : List CString) (g : Globals) : Except Fault Edited := do
  let (g, unread) ← forwardLoop build.contains d.xsanTy (BitVec.ofNat 32 (args.length + 1)) g
    argv0 args
  let g := if !s.onlyLib then addPassOptions g d.xsanTy else g
  let g ← addEnvironment env s g
  return ⟨g.ccParams, unread⟩

theorem forwardAndFinish_assembler (hlen : args.length + 1 < 2 ^ 32)
    (hasm : g.frontendOpt.asmAsSource = true) (hact : g.actSanitizers = d.actSanitizers)
    (hroom : g.ccParams.length ≤ 34)
    (hfatal : forwardAndFinish build env d s argv0 args g ≠ .error .fatal) :
    StaysInside args (forwardAndFinish build env d s argv0 args g) ↔
      Even (trailingMllvm args) := by
  have hloop := @forwardLoop_assembler build.contains d.xsanTy g argv0 args hasm hlen
  rw [forwardAndFinish] at hfatal ⊢
  cases hdangles : dangles args with
  | true =>
      rw [hdangles, if_pos rfl] at hloop
      rw [hloop, error_bind]
      refine iff_of_false ?_ (dangles_iff.mp hdangles)
      intro hinside
      obtain ⟨e, he, -⟩ := hinside
      cases he
  | false =>
      rw [hdangles, if_neg Bool.false_ne_true] at hloop
      obtain ⟨g', hok, hle, hact', hasm'⟩ := hloop
      rw [hok, ok_bind] at hfatal ⊢
      have heven : Even (trailingMllvm args) := by
        by_contra hodd
        rw [dangles_iff.mpr hodd] at hdangles
        cases hdangles
      obtain ⟨n, result, he, hlength, -, hn⟩ := finish_adds (hact'.trans hact) rfl hfatal
      refine iff_of_true ⟨_, he, rfl, ?_⟩ heven
      have henv := @environmentEntries_le env s
      rw [hlength, hn hasm']
      omega

theorem forwardAndFinish_source (hlen : args.length + 1 < 2 ^ 32)
    (hasm : g.frontendOpt.asmAsSource = false) (hact : g.actSanitizers = d.actSanitizers)
    (hopt : g.frontendOpt = s.frontendOpt)
    (hrecover : g.recoverSanitizers = 0)
    (hlength : g.ccParams.length = 2 + (2 * s.xSet.toNat + initEntries env d +
      (if s.onlyLib then 0 else pluginEntries d) + if s.haveC then 0 else runtimeEntries build d s))
    (hfatal : forwardAndFinish build env d s argv0 args g ≠ .error .fatal) :
    StaysInside args (forwardAndFinish build env d s argv0 args g) ↔
      ownEntries build env d s argv0 args + forwardedEntries d.xsanTy argv0 args ≤
        args.length + 1 + 256 := by
  obtain ⟨g', hok, hlength', hact', hrecover', hopt'⟩ :=
    @forwardLoop_source build.contains d.xsanTy g argv0 args hasm hlen
  rw [forwardAndFinish, hok, ok_bind] at hfatal ⊢
  obtain ⟨n, result, he, hresult, hn, -⟩ := finish_adds (hact'.trans hact) rfl hfatal
  have hn := hn (by rw [hopt', hasm])
  rw [hrecover', hopt', hrecover, hopt] at hn
  have htotal : result.length + 1 =
      ownEntries build env d s argv0 args + forwardedEntries d.xsanTy argv0 args := by
    rw [hresult, hlength', hlength, hn, ownEntries]
    simp only
    omega
  refine Iff.trans (iff_of_eq (congrArg (StaysInside args) he)) ?_
  rw [← htotal]
  constructor
  · intro hinside
    obtain ⟨e, hsame, -, hle⟩ := hinside
    cases hsame
    exact hle
  · intro hle
    exact ⟨_, rfl, rfl, hle⟩

/-- The reads and writes of `edit_params` stay inside its arrays if and only if the arguments
fit. -/
theorem staysInside_iff (hlen : args.length + 1 < 2 ^ 32)
    (hfatal : editParams build env argv0 args ≠ .error .fatal) :
    StaysInside args (editParams build env argv0 args) ↔ Fits build env argv0 args := by
  cases hdetect : detectSanType build.contains (argv0 :: args) with
  | error text =>
      refine absurd ?_ hfatal
      rw [editParams, hdetect]
      rfl
  | ok d =>
      have hedit : editParams build env argv0 args = (do
          let isCxx := optMatch (programName argv0) "xclang++".toList
          let s ← scanArguments d (initialFlags build isCxx) args
          let g ← addPreamble build env d.xsanTy s
            (initialGlobals env isCxx d.actSanitizers s.frontendOpt)
          forwardAndFinish build env d s argv0 args g) := by
        rw [editParams, hdetect]
        rfl
      rw [hedit] at hfatal ⊢
      simp only at hfatal ⊢
      have hscan_ne : scanArguments d
          (initialFlags build (optMatch (programName argv0) "xclang++".toList)) args ≠
            .error .fatal := by
        intro hscan
        rw [hscan] at hfatal
        exact hfatal rfl
      rcases scanArguments_cases hscan_ne with ⟨hlast, hscan⟩ | ⟨hlast, hscan⟩
      · rw [hscan, error_bind]
        refine iff_of_false ?_ fun hfits => hfits.language hlast
        intro hinside
        obtain ⟨e, he, -⟩ := hinside
        cases he
      · rw [hscan, ok_bind] at hfatal ⊢
        set s := flagsOf (initialFlags build (optMatch (programName argv0) "xclang++".toList)) args
          with hs
        have hasm : s.frontendOpt.asmAsSource = assembles args := Bool.or_false _
        cases hpre : addPreamble build env d.xsanTy s (initialGlobals env
            (optMatch (programName argv0) "xclang++".toList) d.actSanitizers s.frontendOpt) with
        | error fault =>
            cases fault with
            | fatal =>
                rw [hpre] at hfatal
                exact absurd rfl hfatal
            | outOfRange => exact absurd hpre addPreamble_ne_outOfRange
        | ok g =>
            rw [hpre, ok_bind] at hfatal
            rw [ok_bind]
            obtain ⟨n, hadds, hn, hn_le⟩ := @addPreamble_adds build env d s _ _ rfl hpre
            have hsource : g.frontendOpt.asmAsSource = assembles args := by
              rw [hadds.frontendOpt]
              exact hasm
            cases hassembles : assembles args with
            | true =>
                rw [hassembles] at hsource hasm
                have hroom : g.ccParams.length ≤ 34 := by
                  have hinit := @initEntries_le env d
                  have hruntime := @runtimeEntries_le build d s
                  have hx := s.xSet.toNat_le
                  have hn3 := hn_le hasm
                  have hlength : g.ccParams.length = 2 + _ := hadds.length
                  rw [hlength]
                  split <;> omega
                rw [forwardAndFinish_assembler hlen hsource hadds.actSanitizers hroom hfatal]
                constructor
                · intro heven
                  refine ⟨hlast, fun _ => heven, ?_⟩
                  intro hnot
                  rw [hassembles] at hnot
                  cases hnot
                · intro hfits
                  exact hfits.operand hassembles
            | false =>
                rw [hassembles] at hsource hasm
                rw [forwardAndFinish_source hlen hsource hadds.actSanitizers hadds.frontendOpt
                  hadds.recoverSanitizers ?_ hfatal]
                · constructor
                  · intro hle
                    refine ⟨hlast, ?_, ?_⟩
                    · intro hyes
                      rw [hassembles] at hyes
                      cases hyes
                    · intro _ d' hdetect'
                      rw [hdetect] at hdetect'
                      cases hdetect'
                      exact hle
                  · intro hfits
                    exact hfits.entries hassembles d hdetect
                · have hlength : g.ccParams.length = 2 + _ := hadds.length
                  rw [hlength, hn hasm]

end Whole

/-! ## Options without operands -/

def defaultBuild : Build where
  contains := ⟨true, true, true, true⟩
  useLivepatch := true
  objFormat := .elf
  passDir := "pass".toList
  shareDir := "share".toList
  hostArchRtDir := "lib/x86_64".toList

def plainEnviron : Environ where
  xCxx := none
  xCc := none
  xHarden := false
  xUseAsan := false
  xUseMsan := false
  xNoBuiltin := false
  xsanInAsanTest := false
  xsanInTsanTest := false
  objPath := "/opt/xsan".toList

/-- `xclang -x` compares the null pointer behind the arguments, and `xclang a.s -mllvm` forwards
what lies behind it. -/
theorem missingOperand_outside :
    ¬StaysInside ["-x".toList]
        (editParams defaultBuild plainEnviron "xclang".toList ["-x".toList]) ∧
      ¬StaysInside ["a.s".toList, "-mllvm".toList]
        (editParams defaultBuild plainEnviron "xclang".toList ["a.s".toList, "-mllvm".toList]) := by
  have hlanguage : editParams defaultBuild plainEnviron "xclang".toList ["-x".toList] =
      .error .outOfRange := rfl
  have hoperand : editParams defaultBuild plainEnviron "xclang".toList
      ["a.s".toList, "-mllvm".toList] = .error .outOfRange := rfl
  rw [hlanguage, hoperand]
  constructor
  · intro h
    obtain ⟨e, he, -⟩ := h
    cases he
  · intro h
    obtain ⟨e, he, -⟩ := h
    cases he

theorem staysInside_iff_plainSource :
    StaysInside ["a.c".toList]
        (editParams defaultBuild plainEnviron "xclang".toList ["a.c".toList]) ↔
      Fits defaultBuild plainEnviron "xclang".toList ["a.c".toList] := by
  have hok : editParams defaultBuild plainEnviron "xclang".toList ["a.c".toList] =
      .ok ⟨["clang".toList, "-Qunused-arguments".toList, "a.c".toList, "-fuse-ld=lld".toList,
        "-L/usr/local/lib".toList], []⟩ := rfl
  refine staysInside_iff (by decide) ?_
  rw [hok]
  nofun

end Mair.Compiler
