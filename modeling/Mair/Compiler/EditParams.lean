import Mathlib.Data.List.Infix
import Mair.Compiler.Options

/-! # The arguments that the clang wrapper writes

`edit_params` scans the arguments, writes options of its own to `cc_params`, and forwards the
arguments with the edits for the sanitizers. -/

namespace Mair.Compiler

/-! ## Strings -/

/-- `OPT_MATCH`. -/
def optMatch (arg opt : CString) : Bool := opt.isPrefixOf arg

/-- What follows the last occurrence of the character, and the character. -/
def strrchr (cur : CString) (c : Char) : Option CString :=
  if c ∈ cur then some (c :: (cur.reverse.takeWhile (· ≠ c)).reverse) else none

def strstr (cur needle : CString) : Bool := needle <:+: cur

/-! ## Configuration -/

inductive ObjectFormatType where
  | machO | coff | elf | unknownObjectFormat
  deriving DecidableEq

/-- The build of the wrapper. -/
structure Build where
  contains : Contains
  useLivepatch : Bool
  objFormat : ObjectFormatType
  passDir : CString
  shareDir : CString
  hostArchRtDir : CString

/-- The environment variables that are read, and the path that `find_obj` has found. -/
structure Environ where
  xCxx : Option CString
  xCc : Option CString
  xHarden : Bool
  xUseAsan : Bool
  xUseMsan : Bool
  xNoBuiltin : Bool
  xsanInAsanTest : Bool
  xsanInTsanTest : Bool
  objPath : CString

structure FrontEndOpt where
  asmAsSource : Bool
  disableIntegratedAS : Bool
  sanitizeAddressGlobalsDeadStripping : Bool
  objFormat : ObjectFormatType

/-- The first error. Beyond the arguments, nothing may be read. -/
inductive Fault where
  | fatal
  | outOfRange
  deriving DecidableEq

/-! ## Global variables -/

structure Globals where
  ccParams : List CString
  actSanitizers : Mask
  recoverSanitizers : Mask
  frontendOpt : FrontEndOpt

namespace Globals

def add (g : Globals) (entries : List CString) : Globals :=
  { g with ccParams := g.ccParams ++ entries }

def addIf (g : Globals) (c : Bool) (entries : List CString) : Globals :=
  if c then g.add entries else g

/-- `ADD_LLVM_MIDDLE_END_OPTION`. -/
def addLlvmMiddleEndOption (g : Globals) (opt : CString) : Globals :=
  g.addIf (!g.frontendOpt.asmAsSource) ["-mllvm".toList, opt]

end Globals

/-! ## Options of the sanitizers

The result says whether the argument is discarded. -/

def handleAsanOptions (g : Globals) (arg : CString) (isMllvmArg isNeg : Bool) : Globals × Bool :=
  if isMllvmArg then
    if !optMatch arg "-asan-".toList then (g, false)
    else (g.add ["-as-".toList ++ arg.drop 6], true)
  else if !optMatch arg "address-".toList then (g, false)
  else
    let arg := arg.drop 8
    if arg = "globals-dead-stripping".toList then
      ({ g with frontendOpt.sanitizeAddressGlobalsDeadStripping := !isNeg }, false)
    else if arg = "poison-custom-array-cookie".toList then (g, false)
    else if optMatch arg "use-after-return=".toList then
      (g.addLlvmMiddleEndOption ("-sanitize-address-use-after-return=".toList ++ arg.drop 17),
        false)
    else if arg = "use-after-scope".toList then
      (g.addLlvmMiddleEndOption (if isNeg then "-sanitize-address-use-after-scope=0".toList
        else "-sanitize-address-use-after-scope".toList), false)
    else if arg = "use-odr-indicator".toList then
      (g.addLlvmMiddleEndOption (if isNeg then "-sanitize-address-use-odr-indicator=0".toList
        else "-sanitize-address-use-odr-indicator".toList), false)
    else if optMatch arg "destructor=".toList then
      (g.addLlvmMiddleEndOption ("-sanitize-address-destructor=".toList ++ arg.drop 11), false)
    else if arg = "outline-instrumentation".toList then
      (g.addLlvmMiddleEndOption (if isNeg then "-as-instrumentation-with-call-threshold".toList
        else "-as-instrumentation-with-call-threshold=0".toList), true)
    else (g, false)

def handleTsanOptions (g : Globals) (arg : CString) (isMllvmArg isNeg : Bool) : Globals × Bool :=
  if isMllvmArg then
    if !optMatch arg "-tsan-".toList then (g, false)
    else (g.add ["-ts-".toList ++ arg.drop 6], true)
  else if !optMatch arg "thread-".toList then (g, false)
  else
    let arg := arg.drop 7
    if arg = "atomics".toList then
      if !isNeg then (g, false)
      else (g.addLlvmMiddleEndOption "-ts-instrument-atomics=0".toList, true)
    else if arg = "func-entry-exit".toList then
      if !isNeg then (g, false)
      else (g.addLlvmMiddleEndOption "-ts-instrument-func-entry-exit=0".toList, true)
    else if arg = "memory-access".toList then
      if !isNeg then (g, false)
      else
        ((g.addLlvmMiddleEndOption
          "-ts-instrument-memory-accesses=0".toList).addLlvmMiddleEndOption
          "-ts-instrument-memintrinsics=0".toList, true)
    else (g, false)

def handleMsanOptions (g : Globals) (arg : CString) (isMllvmArg isNeg : Bool) : Globals × Bool :=
  if isMllvmArg then
    if !optMatch arg "-msan-".toList then (g, false)
    else (g.add ["-ms-".toList ++ arg.drop 6], true)
  else if !optMatch arg "memory-".toList then (g, false)
  else
    let arg := arg.drop 7
    if arg = "track-origins".toList then
      (g.addLlvmMiddleEndOption (if isNeg then "-sanitize-memory-track-origins=0".toList
        else "-sanitize-memory-track-origins=2".toList), true)
    else if optMatch arg "track-origins=".toList then
      (g.addLlvmMiddleEndOption ("-sanitize-memory-track-origins=".toList ++ arg.drop 14), true)
    else if arg = "param-retval".toList then
      (g.addLlvmMiddleEndOption (if isNeg then "-sanitize-memory-param-retval=0".toList
        else "-sanitize-memory-param-retval=1".toList), true)
    else (g, false)

/-- `-fsanitize-recover=<value>` and its negation. -/
def recover (contains : Contains) (mask : Mask) (isNeg : Bool) (val : CString) : Mask :=
  if val = "all".toList then if isNeg then clear mask .xsan else setAll contains mask
  else if val = "address".toList then if isNeg then clear mask .asan else set mask .asan
  else if val = "memory".toList then if isNeg then clear mask .msan else set mask .msan
  else mask

inductive OptAction where
  | remove
  | keep
  | pending (arg : CString) (isNeg : Bool)

def handleGenericSanitizerOptions (contains : Contains) (g : Globals) (arg : CString)
    (checkSanOpt : Bool) : Globals × OptAction :=
  if arg = "-lib-only".toList then (g, .remove)
  else if allOptions.any fun opt => arg = optionName opt then (g, .remove)
  else if !checkSanOpt then (g, .pending arg false)
  else if !optMatch arg "-f".toList then (g, .keep)
  else
    let isNeg := optMatch (arg.drop 2) "no-".toList
    let arg := if isNeg then arg.drop 5 else arg.drop 2
    if !optMatch arg "sanitize-".toList then (g, .keep)
    else
      let arg := arg.drop 9
      if optMatch arg "recover=".toList then
        ({ g with recoverSanitizers := recover contains g.recoverSanitizers isNeg (arg.drop 8) },
          .keep)
      else (g, .pending arg isNeg)

/-- Under XSan all handlers see the argument. -/
def handleSanitizerOptions (contains : Contains) (g : Globals) (arg : CString) (isMllvmArg : Bool)
    (sanTy : SanitizerType) : Globals × Bool :=
  match handleGenericSanitizerOptions contains g arg (!isMllvmArg) with
  | (g, .remove) => (g, true)
  | (g, .keep) => (g, false)
  | (g, .pending arg isNeg) =>
      match sanTy with
      | .asan => handleAsanOptions g arg isMllvmArg isNeg
      | .tsan => handleTsanOptions g arg isMllvmArg isNeg
      | .msan => handleMsanOptions g arg isMllvmArg isNeg
      | .xsan =>
          let (g, byAsan) := handleAsanOptions g arg isMllvmArg isNeg
          let (g, byTsan) := handleTsanOptions g arg isMllvmArg isNeg
          let (g, byMsan) := handleMsanOptions g arg isMllvmArg isNeg
          (g, byAsan || byTsan || byMsan)
      | .ubsan => (g, false)
      | .sanNone => (g, false)

/-! ## Options of the wrapper's own -/

def asanUseGlobalsGc (opt : FrontEndOpt) : Bool :=
  if !opt.sanitizeAddressGlobalsDeadStripping then false
  else
    match opt.objFormat with
    | .machO => true
    | .coff => true
    | .elf => !opt.disableIntegratedAS
    | .unknownObjectFormat => false

def addPassOptions (g : Globals) (sanTy : SanitizerType) : Globals :=
  if sanTy = .sanNone then g
  else
    let g :=
      if has g.actSanitizers .asan then
        let g :=
          if !asanUseGlobalsGc g.frontendOpt then
            g.addLlvmMiddleEndOption "-asan-globals-gc=0".toList
          else g
        if has g.recoverSanitizers .asan then
          g.addLlvmMiddleEndOption "-sanitize-recover-address".toList
        else g
      else g
    if has g.actSanitizers .msan then
      if has g.recoverSanitizers .msan then
        g.addLlvmMiddleEndOption "-sanitize-recover-memory".toList
      else g
    else g

def passName : SanitizerType → Option CString
  | .asan => some "ASanInstPass.so".toList
  | .tsan => some "TSanInstPass.so".toList
  | .msan => some "MSanInstPass.so".toList
  | .xsan => some "XSanInstPass.so".toList
  | .ubsan => none
  | .sanNone => none

def registPassPlugin (build : Build) (env : Environ) (g : Globals) (sanTy : SanitizerType) :
    Globals :=
  match passName sanTy with
  | none => g
  | some sanPass =>
      let sanPass := env.objPath ++ "/".toList ++ build.passDir ++ "/".toList ++ sanPass
      let g := g.add ["-fno-discard-value-names".toList, "-fplugin=".toList ++ sanPass,
        "-fpass-plugin=".toList ++ sanPass]
      if sanTy ≠ .xsan then g
      else
        let g :=
          if !has g.actSanitizers .asan then
            g.addLlvmMiddleEndOption "-xsan-disable-asan".toList
          else g
        let g :=
          if !has g.actSanitizers .tsan then
            g.addLlvmMiddleEndOption "-xsan-disable-tsan".toList
          else g
        if !has g.actSanitizers .msan then
          g.addLlvmMiddleEndOption "-xsan-disable-msan".toList
        else g

/-- XSan cannot be combined with a sanitizer that the build does not contain. -/
def missing (build : Build) (g : Globals) : Bool :=
  has g.actSanitizers .asan && !build.contains.asan ||
    has g.actSanitizers .tsan && !build.contains.tsan ||
    has g.actSanitizers .msan && !build.contains.msan

def initSanitizerSetting (build : Build) (env : Environ) (g : Globals) (sanTy : SanitizerType) :
    Except Fault Globals :=
  if sanTy = .sanNone then .ok g
  else if sanTy = .xsan && missing build g then .error .fatal
  else
    let act := g.actSanitizers
    let ubsan := has act .ubsan
    .ok ((((((g.addIf (sanTy = .xsan) ["-D__XSAN__".toList]).addIf
      (has act .asan) ["-fsanitize=address".toList]).addIf
      (has act .tsan) ["-fsanitize=thread".toList]).addIf
      (has act .msan) ["-fsanitize=memory".toList]).addIf
      ubsan ["-fsanitize=undefined".toList] |>.addIf
      (ubsan && (env.xsanInAsanTest || env.xsanInTsanTest)) ["-fno-sanitize=function".toList]).addIf
      (ubsan && has act .asan) ["-fno-sanitize=object-size".toList,
        "-fno-sanitize=bounds".toList, "-fno-sanitize=null".toList])

def runtimeName : SanitizerType → Option CString
  | .asan => some "asan".toList
  | .tsan => some "tsan".toList
  | .msan => some "msan".toList
  | .ubsan => some "ubsan_standalone".toList
  | .xsan => some "xsan".toList
  | .sanNone => none

/-- With the live patch, the compiler links the runtime. -/
def addSanitizerRuntime (build : Build) (env : Environ) (g : Globals) (sanTy : SanitizerType)
    (isCxx isDso needsSharedRt : Bool) : Globals :=
  if build.useLivepatch then g
  else
    match runtimeName sanTy with
    | none => g
    | some san =>
        let combName := Wrapper.getXsanCombName g.actSanitizers
        let dir := env.objPath ++ "/".toList ++ build.hostArchRtDir ++ "/".toList ++ combName
        let lib := dir ++ "/libclang_rt.".toList ++ san
        let g := g.addIf (sanTy = .xsan) ["-Wl,@".toList ++ env.objPath ++ "/".toList ++
          build.shareDir ++ "/".toList ++ combName ++ "/xsan_wrapped_symbols.txt".toList]
        let g := g.addIf (needsSharedRt && sanTy ≠ .msan)
          ["-Wl,-rpath,".toList ++ dir, lib ++ ".so".toList]
        let g :=
          if sanTy = .asan ∨ sanTy = .xsan then
            ((g.add ["-Wl,--whole-archive".toList]).addIf (needsSharedRt && !isDso)
              [lib ++ "-preinit.a".toList]).add
              [lib ++ "_static.a".toList, "-Wl,--no-whole-archive".toList]
          else g
        if isDso then g
        else if needsSharedRt then g
        else
          ((((g.add ["-Wl,--whole-archive".toList, lib ++ ".a".toList]).addIf isCxx
            [lib ++ "_cxx.a".toList]).add
            ["-Wl,--no-whole-archive".toList,
              "-Wl,--dynamic-list=".toList ++ lib ++ ".a.syms".toList]).addIf isCxx
            ["-Wl,--dynamic-list=".toList ++ lib ++ "_cxx.a.syms".toList]).add
            ["-lpthread".toList, "-lrt".toList, "-lm".toList, "-ldl".toList, "-lresolv".toList]

/-! ## The scanning loop -/

structure Flags where
  isCxx : Bool
  xSet : Bool
  asanSet : Bool
  fortifySet : Bool
  sharedLinking : Bool
  haveC : Bool
  onlyLib : Bool
  needsSharedRt : Bool
  frontendOpt : FrontEndOpt

/-- The options of the chain that are followed by nothing but the next argument. -/
def recorded : List CString :=
  ["-m32".toList, "armv7a-linux-androideabi".toList, "-m64".toList]

def recordedLate (cur : CString) : Bool :=
  cur ∈ ["-Wl,-r".toList, "-Wl,-i".toList, "-Wl,--relocatable".toList, "-r".toList,
    "--relocatable".toList]

def isAssembly (cur : CString) : Bool :=
  match strrchr cur '.' with
  | none => false
  | some suffix => suffix ∈ [".s".toList, ".S".toList, ".asm".toList]

def targetFormat (val : CString) : ObjectFormatType :=
  if strstr val "apple".toList then .machO
  else if strstr val "linux".toList then .elf
  else if strstr val "mingw32".toList then .coff
  else .unknownObjectFormat

/-- The result says whether the option is `-x`, and whether it selects the assembler. The language
of a plain `-x` is the next argument. -/
def handleXOption (cur : CString) (next : Option CString) : Except Fault (Option Bool) :=
  if !optMatch cur "-x".toList then .ok none
  else if cur = "-xsan".toList ∨ cur = "-xsan-only".toList then .ok none
  else
    match if cur = "-x".toList then next else some (cur.drop 2) with
    | none => .error .outOfRange
    | some language =>
        .ok (some (decide (language = "assembler".toList ∨
          language = "assembler-with-cpp".toList)))

/-- The comparisons after those with `-x`. -/
def scanOption (d : Detection) (s : Flags) (cur : CString) : Except Fault Flags :=
  if cur = "-fsanitize=address".toList ∨ cur = "-fsanitize=memory".toList then
    .ok { s with asanSet := true }
  else if strstr cur "FORTIFY_SOURCE".toList then .ok { s with fortifySet := true }
  else if cur = "-E".toList then .ok s
  else if cur = "-shared".toList ∨ cur = "-dynamiclib".toList then
    .ok { s with sharedLinking := true }
  else if recordedLate cur then .ok s
  else if cur = "-c".toList then .ok { s with haveC := true }
  else if optMatch cur "-O".toList then .ok s
  else if optMatch cur "-funroll-loops".toList then .ok s
  else if cur = "-shared-libsan".toList then
    if d.xsanTy = .xsan && has d.actSanitizers .msan then .error .fatal
    else .ok { s with needsSharedRt := true }
  else if cur = "-lib-only".toList then .ok { s with onlyLib := true }
  else if cur = "-no-integrated-as".toList then
    .ok { s with frontendOpt.disableIntegratedAS := true }
  else if optMatch cur "--target=".toList then
    .ok { s with frontendOpt.objFormat := targetFormat (cur.drop 9) }
  else if isAssembly cur then .ok { s with frontendOpt.asmAsSource := true }
  else .ok s

def scanArgument (d : Detection) (s : Flags) (cur : CString) (next : Option CString) :
    Except Fault Flags :=
  if cur = "--driver-mode=g++".toList then .ok { s with isCxx := true }
  else if cur ∈ recorded then .ok s
  else do
    match ← handleXOption cur next with
    | some isAssembler =>
        return { s with
          xSet := true
          frontendOpt.asmAsSource := s.frontendOpt.asmAsSource || isAssembler }
    | none => scanOption d s cur

def scanArguments (d : Detection) : Flags → List CString → Except Fault Flags
  | s, [] => .ok s
  | s, cur :: rest => do
      let s ← scanArgument d s cur rest.head?
      scanArguments d s rest

/-! ## The forwarding loop -/

def isDropped (cur : CString) : Bool :=
  cur = "-Wl,-z,defs".toList ∨ cur = "-Wl,--no-undefined".toList

/-- `argc` is the counter of the loop, and the list is what follows `argv`. The pointer may pass the
end of the arguments, the argument behind it may not be read. The result has what is left over. -/
def forwardLoop (contains : Contains) (sanTy : SanitizerType) :
    BitVec 32 → Globals → CString → List CString → Except Fault (Globals × List CString)
  | argc, g, _, [] => if argc - 1 = 0 then .ok (g, []) else .error .outOfRange
  | argc, g, prev, cur :: rest =>
      let argc := argc - 1
      if argc = 0 then .ok (g, cur :: rest)
      else if isDropped cur then forwardLoop contains sanTy argc g cur rest
      else
        match handleSanitizerOptions contains g cur (prev = "-mllvm".toList) sanTy with
        | (g, true) => forwardLoop contains sanTy argc g cur rest
        | (g, false) =>
            if g.frontendOpt.asmAsSource && cur = "-mllvm".toList then
              match rest with
              | [] => forwardLoop contains sanTy (argc - 1) g [] []
              | operand :: rest => forwardLoop contains sanTy (argc - 1) g operand rest
            else forwardLoop contains sanTy argc (g.add [cur]) cur rest

/-! ## The command line -/

def programName (arg : CString) : CString :=
  match strrchr arg '/' with
  | none => arg
  | some name => name.drop 1

def initialGlobals (env : Environ) (isCxx : Bool) (mask : Mask) (opt : FrontEndOpt) : Globals where
  ccParams := [if isCxx then env.xCxx.getD "clang++".toList else env.xCc.getD "clang".toList,
    "-Qunused-arguments".toList]
  actSanitizers := mask
  recoverSanitizers := 0
  frontendOpt := opt

def noBuiltin : List CString :=
  ["-fno-builtin-strcmp".toList, "-fno-builtin-strncmp".toList, "-fno-builtin-strcasecmp".toList,
    "-fno-builtin-strncasecmp".toList, "-fno-builtin-memcmp".toList, "-fno-builtin-bcmp".toList,
    "-fno-builtin-strstr".toList, "-fno-builtin-strcasestr".toList]

/-- The options that the environment asks for. -/
def addEnvironment (env : Environ) (s : Flags) (g : Globals) : Except Fault Globals :=
  let g := (g.addIf env.xHarden ["-fstack-protector-all".toList]).addIf
    (env.xHarden && !s.fortifySet) ["-D_FORTIFY_SOURCE=2".toList]
  let useAsan := !s.asanSet && env.xUseAsan
  let useMsan := !s.asanSet && !env.xUseAsan && env.xUseMsan
  if useAsan && (env.xUseMsan || env.xHarden) || useMsan && env.xHarden then .error .fatal
  else
    .ok (((((g.addIf useAsan ["-U_FORTIFY_SOURCE".toList, "-fsanitize=address".toList]).addIf
      useMsan ["-U_FORTIFY_SOURCE".toList, "-fsanitize=memory".toList]).addIf
      env.xNoBuiltin noBuiltin)).addIf
      (!s.haveC) ["-fuse-ld=lld".toList, "-L/usr/local/lib".toList])

/-- What is written before the arguments. -/
def addPreamble (build : Build) (env : Environ) (xsanTy : SanitizerType) (s : Flags)
    (g : Globals) : Except Fault Globals := do
  let g := g.addIf s.xSet ["-x".toList, "none".toList]
  let g ← initSanitizerSetting build env g xsanTy
  let g := if !s.onlyLib then registPassPlugin build env g xsanTy else g
  return if !s.haveC then
      addSanitizerRuntime build env g xsanTy s.isCxx s.sharedLinking s.needsSharedRt
    else g

/-- What is written, without the terminator, and the arguments left over. -/
structure Edited where
  ccParams : List CString
  unread : List CString

def initialFlags (build : Build) (isCxx : Bool) : Flags where
  isCxx := isCxx
  xSet := false
  asanSet := false
  fortifySet := false
  sharedLinking := false
  haveC := false
  onlyLib := false
  needsSharedRt := false
  frontendOpt := ⟨false, false, true, build.objFormat⟩

def editParams (build : Build) (env : Environ) (argv0 : CString) (args : List CString) :
    Except Fault Edited := do
  let isCxx := optMatch (programName argv0) "xclang++".toList
  let d ← (detectSanType build.contains (argv0 :: args)).mapError fun _ => .fatal
  let s ← scanArguments d (initialFlags build isCxx) args
  let g ← addPreamble build env d.xsanTy s
    (initialGlobals env isCxx d.actSanitizers s.frontendOpt)
  let (g, unread) ← forwardLoop build.contains d.xsanTy
    (BitVec.ofNat 32 (args.length + 1)) g argv0 args
  let g := if !s.onlyLib then addPassOptions g d.xsanTy else g
  let g ← addEnvironment env s g
  return ⟨g.ccParams, unread⟩

end Mair.Compiler
