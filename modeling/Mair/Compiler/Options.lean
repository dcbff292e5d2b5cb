import Mathlib.Data.BitVec

/-! # Sanitizer options of the compiler wrapper and of the live patch

The wrapper reads the arguments and exports a mask; the live patch, in another process, reads
the mask. -/

namespace Mair.Compiler

/-! ## Types -/

inductive SanitizerType where
  | sanNone | asan | tsan | msan | ubsan | xsan
  deriving DecidableEq

/-- The value of the enumerator. -/
def SanitizerType.index : SanitizerType → ℕ
  | .sanNone => 0
  | .asan => 1
  | .tsan => 2
  | .msan => 3
  | .ubsan => 4
  | .xsan => 5

/-- `XSanOnly` is an option without a type of its own. -/
inductive SanitizerOption where
  | asan | tsan | msan | ubsan | xsan | xsanOnly
  deriving DecidableEq

def getSanitizerType : SanitizerOption → SanitizerType
  | .asan => .asan
  | .tsan => .tsan
  | .msan => .msan
  | .ubsan => .ubsan
  | .xsan => .xsan
  | .xsanOnly => .xsan

/-- The build configuration, `XSAN_CONTAINS_*`. -/
structure Contains where
  asan : Bool
  tsan : Bool
  msan : Bool
  ubsan : Bool

abbrev CString := List Char

def optionName : SanitizerOption → CString
  | .asan => "-asan".toList
  | .tsan => "-tsan".toList
  | .msan => "-msan".toList
  | .ubsan => "-ubsan".toList
  | .xsan => "-xsan".toList
  | .xsanOnly => "-xsan-only".toList

/-! ## Masks -/

abbrev Mask := BitVec 64

def bit (sanTy : SanitizerType) : Mask := BitVec.twoPow 64 sanTy.index

def set (mask : Mask) (sanTy : SanitizerType) : Mask := mask ||| bit sanTy

def clear (mask : Mask) (sanTy : SanitizerType) : Mask :=
  mask &&& if sanTy = .xsan then 0 else ~~~bit sanTy

def has (mask : Mask) (sanTy : SanitizerType) : Bool := mask &&& bit sanTy ≠ 0

def hasAny (mask : Mask) : Bool := mask &&& ~~~(bit .xsan ||| bit .sanNone) ≠ 0

def setAll (contains : Contains) (mask : Mask) : Mask :=
  let mask := if contains.ubsan then set mask .ubsan else mask
  let mask := if contains.tsan then set mask .tsan else mask
  let mask := if contains.msan then set mask .msan else mask
  let mask := if contains.asan then set mask .asan else mask
  set mask .xsan

/-! ## The wrapper -/

/-- The local `xsanTy` and the mask in `act_sanitizers`. -/
structure Detection where
  xsanTy : SanitizerType
  actSanitizers : Mask
  deriving DecidableEq

def incompatibleSanTypes : SanitizerType → List SanitizerType
  | .asan => [.xsan, .tsan, .msan]
  | .tsan => [.xsan, .asan, .msan]
  | .msan => [.xsan, .asan, .tsan]
  | .xsan => [.asan, .tsan, .msan]
  | .ubsan => []
  | .sanNone => []

def supportSubsanitizers (contains : Contains) : SanitizerType → Bool
  | .asan => contains.asan
  | .tsan => contains.tsan
  | .msan => contains.msan
  | .ubsan => contains.ubsan
  | .xsan => true
  | .sanNone => false

/-- The name of the option that has the number of the type. -/
def typeName : SanitizerType → CString
  | .asan => optionName .asan
  | .tsan => optionName .tsan
  | .msan => optionName .msan
  | .ubsan => optionName .ubsan
  | .xsan => optionName .xsan
  | .sanNone => []

/-- UBSan is in force only if no other sanitizer is enabled. -/
def switchedType (d : Detection) (san : SanitizerType) : SanitizerType :=
  if san = .ubsan then if !hasAny d.actSanitizers then .ubsan else d.xsanTy
  else san

/-- The body of a matched `-<san>` switch; an error is the text of `FATAL`. -/
def applySwitch (contains : Contains) (d : Detection) (opt : SanitizerOption) :
    Except CString Detection :=
  let san := getSanitizerType opt
  match (incompatibleSanTypes san).find? fun incomp => d.xsanTy = incomp with
  | some incomp =>
      .error ("'".toList ++ typeName incomp ++ "' could not be used with '".toList ++
        optionName opt ++ "'".toList)
  | none =>
      if !supportSubsanitizers contains san then
        .error ("'".toList ++ optionName opt ++ "' is not supported by this compiler".toList)
      else
        let xsanTy := switchedType d san
        if opt = .xsan then .ok ⟨xsanTy, setAll contains d.actSanitizers⟩
        else .ok ⟨xsanTy, set d.actSanitizers xsanTy⟩

def allOptions : List SanitizerOption := [.asan, .tsan, .msan, .ubsan, .xsan, .xsanOnly]

/-- The value of one element of a `-fsanitize` list. -/
def listedType (part : CString) : Option SanitizerType :=
  if part = "address".toList then some .asan
  else if part = "thread".toList then some .tsan
  else if part = "memory".toList then some .msan
  else if part = "undefined".toList then some .ubsan
  else if part = "all".toList then some .xsan
  else none

/-- An unknown element repeats the type of the element before it. -/
def applyList (isNeg : Bool) : SanitizerType → Mask → List CString → Mask
  | _, mask, [] => mask
  | sanTy, mask, part :: parts =>
      let sanTy := (listedType part).getD sanTy
      applyList isNeg sanTy (if isNeg then clear mask sanTy else set mask sanTy) parts

def dropPrefix? (pre cur : CString) : Option CString :=
  if pre <+: cur then some (cur.drop pre.length) else none

/-- `-fsanitize=<value>` and `-fno-sanitize=<value>`. -/
def applySanitizeList (mask : Mask) (cur : CString) : Mask :=
  match dropPrefix? "-f".toList cur with
  | none => mask
  | some cur =>
      let isNeg := (dropPrefix? "no-".toList cur).isSome
      match dropPrefix? "sanitize=".toList ((dropPrefix? "no-".toList cur).getD cur) with
      | none => mask
      | some val => applyList isNeg .sanNone mask (val.splitOn ',')

def applyArgument (contains : Contains) (d : Detection) (cur : CString) :
    Except CString Detection := do
  let d ← (allOptions.filter fun opt => cur = optionName opt).foldlM (applySwitch contains) d
  return { d with actSanitizers := applySanitizeList d.actSanitizers cur }

def hasConflict (mask : Mask) : Bool :=
  [SanitizerType.asan, .tsan, .msan].any fun san =>
    has mask san && (incompatibleSanTypes san).any (has mask)

/-- XSan is enabled automatically, and a type that is no longer in the mask is dropped. -/
def settle (d : Detection) : Detection :=
  let d :=
    if d.xsanTy = .sanNone then
      if hasConflict d.actSanitizers then ⟨.xsan, d.actSanitizers ||| bit .xsan⟩ else d
    else d
  if d.xsanTy ≠ .xsan && !has d.actSanitizers d.xsanTy then { d with xsanTy := .sanNone } else d

/-- `argv` starts with the name of the program. -/
def detectSanType (contains : Contains) (argv : List CString) : Except CString Detection := do
  let d ← argv.tail.foldlM (applyArgument contains) ⟨.sanNone, 0⟩
  return settle d

def combination (asan msan tsan : Bool) : CString :=
  "xsan".toList ++ (if asan then "_asan".toList else []) ++
    (if msan then "_msan".toList else []) ++ (if tsan then "_tsan".toList else [])

/-- `get_xsan_comb_name` of the wrapper. -/
def Wrapper.getXsanCombName (mask : Mask) : CString :=
  if !has mask .xsan then []
  else combination (has mask .asan) (has mask .msan) (has mask .tsan)

/-- `init_sanitizer_setting` sets `XSAN_COMPILE_MASK`, which is unset before. -/
def exportedMask (d : Detection) : Option Mask :=
  if d.xsanTy = .sanNone then none else some d.actSanitizers

/-! ## The live patch -/

/-- The bitset of `NumSanitizerTypes` bits that is built from the environment variable. -/
def getXsanMask (env : Option Mask) : BitVec 6 := (env.getD 0).setWidth 6

def getSanType (env : Option Mask) : SanitizerType :=
  ([SanitizerType.xsan, .asan, .tsan, .msan, .ubsan].find? fun i =>
    (getXsanMask env).getLsbD i.index).getD .sanNone

def Livepatch.getXsanCombName (env : Option Mask) (xsanMask : BitVec 6) : CString :=
  if getSanType env = .xsan then
    combination (xsanMask.getLsbD SanitizerType.asan.index)
      (xsanMask.getLsbD SanitizerType.msan.index) (xsanMask.getLsbD SanitizerType.tsan.index)
  else []

/-! ## Computations that may stop -/

theorem ok_bind {ε α β : Type} {a : α} {f : α → Except ε β} :
    ((.ok a : Except ε α) >>= f) = f a := rfl

theorem error_bind {ε α β : Type} {e : ε} {f : α → Except ε β} :
    ((.error e : Except ε α) >>= f) = .error e := rfl

theorem bind_eq_ok {ε α β : Type} {x : Except ε α} {f : α → Except ε β} {b : β} :
    (x >>= f) = .ok b ↔ ∃ a, x = .ok a ∧ f a = .ok b := by
  cases x with
  | error e =>
      constructor
      · intro h
        cases h
      · intro h
        obtain ⟨a, ha, -⟩ := h
        cases ha
  | ok a =>
      constructor
      · intro h
        exact ⟨a, rfl, h⟩
      · intro h
        obtain ⟨a', ha, hf⟩ := h
        cases ha
        exact hf

end Mair.Compiler
