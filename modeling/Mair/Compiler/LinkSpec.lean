import Mair.Compiler.Options
import Mair.Library.Search
import Mathlib.Data.List.Sort

/-! # The link spec patcher of the gcc driver

A string view is a list of characters and its position in the link spec. The characters of the
link spec end before its terminator. -/

namespace Mair.Compiler

open Search

/-! ## Finding the string -/

def nul : Char := Char.ofNat 0

inductive Failure where
  | fatal (message : CString)
  /-- A string runs past its segment. -/
  | unterminated
  /-- A negative size is reserved. -/
  | lengthError
  /-- A part is asked for that begins behind the end. -/
  | outOfRange
  deriving DecidableEq

def linker : CString := "%(linker)".toList

def fltoFnoLto : CString := "%\x7bflto\x7d %\x7bfno-lto\x7d".toList

def postLink : CString := "%(post_link)".toList

def searchSubstr (hay needle : CString) : Option ℕ :=
  if needle = [] ∨ hay.length < needle.length then none else find needle hay

/-- What follows the patterns that are found one after the other; empty if one is missing. -/
def searchPatterns (subspec : CString) : List CString → CString
  | [] => subspec
  | pattern :: patterns =>
      match find pattern subspec with
      | none => []
      | some pos => searchPatterns (subspec.drop (pos + pattern.length)) patterns

/-- The part of `find_link_command_spec` for one segment. -/
def findInSegment (ro : CString) : Except Failure (Option (ℕ × CString)) :=
  match searchSubstr ro linker with
  | none => .ok none
  | some p =>
      if nul ∈ ro.drop p then
        let spec := (ro.drop p).takeWhile (· ≠ nul)
        if searchPatterns spec [fltoFnoLto, postLink] = [] then .ok none else .ok (some (p, spec))
      else .error .unterminated

/-- The number of the segment, the position in it and the string. -/
def findLinkCommandSpec : List CString → Except Failure (Option (ℕ × ℕ × CString))
  | [] => .ok none
  | ro :: roSec =>
      match findInSegment ro with
      | .error failure => .error failure
      | .ok (some (p, spec)) => .ok (some (0, p, spec))
      | .ok none =>
          match findLinkCommandSpec roSec with
          | .ok (some (i, p, spec)) => .ok (some (i + 1, p, spec))
          | result => result

/-! ## Components -/

structure View where
  pos : ℕ
  text : CString
  deriving DecidableEq

/-- How many characters are read until the depth is zero. -/
def closing : ℕ → CString → Option ℕ
  | 0, _ => some 0
  | _ + 1, [] => none
  | depth + 1, c :: rest =>
      match rest with
      | [] => if c = '\x7d' ∧ depth = 0 then some 1 else none
      | d :: inner =>
          if c = '%' ∧ d = '\x7b' then (closing (depth + 2) inner).map (· + 2)
          else if c = '\x7d' then (closing depth (d :: inner)).map (· + 1)
          else (closing (depth + 1) (d :: inner)).map (· + 1)

/-- `SpecComp::extract`. The braces are matched in the link spec, past the end of `spec`. -/
def extract (linkSpec : CString) (spec : View) (header : CString) : Option View :=
  match find header spec.text with
  | none => none
  | some pos =>
      let depth := header.count '\x7b'
      (closing depth (linkSpec.drop (spec.pos + pos + header.length))).map fun n =>
        ⟨spec.pos + pos, (spec.text.drop pos).take (header.length + n)⟩

/-- The loop of the two `extract` functions: the components of `spec` from left to right, none
inside another. Each round reads at least one character. -/
def extractAll (linkSpec header : CString) : ℕ → View → List View
  | 0, _ => []
  | fuel + 1, spec =>
      match extract linkSpec spec header with
      | none => []
      | some comp =>
          let next := comp.pos + comp.text.length
          comp :: extractAll linkSpec header fuel ⟨next, spec.text.drop (next - spec.pos)⟩

/-! ## Sanitizers of a group -/

inductive SanitizerComp.Kind where
  | asan | lsan | tsan | hwasan | ubsan
  deriving DecidableEq

structure SanitizerComp where
  comp : View
  type : SanitizerComp.Kind

namespace SanitizerComp

def header : CString := "%\x7b%:sanitize(".toList

def sanitizerTypes : List (CString × Kind) :=
  [("address".toList, .asan), ("thread".toList, .tsan), ("leak".toList, .lsan),
    ("hwaddress".toList, .hwasan), ("undefined".toList, .ubsan)]

def isType (comp : SanitizerComp) : SanitizerType → Bool
  | .asan => comp.type = .asan
  | .tsan => comp.type = .tsan
  | .ubsan => comp.type = .ubsan
  | _ => false

/-- What stands between the header and the next `)`. -/
def name (comp : View) : CString := (comp.text.drop header.length).takeWhile (· ≠ ')')

def classify (comp : View) : Option SanitizerComp :=
  (sanitizerTypes.find? fun nameType => name comp = nameType.1).map fun nameType =>
    ⟨comp, nameType.2⟩

def extract (linkSpec : CString) (sanSpec : View) : List SanitizerComp :=
  (extractAll linkSpec header (sanSpec.text.length + 1) sanSpec).filterMap classify

end SanitizerComp

/-! ## Groups of the link spec -/

inductive SanitzerSpec.Kind where
  | rtSpec | depSpec | other
  deriving DecidableEq

structure SanitzerSpec where
  comp : View
  sanitizerComps : List SanitizerComp
  type : SanitzerSpec.Kind

namespace SanitzerSpec

def header : CString := "%\x7b!nostdlib:%\x7b!r:%\x7b!nodefaultlibs:".toList

def rtSpecFeature : CString := "-lasan".toList

def depSpecFeature : CString := "%\x7blink_libasan\x7d".toList

def none : SanitzerSpec := ⟨⟨0, []⟩, [], .other⟩

def isRtSpec (spec : SanitzerSpec) : Bool := spec.type = .rtSpec

def isDepSpec (spec : SanitzerSpec) : Bool := spec.type = .depSpec

def getSanitizerComp (spec : SanitzerSpec) (sanTy : SanitizerType) : Option SanitizerComp :=
  spec.sanitizerComps.find? fun comp => comp.isType sanTy

def ofComp (linkSpec : CString) (comp : View) : SanitzerSpec :=
  ⟨comp, SanitizerComp.extract linkSpec comp,
    if (find rtSpecFeature comp.text).isSome then .rtSpec
    else if (find depSpecFeature comp.text).isSome then .depSpec
    else .other⟩

def extract (linkSpec : CString) : List SanitzerSpec :=
  (extractAll linkSpec header (linkSpec.length + 1) ⟨0, linkSpec⟩).map (ofComp linkSpec)

end SanitzerSpec

structure LinkSpec where
  rtSpec : SanitzerSpec
  depSpec : SanitzerSpec

def LinkSpec.add (linkSpec : LinkSpec) (spec : SanitzerSpec) : LinkSpec :=
  if spec.isRtSpec then { linkSpec with rtSpec := spec }
  else if spec.isDepSpec then { linkSpec with depSpec := spec }
  else linkSpec

def LinkSpec.ofString (spec : CString) : LinkSpec :=
  (SanitzerSpec.extract spec).foldl LinkSpec.add ⟨.none, .none⟩

/-! ## The new link spec -/

structure NewLinkSpecBuilder where
  linkSpec : CString
  operations : List (View × CString)
  deltaSize : ℤ

namespace NewLinkSpecBuilder

def inSpec (builder : NewLinkSpecBuilder) (str : View) : Bool :=
  str.pos < builder.linkSpec.length ∧ str.pos + str.text.length ≤ builder.linkSpec.length

def replace (builder : NewLinkSpecBuilder) (fr : View) (to_ : CString) : NewLinkSpecBuilder :=
  if builder.inSpec fr then
    { builder with
      deltaSize := builder.deltaSize + (to_.length - fr.text.length)
      operations := builder.operations ++ [(fr, to_)] }
  else builder

def remove (builder : NewLinkSpecBuilder) (str : View) : NewLinkSpecBuilder :=
  if str.text = [] then builder else builder.replace str []

/-- The loop of `build`; `last` is where the text that was not copied yet begins. -/
def splice (linkSpec : CString) : ℕ → List (View × CString) → CString
  | last, [] => linkSpec.drop last
  | last, (fr, to_) :: operations =>
      if fr.pos < last ∨ linkSpec.length < fr.pos then splice linkSpec last operations
      else
        (linkSpec.drop last).take (fr.pos - last) ++ to_ ++
          splice linkSpec (fr.pos + fr.text.length) operations

/-- The part of `build` after the operations are sorted. -/
def buildSorted (builder : NewLinkSpecBuilder) (operations : List (View × CString)) :
    Except Failure CString :=
  if 0 < builder.deltaSize then
    .error (.fatal ("Dangerous operation: rewrite ro string with larger size which " ++
      "might overwrite other strings.").toList)
  else if builder.linkSpec.length + builder.deltaSize < 0 then .error .lengthError
  else .ok (splice builder.linkSpec 0 operations)

def build (builder : NewLinkSpecBuilder) : Except Failure CString :=
  builder.buildSorted (builder.operations.insertionSort fun a b => a.1.pos ≤ b.1.pos)

end NewLinkSpecBuilder

/-! ## The patcher -/

def maskedSan : List (SanitizerType × CString) := [(.asan, "ASan".toList), (.tsan, "TSan".toList)]

/-- The loop over the sanitizers that the live patch links itself. -/
def removeMasked (linkSpec : LinkSpec) (mask : Mask) :
    List (SanitizerType × CString) → NewLinkSpecBuilder → Except Failure NewLinkSpecBuilder
  | [], builder => .ok builder
  | (san, name) :: rest, builder =>
      if has mask san then
        match linkSpec.rtSpec.getSanitizerComp san with
        | none => .error (.fatal (name ++ "'s runtime is not found in the link spec".toList))
        | some comp => removeMasked linkSpec mask rest (builder.remove comp.comp)
      else removeMasked linkSpec mask rest builder

def memcpyForcibly (dst : CString) (pos : ℕ) (src : CString) : CString :=
  dst.take pos ++ src ++ dst.drop (pos + src.length)

/-- The read-only segments after the patch, in an enabled `gcc` or `g++` process. -/
def roStrPatcher (mask : Mask) (roSec : List CString) : Except Failure (List CString) :=
  match findLinkCommandSpec roSec with
  | .error failure => .error failure
  | .ok none => .ok roSec
  | .ok (some (i, pos, spec)) =>
      match removeMasked (.ofString spec) mask maskedSan ⟨spec, [], 0⟩ with
      | .error failure => .error failure
      | .ok builder =>
          match builder.build with
          | .error failure => .error failure
          | .ok newSpec =>
              .ok (roSec.modify i fun ro => memcpyForcibly ro pos (newSpec ++ [nul]))

end Mair.Compiler
