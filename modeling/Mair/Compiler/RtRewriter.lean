import Mair.Compiler.Options
import Mair.Library.Search
import Mathlib.Data.List.Basic

/-! # The rewriter of sanitizer runtimes on the link line

The live patch of the clang driver replaces the runtimes on a link line by the one of the active
sanitizer. -/

namespace Mair.Compiler

open Search

/-! ## Fixed texts -/

def hackedSanName : SanitizerType → CString
  | .sanNone => []
  | .asan => "asan".toList
  | .tsan => "tsan".toList
  | .msan => "msan".toList
  | .ubsan => "ubsan_standalone".toList
  | .xsan => "xsan".toList

def hackedSanNames : List CString :=
  [.sanNone, .asan, .tsan, .msan, .ubsan, .xsan].map hackedSanName

def compilerRt : CString := "libclang_rt.".toList

def preRt : CString := "--whole-archive".toList

def postRt : CString := "--no-whole-archive".toList

def dynList : CString := "--dynamic-list=".toList

def dotSo : CString := ".so".toList

def dotA : CString := ".a".toList

def staticSuffix : CString := "_static".toList

/-- `HackedSanitizersRtRewriter` without the two argument vectors. -/
structure RtRewriter where
  sanType : SanitizerType
  xsanMask : Mask
  xsanRtDir : CString
  archName : CString

namespace RtRewriter

/-! ## Paths -/

/-- `operator/` of a path and a relative file name. -/
def joinPath (dir file : CString) : CString :=
  if dir = [] ∨ dir.getLast? = some '/' then dir ++ file else dir ++ '/' :: file

variable (r : RtRewriter)

def prefixToReplace : CString := joinPath r.xsanRtDir compilerRt ++ hackedSanName r.sanType

def archSuffix : CString := '-' :: r.archName

def rPathOpt : CString := "-rpath=".toList ++ r.xsanRtDir

def staticRt : CString := r.prefixToReplace ++ staticSuffix ++ dotA

/-! ## Matching -/

inductive Stop where
  | fatal (message : CString)
  /-- `back()` of an empty vector. -/
  | emptyBack
  deriving DecidableEq

def sharedWithMsan : CString :=
  ("XSan with MSan does not support the shared runtime temporarily, as MSan does not support it "
    ++ "either. Consider disable MSan from XSan if you want to use the shared runtime.").toList

/-- The position behind `libclang_rt.<san>`. -/
def findSanRtSuffix (arg : CString) : Option ℕ :=
  match find compilerRt arg with
  | none => none
  | some pos =>
      let rest := arg.drop (pos + compilerRt.length)
      (hackedSanNames.find? fun sanName => sanName ≠ [] ∧ sanName <+: rest).map fun sanName =>
        pos + compilerRt.length + sanName.length

def replaceSanitizerRt (arg : CString) : Except Stop (Option CString) :=
  match findSanRtSuffix arg with
  | none => .ok none
  | some posSuffix =>
      let suffix := arg.drop posSuffix
      if dotSo <:+ suffix ∧ r.sanType = .xsan ∧ has r.xsanMask .msan = true then
        .error (.fatal sharedWithMsan)
      else
        match if dotSo <:+ suffix then some (suffix.length - 3) else rfind dotA suffix with
        | none => .ok none
        | some pos =>
            if r.archSuffix <:+ suffix.take pos then
              .ok (some (r.prefixToReplace ++ suffix.take (pos - r.archSuffix.length) ++
                suffix.drop pos))
            else .ok (some (r.prefixToReplace ++ suffix))

/-! ## Rewriting -/

structure State where
  newCmdArgs : List CString
  seenRts : List CString
  shouldHasStaticRt : Bool

local instance lawfulRt : LawfulBEq CString where
  eq_of_beq h := by simpa using h
  rfl := by simp

/-- A replaced argument that is the first one with this replacement. -/
def insertRt (st : State) (back arg newRt : CString) : State where
  newCmdArgs := st.newCmdArgs ++ (if dotSo <:+ arg then [r.rPathOpt] else []) ++
    [if back ≠ preRt ∧ dynList <+: arg then dynList ++ newRt else newRt]
  seenRts := newRt :: st.seenRts
  shouldHasStaticRt := st.shouldHasStaticRt && (find staticSuffix arg).isNone

/-- The flag is false if the arguments up to `--no-whole-archive` are skipped. -/
def eatOneArg (st : State) (arg : CString) : Except Stop (State × Bool) :=
  match r.replaceSanitizerRt arg with
  | .error stop => .error stop
  | .ok none => .ok ({ st with newCmdArgs := st.newCmdArgs ++ [arg] }, true)
  | .ok (some newRt) =>
      match st.newCmdArgs.getLast? with
      | none => .error .emptyBack
      | some back =>
          if newRt ∈ st.seenRts then
            if back = preRt then .ok ({ st with newCmdArgs := st.newCmdArgs.dropLast }, false)
            else .ok (st, true)
          else .ok (r.insertRt st back arg newRt, true)

/-- The loop of `generate_new_args`. -/
def eatArgs : List CString → Bool → State → Except Stop State
  | [], _, st => .ok st
  | arg :: args, true, st => eatArgs args (arg ≠ postRt) st
  | arg :: args, false, st =>
      match r.eatOneArg st arg with
      | .error stop => .error stop
      | .ok (st, goOn) => eatArgs args (!goOn) st

/-- XSan and ASan need the static runtime. -/
def needsStaticRt : Bool := r.sanType = .xsan ∨ r.sanType = .asan

def staticArgs : List CString := [preRt, r.staticRt, postRt]

def generateNewArgs (args : List CString) : Except Stop (List CString) :=
  match r.eatArgs args false ⟨[], [], r.needsStaticRt⟩ with
  | .error stop => .error stop
  | .ok st => .ok (st.newCmdArgs ++ if st.shouldHasStaticRt then r.staticArgs else [])

/-- The constructor: the arguments after the swap. -/
def rewriteArgs (args : List CString) : Except Stop (List CString) :=
  if r.sanType = .sanNone then .ok args else r.generateNewArgs args

end RtRewriter

end Mair.Compiler
