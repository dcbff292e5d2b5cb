import Mair.Compiler.RtRewriter

/-! # Link lines with sanitizer runtimes

The link lines that clang builds, and what is to become of them. -/

namespace Mair.Compiler

open Search

namespace RtRewriter

/-! ## Runtimes -/

inductive RtKind where
  | archive | symbols | shared
  deriving DecidableEq

def RtKind.extension : RtKind → CString
  | .archive => dotA
  | .symbols => dotA ++ ".syms".toList
  | .shared => dotSo

/-- A runtime of one of the sanitizers. The variant is what stands between the sanitizer and the
extension, with the architecture if there is one. -/
structure Runtime where
  kind : RtKind
  dir : CString
  san : SanitizerType
  variant : CString
  named : san ≠ .sanNone
  noOption : dir.head? ≠ some '-'
  plain : '/' ∉ variant

namespace Runtime

variable (rt : Runtime)

def tail : CString := rt.variant ++ rt.kind.extension

def path : CString := rt.dir ++ '/' :: (compilerRt ++ (hackedSanName rt.san ++ rt.tail))

def arg : CString :=
  match rt.kind with
  | .symbols => dynList ++ rt.path
  | _ => rt.path

def args : List CString :=
  match rt.kind with
  | .archive => [preRt, rt.arg, postRt]
  | _ => [rt.arg]

end Runtime

def fileName (path : CString) : CString := (path.reverse.takeWhile (· ≠ '/')).reverse

def isRuntimePath (path : CString) : Bool :=
  hackedSanNames.any fun sanName => sanName ≠ [] ∧ compilerRt ++ sanName <+: fileName path

def isRuntime (arg : CString) : Bool :=
  isRuntimePath arg || (dynList.isPrefixOf arg && isRuntimePath (arg.drop dynList.length))

/-- A part of the link line: a runtime, or an argument that is none. -/
inductive LinkArg where
  | other (arg : CString) (plain : isRuntime arg = false)
  | runtime (rt : Runtime)

def LinkArg.args : LinkArg → List CString
  | .other arg _ => [arg]
  | .runtime rt => rt.args

def linkLine (items : List LinkArg) : List CString := items.flatMap LinkArg.args

def otherArgs : List LinkArg → List CString
  | [] => []
  | .other arg _ :: items => arg :: otherArgs items
  | .runtime _ :: items => otherArgs items

def runtimes : List LinkArg → List Runtime
  | [] => []
  | .other _ _ :: items => runtimes items
  | .runtime rt :: items => rt :: runtimes items

/-! ## The line that is wanted -/

section Wanted

variable (r : RtRewriter)

def withoutArch (variant : CString) : CString :=
  if r.archSuffix <:+ variant then variant.take (variant.length - r.archSuffix.length) else variant

/-- The runtime of the active sanitizer that stands for `rt`. -/
def target (rt : Runtime) : CString :=
  r.prefixToReplace ++ (r.withoutArch rt.variant ++ rt.kind.extension)

def newArg (rt : Runtime) : CString :=
  match rt.kind with
  | .symbols => dynList ++ r.target rt
  | _ => r.target rt

def newArgs (rt : Runtime) : List CString :=
  match rt.kind with
  | .archive => [preRt, r.newArg rt, postRt]
  | .symbols => [r.newArg rt]
  | .shared => [r.rPathOpt, r.newArg rt]

local instance lawfulTarget : LawfulBEq CString where
  eq_of_beq h := by simpa using h
  rfl := by simp

/-- Of the runtimes with one target the first is kept. -/
def keepFirsts (seen : List CString) : List LinkArg → List LinkArg
  | [] => []
  | .other arg plain :: items => .other arg plain :: keepFirsts seen items
  | .runtime rt :: items =>
      if r.target rt ∈ seen then keepFirsts seen items
      else .runtime rt :: keepFirsts (r.target rt :: seen) items

def rewritten : LinkArg → List CString
  | .other arg _ => [arg]
  | .runtime rt => r.newArgs rt

/-- The line without the static runtime that may have to be added. -/
def wanted (seen : List CString) (items : List LinkArg) : List CString :=
  (r.keepFirsts seen items).flatMap r.rewritten

def HasStatic (items : List LinkArg) : Prop := ∃ rt ∈ runtimes items, r.target rt = r.staticRt

instance (items : List LinkArg) : Decidable (r.HasStatic items) :=
  inferInstanceAs (Decidable (∃ rt ∈ runtimes items, _))

def added (items : List LinkArg) : List CString :=
  if r.needsStaticRt = true ∧ ¬r.HasStatic items then r.staticArgs else []

/-- The arguments after the rewriting are as they should be. -/
structure Faithful (items : List LinkArg) (out : List CString) : Prop where
  /-- Every argument is kept or rewritten at its place. -/
  placed : out = r.wanted [] items ++ r.added items
  order : (otherArgs items).Sublist out
  multiplicity : ∀ arg ∈ otherArgs items, arg ≠ preRt → arg ≠ postRt → arg ≠ r.rPathOpt →
    out.count arg = (otherArgs items).count arg
  balanced : out.count preRt + (otherArgs items).count postRt =
    out.count postRt + (otherArgs items).count preRt
  /-- A runtime that remains is one that would have been put in. -/
  replaced : ∀ rt ∈ runtimes items, rt.arg ∈ out →
    r.prefixToReplace <+: rt.arg ∨ dynList ++ r.prefixToReplace <+: rt.arg
  once : ∀ rt ∈ runtimes items, out.count (r.newArg rt) = 1
  static : r.needsStaticRt = true → out.count r.staticRt = 1

/-! ## When the rewriter gets there -/

/-- A symbol list and a second shared library or symbol list do not stand directly behind a
`--whole-archive`, and the line does not begin with a runtime. `last` is the last argument that
is not dropped. -/
def InOrder (seen : List CString) (last : Option CString) : List LinkArg → Prop
  | [] => True
  | .other arg _ :: items => InOrder seen (some arg) items
  | .runtime rt :: items =>
      if r.target rt ∈ seen then
        (rt.kind ≠ .archive → last ≠ some preRt) ∧ InOrder seen last items
      else
        (rt.kind ≠ .archive → last ≠ none) ∧ (rt.kind = .symbols → last ≠ some preRt) ∧
          InOrder (r.target rt :: seen) (some rt.arg) items

/-- Nothing misleads the rewriter. -/
structure Undisturbed (items : List LinkArg) : Prop where
  others : ∀ arg ∈ otherArgs items, r.replaceSanitizerRt arg = .ok none
  dirs : ∀ rt ∈ runtimes items, find compilerRt rt.dir = none
  inOrder : r.InOrder [] none items
  /-- `_static` stands only in a line that has the static runtime. -/
  static : r.needsStaticRt = true → r.HasStatic items ∨
    ∀ rt ∈ runtimes (r.keepFirsts [] items), find staticSuffix rt.arg = none

/-- No other argument looks like a runtime of the rewriter. -/
structure Apart (items : List LinkArg) : Prop where
  dir : find compilerRt r.xsanRtDir = none
  arch : '/' ∉ r.archName
  others : ∀ arg ∈ otherArgs items,
    ¬r.prefixToReplace <+: arg ∧ ¬dynList ++ r.prefixToReplace <+: arg

end Wanted

end RtRewriter

end Mair.Compiler
