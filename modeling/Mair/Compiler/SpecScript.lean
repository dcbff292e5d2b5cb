import Mair.Compiler.LinkSpec
import Mair.Library.Blanks
import Mair.Library.Replacement

/-! # The script that writes the spec file

A component is a text with its position, which the script keeps as `start_pos`. -/

namespace Mair.Compiler

open Search Replacement Blanks

namespace DumpGccSpec

def sanitizerTypes : List (CString × CString) :=
  [("address".toList, "ASan".toList), ("thread".toList, "TSan".toList),
    ("leak".toList, "LSan".toList), ("hwaddress".toList, "HWASan".toList),
    ("undefined".toList, "UBSan".toList)]

def sanitizerHeader : CString := "%\x7b%:sanitize(".toList

def nodefaultlibsPattern : CString := "%\x7b!nostdlib:%\x7b!r:%\x7b!nodefaultlibs:".toList

/-- White space, as `\s` and `strip` know it. -/
def isSpace (c : Char) : Bool :=
  let n := c.toNat
  (9 ≤ n && n ≤ 13) || (28 ≤ n && n ≤ 32) || n = 0x85 || n = 0xa0 || n = 0x1680 ||
    (0x2000 ≤ n && n ≤ 0x200a) || n = 0x2028 || n = 0x2029 || n = 0x202f || n = 0x205f || n = 0x3000

def isSpecBraceStart : CString → Bool
  | a :: b :: c :: _ => a = '%' && b = '\x7b' && c ≠ '\x7b'
  | _ => false

/-- How many characters are read until the count of braces is zero again. -/
def closingBrace : ℤ → CString → Option ℕ
  | _, [] => none
  | braceCount, c :: rest =>
      if isSpecBraceStart (c :: rest) then (closingBrace (braceCount + 1) rest).map (· + 1)
      else if c = '\x7d' then
        if braceCount - 1 = 0 then some 1
        else (closingBrace (braceCount - 1) rest).map (· + 1)
      else (closingBrace braceCount rest).map (· + 1)

/-- The loop of the two extractions, which ends with the first component that is not closed. Each
round reads at least one character. -/
def components (headerPattern : CString) : ℕ → ℕ → CString → List View
  | 0, _, _ => []
  | fuel + 1, pos, rest =>
      match find headerPattern rest with
      | none => []
      | some start =>
          match closingBrace 0 (rest.drop start) with
          | none => []
          | some n =>
              ⟨pos + start, (rest.drop start).take n⟩ ::
                components headerPattern fuel (pos + start + n) (rest.drop (start + n))

structure SanitizerComponent where
  component : View
  sanType : CString
  sanName : CString

def extractSanitizerComp (spec headerPattern : CString) : List SanitizerComponent :=
  (components headerPattern (spec.length + 1) 0 spec).filterMap fun component =>
    (sanitizerTypes.find? fun nameType =>
      (find ("sanitize(".toList ++ nameType.1 ++ [')']) component.text).isSome).map fun nameType =>
        ⟨component, nameType.2, nameType.1⟩

def extractSanitizerSpecs (spec : CString) : List (View × SanitzerSpec.Kind) :=
  (components nodefaultlibsPattern (spec.length + 1) 0 spec).map fun component =>
    (component, if (find "-lasan".toList component.text).isSome then .rtSpec
      else if (find "%\x7blink_libasan\x7d".toList component.text).isSome then .depSpec
      else .other)

def maskedSanitizers : List CString := ["address".toList, "thread".toList]

local instance lawfulName : LawfulBEq CString where
  eq_of_beq h := by simpa using h
  rfl := by simp

/-- The components that the script removes. -/
def maskedComponents (spec : CString) : List View :=
  ((extractSanitizerComp spec sanitizerHeader).filter (·.sanName ∈ maskedSanitizers)).map
    (·.component)

def removeMaskedComponents (spec : CString) : CString :=
  removeAll ((maskedComponents spec).map View.text) spec

/-- The second pass, over the runtime groups. -/
def cleanRuntimeSpecs (cleaned : CString) : CString :=
  (extractSanitizerSpecs cleaned).foldl (fun cleaned spec =>
    if spec.2 = .rtSpec then
      replaceAll spec.1.text (removeMaskedComponents spec.1.text) cleaned
    else cleaned) cleaned

/-- What follows the last `%(post_link)` is taken from the original. -/
def restoreTail (spec cleaned : CString) : CString :=
  match rfind postLink spec, rfind postLink cleaned with
  | some origPostPos, some postLinkPos =>
      cleaned.take (postLinkPos + postLink.length) ++ spec.drop (origPostPos + postLink.length)
  | some origPostPos, none => cleaned ++ [' '] ++ spec.drop origPostPos
  | none, some postLinkPos =>
      cleaned.take (postLinkPos + postLink.length) ++ " \x7d\x7d\x7d\x7d\x7d\x7d".toList
  | none, none => cleaned ++ " %(post_link) \x7d\x7d\x7d\x7d\x7d\x7d".toList

def removeSanitizerComponents (spec : CString) : CString :=
  restoreTail spec (collapse isSpace ' ' (cleanRuntimeSpecs (removeMaskedComponents spec)))

/-! ## Components -/

variable {spec header body rest t : CString} {braceCount : ℤ} {fuel pos n : ℕ} {v : View}

theorem isSpecBraceStart_close (l : CString) : isSpecBraceStart ('\x7d' :: l) = false := by
  match l with
  | [] => rfl
  | [_] => rfl
  | _ :: _ :: _ => simp [isSpecBraceStart]

theorem isSpecBraceStart_append {c : Char} (hlast : body.getLast? = some '\x7d')
    (rest rest' : CString) :
    isSpecBraceStart (c :: (body ++ rest)) = isSpecBraceStart (c :: (body ++ rest')) := by
  match body with
  | [] => cases hlast
  | [d] =>
      cases hlast
      have hnot : ∀ l : CString, isSpecBraceStart (c :: ('\x7d' :: l)) = false := by
        intro l
        cases l with
        | nil => rfl
        | cons e l => simp [isSpecBraceStart]
      exact (hnot rest).trans (hnot rest').symm
  | d :: e :: body => rfl

/-- The count ends with a closing brace, whatever follows it. -/
theorem closingBrace_spec {l : CString} (h : closingBrace braceCount l = some n) :
    ∃ body rest, l = body ++ rest ∧ body.length = n ∧ body.getLast? = some '\x7d' ∧
      ∀ rest', closingBrace braceCount (body ++ rest') = some n := by
  induction l generalizing braceCount n with
  | nil => cases h
  | cons c l ih =>
      rw [closingBrace] at h
      by_cases hopen : isSpecBraceStart (c :: l) = true
      · rw [if_pos hopen] at h
        obtain ⟨m, hm, rfl⟩ := Option.map_eq_some_iff.mp h
        obtain ⟨body, rest, rfl, rfl, hlast, hclosing⟩ := ih hm
        refine ⟨c :: body, rest, rfl, rfl, ?_, ?_⟩
        · rw [List.getLast?_cons, hlast]
          rfl
        · intro rest'
          rw [List.cons_append, closingBrace, isSpecBraceStart_append hlast rest' rest,
            if_pos hopen, hclosing]
          rfl
      · rw [if_neg hopen] at h
        by_cases hclose : c = '\x7d'
        · rw [if_pos hclose] at h
          by_cases hzero : braceCount - 1 = 0
          · rw [if_pos hzero] at h
            cases h
            refine ⟨[c], l, rfl, rfl, by rw [hclose]; rfl, ?_⟩
            intro rest'
            have hopen' : ¬isSpecBraceStart (c :: rest') = true := by
              rw [hclose, isSpecBraceStart_close]
              exact Bool.false_ne_true
            rw [List.cons_append, List.nil_append, closingBrace, if_neg hopen', if_pos hclose,
              if_pos hzero]
          · rw [if_neg hzero] at h
            obtain ⟨m, hm, rfl⟩ := Option.map_eq_some_iff.mp h
            obtain ⟨body, rest, rfl, rfl, hlast, hclosing⟩ := ih hm
            refine ⟨c :: body, rest, rfl, rfl, ?_, ?_⟩
            · rw [List.getLast?_cons, hlast]
              rfl
            · intro rest'
              rw [List.cons_append, closingBrace, isSpecBraceStart_append hlast rest' rest,
                if_neg hopen, if_pos hclose, if_neg hzero, hclosing]
              rfl
        · rw [if_neg hclose] at h
          obtain ⟨m, hm, rfl⟩ := Option.map_eq_some_iff.mp h
          obtain ⟨body, rest, rfl, rfl, hlast, hclosing⟩ := ih hm
          refine ⟨c :: body, rest, rfl, rfl, ?_, ?_⟩
          · rw [List.getLast?_cons, hlast]
            rfl
          · intro rest'
            rw [List.cons_append, closingBrace, isSpecBraceStart_append hlast rest' rest,
              if_neg hopen, if_neg hclose, hclosing]
            rfl

/-- A text from a header to the brace that closes it. -/
structure Enclosed (header t : CString) : Prop where
  header_begins : header <+: t
  last : t.getLast? = some '\x7d'
  closing : ∀ rest, closingBrace 0 (t ++ rest) = some t.length

/-- None begins another one. -/
theorem Enclosed.same {t' l : CString} (h : Enclosed header t) (h' : Enclosed header t')
    (hbegins : t <+: t' ++ l) : t = t' := by
  obtain ⟨rest, hrest⟩ := hbegins
  have hlength := h.closing rest
  rw [hrest, h'.closing l, Option.some_inj] at hlength
  have htake := congrArg (List.take t.length) hrest
  rw [List.take_left, ← hlength, List.take_left] at htake
  exact htake

/-- The component stands in the spec. -/
structure IsComponent (spec header : CString) (v : View) : Prop where
  text_begins : v.text <+: spec.drop v.pos
  enclosed : Enclosed header v.text

theorem components_spec (hrest : rest = spec.drop pos) (hunclosed : '\x7d' ∉ header) :
    (∀ v ∈ components header fuel pos rest, IsComponent spec header v ∧ pos ≤ v.pos) ∧
      (components header fuel pos rest).Pairwise fun v w => v.pos + v.text.length ≤ w.pos := by
  induction fuel generalizing pos rest with
  | zero => exact ⟨nofun, .nil⟩
  | succ fuel ih =>
      rw [components]
      cases hfind : find header rest with
      | none => exact ⟨nofun, .nil⟩
      | some start =>
          simp only
          cases hclosing : closingBrace 0 (rest.drop start) with
          | none => exact ⟨nofun, .nil⟩
          | some n =>
              obtain ⟨body, tail, hsplit, rfl, hlast, hstable⟩ := closingBrace_spec hclosing
              have hbegins := prefix_of_find hfind
              have hdrop : spec.drop (pos + start) = body ++ tail := by
                rw [← List.drop_drop, ← hrest, hsplit]
              rw [hsplit] at hbegins
              have hheader : header <+: body := by
                rcases List.prefix_or_prefix_of_prefix hbegins (List.prefix_append body tail)
                  with hle | hle
                · exact hle
                · exact absurd (hle.subset (List.mem_of_getLast? hlast)) hunclosed
              have hcomponent : IsComponent spec header ⟨pos + start, body⟩ := by
                refine ⟨?_, hheader, hlast, hstable⟩
                rw [hdrop]
                exact List.prefix_append body tail
              have hnext : rest.drop (start + body.length) =
                  spec.drop (pos + start + body.length) := by
                rw [hrest, List.drop_drop, Nat.add_assoc]
              obtain ⟨hmem, hpairwise⟩ := ih hnext
              simp only [hsplit, List.take_left]
              constructor
              · intro v hv
                rcases List.mem_cons.mp hv with rfl | hv
                · exact ⟨hcomponent, Nat.le_add_right pos start⟩
                · obtain ⟨hv, hle⟩ := hmem v hv
                  exact ⟨hv, by omega⟩
              · exact List.pairwise_cons.mpr ⟨fun w hw => (hmem w hw).2, hpairwise⟩

theorem mem_maskedComponents (hv : v ∈ maskedComponents spec) :
    v ∈ components sanitizerHeader (spec.length + 1) 0 spec := by
  obtain ⟨c, hc, rfl⟩ := List.mem_map.mp hv
  obtain ⟨component, hmem, hmake⟩ := List.mem_filterMap.mp (List.mem_of_mem_filter hc)
  obtain ⟨nameType, -, rfl⟩ := Option.map_eq_some_iff.mp hmake
  exact hmem

theorem isComponent_of_masked (hv : v ∈ maskedComponents spec) :
    IsComponent spec sanitizerHeader v :=
  ((components_spec (List.drop_zero).symm (by decide)).1 v
    (mem_maskedComponents hv)).1

/-- The removed components stand one after the other. -/
theorem maskedComponents_pairwise (spec : CString) :
    (maskedComponents spec).Pairwise fun v w => v.pos + v.text.length ≤ w.pos := by
  have hall := (@components_spec spec sanitizerHeader spec (spec.length + 1) 0
    (List.drop_zero).symm (by decide)).2
  rw [maskedComponents, List.pairwise_map]
  refine List.Pairwise.filter _ ?_
  rw [extractSanitizerComp, List.pairwise_filterMap]
  refine hall.imp ?_
  intro v w hle c hc d hd
  obtain ⟨nameType, -, rfl⟩ := Option.map_eq_some_iff.mp hc
  obtain ⟨nameType', -, rfl⟩ := Option.map_eq_some_iff.mp hd
  exact hle

/-! ## The second pass -/

/-- The runtime groups have no component that the script removes. -/
def SecondPassIdle (cleaned : CString) : Prop :=
  ∀ spec ∈ extractSanitizerSpecs cleaned, spec.2 = .rtSpec → maskedComponents spec.1.text = []

theorem cleanRuntimeSpecs_idle {cleaned : CString} (h : SecondPassIdle cleaned) :
    cleanRuntimeSpecs cleaned = cleaned := by
  have hne : ∀ spec ∈ extractSanitizerSpecs cleaned, spec.1.text ≠ [] := by
    intro spec hspec
    obtain ⟨component, hmem, rfl⟩ := List.mem_map.mp hspec
    have hheader := ((components_spec (List.drop_zero).symm (by decide)).1 component
      hmem).1.enclosed.header_begins
    intro hnil
    rw [show component.text = [] from hnil, List.prefix_nil] at hheader
    exact absurd hheader (by decide)
  rw [cleanRuntimeSpecs]
  rw [SecondPassIdle] at h
  generalize extractSanitizerSpecs cleaned = specs at h hne
  induction specs with
  | nil => rfl
  | cons spec specs ih =>
      obtain ⟨hspec, hspecs⟩ := List.forall_mem_cons.mp h
      obtain ⟨hnespec, hnespecs⟩ := List.forall_mem_cons.mp hne
      have hstep : (if spec.2 = SanitzerSpec.Kind.rtSpec then
          replaceAll spec.1.text (removeMaskedComponents spec.1.text) cleaned
            else cleaned) = cleaned := by
        by_cases hrt : spec.2 = .rtSpec
        · rw [if_pos hrt, removeMaskedComponents, hspec hrt]
          exact replaceAll_self hnespec cleaned
        · rw [if_neg hrt]
      rw [List.foldl_cons, hstep]
      exact ih hspecs hnespecs

/-! ## The tail -/

/-- What is cleaned before the last `%(post_link)` is all that changes, up to white space. -/
theorem collapse_restoreTail {head tail y : CString} (hpos : rfind postLink spec = some head.length)
    (hspec : spec = head ++ (postLink ++ tail)) :
    collapse isSpace ' ' (restoreTail spec (collapse isSpace ' ' (y ++ (postLink ++ tail)))) =
      collapse isSpace ' ' (y ++ (postLink ++ tail)) := by
  have hspace : isSpace ' ' = true := by decide
  have hword : ∀ c ∈ postLink, isSpace c = false :=
    List.forall_iff_forall_mem.mp (by decide)
  have hne : postLink ≠ [] := by decide
  have htail : ∀ q, ¬postLink <+: tail.drop q := by
    intro q hq
    refine rfind_last hne hpos (q := head.length + postLink.length + q) (by
      have := List.length_pos_of_ne_nil hne
      omega) ?_
    rw [hspec, ← List.append_assoc, ← List.drop_drop, ← List.length_append, List.drop_left]
    exact hq
  have hcons : postLink = '%' :: "(post_link)".toList := by decide
  have hrfind : rfind postLink (squeeze isSpace ' ' true y ++ (postLink ++
      (squeeze isSpace ' ' false tail).rdropWhile isSpace)) =
        some (squeeze isSpace ' ' true y).length := by
    rw [hcons]
    refine rfind_append (by decide) ?_
    intro q hq
    rw [← hcons] at hq
    have hsub : postLink <+: (squeeze isSpace ' ' false tail).drop q :=
      hq.trans ((List.rdropWhile_prefix isSpace _).drop q)
    obtain ⟨q', hq'⟩ := exists_prefix_of_squeeze hword hspace hne hsub
    exact htail q' hq'
  have hdrop : spec.drop (head.length + postLink.length) = tail := by
    rw [hspec, ← List.append_assoc, ← List.length_append, List.drop_left]
  rw [collapse_append_word hword hspace hne y tail, restoreTail, hpos, hrfind]
  simp only
  rw [hdrop, List.take_length_add_append, List.take_left, List.append_assoc,
    collapse_squeeze_append_word hword hspace hne, collapse_append_word hword hspace hne]

end DumpGccSpec

end Mair.Compiler
