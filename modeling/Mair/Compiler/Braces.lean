import Mair.Compiler.Groups
import Mair.Library.Brackets

/-! # Braces of the spec language

A group of the spec language is opened in four ways. The scanner of the live patch knows one. -/

namespace Mair.Compiler

open Brackets

def openers : List CString :=
  ["%\x7b".toList, "%@\x7b".toList, "%W\x7b".toList, "%x\x7b".toList]

/-- Text, directives and closed groups. -/
inductive SpecText : CString → Prop
  | nil : SpecText []
  | text {c : Char} {rest : CString} : c ≠ '%' → c ≠ '\x7b' → c ≠ '\x7d' → SpecText rest →
      SpecText (c :: rest)
  | directive {c : Char} {rest : CString} : c ∉ ['\x7b', '\x7d', '@', 'W', 'x'] → SpecText rest →
      SpecText ('%' :: c :: rest)
  | group {opener body rest : CString} : opener ∈ openers → SpecText body → SpecText rest →
      SpecText (opener ++ body ++ ['\x7d'] ++ rest)

theorem SpecText.balanced {w : CString} (h : SpecText w) : Balanced '\x7b' '\x7d' w := by
  have hne : '\x7b' ≠ '\x7d' := by decide
  induction h with
  | nil => exact balanced_of_not_mem List.not_mem_nil List.not_mem_nil
  | @text c rest hpercent hopen hclose hrest ih =>
      refine (balanced_of_not_mem ?_ ?_).append ih (u := [c])
      · rw [List.mem_singleton]
        exact Ne.symm hopen
      · rw [List.mem_singleton]
        exact Ne.symm hclose
  | @directive c rest hc hrest ih =>
      simp only [List.mem_cons, not_or] at hc
      refine (balanced_of_not_mem ?_ ?_).append ih (u := ['%', c])
      · simp only [List.mem_cons, List.not_mem_nil, or_false, not_or]
        exact ⟨by decide, Ne.symm hc.1⟩
      · simp only [List.mem_cons, List.not_mem_nil, or_false, not_or]
        exact ⟨by decide, Ne.symm hc.2.1⟩
  | group hopener hbody hrest ihbody ihrest =>
      have hcounts : ∀ opener ∈ openers,
          opener.count '\x7b' = 1 ∧ '\x7d' ∉ opener := by decide
      obtain ⟨hone, hnot⟩ := hcounts _ hopener
      exact (ihbody.enclose hne hone hnot).append ihrest

/-- Each brace opens right after a percent sign. -/
def PlainOpeners (text : CString) : Prop :=
  ∀ before after, text = before ++ '\x7b' :: after → before.getLast? = some '%'

section Plain

variable {c : Char} {t : CString}

theorem plainOpeners_nil : PlainOpeners [] := by
  intro before after h
  simp at h

theorem not_plainOpeners_open : ¬PlainOpeners ('\x7b' :: t) := by
  intro h
  cases h [] t rfl

theorem plainOpeners_cons (hc : c ≠ '\x7b') (hpair : ¬(c = '%' ∧ t.head? = some '\x7b')) :
    PlainOpeners (c :: t) ↔ PlainOpeners t := by
  constructor
  · intro h before after ht
    have hlast := h (c :: before) after (by rw [ht]; rfl)
    cases before with
    | nil =>
        rw [ht] at hpair
        exact absurd ⟨Option.some.inj hlast, rfl⟩ hpair
    | cons b before => exact hlast
  · intro h before after ht
    cases before with
    | nil => exact absurd (List.cons.inj ht).1 hc
    | cons b before =>
        obtain ⟨rfl, htail⟩ := List.cons.inj ht
        have hlast := h before after htail
        cases before with
        | nil => cases hlast
        | cons d before => exact hlast

theorem plainOpeners_pair : PlainOpeners ('%' :: '\x7b' :: t) ↔ PlainOpeners t := by
  constructor
  · intro h before after ht
    have hlast := h ('%' :: '\x7b' :: before) after (by rw [ht]; rfl)
    cases before with
    | nil => cases hlast
    | cons b before => exact hlast
  · intro h before after ht
    cases before with
    | nil => cases ht
    | cons b before =>
        cases before with
        | nil => exact congrArg some (List.cons.inj ht).1.symm
        | cons d before =>
            obtain ⟨rfl, htail⟩ := List.cons.inj (List.cons.inj ht).2
            have hlast := h before after htail
            cases before with
            | nil => cases hlast
            | cons e before =>
                rw [← (List.cons.inj ht).1]
                exact hlast

end Plain

/-! ## Where the scanner stops -/

section Closing

variable {depth lower : ℕ} {inner : CString}

theorem closing_cons_close {l : CString} :
    closing (depth + 1) ('\x7d' :: l) = (closing depth l).map (· + 1) := by
  cases l with
  | nil => cases depth <;> rfl
  | cons d inner => rfl

/-- The scanner stops with the brace that closes the group or earlier, and earlier if and only if
it overlooks an opener. -/
theorem closing_of_closed (h : Closed '\x7b' '\x7d' depth inner) (hle : lower ≤ depth) :
    ∃ n ≤ inner.length, (∀ rest, closing lower (inner ++ rest) = some n) ∧
      (n = inner.length ↔ lower = depth ∧ PlainOpeners inner) := by
  have hne : '\x7b' ≠ '\x7d' := by decide
  induction hlength : inner.length using Nat.strong_induction_on generalizing depth lower inner with
  | h length ih =>
      cases lower with
      | zero =>
          refine ⟨0, Nat.zero_le _, fun _ => by rw [closing], ?_⟩
          rw [← hlength]
          constructor
          · intro hzero
            rw [List.eq_nil_of_length_eq_zero hzero.symm] at h ⊢
            cases depth with
            | zero => exact ⟨rfl, plainOpeners_nil⟩
            | succ depth => exact absurd h not_closed_nil
          · intro hzero
            rw [← hzero.1, closed_zero_iff] at h
            rw [h]
            rfl
      | succ lower =>
          obtain ⟨depth, rfl⟩ := Nat.exists_eq_add_of_lt (Nat.lt_of_lt_of_le (Nat.succ_pos lower) hle)
          rw [Nat.zero_add] at *
          cases inner with
          | nil => exact absurd h not_closed_nil
          | cons c t =>
              rw [List.length_cons] at hlength
              subst hlength
              have hstep := Nat.lt_succ_self t.length
              by_cases hopen : c = '\x7b'
              · subst hopen
                rw [closed_cons_open hne] at h
                obtain ⟨n, hn, hclosing, hiff⟩ :=
                  @ih t.length hstep (depth + 2) (lower + 1) t h (by omega) rfl
                refine ⟨n + 1, by omega, ?_, ?_⟩
                · intro rest
                  rw [List.cons_append, closing_cons (fun h => absurd h.1 (by decide)) hne, hclosing]
                  rfl
                · refine iff_of_false ?_ fun hplain => not_plainOpeners_open hplain.2
                  intro heq
                  have := (hiff.mp (by omega)).1
                  omega
              · by_cases hclose : c = '\x7d'
                · subst hclose
                  rw [closed_cons_close hne] at h
                  obtain ⟨n, hn, hclosing, hiff⟩ :=
                    @ih t.length hstep depth lower t h (by omega) rfl
                  refine ⟨n + 1, by omega, ?_, ?_⟩
                  · intro rest
                    rw [List.cons_append, closing_cons_close, hclosing]
                    rfl
                  · rw [plainOpeners_cons hopen fun hpair => absurd hpair.1 (by decide),
                      Nat.add_right_cancel_iff, Nat.add_right_cancel_iff, hiff]
                · rw [closed_cons_other hopen hclose] at h
                  by_cases hpair : c = '%' ∧ t.head? = some '\x7b'
                  · obtain ⟨rfl, hhead⟩ := hpair
                    obtain ⟨t, rfl⟩ := List.head?_eq_some_iff.mp hhead
                    rw [closed_cons_open hne] at h
                    rw [List.length_cons] at hstep ih ⊢
                    obtain ⟨n, hn, hclosing, hiff⟩ :=
                      @ih t.length (by omega) (depth + 2) (lower + 2) t h (by omega) rfl
                    refine ⟨n + 2, by omega, ?_, ?_⟩
                    · intro rest
                      rw [List.cons_append, List.cons_append, closing, if_pos ⟨rfl, rfl⟩, hclosing]
                      rfl
                    · rw [plainOpeners_pair]
                      have hshift : lower + 1 = depth + 1 ↔ lower + 2 = depth + 2 := by omega
                      rw [hshift, ← hiff]
                      omega
                  · obtain ⟨n, hn, hclosing, hiff⟩ :=
                      @ih t.length hstep (depth + 1) (lower + 1) t h hle rfl
                    refine ⟨n + 1, by omega, ?_, ?_⟩
                    · intro rest
                      have hpair' : ¬(c = '%' ∧ (t ++ rest).head? = some '\x7b') := by
                        intro hpair'
                        cases t with
                        | nil => exact not_closed_nil h
                        | cons d t => exact hpair hpair'
                      rw [List.cons_append, closing_cons hpair' hclose, hclosing]
                      rfl
                    · rw [plainOpeners_cons hopen hpair, ← hiff]
                      omega

end Closing

end Mair.Compiler
