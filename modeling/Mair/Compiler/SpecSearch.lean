import Mair.Compiler.LinkSpec

/-! # The string that the patcher finds

A terminated string of a segment is a longest one before a terminator. The search returns the
string with the first linker pattern of its segment. -/

namespace Mair.Compiler

open Search

def patterns : List CString := [linker, fltoFnoLto, postLink]

/-- The patterns occur one after the other, and the text ends what follows them. -/
def InOrder : List CString → CString → CString → Prop
  | [], w, tail => tail <:+ w
  | pattern :: patterns, w, tail => ∃ x rest, w = x ++ pattern ++ rest ∧ InOrder patterns rest tail

/-- A string that begins at a position of a segment and is terminated in it. -/
structure StringAt (ro : CString) (a : ℕ) (w : CString) : Prop where
  split : ∃ before after, ro = before ++ w ++ nul :: after ∧ before.length = a ∧
    (before = [] ∨ before.getLast? = some nul)
  nul_notMem : nul ∉ w

/-- A string of the segments with the three patterns. -/
def SpecAt (roSec : List CString) (i a : ℕ) (w : CString) : Prop :=
  ∃ ro, roSec[i]? = some ro ∧ StringAt ro a w ∧ InOrder patterns w []

/-- It is the only one. -/
structure TheSpec (roSec : List CString) (i a : ℕ) (w : CString) : Prop where
  specAt : SpecAt roSec i a w
  unique : ∀ i' a' w', SpecAt roSec i' a' w' → i' = i ∧ a' = a

variable {roSec : List CString} {ro w w' s s' tail spec : CString} {ps : List CString}
  {i a p : ℕ}

/-! ## Patterns in order -/

theorem InOrder.of_suffix (h : InOrder ps s tail) (hs : s <:+ s') : InOrder ps s' tail := by
  cases ps with
  | nil => exact List.IsSuffix.trans h hs
  | cons pattern ps =>
      obtain ⟨x, rest, rfl, hrest⟩ := h
      obtain ⟨y, rfl⟩ := hs
      exact ⟨y ++ x, rest, by simp [List.append_assoc], hrest⟩

theorem InOrder.nil_tail (h : InOrder ps s tail) : InOrder ps s [] := by
  induction ps generalizing s with
  | nil => exact List.nil_suffix
  | cons pattern ps ih =>
      obtain ⟨x, rest, hsplit, hrest⟩ := h
      exact ⟨x, rest, hsplit, ih hrest⟩

theorem suffix_drop_of_le {x rest : CString} {n : ℕ} (hn : n ≤ x.length) :
    rest <:+ (x ++ rest).drop n := by
  rw [List.drop_append_of_le_length hn]
  exact List.suffix_append _ _

/-- The search leaves at least what follows any occurrence of the patterns. -/
theorem suffix_searchPatterns (h : InOrder ps s tail) : tail <:+ searchPatterns s ps := by
  induction ps generalizing s with
  | nil => exact h
  | cons pattern ps ih =>
      obtain ⟨x, rest, rfl, hrest⟩ := h
      have hbegins : pattern <+: (x ++ pattern ++ rest).drop x.length := by
        rw [List.append_assoc, List.drop_left]
        exact List.prefix_append _ _
      obtain ⟨pos, hle, hfind⟩ := exists_find hbegins
      rw [searchPatterns, hfind]
      apply ih
      apply hrest.of_suffix
      apply suffix_drop_of_le
      rw [List.length_append]
      omega

theorem inOrder_searchPatterns (h : searchPatterns s ps ≠ []) :
    InOrder ps s (searchPatterns s ps) := by
  induction ps generalizing s with
  | nil => exact List.suffix_refl s
  | cons pattern ps ih =>
      rw [searchPatterns] at h ⊢
      cases hfind : find pattern s with
      | none =>
          rw [hfind] at h
          exact absurd rfl h
      | some pos =>
          rw [hfind] at h
          obtain ⟨rest, hrest⟩ := prefix_of_find hfind
          refine ⟨s.take pos, rest, ?_, ?_⟩
          · rw [List.append_assoc, hrest, List.take_append_drop]
          · have heq : rest = s.drop (pos + pattern.length) := by
              rw [← List.drop_drop, ← hrest, List.drop_left]
            rw [heq]
            exact ih h

/-- The second pattern does not begin in the first. -/
theorem length_le_of_prefix (h : fltoFnoLto <+: (linker ++ s).drop p) : linker.length ≤ p := by
  by_contra hlt
  obtain ⟨rest, hrest⟩ := h
  have hchar : ∀ k < 2, (linker ++ s)[p + k]? = fltoFnoLto[k]? := by
    intro k hk
    have hlt : k < fltoFnoLto.length := Nat.lt_trans hk (by decide)
    rw [← List.getElem?_drop, ← hrest, List.getElem?_append_left hlt]
  have hnone : ∀ q < linker.length, ¬(linker[q]? = some '%' ∧
      (q + 1 < linker.length → linker[q + 1]? = some '\x7b')) := by
    decide
  apply hnone p (by omega)
  constructor
  · rw [← List.getElem?_append_left (by omega)]
    exact hchar 0 (by decide)
  · intro hlt
    rw [← List.getElem?_append_left hlt]
    exact hchar 1 (by decide)

/-- From the first linker pattern on, only the other two have to be searched. -/
theorem inOrder_patterns_iff (hp : find linker w = some p) :
    InOrder patterns w tail ↔ InOrder [fltoFnoLto, postLink] (w.drop p) tail := by
  have hbegins := prefix_of_find hp
  constructor
  · intro h
    obtain ⟨x, rest, rfl, hrest⟩ := h
    apply hrest.of_suffix
    apply suffix_drop_of_le
    have hx : linker <+: (x ++ linker ++ rest).drop x.length := by
      rw [List.append_assoc, List.drop_left]
      exact List.prefix_append _ _
    have hle : p ≤ x.length := by
      by_contra hlt
      exact find_first hp (Nat.lt_of_not_le hlt) hx
    rw [List.length_append]
    omega
  · intro h
    obtain ⟨y, hy⟩ := hbegins
    rw [← hy] at h
    obtain ⟨x, rest, hsplit, hrest⟩ := h
    have hx : linker.length ≤ x.length := by
      apply length_le_of_prefix (s := y)
      rw [hsplit, List.append_assoc, List.drop_left]
      exact List.prefix_append _ _
    refine ⟨w.take p, y, ?_, x.drop linker.length, rest, ?_, hrest⟩
    · rw [List.append_assoc, hy, List.take_append_drop]
    · have hdrop := congrArg (List.drop linker.length) hsplit
      rw [List.drop_left, List.append_assoc, List.drop_append_of_le_length hx] at hdrop
      simpa [List.append_assoc] using hdrop

/-! ## Strings of a segment -/

theorem exists_string_begin (l : CString) :
    ∃ before u, l = before ++ u ∧ nul ∉ u ∧ (before = [] ∨ before.getLast? = some nul) := by
  induction l using List.reverseRecOn with
  | nil => exact ⟨[], [], rfl, nofun, .inl rfl⟩
  | append_singleton l c ih =>
      by_cases hc : c = nul
      · exact ⟨l ++ [c], [], by simp, nofun, .inr (by simp [hc])⟩
      · obtain ⟨before, u, rfl, hu, hbefore⟩ := ih
        refine ⟨before, u ++ [c], by simp, ?_, hbefore⟩
        intro hmem
        rcases List.mem_append.mp hmem with hmem | hmem
        · exact hu hmem
        · exact hc (List.mem_singleton.mp hmem).symm

theorem takeWhile_append_nul {u rest : CString} (hu : nul ∉ u) :
    (u ++ nul :: rest).takeWhile (· ≠ nul) = u := by
  rw [List.takeWhile_append_of_pos]
  · simp
  · intro c hc
    simpa using fun heq : c = nul => hu (heq ▸ hc)

theorem exists_terminator {l : CString} (h : nul ∈ l) :
    ∃ rest, l = l.takeWhile (· ≠ nul) ++ nul :: rest ∧ nul ∉ l.takeWhile (· ≠ nul) := by
  obtain ⟨u, rest, rfl, hu⟩ := List.eq_append_cons_of_mem h
  rw [takeWhile_append_nul hu]
  exact ⟨rest, rfl, hu⟩

theorem StringAt.drop_eq (h : StringAt ro a w) : ∃ after, ro.drop a = w ++ nul :: after := by
  obtain ⟨before, after, hsplit, hlength, -⟩ := h.split
  refine ⟨after, ?_⟩
  rw [hsplit, ← hlength, List.append_assoc, List.drop_left]

theorem StringAt.unique (h : StringAt ro a w) (h' : StringAt ro a w') : w = w' := by
  obtain ⟨after, hdrop⟩ := h.drop_eq
  obtain ⟨after', hdrop'⟩ := h'.drop_eq
  have htake : (w ++ nul :: after).takeWhile (· ≠ nul) = w := takeWhile_append_nul h.nul_notMem
  rw [← htake, ← hdrop, hdrop', takeWhile_append_nul h'.nul_notMem]

/-- A pattern without a terminator lies before the next one. -/
theorem prefix_takeWhile {needle l : CString} (h : needle <+: l) (hnul : nul ∉ needle) :
    needle <+: l.takeWhile (· ≠ nul) := by
  obtain ⟨rest, rfl⟩ := h
  rw [List.takeWhile_append_of_pos]
  · exact List.prefix_append _ _
  · intro c hc
    simpa using fun heq : c = nul => hnul (heq ▸ hc)

theorem StringAt.drop_add_eq {q : ℕ} (h : StringAt ro a w) (hq : q ≤ w.length) :
    ∃ after, ro.drop (a + q) = w.drop q ++ nul :: after := by
  obtain ⟨after, hdrop⟩ := h.drop_eq
  refine ⟨after, ?_⟩
  rw [← List.drop_drop, hdrop, List.drop_append_of_le_length hq]

/-- What begins at a position of the string begins there in the segment. -/
theorem StringAt.prefix_drop {needle : CString} {q : ℕ} (h : StringAt ro a w)
    (hq : needle <+: w.drop q) : needle <+: ro.drop (a + q) := by
  rcases Nat.le_total q w.length with hle | hle
  · obtain ⟨after, hdrop⟩ := h.drop_add_eq hle
    rw [hdrop]
    exact hq.trans (List.prefix_append _ _)
  · rw [List.drop_eq_nil_of_le hle, List.prefix_nil] at hq
    rw [hq]
    exact List.nil_prefix

theorem StringAt.takeWhile_drop {q : ℕ} (h : StringAt ro a w) (hq : q ≤ w.length) :
    (ro.drop (a + q)).takeWhile (· ≠ nul) = w.drop q := by
  obtain ⟨after, hdrop⟩ := h.drop_add_eq hq
  rw [hdrop]
  exact takeWhile_append_nul fun hmem => h.nul_notMem (List.mem_of_mem_drop hmem)

/-! ## The search -/

theorem searchSubstr_linker (ro : CString) : searchSubstr ro linker = find linker ro := by
  rw [searchSubstr]
  split
  · next h =>
      cases hfind : find linker ro with
      | none => rfl
      | some p =>
          have hbound := find_bound hfind (by decide)
          rcases h with h | h
          · cases h
          · omega
  · rfl

/-- What the search finds in a segment is the end of a string from its first linker pattern on. -/
theorem findInSegment_some (h : findInSegment ro = .ok (some (p, spec))) :
    ∃ u a, StringAt ro a (u ++ spec) ∧ p = a + u.length ∧ find linker (u ++ spec) = some u.length ∧
      (∀ q < p, ¬linker <+: ro.drop q) ∧ ∃ tail, tail ≠ [] ∧ InOrder patterns (u ++ spec) tail := by
  rw [findInSegment, searchSubstr_linker] at h
  cases hfind : find linker ro with
  | none =>
      rw [hfind] at h
      cases h
  | some p' =>
      rw [hfind] at h
      simp only at h
      split at h
      case isFalse => cases h
      case isTrue hmem =>
        split at h
        case isTrue => cases h
        case isFalse hne =>
          cases h
          obtain ⟨before, u, htake, hu, hbefore⟩ := exists_string_begin (ro.take p)
          obtain ⟨after, hdrop, hspec⟩ := exists_terminator hmem
          have hlinker : linker <+: (ro.drop p).takeWhile (· ≠ nul) :=
            prefix_takeWhile (prefix_of_find hfind) (by decide)
          generalize (ro.drop p).takeWhile (· ≠ nul) = spec at hdrop hspec hlinker hne
          have hro : ro = before ++ (u ++ spec) ++ nul :: after := by
            rw [← List.take_append_drop p ro, htake, hdrop]
            simp [List.append_assoc]
          have hle : p ≤ ro.length := by
            have := find_bound hfind (by decide)
            omega
          have hp : p = before.length + u.length := by
            rw [← List.length_append, ← htake, List.length_take, Nat.min_eq_left hle]
          have hnul : nul ∉ u ++ spec := by
            intro hmem
            rcases List.mem_append.mp hmem with hmem | hmem
            · exact hu hmem
            · exact hspec hmem
          have hstring : StringAt ro before.length (u ++ spec) :=
            ⟨⟨before, after, hro, rfl, hbefore⟩, hnul⟩
          have hfirst : find linker (u ++ spec) = some u.length := by
            have hhere : linker <+: (u ++ spec).drop u.length := by
              rw [List.drop_left]
              exact hlinker
            obtain ⟨q, hq, hqfind⟩ := exists_find hhere
            rcases Nat.lt_or_eq_of_le hq with hlt | heq
            · have hbegins := hstring.prefix_drop (prefix_of_find hqfind)
              exact absurd hbegins (find_first hfind (by omega))
            · rw [hqfind, heq]
          refine ⟨u, before.length, hstring, hp, hfirst, fun q hq => find_first hfind hq, _, hne,
            ?_⟩
          rw [inOrder_patterns_iff hfirst, List.drop_left]
          exact inOrder_searchPatterns hne

/-- The string is found if no string before it in its segment has the first pattern and it does
not end with the last. -/
theorem findInSegment_of_stringAt (h : StringAt ro a w) (hbefore : ∀ q < a, ¬linker <+: ro.drop q)
    (hw : InOrder patterns w tail) (htail : tail ≠ []) : findInSegment ro ≠ .ok none := by
  have hpattern := hw
  obtain ⟨x, rest, hsplit, -⟩ := hpattern
  have hx : linker <+: w.drop x.length := by
    rw [hsplit, List.append_assoc, List.drop_left]
    exact List.prefix_append _ _
  obtain ⟨p, -, hp⟩ := exists_find hx
  have hle : p ≤ w.length := by
    have := find_bound hp (by decide)
    omega
  have hro : find linker ro = some (a + p) := by
    obtain ⟨q, hq, hqfind⟩ := exists_find (h.prefix_drop (prefix_of_find hp))
    rcases Nat.lt_or_eq_of_le hq with hlt | heq
    · exfalso
      have hbegins := prefix_of_find hqfind
      rcases Nat.lt_or_ge q a with hlt' | hge
      · exact hbefore q hlt' hbegins
      · obtain ⟨r, rfl⟩ := Nat.exists_eq_add_of_le hge
        have hr := prefix_takeWhile hbegins (by decide)
        rw [h.takeWhile_drop (by omega)] at hr
        exact find_first hp (by omega) hr
    · rw [hqfind, heq]
  have hmem : nul ∈ ro.drop (a + p) := by
    obtain ⟨after, hdrop⟩ := h.drop_add_eq hle
    simp [hdrop]
  have hsuffix := suffix_searchPatterns ((inOrder_patterns_iff hp).mp hw)
  have hne : searchPatterns (w.drop p) [fltoFnoLto, postLink] ≠ [] := by
    intro hnil
    rw [hnil] at hsuffix
    exact htail (List.suffix_nil.mp hsuffix)
  rw [findInSegment, searchSubstr_linker, hro]
  simp only
  rw [if_pos hmem, h.takeWhile_drop hle, if_neg hne]
  nofun

theorem findLinkCommandSpec_some (h : findLinkCommandSpec roSec = .ok (some (i, p, spec))) :
    ∃ ro, roSec[i]? = some ro ∧ findInSegment ro = .ok (some (p, spec)) := by
  induction roSec generalizing i with
  | nil => cases h
  | cons ro roSec ih =>
      rw [findLinkCommandSpec] at h
      cases hfind : findInSegment ro with
      | error failure =>
          rw [hfind] at h
          cases h
      | ok found =>
          rw [hfind] at h
          cases found with
          | some found =>
              cases h
              exact ⟨ro, rfl, hfind⟩
          | none =>
              simp only at h
              split at h
              · next i' p' spec' hrest =>
                  cases h
                  exact ih hrest
              · next hnot => exact absurd h (hnot i p spec)

theorem findLinkCommandSpec_none (h : findLinkCommandSpec roSec = .ok none) (hi : ro ∈ roSec) :
    findInSegment ro = .ok none := by
  induction roSec with
  | nil => cases hi
  | cons ro' roSec ih =>
      rw [findLinkCommandSpec] at h
      cases hfind : findInSegment ro' with
      | error failure =>
          rw [hfind] at h
          cases h
      | ok found =>
          rw [hfind] at h
          cases found with
          | some found => cases h
          | none =>
              rcases List.mem_cons.mp hi with rfl | hi
              · exact hfind
              · simp only at h
                split at h
                · cases h
                · exact ih h hi

end Mair.Compiler
