import Mathlib.Data.List.TakeWhile
import Mair.Compiler.Braces
import Mair.Compiler.Patch
import Mair.Library.Laminar

/-! # Extracting the groups of a spec

The components that are extracted are compared with the groups that begin with the header. -/

namespace Mair.Compiler

open Brackets Laminar Search

/-! ## Groups -/

/-- A header that opens groups and closes none. -/
structure GroupHeader (header : CString) : Prop where
  opener : ∃ opener ∈ openers, opener <+: header
  unclosed : '\x7d' ∉ header

/-- A header at the position, and what follows it up to the brace that closes its outermost
group. -/
structure GroupIn (text header : CString) (p : ℕ) (inner : CString) : Prop where
  prefix_drop : header ++ inner <+: text.drop p
  closed : Closed '\x7b' '\x7d' (header.count '\x7b') inner

/-- A group that lies in no other group with the header. -/
def TopLevel (text header : CString) (p : ℕ) (inner : CString) : Prop :=
  GroupIn text header p inner ∧
    ∀ q other, q < p → GroupIn text header q other → q + (header ++ other).length ≤ p

/-- The header at the position, and the characters up to where the scanner stops. -/
def CountedAt (text header : CString) (p n : ℕ) : Prop :=
  header <+: text.drop p ∧
    closing (header.count '\x7b') (text.drop (p + header.length)) = some n

/-- The scanner has stopped for each header before the position. -/
def Reached (text header : CString) (p : ℕ) : Prop :=
  ∀ q n, q < p → CountedAt text header q n → q + header.length + n ≤ p

/-! ## What is claimed -/

def FirstAt (header text : CString) (p : ℕ) : Prop :=
  header <+: text.drop p ∧ ∀ q < p, ¬header <+: text.drop q

/-- The group of the first header, and nothing where there is no header. -/
def ExtractsGroup (linkSpec : CString) (view : View) (header : CString) : Prop :=
  (extract linkSpec view header = none ↔ ∀ q, ¬header <+: view.text.drop q) ∧
    ∀ p inner, FirstAt header view.text p → GroupIn view.text header p inner →
      extract linkSpec view header = some ⟨view.pos + p, header ++ inner⟩

/-- The groups on the top level from which something is made, each once, in order, apart from each
other and in the view. -/
structure ReturnsGroups {β : Type} (view : View) (header : CString) (make : View → Option β)
    (comp : β → View) (result : List β) : Prop where
  mem_iff : ∀ c, c ∈ result ↔
    ∃ p inner, TopLevel view.text header p inner ∧ make ⟨view.pos + p, header ++ inner⟩ = some c
  ordered : result.Pairwise fun c d => (comp c).pos + (comp c).text.length ≤ (comp d).pos
  inside : ∀ c ∈ result, view.pos ≤ (comp c).pos ∧
    (comp c).pos + (comp c).text.length ≤ view.pos + view.text.length

/-- A group from which something is made and that the scan comes to is on the top level, and the
scanner knows its openers. -/
def ScannedExactly {β : Type} (view : View) (header : CString) (make : View → Option β) : Prop :=
  ∀ p inner, GroupIn view.text header p inner →
    (make ⟨view.pos + p, header ++ inner⟩).isSome → Reached view.text header p →
      TopLevel view.text header p inner ∧ PlainOpeners inner

/-! ## Where a group ends -/

section Ends

variable {text header inner : CString} {p q n : ℕ}

theorem GroupHeader.ne_nil (h : GroupHeader header) : header ≠ [] := by
  rintro rfl
  obtain ⟨opener, hopener, hbegins⟩ := h.opener
  rw [List.prefix_nil.mp hbegins] at hopener
  exact absurd hopener (by decide)

theorem GroupIn.header_begins (h : GroupIn text header p inner) : header <+: text.drop p :=
  (List.prefix_append header inner).trans h.prefix_drop

theorem GroupIn.inner_begins (h : GroupIn text header p inner) :
    inner <+: text.drop (p + header.length) := by
  have hbegins := h.prefix_drop
  rw [drop_eq_append h.header_begins] at hbegins
  exact (List.prefix_append_right_inj header).mp hbegins

theorem GroupIn.unique {other : CString} (h : GroupIn text header p inner)
    (h' : GroupIn text header p other) : inner = other :=
  h.closed.unique h'.closed h.inner_begins h'.inner_begins

theorem GroupIn.take_eq (h : GroupIn text header p inner) (hn : n ≤ inner.length) :
    (text.drop p).take (header.length + n) = header ++ inner.take n := by
  obtain ⟨rest, hrest⟩ := h.prefix_drop
  rw [← hrest, List.append_assoc, List.take_length_add_append, List.take_append_of_le_length hn]

theorem GroupIn.le_length (h : GroupIn text header p inner) (hne : header ≠ []) :
    p + (header ++ inner).length ≤ text.length :=
  length_le_of_prefix_drop h.prefix_drop (by simp [hne])

/-- Each header of balanced text begins a group. -/
theorem exists_groupIn (h : Balanced '\x7b' '\x7d' text) (hunclosed : '\x7d' ∉ header)
    (hp : header <+: text.drop p) : ∃ inner, GroupIn text header p inner := by
  have hsplit : text = text.take p ++ (header ++ text.drop (p + header.length)) := by
    rw [← drop_eq_append hp, List.take_append_drop]
  have hle := h.count_le (text.take p) (List.take_prefix p text)
  have htotal := h.total
  rw [hsplit] at htotal
  simp only [List.count_append, List.count_eq_zero_of_not_mem hunclosed] at htotal
  obtain ⟨inner, hbegins, hclosed⟩ :=
    @exists_closed _ '\x7b' '\x7d' (header.count '\x7b') (text.drop (p + header.length)) _
      (by decide) (by omega)
  refine ⟨inner, ?_, hclosed⟩
  rw [drop_eq_append hp]
  exact (List.prefix_append_right_inj header).mpr hbegins

/-- The scanner stops in the group, and at its end if and only if it knows the openers. -/
theorem GroupIn.exists_counted (h : GroupIn text header p inner) :
    ∃ n ≤ inner.length, CountedAt text header p n ∧
      (∀ rest, closing (header.count '\x7b') (inner ++ rest) = some n) ∧
      (n = inner.length ↔ PlainOpeners inner) := by
  obtain ⟨n, hn, hclosing, hiff⟩ := closing_of_closed h.closed (Nat.le_refl _)
  rw [and_iff_right rfl] at hiff
  refine ⟨n, hn, ⟨h.header_begins, ?_⟩, hclosing, hiff⟩
  obtain ⟨rest, hrest⟩ := h.inner_begins
  rw [← hrest]
  exact hclosing rest

theorem CountedAt.unique {m : ℕ} (h : CountedAt text header p n) (h' : CountedAt text header p m) :
    n = m :=
  Option.some.inj (h.2.symm.trans h'.2)

end Ends

/-! ## One extraction -/

section Extract

variable {linkSpec header inner : CString} {view : View} {p n s : ℕ}

theorem firstAt_iff {text : CString} :
    FirstAt header text p ↔ find header text = some p := by
  constructor
  · intro h
    obtain ⟨q, hq, hfind⟩ := exists_find h.1
    rcases Nat.eq_or_lt_of_le hq with rfl | hlt
    · exact hfind
    · exact absurd (prefix_of_find hfind) (h.2 q hlt)
  · intro h
    exact ⟨prefix_of_find h, fun q hq => find_first h hq⟩

/-- The rest of a view in the link spec. -/
theorem prefix_drop_add (hview : view.text <+: linkSpec.drop view.pos) :
    view.text.drop s <+: linkSpec.drop (view.pos + s) := by
  rw [← List.drop_drop]
  exact hview.drop s

/-- What is extracted ends where the scanner stops. -/
theorem extract_of_groupIn (hview : view.text <+: linkSpec.drop view.pos)
    (hgroup : GroupIn view.text header p inner) (hcounted : CountedAt view.text header p n)
    (hfirst : find header (view.text.drop s) = some (p - s)) (hs : s ≤ p) :
    extract linkSpec ⟨view.pos + s, view.text.drop s⟩ header =
      some ⟨view.pos + p, header ++ inner.take n⟩ := by
  obtain ⟨m, hm, hcounted', hclosing, -⟩ := hgroup.exists_counted
  cases hcounted.unique hcounted'
  have hpos : view.pos + s + (p - s) = view.pos + p := by omega
  have hlink : header ++ inner <+: linkSpec.drop (view.pos + p) :=
    hgroup.prefix_drop.trans (prefix_drop_add hview)
  have hlinkInner : inner <+: linkSpec.drop (view.pos + p + header.length) := by
    have hheader := (List.prefix_append header inner).trans hlink
    rw [drop_eq_append hheader] at hlink
    exact (List.prefix_append_right_inj header).mp hlink
  obtain ⟨rest, hrest⟩ := hlinkInner
  have htake : ((view.text.drop s).drop (p - s)).take (header.length + n) =
      header ++ inner.take n := by
    rw [List.drop_drop, Nat.add_sub_cancel' hs, hgroup.take_eq hm]
  rw [extract, hfirst]
  simp only
  rw [hpos, ← hrest, hclosing rest, Option.map_some, htake]

theorem extract_eq_none_of_find (hfind : find header (view.text.drop s) = none) :
    extract linkSpec ⟨view.pos + s, view.text.drop s⟩ header = none := by
  rw [extract, hfind]

/-- The first group is extracted if and only if the scanner knows its openers. -/
theorem extractsGroup_iff (hview : view.text <+: linkSpec.drop view.pos)
    (hbalanced : Balanced '\x7b' '\x7d' view.text) (hheader : GroupHeader header) :
    ExtractsGroup linkSpec view header ↔
      ∀ p inner, FirstAt header view.text p → GroupIn view.text header p inner →
        PlainOpeners inner := by
  have hfound : ∀ p inner, FirstAt header view.text p → GroupIn view.text header p inner →
      ∃ n ≤ inner.length, (n = inner.length ↔ PlainOpeners inner) ∧
        extract linkSpec view header = some ⟨view.pos + p, header ++ inner.take n⟩ := by
    intro p inner hfirst hgroup
    obtain ⟨n, hn, hcounted, -, hiff⟩ := hgroup.exists_counted
    exact ⟨n, hn, hiff, @extract_of_groupIn linkSpec header inner view p n 0 hview hgroup hcounted
      (firstAt_iff.mp hfirst) (Nat.zero_le p)⟩
  constructor
  · intro h p inner hfirst hgroup
    obtain ⟨n, hn, hiff, hextract⟩ := hfound p inner hfirst hgroup
    rw [h.2 p inner hfirst hgroup, Option.some_inj, View.mk.injEq, List.append_right_inj] at hextract
    have hlength := congrArg List.length hextract.2
    rw [List.length_take, Nat.min_eq_left hn] at hlength
    exact hiff.mp hlength.symm
  · intro h
    refine ⟨⟨?_, ?_⟩, ?_⟩
    · intro hnone q hq
      obtain ⟨p, -, hfind⟩ := exists_find hq
      obtain ⟨inner, hgroup⟩ := exists_groupIn hbalanced hheader.unclosed (prefix_of_find hfind)
      obtain ⟨n, -, -, hextract⟩ := hfound p inner (firstAt_iff.mpr hfind) hgroup
      rw [hnone] at hextract
      cases hextract
    · intro hnot
      rw [extract]
      cases hfind : find header view.text with
      | none => rfl
      | some p => exact absurd (prefix_of_find hfind) (hnot p)
    · intro p inner hfirst hgroup
      obtain ⟨n, hn, hiff, hextract⟩ := hfound p inner hfirst hgroup
      rw [hextract, hiff.mpr (h p inner hfirst hgroup), List.take_length]

end Extract

/-! ## The scan -/

section Scan

variable {linkSpec header inner : CString} {view : View} {p n s fuel : ℕ}

/-- The ranges of the scanner, and those of the groups. -/
def countedSpan (text header : CString) (p i : ℕ) : Prop :=
  ∃ n, CountedAt text header p n ∧ i = p + header.length + n

def groupSpan (text header : CString) (p i : ℕ) : Prop :=
  ∃ inner, GroupIn text header p inner ∧ i = p + (header ++ inner).length

/-- A header of the two loops: it does not overlap itself, and the scanner counts its openers. -/
structure LoopHeader (header : CString) : Prop extends GroupHeader header where
  percent : header.head? = some '%'
  apart : ∀ j < header.length, 0 < j → ¬header.drop j <+: header
  closing_header : ∀ depth rest, closing (depth + 1) (header ++ rest) =
    (closing (depth + 1 + header.count '\x7b') rest).map (· + header.length)

theorem LoopHeader.le_of_lt (h : LoopHeader header) {text : CString} {q : ℕ}
    (hq : header <+: text.drop q) (hp : header <+: text.drop p) (hlt : q < p) :
    q + header.length ≤ p := by
  by_contra hover
  refine h.apart (p - q) (by omega) (by omega) ?_
  have hdrop : header.drop (p - q) <+: text.drop p := by
    have hsub := hq.drop (p - q)
    rw [List.drop_drop, Nat.add_sub_cancel' (Nat.le_of_lt hlt)] at hsub
    exact hsub
  refine List.prefix_of_prefix_length_le hdrop hp ?_
  rw [List.length_drop]
  exact Nat.sub_le _ _

theorem LoopHeader.length_pos (h : LoopHeader header) : 0 < header.length :=
  List.length_pos_of_ne_nil h.toGroupHeader.ne_nil

theorem nested_groupSpan (h : LoopHeader header) {text : CString} :
    Nested (groupSpan text header) where
  unique := by
    intro p i j hi hj
    obtain ⟨inner, hinner, rfl⟩ := hi
    obtain ⟨other, hother, rfl⟩ := hj
    rw [hinner.unique hother]
  lt_end := by
    intro p i hi
    obtain ⟨inner, -, rfl⟩ := hi
    rw [List.length_append]
    have := h.length_pos
    omega
  nested := by
    intro q j p i hj hi hlt hinside
    obtain ⟨inner, hinner, rfl⟩ := hi
    obtain ⟨other, hother, rfl⟩ := hj
    have hle := h.le_of_lt hother.header_begins hinner.header_begins hlt
    have hlength : (header ++ other).length = header.length + other.length := List.length_append
    have hsplit := hother.closed
    rw [← List.take_append_drop (p - (q + header.length)) other] at hsplit
    have hrest : other.drop (p - (q + header.length)) <+: text.drop p := by
      have hdrop := hother.inner_begins.drop (p - (q + header.length))
      rw [List.drop_drop, Nat.add_sub_cancel' hle] at hdrop
      exact hdrop
    have hne : other.drop (p - (q + header.length)) ≠ [] := by
      rw [Ne, List.drop_eq_nil_iff]
      omega
    have hnested := hsplit.nested hne h.unclosed hinner.closed hrest hinner.prefix_drop
    rw [List.length_drop] at hnested
    omega

theorem nested_countedSpan (h : LoopHeader header) {text : CString} :
    Nested (countedSpan text header) where
  unique := by
    intro p i j hi hj
    obtain ⟨n, hn, rfl⟩ := hi
    obtain ⟨m, hm, rfl⟩ := hj
    rw [hn.unique hm]
  lt_end := by
    intro p i hi
    obtain ⟨n, -, rfl⟩ := hi
    have := h.length_pos
    omega
  nested := by
    intro q j p i hj hi hlt hinside
    obtain ⟨n, hn, rfl⟩ := hi
    obtain ⟨m, hm, rfl⟩ := hj
    have hle := h.le_of_lt hm.1 hn.1 hlt
    have hdrop : (text.drop (q + header.length)).drop (p - (q + header.length)) =
        header ++ text.drop (p + header.length) := by
      rw [List.drop_drop, Nat.add_sub_cancel' hle, drop_eq_append hn.1]
    obtain ⟨tail, hheader⟩ := List.head?_eq_some_iff.mp h.percent
    obtain ⟨e, he⟩ := closing_drop hm.2 (q := p - (q + header.length)) (by omega)
      (hdrop.trans (by rw [hheader]; rfl))
    rw [hdrop, h.closing_header] at he
    obtain ⟨r, hr, hlength⟩ := Option.map_eq_some_iff.mp he
    obtain ⟨k, hk, hclosing⟩ := closing_mono hr (header.count '\x7b') (Nat.le_add_left _ _)
    rw [hn.2, Option.some_inj] at hclosing
    omega

/-- The loop takes the ranges of the scanner one after the other. -/
theorem exists_scan (hview : view.text <+: linkSpec.drop view.pos)
    (hbalanced : Balanced '\x7b' '\x7d' view.text) (h : LoopHeader header)
    (hs : s ≤ view.text.length) (hfuel : (view.text.drop s).length < fuel) :
    ∃ ps, Scan (countedSpan view.text header) s ps ∧
      extractAll linkSpec header fuel ⟨view.pos + s, view.text.drop s⟩ =
        ps.map fun r => ⟨view.pos + r.1, (view.text.drop r.1).take (r.2 - r.1)⟩ := by
  induction fuel generalizing s with
  | zero => exact absurd hfuel (Nat.not_lt_zero _)
  | succ fuel ih =>
      rw [extractAll]
      cases hfind : find header (view.text.drop s) with
      | none =>
          rw [extract_eq_none_of_find hfind]
          refine ⟨[], .nil ?_, rfl⟩
          intro p i hsp hspan
          obtain ⟨n, hn, -⟩ := hspan
          refine find_eq_none hfind (p - s) ?_
          rw [List.drop_drop, Nat.add_sub_cancel' hsp]
          exact hn.1
      | some k =>
          have hbegins := prefix_of_find hfind
          rw [List.drop_drop] at hbegins
          obtain ⟨inner, hgroup⟩ := exists_groupIn hbalanced h.unclosed hbegins
          obtain ⟨n, hn, hcounted, -, -⟩ := hgroup.exists_counted
          have hsub : s + k - s = k := Nat.add_sub_cancel_left s k
          rw [extract_of_groupIn hview hgroup hcounted (by rw [hsub]; exact hfind)
            (Nat.le_add_right s k)]
          have hpos := h.length_pos
          have hlength : (header ++ inner.take n).length = header.length + n := by
            rw [List.length_append, List.length_take, Nat.min_eq_left hn]
          have hend := hgroup.le_length h.ne_nil
          rw [List.length_append] at hend
          rw [List.length_drop] at hfuel
          obtain ⟨ps, hscan, hrest⟩ := @ih (s + k + header.length + n) (by omega)
            (by rw [List.length_drop]; omega)
          refine ⟨(s + k, s + k + header.length + n) :: ps, ?_, ?_⟩
          · refine .cons (Nat.le_add_right s k) ⟨n, hcounted, rfl⟩ ?_ hscan
            intro q j hsq hq hspan
            obtain ⟨m, hm, -⟩ := hspan
            refine find_first hfind (show q - s < k by omega) ?_
            rw [List.drop_drop, Nat.add_sub_cancel' hsq]
            exact hm.1
          · have hrange : s + k + header.length + n - (s + k) = header.length + n := by omega
            have hnext : view.pos + (s + k) + (header.length + n) =
                view.pos + (s + k + header.length + n) := by omega
            have hdrop : s + (view.pos + (s + k + header.length + n) - (view.pos + s)) =
                s + k + header.length + n := by omega
            simp only [List.map_cons, hrange, hgroup.take_eq hn, hlength, hnext, List.drop_drop,
              hdrop, hrest]

end Scan

/-! ## The groups that are returned -/

section Returns

variable {β : Type} {make : View → Option β} {comp : β → View} {linkSpec header : CString}
  {view : View}

theorem outermost_countedSpan_iff {text : CString} {p i : ℕ} :
    Outermost (countedSpan text header) p i ↔
      countedSpan text header p i ∧ Reached text header p := by
  constructor
  · intro h
    exact ⟨h.1, fun q n hq hn => h.2 q _ hq ⟨n, hn, rfl⟩⟩
  · intro h
    refine ⟨h.1, ?_⟩
    intro q j hq hj
    obtain ⟨n, hn, rfl⟩ := hj
    exact h.2 q n hq hn

/-- The components are the counted parts of the groups that the scan comes to. -/
theorem extractAll_spec (hview : view.text <+: linkSpec.drop view.pos)
    (hbalanced : Balanced '\x7b' '\x7d' view.text) (h : LoopHeader header) :
    (∀ v, v ∈ extractAll linkSpec header (view.text.length + 1) view ↔
      ∃ p inner n, GroupIn view.text header p inner ∧ CountedAt view.text header p n ∧
        n ≤ inner.length ∧ Reached view.text header p ∧
          v = ⟨view.pos + p, header ++ inner.take n⟩) ∧
      (extractAll linkSpec header (view.text.length + 1) view).Pairwise fun v w =>
        v.pos + v.text.length ≤ w.pos := by
  obtain ⟨ps, hscan, heq⟩ := @exists_scan linkSpec header view 0 (view.text.length + 1) hview
    hbalanced h (Nat.zero_le _) (Nat.lt_succ_self _)
  have heq : extractAll linkSpec header (view.text.length + 1) view =
      ps.map fun r => ⟨view.pos + r.1, (view.text.drop r.1).take (r.2 - r.1)⟩ := heq
  have hmem : ∀ p i, (p, i) ∈ ps ↔ countedSpan view.text header p i ∧
      Reached view.text header p := by
    intro p i
    rw [hscan.mem_iff (nested_countedSpan h) fun q j hq => absurd hq (Nat.not_lt_zero q),
      and_iff_right (Nat.zero_le p), outermost_countedSpan_iff]
  have hview_eq : ∀ p i, (p, i) ∈ ps → ∃ inner n, GroupIn view.text header p inner ∧
      CountedAt view.text header p n ∧ n ≤ inner.length ∧ i = p + header.length + n ∧
        (view.text.drop p).take (i - p) = header ++ inner.take n := by
    intro p i hp
    obtain ⟨n, hn, rfl⟩ := ((hmem p i).mp hp).1
    obtain ⟨inner, hgroup⟩ := exists_groupIn hbalanced h.unclosed hn.1
    obtain ⟨m, hm, hcounted, -, -⟩ := hgroup.exists_counted
    cases hcounted.unique hn
    refine ⟨inner, n, hgroup, hn, hm, rfl, ?_⟩
    rw [Nat.add_assoc, Nat.add_sub_cancel_left, hgroup.take_eq hm]
  rw [heq]
  constructor
  · intro v
    rw [List.mem_map]
    constructor
    · intro hv
      obtain ⟨⟨p, i⟩, hp, rfl⟩ := hv
      obtain ⟨inner, n, hgroup, hn, hle, -, htext⟩ := hview_eq p i hp
      exact ⟨p, inner, n, hgroup, hn, hle, ((hmem p i).mp hp).2, by rw [htext]⟩
    · intro hv
      obtain ⟨p, inner, n, hgroup, hn, hle, hreached, rfl⟩ := hv
      refine ⟨(p, p + header.length + n), (hmem _ _).mpr ⟨⟨n, hn, rfl⟩, hreached⟩, ?_⟩
      simp only
      rw [Nat.add_assoc p, Nat.add_sub_cancel_left, hgroup.take_eq hle]
  · rw [List.pairwise_map]
    refine (hscan.pairwise (nested_countedSpan h)).imp_of_mem ?_
    intro a b ha hb hle
    obtain ⟨inner, n, -, -, hn, hi, htext⟩ := hview_eq a.1 a.2 ha
    simp only
    rw [htext, List.length_append, List.length_take, Nat.min_eq_left hn]
    omega

/-- The scan comes to each group on the top level. -/
theorem TopLevel.reached {text inner : CString} {p : ℕ} (h : TopLevel text header p inner)
    (hbalanced : Balanced '\x7b' '\x7d' text) (hunclosed : '\x7d' ∉ header) :
    Reached text header p := by
  intro q m hq hm
  obtain ⟨other, hother⟩ := exists_groupIn hbalanced hunclosed hm.1
  obtain ⟨k, hk, hcounted, -, -⟩ := hother.exists_counted
  cases hm.unique hcounted
  have hend := h.2 q other hq hother
  rw [List.length_append] at hend
  omega

/-- The groups are returned as claimed if and only if the scan is exact. -/
theorem returnsGroups_iff (hview : view.text <+: linkSpec.drop view.pos)
    (hbalanced : Balanced '\x7b' '\x7d' view.text) (h : LoopHeader header)
    (hcomp : ∀ v c, make v = some c → comp c = v)
    (hmake : ∀ p inner n, GroupIn view.text header p inner → CountedAt view.text header p n →
      ((make ⟨view.pos + p, header ++ inner.take n⟩).isSome ↔
        (make ⟨view.pos + p, header ++ inner⟩).isSome)) :
    ReturnsGroups view header make comp
        ((extractAll linkSpec header (view.text.length + 1) view).filterMap make) ↔
      ScannedExactly view header make := by
  obtain ⟨hmem, hpairwise⟩ := extractAll_spec hview hbalanced h
  constructor
  · intro hreturns p inner hgroup hknown hreached
    obtain ⟨n, hn, hcounted, -, hiff⟩ := hgroup.exists_counted
    obtain ⟨c, hc⟩ := Option.isSome_iff_exists.mp ((hmake p inner n hgroup hcounted).mpr hknown)
    have hin := (hmem _).mpr ⟨p, inner, n, hgroup, hcounted, hn, hreached, rfl⟩
    obtain ⟨q, other, htop, hother⟩ :=
      (hreturns.mem_iff c).mp (List.mem_filterMap.mpr ⟨_, hin, hc⟩)
    have heq := (hcomp _ c hc).symm.trans (hcomp _ c hother)
    rw [View.mk.injEq, List.append_right_inj, Nat.add_right_inj] at heq
    obtain ⟨rfl, htake⟩ := heq
    cases htop.1.unique hgroup
    refine ⟨htop, hiff.mp ?_⟩
    have hlength := congrArg List.length htake
    rw [List.length_take, Nat.min_eq_left hn] at hlength
    exact hlength
  · intro hscan
    have hexact : ∀ v c, v ∈ extractAll linkSpec header (view.text.length + 1) view →
        make v = some c → ∃ p inner, TopLevel view.text header p inner ∧
          v = ⟨view.pos + p, header ++ inner⟩ := by
      intro v c hv hc
      obtain ⟨p, inner, n, hgroup, hcounted, hn, hreached, rfl⟩ := (hmem v).mp hv
      have hknown := (hmake p inner n hgroup hcounted).mp (by rw [hc]; rfl)
      obtain ⟨htop, hplain⟩ := hscan p inner hgroup hknown hreached
      obtain ⟨m, -, hcounted', -, hiff⟩ := hgroup.exists_counted
      cases hcounted.unique hcounted'
      exact ⟨p, inner, htop, by rw [hiff.mpr hplain, List.take_length]⟩
    refine ⟨?_, ?_, ?_⟩
    · intro c
      rw [List.mem_filterMap]
      constructor
      · intro hc
        obtain ⟨v, hv, hc⟩ := hc
        obtain ⟨p, inner, htop, rfl⟩ := hexact v c hv hc
        exact ⟨p, inner, htop, hc⟩
      · intro hc
        obtain ⟨p, inner, htop, hc⟩ := hc
        obtain ⟨n, hn, hcounted, -, hiff⟩ := htop.1.exists_counted
        have hreached := htop.reached hbalanced h.unclosed
        obtain ⟨-, hplain⟩ := hscan p inner htop.1 (by rw [hc]; rfl) hreached
        refine ⟨_, (hmem _).mpr ⟨p, inner, n, htop.1, hcounted, hn, hreached, rfl⟩, ?_⟩
        rw [hiff.mpr hplain, List.take_length]
        exact hc
    · refine List.Pairwise.filterMap make ?_ hpairwise
      intro v w hvw c hc d hd
      rw [hcomp v c hc, hcomp w d hd]
      exact hvw
    · intro c hc
      obtain ⟨v, hv, hc⟩ := List.mem_filterMap.mp hc
      obtain ⟨p, inner, htop, rfl⟩ := hexact v c hv hc
      have hend := htop.1.le_length h.ne_nil
      rw [hcomp _ c hc]
      simp only
      omega

/-- Where something is made from each group, the groups on the top level decide. -/
theorem scannedExactly_iff (hbalanced : Balanced '\x7b' '\x7d' view.text) (h : LoopHeader header)
    (hmake : ∀ v, (make v).isSome) :
    ScannedExactly view header make ↔
      ∀ p inner, TopLevel view.text header p inner → PlainOpeners inner := by
  constructor
  · intro hscan p inner htop
    exact (hscan p inner htop.1 (hmake _) (htop.reached hbalanced h.unclosed)).2
  · intro hplain p inner hgroup _ hreached
    obtain ⟨q, j, hout, hle, hlt⟩ := exists_outermost (nested_groupSpan h) ⟨inner, hgroup, rfl⟩
    obtain ⟨⟨other, hother, rfl⟩, houter⟩ := hout
    have htop : TopLevel view.text header q other :=
      ⟨hother, fun r t hr ht => houter r _ hr ⟨t, ht, rfl⟩⟩
    rcases Nat.eq_or_lt_of_le hle with rfl | hq
    · cases hother.unique hgroup
      exact ⟨htop, hplain _ _ htop⟩
    · obtain ⟨n, -, hcounted, -, hiff⟩ := hother.exists_counted
      have hend := hreached q n hq hcounted
      rw [hiff.mpr (hplain q other htop)] at hend
      rw [List.length_append] at hlt
      omega

end Returns

/-! ## The two loops -/

section Loops

variable {linkSpec : CString} {view : View}

theorem loopHeader_sanitizerComp : LoopHeader SanitizerComp.header where
  opener := ⟨"%\x7b".toList, by decide, by decide⟩
  unclosed := by decide
  percent := by decide
  apart := by decide
  closing_header depth rest := closing_sanitizerHeader depth rest

theorem loopHeader_sanitzerSpec : LoopHeader SanitzerSpec.header where
  opener := ⟨"%\x7b".toList, by decide, by decide⟩
  unclosed := by decide
  percent := by decide
  apart := by decide
  closing_header depth rest := by
    have hheader : SanitzerSpec.header = '%' :: '\x7b' :: ("!nostdlib:".toList ++
        '%' :: '\x7b' :: ("!r:".toList ++ '%' :: '\x7b' :: "!nodefaultlibs:".toList)) := by decide
    have hcount : SanitzerSpec.header.count '\x7b' = 3 := by decide
    have hlength : SanitzerSpec.header.length = "!nodefaultlibs:".toList.length + 2 +
        "!r:".toList.length + 2 + "!nostdlib:".toList.length + 2 := by decide
    rw [hcount, hlength, hheader]
    simp only [List.cons_append, List.append_assoc]
    rw [closing, if_pos ⟨rfl, rfl⟩, closing_plain (by simp) (by simp), closing,
      if_pos ⟨rfl, rfl⟩, closing_plain (by simp) (by simp), closing, if_pos ⟨rfl, rfl⟩,
      closing_plain (by simp) (by simp), Option.map_map, Option.map_map, Option.map_map,
      Option.map_map, Option.map_map]
    rfl

/-- The name stands before the first closing brace, so the scanner reads all of it. -/
theorem takeWhile_eq_iff {body inner name : CString} (hbegins : body <+: inner)
    (hbrace : '\x7d' ∈ body) (hname : '\x7d' ∉ name) :
    body.takeWhile (· ≠ ')') = name ↔ inner.takeWhile (· ≠ ')') = name := by
  obtain ⟨rest, rfl⟩ := hbegins
  by_cases hparen : ∀ c ∈ body, c ≠ ')'
  · have hbody : body.takeWhile (· ≠ ')') = body :=
      List.takeWhile_eq_self_iff.mpr fun c hc => decide_eq_true (hparen c hc)
    have hinner : (body ++ rest).takeWhile (· ≠ ')') = body ++ rest.takeWhile (· ≠ ')') :=
      List.takeWhile_append_of_pos fun c hc => decide_eq_true (hparen c hc)
    rw [hbody, hinner]
    refine iff_of_false ?_ ?_
    · rintro rfl
      exact hname hbrace
    · rintro rfl
      exact hname (List.mem_append_left _ hbrace)
  · rw [List.takeWhile_append, if_neg]
    intro hlength
    refine hparen fun c hc => ?_
    have heq := (List.takeWhile_prefix (fun c => decide (c ≠ ')'))).eq_of_length hlength
    rw [List.takeWhile_eq_self_iff] at heq
    exact of_decide_eq_true (heq c hc)

theorem isSome_classify_iff {v w : View} (h : ∀ nameType ∈ SanitizerComp.sanitizerTypes,
    SanitizerComp.name v = nameType.1 ↔ SanitizerComp.name w = nameType.1) :
    (SanitizerComp.classify v).isSome ↔ (SanitizerComp.classify w).isSome := by
  rw [SanitizerComp.classify, SanitizerComp.classify, Option.isSome_map, Option.isSome_map,
    List.find?_isSome, List.find?_isSome]
  refine exists_congr fun nameType => and_congr_right fun hmem => ?_
  rw [decide_eq_true_eq, decide_eq_true_eq]
  exact h nameType hmem

theorem isSome_classify_counted {p n : ℕ} {inner : CString}
    (hgroup : GroupIn view.text SanitizerComp.header p inner)
    (hcounted : CountedAt view.text SanitizerComp.header p n) :
    (SanitizerComp.classify ⟨view.pos + p, SanitizerComp.header ++ inner.take n⟩).isSome ↔
      (SanitizerComp.classify ⟨view.pos + p, SanitizerComp.header ++ inner⟩).isSome := by
  have hnames : ∀ nameType ∈ SanitizerComp.sanitizerTypes, '\x7d' ∉ nameType.1 := by decide
  have hbrace : '\x7d' ∈ inner.take n := by
    obtain ⟨m, hm, hcounted', -, -⟩ := hgroup.exists_counted
    cases hcounted.unique hcounted'
    obtain ⟨body, rest, hsplit, rfl, hcloses⟩ := closing_sound hcounted.2
    obtain ⟨tail, htail⟩ := hgroup.inner_begins
    have htake : inner.take body.length = body := by
      rw [← List.take_append_of_le_length hm, htail, hsplit, List.take_left]
    rw [htake]
    exact @Closes.mem_brace 0 body hcloses
  refine isSome_classify_iff fun nameType hmem => ?_
  rw [SanitizerComp.name, SanitizerComp.name, List.drop_left, List.drop_left]
  exact takeWhile_eq_iff (List.take_prefix n inner) hbrace (hnames nameType hmem)

/-- The extraction is exact if and only if the scanner knows the openers: of the first group with the
header, of the known sanitizer groups that the scan comes to, and of the groups of the spec. -/
theorem extraction_iff {header : CString} (hlink : SpecText linkSpec)
    (hview : view.text <+: linkSpec.drop view.pos) (hspec : SpecText view.text)
    (hheader : GroupHeader header) :
    (ExtractsGroup linkSpec view header ↔
      ∀ p inner, FirstAt header view.text p → GroupIn view.text header p inner →
        PlainOpeners inner) ∧
    (ReturnsGroups view SanitizerComp.header SanitizerComp.classify SanitizerComp.comp
        (SanitizerComp.extract linkSpec view) ↔
      ScannedExactly view SanitizerComp.header SanitizerComp.classify) ∧
    (ReturnsGroups ⟨0, linkSpec⟩ SanitzerSpec.header
        (fun comp => some (SanitzerSpec.ofComp linkSpec comp)) SanitzerSpec.comp
        (SanitzerSpec.extract linkSpec) ↔
      ∀ p inner, TopLevel linkSpec SanitzerSpec.header p inner → PlainOpeners inner) ∧
    ∀ fuel > view.text.length, extractAll linkSpec header fuel view =
      extractAll linkSpec header (view.text.length + 1) view := by
  refine ⟨extractsGroup_iff hview hspec.balanced hheader, ?_, ?_, ?_⟩
  · exact returnsGroups_iff hview hspec.balanced loopHeader_sanitizerComp
      (fun v c => SanitizerComp.comp_of_classify) fun p inner n => isSome_classify_counted
  · rw [← @scannedExactly_iff SanitzerSpec
      (fun comp => some (SanitzerSpec.ofComp linkSpec comp)) SanitzerSpec.header ⟨0, linkSpec⟩
      hlink.balanced loopHeader_sanitzerSpec fun _ => rfl]
    rw [SanitzerSpec.extract, ← List.filterMap_eq_map]
    refine returnsGroups_iff (List.prefix_refl _) hlink.balanced loopHeader_sanitzerSpec ?_ ?_
    · intro v c hc
      cases hc
      rfl
    · intro p inner n _ _
      exact Iff.rfl
  · intro fuel hfuel
    exact extractAll_fuel hheader.ne_nil (Nat.lt_succ_self _) hfuel

end Loops

/-! ## Another opener -/

def librariesGroup : CString := "%\x7b%:sanitize(address):%@\x7bL*\x7d-lasan\x7d".toList

theorem SpecText.append_text {plain rest : CString}
    (h : ∀ c ∈ plain, c ≠ '%' ∧ c ≠ '\x7b' ∧ c ≠ '\x7d') (hrest : SpecText rest) :
    SpecText (plain ++ rest) := by
  induction plain with
  | nil => exact hrest
  | cons c plain ih =>
      obtain ⟨hpercent, hopen, hclose⟩ := h c List.mem_cons_self
      exact .text hpercent hopen hclose (ih fun d hd => h d (List.mem_cons_of_mem c hd))

theorem specText_librariesGroup : SpecText librariesGroup := by
  have hlasan : SpecText ("-lasan".toList ++ []) :=
    .append_text (List.forall_iff_forall_mem.mp (by decide)) .nil
  have hlibraries : SpecText ("%@\x7b".toList ++ ("L*".toList ++ []) ++ ['\x7d'] ++
      ("-lasan".toList ++ [])) :=
    .group (by decide) (.append_text (List.forall_iff_forall_mem.mp (by decide)) .nil) hlasan
  have hbody : SpecText ('%' :: ':' :: ("sanitize(address):".toList ++ _)) :=
    .directive (by decide) (.append_text (List.forall_iff_forall_mem.mp (by decide)) hlibraries)
  exact @SpecText.group "%\x7b".toList _ _ (by decide) hbody .nil

/-- The component ends with the brace that closes `%@`. -/
theorem librariesGroup_cut :
    SpecText librariesGroup ∧
      ¬ExtractsGroup librariesGroup ⟨0, librariesGroup⟩ SanitizerComp.header := by
  refine ⟨specText_librariesGroup, ?_⟩
  intro h
  have hfirst : FirstAt SanitizerComp.header librariesGroup 0 :=
    ⟨by decide, fun q hq => absurd hq (Nat.not_lt_zero q)⟩
  obtain ⟨inner, hgroup⟩ := exists_groupIn specText_librariesGroup.balanced
    loopHeader_sanitizerComp.unclosed hfirst.1
  have hextract : extract librariesGroup ⟨0, librariesGroup⟩ SanitizerComp.header =
      some ⟨0, SanitizerComp.header ++ "address):%@\x7bL*\x7d".toList⟩ := by decide
  rw [h.2 0 inner hfirst hgroup, Option.some_inj, View.mk.injEq, List.append_right_inj] at hextract
  have htotal := hgroup.closed.total
  rw [hextract.2] at htotal
  exact absurd htotal (by decide)

theorem extraction_iff_librariesGroup :
    (ExtractsGroup librariesGroup ⟨0, librariesGroup⟩ SanitizerComp.header ↔
      ∀ p inner, FirstAt SanitizerComp.header librariesGroup p →
        GroupIn librariesGroup SanitizerComp.header p inner → PlainOpeners inner) ∧
    (ReturnsGroups ⟨0, librariesGroup⟩ SanitizerComp.header SanitizerComp.classify
        SanitizerComp.comp (SanitizerComp.extract librariesGroup ⟨0, librariesGroup⟩) ↔
      ScannedExactly ⟨0, librariesGroup⟩ SanitizerComp.header SanitizerComp.classify) ∧
    (ReturnsGroups ⟨0, librariesGroup⟩ SanitzerSpec.header
        (fun comp => some (SanitzerSpec.ofComp librariesGroup comp)) SanitzerSpec.comp
        (SanitzerSpec.extract librariesGroup) ↔
      ∀ p inner, TopLevel librariesGroup SanitzerSpec.header p inner → PlainOpeners inner) ∧
    ∀ fuel > librariesGroup.length,
      extractAll librariesGroup SanitizerComp.header fuel ⟨0, librariesGroup⟩ =
        extractAll librariesGroup SanitizerComp.header (librariesGroup.length + 1)
          ⟨0, librariesGroup⟩ :=
  @extraction_iff librariesGroup ⟨0, librariesGroup⟩ SanitizerComp.header specText_librariesGroup
    (List.prefix_refl _) specText_librariesGroup loopHeader_sanitizerComp.toGroupHeader

end Mair.Compiler
