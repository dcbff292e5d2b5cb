import Mair.Compiler.LinkSpec

/-! # Groups of a link spec

A group is a header and what follows it up to the brace that closes it. The components that are
extracted are groups, one after the other. -/

namespace Mair.Compiler

open Search

/-- The text closes that many open braces, the last with its last character. -/
inductive Closes : ℕ → CString → Prop
  | done : Closes 0 []
  | opening {depth : ℕ} {text : CString} : Closes (depth + 2) text →
      Closes (depth + 1) ('%' :: '\x7b' :: text)
  | closing {depth : ℕ} {text : CString} : Closes depth text → Closes (depth + 1) ('\x7d' :: text)
  | plain {depth : ℕ} {c : Char} {text : CString} : c ≠ '\x7d' →
      ¬(c = '%' ∧ text.head? = some '\x7b') → Closes (depth + 1) text →
      Closes (depth + 1) (c :: text)

/-- The positions from `i` to `j` are a group with this header. -/
def GroupAt (header w : CString) (i j : ℕ) : Prop :=
  ∃ body rest, w.drop i = header ++ body ++ rest ∧ Closes (header.count '\x7b') body ∧
    j = i + header.length + body.length

variable {linkSpec header l rest text : CString} {depth n q : ℕ}

/-! ## Matching braces -/

theorem Closes.ne_nil (h : Closes (depth + 1) text) : text ≠ [] := by
  cases h <;> nofun

theorem closing_sound (h : closing depth l = some n) :
    ∃ body rest, l = body ++ rest ∧ body.length = n ∧ Closes depth body := by
  fun_induction closing depth l generalizing n with
  | case1 l =>
      cases h
      exact ⟨[], l, rfl, rfl, .done⟩
  | case2 => cases h
  | case3 depth c hc =>
      obtain ⟨rfl, rfl⟩ := hc
      cases h
      exact ⟨['\x7d'], [], rfl, rfl, .closing .done⟩
  | case4 => cases h
  | case5 depth c d inner hopen ih =>
      obtain ⟨rfl, rfl⟩ := hopen
      obtain ⟨m, hm, rfl⟩ := Option.map_eq_some_iff.mp h
      obtain ⟨body, rest, rfl, rfl, hbody⟩ := ih hm
      exact ⟨'%' :: '\x7b' :: body, rest, rfl, rfl, .opening hbody⟩
  | case6 depth d inner hopen ih =>
      obtain ⟨m, hm, rfl⟩ := Option.map_eq_some_iff.mp h
      obtain ⟨body, rest, heq, rfl, hbody⟩ := ih hm
      exact ⟨'\x7d' :: body, rest, by rw [heq]; rfl, rfl, .closing hbody⟩
  | case7 depth c d inner hopen hclose ih =>
      obtain ⟨m, hm, rfl⟩ := Option.map_eq_some_iff.mp h
      obtain ⟨body, rest, heq, rfl, hbody⟩ := ih hm
      refine ⟨c :: body, rest, by rw [heq]; rfl, rfl, .plain hclose ?_ hbody⟩
      intro hc
      cases body with
      | nil => exact hbody.ne_nil rfl
      | cons b body =>
          cases heq
          exact hopen ⟨hc.1, Option.some.inj hc.2⟩

theorem closing_le_length (h : closing depth l = some n) : n ≤ l.length := by
  obtain ⟨body, rest, rfl, rfl, -⟩ := closing_sound h
  simp

/-- Fewer open braces are closed no later. -/
theorem closing_mono (h : closing depth l = some n) (lower : ℕ) (hlower : lower ≤ depth) :
    ∃ m ≤ n, closing lower l = some m := by
  fun_induction closing depth l generalizing n lower with
  | case1 l =>
      cases Nat.le_zero.mp hlower
      exact ⟨0, Nat.zero_le n, by rw [closing]⟩
  | case2 => cases h
  | case3 depth c hc =>
      cases h
      cases lower with
      | zero => exact ⟨0, Nat.zero_le 1, by rw [closing]⟩
      | succ lower =>
          have hzero : lower = 0 := by omega
          exact ⟨1, Nat.le_refl 1, by simp [closing, hc, hzero]⟩
  | case4 => cases h
  | case5 depth c d inner hopen ih =>
      obtain ⟨m, hm, rfl⟩ := Option.map_eq_some_iff.mp h
      cases lower with
      | zero => exact ⟨0, Nat.zero_le _, by rw [closing]⟩
      | succ lower =>
          obtain ⟨k, hk, hclosing⟩ := ih hm (lower + 2) (by omega)
          exact ⟨k + 2, by omega, by simp [closing, hopen, hclosing]⟩
  | case6 depth d inner hopen ih =>
      obtain ⟨m, hm, rfl⟩ := Option.map_eq_some_iff.mp h
      cases lower with
      | zero => exact ⟨0, Nat.zero_le _, by rw [closing]⟩
      | succ lower =>
          obtain ⟨k, hk, hclosing⟩ := ih hm lower (by omega)
          exact ⟨k + 1, by omega, by simp [closing, hclosing]⟩
  | case7 depth c d inner hopen hclose ih =>
      obtain ⟨m, hm, rfl⟩ := Option.map_eq_some_iff.mp h
      cases lower with
      | zero => exact ⟨0, Nat.zero_le _, by rw [closing]⟩
      | succ lower =>
          obtain ⟨k, hk, hclosing⟩ := ih hm (lower + 1) (by omega)
          exact ⟨k + 1, by omega, by rw [closing, if_neg hopen, if_neg hclose, hclosing]; rfl⟩

/-- Where a `%` stands before the last brace, some braces are still open. -/
theorem closing_drop (h : closing depth l = some n) (hq : q < n) (hdrop : l.drop q = '%' :: rest) :
    ∃ e, closing (e + 1) (l.drop q) = some (n - q) := by
  fun_induction closing depth l generalizing n q with
  | case1 l =>
      cases h
      omega
  | case2 => cases h
  | case3 depth c hc =>
      cases h
      cases Nat.lt_one_iff.mp hq
      rw [hc.1] at hdrop
      cases hdrop
  | case4 => cases h
  | case5 depth c d inner hopen ih =>
      obtain ⟨m, hm, rfl⟩ := Option.map_eq_some_iff.mp h
      match q with
      | 0 => exact ⟨depth, by simp [closing, hopen, hm]⟩
      | 1 =>
          rw [hopen.2] at hdrop
          cases hdrop
      | q + 2 =>
          obtain ⟨e, he⟩ := ih hm (by omega) hdrop
          exact ⟨e, by rw [Nat.add_sub_add_right]; exact he⟩
  | case6 depth d inner hopen ih =>
      obtain ⟨m, hm, rfl⟩ := Option.map_eq_some_iff.mp h
      cases q with
      | zero => cases hdrop
      | succ q =>
          obtain ⟨e, he⟩ := ih hm (by omega) hdrop
          exact ⟨e, by rw [Nat.add_sub_add_right]; exact he⟩
  | case7 depth c d inner hopen hclose ih =>
      obtain ⟨m, hm, rfl⟩ := Option.map_eq_some_iff.mp h
      cases q with
      | zero => exact ⟨depth, by rw [List.drop_zero, closing, if_neg hopen, if_neg hclose, hm]; rfl⟩
      | succ q =>
          obtain ⟨e, he⟩ := ih hm (by omega) hdrop
          exact ⟨e, by rw [Nat.add_sub_add_right]; exact he⟩

/-! ## Extraction -/

/-- A component as the text of the link spec from its header to its closing brace. -/
structure Component (linkSpec header : CString) (comp : View) : Prop where
  prefix_drop : header <+: linkSpec.drop comp.pos
  header_le : header.length ≤ comp.text.length
  text_eq : comp.text = (linkSpec.drop comp.pos).take comp.text.length
  closing_eq : closing (header.count '\x7b') (linkSpec.drop (comp.pos + header.length)) =
    some (comp.text.length - header.length)

/-- A view up to `stop` in which the groups that begin end. -/
structure Region (linkSpec header : CString) (spec : View) (stop : ℕ) : Prop where
  text_eq : spec.text = (linkSpec.take stop).drop spec.pos
  stop_le : stop ≤ linkSpec.length
  closing_le : ∀ a m, spec.pos ≤ a → header <+: linkSpec.drop a → a + header.length ≤ stop →
    closing (header.count '\x7b') (linkSpec.drop (a + header.length)) = some m →
      a + header.length + m ≤ stop

variable {spec comp : View} {stop pos : ℕ}

theorem drop_eq_append (h : header <+: l.drop pos) :
    l.drop pos = header ++ l.drop (pos + header.length) := by
  obtain ⟨rest, hrest⟩ := h
  rw [← List.drop_drop, ← hrest, List.drop_left]

theorem Component.groupAt (h : Component linkSpec header comp) :
    GroupAt header linkSpec comp.pos (comp.pos + comp.text.length) := by
  obtain ⟨body, rest, hsplit, hlength, hcloses⟩ := closing_sound h.closing_eq
  refine ⟨body, rest, ?_, hcloses, ?_⟩
  · rw [drop_eq_append h.prefix_drop, hsplit, List.append_assoc]
  · have := h.header_le
    omega

theorem Region.extract (hregion : Region linkSpec header spec stop) (hne : header ≠ [])
    (h : Mair.Compiler.extract linkSpec spec header = some comp) :
    Component linkSpec header comp ∧ spec.pos ≤ comp.pos ∧
      comp.pos + comp.text.length ≤ stop := by
  rw [Mair.Compiler.extract] at h
  cases hfind : find header spec.text with
  | none =>
      rw [hfind] at h
      cases h
  | some pos =>
      rw [hfind] at h
      obtain ⟨n, hclosing, rfl⟩ := Option.map_eq_some_iff.mp h
      have hbegins := prefix_of_find hfind
      have hbound := find_bound hfind hne
      have hpos := List.length_pos_of_ne_nil hne
      have hdrop : spec.text.drop pos = (linkSpec.take stop).drop (spec.pos + pos) := by
        rw [hregion.text_eq, List.drop_drop]
      have hlength : spec.text.length = stop - spec.pos := by
        rw [hregion.text_eq, List.length_drop, List.length_take,
          Nat.min_eq_left hregion.stop_le]
      have hsub : (linkSpec.take stop).drop (spec.pos + pos) =
          (linkSpec.drop (spec.pos + pos)).take (stop - (spec.pos + pos)) :=
        List.drop_take
      rw [hdrop, hsub] at hbegins
      have hbegins' : header <+: linkSpec.drop (spec.pos + pos) :=
        hbegins.trans (List.take_prefix _ _)
      have hle := hregion.closing_le (spec.pos + pos) n (by omega) hbegins' (by omega) hclosing
      have htext : (spec.text.drop pos).take (header.length + n) =
          (linkSpec.drop (spec.pos + pos)).take (header.length + n) := by
        rw [hdrop, hsub, List.take_take, Nat.min_eq_left (by omega)]
      have htextLength : ((spec.text.drop pos).take (header.length + n)).length =
          header.length + n := by
        rw [List.length_take, List.length_drop]
        omega
      refine ⟨⟨hbegins', ?_, ?_, ?_⟩, Nat.le_add_right _ _, ?_⟩
      · dsimp only
        omega
      · dsimp only
        rw [htextLength, htext]
      · dsimp only
        rw [htextLength, hclosing, Nat.add_sub_cancel_left]
      · dsimp only
        omega

theorem Region.next (hregion : Region linkSpec header spec stop) {next : ℕ} (h : spec.pos ≤ next) :
    Region linkSpec header ⟨next, spec.text.drop (next - spec.pos)⟩ stop where
  text_eq := by
    rw [hregion.text_eq, List.drop_drop, Nat.add_sub_cancel' h]
  stop_le := hregion.stop_le
  closing_le a m ha := hregion.closing_le a m (Nat.le_trans h ha)

/-- The components of a region lie in it one after the other. -/
theorem Region.extractAll (hne : header ≠ []) (fuel : ℕ)
    (hregion : Region linkSpec header spec stop) :
    (∀ comp ∈ Mair.Compiler.extractAll linkSpec header fuel spec,
      Component linkSpec header comp ∧ spec.pos ≤ comp.pos ∧ comp.pos + comp.text.length ≤ stop) ∧
    (Mair.Compiler.extractAll linkSpec header fuel spec).Pairwise fun c d =>
      c.pos + c.text.length ≤ d.pos := by
  induction fuel generalizing spec with
  | zero => exact ⟨nofun, .nil⟩
  | succ fuel ih =>
      rw [Mair.Compiler.extractAll]
      cases hextract : Mair.Compiler.extract linkSpec spec header with
      | none => exact ⟨nofun, .nil⟩
      | some comp =>
          have hcomp := hregion.extract hne hextract
          obtain ⟨hrest, hpairwise⟩ :=
            ih (hregion.next (Nat.le_trans hcomp.2.1 (Nat.le_add_right _ comp.text.length)))
          constructor
          · intro c hc
            rcases List.mem_cons.mp hc with rfl | hc
            · exact hcomp
            · obtain ⟨hc, hpos, hstop⟩ := hrest c hc
              exact ⟨hc, Nat.le_trans (Nat.le_trans hcomp.2.1 (Nat.le_add_right _ _)) hpos, hstop⟩
          · exact List.pairwise_cons.mpr ⟨fun c hc => (hrest c hc).2.1, hpairwise⟩

/-- More rounds than there are characters are not needed. -/
theorem extractAll_fuel (hne : header ≠ []) {fuel more : ℕ} (hfuel : spec.text.length < fuel)
    (hmore : fuel ≤ more) :
    extractAll linkSpec header more spec = extractAll linkSpec header fuel spec := by
  induction fuel generalizing spec more with
  | zero => omega
  | succ fuel ih =>
      obtain ⟨more, rfl⟩ : ∃ k, more = k + 1 := ⟨more - 1, by omega⟩
      rw [extractAll, extractAll]
      cases hextract : extract linkSpec spec header with
      | none => rfl
      | some comp =>
          refine congrArg (comp :: ·) (ih ?_ (by omega))
          rw [extract] at hextract
          cases hfind : find header spec.text with
          | none =>
              rw [hfind] at hextract
              cases hextract
          | some pos =>
              rw [hfind] at hextract
              obtain ⟨n, -, rfl⟩ := Option.map_eq_some_iff.mp hextract
              have hbound := find_bound hfind hne
              have hpos := List.length_pos_of_ne_nil hne
              simp only [List.length_drop, List.length_take]
              omega

/-! ## The groups of the patcher -/

theorem region_whole : Region linkSpec header ⟨0, linkSpec⟩ linkSpec.length where
  text_eq := by rw [List.take_length, List.drop_zero]
  stop_le := Nat.le_refl _
  closing_le a m _ hbegins hle hclosing := by
    have hm := closing_le_length hclosing
    rw [List.length_drop] at hm
    omega

theorem closing_cons {c : Char} (hopen : ¬(c = '%' ∧ l.head? = some '\x7b')) (hclose : c ≠ '\x7d') :
    closing (depth + 1) (c :: l) = (closing (depth + 1) l).map (· + 1) := by
  cases l with
  | nil => simp [closing, hclose]
  | cons d inner =>
      rw [List.head?_cons, Option.some.injEq] at hopen
      rw [closing, if_neg hopen, if_neg hclose]

/-- Text without braces leaves the depth as it is. -/
theorem closing_plain (hbraces : ∀ c ∈ text, c ≠ '\x7b' ∧ c ≠ '\x7d')
    (hlast : ∀ c ∈ text.getLast?, c ≠ '%') :
    closing (depth + 1) (text ++ rest) = (closing (depth + 1) rest).map (· + text.length) := by
  induction text with
  | nil => simp
  | cons c text ih =>
      have hc := hbraces c List.mem_cons_self
      have hopen : ¬(c = '%' ∧ (text ++ rest).head? = some '\x7b') := by
        intro h
        cases text with
        | nil => exact hlast c (by simp) h.1
        | cons d text => exact (hbraces d (by simp)).1 (by simpa using h.2)
      have hlast' : ∀ d ∈ text.getLast?, d ≠ '%' := by
        intro d hd
        apply hlast
        cases text with
        | nil => cases hd
        | cons e text => simpa using hd
      rw [List.cons_append, closing_cons hopen hc.2,
        ih (fun d hd => hbraces d (List.mem_cons_of_mem c hd)) hlast', Option.map_map]
      rfl

theorem closing_sanitizerHeader (e : ℕ) (rest : CString) :
    closing (e + 1) (SanitizerComp.header ++ rest) =
      (closing (e + 2) rest).map (· + SanitizerComp.header.length) := by
  have hheader : SanitizerComp.header = '%' :: '\x7b' :: "%:sanitize(".toList := by decide
  rw [hheader, List.cons_append, List.cons_append, closing, if_pos ⟨rfl, rfl⟩,
    closing_plain (by simp) (by simp), Option.map_map]
  rfl

/-- No sanitizer group begins in the header of a group. -/
theorem not_prefix_sanitzerHeader (q : ℕ) (hq : q < SanitzerSpec.header.length) :
    ¬SanitizerComp.header <+: (SanitzerSpec.header ++ rest).drop q := by
  intro h
  obtain ⟨tail, htail⟩ := h
  have hchar : ∀ k < 3, (SanitzerSpec.header ++ rest)[q + k]? = SanitizerComp.header[k]? := by
    intro k hk
    have hlt : k < SanitizerComp.header.length := Nat.lt_trans hk (by decide)
    rw [← List.getElem?_drop, ← htail, List.getElem?_append_left hlt]
  have hnone : ∀ q < SanitzerSpec.header.length, ¬(SanitzerSpec.header[q]? = some '%' ∧
      (q + 2 < SanitzerSpec.header.length → SanitzerSpec.header[q + 2]? = some '%')) := by
    decide
  apply hnone q hq
  constructor
  · rw [← List.getElem?_append_left hq]
    exact hchar 0 (by decide)
  · intro hlt
    rw [← List.getElem?_append_left hlt]
    exact hchar 2 (by decide)

theorem Component.stop_le (h : Component linkSpec header comp) (hne : header ≠ []) :
    comp.pos + comp.text.length ≤ linkSpec.length := by
  have hpos := List.length_pos_of_ne_nil hne
  have hle := h.header_le
  have hlength := congrArg List.length h.text_eq
  rw [List.length_take, List.length_drop] at hlength
  omega

/-- The sanitizer groups that begin in a group end in it. -/
theorem Component.region (h : Component linkSpec SanitzerSpec.header comp) :
    Region linkSpec SanitizerComp.header comp (comp.pos + comp.text.length) where
  text_eq := by
    rw [List.drop_take, Nat.add_sub_cancel_left]
    exact h.text_eq
  stop_le := h.stop_le (by decide)
  closing_le a m ha hbegins hle hclosing := by
    have hheader : SanitizerComp.header.length = 13 := by decide
    have hafter : comp.pos + SanitzerSpec.header.length ≤ a := by
      by_contra hlt
      apply not_prefix_sanitzerHeader (a - comp.pos) (by omega)
      rw [← drop_eq_append h.prefix_drop, List.drop_drop, Nat.add_sub_cancel' ha]
      exact hbegins
    have hdrop : (linkSpec.drop (comp.pos + SanitzerSpec.header.length)).drop
        (a - (comp.pos + SanitzerSpec.header.length)) =
          SanitizerComp.header ++ linkSpec.drop (a + SanitizerComp.header.length) := by
      rw [List.drop_drop, Nat.add_sub_cancel' hafter]
      exact drop_eq_append hbegins
    obtain ⟨e, he⟩ := closing_drop h.closing_eq (by omega) hdrop
    rw [hdrop, closing_sanitizerHeader] at he
    obtain ⟨k, hk, hlength⟩ := Option.map_eq_some_iff.mp he
    obtain ⟨m', hm', hlower⟩ := closing_mono hk 1 (by omega)
    have hcount : SanitizerComp.header.count '\x7b' = 1 := by decide
    rw [hcount, hlower, Option.some.injEq] at hclosing
    omega

end Mair.Compiler
