import Mathlib.Data.List.Infix
import Mair.Library.Search

/-! # Replacing a pattern in a list

The occurrences of a pattern are replaced from left to right, none overlapping one before it. -/

namespace Mair.Replacement

open Search

variable {α : Type*} [DecidableEq α]

/-- The number says how many elements of a replaced occurrence are still passed over. -/
def replaceFrom (old new : List α) : ℕ → List α → List α
  | _, [] => []
  | skip + 1, _ :: l => replaceFrom old new skip l
  | 0, x :: l =>
      if old.isPrefixOf (x :: l) then new ++ replaceFrom old new (old.length - 1) l
      else x :: replaceFrom old new 0 l

/-- All occurrences of a pattern, which is not empty. -/
def replaceAll (old new l : List α) : List α := replaceFrom old new 0 l

variable {old new l u v a b : List α} {q : ℕ}

theorem replaceFrom_length (x l : List α) :
    replaceFrom old new x.length (x ++ l) = replaceFrom old new 0 l := by
  induction x with
  | nil => rfl
  | cons c x ih =>
      rw [List.length_cons, List.cons_append, replaceFrom]
      exact ih

theorem replaceAll_append_left (hne : old ≠ []) (l : List α) :
    replaceAll old new (old ++ l) = new ++ replaceAll old new l := by
  obtain ⟨c, x, rfl⟩ := List.exists_cons_of_ne_nil hne
  have hbegins : (c :: x).isPrefixOf (c :: (x ++ l)) = true :=
    List.isPrefixOf_iff_prefix.mpr ⟨l, rfl⟩
  rw [replaceAll, List.cons_append, replaceFrom, if_pos hbegins, List.length_cons,
    Nat.add_sub_cancel, replaceFrom_length, replaceAll]

theorem replaceFrom_append (hne : old ≠ []) {skip : ℕ} (hskip : skip ≤ u.length)
    (hborder : ∀ q, q < u.length → old <+: (u ++ v).drop q → q + old.length ≤ u.length) :
    replaceFrom old new skip (u ++ v) = replaceFrom old new skip u ++ replaceFrom old new 0 v := by
  have hlength := List.length_pos_of_ne_nil hne
  induction u generalizing skip with
  | nil =>
      cases Nat.le_zero.mp hskip
      rw [List.nil_append, replaceFrom, List.nil_append]
  | cons c u ih =>
      have hborder' : ∀ q, q < u.length → old <+: (u ++ v).drop q →
          q + old.length ≤ u.length := by
        intro q hq hbegins
        have hle := hborder (q + 1) (Nat.succ_lt_succ hq) hbegins
        rw [List.length_cons] at hle
        omega
      rw [List.length_cons] at hskip
      cases skip with
      | succ skip => exact ih (Nat.le_of_succ_le_succ hskip) hborder'
      | zero =>
          rw [List.cons_append, replaceFrom, replaceFrom]
          by_cases hbegins : old <+: c :: (u ++ v)
          · have hle := hborder 0 (Nat.succ_pos _) hbegins
            have hshort : old <+: c :: u :=
              List.prefix_of_prefix_length_le hbegins (List.prefix_append (c :: u) v) (by omega)
            rw [List.length_cons] at hle
            rw [if_pos (List.isPrefixOf_iff_prefix.mpr hbegins),
              if_pos (List.isPrefixOf_iff_prefix.mpr hshort), ih (by omega) hborder',
              List.append_assoc]
          · have hshort : ¬old <+: c :: u :=
              fun h => hbegins (h.trans (List.prefix_append (c :: u) v))
            rw [if_neg fun h => hbegins (List.isPrefixOf_iff_prefix.mp h),
              if_neg fun h => hshort (List.isPrefixOf_iff_prefix.mp h),
              ih (Nat.zero_le _) hborder', List.cons_append]

/-- Where no occurrence crosses the border, the two parts are replaced apart. -/
theorem replaceAll_append (hne : old ≠ [])
    (hborder : ∀ q, q < u.length → old <+: (u ++ v).drop q → q + old.length ≤ u.length) :
    replaceAll old new (u ++ v) = replaceAll old new u ++ replaceAll old new v :=
  replaceFrom_append hne (Nat.zero_le _) hborder

theorem replaceAll_eq_self (h : ∀ q, ¬old <+: l.drop q) : replaceAll old new l = l := by
  rw [replaceAll]
  induction l with
  | nil => rfl
  | cons c l ih =>
      have hbegins : ¬old.isPrefixOf (c :: l) = true :=
        fun hbegins => h 0 (List.isPrefixOf_iff_prefix.mp hbegins)
      rw [replaceFrom, if_neg hbegins, ih fun q => h (q + 1)]

omit [DecidableEq α] in
theorem prefix_drop_append (hq : old <+: u.drop q) (v : List α) : old <+: (u ++ v).drop q := by
  rw [List.drop_append]
  exact hq.trans (List.prefix_append _ _)

/-- An only occurrence is replaced. -/
theorem replaceAll_only (hne : old ≠ []) (h : ∀ q, old <+: (a ++ old ++ b).drop q → q = a.length) :
    replaceAll old new (a ++ old ++ b) = a ++ new ++ b := by
  have hpos := List.length_pos_of_ne_nil hne
  have hleft : ∀ q, ¬old <+: a.drop q := by
    intro q hq
    have heq := h q (by rw [List.append_assoc]; exact prefix_drop_append hq _)
    rw [heq, List.drop_length, List.prefix_nil] at hq
    exact hne hq
  have hright : ∀ q, ¬old <+: b.drop q := by
    intro q hq
    have heq := h (a.length + old.length + q) (by
      rw [← List.drop_drop, ← List.length_append, List.drop_left]
      exact hq)
    omega
  rw [List.append_assoc] at h ⊢
  rw [replaceAll_append hne, replaceAll_append_left hne, replaceAll_eq_self hleft,
    replaceAll_eq_self hright, List.append_assoc]
  intro q hq hbegins
  exact absurd (h q hbegins) (Nat.ne_of_lt hq)

theorem replaceFrom_self (hne : old ≠ []) {skip : ℕ} (l : List α) :
    replaceFrom old old skip l = l.drop skip := by
  induction l generalizing skip with
  | nil => rw [replaceFrom, List.drop_nil]
  | cons c l ih =>
      cases skip with
      | succ skip => exact ih
      | zero =>
          rw [replaceFrom, ih, ih, List.drop_zero, List.drop_zero]
          split
          · next hbegins =>
              obtain ⟨rest, hrest⟩ := List.isPrefixOf_iff_prefix.mp hbegins
              obtain ⟨d, x, rfl⟩ := List.exists_cons_of_ne_nil hne
              rw [← hrest, List.length_cons, Nat.add_sub_cancel, ← (List.cons.inj hrest).2]
              exact congrArg (d :: x ++ ·) List.drop_left
          · rfl

/-- What is replaced by itself stays. -/
theorem replaceAll_self (hne : old ≠ []) (l : List α) : replaceAll old old l = l :=
  replaceFrom_self hne l

/-! ## Removing -/

theorem replaceFrom_nil_sublist {skip : ℕ} (l : List α) :
    (replaceFrom old [] skip l).Sublist l := by
  induction l generalizing skip with
  | nil => exact .slnil
  | cons c l ih =>
      cases skip with
      | succ skip => exact ih.cons c
      | zero =>
          rw [replaceFrom]
          split
          · exact ih.cons c
          · exact ih.cons_cons c

theorem replaceAll_nil_sublist (l : List α) : (replaceAll old [] l).Sublist l :=
  replaceFrom_nil_sublist l

/-- Where the pattern occurs, at least its elements go. -/
theorem countP_replaceAll_add_le (p : α → Bool) (hne : old ≠ []) (hq : old <+: l.drop q) :
    (replaceAll old [] l).countP p + old.countP p ≤ l.countP p := by
  obtain ⟨k, -, hk⟩ := exists_find hq
  have hbegins := prefix_of_find hk
  obtain ⟨b, hb⟩ := hbegins
  have hsplit : l = l.take k ++ (old ++ b) := by rw [hb, List.take_append_drop]
  have hlength : (l.take k).length = k := by
    have := find_bound hk hne
    rw [List.length_take]
    omega
  have hborder : ∀ q, q < (l.take k).length → old <+: (l.take k ++ (old ++ b)).drop q →
      q + old.length ≤ (l.take k).length := by
    intro q hq hbegins
    rw [← hsplit] at hbegins
    exact absurd hbegins (find_first hk (by omega))
  have hrest := List.Sublist.countP_le (p := p) (@replaceAll_nil_sublist α _ old b)
  have htake := List.Sublist.countP_le (p := p) (@replaceAll_nil_sublist α _ old (l.take k))
  rw [hsplit, replaceAll_append hne hborder, replaceAll_append_left hne, List.nil_append,
    List.countP_append, List.countP_append, List.countP_append]
  omega

theorem not_prefix_of_countP_le {p : α → Bool} (hne : old ≠ []) (hold : 0 < old.countP p)
    (h : l.countP p ≤ (replaceAll old [] l).countP p) (q : ℕ) : ¬old <+: l.drop q := by
  intro hq
  have := countP_replaceAll_add_le p hne hq
  omega

def removeAll (tokens : List (List α)) (l : List α) : List α :=
  tokens.foldl (fun l token => replaceAll token [] l) l

omit [DecidableEq α] in
/-- A pattern that ends in a barrier and does not contain it does not reach into it. -/
theorem not_crosses {barrier rest : List α} (hlast : ∃ x ∈ old.getLast?, x ∉ barrier)
    (hnot : ¬barrier <:+: old) (hlt : q < u.length)
    (hq : old <+: (u ++ (barrier ++ rest)).drop q) : q + old.length ≤ u.length := by
  by_contra hover
  have hdrop := hq.drop (u.length - q)
  rw [List.drop_drop, Nat.add_sub_cancel' (Nat.le_of_lt hlt), List.drop_left] at hdrop
  rcases List.prefix_or_prefix_of_prefix (List.prefix_append barrier rest) hdrop with hin | hshort
  · exact hnot (hin.isInfix.trans (List.drop_suffix _ old).isInfix)
  · obtain ⟨x, hx, hfree⟩ := hlast
    apply hfree
    apply hshort.subset
    apply List.mem_of_getLast?
    rw [List.getLast?_drop, if_neg (by omega)]
    exact hx

/-- What is removed before a barrier leaves the barrier and the rest. -/
theorem removeAll_barrier {barrier rest : List α} (tokens : List (List α)) (u : List α)
    (htokens : ∀ t ∈ tokens, t ≠ [] ∧ (∃ x ∈ t.getLast?, x ∉ barrier) ∧ ¬barrier <:+: t ∧
      ∀ q, ¬t <+: (barrier ++ rest).drop q) :
    removeAll tokens (u ++ (barrier ++ rest)) = removeAll tokens u ++ (barrier ++ rest) := by
  induction tokens generalizing u with
  | nil => rfl
  | cons token tokens ih =>
      obtain ⟨⟨hne, hlast, hnot, hrest⟩, htokens⟩ := List.forall_mem_cons.mp htokens
      rw [removeAll, removeAll, List.foldl_cons, List.foldl_cons,
        replaceAll_append hne fun q hlt hq => not_crosses hlast hnot hlt hq,
        replaceAll_eq_self hrest]
      exact ih (replaceAll token [] u) htokens

/-! ## Tokens

A token begins with a mark that does not stand in it again, and ends with an element that the mark
does not have. -/

structure Token (mark token : List α) : Prop where
  mark_begins : mark <+: token
  once : ∀ q, 0 < q → ¬mark <+: token.drop q
  last : ∃ x ∈ token.getLast?, x ∉ mark

section Token

variable {mark token other : List α}

omit [DecidableEq α] in
theorem Token.ne_nil (h : Token mark token) : token ≠ [] := by
  intro hnil
  obtain ⟨x, hx, -⟩ := h.last
  rw [hnil] at hx
  cases hx

omit [DecidableEq α] in
/-- The end of a token does not begin a text that begins with the mark. -/
theorem Token.not_begins_drop (h : Token mark token) (hq : 0 < q) (hlt : q < token.length)
    (hl : mark <+: l) : ¬token.drop q <+: l := by
  intro hdrop
  rcases List.prefix_or_prefix_of_prefix hl hdrop with hmark | hshort
  · exact h.once q hq hmark
  · obtain ⟨x, hx, hnot⟩ := h.last
    apply hnot
    apply hshort.subset
    apply List.mem_of_getLast?
    rw [List.getLast?_drop, if_neg (Nat.not_le.mpr hlt)]
    exact hx

omit [DecidableEq α] in
/-- A token stands before another one, in its place, or behind it. -/
theorem Token.occurrence (h : Token mark token) (h' : Token mark other)
    (hsame : ∀ l, token <+: other ++ l → token = other)
    (hq : token <+: (u ++ (other ++ v)).drop q) :
    q + token.length ≤ u.length ∨ q = u.length ∧ token = other ∨ u.length + other.length ≤ q := by
  have hmark : mark <+: other ++ v := h'.mark_begins.trans (List.prefix_append _ _)
  rcases Nat.lt_trichotomy q u.length with hlt | heq | hlt
  · left
    by_contra hover
    refine h.not_begins_drop (q := u.length - q) (by omega) (by omega) hmark ?_
    have hdrop := hq.drop (u.length - q)
    rw [List.drop_drop, Nat.add_sub_cancel' (Nat.le_of_lt hlt), List.drop_left] at hdrop
    exact hdrop
  · right
    left
    rw [heq, List.drop_left] at hq
    exact ⟨heq, hsame v hq⟩
  · right
    right
    by_contra hover
    have hdrop : (u ++ (other ++ v)).drop q = other.drop (q - u.length) ++ v := by
      rw [List.drop_append, List.drop_eq_nil_of_le (Nat.le_of_lt hlt), List.nil_append,
        List.drop_append_of_le_length (by omega)]
    rw [hdrop] at hq
    exact h'.not_begins_drop (by omega) (by omega) (h.mark_begins.trans hq) (List.prefix_append _ v)

/-- Removing one token leaves the others whole. -/
theorem Token.replaceAll_append (h : Token mark token) (h' : Token mark other)
    (hsame : ∀ l, token <+: other ++ l → token = other) :
    replaceAll token [] (u ++ (other ++ v)) = replaceAll token [] u ++
      ((if token = other then [] else other) ++ replaceAll token [] v) := by
  have hpos := List.length_pos_of_ne_nil h.ne_nil
  rw [Replacement.replaceAll_append h.ne_nil, Replacement.replaceAll_append h.ne_nil]
  · congr 2
    by_cases heq : token = other
    · have hself := @replaceAll_append_left α _ token [] h.ne_nil []
      rw [List.append_nil] at hself
      rw [if_pos heq, ← heq, hself]
      rfl
    · rw [if_neg heq]
      apply replaceAll_eq_self
      intro q hq
      have hin : token <+: ([] ++ (other ++ [])).drop q := by
        rw [List.nil_append, List.append_nil]
        exact hq
      rcases h.occurrence h' hsame hin with hle | hq' | hle
      · rw [List.length_nil] at hle
        omega
      · exact heq hq'.2
      · rw [List.length_nil, Nat.zero_add] at hle
        rw [List.drop_eq_nil_of_le hle, List.prefix_nil] at hq
        exact h.ne_nil hq
  · intro q hq hbegins
    rcases h.occurrence (u := []) h' hsame hbegins with hle | ⟨hq', rfl⟩ | hle
    · rw [List.length_nil] at hle
      omega
    · rw [List.length_nil] at hq'
      omega
    · rw [List.length_nil, Nat.zero_add] at hle
      omega
  · intro q hq hbegins
    rcases h.occurrence h' hsame hbegins with hle | ⟨hq', -⟩ | hle
    · exact hle
    · omega
    · omega

end Token

/-! ## Texts with tokens in them -/

/-- Gaps and tokens in turn. -/
def assemble : List (List α × List α) → List α → List α
  | [], last => last
  | (gap, token) :: pieces, last => gap ++ (token ++ assemble pieces last)

/-- The gaps without the tokens. -/
def gaps : List (List α × List α) → List α → List α
  | [], last => last
  | (gap, _) :: pieces, last => gap ++ gaps pieces last

/-- Tokens with the same mark, none of which begins another one. -/
structure Family (mark : List α) (family : List α → Prop) : Prop where
  token : ∀ t, family t → Token mark t
  same : ∀ t t' l, family t → family t' → t <+: t' ++ l → t = t'

section Family

variable {mark token last : List α} {family : List α → Prop} {pieces : List (List α × List α)}
  {tokens : List (List α)}

omit [DecidableEq α] in
theorem exists_append_assemble (gap : List α) (pieces : List (List α × List α)) (last : List α) :
    ∃ pieces' last', gap ++ assemble pieces last = assemble pieces' last' ∧
      pieces'.map Prod.snd = pieces.map Prod.snd ∧
        gaps pieces' last' = gap ++ gaps pieces last := by
  cases pieces with
  | nil => exact ⟨[], gap ++ last, rfl, rfl, rfl⟩
  | cons piece pieces =>
      refine ⟨(gap ++ piece.1, piece.2) :: pieces, last, ?_, rfl, ?_⟩
      · rw [assemble, assemble, List.append_assoc]
      · rw [gaps, gaps, List.append_assoc]

omit [DecidableEq α] in
theorem countP_assemble (p : α → Bool) (pieces : List (List α × List α)) (last : List α) :
    (assemble pieces last).countP p =
      (gaps pieces last).countP p + (pieces.map Prod.snd).flatten.countP p := by
  induction pieces with
  | nil => rfl
  | cons piece pieces ih =>
      rw [assemble, gaps, List.map_cons, List.flatten_cons, List.countP_append, List.countP_append,
        List.countP_append, List.countP_append, ih]
      omega

/-- One removal takes the token away and leaves the other ones. -/
theorem exists_replaceAll_assemble (last : List α) (h : Family mark family) (htoken : family token)
    (hpieces : ∀ t ∈ pieces.map Prod.snd, family t) :
    ∃ pieces' last', replaceAll token [] (assemble pieces last) = assemble pieces' last' ∧
      pieces'.map Prod.snd = (pieces.map Prod.snd).filter (· ≠ token) ∧
        (gaps pieces' last').Sublist (gaps pieces last) := by
  induction pieces with
  | nil => exact ⟨[], replaceAll token [] last, rfl, rfl, replaceAll_nil_sublist last⟩
  | cons piece pieces ih =>
      obtain ⟨gap, other⟩ := piece
      obtain ⟨hother, hpieces⟩ := List.forall_mem_cons.mp hpieces
      obtain ⟨pieces', last', heq, htokens, hgaps⟩ := ih hpieces
      have hcut : replaceAll token [] (assemble ((gap, other) :: pieces) last) =
          replaceAll token [] gap ++
            ((if token = other then [] else other) ++ assemble pieces' last') := by
        rw [assemble, (h.token token htoken).replaceAll_append (h.token other hother)
          fun l => h.same token other l htoken hother, heq]
      have hsub : (replaceAll token [] gap ++ gaps pieces' last').Sublist
          (gap ++ gaps pieces last) := (replaceAll_nil_sublist gap).append hgaps
      rw [List.map_cons, List.filter_cons]
      by_cases hsame : token = other
      · rw [if_pos hsame, List.nil_append] at hcut
        obtain ⟨pieces'', last'', heq'', htokens'', hgaps''⟩ :=
          exists_append_assemble (replaceAll token [] gap) pieces' last'
        refine ⟨pieces'', last'', hcut.trans heq'', ?_, ?_⟩
        · rw [htokens'', htokens, if_neg (by simp [hsame])]
        · rw [hgaps'', gaps]
          exact hsub
      · rw [if_neg hsame] at hcut
        refine ⟨(replaceAll token [] gap, other) :: pieces', last', hcut, ?_, hsub⟩
        rw [List.map_cons, htokens, if_pos (by simpa using Ne.symm hsame)]

theorem exists_removeAll_assemble (last : List α) (h : Family mark family)
    (htokens : ∀ t ∈ tokens, family t)
    (hpieces : ∀ t ∈ pieces.map Prod.snd, family t) :
    ∃ pieces' last', removeAll tokens (assemble pieces last) = assemble pieces' last' ∧
      pieces'.map Prod.snd = (pieces.map Prod.snd).filter (· ∉ tokens) ∧
        (gaps pieces' last').Sublist (gaps pieces last) := by
  induction tokens generalizing pieces last with
  | nil => exact ⟨pieces, last, rfl, by simp, List.Sublist.refl _⟩
  | cons token tokens ih =>
      obtain ⟨htoken, htokens⟩ := List.forall_mem_cons.mp htokens
      obtain ⟨pieces₁, last₁, heq₁, htokens₁, hgaps₁⟩ :=
        exists_replaceAll_assemble last h htoken hpieces
      have hpieces₁ : ∀ t ∈ pieces₁.map Prod.snd, family t := by
        intro t ht
        rw [htokens₁] at ht
        exact hpieces t (List.mem_of_mem_filter ht)
      obtain ⟨pieces₂, last₂, heq₂, htokens₂, hgaps₂⟩ := ih last₁ htokens hpieces₁
      refine ⟨pieces₂, last₂, ?_, ?_, hgaps₂.trans hgaps₁⟩
      · rw [removeAll, List.foldl_cons, heq₁]
        exact heq₂
      · rw [htokens₂, htokens₁, List.filter_filter]
        refine List.filter_congr fun t _ => ?_
        simp [Bool.and_comm]

/-- Where all tokens of a text are removed, at most the gaps are left. -/
theorem removeAll_sublist_gaps (h : Family mark family) (htokens : ∀ t ∈ tokens, family t)
    (hpieces : ∀ t ∈ pieces.map Prod.snd, t ∈ tokens) :
    (removeAll tokens (assemble pieces last)).Sublist (gaps pieces last) := by
  obtain ⟨pieces', last', heq, hnone, hgaps⟩ :=
    exists_removeAll_assemble last h htokens fun t ht => htokens t (hpieces t ht)
  have hnil : pieces' = [] := by
    rw [← List.map_eq_nil_iff (f := Prod.snd), hnone, List.filter_eq_nil_iff]
    intro t ht
    simpa using hpieces t ht
  rw [hnil] at heq hgaps
  rw [heq]
  exact hgaps

end Family

end Mair.Replacement
