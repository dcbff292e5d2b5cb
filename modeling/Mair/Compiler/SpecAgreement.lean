import Mair.Compiler.Rewrite
import Mair.Compiler.SpecBuilder
import Mair.Compiler.SpecScript

/-! # The script and the patcher

The script cuts out texts wherever they stand. The patcher cuts out two ranges. -/

namespace Mair.Compiler

open Search Replacement Blanks DumpGccSpec

/-! ## What is claimed -/

/-- The patcher finds the link command in the segments and writes the new one. -/
def Patched (mask : Mask) (roSec : List CString) (w new : CString) : Prop :=
  ∃ roSec' ro ro' i a u spec, w = u ++ spec ∧ roSec[i]? = some ro ∧ StringAt ro a w ∧
    findLinkCommandSpec roSec = .ok (some (i, a + u.length, spec)) ∧
      roStrPatcher mask roSec = .ok roSec' ∧ roSec'[i]? = some ro' ∧ StringAt ro' a new

/-- The same up to runs of white space. -/
def SameLine (l l' : CString) : Prop := collapse isSpace ' ' l = collapse isSpace ' ' l'

/-! ## When it holds -/

/-- The groups that the patcher removes, at their positions in the link command. -/
def delegatedGroups (mask : Mask) (w : CString) : List View :=
  match find linker w with
  | none => []
  | some p =>
      (chosenGroups (.ofString (w.drop p)) mask maskedSan).map fun view =>
        ⟨p + view.pos, view.text⟩

def cut (w : CString) (views : List View) : CString := replaced w 0 (views.map (·, []))

/-- When the turn of a component comes, its text stands in its place only. What is left of the
characters before `start` is `done`. -/
def OnceInTurn (w : CString) : CString → ℕ → List View → Prop
  | _, _, [] => True
  | done, start, view :: views =>
      let before := done ++ (w.drop start).take (view.pos - start)
      (∀ q, view.text <+: (done ++ w.drop start).drop q → q = before.length) ∧
        OnceInTurn w before (view.pos + view.text.length) views

structure RemovesTheSame (mask : Mask) (w : CString) : Prop where
  perm : (maskedComponents w).Perm (delegatedGroups mask w)
  once : OnceInTurn w [] 0 (maskedComponents w)
  idle : SecondPassIdle (cut w (maskedComponents w))
  before : ∀ p, rfind postLink w = some p → ∀ view ∈ maskedComponents w,
    view.pos + view.text.length ≤ p

/-- The script comes to the groups that the patcher removes, no sanitizer group is in one that the
script removes or behind the last `%(post_link)`, and the second pass has nothing to do. -/
structure PlainLayout (mask : Mask) (w : CString) : Prop where
  found : ∀ view ∈ delegatedGroups mask w, view ∈ maskedComponents w
  flat : ∀ view ∈ maskedComponents w, ∀ q, 0 < q → ¬sanitizerHeader <+: view.text.drop q
  idle : SecondPassIdle (removeMaskedComponents w)
  noLink : ∀ view ∈ maskedComponents w, ¬postLink <:+: view.text
  tail : ∀ p q, rfind postLink w = some p → p ≤ q → ¬sanitizerHeader <+: w.drop q

/-! ## Views one after the other -/

/-- The views are texts of the link command, from `start` on, one after the other. -/
structure Placed (w : CString) (start : ℕ) (views : List View) : Prop where
  text_begins : ∀ view ∈ views, view.text <+: w.drop view.pos
  nonempty : ∀ view ∈ views, view.text ≠ []
  start_le : ∀ view ∈ views, start ≤ view.pos
  ordered : views.Pairwise fun a b => a.pos + a.text.length ≤ b.pos

section Placed

variable {w done rest header : CString} {start : ℕ} {view : View} {views : List View}
  {p : Char → Bool}

theorem Placed.tail (h : Placed w start (view :: views)) :
    Placed w (view.pos + view.text.length) views where
  text_begins v hv := h.text_begins v (List.mem_cons_of_mem _ hv)
  nonempty v hv := h.nonempty v (List.mem_cons_of_mem _ hv)
  start_le := (List.pairwise_cons.mp h.ordered).1
  ordered := (List.pairwise_cons.mp h.ordered).2

theorem Placed.sublist {views' : List View} (h : Placed w start views)
    (hsub : views'.Sublist views) : Placed w start views' where
  text_begins v hv := h.text_begins v (hsub.subset hv)
  nonempty v hv := h.nonempty v (hsub.subset hv)
  start_le v hv := h.start_le v (hsub.subset hv)
  ordered := h.ordered.sublist hsub

theorem Placed.end_le (h : Placed w start views) (hv : view ∈ views) :
    view.pos + view.text.length ≤ w.length :=
  length_le_of_prefix_drop (h.text_begins view hv) (h.nonempty view hv)

theorem Placed.split (h : Placed w start (view :: views)) :
    w.drop start = (w.drop start).take (view.pos - start) ++
      (view.text ++ w.drop (view.pos + view.text.length)) := by
  have hstart := h.start_le view List.mem_cons_self
  have hdrop := drop_eq_append (h.text_begins view List.mem_cons_self)
  rw [← hdrop]
  nth_rewrite 1 [← List.take_append_drop (view.pos - start) (w.drop start)]
  rw [List.drop_drop, Nat.add_sub_cancel' hstart]

theorem Placed.length_gap (h : Placed w start (view :: views)) :
    ((w.drop start).take (view.pos - start)).length = view.pos - start := by
  have := h.end_le List.mem_cons_self
  rw [List.length_take, List.length_drop]
  omega

/-- The link command is its gaps and the views in turn. -/
theorem Placed.exists_pieces (h : Placed w start views) :
    ∃ pieces last, assemble pieces last = w.drop start ∧
      pieces.map Prod.snd = views.map View.text ∧
        gaps pieces last = replaced w start (views.map (·, [])) := by
  induction views generalizing start with
  | nil => exact ⟨[], w.drop start, rfl, rfl, rfl⟩
  | cons view views ih =>
      obtain ⟨pieces, last, hassemble, htokens, hgaps⟩ := ih h.tail
      refine ⟨((w.drop start).take (view.pos - start), view.text) :: pieces, last, ?_, ?_, ?_⟩
      · rw [assemble, hassemble]
        exact h.split.symm
      · rw [List.map_cons, List.map_cons, htokens]
      · rw [gaps, hgaps, List.map_cons, replaced, List.append_nil]

theorem Placed.countP_cut (h : Placed w 0 views) (p : Char → Bool) :
    w.countP p = (cut w views).countP p + (views.map View.text).flatten.countP p := by
  obtain ⟨pieces, last, hassemble, htokens, hgaps⟩ := h.exists_pieces
  rw [cut, ← hgaps, ← htokens, ← countP_assemble, hassemble, List.drop_zero]

/-- What follows the views stays. -/
theorem replaced_append {operations : List FrToPair} (hstart : start ≤ w.length)
    (hend : ∀ op ∈ operations, op.1.pos + op.1.text.length ≤ w.length) :
    replaced (w ++ rest) start operations = replaced w start operations ++ rest := by
  induction operations generalizing start with
  | nil => rw [replaced, replaced, List.drop_append_of_le_length hstart]
  | cons op operations ih =>
      obtain ⟨hop, hoperations⟩ := List.forall_mem_cons.mp hend
      have htake : ((w ++ rest).drop start).take (op.1.pos - start) =
          (w.drop start).take (op.1.pos - start) := by
        rw [List.drop_append_of_le_length hstart, List.take_append_of_le_length]
        rw [List.length_drop]
        omega
      rw [replaced, replaced, htake, ih hop hoperations, ← List.append_assoc]

/-- Where each text stands in its place only, removing the texts cuts out the views. -/
theorem removeAll_of_once (h : Placed w start views) (honce : OnceInTurn w done start views) :
    removeAll (views.map View.text) (done ++ w.drop start) =
      done ++ replaced w start (views.map (·, [])) := by
  induction views generalizing start done with
  | nil => rfl
  | cons view views ih =>
      obtain ⟨honly, honce⟩ := honce
      have hsplit : done ++ w.drop start = done ++ (w.drop start).take (view.pos - start) ++
          view.text ++ w.drop (view.pos + view.text.length) := by
        rw [List.append_assoc, List.append_assoc, ← h.split]
      have hstep : replaceAll view.text [] (done ++ w.drop start) =
          done ++ (w.drop start).take (view.pos - start) ++
            w.drop (view.pos + view.text.length) := by
        rw [hsplit] at honly ⊢
        rw [replaceAll_only (h.nonempty view List.mem_cons_self) honly, List.append_nil]
      rw [List.map_cons, removeAll, List.foldl_cons, hstep]
      refine (ih h.tail honce).trans ?_
      rw [List.map_cons, replaced, List.append_nil, List.append_assoc]

/-- Where the removal leaves as much as the cut, each text stood in its place only. -/
theorem once_of_countP {family : CString → Prop} (h : Placed w start views)
    (hfamily : Family header family) (hviews : ∀ view ∈ views, family view.text)
    (hdistinct : views.Pairwise fun a b => a.text ≠ b.text)
    (hpos : ∀ view ∈ views, 0 < view.text.countP p)
    (hle : (done ++ replaced w start (views.map (·, []))).countP p ≤
      (removeAll (views.map View.text) (done ++ w.drop start)).countP p) :
    OnceInTurn w done start views := by
  induction views generalizing start done with
  | nil => trivial
  | cons view views ih =>
      obtain ⟨hview, hviews'⟩ := List.forall_mem_cons.mp hviews
      obtain ⟨hcount, hpos'⟩ := List.forall_mem_cons.mp hpos
      obtain ⟨hother, hdistinct'⟩ := List.pairwise_cons.mp hdistinct
      have htoken := hfamily.token view.text hview
      have hne := htoken.ne_nil
      have hsame := fun l => hfamily.same view.text view.text l hview hview
      obtain ⟨pieces, last, hassemble, htokens, hgaps⟩ := h.tail.exists_pieces
      have hfam : ∀ t ∈ pieces.map Prod.snd, family t := by
        intro t ht
        rw [htokens] at ht
        obtain ⟨v, hv, rfl⟩ := List.mem_map.mp ht
        exact hviews' v hv
      have hkeep : (pieces.map Prod.snd).filter (· ≠ view.text) = pieces.map Prod.snd := by
        rw [List.filter_eq_self]
        intro t ht
        rw [htokens] at ht
        obtain ⟨v, hv, rfl⟩ := List.mem_map.mp ht
        simpa using (hother v hv).symm
      generalize hbefore : done ++ (w.drop start).take (view.pos - start) = before
      generalize hrest : w.drop (view.pos + view.text.length) = rest at hassemble
      have hsplit : done ++ w.drop start = before ++ (view.text ++ rest) := by
        rw [← hbefore, ← hrest, List.append_assoc, ← h.split]
      have hstep : replaceAll view.text [] (done ++ w.drop start) =
          replaceAll view.text [] before ++ replaceAll view.text [] rest := by
        rw [hsplit, htoken.replaceAll_append htoken hsame, if_pos rfl, List.nil_append]
      have hreplaced : done ++ replaced w start ((view :: views).map (·, [])) =
          before ++ gaps pieces last := by
        rw [List.map_cons, replaced, List.append_nil, ← hgaps, ← List.append_assoc, hbefore]
      have hle : (before ++ gaps pieces last).countP p ≤
          (removeAll (views.map View.text) (replaceAll view.text [] before ++
            replaceAll view.text [] rest)).countP p := by
        rw [hreplaced, List.map_cons, removeAll, List.foldl_cons, hstep] at hle
        exact hle
      obtain ⟨pieces', last', heq', htokens', hgaps'⟩ :=
        exists_replaceAll_assemble last hfamily hview hfam
      rw [hkeep] at htokens'
      rw [hassemble] at heq'
      obtain ⟨pieces'', last'', heq'', htokens'', hgaps''⟩ :=
        exists_append_assemble (replaceAll view.text [] before) pieces' last'
      have hfinal : (removeAll (views.map View.text) (replaceAll view.text [] before ++
          replaceAll view.text [] rest)).Sublist
            (replaceAll view.text [] before ++ gaps pieces' last') := by
        rw [heq', heq'', ← hgaps'']
        apply removeAll_sublist_gaps hfamily
        · intro t ht
          rw [← htokens] at ht
          exact hfam t ht
        · intro t ht
          rw [htokens'', htokens', htokens] at ht
          exact ht
      have hcountFinal := List.Sublist.countP_le (p := p) hfinal
      have hcountBefore := List.Sublist.countP_le (p := p)
        (@replaceAll_nil_sublist _ _ view.text before)
      have hcountGaps := List.Sublist.countP_le (p := p) hgaps'
      have hcountRest := countP_assemble p pieces last
      have hcountRest' := countP_assemble p pieces' last'
      rw [List.countP_append] at hle hcountFinal
      rw [hassemble] at hcountRest
      rw [← heq', htokens'] at hcountRest'
      have hnone : ∀ q, ¬view.text <+: before.drop q :=
        not_prefix_of_countP_le hne hcount (by omega)
      have hnoneRest : ∀ q, ¬view.text <+: rest.drop q :=
        not_prefix_of_countP_le hne hcount (by omega)
      rw [OnceInTurn, hbefore]
      constructor
      · intro q hq
        rw [hsplit] at hq
        rcases htoken.occurrence htoken hsame hq with hle | ⟨heq, -⟩ | hle
        · refine absurd ?_ (hnone q)
          rw [List.drop_append_of_le_length (by omega)] at hq
          refine List.prefix_of_prefix_length_le hq (List.prefix_append _ _) ?_
          rw [List.length_drop]
          omega
        · exact heq
        · obtain ⟨k, rfl⟩ := Nat.exists_eq_add_of_le hle
          refine absurd ?_ (hnoneRest k)
          rwa [Nat.add_assoc, ← List.drop_drop, List.drop_left, ← List.drop_drop,
            List.drop_left] at hq
      · refine ih h.tail hviews' hdistinct' hpos' ?_
        rw [← hgaps, hrest]
        rw [replaceAll_eq_self hnone, replaceAll_eq_self hnoneRest] at hle
        rw [List.countP_append]
        exact hle

theorem Placed.without_cut (h : Placed w 0 views) : Without (Covered views) 0 w (cut w views) := by
  have hinside : ∀ view ∈ views, Inside w view := fun view hv => ⟨h.nonempty view hv, h.end_le hv⟩
  have happlied : applied 0 (views.map (·, [])) = views.map (·, []) := by
    rw [applied_eq_self_iff]
    exact ⟨fun _ _ => Nat.zero_le _, List.pairwise_map.mpr h.ordered⟩
  have hsplice : NewLinkSpecBuilder.splice w 0 (views.map (·, [])) = cut w views := by
    rw [splice_eq_replaced, happlied, cut]
    intro op hop
    obtain ⟨view, hv, rfl⟩ := List.mem_map.mp hop
    exact Nat.le_trans (Nat.le_add_right _ _) (h.end_le hv)
  have hcut := without_splice views 0 h.ordered hinside (fun _ _ => Nat.zero_le _)
    (Nat.zero_le w.length)
  rwa [List.drop_zero, hsplice] at hcut

end Placed

/-! ## What the patcher writes -/

section Patched

variable {mask : Mask} {roSec : List CString} {ro w w' new spec : CString} {a a' k : ℕ}
  {san : SanitizerType} {c : SanitizerComp}

/-- A string does not begin in another one. -/
theorem StringAt.le_of_le (h : StringAt ro a w) (h' : StringAt ro a' w') (hle : a' ≤ a + w.length) :
    a' ≤ a := by
  by_contra hlt
  obtain ⟨after, hdrop⟩ := h.drop_eq
  obtain ⟨before, after', hsplit, hlength, hbefore⟩ := h'.split
  rcases hbefore with hnil | hlast
  · rw [hnil, List.length_nil] at hlength
    omega
  · have hget : ro[a' - 1]? = some nul := by
      rw [hsplit, List.append_assoc, List.getElem?_append_left (by omega), ← hlength,
        ← List.getLast?_eq_getElem?]
      exact hlast
    have hidx : a' - 1 = a + (a' - 1 - a) := by omega
    rw [hidx, ← List.getElem?_drop, hdrop, List.getElem?_append_left (by omega)] at hget
    exact h.nul_notMem (List.mem_of_getElem? hget)

theorem inFirstGroup_iff_covered :
    InFirstGroup mask w k ↔ Covered (delegatedGroups mask w) k := by
  constructor
  · intro h
    obtain ⟨p, r, hp, rfl, view, hview, hbeg, hend⟩ := h
    refine ⟨⟨p + view.pos, view.text⟩, ?_, by dsimp only; omega, by dsimp only; omega⟩
    rw [delegatedGroups, hp]
    exact List.mem_map.mpr ⟨view, hview, rfl⟩
  · intro h
    obtain ⟨view, hview, hbeg, hend⟩ := h
    rw [delegatedGroups] at hview
    split at hview
    · cases hview
    · next p hp =>
        obtain ⟨view, hmem, rfl⟩ := List.mem_map.mp hview
        dsimp only at hbeg hend
        exact ⟨p, k - p, hp, by omega, view, hmem, by omega, by omega⟩

/-- The new link command is the old one without the groups that the patcher removes. -/
theorem Patched.without (h : Patched mask roSec w new) :
    Without (Covered (delegatedGroups mask w)) 0 w new ∧ ∃ p, rfind postLink w = some p := by
  obtain ⟨roSec', ro, ro', i, a, u, spec, rfl, hro, hstring, hfind, hpatch, hro', hnew⟩ := h
  obtain ⟨newSpec, hcut, hresult⟩ := roStrPatcher_found hfind hpatch
  obtain ⟨ro₁, hro₁, hsegment⟩ := findLinkCommandSpec_some hfind
  rw [hro, Option.some_inj] at hro₁
  rw [← hro₁] at hsegment
  obtain ⟨u', a', hstring', hpos, hlinker, -, tail, -, hinOrder⟩ := findInSegment_some hsegment
  have ha : a = a' := by
    have hle := hstring.le_of_le hstring' (by rw [List.length_append]; omega)
    have hle' := hstring'.le_of_le hstring (by rw [List.length_append]; omega)
    omega
  have hu : u' = u := by
    rw [ha] at hstring
    exact (List.append_left_inj spec).mp (hstring'.unique hstring)
  rw [hu] at hlinker hinOrder
  obtain ⟨hstringNew, -, -⟩ := hstring.memcpyForcibly hcut.sublist
  have hnew_eq : new = u ++ newSpec := by
    obtain ⟨hi, -⟩ := List.getElem?_eq_some_iff.mp hro
    rw [hresult, modify_eq_set hro, List.getElem?_set_self hi, Option.some_inj] at hro'
    rw [← hro'] at hnew
    exact hnew.unique hstringNew
  constructor
  · rw [hnew_eq]
    exact (without_inFirstGroup hlinker hcut).congr fun _ _ _ => inFirstGroup_iff_covered
  · obtain ⟨x, rest, hx, y, rest', hy, z, rest'', hz, -⟩ := hinOrder
    have hsplit : u ++ spec =
        (x ++ linker ++ y ++ fltoFnoLto ++ z) ++ (postLink ++ rest'') := by
      rw [hx, hy, hz]
      simp only [List.append_assoc]
    have hlink : postLink <+: (u ++ spec).drop (x ++ linker ++ y ++ fltoFnoLto ++ z).length := by
      rw [hsplit, List.drop_left]
      exact List.prefix_append _ _
    exact exists_rfind hlink

theorem argument_of_get (h : (LinkSpec.ofString spec).rtSpec.getSanitizerComp san = some c)
    (hmasked : san = .asan ∨ san = .tsan) : argument san = some (SanitizerComp.name c.comp) := by
  have hsan := isType_of_get h
  rcases LinkSpec.rtSpec_ofString spec with hnone | ⟨group, -, hrt, -⟩
  · rw [hnone] at h
    cases h
  · rw [hrt] at h
    obtain ⟨comp, -, hclassify⟩ := List.mem_filterMap.mp (List.mem_of_find?_eq_some h)
    obtain ⟨rfl, hname⟩ := SanitizerComp.of_classify hclassify hsan hmasked
    exact hname

/-- The groups of two tools have different texts. -/
theorem delegatedGroups_distinct (mask : Mask) (w : CString) :
    (delegatedGroups mask w).Pairwise fun a b => a.text ≠ b.text := by
  rw [delegatedGroups]
  split
  · exact .nil
  · rw [List.pairwise_map, chosenGroups, maskedSan, List.pairwise_filterMap, List.pairwise_pair]
    intro a ha b hb
    split at ha
    case isFalse => cases ha
    case isTrue =>
      split at hb
      case isFalse => cases hb
      case isTrue =>
        obtain ⟨c, hc, rfl⟩ := Option.map_eq_some_iff.mp ha
        obtain ⟨d, hd, rfl⟩ := Option.map_eq_some_iff.mp hb
        have hasan := argument_of_get hc (.inl rfl)
        have htsan := argument_of_get hd (.inr rfl)
        intro htext
        rw [SanitizerComp.name, htext] at hasan
        rw [SanitizerComp.name] at htsan
        rw [← hasan] at htsan
        cases htsan

end Patched

/-! ## The two link commands -/

section Line

variable {mask : Mask} {roSec : List CString} {w new head tail y : CString} {p : ℕ}

theorem placed_masked (w : CString) : Placed w 0 (maskedComponents w) where
  text_begins _ hv := (isComponent_of_masked hv).text_begins
  nonempty view hv := by
    intro hnil
    have hheader := (isComponent_of_masked hv).enclosed.header_begins
    rw [hnil, List.prefix_nil] at hheader
    exact absurd hheader (by decide)
  start_le _ _ := Nat.zero_le _
  ordered := maskedComponents_pairwise w

theorem covered_congr {views views' : List View} (h : ∀ v, v ∈ views ↔ v ∈ views') (k : ℕ) :
    Covered views k ↔ Covered views' k := by
  rw [Covered, Covered]
  exact exists_congr fun v => and_congr_left fun _ => h v

theorem exists_link_split (hp : rfind postLink w = some p) :
    ∃ head tail, head.length = p ∧ w = head ++ (postLink ++ tail) := by
  obtain ⟨tail, htail⟩ := prefix_of_rfind hp
  refine ⟨w.take p, tail, ?_, ?_⟩
  · have hle := length_le_of_prefix_drop ⟨tail, htail⟩ (show postLink ≠ [] by decide)
    rw [List.length_take]
    omega
  · rw [htail, List.take_append_drop]

/-- Where the second pass is idle and the last `%(post_link)` and what follows it stay, the script
writes what the first pass leaves. -/
theorem sameLine_firstPass (hpos : rfind postLink w = some head.length)
    (hw : w = head ++ (postLink ++ tail)) (hidle : SecondPassIdle (removeMaskedComponents w))
    (hy : removeMaskedComponents w = y ++ (postLink ++ tail)) :
    SameLine (removeSanitizerComponents w) (removeMaskedComponents w) := by
  rw [SameLine, removeSanitizerComponents, cleanRuntimeSpecs_idle hidle, hy]
  exact collapse_restoreTail hpos hw

theorem RemovesTheSame.sameLine (h : RemovesTheSame mask w) (hpatched : Patched mask roSec w new) :
    SameLine (removeSanitizerComponents w) new := by
  obtain ⟨hwithout, p, hp⟩ := hpatched.without
  obtain ⟨head, tail, rfl, hw⟩ := exists_link_split hp
  have hplaced := placed_masked w
  have hcut : cut w (maskedComponents w) = new :=
    hplaced.without_cut.unique (hwithout.congr fun k _ _ =>
      (covered_congr (fun _ => h.perm.mem_iff) k).symm)
  have hfirst : removeMaskedComponents w = cut w (maskedComponents w) :=
    removeAll_of_once hplaced h.once
  have hhead : cut w (maskedComponents w) =
      replaced head 0 ((maskedComponents w).map (·, [])) ++ (postLink ++ tail) := by
    rw [cut]
    nth_rewrite 1 [hw]
    refine replaced_append (Nat.zero_le _) ?_
    intro op hop
    obtain ⟨view, hview, rfl⟩ := List.mem_map.mp hop
    exact h.before head.length hp view hview
  have hidle : SecondPassIdle (removeMaskedComponents w) := by
    rw [hfirst]
    exact h.idle
  have hsame := sameLine_firstPass hp hw hidle (hfirst.trans hhead)
  rw [hfirst, hcut] at hsame
  exact hsame

/-! ### The other direction -/

theorem nodup_masked (w : CString) : (maskedComponents w).Nodup := by
  have hplaced := placed_masked w
  refine hplaced.ordered.imp_of_mem ?_
  intro a b ha hb hle heq
  have hpos := List.length_pos_of_ne_nil (hplaced.nonempty a ha)
  rw [heq] at hle hpos
  omega

theorem PlainLayout.family (h : PlainLayout mask w) :
    Family sanitizerHeader fun t => ∃ view ∈ maskedComponents w, view.text = t where
  token t ht := by
    obtain ⟨view, hview, rfl⟩ := ht
    have henclosed := (isComponent_of_masked hview).enclosed
    exact ⟨henclosed.header_begins, h.flat view hview, '\x7d', henclosed.last, by decide⟩
  same t t' l ht ht' hbegins := by
    obtain ⟨view, hview, rfl⟩ := ht
    obtain ⟨view', hview', rfl⟩ := ht'
    have henclosed' := (isComponent_of_masked hview').enclosed
    exact (isComponent_of_masked hview).enclosed.same henclosed' hbegins

theorem PlainLayout.end_le (h : PlainLayout mask w) (hpos : rfind postLink w = some head.length)
    (hw : w = head ++ (postLink ++ tail)) {view : View} (hview : view ∈ maskedComponents w) :
    view.pos + view.text.length ≤ head.length := by
  have hcomponent := isComponent_of_masked hview
  have hheader := hcomponent.enclosed.header_begins.trans hcomponent.text_begins
  have hlt : view.pos < head.length := by
    by_contra hle
    exact h.tail _ _ hpos (Nat.not_lt.mp hle) hheader
  have hbegins := hcomponent.text_begins
  rw [hw] at hbegins
  exact not_crosses ⟨'\x7d', hcomponent.enclosed.last, by decide⟩ (h.noLink view hview) hlt hbegins

/-- The first pass leaves the last `%(post_link)` and what follows it. -/
theorem PlainLayout.firstPass_eq (h : PlainLayout mask w)
    (hpos : rfind postLink w = some head.length) (hw : w = head ++ (postLink ++ tail)) :
    ∃ y, removeMaskedComponents w = y ++ (postLink ++ tail) := by
  refine ⟨removeAll ((maskedComponents w).map View.text) head, ?_⟩
  rw [removeMaskedComponents]
  nth_rewrite 2 [hw]
  apply removeAll_barrier
  intro t ht
  obtain ⟨view, hview, rfl⟩ := List.mem_map.mp ht
  have hcomponent := isComponent_of_masked hview
  refine ⟨(placed_masked w).nonempty view hview, ⟨'\x7d', hcomponent.enclosed.last, by decide⟩,
    h.noLink view hview, ?_⟩
  intro q hq
  refine h.tail _ (head.length + q) hpos (Nat.le_add_right _ _) ?_
  rw [hw, ← List.drop_drop, List.drop_left]
  exact hcomponent.enclosed.header_begins.trans hq

def isNonspace (c : Char) : Bool := !isSpace c

theorem SameLine.countP_eq {l l' : CString} (h : SameLine l l') :
    l.countP isNonspace = l'.countP isNonspace := by
  have hspace : isSpace ' ' = true := by decide
  have hfilter := filter_collapse hspace l
  rw [h, filter_collapse hspace] at hfilter
  rw [List.countP_eq_length_filter, List.countP_eq_length_filter]
  exact congrArg List.length hfilter.symm

theorem countP_masked_pos {view : View} (hview : view ∈ maskedComponents w) :
    0 < view.text.countP isNonspace := by
  have hheader := (isComponent_of_masked hview).enclosed.header_begins
  have hle := List.Sublist.countP_le (p := isNonspace) hheader.sublist
  have hcount : sanitizerHeader.countP isNonspace = 13 := by decide
  omega

/-- Where the lines are the same, the script removes no other components. -/
theorem PlainLayout.perm (h : PlainLayout mask w)
    (hwithout : Without (Covered (delegatedGroups mask w)) 0 w new)
    (hcount : (removeMaskedComponents w).countP isNonspace = new.countP isNonspace) :
    (maskedComponents w).Perm (delegatedGroups mask w) := by
  have hplaced := placed_masked w
  generalize hchosen : (maskedComponents w).filter (· ∈ delegatedGroups mask w) = chosen
  generalize hothers : (maskedComponents w).filter (fun v => !decide (v ∈ delegatedGroups mask w)) =
    others
  have hsplit : (chosen ++ others).Perm (maskedComponents w) := by
    rw [← hchosen, ← hothers]
    exact List.filter_append_perm _ _
  have hmem : ∀ v, v ∈ chosen ↔ v ∈ delegatedGroups mask w := by
    intro v
    rw [← hchosen, List.mem_filter, decide_eq_true_eq]
    exact ⟨And.right, fun hv => ⟨h.found v hv, hv⟩⟩
  have hperm : chosen.Perm (delegatedGroups mask w) := by
    refine (List.perm_ext_iff_of_nodup ?_ ?_).mpr hmem
    · rw [← hchosen]
      exact (nodup_masked w).filter _
    · exact (delegatedGroups_distinct mask w).imp fun hne heq => hne (congrArg View.text heq)
  have hplacedChosen : Placed w 0 chosen := by
    rw [← hchosen]
    exact hplaced.sublist List.filter_sublist
  have hcut : cut w chosen = new :=
    hplacedChosen.without_cut.unique (hwithout.congr fun k _ _ => (covered_congr hmem k).symm)
  have hcountChosen := hplacedChosen.countP_cut isNonspace
  have hcountAll := hplaced.countP_cut isNonspace
  obtain ⟨pieces, last, hassemble, htokens, hgaps⟩ := hplaced.exists_pieces
  have hfirst : (removeMaskedComponents w).Sublist (cut w (maskedComponents w)) := by
    rw [List.drop_zero] at hassemble
    rw [removeMaskedComponents, cut, ← hgaps, ← htokens]
    nth_rewrite 1 [← hassemble]
    refine removeAll_sublist_gaps h.family ?_ fun _ ht => ht
    intro t ht
    rw [htokens] at ht
    exact List.mem_map.mp ht
  have hcountFirst := List.Sublist.countP_le (p := isNonspace) hfirst
  have hcountSplit := (hsplit.map View.text).flatten.countP_eq isNonspace
  rw [List.map_append, List.flatten_append, List.countP_append] at hcountSplit
  rw [hcut] at hcountChosen
  have hnone : others = [] := by
    cases others with
    | nil => rfl
    | cons view others =>
        exfalso
        have hview : view ∈ maskedComponents w :=
          hsplit.mem_iff.mp (List.mem_append_right _ List.mem_cons_self)
        have hpos := countP_masked_pos hview
        rw [List.map_cons, List.flatten_cons, List.countP_append] at hcountSplit
        omega
  rw [hnone, List.append_nil] at hsplit
  exact hsplit.symm.trans hperm

theorem PlainLayout.removesTheSame (h : PlainLayout mask w) (hpatched : Patched mask roSec w new)
    (hsame : SameLine (removeSanitizerComponents w) new) : RemovesTheSame mask w := by
  obtain ⟨hwithout, p, hp⟩ := hpatched.without
  obtain ⟨head, tail, rfl, hw⟩ := exists_link_split hp
  have hplaced := placed_masked w
  obtain ⟨y, hy⟩ := h.firstPass_eq hp hw
  have hcount : (removeMaskedComponents w).countP isNonspace = new.countP isNonspace :=
    SameLine.countP_eq ((sameLine_firstPass hp hw h.idle hy).symm.trans hsame)
  have hperm := h.perm hwithout hcount
  have hcut : cut w (maskedComponents w) = new :=
    hplaced.without_cut.unique (hwithout.congr fun k _ _ =>
      (covered_congr (fun _ => hperm.mem_iff) k).symm)
  have honce : OnceInTurn w [] 0 (maskedComponents w) := by
    refine once_of_countP (p := isNonspace) hplaced h.family (fun view hview => ⟨view, hview, rfl⟩)
      ?_ (fun view hview => countP_masked_pos hview) ?_
    · exact (hperm.pairwise_iff fun hne => Ne.symm hne).mpr (delegatedGroups_distinct mask w)
    · rw [List.nil_append, ← cut, hcut, ← hcount]
      exact Nat.le_refl _
  refine ⟨hperm, honce, ?_, ?_⟩
  · have hfirst : removeMaskedComponents w = cut w (maskedComponents w) :=
      removeAll_of_once hplaced honce
    rw [← hfirst]
    exact h.idle
  · intro p hp' view hview
    rw [hp, Option.some_inj] at hp'
    rw [← hp']
    exact h.end_le hp hw hview

end Line

/-! ## A dependency group -/

def runtimeGroup : CString :=
  SanitzerSpec.header ++
    "%\x7b%:sanitize(address):-lasan\x7d%\x7b%:sanitize(thread):-ltsan\x7d\x7d\x7d\x7d".toList

def dependencyGroup : CString :=
  SanitzerSpec.header ++ "%\x7b%:sanitize(address):%\x7blink_libasan\x7d\x7d\x7d\x7d\x7d".toList

def linkCommand (groups : CString) : CString :=
  linker ++ fltoFnoLto ++ groups ++ postLink ++ " \x7d".toList

/-- The runtime group without its two components. -/
def emptiedGroup : CString := SanitzerSpec.header ++ "\x7d\x7d\x7d".toList

theorem stringAt_begin {w rest : CString} (hnul : nul ∉ w) : StringAt (w ++ nul :: rest) 0 w :=
  ⟨⟨[], rest, rfl, rfl, .inl rfl⟩, hnul⟩

/-- A shorter link command is written over the old one and its terminator. -/
theorem patched_of_first {mask : Mask} {w new : CString} (hnul : nul ∉ w) (hnul' : nul ∉ new)
    (hfind : findLinkCommandSpec [w ++ [nul]] = .ok (some (0, 0, w)))
    (hpatch : roStrPatcher mask [w ++ [nul]] =
      .ok [new ++ nul :: (w ++ [nul]).drop (new.length + 1)]) :
    Patched mask [w ++ [nul]] w new :=
  ⟨_, w ++ [nul], _, 0, 0, [], w, rfl, rfl, stringAt_begin hnul, hfind, hpatch, rfl,
    stringAt_begin hnul'⟩

theorem patched_runtimeGroup :
    Patched (bit .asan ||| bit .tsan) [linkCommand runtimeGroup ++ [nul]]
      (linkCommand runtimeGroup) (linkCommand emptiedGroup) :=
  patched_of_first (by decide) (by decide) (by decide +kernel) (by decide +kernel)

theorem patched_dependencyGroup :
    Patched (bit .asan ||| bit .tsan) [linkCommand (runtimeGroup ++ dependencyGroup) ++ [nul]]
      (linkCommand (runtimeGroup ++ dependencyGroup))
      (linkCommand (emptiedGroup ++ dependencyGroup)) :=
  patched_of_first (by decide) (by decide) (by decide +kernel) (by decide +kernel)

theorem plainLayout_runtimeGroup :
    PlainLayout (bit .asan ||| bit .tsan) (linkCommand runtimeGroup) := by
  have hheaders : ∀ view ∈ maskedComponents (linkCommand runtimeGroup),
      rfind sanitizerHeader view.text = some 0 := by decide +kernel
  have hlast : rfind postLink (linkCommand runtimeGroup) = some 121 ∧
      rfind sanitizerHeader (linkCommand runtimeGroup) = some 90 := by decide +kernel
  have hne : sanitizerHeader ≠ [] := by decide
  refine ⟨by decide +kernel, ?_, ?_, by decide +kernel, ?_⟩
  · intro view hview q hq
    exact rfind_last hne (hheaders view hview) hq
  · rw [SecondPassIdle]
    decide +kernel
  · intro p q hp hq
    rw [hlast.1, Option.some_inj] at hp
    exact rfind_last hne hlast.2 (by omega)

end Mair.Compiler
