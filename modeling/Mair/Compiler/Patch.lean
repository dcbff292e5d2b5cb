import Mair.Compiler.Groups
import Mair.Compiler.SpecSearch
import Mathlib.Data.List.Pairwise

/-! # What the patcher removes -/

namespace Mair.Compiler

open Search

/-! ## The groups to remove -/

/-- The argument of the sanitizer groups that the patcher takes over. -/
def argument : SanitizerType → Option CString
  | .asan => some "address".toList
  | .tsan => some "thread".toList
  | _ => none

def RuntimeGroup (w : CString) (i j : ℕ) : Prop :=
  GroupAt SanitzerSpec.header w i j ∧ SanitzerSpec.rtSpecFeature <:+: (w.drop i).take (j - i)

def ToolGroup (san : SanitizerType) (w : CString) (i j : ℕ) : Prop :=
  GroupAt SanitizerComp.header w i j ∧
    ∃ arg, argument san = some arg ∧ SanitizerComp.header ++ arg ++ [')'] <+: w.drop i

/-- The position is in a group, for a tool of the mask, of a runtime-linking group. -/
def Delegated (mask : Mask) (w : CString) (k : ℕ) : Prop :=
  ∃ i j san i' j', RuntimeGroup w i j ∧ has mask san = true ∧ ToolGroup san w i' j' ∧ i ≤ i' ∧
    j' ≤ j ∧ i' ≤ k ∧ k < j'

variable {mask : Mask} {w u spec header arg : CString} {comp : View} {c d : SanitizerComp}
  {san : SanitizerType} {i j k : ℕ}

theorem drop_append_add (u spec : CString) (i : ℕ) :
    (u ++ spec).drop (u.length + i) = spec.drop i := by
  rw [← List.drop_drop, List.drop_left]

theorem GroupAt.append_left (h : GroupAt header spec i j) :
    GroupAt header (u ++ spec) (u.length + i) (u.length + j) := by
  obtain ⟨body, rest, hsplit, hcloses, rfl⟩ := h
  exact ⟨body, rest, by rw [drop_append_add, hsplit], hcloses, by omega⟩

theorem RuntimeGroup.append_left (h : RuntimeGroup spec i j) :
    RuntimeGroup (u ++ spec) (u.length + i) (u.length + j) := by
  refine ⟨h.1.append_left, ?_⟩
  rw [drop_append_add, Nat.add_sub_add_left]
  exact h.2

theorem ToolGroup.append_left (h : ToolGroup san spec i j) :
    ToolGroup san (u ++ spec) (u.length + i) (u.length + j) := by
  obtain ⟨hgroup, arg, harg, hbegins⟩ := h
  exact ⟨hgroup.append_left, arg, harg, by rwa [drop_append_add]⟩

theorem GroupAt.le_length (h : GroupAt header w i j) : j ≤ w.length ∨ j = i := by
  obtain ⟨body, rest, hsplit, -, rfl⟩ := h
  have hlength := congrArg List.length hsplit
  simp only [List.length_drop, List.length_append] at hlength
  omega

theorem Delegated.lt_length (h : Delegated mask w k) : k < w.length := by
  obtain ⟨i, j, san, i', j', -, -, hgroup, -, -, hk, hk'⟩ := h
  rcases hgroup.1.le_length with h | h
  · omega
  · omega

/-! ## The components are such groups -/

theorem Closes.mem_brace {depth : ℕ} {text : CString} (h : Closes (depth + 1) text) :
    '\x7d' ∈ text := by
  generalize hd : depth + 1 = d at h
  induction h generalizing depth with
  | done => cases hd
  | opening _ ih => exact List.mem_cons_of_mem _ (List.mem_cons_of_mem _ (ih rfl))
  | closing _ _ => exact List.mem_cons_self
  | plain _ _ _ ih => exact List.mem_cons_of_mem _ (ih rfl)

theorem SanitizerComp.comp_of_classify (h : SanitizerComp.classify comp = some c) :
    c.comp = comp := by
  obtain ⟨nameType, -, rfl⟩ := Option.map_eq_some_iff.mp h
  rfl

theorem SanitizerComp.of_classify (h : SanitizerComp.classify comp = some c)
    (hsan : c.isType san = true) (hmasked : san = .asan ∨ san = .tsan) :
    c.comp = comp ∧ argument san = some (SanitizerComp.name comp) := by
  obtain ⟨⟨name, kind⟩, hfind, rfl⟩ := Option.map_eq_some_iff.mp h
  have hname : SanitizerComp.name comp = name := by simpa using List.find?_some hfind
  have hmem := List.mem_of_find?_eq_some hfind
  refine ⟨rfl, ?_⟩
  rw [hname]
  simp only [sanitizerTypes, List.mem_cons, Prod.mk.injEq, List.not_mem_nil, or_false] at hmem
  rcases hmasked with rfl | rfl
  · have hkind : kind = .asan := of_decide_eq_true hsan
    simp [hkind] at hmem
    rw [hmem]
    rfl
  · have hkind : kind = .tsan := of_decide_eq_true hsan
    simp [hkind] at hmem
    rw [hmem]
    rfl

theorem not_mem_argument (harg : argument san = some arg) : '\x7d' ∉ arg := by
  cases san with
  | asan =>
      cases harg
      decide
  | tsan =>
      cases harg
      decide
  | sanNone => cases harg
  | msan => cases harg
  | ubsan => cases harg
  | xsan => cases harg

/-- A sanitizer component is a group of the tool that it is for. -/
theorem Component.toolGroup (h : Component spec SanitizerComp.header comp)
    (hname : argument san = some (SanitizerComp.name comp)) :
    ToolGroup san spec comp.pos (comp.pos + comp.text.length) := by
  refine ⟨h.groupAt, _, hname, ?_⟩
  obtain ⟨body, rest, hsplit, hlength, hcloses⟩ := closing_sound h.closing_eq
  have hle := h.header_le
  have hdrop : spec.drop comp.pos = SanitizerComp.header ++ body ++ rest := by
    rw [drop_eq_append h.prefix_drop, hsplit, List.append_assoc]
  have htext : comp.text = SanitizerComp.header ++ body := by
    rw [h.text_eq, hdrop, List.take_left']
    rw [List.length_append]
    omega
  have hbody : comp.text.drop SanitizerComp.header.length = body := by
    rw [htext, List.drop_left]
  rw [hdrop]
  rw [SanitizerComp.name, hbody] at hname ⊢
  have hsplitName := List.takeWhile_append_dropWhile (p := (· ≠ ')')) (l := body)
  cases hrest : body.dropWhile (· ≠ ')') with
  | nil =>
      rw [hrest, List.append_nil] at hsplitName
      rw [hsplitName] at hname
      exact absurd hcloses.mem_brace (not_mem_argument hname)
  | cons c tail =>
      have hhead := List.head?_dropWhile_not (· ≠ ')') body
      rw [hrest] at hhead
      have hc : c = ')' := by simpa using hhead
      rw [hrest, hc] at hsplitName
      generalize body.takeWhile (· ≠ ')') = name at hsplitName ⊢
      exact ⟨tail ++ rest, by simp [← hsplitName]⟩

/-! ## The components of the patcher -/

theorem LinkSpec.rtSpec_add (linkSpec : LinkSpec) (group : SanitzerSpec) :
    (linkSpec.add group).rtSpec = if group.isRtSpec then group else linkSpec.rtSpec := by
  rw [LinkSpec.add]
  split
  · rfl
  · split <;> rfl

theorem LinkSpec.rtSpec_foldl (groups : List SanitzerSpec) (init : LinkSpec) :
    (groups.foldl LinkSpec.add init).rtSpec = init.rtSpec ∨
      ∃ group ∈ groups, (groups.foldl LinkSpec.add init).rtSpec = group ∧
        group.isRtSpec = true := by
  induction groups generalizing init with
  | nil => exact .inl rfl
  | cons group groups ih =>
      rw [List.foldl_cons]
      rcases ih (init.add group) with hinit | ⟨group', hmem, hresult⟩
      · rw [hinit, rtSpec_add]
        by_cases hrt : group.isRtSpec = true
        · exact .inr ⟨group, List.mem_cons_self, if_pos hrt, hrt⟩
        · exact .inl (if_neg hrt)
      · exact .inr ⟨group', List.mem_cons_of_mem _ hmem, hresult⟩

theorem LinkSpec.rtSpec_ofString (spec : CString) :
    (LinkSpec.ofString spec).rtSpec = .none ∨
      ∃ comp, Component spec SanitzerSpec.header comp ∧
        (LinkSpec.ofString spec).rtSpec = .ofComp spec comp ∧
        (find SanitzerSpec.rtSpecFeature comp.text).isSome = true := by
  rcases rtSpec_foldl (SanitzerSpec.extract spec) ⟨.none, .none⟩ with hnone | hgroup
  · exact .inl hnone
  · obtain ⟨group, hmem, hresult, hrt⟩ := hgroup
    obtain ⟨comp, hcomp, rfl⟩ := List.mem_map.mp hmem
    refine .inr ⟨comp, ?_, hresult, ?_⟩
    · exact ((region_whole.extractAll (by decide) _).1 comp hcomp).1
    · by_contra hfind
      rw [SanitzerSpec.isRtSpec, SanitzerSpec.ofComp, if_neg hfind] at hrt
      split at hrt <;> cases hrt

/-- The components that the patcher removes are groups of their tools in one runtime-linking
group. -/
theorem getSanitizerComp_group (h : (LinkSpec.ofString spec).rtSpec.getSanitizerComp san = some c)
    (hmasked : san = .asan ∨ san = .tsan) :
    ∃ group : View, RuntimeGroup spec group.pos (group.pos + group.text.length) ∧
      ToolGroup san spec c.comp.pos (c.comp.pos + c.comp.text.length) ∧
      Component spec SanitizerComp.header c.comp ∧ group.pos ≤ c.comp.pos ∧
      c.comp.pos + c.comp.text.length ≤ group.pos + group.text.length := by
  rcases LinkSpec.rtSpec_ofString spec with hnone | ⟨group, hgroup, hrt, hfind⟩
  · rw [hnone] at h
    cases h
  · rw [hrt] at h
    have hsan := List.find?_some h
    obtain ⟨comp, hcomp, hclassify⟩ := List.mem_filterMap.mp (List.mem_of_find?_eq_some h)
    obtain ⟨hcomp, hbeg, hend⟩ := (hgroup.region.extractAll (by decide) _).1 comp hcomp
    obtain ⟨rfl, hname⟩ := SanitizerComp.of_classify hclassify hsan hmasked
    refine ⟨group, ⟨hgroup.groupAt, ?_⟩, hcomp.toolGroup hname, hcomp, hbeg, hend⟩
    obtain ⟨p, hp⟩ := Option.isSome_iff_exists.mp hfind
    rw [Nat.add_sub_cancel_left, ← hgroup.text_eq]
    exact (prefix_of_find hp).isInfix.trans (List.drop_suffix p _).isInfix

def Apart (a b : View) : Prop := a.pos + a.text.length ≤ b.pos ∨ b.pos + b.text.length ≤ a.pos

instance : Std.Symm Apart where
  symm _ _ h := h.symm

/-- The components of two tools do not overlap. -/
theorem getSanitizerComp_apart {san' : SanitizerType}
    (h : (LinkSpec.ofString spec).rtSpec.getSanitizerComp san = some c)
    (h' : (LinkSpec.ofString spec).rtSpec.getSanitizerComp san' = some d)
    (hne : c.type ≠ d.type) : Apart c.comp d.comp := by
  rcases LinkSpec.rtSpec_ofString spec with hnone | ⟨group, hgroup, hrt, -⟩
  · rw [hnone] at h
    cases h
  · rw [hrt] at h h'
    obtain ⟨comp, hcomp, hclassify⟩ := List.mem_filterMap.mp (List.mem_of_find?_eq_some h)
    obtain ⟨comp', hcomp', hclassify'⟩ := List.mem_filterMap.mp (List.mem_of_find?_eq_some h')
    have hpairwise := (hgroup.region.extractAll (by decide) (group.text.length + 1)).2
    have hapart := (hpairwise.imp (S := Apart) fun hle => Or.inl hle).forall hcomp hcomp'
    rw [SanitizerComp.comp_of_classify hclassify, SanitizerComp.comp_of_classify hclassify']
    apply hapart
    intro heq
    rw [heq, hclassify', Option.some.injEq] at hclassify
    exact hne (by rw [hclassify])

/-- What the patcher removes for each tool of the mask. -/
def chosenGroups (linkSpec : LinkSpec) (mask : Mask)
    (sans : List (SanitizerType × CString)) : List View :=
  sans.filterMap fun san =>
    if has mask san.1 then (linkSpec.rtSpec.getSanitizerComp san.1).map SanitizerComp.comp else none

theorem mem_maskedSan {san : SanitizerType × CString} (h : san ∈ maskedSan) :
    san.1 = .asan ∨ san.1 = .tsan := by
  simp only [maskedSan, List.mem_cons, List.not_mem_nil, or_false] at h
  rcases h with rfl | rfl
  · exact .inl rfl
  · exact .inr rfl

theorem mem_chosen {linkSpec : LinkSpec} {view : View}
    (h : view ∈ chosenGroups linkSpec mask maskedSan) :
    ∃ san c, (san = .asan ∨ san = .tsan) ∧ has mask san = true ∧
      linkSpec.rtSpec.getSanitizerComp san = some c ∧ c.comp = view := by
  obtain ⟨san, hsan, hview⟩ := List.mem_filterMap.mp h
  split at hview
  · next hmask =>
      obtain ⟨c, hc, hview⟩ := Option.map_eq_some_iff.mp hview
      exact ⟨san.1, c, mem_maskedSan hsan, hmask, hc, hview⟩
  · cases hview

theorem isType_of_get {linkSpec : LinkSpec}
    (h : linkSpec.rtSpec.getSanitizerComp san = some c) : c.isType san = true := by
  have hsan := List.find?_some h
  exact hsan

theorem chosen_pairwise (mask : Mask) :
    (chosenGroups (LinkSpec.ofString spec) mask maskedSan).Pairwise Apart := by
  rw [chosenGroups, maskedSan, List.pairwise_filterMap, List.pairwise_pair]
  intro a ha b hb
  split at ha
  case isFalse => cases ha
  case isTrue =>
    split at hb
    case isFalse => cases hb
    case isTrue =>
      obtain ⟨c, hc, rfl⟩ := Option.map_eq_some_iff.mp ha
      obtain ⟨d, hd, rfl⟩ := Option.map_eq_some_iff.mp hb
      have hasan : c.type = .asan := of_decide_eq_true (isType_of_get hc)
      have htsan : d.type = .tsan := of_decide_eq_true (isType_of_get hd)
      apply getSanitizerComp_apart hc hd
      rw [hasan, htsan]
      nofun

/-! ## The new link spec -/

/-- The positions that the views cover. -/
def Covered (views : List View) (k : ℕ) : Prop :=
  ∃ view ∈ views, view.pos ≤ k ∧ k < view.pos + view.text.length

/-- The views lie in the link spec and are not empty. -/
def Inside (spec : CString) (view : View) : Prop :=
  view.text ≠ [] ∧ view.pos + view.text.length ≤ spec.length

theorem inside_of_mem_chosen {view : View}
    (h : view ∈ chosenGroups (LinkSpec.ofString spec) mask maskedSan) : Inside spec view := by
  obtain ⟨san, c, hsan, -, hc, rfl⟩ := mem_chosen h
  obtain ⟨-, -, -, hcomp, -, -⟩ := getSanitizerComp_group hc hsan
  refine ⟨?_, hcomp.stop_le (by decide)⟩
  intro hnil
  have hle := hcomp.header_le
  rw [hnil] at hle
  exact absurd hle (by decide)

theorem remove_inside {builder : NewLinkSpecBuilder} {view : View}
    (h : Inside builder.linkSpec view) :
    builder.remove view = { builder with
      deltaSize := builder.deltaSize + (0 - view.text.length)
      operations := builder.operations ++ [(view, [])] } := by
  have hpos := List.length_pos_of_ne_nil h.1
  have hin : builder.inSpec view = true := by
    have := h.2
    rw [NewLinkSpecBuilder.inSpec, decide_eq_true_eq]
    omega
  rw [NewLinkSpecBuilder.remove, if_neg h.1, NewLinkSpecBuilder.replace, if_pos hin]
  rfl

theorem removeMasked_ok {linkSpec : LinkSpec} (sans : List (SanitizerType × CString))
    {builder builder' : NewLinkSpecBuilder}
    (hinside : ∀ view ∈ chosenGroups linkSpec mask sans, Inside builder.linkSpec view)
    (h : removeMasked linkSpec mask sans builder = .ok builder') :
    builder'.linkSpec = builder.linkSpec ∧ builder'.deltaSize ≤ builder.deltaSize ∧
      builder'.operations =
        builder.operations ++ (chosenGroups linkSpec mask sans).map (·, []) := by
  induction sans generalizing builder with
  | nil =>
      cases h
      exact ⟨rfl, Int.le_refl _, by simp [chosenGroups]⟩
  | cons san sans ih =>
      obtain ⟨san, name⟩ := san
      rw [removeMasked] at h
      by_cases hmask : has mask san = true
      · rw [if_pos hmask] at h
        cases hc : linkSpec.rtSpec.getSanitizerComp san with
        | none =>
            rw [hc] at h
            cases h
        | some c =>
            rw [hc] at h
            simp only at h
            have hchosen : chosenGroups linkSpec mask ((san, name) :: sans) =
                c.comp :: chosenGroups linkSpec mask sans := by
              simp [chosenGroups, hmask, hc]
            rw [hchosen] at hinside ⊢
            rw [remove_inside (hinside c.comp List.mem_cons_self)] at h
            obtain ⟨hspec, hdelta, hops⟩ :=
              ih (by exact fun view hview => hinside view (List.mem_cons_of_mem _ hview)) h
            refine ⟨hspec, ?_, ?_⟩
            · dsimp only at hdelta
              omega
            · rw [hops]
              simp
      · rw [if_neg hmask] at h
        have hchosen : chosenGroups linkSpec mask ((san, name) :: sans) =
            chosenGroups linkSpec mask sans := by
          simp [chosenGroups, hmask]
        rw [hchosen] at hinside ⊢
        exact ih hinside h

/-- Cutting out views one after the other. -/
theorem without_splice (views : List View) (last : ℕ)
    (hpairwise : views.Pairwise fun a b => a.pos + a.text.length ≤ b.pos)
    (hinside : ∀ view ∈ views, Inside spec view) (hlast : ∀ view ∈ views, last ≤ view.pos)
    (hle : last ≤ spec.length) :
    Without (Covered views) last (spec.drop last)
      (NewLinkSpecBuilder.splice spec last (views.map (·, []))) := by
  induction views generalizing last with
  | nil =>
      apply Without.refl
      intro k _ _ hk
      obtain ⟨view, hview, -⟩ := hk
      cases hview
  | cons view views ih =>
      obtain ⟨hafter, hpairwise⟩ := List.pairwise_cons.mp hpairwise
      have hbeg := hlast view List.mem_cons_self
      obtain ⟨-, hend⟩ := hinside view List.mem_cons_self
      have hrest := ih (view.pos + view.text.length) hpairwise
        (fun v hv => hinside v (List.mem_cons_of_mem _ hv)) hafter hend
      have hmore : ∀ k, Covered views k → Covered (view :: views) k := by
        intro k hk
        obtain ⟨v, hv, hk⟩ := hk
        exact ⟨v, List.mem_cons_of_mem _ hv, hk⟩
      have hview : (spec.drop view.pos).take view.text.length ++
          spec.drop (view.pos + view.text.length) = spec.drop view.pos := by
        rw [← List.drop_drop, List.take_append_drop]
      have hbefore : (spec.drop last).take (view.pos - last) ++ spec.drop view.pos =
          spec.drop last := by
        have hdrop : spec.drop view.pos = (spec.drop last).drop (view.pos - last) := by
          rw [List.drop_drop, Nat.add_sub_cancel' hbeg]
        rw [hdrop, List.take_append_drop]
      have hlength : last + ((spec.drop last).take (view.pos - last)).length = view.pos := by
        rw [List.length_take, List.length_drop]
        omega
      have hlength' : view.pos + ((spec.drop view.pos).take view.text.length).length =
          view.pos + view.text.length := by
        rw [List.length_take, List.length_drop]
        omega
      have hskip : ¬(view.pos < last ∨ spec.length < view.pos) := by omega
      rw [List.map_cons, NewLinkSpecBuilder.splice, if_neg hskip, List.append_nil]
      suffices hcut : Without (Covered (view :: views)) last
          ((spec.drop last).take (view.pos - last) ++
            ((spec.drop view.pos).take view.text.length ++
              spec.drop (view.pos + view.text.length)))
          ((spec.drop last).take (view.pos - last) ++
            NewLinkSpecBuilder.splice spec (view.pos + view.text.length) (views.map (·, []))) by
        rwa [hview, hbefore] at hcut
      apply Without.append
      · apply Without.refl
        intro k hk hlt hcovered
        rw [hlength] at hlt
        obtain ⟨v, hv, hle, -⟩ := hcovered
        rcases List.mem_cons.mp hv with rfl | hv
        · omega
        · have := hafter v hv
          omega
      · rw [hlength]
        apply Without.skip
        · intro k hk hlt
          rw [hlength'] at hlt
          exact ⟨view, List.mem_cons_self, hk, hlt⟩
        · rw [hlength']
          apply hrest.congr
          intro k hk _
          refine ⟨hmore k, ?_⟩
          intro hcovered
          obtain ⟨v, hv, hle, hlt⟩ := hcovered
          rcases List.mem_cons.mp hv with rfl | hv
          · omega
          · exact ⟨v, hv, hle, hlt⟩

def Before (a b : View) : Prop := a.pos ≤ b.pos

instance : DecidableRel Before := fun a b => Nat.decLe a.pos b.pos

instance : Std.Total Before where
  total a b := Nat.le_total a.pos b.pos

instance : IsTrans View Before where
  trans _ _ _ h h' := Nat.le_trans h h'

/-- The edits are made from left to right, whatever their order was. -/
theorem without_build {builder : NewLinkSpecBuilder} {views : List View} {newSpec : CString}
    (hops : builder.operations = views.map (·, [])) (hapart : views.Pairwise Apart)
    (hinside : ∀ view ∈ views, Inside builder.linkSpec view)
    (h : builder.build = .ok newSpec) :
    Without (Covered views) 0 builder.linkSpec newSpec := by
  have hmem : ∀ view, view ∈ views.insertionSort Before ↔ view ∈ views :=
    fun view => List.mem_insertionSort Before
  have hsorted : (views.insertionSort Before).Pairwise fun a b =>
      a.pos + a.text.length ≤ b.pos := by
    have happart' : (views.insertionSort Before).Pairwise Apart :=
      ((List.perm_insertionSort Before views).pairwise_iff fun h => Std.Symm.symm _ _ h).mpr hapart
    apply ((List.pairwise_insertionSort Before views).and happart').imp_of_mem
    intro a b ha hb hab
    obtain ⟨hpos, hle | hle⟩ := hab
    · exact hle
    · have := List.length_pos_of_ne_nil (hinside b ((hmem b).mp hb)).1
      have : a.pos ≤ b.pos := hpos
      omega
  rw [NewLinkSpecBuilder.build, NewLinkSpecBuilder.buildSorted] at h
  rcases ite_eq_iff.mp h with ⟨-, h⟩ | ⟨-, h⟩
  · cases h
  rcases ite_eq_iff.mp h with ⟨-, h⟩ | ⟨-, h⟩
  · cases h
  · cases h
    have hsort : builder.operations.insertionSort (fun a b => a.1.pos ≤ b.1.pos) =
        (views.insertionSort Before).map (·, []) := by
      rw [hops]
      exact (List.map_insertionSort Before (fun a b : View × CString => a.1.pos ≤ b.1.pos) (·, [])
        views fun _ _ _ _ => Iff.rfl).symm
    rw [hsort]
    have hcut := without_splice (views.insertionSort Before) 0 hsorted
      (fun view hview => hinside view ((hmem view).mp hview)) (fun _ _ => Nat.zero_le _)
      (Nat.zero_le builder.linkSpec.length)
    rw [List.drop_zero] at hcut
    apply hcut.congr
    intro k _ _
    simp only [Covered, hmem]

end Mair.Compiler
