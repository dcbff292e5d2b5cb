import Mair.Compiler.Patch

/-! # When the patcher rewrites the link spec as it should -/

namespace Mair.Compiler

open Search

variable {roSec roSec' : List CString} {ro w u spec newSpec src : CString} {mask : Mask}
  {i a p k pos : ℕ}

/-! ## Overwriting a string -/

theorem length_memcpyForcibly (h : pos + src.length ≤ ro.length) :
    (memcpyForcibly ro pos src).length = ro.length := by
  simp only [memcpyForcibly, List.length_append, List.length_take, List.length_drop]
  omega

theorem getElem?_memcpyForcibly_left (h : pos + src.length ≤ ro.length) (hk : k < pos) :
    (memcpyForcibly ro pos src)[k]? = ro[k]? := by
  have hlength : (ro.take pos).length = pos := by
    rw [List.length_take]
    omega
  rw [memcpyForcibly, List.append_assoc, List.getElem?_append_left (by omega),
    List.getElem?_take_of_lt hk]

theorem getElem?_memcpyForcibly_right (h : pos + src.length ≤ ro.length)
    (hk : pos + src.length ≤ k) : (memcpyForcibly ro pos src)[k]? = ro[k]? := by
  have hlength : (ro.take pos ++ src).length = pos + src.length := by
    rw [List.length_append, List.length_take]
    omega
  rw [memcpyForcibly, List.getElem?_append_right (by omega), hlength, List.getElem?_drop,
    Nat.add_sub_cancel' hk]

/-- A shorter end of a string and its terminator go over the old end. -/
theorem StringAt.memcpyForcibly (h : StringAt ro a (u ++ spec)) (hnew : newSpec.Sublist spec) :
    StringAt (memcpyForcibly ro (a + u.length) (newSpec ++ [nul])) a (u ++ newSpec) ∧
      (Mair.Compiler.memcpyForcibly ro (a + u.length) (newSpec ++ [nul])).length = ro.length ∧
      ∀ k, k < a ∨ a + (u ++ spec).length < k →
        (Mair.Compiler.memcpyForcibly ro (a + u.length) (newSpec ++ [nul]))[k]? = ro[k]? := by
  obtain ⟨⟨before, after, hsplit, hlength, hbefore⟩, hnul⟩ := h
  have hle := hnew.length_le
  have hro : ro.length = a + u.length + spec.length + 1 + after.length := by
    rw [hsplit]
    simp only [List.length_append, List.length_cons, hlength]
    omega
  have hfits : a + u.length + (newSpec ++ [nul]).length ≤ ro.length := by
    rw [List.length_append, List.length_singleton]
    omega
  refine ⟨⟨⟨before, ro.drop (a + u.length + (newSpec ++ [nul]).length), ?_, hlength, hbefore⟩, ?_⟩,
    length_memcpyForcibly hfits, ?_⟩
  · have htake : ro.take (a + u.length) = before ++ u := by
      rw [hsplit, ← hlength, ← List.length_append, List.append_assoc, List.append_assoc,
        ← List.append_assoc before u, List.take_left]
    rw [Mair.Compiler.memcpyForcibly, htake]
    simp [List.append_assoc]
  · intro hmem
    apply hnul
    rcases List.mem_append.mp hmem with hmem | hmem
    · exact List.mem_append_left _ hmem
    · exact List.mem_append_right _ (hnew.subset hmem)
  · intro k hk
    rcases hk with hk | hk
    · exact getElem?_memcpyForcibly_left hfits (by omega)
    · apply getElem?_memcpyForcibly_right hfits
      rw [List.length_append] at hk
      rw [List.length_append, List.length_singleton]
      omega

/-! ## The patch of a string that is found -/

theorem roStrPatcher_found (hfind : findLinkCommandSpec roSec = .ok (some (i, p, spec)))
    (h : roStrPatcher mask roSec = .ok roSec') :
    ∃ newSpec, Without (Covered (chosenGroups (.ofString spec) mask maskedSan)) 0 spec newSpec ∧
      roSec' = roSec.modify i fun ro => memcpyForcibly ro p (newSpec ++ [nul]) := by
  rw [roStrPatcher, hfind] at h
  simp only at h
  cases hremove : removeMasked (.ofString spec) mask maskedSan ⟨spec, [], 0⟩ with
  | error failure =>
      rw [hremove] at h
      cases h
  | ok builder =>
      rw [hremove] at h
      simp only at h
      cases hbuild : builder.build with
      | error failure =>
          rw [hbuild] at h
          cases h
      | ok newSpec =>
          rw [hbuild] at h
          cases h
          have hinside : ∀ view ∈ chosenGroups (.ofString spec) mask maskedSan, Inside spec view :=
            fun view hview => inside_of_mem_chosen hview
          obtain ⟨hspec, -, hops⟩ := removeMasked_ok maskedSan hinside hremove
          rw [List.nil_append] at hops
          have hspec : builder.linkSpec = spec := hspec
          have hinside' : ∀ view ∈ chosenGroups (.ofString spec) mask maskedSan,
              Inside builder.linkSpec view := by
            rw [hspec]
            exact hinside
          have hwithout := without_build hops (chosen_pairwise mask) hinside' hbuild
          rw [hspec] at hwithout
          exact ⟨newSpec, hwithout, rfl⟩

theorem delegated_of_covered (h : Covered (chosenGroups (.ofString spec) mask maskedSan) k) :
    Delegated mask (u ++ spec) (u.length + k) := by
  obtain ⟨view, hview, hbeg, hend⟩ := h
  obtain ⟨san, c, hsan, hmask, hc, rfl⟩ := mem_chosen hview
  obtain ⟨group, hgroup, htool, -, hin, hin'⟩ := getSanitizerComp_group hc hsan
  exact ⟨_, _, san, _, _, hgroup.append_left, hmask, htool.append_left, by omega, by omega,
    by omega, by omega⟩

/-! ## When the string is rewritten -/

/-- Only the string changes, and the new one is the old one without the groups to remove. -/
def Rewritten (mask : Mask) (roSec roSec' : List CString) (i a : ℕ) (w : CString) : Prop :=
  ∃ ro ro' new, roSec[i]? = some ro ∧ roSec' = roSec.set i ro' ∧ ro'.length = ro.length ∧
    (∀ k, k < a ∨ a + w.length < k → ro'[k]? = ro[k]?) ∧ StringAt ro' a new ∧
    Without (Delegated mask w) 0 w new

/-- The position is in the first group for a tool of the mask in the last runtime-linking group
after the first linker pattern. -/
def InFirstGroup (mask : Mask) (w : CString) (k : ℕ) : Prop :=
  ∃ p r, find linker w = some p ∧ k = p + r ∧
    Covered (chosenGroups (.ofString (w.drop p)) mask maskedSan) r

theorem inFirstGroup_iff (hlinker : find linker (u ++ spec) = some u.length) :
    InFirstGroup mask (u ++ spec) k ↔
      ∃ r, k = u.length + r ∧ Covered (chosenGroups (.ofString spec) mask maskedSan) r := by
  constructor
  · intro h
    obtain ⟨p, r, hp, hk, hr⟩ := h
    rw [hlinker, Option.some.injEq] at hp
    rw [← hp, List.drop_left] at hr
    exact ⟨r, by rw [hk, hp], hr⟩
  · intro h
    obtain ⟨r, hk, hr⟩ := h
    exact ⟨u.length, r, hlinker, hk, by rwa [List.drop_left]⟩

theorem without_inFirstGroup (hlinker : find linker (u ++ spec) = some u.length)
    (hnew : Without (Covered (chosenGroups (.ofString spec) mask maskedSan)) 0 spec newSpec) :
    Without (InFirstGroup mask (u ++ spec)) 0 (u ++ spec) (u ++ newSpec) := by
  apply Without.append
  · apply Without.refl
    intro k _ hk hin
    obtain ⟨r, rfl, -⟩ := (inFirstGroup_iff hlinker).mp hin
    omega
  · have hshift := hnew.shift u.length
    rw [Nat.add_zero] at hshift
    rw [Nat.zero_add]
    exact hshift.congr fun k _ _ => (inFirstGroup_iff hlinker).symm

/-- There is nothing to remove, or no string before this one in its segment has the linker
pattern, the last pattern does not end the string, and what is to be removed is in the first
groups. -/
def Recognised (mask : Mask) (roSec : List CString) (i a : ℕ) (w : CString) : Prop :=
  (∀ k, ¬Delegated mask w k) ∨
    (∀ ro, roSec[i]? = some ro → ∀ q < a, ¬linker <+: ro.drop q) ∧
      (∃ tail, tail ≠ [] ∧ InOrder patterns w tail) ∧
        ∀ k, Delegated mask w k → InFirstGroup mask w k

theorem set_eq_self (hro : roSec[i]? = some ro) : roSec.set i ro = roSec := by
  obtain ⟨hi, rfl⟩ := List.getElem?_eq_some_iff.mp hro
  exact List.set_getElem_self hi

theorem modify_eq_set (hro : roSec[i]? = some ro) (f : CString → CString) :
    roSec.modify i f = roSec.set i (f ro) := by
  rw [List.modify_eq_set_getElem?, hro]
  rfl

/-- Without a string found nothing changes. -/
theorem rewritten_self_iff (hw : SpecAt roSec i a w) :
    Rewritten mask roSec roSec i a w ↔ ∀ k, ¬Delegated mask w k := by
  obtain ⟨ro, hro, hstring, -⟩ := hw
  have hself : Without (fun _ => False) 0 w w := Without.refl w fun _ _ _ => id
  constructor
  · intro h k hk
    obtain ⟨ro₁, ro', new, hro₁, hset, -, -, hnew, hwithout⟩ := h
    have hro' : ro' = ro := by
      obtain ⟨hi, -⟩ := List.getElem?_eq_some_iff.mp hro
      have hget := congrArg (·[i]?) hset
      simp only [List.getElem?_set_self hi, hro, Option.some.injEq] at hget
      exact hget.symm
    rw [hro'] at hnew
    rw [hnew.unique hstring] at hwithout
    exact hwithout.subset hself (fun _ => False.elim) (Nat.zero_le k)
      (by rw [Nat.zero_add]; exact hk.lt_length) hk
  · intro h
    exact ⟨ro, ro, w, hro, (set_eq_self hro).symm, rfl, fun _ _ => rfl, hstring,
      Without.refl w fun k _ _ => h k⟩

/-- A string found is rewritten if everything to remove is in the first groups. -/
theorem rewritten_found_iff (hro : roSec[i]? = some ro) (hstring : StringAt ro a (u ++ spec))
    (hlinker : find linker (u ++ spec) = some u.length)
    (hnew : Without (Covered (chosenGroups (.ofString spec) mask maskedSan)) 0 spec newSpec) :
    Rewritten mask roSec (roSec.modify i fun ro => memcpyForcibly ro (a + u.length)
      (newSpec ++ [nul])) i a (u ++ spec) ↔
        ∀ k, Delegated mask (u ++ spec) k → InFirstGroup mask (u ++ spec) k := by
  have hsub : ∀ k, InFirstGroup mask (u ++ spec) k → Delegated mask (u ++ spec) k := by
    intro k hk
    obtain ⟨r, rfl, hr⟩ := (inFirstGroup_iff hlinker).mp hk
    exact delegated_of_covered hr
  have hcut := without_inFirstGroup hlinker hnew
  obtain ⟨hnewString, hlength, hsame⟩ := hstring.memcpyForcibly hnew.sublist
  obtain ⟨hi, -⟩ := List.getElem?_eq_some_iff.mp hro
  rw [modify_eq_set hro]
  constructor
  · intro h k hk
    obtain ⟨ro₁, ro', new, hro₁, hset, -, -, hnew', hwithout⟩ := h
    have hro' : memcpyForcibly ro (a + u.length) (newSpec ++ [nul]) = ro' := by
      have hget := congrArg (·[i]?) hset
      simpa only [List.getElem?_set_self hi, Option.some.injEq] using hget
    rw [hro'] at hnewString
    rw [hnew'.unique hnewString] at hwithout
    exact hwithout.subset hcut hsub (Nat.zero_le k) (by rw [Nat.zero_add]; exact hk.lt_length) hk
  · intro h
    refine ⟨ro, _, u ++ newSpec, hro, rfl, hlength, hsame, hnewString, ?_⟩
    exact hcut.congr fun k _ _ => ⟨hsub k, h k⟩

/-- A runtime-linking group for the address sanitizer. -/
def smallGroup : CString :=
  SanitzerSpec.header ++ "%\x7b%:sanitize(address):-lasan\x7d\x7d\x7d\x7d".toList

def smallSpec (tail : CString) : CString := linker ++ fltoFnoLto ++ smallGroup ++ postLink ++ tail

theorem inOrder_smallSpec (tail : CString) : InOrder patterns (smallSpec tail) tail := by
  refine ⟨[], fltoFnoLto ++ smallGroup ++ postLink ++ tail, ?_, [], smallGroup ++ postLink ++ tail,
    ?_, smallGroup, tail, rfl, List.suffix_refl tail⟩
  · simp [smallSpec, List.append_assoc]
  · simp [List.append_assoc]

/-- A segment with one string has one string. -/
theorem StringAt.of_single (hnul : nul ∉ w) {w' : CString} (h : StringAt (w ++ [nul]) a w') :
    a = 0 := by
  obtain ⟨before, after, hsplit, hlength, hbefore⟩ := h.split
  rcases hbefore with hnil | hlast
  · rw [← hlength, hnil]
    rfl
  · have hmem : nul ∈ before := List.mem_of_getLast? hlast
    have hcount := congrArg (List.count nul) hsplit
    have hpos := List.count_pos_iff.mpr hmem
    simp only [List.count_append, List.count_cons_self, List.count_nil,
      List.count_eq_zero_of_not_mem hnul] at hcount
    omega

end Mair.Compiler
