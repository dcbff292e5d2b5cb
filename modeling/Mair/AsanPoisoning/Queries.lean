import Mair.AsanPoisoning.Values
import Mair.AsanPoisoning.Verification

/-! # Queries about regions

The runtime is asked for the first poisoned byte of a region. Its fast check looks at the first
byte, at the last one and at the granules in between, but not at the rest of the first granule. -/

namespace Mair.AsanPoisoning

def memIsZero (s : Shadow) (chunk n : ℕ) : Bool := (List.range n).all fun k => s (chunk + k) == 0

/-- The first and the last byte are looked at, and the granules that lie in the region. -/
def passesFastCheck (s : Shadow) (beg stop : ℕ) : Bool :=
  let shadowBeg := roundUpTo beg 8 / 8
  let shadowEnd := roundDownTo stop 8 / 8
  !addressIsPoisoned s beg && !addressIsPoisoned s (stop - 1) &&
    (decide (shadowEnd ≤ shadowBeg) || memIsZero s shadowBeg (shadowEnd - shadowBeg))

/-- No result is the place that the source calls unreachable. -/
def asanRegionIsPoisoned (r : Runtime) (s : Shadow) (beg size : ℕ) : Option ℕ :=
  if size = 0 then some 0
  else
    let stop := beg + size
    if r.addrIsInMem beg = false then some beg
    else if r.addrIsInMem stop = false then some stop
    else if passesFastCheck s beg stop then some 0
    else findBadAddressFrom s false (stop - beg) beg

variable {r : Runtime} {s s' : Shadow} {beg size : ℕ}

/-! ## Answers -/

theorem findBadAddressFrom_eq_some {poisoned : Bool} {n i a : ℕ}
    (h : findBadAddressFrom s poisoned n i = some a) :
    (i ≤ a ∧ a < i + n) ∧ addressIsPoisoned s a ≠ poisoned ∧
      ∀ b, i ≤ b → b < a → addressIsPoisoned s b = poisoned := by
  induction n generalizing i with
  | zero => cases h
  | succ n ih =>
      rw [findBadAddressFrom] at h
      split_ifs at h with hbad
      · cases h
        exact ⟨⟨le_rfl, by omega⟩, hbad, fun b hb hb' => absurd hb (by omega)⟩
      · rw [not_not] at hbad
        obtain ⟨hrange, hother, hbefore⟩ := ih h
        refine ⟨⟨by omega, by omega⟩, hother, fun b hb hb' => ?_⟩
        rcases Nat.eq_or_lt_of_le hb with rfl | hlt
        · exact hbad
        · exact hbefore b hlt hb'

theorem memIsZero_iff {chunk n : ℕ} :
    memIsZero s chunk n = true ↔ ∀ i, chunk ≤ i → i < chunk + n → s i = 0 := by
  simp only [memIsZero, List.all_eq_true, List.mem_range, beq_iff_eq]
  constructor
  · intro h i hle hlt
    have hi := h (i - chunk) (by omega)
    rwa [show chunk + (i - chunk) = i by omega] at hi
  · exact fun h k hk => h (chunk + k) (by omega) (by omega)

/-- A granule is accessible to its end exactly when its shadow is zero. -/
theorem Proper.eq_zero_iff (h : Proper s) {i : ℕ} : s i = 0 ↔ i * 8 + 7 ∈ accessible s := by
  have hi := h i
  rw [mem_accessible, addressIsPoisoned_eq_false, count, show (i * 8 + 7) / 8 = i by omega]
  split_ifs <;> omega

theorem passesFastCheck_iff (h : Proper s) {stop : ℕ} :
    passesFastCheck s beg stop = true ↔ beg ∈ accessible s ∧ stop - 1 ∈ accessible s ∧
      ∀ a, roundUpTo beg 8 ≤ a → a < stop → a ∈ accessible s := by
  simp only [passesFastCheck, mem_accessible, Bool.and_eq_true, Bool.or_eq_true,
    Bool.not_eq_true', decide_eq_true_eq, memIsZero_iff, and_assoc, roundUpTo, roundDownTo]
  refine and_congr_right fun _ => and_congr_right fun hlast => ⟨fun hzero a ha hstop => ?_,
    fun hall => ?_⟩
  · by_cases hend : a / 8 = (stop - 1) / 8
    · exact closed_accessible a (stop - 1) hlast hend (by omega)
    · rcases hzero with hle | hzero
      · omega
      · have hi := h.eq_zero_iff.mp (hzero (a / 8) (by omega) (by omega))
        exact closed_accessible a (a / 8 * 8 + 7) hi (by omega) (by omega)
  · refine or_iff_not_imp_left.mpr fun hlong i hle hi => ?_
    exact h.eq_zero_iff.mpr (hall (i * 8 + 7) (by omega) (by omega))

/-- The documented answer: the first poisoned byte of the region, or zero when there is none. -/
def Answers (s : Shadow) (beg stop answer : ℕ) : Prop :=
  (answer = 0 ∧ ∀ a, beg ≤ a → a < stop → a ∈ accessible s) ∨
    ((beg ≤ answer ∧ answer < stop) ∧ answer ∉ accessible s ∧
      ∀ a, beg ≤ a → a < answer → a ∈ accessible s)

theorem answers_zero_iff {stop : ℕ} (hbeg : 0 < beg) :
    Answers s beg stop 0 ↔ ∀ a, beg ≤ a → a < stop → a ∈ accessible s := by
  constructor
  · intro h
    rcases h with h | h
    · exact h.2
    · omega
  · exact fun h => .inl ⟨rfl, h⟩

/-- The rest of the first granule, which the fast check does not look at. -/
def RestOfGranule (s : Shadow) (beg stop : ℕ) : Prop :=
  ∀ a, beg < a → a < stop → a / 8 = beg / 8 → a ∈ accessible s

theorem forall_accessible_iff {stop : ℕ} (hlt : beg < stop) :
    (∀ a, beg ≤ a → a < stop → a ∈ accessible s) ↔
      (beg ∈ accessible s ∧ stop - 1 ∈ accessible s ∧
        ∀ a, roundUpTo beg 8 ≤ a → a < stop → a ∈ accessible s) ∧ RestOfGranule s beg stop := by
  constructor
  · intro h
    exact ⟨⟨h beg le_rfl hlt, h (stop - 1) (by omega) (by omega),
      fun a ha => h a (by simp only [roundUpTo] at ha; omega)⟩, fun a ha ha' _ => h a ha.le ha'⟩
  · intro h a ha hstop
    obtain ⟨⟨hfirst, -, hothers⟩, hrest⟩ := h
    by_cases hquot : a / 8 = beg / 8
    · rcases Nat.eq_or_lt_of_le ha with rfl | hlt'
      · exact hfirst
      · exact hrest a hlt' hstop hquot
    · exact hothers a (by simp only [roundUpTo]; omega) hstop

/-- The query always comes to an answer. The answer is the documented one exactly when the region
does not pass the fast check with poisoned bytes in its first granule. -/
theorem asanRegionIsPoisoned_answers_iff (h : Proper s) (hsize : 0 < size) (hbeg : 0 < beg)
    (hmem : r.addrIsInMem beg = true) (hmem' : r.addrIsInMem (beg + size) = true) :
    ∃ answer, asanRegionIsPoisoned r s beg size = some answer ∧
      (Answers s beg (beg + size) answer ↔
        (passesFastCheck s beg (beg + size) = true → RestOfGranule s beg (beg + size))) := by
  have hlt : beg < beg + size := by omega
  have hfast : passesFastCheck s beg (beg + size) = true ↔ _ := passesFastCheck_iff h
  have hall := forall_accessible_iff (s := s) hlt
  rw [asanRegionIsPoisoned, if_neg (by omega)]
  simp only [hmem, hmem', Bool.true_eq_false, if_false]
  by_cases hpass : passesFastCheck s beg (beg + size) = true
  · rw [if_pos hpass]
    refine ⟨0, rfl, ?_⟩
    rw [answers_zero_iff hbeg, hall, ← hfast]
    exact ⟨fun hanswers _ => hanswers.2, fun hrest => ⟨hpass, hrest hpass⟩⟩
  · rw [if_neg hpass]
    cases hfind : findBadAddressFrom s false (beg + size - beg) beg with
    | none =>
        rw [findBadAddressFrom_eq_none] at hfind
        have hgood := hall.mp fun a ha ha' => hfind a ha (by omega)
        exact absurd (hfast.mpr hgood.1) hpass
    | some a =>
        obtain ⟨hrange, hpoisoned, hbefore⟩ := findBadAddressFrom_eq_some hfind
        refine ⟨a, rfl, iff_of_true (.inr ⟨⟨hrange.1, by omega⟩, hpoisoned, hbefore⟩) ?_⟩
        exact fun hpass' => absurd hpass' hpass

/-- After every run of requests the query comes to an answer. The answer is the documented one
exactly when the region does not pass the fast check with poisoned bytes in its first granule. -/
theorem queries_answered_iff (h : Proper s) {qs : List Request} (hrun : run r qs s = some s')
    (hsize : 0 < size) (hbeg : 0 < beg) (hmem : r.addrIsInMem beg = true)
    (hmem' : r.addrIsInMem (beg + size) = true) :
    ∃ answer, asanRegionIsPoisoned r s' beg size = some answer ∧
      (Answers s' beg (beg + size) answer ↔
        (passesFastCheck s' beg (beg + size) = true → RestOfGranule s' beg (beg + size))) :=
  asanRegionIsPoisoned_answers_iff (h.run qs s' hrun) hsize hbeg hmem hmem'

theorem queries_answered_iff_shrunk : ∃ s', run exampleRuntime exampleRequests (fun _ => 0) =
    some s' ∧ ∃ answer, asanRegionIsPoisoned exampleRuntime s' 17 15 = some answer ∧
      (Answers s' 17 (17 + 15) answer ↔
        (passesFastCheck s' 17 (17 + 15) = true → RestOfGranule s' 17 (17 + 15))) := by
  have hsome : (run exampleRuntime exampleRequests fun _ => 0).isSome = true := rfl
  obtain ⟨s', hrun⟩ := Option.isSome_iff_exists.mp hsome
  exact ⟨s', hrun, queries_answered_iff (fun _ => by decide) hrun (by decide) (by decide) rfl rfl⟩

/-- Byte 20 is poisoned and not found. -/
example : ((run exampleRuntime [.annotateContiguous 16 24 24 20] fun _ => 0).map fun s =>
    (asanRegionIsPoisoned exampleRuntime s 17 15, addressIsPoisoned s 20)) =
      some (some 0, true) := by decide

end Mair.AsanPoisoning
