import Mathlib.Data.Set.Basic
import Mathlib.Order.Interval.Set.Defs
import Mathlib.Order.MinMax

/-! # Sets of bytes that are prefixes of granules

Memory is cut into granules of `g` bytes and only sets of bytes that are a prefix in each granule
can be written down, by the length of the prefix. Other sets are filled up. -/

namespace Mair.Granules

variable {g : ℕ} {A B : Set ℕ} {k : ℕ → ℕ} {a b l r i : ℕ}

def Closed (g : ℕ) (A : Set ℕ) : Prop := ∀ a b, b ∈ A → a / g = b / g → a ≤ b → a ∈ A

/-- Every byte before a byte of the set in the same granule. -/
def fill (g : ℕ) (A : Set ℕ) : Set ℕ := {a | ∃ b ∈ A, a / g = b / g ∧ a ≤ b}

theorem subset_fill : A ⊆ fill g A := fun a ha => ⟨a, ha, rfl, le_rfl⟩

theorem fill_mono (h : A ⊆ B) : fill g A ⊆ fill g B := by
  intro a ha
  obtain ⟨b, hb, hab⟩ := ha
  exact ⟨b, h hb, hab⟩

theorem closed_fill : Closed g (fill g A) := by
  intro a b hb hab hle
  obtain ⟨c, hc, hbc, hle'⟩ := hb
  exact ⟨c, hc, hab.trans hbc, hle.trans hle'⟩

/-- The filled set is the least one that can be written down. -/
theorem fill_subset (hB : Closed g B) (h : A ⊆ B) : fill g A ⊆ B := by
  intro a ha
  obtain ⟨b, hb, hab, hle⟩ := ha
  exact hB a b (h hb) hab hle

theorem fill_union : fill g (A ∪ B) = fill g A ∪ fill g B := by
  ext a
  constructor
  · intro ha
    obtain ⟨b, hb | hb, hab⟩ := ha
    · exact .inl ⟨b, hb, hab⟩
    · exact .inr ⟨b, hb, hab⟩
  · intro ha
    rcases ha with ha | ha
    · exact fill_mono Set.subset_union_left ha
    · exact fill_mono Set.subset_union_right ha

theorem Closed.fill_eq (h : Closed g A) : fill g A = A :=
  Set.Subset.antisymm (fill_subset h fun _ ha => ha) subset_fill

theorem fill_fill_union : fill g (fill g A ∪ B) = fill g (A ∪ B) := by
  rw [fill_union, fill_union, closed_fill.fill_eq]

theorem mem_fill_Ico : a ∈ fill g (Set.Ico l r) ↔ l < r ∧ l / g * g ≤ a ∧ a < r := by
  constructor
  · intro ha
    obtain ⟨b, hb, hquot, hle⟩ := ha
    have hmul := Nat.mul_le_mul_right g (Nat.div_le_div_right (c := g) hb.1)
    have hdiv := Nat.div_mul_le_self a g
    rw [hquot] at hdiv
    exact ⟨hb.1.trans_lt hb.2, hmul.trans hdiv, hle.trans_lt hb.2⟩
  · intro ha
    obtain ⟨hlr, hla, har⟩ := ha
    rcases Nat.le_total l a with hle | hle
    · exact subset_fill ⟨hle, har⟩
    · refine ⟨l, ⟨le_rfl, hlr⟩, ?_, hle⟩
      rcases Nat.eq_zero_or_pos g with rfl | hg
      · rw [Nat.div_zero, Nat.div_zero]
      · exact Nat.le_antisymm (Nat.div_le_div_right hle) ((Nat.le_div_iff_mul_le hg).mpr hla)

/-- The bytes that cannot be taken away share a granule with the byte after the interval. -/
theorem Closed.mem_fill_diff_Ico (h : Closed g A) :
    a ∈ fill g (A \ Set.Ico l r) ↔
      a ∈ A ∧ (a ∈ Set.Ico l r → a / g = r / g ∧ r ∈ A) := by
  constructor
  · intro ha
    obtain ⟨b, hb, hquot, hle⟩ := ha
    refine ⟨h a b hb.1 hquot hle, fun hmem => ?_⟩
    have hafter : r ≤ b := by
      by_contra hlt
      exact hb.2 ⟨hmem.1.trans hle, Nat.not_le.mp hlt⟩
    have hlow : a / g ≤ r / g := Nat.div_le_div_right hmem.2.le
    have hhigh : r / g ≤ b / g := Nat.div_le_div_right hafter
    have hsame : a / g = r / g := by omega
    exact ⟨hsame, h r b hb.1 (by omega) hafter⟩
  · intro ha
    obtain ⟨hmem, hshared⟩ := ha
    by_cases hin : a ∈ Set.Ico l r
    · obtain ⟨hsame, hr⟩ := hshared hin
      exact ⟨r, ⟨hr, fun hmem => Nat.lt_irrefl r hmem.2⟩, hsame, hin.2.le⟩
    · exact subset_fill ⟨hmem, hin⟩

theorem Closed.mem_fill_union_Ico (h : Closed g A) :
    a ∈ fill g (A ∪ Set.Ico l r) ↔ a ∈ A ∨ l < r ∧ l / g * g ≤ a ∧ a < r := by
  rw [fill_union, h.fill_eq, Set.mem_union, mem_fill_Ico]

/-! ## Lengths of prefixes -/

/-- The set with prefixes of these lengths. -/
def within (g : ℕ) (k : ℕ → ℕ) : Set ℕ := {a | a % g < k (a / g)}

/-- The part of granule `i` that lies before `l`. -/
def before (g l i : ℕ) : ℕ := min g (l - i * g)

/-- Bytes are taken away from each granule where the rest is a prefix. -/
def remove (g l r : ℕ) (k : ℕ → ℕ) : ℕ → ℕ := fun i =>
  if before g r i < k i then k i else min (k i) (before g l i)

/-- The prefix of granule `i` that ends with the last byte of the interval. -/
def reach (g l r i : ℕ) : ℕ := if before g l i < before g r i then before g r i else 0

/-- Bytes are added, with those before them. -/
def add (g l r : ℕ) (k : ℕ → ℕ) : ℕ → ℕ := fun i => max (k i) (reach g l r i)

theorem mem_within : a ∈ within g k ↔ a % g < k (a / g) := Iff.rfl

theorem closed_within : Closed g (within g k) := by
  intro a b hb hab hle
  have ha := Nat.div_add_mod a g
  have hb' := Nat.div_add_mod b g
  rw [mem_within] at hb ⊢
  rw [hab] at ha ⊢
  omega

theorem lt_iff_before (hg : 0 < g) : a < l ↔ a % g < before g l (a / g) := by
  have hdiv := Nat.div_add_mod a g
  have hlt := Nat.mod_lt a hg
  rw [Nat.mul_comm] at hdiv
  rw [before]
  omega

theorem before_le : before g l i ≤ g := Nat.min_le_left _ _

theorem before_of_lt (h : i < l / g) : before g l i = g := by
  have hmul := Nat.mul_le_of_le_div g (i + 1) l h
  rw [Nat.add_mul, Nat.one_mul] at hmul
  rw [before]
  omega

theorem before_div (hg : 0 < g) : before g l (l / g) = l % g := by
  have hdiv := Nat.div_add_mod l g
  have hlt := Nat.mod_lt l hg
  rw [Nat.mul_comm] at hdiv
  rw [before]
  omega

theorem before_of_gt (hg : 0 < g) (h : l / g < i) : before g l i = 0 := by
  have hmul := (Nat.div_lt_iff_lt_mul hg).mp h
  rw [before]
  omega

theorem mem_Ico_iff_before (hg : 0 < g) :
    a ∈ Set.Ico l r ↔ before g l (a / g) ≤ a % g ∧ a % g < before g r (a / g) := by
  rw [Set.mem_Ico, lt_iff_before hg, ← Nat.not_lt, lt_iff_before hg, Nat.not_lt]

theorem within_subset_within (hg : 0 < g) {k' : ℕ → ℕ} (hk : ∀ i, k i ≤ g) :
    within g k ⊆ within g k' ↔ ∀ i, k i ≤ k' i := by
  constructor
  · intro h i
    rcases Nat.eq_zero_or_pos (k i) with hzero | hpos
    · rw [hzero]
      exact Nat.zero_le _
    · have hlt : k i - 1 < g := by
        have hle := hk i
        omega
      have hquot : (k i - 1 + g * i) / g = i := by
        rw [Nat.add_mul_div_left _ _ hg, Nat.div_eq_of_lt hlt, Nat.zero_add]
      have hrem : (k i - 1 + g * i) % g = k i - 1 := by
        rw [Nat.add_mul_mod_self_left, Nat.mod_eq_of_lt hlt]
      have hlast : k i - 1 + g * i ∈ within g k := by
        rw [mem_within, hquot, hrem]
        omega
      have hmem := h hlast
      rw [mem_within, hquot, hrem] at hmem
      omega
  · intro h a ha
    exact (mem_within.mp ha).trans_le (h _)

/-- Two sets of prefixes with the same bytes have the same lengths. -/
theorem within_injective (hg : 0 < g) {k' : ℕ → ℕ} (hk : ∀ i, k i ≤ g) (hk' : ∀ i, k' i ≤ g)
    (h : within g k = within g k') : k = k' := by
  funext i
  exact Nat.le_antisymm ((within_subset_within hg hk).mp h.le i)
    ((within_subset_within hg hk').mp h.ge i)

/-- The byte at offset `o` of the granule of `a`. -/
theorem mem_fill_iff {P : ℕ → ℕ → Prop} (hg : 0 < g) (hA : ∀ b, b ∈ A ↔ P (b / g) (b % g)) :
    a ∈ fill g A ↔ ∃ o, a % g ≤ o ∧ o < g ∧ P (a / g) o := by
  have hdiv := Nat.div_add_mod a g
  constructor
  · intro ha
    obtain ⟨b, hb, hab, hle⟩ := ha
    have hdiv' := Nat.div_add_mod b g
    rw [hab] at hdiv ⊢
    exact ⟨b % g, by omega, Nat.mod_lt b hg, (hA b).mp hb⟩
  · intro ha
    obtain ⟨o, hle, ho, hP⟩ := ha
    have hquot : (o + g * (a / g)) / g = a / g := by
      rw [Nat.add_mul_div_left _ _ hg, Nat.div_eq_of_lt ho, Nat.zero_add]
    refine ⟨o + g * (a / g), (hA _).mpr ?_, hquot.symm, by omega⟩
    rwa [hquot, Nat.add_mul_mod_self_left, Nat.mod_eq_of_lt ho]

theorem within_remove (hg : 0 < g) (hk : ∀ i, k i ≤ g) :
    within g (remove g l r k) = fill g (within g k \ Set.Ico l r) := by
  ext a
  rw [mem_fill_iff hg (A := within g k \ Set.Ico l r)
    (P := fun i o => o < k i ∧ ¬ (before g l i ≤ o ∧ o < before g r i)) fun b => by
      rw [Set.mem_sdiff, mem_within, mem_Ico_iff_before hg]]
  rw [mem_within, remove]
  have hlt := Nat.mod_lt a hg
  have hle := hk (a / g)
  generalize a / g = i at *
  generalize hlow : before g l i = low
  generalize hhigh : before g r i = high
  have hhigh' : high ≤ g := hhigh ▸ before_le
  constructor
  · intro ha
    split at ha
    · exact ⟨k i - 1, by omega, by omega, by omega, by omega⟩
    · exact ⟨a % g, le_rfl, hlt, by omega, by omega⟩
  · intro ha
    obtain ⟨o, hao, ho, hok, hnot⟩ := ha
    split <;> omega

theorem within_add (hg : 0 < g) (hk : ∀ i, k i ≤ g) :
    within g (add g l r k) = fill g (within g k ∪ Set.Ico l r) := by
  ext a
  rw [mem_fill_iff hg (A := within g k ∪ Set.Ico l r)
    (P := fun i o => o < k i ∨ (before g l i ≤ o ∧ o < before g r i)) fun b => by
      rw [Set.mem_union, mem_within, mem_Ico_iff_before hg]]
  rw [mem_within, add, reach]
  have hlt := Nat.mod_lt a hg
  have hle := hk (a / g)
  generalize a / g = i at *
  generalize hlow : before g l i = low
  generalize hhigh : before g r i = high
  have hhigh' : high ≤ g := hhigh ▸ before_le
  constructor
  · intro ha
    rcases Nat.lt_or_ge (a % g) (k i) with hak | hak
    · exact ⟨a % g, le_rfl, hlt, .inl hak⟩
    · split at ha
      · exact ⟨high - 1, by omega, by omega, by omega⟩
      · omega
  · intro ha
    obtain ⟨o, hao, ho, hok⟩ := ha
    split <;> omega

theorem remove_self : remove g l l k = k := by
  funext i
  rw [remove]
  split <;> omega

theorem reach_self : reach g l l i = 0 := if_neg (Nat.lt_irrefl _)

theorem add_self : add g l l k = k := by
  funext i
  rw [add, reach_self, Nat.max_zero]

theorem fill_Ico (hg : 0 < g) : fill g (Set.Ico l r) = within g (reach g l r) := by
  have h := within_add (l := l) (r := r) (k := fun _ => 0) hg fun _ => Nat.zero_le g
  have hempty : within g (fun _ => 0) = ∅ := by
    ext a
    simp [mem_within]
  have hadd : add g l r (fun _ => 0) = reach g l r := funext fun i => Nat.zero_max _
  rw [hempty, Set.empty_union, hadd] at h
  exact h.symm

theorem remove_le (hk : ∀ i, k i ≤ g) (i : ℕ) : remove g l r k i ≤ g := by
  have hle := hk i
  rw [remove]
  split <;> omega

theorem reach_le : reach g l r i ≤ g := by
  rw [reach]
  split
  · exact before_le
  · exact Nat.zero_le g

theorem add_le (hk : ∀ i, k i ≤ g) (i : ℕ) : add g l r k i ≤ g := Nat.max_le.mpr ⟨hk i, reach_le⟩

/-- `u` is the length of the shortest prefix of granule `i` with the bytes of the set in it. -/
structure Least (g : ℕ) (A : Set ℕ) (i u : ℕ) : Prop where
  le : u ≤ g
  last : 0 < u → ∃ a ∈ A, a / g = i ∧ a % g + 1 = u
  lt : ∀ a ∈ A, a / g = i → a % g < u

theorem within_of_least {k' : ℕ → ℕ}
    (h : ∀ i, ∃ u, Least g A i u ∧ k' i = max (k i) u) :
    within g k' = fill g (within g k ∪ A) := by
  rw [fill_union, closed_within.fill_eq]
  ext a
  obtain ⟨u, hu, hk'⟩ := h (a / g)
  rw [mem_within, hk', lt_max_iff, Set.mem_union, mem_within]
  refine or_congr Iff.rfl ⟨fun ha => ?_, fun ha => ?_⟩
  · obtain ⟨b, hb, hquot, hrem⟩ := hu.last (Nat.zero_lt_of_lt ha)
    refine ⟨b, hb, hquot.symm, ?_⟩
    rw [← Nat.div_add_mod a g, ← Nat.div_add_mod b g, hquot]
    omega
  · obtain ⟨b, hb, hquot, hle⟩ := ha
    have hlt := hu.lt b hb hquot.symm
    have hdiv := Nat.div_add_mod a g
    have hdiv' := Nat.div_add_mod b g
    rw [← hquot] at hdiv'
    omega

/-! ## Granule by granule -/

theorem before_lt_iff (hg : 0 < g) : before g l i < g ↔ l / g ≤ i := by
  have hmod := Nat.mod_lt l hg
  rcases Nat.lt_trichotomy i (l / g) with hi | rfl | hi
  · rw [before_of_lt hi]
    omega
  · rw [before_div hg]
    omega
  · rw [before_of_gt hg hi]
    omega

theorem reach_eq (hg : 0 < g) : reach g l r i =
    if l / g ≤ i ∧ i < r / g then g else if i = r / g ∧ l < r then r % g else 0 := by
  have hdiv := Nat.div_add_mod l g
  have hdiv' := Nat.div_add_mod r g
  have hmod := Nat.mod_lt r hg
  have hiff := before_lt_iff hg (l := l) (i := i)
  rw [reach]
  rcases Nat.lt_trichotomy i (r / g) with hi | rfl | hi
  · rw [before_of_lt hi]
    split_ifs <;> omega
  · rw [before_div hg] at *
    rcases Nat.lt_trichotomy (l / g) (r / g) with hl | hl | hl
    · have hlr := Nat.lt_of_div_lt_div hl
      rw [before_of_gt hg hl]
      generalize l / g = a, r / g = b at *
      split_ifs <;> omega
    · rw [← hl, before_div hg]
      rw [← hl] at hdiv'
      generalize l / g = a at *
      split_ifs <;> omega
    · have hlr := Nat.lt_of_div_lt_div hl
      rw [before_of_lt hl]
      generalize l / g = a, r / g = b at *
      split_ifs <;> omega
  · rw [before_of_gt hg hi]
    split_ifs <;> omega

theorem reach_congr {l' r' : ℕ} (hl : before g l i = before g l' i)
    (hr : before g r i = before g r' i) : reach g l r i = reach g l' r' i := by
  rw [reach, reach, hl, hr]

/-- Cutting an interval at the start of a granule empties it there and after it. -/
theorem reach_min_of_le {m : ℕ} (h : m ≤ i) : reach g (min (m * g) l) (min (m * g) r) i = 0 := by
  have hmul := Nat.mul_le_mul_right g h
  have hzero (a : ℕ) : before g (min (m * g) a) i = 0 := by
    rw [before]
    omega
  rw [reach, hzero, hzero, if_neg (Nat.lt_irrefl 0)]

theorem reach_min_of_lt {m : ℕ} (h : i < m) :
    reach g (min (m * g) l) (min (m * g) r) i = reach g l r i := by
  have hmul := Nat.mul_le_mul_right g (Nat.succ_le_of_lt h)
  rw [Nat.succ_mul] at hmul
  have hsame (a : ℕ) : before g (min (m * g) a) i = before g a i := by
    rw [before, before]
    omega
  exact reach_congr (hsame l) (hsame r)

/-- Cutting an interval at the end of a granule empties it there and before it. -/
theorem reach_max_of_lt {m : ℕ} (h : i < m) : reach g (max (m * g) l) (max (m * g) r) i = 0 := by
  have hmul := Nat.mul_le_mul_right g (Nat.succ_le_of_lt h)
  rw [Nat.succ_mul] at hmul
  have hfull (a : ℕ) : before g (max (m * g) a) i = g := by
    rw [before]
    omega
  rw [reach, hfull, hfull, if_neg (Nat.lt_irrefl g)]

theorem reach_max_of_le {m : ℕ} (h : m ≤ i) :
    reach g (max (m * g) l) (max (m * g) r) i = reach g l r i := by
  have hmul := Nat.mul_le_mul_right g h
  have hsame (a : ℕ) : before g (max (m * g) a) i = before g a i := by
    rw [before, before]
    omega
  exact reach_congr (hsame l) (hsame r)

theorem eq_remove (hg : 0 < g) {c : ℕ → ℕ} (hk : ∀ i, k i ≤ g) (hlr : l / g ≤ r / g)
    (hout : ∀ i, i < l / g ∨ r / g < i → c i = k i)
    (hin : ∀ i, l / g < i → i < r / g → c i = 0)
    (hfirst : l / g < r / g → c (l / g) = min (k (l / g)) (l % g))
    (hlast : l / g < r / g → c (r / g) = if r % g < k (r / g) then k (r / g) else 0)
    (hone : l / g = r / g →
      c (l / g) = if r % g < k (l / g) then k (l / g) else min (k (l / g)) (l % g)) :
    c = remove g l r k := by
  funext i
  have hle := hk i
  rw [remove]
  rcases Nat.lt_trichotomy i (l / g) with hi | rfl | hi
  · rw [hout i (.inl hi), before_of_lt hi, before_of_lt (hi.trans_le hlr), if_neg (by omega)]
    omega
  · rw [before_div hg]
    rcases Nat.lt_or_eq_of_le hlr with hlt | heq
    · rw [hfirst hlt, before_of_lt hlt, if_neg (by omega)]
    · rw [hone heq, heq, before_div hg]
  · rw [before_of_gt hg hi]
    rcases Nat.lt_trichotomy i (r / g) with hi' | rfl | hi'
    · rw [hin i hi hi', before_of_lt hi', if_neg (by omega), Nat.min_zero]
    · rw [hlast hi, before_div hg, Nat.min_zero]
    · rw [hout i (.inr hi'), before_of_gt hg hi']
      split <;> omega

theorem eq_add (hg : 0 < g) {c : ℕ → ℕ} (hk : ∀ i, k i ≤ g) (hlr : l / g ≤ r / g)
    (hout : ∀ i, i < l / g ∨ r / g < i → c i = k i)
    (hin : ∀ i, l / g ≤ i → i < r / g → c i = g)
    (hlast : l / g < r / g → c (r / g) = max (k (r / g)) (r % g))
    (hone : l / g = r / g →
      c (l / g) = max (k (l / g)) (if l % g < r % g then r % g else 0)) :
    c = add g l r k := by
  funext i
  have hle := hk i
  rw [add, reach]
  rcases Nat.lt_trichotomy i (l / g) with hi | rfl | hi
  · rw [hout i (.inl hi), before_of_lt hi, before_of_lt (hi.trans_le hlr), if_neg (by omega)]
    omega
  · rw [before_div hg]
    rcases Nat.lt_or_eq_of_le hlr with hlt | heq
    · have hmod := Nat.mod_lt l hg
      rw [hin _ le_rfl hlt, before_of_lt hlt, if_pos hmod]
      omega
    · rw [hone heq, heq, before_div hg]
  · rw [before_of_gt hg hi]
    rcases Nat.lt_trichotomy i (r / g) with hi' | rfl | hi'
    · rw [hin i hi.le hi', before_of_lt hi', if_pos hg]
      omega
    · rw [hlast hi, before_div hg]
      split <;> omega
    · rw [hout i (.inr hi'), before_of_gt hg hi', if_neg (Nat.lt_irrefl 0)]
      omega

end Mair.Granules
