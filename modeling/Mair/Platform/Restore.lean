import Mair.Platform.Codec

/-! # Restoring compressed addresses under any header

`RestoreAddrImpl` walks the regions in a fixed order and trusts the first probe with the same
indicator bits. It is right on an address exactly when that probe is near the address. -/

namespace Mair.Platform

open BitBlocks

/-! ## Stretches -/

/-- The number of the stretch of `indLsb` addresses that holds an address. -/
def stretch (p : Uptr) : ℕ := p.toNat / 2 ^ 41

theorem indicator_and_toNat (p : Uptr) :
    (p &&& indicator).toNat = 2 ^ 41 * (stretch p % 8) := by
  have hind : indicator.toNat = 2 ^ 41 * 7 + 0 := rfl
  have hsplit : p.toNat = 2 ^ 41 * stretch p + p.toNat % 2 ^ 41 := (Nat.div_add_mod _ _).symm
  have hmod : stretch p &&& 7 = stretch p % 8 := Nat.and_two_pow_sub_one_eq_mod _ 3
  rw [BitVec.toNat_and, hind, hsplit,
    block_and (Nat.mod_lt _ (Nat.two_pow_pos 41)) (Nat.two_pow_pos 41), hmod, Nat.and_zero,
    Nat.add_zero]

theorem stretch_compressAddr (x : Uptr) : stretch (compressAddr x) = stretch x % 8 := by
  rw [stretch, compressAddr_toNat, offset, stretch]
  omega

theorem stretch_mod (x : Uptr) : stretch x % 8 = offset x / 2 ^ 41 := by
  rw [stretch, offset]
  omega

/-- The test of `RestoreAddrImpl` compares stretches modulo eight. -/
theorem indicator_eq_iff (x p : Uptr) :
    compressAddr x &&& indicator = p &&& indicator ↔ stretch p % 8 = stretch x % 8 := by
  rw [← BitVec.toNat_inj, indicator_and_toNat, indicator_and_toNat, stretch_compressAddr]
  omega

theorem mod_or_self (a : ℕ) : a % 8 ||| a = a := by
  have hlt : a % 8 < 2 ^ 3 := Nat.mod_lt _ (by decide)
  have hsplit : 2 ^ 3 * (a / 8) + a % 8 = a := Nat.div_add_mod a 8
  calc
    a % 8 ||| a = a % 8 ||| (a % 8 ||| 2 ^ 3 * (a / 8)) := by rw [block_or hlt, hsplit]
    _ = a % 8 ||| 2 ^ 3 * (a / 8) := by rw [← Nat.or_assoc, Nat.or_self]
    _ = a := by rw [block_or hlt, hsplit]

/-- A probe with the right indicator bits moves the address into the probe's stretch. -/
theorem restored_toNat {x p : Uptr} (h : stretch p % 8 = stretch x % 8) :
    (compressAddr x ||| (p &&& ~~~(indLsb - 1))).toNat =
      2 ^ 41 * stretch p + x.toNat % 2 ^ 41 := by
  have hmask : (p &&& ~~~(indLsb - 1)).toNat = 2 ^ 41 * stretch p := by
    rw [toNat_and_not_low (k := 41) p _ (by decide) (by decide), Nat.mul_comm]
    rfl
  have hsplit : (compressAddr x).toNat = 2 ^ 41 * (stretch p % 8) + x.toNat % 2 ^ 41 := by
    rw [compressAddr_toNat, offset, h, stretch]
    omega
  rw [BitVec.toNat_or, hmask, hsplit, block_or_block (Nat.mod_lt _ (Nat.two_pow_pos 41)),
    mod_or_self]

theorem restored_eq_iff {x p : Uptr} (h : stretch p % 8 = stretch x % 8) :
    compressAddr x ||| (p &&& ~~~(indLsb - 1)) = x ↔ stretch p = stretch x := by
  rw [← BitVec.toNat_inj, restored_toNat h]
  unfold stretch
  omega

/-- Restoring gives the address back exactly when the first probe with the right indicator
bits lies in the stretch of the address. -/
theorem restoreAddr_compressAddr_iff (m : Mapping) (x : Uptr) :
    m.restoreAddr (compressAddr x) = some x ↔
      ∃ p, m.restoreProbes.find? (fun p => stretch p % 8 == stretch x % 8) = some p ∧
        stretch p = stretch x := by
  have htest : (fun p => compressAddr x &&& indicator == p &&& indicator) =
      fun p => stretch p % 8 == stretch x % 8 := by
    funext p
    rw [Bool.eq_iff_iff, beq_iff_eq, beq_iff_eq]
    exact indicator_eq_iff x p
  rw [Mapping.restoreAddr, htest, Option.map_eq_some_iff]
  apply exists_congr
  intro p
  apply and_congr_right
  intro hfind
  have hmatch := List.find?_some hfind
  exact restored_eq_iff (beq_iff_eq.mp hmatch)

/-! ## Probe points -/

section Probes

theorem roundDownTo_toNat {p : Uptr} (hp : p.toNat + 2 ^ 41 < 2 ^ 64) :
    (roundDownTo (p + indLsb) indLsb).toNat = 2 ^ 41 * (stretch p + 1) := by
  have hlsb : indLsb.toNat = 2 ^ 41 := by decide
  rw [roundDownTo, toNat_and_not_low (k := 41) _ _ (by decide) (by decide), BitVec.toNat_add,
    hlsb, Nat.mod_eq_of_lt hp, stretch]
  omega

theorem bounds_of_mem_probes {fuel : ℕ} {beg fin p : Uptr} (hfin : fin.toNat + 2 ^ 41 ≤ 2 ^ 64)
    (hp : p ∈ probes fuel beg fin) : beg.toNat ≤ p.toNat ∧ p.toNat < fin.toNat := by
  induction fuel generalizing beg with
  | zero => cases hp
  | succ fuel ih =>
      simp only [probes] at hp
      split at hp
      · next hlt =>
          have hbeg := BitVec.lt_def.mp hlt
          rcases List.mem_cons.mp hp with heq | hrest
          · subst heq
            exact ⟨Nat.le_refl _, hbeg⟩
          · have hnext := ih hrest
            rw [roundDownTo_toNat (by omega), stretch] at hnext
            omega
      · cases hp

/-- Every stretch that meets the region is probed, once the fuel covers the stretches. -/
theorem exists_probe {fuel : ℕ} {beg fin x : Uptr} (hfin : fin.toNat + 2 ^ 41 ≤ 2 ^ 64)
    (hfuel : stretch fin - stretch beg < fuel) (hlo : beg.toNat ≤ x.toNat)
    (hhi : x.toNat < fin.toNat) : ∃ p ∈ probes fuel beg fin, stretch p = stretch x := by
  induction fuel generalizing beg with
  | zero => exact absurd hfuel (Nat.not_lt_zero _)
  | succ fuel ih =>
      have hlt : beg < fin := BitVec.lt_def.mpr (by omega)
      simp only [probes, if_pos hlt]
      by_cases hsame : stretch beg = stretch x
      · exact ⟨beg, List.mem_cons_self, hsame⟩
      · have hnext := roundDownTo_toNat (p := beg) (by omega)
        have hstep : stretch (roundDownTo (beg + indLsb) indLsb) = stretch beg + 1 := by
          rw [stretch, hnext]
          omega
        have hle : stretch beg + 1 ≤ stretch x := by
          unfold stretch at hsame ⊢
          omega
        have hxfin : stretch x ≤ stretch fin := Nat.div_le_div_right (Nat.le_of_lt hhi)
        have hlo' : (roundDownTo (beg + indLsb) indLsb).toNat ≤ x.toNat := by
          rw [hnext]
          unfold stretch at hle ⊢
          omega
        obtain ⟨p, hp, heq⟩ := ih (by omega) hlo'
        exact ⟨p, List.mem_cons_of_mem _ hp, heq⟩

end Probes

/-! ## Probes of the regions -/

/-- No region reaches so high that a probe point wraps around. -/
def Mapping.BoundedRegions (m : Mapping) : Prop :=
  ∀ r, (m.memEnd r).toNat + 2 ^ 41 ≤ 2 ^ 64

/-- The probes of one region. -/
def Mapping.regionProbes (m : Mapping) (r : Region) : List Uptr :=
  if m.memBeg r = m.memEnd r then []
  else probes (probeCount (m.memBeg r) (m.memEnd r)) (m.memBeg r) (m.memEnd r)

theorem Mapping.restoreProbes_eq (m : Mapping) :
    m.restoreProbes = [Region.lo, .mid, .hi].flatMap m.regionProbes ++ m.regionProbes .heap := by
  change [Region.lo, .mid, .hi, .heap].flatMap m.regionProbes = _
  simp [List.flatMap_cons, List.append_assoc]

section Regions

variable {m : Mapping} {r : Region} {x p : Uptr}

theorem inRegion_of_mem_regionProbes (hm : m.BoundedRegions) (hp : p ∈ m.regionProbes r) :
    m.InRegion r p := by
  unfold Mapping.regionProbes at hp
  split at hp
  · cases hp
  · have hbounds := bounds_of_mem_probes (hm r) hp
    exact ⟨BitVec.le_def.mpr hbounds.1, BitVec.lt_def.mpr hbounds.2⟩

theorem exists_regionProbe (hm : m.BoundedRegions) (hx : m.InRegion r x) :
    ∃ p ∈ m.regionProbes r, stretch p = stretch x := by
  have hlo := hx.le_toNat
  have hhi := hx.toNat_lt
  have hne : m.memBeg r ≠ m.memEnd r := by
    intro h
    rw [h] at hlo
    omega
  have hlsb : indLsb.toNat = 2 ^ 41 := by decide
  rw [Mapping.regionProbes, if_neg hne]
  apply exists_probe (hm r) _ hlo hhi
  rw [probeCount, hlsb, stretch, stretch]
  omega

theorem exists_region_of_mem_restoreProbes (hm : m.BoundedRegions) (hp : p ∈ m.restoreProbes) :
    ∃ r, m.InRegion r p := by
  rw [Mapping.restoreProbes_eq, List.mem_append, List.mem_flatMap] at hp
  rcases hp with ⟨r, _, hr⟩ | hheap
  · exact ⟨r, inRegion_of_mem_regionProbes hm hr⟩
  · exact ⟨.heap, inRegion_of_mem_regionProbes hm hheap⟩

theorem regionProbes_subset (m : Mapping) (r : Region) : m.regionProbes r ⊆ m.restoreProbes := by
  intro p hp
  rw [Mapping.restoreProbes_eq, List.mem_append, List.mem_flatMap]
  cases r with
  | lo => exact Or.inl ⟨.lo, by simp, hp⟩
  | mid => exact Or.inl ⟨.mid, by simp, hp⟩
  | hi => exact Or.inl ⟨.hi, by simp, hp⟩
  | heap => exact Or.inr hp

/-- Addresses are restored when no other region shares their indicator bits. -/
theorem restoreAddr_of_unshared (hm : m.BoundedRegions) (hx : m.InRegion r x)
    (hblock : ∀ p, m.InRegion r p → stretch p / 8 = stretch x / 8)
    (hother : ∀ r' p, r' ≠ r → m.InRegion r' p → stretch p % 8 ≠ stretch x % 8) :
    m.restoreAddr (compressAddr x) = some x := by
  rw [restoreAddr_compressAddr_iff]
  obtain ⟨q, hq, hqx⟩ := exists_regionProbe hm hx
  have hfound : (m.restoreProbes.find? fun p => stretch p % 8 == stretch x % 8).isSome := by
    rw [List.find?_isSome]
    exact ⟨q, regionProbes_subset m r hq, beq_iff_eq.mpr (by rw [hqx])⟩
  obtain ⟨p, hp⟩ := Option.isSome_iff_exists.mp hfound
  have hfind := List.find?_some hp
  have hmatch := beq_iff_eq.mp hfind
  obtain ⟨r', hr'⟩ := exists_region_of_mem_restoreProbes hm (List.mem_of_find?_eq_some hp)
  refine ⟨p, hp, ?_⟩
  by_cases hsame : r' = r
  · subst hsame
    have hquot := hblock p hr'
    omega
  · exact absurd hmatch (hother r' p hsame hr')

/-- A heap address that is restored although an earlier region shares its indicator bits
lies in a stretch of an earlier region. -/
theorem exists_stretch_of_shared (hm : m.BoundedRegions) (hr : r ≠ .heap)
    (hp : m.InRegion r p) (hshared : stretch p % 8 = stretch x % 8)
    (hrestored : m.restoreAddr (compressAddr x) = some x) :
    ∃ r' q, r' ≠ .heap ∧ m.InRegion r' q ∧ stretch q = stretch x := by
  rw [restoreAddr_compressAddr_iff] at hrestored
  obtain ⟨q, hq, hqx⟩ := hrestored
  obtain ⟨p', hp', hpp'⟩ := exists_regionProbe hm hp
  have hfront : p' ∈ [Region.lo, .mid, .hi].flatMap m.regionProbes := by
    rw [List.mem_flatMap]
    cases r with
    | lo => exact ⟨.lo, by simp, hp'⟩
    | mid => exact ⟨.mid, by simp, hp'⟩
    | hi => exact ⟨.hi, by simp, hp'⟩
    | heap => exact absurd rfl hr
  have hfound : (([Region.lo, .mid, .hi].flatMap m.regionProbes).find? fun p =>
      stretch p % 8 == stretch x % 8).isSome := by
    rw [List.find?_isSome]
    exact ⟨p', hfront, beq_iff_eq.mpr (by rw [hpp', hshared])⟩
  obtain ⟨q', hq'⟩ := Option.isSome_iff_exists.mp hfound
  rw [Mapping.restoreProbes_eq, List.find?_append, hq', Option.some_or, Option.some.injEq] at hq
  subst hq
  have hmem := List.mem_of_find?_eq_some hq'
  rw [List.mem_flatMap] at hmem
  obtain ⟨r', hr', hq'⟩ := hmem
  refine ⟨r', q', ?_, inRegion_of_mem_regionProbes hm hq', hqx⟩
  intro heq
  subst heq
  simp at hr'

end Regions

end Mair.Platform
