import Mathlib.Algebra.Prime.Lemmas
import Mathlib.Data.Set.Operations
import Mathlib.RingTheory.Multiplicity
import Mathlib.RingTheory.Int.Basic
import Mathlib.Tactic.Linarith

/-! # Progressions in modular arithmetic

An arithmetic progression is wrapped into a window of `2 ^ w` integers, multiplied, and reduced
modulo `2 ^ m`. The values are those of the progression that is not wrapped exactly when it
stays in the window, or when the factor hides the wrapping. -/

namespace Mair.Library

/-! ## The first terms of a sequence -/

section FirstTerms

variable {α γ : Type*} {f g : ℕ → α} {n p : ℕ}

def firstTerms (f : ℕ → α) (n : ℕ) : Set α := {y | ∃ i < n, f i = y}

theorem mem_firstTerms {i : ℕ} (hi : i < n) : f i ∈ firstTerms f n := ⟨i, hi, rfl⟩

theorem firstTerms_congr (h : ∀ i < n, f i = g i) : firstTerms f n = firstTerms g n := by
  ext y
  apply exists_congr
  intro i
  apply and_congr_right
  intro hi
  rw [h i hi]

/-- A periodic sequence has no new terms after its first period. -/
theorem firstTerms_of_periodic (hp : 0 < p) (h : ∀ i, f (i % p) = f i) :
    firstTerms f n = firstTerms f (min n p) := by
  ext y
  constructor
  · intro hy
    obtain ⟨i, hi, rfl⟩ := hy
    have hle := Nat.mod_le i p
    have hlt := Nat.mod_lt i hp
    exact ⟨i % p, by omega, h i⟩
  · intro hy
    obtain ⟨i, hi, rfl⟩ := hy
    exact ⟨i, by omega, rfl⟩

theorem firstTerms_comp_inj {h : α → γ} {s : Set α} (hinj : Set.InjOn h s)
    (hf : ∀ i < n, f i ∈ s) (hg : ∀ i < p, g i ∈ s) :
    firstTerms (fun i => h (f i)) n = firstTerms (fun i => h (g i)) p ↔
      firstTerms f n = firstTerms g p := by
  have himage : ∀ (e : ℕ → α) (k : ℕ), firstTerms (fun i => h (e i)) k =
      Set.image h (firstTerms e k) := by
    intro e k
    ext y
    constructor
    · intro hy
      obtain ⟨i, hi, rfl⟩ := hy
      exact ⟨e i, mem_firstTerms hi, rfl⟩
    · intro hy
      obtain ⟨x, ⟨i, hi, rfl⟩, rfl⟩ := hy
      exact ⟨i, hi, rfl⟩
  rw [himage, himage]
  apply hinj.image_eq_image_iff
  · intro y hy
    obtain ⟨i, hi, rfl⟩ := hy
    exact hf i hi
  · intro y hy
    obtain ⟨i, hi, rfl⟩ := hy
    exact hg i hi

end FirstTerms

/-! ## Wrapping into a window -/

/-- The number of the window of `2 ^ w` integers from `lo` on that equals `x` modulo `2 ^ w`. -/
def wrapTo (lo : ℤ) (w : ℕ) (x : ℤ) : ℤ := lo + (x - lo) % 2 ^ w

section WrapTo

variable {lo x y : ℤ} {w : ℕ}

theorem le_wrapTo : lo ≤ wrapTo lo w x := by
  have hnonneg := Int.emod_nonneg (x - lo) (pow_ne_zero w (two_ne_zero (α := ℤ)))
  rw [wrapTo]
  omega

theorem wrapTo_lt : wrapTo lo w x < lo + 2 ^ w := by
  have hlt := Int.emod_lt_of_pos (x - lo) (pow_pos (zero_lt_two (α := ℤ)) w)
  rw [wrapTo]
  omega

theorem wrapTo_of_mem (hlo : lo ≤ x) (hhi : x < lo + 2 ^ w) : wrapTo lo w x = x := by
  rw [wrapTo, Int.emod_eq_of_lt (by omega) (by omega)]
  omega

theorem dvd_sub_wrapTo : (2 : ℤ) ^ w ∣ x - wrapTo lo w x := by
  have hdvd := Int.dvd_self_sub_emod (x := x - lo) (m := 2 ^ w)
  have heq : x - wrapTo lo w x = x - lo - (x - lo) % 2 ^ w := by
    rw [wrapTo]
    omega
  rw [heq]
  exact hdvd

theorem wrapTo_congr (h : x % 2 ^ w = y % 2 ^ w) : wrapTo lo w x = wrapTo lo w y := by
  rw [wrapTo, wrapTo, Int.sub_emod, h, ← Int.sub_emod]

end WrapTo

/-! ## Powers of two -/

/-- A factor that does not hide `2 ^ w` hides no smaller multiple of it either. -/
theorem two_pow_dvd_of_not_dvd {a d : ℤ} {m w : ℕ} (hd : (2 : ℤ) ^ m ∣ a * d)
    (hw : ¬(2 : ℤ) ^ m ∣ a * 2 ^ w) : (2 : ℤ) ^ (w + 1) ∣ d := by
  have ha : a ≠ 0 := by
    intro hzero
    apply hw
    rw [hzero, zero_mul]
    exact dvd_zero _
  obtain ⟨c, hc, hodd⟩ := (Int.finiteMultiplicity_iff.mpr
    ⟨by decide, ha⟩ : FiniteMultiplicity (2 : ℤ) a).exists_eq_pow_mul_and_not_dvd
  generalize multiplicity (2 : ℤ) a = k at hc
  have hlt : k + w < m := by
    by_contra hge
    apply hw
    have heq : a * 2 ^ w = 2 ^ (k + w) * c := by
      rw [hc, pow_add]
      ring
    rw [heq]
    exact dvd_mul_of_dvd_left (pow_dvd_pow 2 (by omega)) c
  have hsplit : (2 : ℤ) ^ m = 2 ^ k * 2 ^ (m - k) := by
    rw [← pow_add]
    congr 1
    omega
  rw [hc, hsplit, mul_assoc] at hd
  have hcd := Int.dvd_of_mul_dvd_mul_left (pow_ne_zero k two_ne_zero) hd
  exact (pow_dvd_pow 2 (by omega)).trans (Int.prime_two.pow_dvd_of_dvd_mul_left _ hodd hcd)

/-! ## Wrapped progressions -/

/-- The multiple of `a` by `x` modulo `2 ^ m`. -/
def scale (m : ℕ) (a x : ℤ) : ℤ := a * x % 2 ^ m

section Progressions

variable {a lo σ x y : ℤ} {m w n i : ℕ}

theorem scale_eq_iff : scale m a x = scale m a y ↔ (2 : ℤ) ^ m ∣ a * (x - y) := by
  rw [scale, scale, mul_sub, Int.emod_eq_emod_iff_emod_sub_eq_zero,
    ← Int.dvd_iff_emod_eq_zero]

theorem scale_wrapTo (h : (2 : ℤ) ^ m ∣ a * 2 ^ w) :
    scale m a (wrapTo lo w x) = scale m a x := by
  obtain ⟨q, hq⟩ := @dvd_sub_wrapTo lo x w
  symm
  rw [scale_eq_iff, hq, ← mul_assoc]
  exact dvd_mul_of_dvd_left h q

/-- While the last multiple is in the window, all of them are. -/
theorem mul_mem_window (h0 : lo ≤ 0) (h1 : 0 < lo + 2 ^ w) {last : ℕ}
    (hlo : lo ≤ last * σ) (hhi : last * σ < lo + 2 ^ w) (hi : i ≤ last) :
    lo ≤ i * σ ∧ i * σ < lo + 2 ^ w := by
  have hcast : (i : ℤ) ≤ last := Int.ofNat_le.mpr hi
  have hpos : (0 : ℤ) ≤ i := Int.natCast_nonneg i
  rcases Int.le_total 0 σ with hσ | hσ
  · have hle := mul_le_mul_of_nonneg_right hcast hσ
    have hnonneg := mul_nonneg hpos hσ
    omega
  · have hle := mul_le_mul_of_nonpos_right hcast hσ
    have hnonpos := mul_nonpos_of_nonneg_of_nonpos hpos hσ
    omega

/-- The first multiple outside the window is less than `2 ^ (w + 1)` away from all of it. -/
theorem first_outside (h0 : lo ≤ 0) (h1 : 0 < lo + 2 ^ w) (hσ : lo ≤ σ ∧ σ < lo + 2 ^ w)
    (hin : lo ≤ i * σ ∧ i * σ < lo + 2 ^ w)
    (hout : ¬(lo ≤ (i + 1 : ℕ) * σ ∧ (i + 1 : ℕ) * σ < lo + 2 ^ w))
    (hy : lo ≤ y ∧ y < lo + 2 ^ w) :
    (i + 1 : ℕ) * σ - y ≠ 0 ∧ |(i + 1 : ℕ) * σ - y| < 2 ^ (w + 1) := by
  have hstep : ((i + 1 : ℕ) : ℤ) * σ = i * σ + σ := by
    push_cast
    ring
  rw [hstep] at hout ⊢
  rw [pow_succ]
  constructor
  · omega
  · rw [abs_lt]
    omega

/-- The wrapped progression visits the values of the one that is not wrapped exactly when that
one stays in the window or the factor hides the wrapping. -/
theorem wrapped_eq_iff (h0 : lo ≤ 0) (h1 : 0 < lo + 2 ^ w) (hσ : lo ≤ σ ∧ σ < lo + 2 ^ w) :
    firstTerms (fun i => scale m a (i * σ)) n =
        firstTerms (fun i => scale m a (wrapTo lo w (i * σ))) n ↔
      (lo ≤ (n - 1 : ℕ) * σ ∧ (n - 1 : ℕ) * σ < lo + 2 ^ w) ∨ (2 : ℤ) ^ m ∣ a * 2 ^ w := by
  constructor
  · intro heq
    by_contra hno
    rw [not_or] at hno
    obtain ⟨hout, hndvd⟩ := hno
    have hzero : lo ≤ (0 : ℕ) * σ ∧ (0 : ℕ) * σ < lo + 2 ^ w := by
      rw [Nat.cast_zero, zero_mul]
      exact ⟨h0, h1⟩
    have hex : ∃ k : ℕ, ¬(lo ≤ k * σ ∧ k * σ < lo + 2 ^ w) := ⟨n - 1, hout⟩
    classical
    cases hfind : Nat.find hex with
    | zero =>
        have hspec := Nat.find_spec hex
        rw [hfind] at hspec
        exact hspec hzero
    | succ k =>
        have hspec := Nat.find_spec hex
        have hmin := Nat.find_min' hex hout
        have hin := not_not.mp (Nat.find_min hex (m := k) (by omega))
        rw [hfind] at hspec hmin
        have hmem : scale m a ((k + 1 : ℕ) * σ) ∈
            firstTerms (fun i => scale m a (i * σ)) n :=
          mem_firstTerms (f := fun i : ℕ => scale m a (i * σ)) (by omega)
        rw [heq] at hmem
        obtain ⟨j, -, hj⟩ := hmem
        obtain ⟨hne, habs⟩ := first_outside h0 h1 hσ hin hspec
          ⟨le_wrapTo (x := j * σ), wrapTo_lt (x := j * σ)⟩
        have hdvd := two_pow_dvd_of_not_dvd (scale_eq_iff.mp hj.symm) hndvd
        have hle := Int.le_of_dvd (abs_pos.mpr hne) ((dvd_abs _ _).mpr hdvd)
        omega
  · intro h
    apply firstTerms_congr
    intro i hi
    rcases h with h | h
    · obtain ⟨hlo, hhi⟩ := mul_mem_window h0 h1 h.1 h.2 (show i ≤ n - 1 by omega)
      rw [wrapTo_of_mem hlo hhi]
    · exact (scale_wrapTo h).symm

/-- A progression that leaves the numbers below `limit` has a first term that does, and that
term is below twice the limit. -/
theorem exists_mul_ge {t limit last : ℕ} (ht : t < limit) (h : limit ≤ last * t) :
    ∃ k ≤ last, limit ≤ k * t ∧ k * t < 2 * limit := by
  induction last with
  | zero => omega
  | succ last ih =>
      rw [Nat.succ_mul] at h
      by_cases hlast : limit ≤ last * t
      · obtain ⟨k, hk, hge, hlt⟩ := ih hlast
        exact ⟨k, by omega, hge, hlt⟩
      · refine ⟨last + 1, Nat.le_refl _, ?_, ?_⟩
        · rw [Nat.succ_mul]
          exact h
        · rw [Nat.succ_mul]
          omega

/-- Modulo a larger number, a progression has values below `limit` only when it does not pass
the limit at all. -/
theorem narrow_eq_iff {t limit wide : ℕ} {q : ℕ → ℕ} (ht : t < limit) (hwide : 2 * limit ≤ wide)
    (hq : ∀ i, q i < limit) :
    firstTerms (fun i => i * t % wide) n = firstTerms q n ↔
      (n - 1) * t < limit ∧ firstTerms (fun i => i * t % limit) n = firstTerms q n := by
  have hterms : (n - 1) * t < limit →
      firstTerms (fun i => i * t % wide) n = firstTerms (fun i => i * t % limit) n := by
    intro hlast
    apply firstTerms_congr
    intro i hi
    have hle : i * t ≤ (n - 1) * t := Nat.mul_le_mul_right t (by omega)
    rw [Nat.mod_eq_of_lt (by omega), Nat.mod_eq_of_lt (by omega)]
  constructor
  · intro heq
    have hlast : (n - 1) * t < limit := by
      by_contra hge
      obtain ⟨k, hk, hle, hlt⟩ := exists_mul_ge ht (Nat.le_of_not_lt hge)
      have hkn : k < n := by
        by_contra hkn
        have hzero : k = 0 := by omega
        rw [hzero, Nat.zero_mul] at hle
        omega
      have hmem := mem_firstTerms (f := fun i => i * t % wide) hkn
      rw [heq] at hmem
      obtain ⟨j, -, hj⟩ := hmem
      have hlow := hq j
      rw [hj, Nat.mod_eq_of_lt (by omega)] at hlow
      omega
    exact ⟨hlast, (hterms hlast).symm.trans heq⟩
  · intro h
    exact (hterms h.1).trans h.2

end Progressions

end Mair.Library
