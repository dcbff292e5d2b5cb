import Mair.Platform.Mapping

/-! # Mappings of the program

`mmap_interceptor` looks at the first and the last byte of a range. Application memory consists of
four regions with the metadata of the tools between them. -/

namespace Mair.Interceptor

open Platform

/-! ## The interceptor -/

def mapFixed : BitVec 32 := 0x10

def mapFailed : Uptr := -1

/-- The address that is passed on, unless the call fails with `EINVAL`. -/
def fixMmapAddr (m : Mapping) (addr sz : Uptr) (flags : BitVec 32) : Option Uptr :=
  if addr ≠ 0 then
    if !m.isAppMem addr || !m.isAppMem (addr + sz - 1) then
      if flags &&& mapFixed ≠ 0 then none else some 0
    else some addr
  else some addr

/-- `einval` is a failure without a call of the real `mmap`, and `died` the end of the program.
After `mapped res` the metadata of the `sz` bytes at `res` is set up. -/
inductive MmapOutcome where
  | einval
  | failed
  | died
  | mapped (res : Uptr)
  deriving DecidableEq

def mmapInterceptor (m : Mapping) (realMmap : Uptr → Uptr) (addr sz : Uptr) (flags : BitVec 32) :
    MmapOutcome :=
  match fixMmapAddr m addr sz flags with
  | none => .einval
  | some addr =>
      let res := realMmap addr
      if res ≠ mapFailed then
        if !m.isAppMem res || !m.isAppMem (res + sz - 1) then .died else .mapped res
      else .failed

/-! ## The law and when it holds -/

/-- Every byte of the range exists and is application memory. -/
def AllAppMem (m : Mapping) (addr sz : Uptr) : Prop :=
  ∀ x, addr.toNat ≤ x → x < addr.toNat + sz.toNat → x < 2 ^ 64 ∧ m.isAppMem (BitVec.ofNat 64 x)

/-- The kernel maps the exact range of a fixed request, and else any range of the address space. -/
def Consistent (realMmap : Uptr → Uptr) (sz : Uptr) (flags : BitVec 32) : Prop :=
  ∀ addr, realMmap addr = mapFailed ∨
    if flags &&& mapFixed ≠ 0 then realMmap addr = addr
    else (realMmap addr).toNat + sz.toNat ≤ 2 ^ 64

structure Confined (m : Mapping) (realMmap : Uptr → Uptr) (addr sz : Uptr) (flags : BitVec 32) :
    Prop where
  fixed : flags &&& mapFixed ≠ 0 → ¬AllAppMem m addr sz →
    mmapInterceptor m realMmap addr sz flags = .einval
  mapped : ∀ res, mmapInterceptor m realMmap addr sz flags = .mapped res → AllAppMem m res sz

/-- The range begins in one region and ends in another one, or past the end of the address space. -/
def Straddles (m : Mapping) (addr sz : Uptr) : Prop :=
  ∃ r r', m.InRegion r addr ∧ m.InRegion r' (addr + sz - 1) ∧
    (r ≠ r' ∨ 2 ^ 64 < addr.toNat + sz.toNat)

/-- A fixed request does not straddle two regions, and at address 0 it ends in the low region; the
kernel does not answer another one with a range that straddles two regions. -/
def KeepsToRegion (m : Mapping) (realMmap : Uptr → Uptr) (addr sz : Uptr) (flags : BitVec 32) :
    Prop :=
  if flags &&& mapFixed ≠ 0 then ¬Straddles m addr sz ∧ (addr = 0 → sz ≤ m.kLoAppMemEnd)
  else ∀ hint ∈ fixMmapAddr m addr sz flags, ¬Straddles m (realMmap hint) sz

/-! ## Regions -/

/-- The low region starts at 0, and there is a gap between any two regions. -/
structure Gapped (m : Mapping) : Prop where
  lo : m.kLoAppMemBeg = 0
  gap : ∀ r r', r ≠ r' →
    (m.memEnd r).toNat < (m.memBeg r').toNat ∨ (m.memEnd r').toNat < (m.memBeg r).toNat
  nonempty : ∀ r, (m.memBeg r).toNat < (m.memEnd r).toNat

theorem platforms_gapped : ∀ m ∈ platforms, Gapped m := by
  intro m hm
  simp only [platforms, List.mem_cons, List.not_mem_nil, or_false] at hm
  rcases hm with rfl | rfl
  · exact ⟨by decide, by decide, by decide⟩
  · exact ⟨by decide, by decide, by decide⟩

section Ranges

variable {m : Mapping} {addr sz x : Uptr} {r r' : Region}

theorem inRegion_toNat_iff :
    m.InRegion r x ↔ (m.memBeg r).toNat ≤ x.toNat ∧ x.toNat < (m.memEnd r).toNat :=
  Iff.rfl

theorem inRegion_ofNat_iff {n : ℕ} (hn : n < 2 ^ 64) :
    m.InRegion r (BitVec.ofNat 64 n) ↔ (m.memBeg r).toNat ≤ n ∧ n < (m.memEnd r).toNat := by
  rw [inRegion_toNat_iff, BitVec.toNat_ofNat, Nat.mod_eq_of_lt hn]

theorem Gapped.eq_of_inRegion (h : Gapped m) (hr : m.InRegion r x) (hr' : m.InRegion r' x) :
    r = r' := by
  rw [inRegion_toNat_iff] at hr hr'
  by_contra hne
  have hgap := h.gap r r' hne
  omega

/-- The end of a region lies in no region. -/
theorem Gapped.end_notMem (h : Gapped m) (r' : Region) :
    ¬((m.memBeg r').toNat ≤ (m.memEnd r).toNat ∧ (m.memEnd r).toNat < (m.memEnd r').toNat) := by
  have hr := h.nonempty r
  by_cases heq : r = r'
  · subst heq
    omega
  · have hgap := h.gap r r' heq
    omega

theorem toNat_pos (hsz : sz ≠ 0) : 0 < sz.toNat :=
  Nat.pos_of_ne_zero fun hzero => hsz (BitVec.eq_of_toNat_eq hzero)

theorem toNat_last (hsz : sz ≠ 0) :
    (addr + sz - 1).toNat = (addr.toNat + sz.toNat - 1) % 2 ^ 64 := by
  have hpos := toNat_pos hsz
  rw [BitVec.toNat_sub, BitVec.toNat_add]
  have hone : (1 : Uptr).toNat = 1 := rfl
  rw [hone]
  omega

theorem AllAppMem.ends (h : AllAppMem m addr sz) (hsz : sz ≠ 0) :
    m.isAppMem addr = true ∧ m.isAppMem (addr + sz - 1) = true ∧
      addr.toNat + sz.toNat ≤ 2 ^ 64 := by
  have hpos := toNat_pos hsz
  have hfirst := h addr.toNat le_rfl (by omega)
  have hlast := h (addr.toNat + sz.toNat - 1) (by omega) (by omega)
  have hlt := addr.isLt
  refine ⟨?_, ?_, by omega⟩
  · have happ := hfirst.2
    rwa [BitVec.ofNat_toNat, BitVec.setWidth_eq] at happ
  · have heq : BitVec.ofNat 64 (addr.toNat + sz.toNat - 1) = addr + sz - 1 := by
      apply BitVec.eq_of_toNat_eq
      rw [toNat_last hsz, BitVec.toNat_ofNat]
    rw [← heq]
    exact hlast.2

/-- A range of application memory lies in one region. -/
theorem AllAppMem.not_straddles (h : AllAppMem m addr sz) (hm : Gapped m) (hsz : sz ≠ 0) :
    ¬Straddles m addr sz := by
  rintro ⟨r, r', hr, hr', hcross⟩
  have hpos := toNat_pos hsz
  obtain ⟨-, -, hwrap⟩ := h.ends hsz
  have hne : r ≠ r' := hcross.resolve_right (by omega)
  rw [inRegion_toNat_iff] at hr hr'
  rw [toNat_last hsz, Nat.mod_eq_of_lt (by omega)] at hr'
  have hgap := hm.gap r r' hne
  obtain ⟨hlt, happ⟩ := h (m.memEnd r).toNat (by omega) (by omega)
  obtain ⟨s, hs⟩ := (m.isAppMem_iff _).mp happ
  exact hm.end_notMem s ((inRegion_ofNat_iff hlt).mp hs)

theorem allAppMem_of_not_straddles (hsz : sz ≠ 0) (hfirst : m.isAppMem addr = true)
    (hlast : m.isAppMem (addr + sz - 1) = true) (h : ¬Straddles m addr sz) :
    AllAppMem m addr sz := by
  obtain ⟨r, hr⟩ := (m.isAppMem_iff _).mp hfirst
  obtain ⟨r', hr'⟩ := (m.isAppMem_iff _).mp hlast
  have hsame : r = r' ∧ addr.toNat + sz.toNat ≤ 2 ^ 64 := by
    constructor
    · by_contra hne
      exact h ⟨r, r', hr, hr', Or.inl hne⟩
    · by_contra hwrap
      exact h ⟨r, r', hr, hr', Or.inr (by omega)⟩
  obtain ⟨rfl, hwrap⟩ := hsame
  have hpos := toNat_pos hsz
  rw [inRegion_toNat_iff] at hr hr'
  rw [toNat_last hsz, Nat.mod_eq_of_lt (by omega)] at hr'
  intro x hx hx'
  have hlt : x < 2 ^ 64 := by omega
  refine ⟨hlt, (m.isAppMem_iff _).mpr ⟨r, (inRegion_ofNat_iff hlt).mpr ?_⟩⟩
  omega

/-- A range of application memory at 0 lies in the low region. -/
theorem allAppMem_zero_iff (hm : Gapped m) :
    AllAppMem m 0 sz ↔ sz ≤ m.kLoAppMemEnd := by
  have hzero : (0 : Uptr).toNat = 0 := rfl
  have hlo : (m.memBeg .lo).toNat = 0 := by
    rw [Mapping.memBeg, hm.lo]
    rfl
  constructor
  · intro h
    rw [BitVec.le_def]
    by_contra hlt
    have hend : m.memEnd .lo = m.kLoAppMemEnd := rfl
    obtain ⟨hlt', happ⟩ := h (m.memEnd .lo).toNat (by omega) (by rw [hend]; omega)
    obtain ⟨s, hs⟩ := (m.isAppMem_iff _).mp happ
    exact hm.end_notMem s ((inRegion_ofNat_iff hlt').mp hs)
  · intro hle
    rw [BitVec.le_def] at hle
    intro x hx hx'
    have hszlt := sz.isLt
    have hlt : x < 2 ^ 64 := by omega
    refine ⟨hlt, (m.isAppMem_iff _).mpr ⟨.lo, (inRegion_ofNat_iff hlt).mpr ?_⟩⟩
    rw [hlo]
    refine ⟨Nat.zero_le x, ?_⟩
    have hend : m.memEnd .lo = m.kLoAppMemEnd := rfl
    rw [hend]
    omega

end Ranges

/-! ## Requests -/

section Requests

variable {m : Mapping} {realMmap : Uptr → Uptr} {addr sz res : Uptr} {flags : BitVec 32}

theorem mmapInterceptor_of_fix {hint : Uptr} (h : fixMmapAddr m addr sz flags = some hint) :
    mmapInterceptor m realMmap addr sz flags = .mapped res ↔
      realMmap hint = res ∧ res ≠ mapFailed ∧ m.isAppMem res = true ∧
        m.isAppMem (res + sz - 1) = true := by
  rw [mmapInterceptor, h]
  simp only
  by_cases hfailed : realMmap hint = mapFailed
  · rw [if_neg (not_not.mpr hfailed)]
    constructor
    · intro heq
      cases heq
    · rintro ⟨rfl, hne, -⟩
      exact absurd hfailed hne
  · rw [if_pos hfailed]
    split_ifs with happ
    · constructor
      · intro heq
        cases heq
      · rintro ⟨rfl, -, hfirst, hlast⟩
        rw [hfirst, hlast] at happ
        cases happ
    · simp only [Bool.or_eq_true, Bool.not_eq_true', not_or, Bool.not_eq_false] at happ
      constructor
      · intro heq
        cases heq
        exact ⟨rfl, hfailed, happ⟩
      · rintro ⟨rfl, -⟩
        rfl

theorem fixMmapAddr_eq_none_iff : fixMmapAddr m addr sz flags = none ↔
    addr ≠ 0 ∧ flags &&& mapFixed ≠ 0 ∧
      ¬(m.isAppMem addr = true ∧ m.isAppMem (addr + sz - 1) = true) := by
  rw [fixMmapAddr]
  split_ifs with haddr happ hfixed
  · simp only [Bool.or_eq_true, Bool.not_eq_true'] at happ
    simp only [true_iff]
    refine ⟨haddr, hfixed, ?_⟩
    rintro ⟨hfirst, hlast⟩
    rw [hfirst, hlast] at happ
    simp at happ
  · simp only [false_iff]
    rintro ⟨-, hfixed', -⟩
    exact hfixed hfixed'
  · simp only [Bool.or_eq_true, Bool.not_eq_true', not_or, Bool.not_eq_false] at happ
    simp only [false_iff]
    rintro ⟨-, -, hends⟩
    exact hends happ
  · simp only [false_iff]
    rintro ⟨haddr', -⟩
    exact haddr haddr'

theorem fixMmapAddr_fixed (hfixed : flags &&& mapFixed ≠ 0) {hint : Uptr}
    (h : fixMmapAddr m addr sz flags = some hint) : hint = addr := by
  rw [fixMmapAddr] at h
  split_ifs at h
  · exact (Option.some_inj.mp h).symm
  · exact (Option.some_inj.mp h).symm

theorem mmapInterceptor_eq_einval_iff :
    mmapInterceptor m realMmap addr sz flags = .einval ↔ fixMmapAddr m addr sz flags = none := by
  rw [mmapInterceptor]
  cases fixMmapAddr m addr sz flags with
  | none => simp
  | some hint =>
      simp only
      split_ifs <;> simp

/-- A fixed request. -/
theorem confined_fixed_iff (hm : Gapped m) (hsz : sz ≠ 0) (hfixed : flags &&& mapFixed ≠ 0)
    (hkernel : Consistent realMmap sz flags) :
    Confined m realMmap addr sz flags ↔
      ¬Straddles m addr sz ∧ (addr = 0 → sz ≤ m.kLoAppMemEnd) := by
  constructor
  · intro h
    have hrejected : ¬AllAppMem m addr sz → addr ≠ 0 ∧
        ¬(m.isAppMem addr = true ∧ m.isAppMem (addr + sz - 1) = true) := by
      intro hgap
      have heinval := mmapInterceptor_eq_einval_iff.mp (h.fixed hfixed hgap)
      have hnone := fixMmapAddr_eq_none_iff.mp heinval
      exact ⟨hnone.1, hnone.2.2⟩
    constructor
    · intro hstraddles
      have hgap : ¬AllAppMem m addr sz := fun hall => hall.not_straddles hm hsz hstraddles
      obtain ⟨r, r', hr, hr', -⟩ := hstraddles
      exact (hrejected hgap).2
        ⟨(m.isAppMem_iff _).mpr ⟨r, hr⟩, (m.isAppMem_iff _).mpr ⟨r', hr'⟩⟩
    · rintro rfl
      by_contra hlt
      exact (hrejected fun hall => hlt ((allAppMem_zero_iff hm).mp hall)).1 rfl
  · rintro ⟨hstraddles, hzero⟩
    constructor
    · intro _ hgap
      rw [mmapInterceptor_eq_einval_iff, fixMmapAddr_eq_none_iff]
      refine ⟨?_, hfixed, ?_⟩
      · rintro rfl
        exact hgap ((allAppMem_zero_iff hm).mpr (hzero rfl))
      · rintro ⟨hfirst, hlast⟩
        exact hgap (allAppMem_of_not_straddles hsz hfirst hlast hstraddles)
    · intro res hres
      cases hfix : fixMmapAddr m addr sz flags with
      | none =>
          rw [mmapInterceptor_eq_einval_iff.mpr hfix] at hres
          cases hres
      | some hint =>
          obtain ⟨hres, hne, hfirst, hlast⟩ := (mmapInterceptor_of_fix hfix).mp hres
          have hexact : realMmap hint = hint := by
            rcases hkernel hint with hfailed | hexact
            · exact absurd (hres.symm.trans hfailed) hne
            · rwa [if_pos hfixed] at hexact
          have heq : res = addr := by
            rw [← hres, hexact, fixMmapAddr_fixed hfixed hfix]
          rw [heq] at hfirst hlast ⊢
          exact allAppMem_of_not_straddles hsz hfirst hlast hstraddles

/-- Any other request. -/
theorem confined_hint_iff (hm : Gapped m) (hsz : sz ≠ 0) (hfixed : ¬flags &&& mapFixed ≠ 0) :
    Confined m realMmap addr sz flags ↔
      ∀ hint ∈ fixMmapAddr m addr sz flags, ¬Straddles m (realMmap hint) sz := by
  constructor
  · intro h hint hfix hstraddles
    have happ := hstraddles
    obtain ⟨r, r', hr, hr', -⟩ := happ
    refine (h.mapped (realMmap hint) ?_).not_straddles hm hsz hstraddles
    have hfirst := (m.isAppMem_iff _).mpr ⟨r, hr⟩
    refine (mmapInterceptor_of_fix hfix).mpr
      ⟨rfl, ?_, hfirst, (m.isAppMem_iff _).mpr ⟨r', hr'⟩⟩
    intro hfailed
    rw [hfailed, inRegion_toNat_iff] at hr
    have hlast : mapFailed.toNat = 2 ^ 64 - 1 := by decide
    have hend := (m.memEnd r).isLt
    omega
  · intro h
    refine ⟨fun hfixed' => absurd hfixed' hfixed, ?_⟩
    intro res hres
    cases hfix : fixMmapAddr m addr sz flags with
    | none =>
        rw [mmapInterceptor_eq_einval_iff.mpr hfix] at hres
        cases hres
    | some hint =>
        obtain ⟨hres, -, hfirst, hlast⟩ := (mmapInterceptor_of_fix hfix).mp hres
        have hstraddles := h hint hfix
        rw [hres] at hstraddles
        exact allAppMem_of_not_straddles hsz hfirst hlast hstraddles

end Requests

/-- On every platform and for every request, no mapping of the program covers metadata, if and only
if neither a fixed request nor the answer of the kernel straddles two regions. -/
theorem confined_iff_keepsToRegion : ∀ m ∈ platforms, ∀ (realMmap : Uptr → Uptr) (addr sz : Uptr)
    (flags : BitVec 32), sz ≠ 0 → Consistent realMmap sz flags →
      (Confined m realMmap addr sz flags ↔ KeepsToRegion m realMmap addr sz flags) := by
  intro m hm realMmap addr sz flags hsz hkernel
  have hgapped := platforms_gapped m hm
  rw [KeepsToRegion]
  split_ifs with hfixed
  · exact confined_fixed_iff hgapped hsz hfixed hkernel
  · exact confined_hint_iff hgapped hsz hfixed

/-! ## A request that starts and ends in application memory -/

/-- The kernel maps where it is asked to. -/
def obedient : Uptr → Uptr := id

/-- From the low region to the region of the executable, over the shadow memory between them. -/
theorem lowToMid_unconfined :
    Consistent obedient 0x550000000000 0x32 ∧
      mmapInterceptor mappingX64_48 obedient 0xf000000000 0x550000000000 0x32 =
          .mapped 0xf000000000 ∧
        mappingX64_48.isAppMem 0x1a0000000000 = false ∧
          ¬Confined mappingX64_48 obedient 0xf000000000 0x550000000000 0x32 := by
  refine ⟨fun addr => Or.inr rfl, by decide, by decide, ?_⟩
  intro h
  have hgap := h.mapped 0xf000000000 (by decide) 0x1a0000000000 (by decide) (by decide)
  exact absurd hgap.2 (by decide)

theorem confined_iff_keepsToRegion_page :
    Confined mappingX64_48 obedient 0x620000000000 0x1000 0x32 ↔
      KeepsToRegion mappingX64_48 obedient 0x620000000000 0x1000 0x32 :=
  confined_iff_keepsToRegion mappingX64_48 List.mem_cons_self obedient _ _ _ (by decide)
    fun addr => Or.inr rfl

end Mair.Interceptor
