import Mathlib.Algebra.Order.Ring.Abs
import Mathlib.Data.List.GetD
import Mathlib.Data.Fintype.Basic
import Mathlib.Tactic.FinCases
import Mair.LoopCheck.Periodic
import Mair.LoopCheck.Visits

/-! # What combining a check preserves

The check behind a loop covers exactly what a visit of the loop accessed when the access runs in
the iterations that the check counts. The paths of the loop decide whether it always does. -/

namespace Mair.LoopCheck

open Ir Platform

variable {β : Type*} [DecidableEq β] {f : Function β} {a : Analyses f} {rangeAccessOnly : Bool}
  {c : CombinedCheck f} {latch exiting exit : β}

/-! ## Counted iterations -/

/-- The number of values of the counter that the check covers. -/
def CombinedCheck.covered (c : CombinedCheck f) (v : Visit f c.loop) : ℕ :=
  min (countedIterations c.beforeExiting v.backedgesTaken) (2 ^ c.counterBits)

/-- The access is executed at exactly the values of the counter that the check covers, and not
behind the loop. -/
structure RunsAsCounted (c : CombinedCheck f) (v : Visit f c.loop) : Prop where
  iterations : ∀ j, (∃ i ∈ v.iterations c.mop.block, i % 2 ^ c.counterBits = j) ↔ j < c.covered v
  outside : c.mop.block ∉ v.after ++ [v.stop]

/-- The paths of the loop from the header to the latch execute the access, and those to the
exiting block do not when the count leaves the last iteration out. -/
structure CountedOnPaths (c : CombinedCheck f) (latch exiting : β) : Prop where
  looping : ∀ p, f.PathFrom c.loop.header p latch → (∀ b ∈ p, b ∈ c.loop.blocks) →
    c.mop.block ∈ p ++ [latch]
  leaving : c.beforeExiting = false → ∀ p, f.PathFrom c.loop.header p exiting →
    (∀ b ∈ p, b ∈ c.loop.blocks) → c.loop.header ∉ (p ++ [exiting]).tail →
      c.mop.block ∉ p ++ [exiting]

section Paths

omit [DecidableEq β] in
/-- The header is reached through blocks outside the loop. -/
theorem Loop.exists_approach (l : Loop f) :
    ∃ p, f.PathFrom f.entry p l.header ∧ ∀ b ∈ p, b ∉ l.blocks := by
  obtain ⟨p, hp⟩ := l.reachable l.header l.header_mem
  obtain ⟨q, b, hq, hb, hout⟩ := hp.exists_first_in (s := {b | b ∈ l.blocks}) l.header_mem
  refine ⟨q, ?_, hout⟩
  cases q using List.reverseRecOn with
  | nil =>
      rw [Path.nil_iff] at hq
      subst hq
      exact absurd hb l.entry_notMem
  | append_singleton q y =>
      have hy := hout y (by simp)
      have hb := l.header_of_enter y b (Path.snoc_iff.mp hq).2 hy hb
      rwa [hb] at hq

omit [DecidableEq β] in
/-- A block of the loop is reached from the header within one iteration. -/
theorem Loop.exists_within (l : Loop f) {b : β} (hb : b ∈ l.blocks) :
    ∃ p, f.PathFrom l.header p b ∧ (∀ x ∈ p, x ∈ l.blocks) ∧ l.header ∉ (p ++ [b]).tail := by
  obtain ⟨p, hp⟩ := l.reachable b hb
  obtain ⟨y, x, q, hyx, hy, hx, hq, hin⟩ :=
    hp.exists_last_in (s := {b | b ∈ l.blocks}) l.entry_notMem hb
  obtain rfl := l.header_of_enter y x hyx hy hx
  obtain ⟨r, hr, hnot, hsub⟩ := hq.exists_last_source
  exact ⟨r, hr, fun x hx => hin x (hsub hx), hnot⟩

theorem CountedOnPaths.mem_blocks (hc : c.Valid a latch exiting exit)
    (hpaths : CountedOnPaths c latch exiting) : c.mop.block ∈ c.loop.blocks := by
  have hlatch := (latch_spec hc.latch_eq).1
  obtain ⟨p, hp, hin, -⟩ := c.loop.exists_within hlatch
  rcases List.mem_append.mp (hpaths.looping p hp hin) with h | h
  · exact hin _ h
  · rwa [List.mem_singleton.mp h]

/-- In every visit the access runs in the counted iterations. -/
theorem mem_iterations_iff_of_paths (hc : c.Valid a latch exiting exit)
    (hpaths : CountedOnPaths c latch exiting) (v : Visit f c.loop) (i : ℕ) :
    i ∈ v.iterations c.mop.block ↔ i < countedIterations c.beforeExiting v.backedgesTaken := by
  by_cases hi : i ≤ v.backedgesTaken
  · obtain ⟨seg, next, hseg, hin, hpath, hnext, hmem⟩ := v.exists_iteration hi
    have hall : ∀ b ∈ c.loop.header :: seg, b ∈ c.loop.blocks := by
      intro b hb
      rcases List.mem_cons.mp hb with rfl | hb
      · exact c.loop.header_mem
      · exact hin b hb
    rw [hmem]
    obtain ⟨p, x, hsplit⟩ : ∃ p x, c.loop.header :: seg = p ++ [x] :=
      ⟨_, _, (List.dropLast_append_getLast (List.cons_ne_nil c.loop.header seg)).symm⟩
    have hsource : f.PathFrom c.loop.header p x ∧ next ∈ f.succs x := by
      rw [hsplit] at hpath
      exact Path.snoc_iff.mp hpath
    have hp : ∀ b ∈ p, b ∈ c.loop.blocks := by
      intro b hb
      exact hall b (by rw [hsplit]; exact List.mem_append_left _ hb)
    have hx : x ∈ c.loop.blocks := hall x (by rw [hsplit]; simp)
    rcases hnext with ⟨hlt, rfl⟩ | ⟨rfl, rfl⟩
    · obtain rfl := eq_latch_of_back hc.latch_eq hx hsource.2
      have hrun := hpaths.looping p hsource.1 hp
      rw [← hsplit] at hrun
      refine iff_of_true hrun ?_
      unfold countedIterations
      split <;> omega
    · obtain rfl := eq_exiting_of_leave hc.exiting_eq hx v.exitTo_notMem hsource.2
      cases hbefore : c.beforeExiting with
      | false =>
          have htail : c.loop.header ∉ (p ++ [x]).tail := by
            rw [← hsplit]
            exact hseg
          have hnot := hpaths.leaving hbefore p hsource.1 hp htail
          rw [← hsplit] at hnot
          exact iff_of_false hnot (by simp [countedIterations])
      | true =>
          have hdom := (a.dt.dominates_iff _ _).mp (hc.beforeExiting_eq ▸ hbefore)
          obtain ⟨r, hr, hout⟩ := c.loop.exists_approach
          have hmem' := hdom (r ++ p) (hr.append hsource.1)
          have hblock := hpaths.mem_blocks hc
          rw [List.append_assoc, List.mem_append, ← hsplit] at hmem'
          refine iff_of_true (hmem'.resolve_left fun h => hout _ h hblock) ?_
          simp [countedIterations]
  · refine iff_of_false (fun hmem => hi (v.le_backedgesTaken hmem)) ?_
    unfold countedIterations
    split <;> omega

theorem runsAsCounted_of_paths (hc : c.Valid a latch exiting exit)
    (hpaths : CountedOnPaths c latch exiting) (v : Visit f c.loop) : RunsAsCounted c v where
  iterations j := by
    rw [CombinedCheck.covered, lt_min_iff]
    constructor
    · intro hj
      obtain ⟨i, hi, rfl⟩ := hj
      have hlt := (mem_iterations_iff_of_paths hc hpaths v i).mp hi
      exact ⟨(Nat.mod_le i _).trans_lt hlt, Nat.mod_lt i (Nat.two_pow_pos _)⟩
    · intro hj
      exact ⟨j, (mem_iterations_iff_of_paths hc hpaths v j).mpr hj.1, Nat.mod_eq_of_lt hj.2⟩
  outside hmem := v.outside _ hmem (hpaths.mem_blocks hc)

/-- A path of the loop to the exiting block is the body of a visit. -/
theorem exists_visit (hc : c.Valid a latch exiting exit) {p : List β}
    (hp : f.PathFrom c.loop.header p exiting) (hin : ∀ b ∈ p, b ∈ c.loop.blocks) :
    ∃ v : Visit f c.loop, v.body = p ++ [exiting] := by
  obtain ⟨hexiting, hexit, hedge⟩ := exit_spec hc.exiting_eq hc.exit_eq
  obtain ⟨before, hbefore, hout⟩ := c.loop.exists_approach
  refine ⟨⟨before, p ++ [exiting], [], exit, ?_, by simp, ?_, ?_, ?_⟩, rfl⟩
  · rw [List.append_nil]
    exact hbefore.append (hp.snoc hedge)
  · intro b hb
    rcases List.mem_append.mp hb with hb | hb
    · exact hin b hb
    · rwa [List.mem_singleton.mp hb]
  · intro b hb
    exact hout b (List.mem_of_getLast? hb)
  · intro b hb
    rwa [List.mem_singleton.mp hb]

omit [DecidableEq β] in
theorem head_eq_of_path {x y : β} {p : List β} (hp : f.PathFrom x p y) :
    ∃ t, p ++ [y] = x :: t := by
  cases p with
  | nil =>
      obtain rfl := Path.nil_iff.mp hp
      exact ⟨[], rfl⟩
  | cons z p =>
      obtain ⟨rfl, -⟩ := Path.cons_iff.mp hp
      exact ⟨p ++ [y], rfl⟩

/-- The access runs as counted in every visit exactly when it does so on the paths of the
loop. -/
theorem runsAsCounted_iff (hc : c.Valid a latch exiting exit) :
    (∀ v : Visit f c.loop, RunsAsCounted c v) ↔ CountedOnPaths c latch exiting := by
  refine ⟨?_, fun hpaths v => runsAsCounted_of_paths hc hpaths v⟩
  intro hall
  have hexiting := (exit_spec hc.exiting_eq hc.exit_eq).1
  obtain ⟨hlatch, hback⟩ := latch_spec hc.latch_eq
  have hpow : 1 < 2 ^ c.counterBits := Nat.one_lt_two_pow hc.counterBits.ne'
  constructor
  · intro p hp hin
    by_contra hnot
    obtain ⟨p, hp, hhead, hsub⟩ := hp.exists_last_source
    obtain ⟨q, hq, hin', hhead'⟩ := c.loop.exists_within hexiting
    obtain ⟨s, hs⟩ := head_eq_of_path hp
    obtain ⟨t, ht⟩ := head_eq_of_path hq
    rw [hs, List.tail_cons] at hhead
    rw [ht, List.tail_cons] at hhead'
    obtain ⟨v, hbody⟩ := exists_visit hc ((hp.snoc hback).append hq) (by
      intro b hb
      rcases List.mem_append.mp hb with hb | hb
      · rcases List.mem_append.mp hb with hb | hb
        · exact hin b (hsub hb)
        · rwa [List.mem_singleton.mp hb]
      · exact hin' b hb)
    rw [hs, List.append_assoc, ht] at hbody
    have hcount := v.count_body
    rw [hbody, List.count_append, List.count_cons_self, List.count_cons_self,
      List.count_eq_zero_of_not_mem hhead, List.count_eq_zero_of_not_mem hhead'] at hcount
    have hcovered : 0 < c.covered v := by
      rw [CombinedCheck.covered, lt_min_iff, countedIterations]
      split <;> omega
    obtain ⟨i, hi, hzero⟩ := ((hall v).iterations 0).mpr hcovered
    have hle := v.le_backedgesTaken hi
    have hfirst : 0 ∉ v.iterations c.mop.block := by
      intro hmem
      rw [v.mem_iterations_iff, hbody] at hmem
      have hround := (Rounds.mem_round_iff (p := []) hhead (by simp)).mp hmem
      rw [← hs] at hround
      apply hnot
      rcases List.mem_append.mp hround with h | h
      · exact List.mem_append_left _ (hsub h)
      · exact List.mem_append_right _ h
    have hone : i = 1 := by
      have hne : i ≠ 0 := fun h => hfirst (h ▸ hi)
      omega
    rw [hone, Nat.mod_eq_of_lt hpow] at hzero
    cases hzero
  · intro hbefore p hp hin hhead hmem
    obtain ⟨v, hbody⟩ := exists_visit hc hp hin
    obtain ⟨t, ht⟩ := head_eq_of_path hp
    rw [ht, List.tail_cons] at hhead
    have hcount := v.count_body
    rw [hbody, ht, List.count_cons_self, List.count_eq_zero_of_not_mem hhead] at hcount
    have hcovered : c.covered v = 0 := by
      rw [CombinedCheck.covered, countedIterations, hbefore]
      simp
      omega
    have hnonempty : v.iterations c.mop.block ≠ [] := by
      intro hnil
      apply v.iterations_eq_nil_iff.mp hnil
      rwa [hbody]
    obtain ⟨i, hi⟩ := List.exists_mem_of_ne_nil _ hnonempty
    have hlt := ((hall v).iterations _).mp ⟨i, hi, rfl⟩
    rw [hcovered] at hlt
    omega

end Paths

/-! ## Executions and their checks -/

/-- A visit with the values that the recurrence of the address has in it. -/
structure Execution (c : CombinedCheck f) extends Visit f c.loop where
  start : Uptr
  step : Uptr
  const : ∀ x, c.constStep = some x → step = x

namespace Execution

variable (e : Execution c)

/-- The address at a value of the counter. -/
def addr (j : ℕ) : ℤ := addrAt e.start e.step j

/-- The values of the counter at which the visit executes the access, in order. -/
def counters : List ℕ := (e.iterations c.mop.block).map fun i => i % 2 ^ c.counterBits

/-- The call that control comes by when it leaves the loop. -/
def executedCall : Option CheckCall :=
  if c.site.hit e.last e.exitTo then
    some (combinePeriodicCheck c.constStep.isSome e.start e.step
      (c.counting.iterCounter c.counterBits c.beforeExiting e.backedgesTaken) c.mop.mopSize)
  else none

end Execution

def runCall (m : Mapping) (mopSize fuel : ℕ) : Option CheckCall → Option (List Check)
  | none => some []
  | some call => call.run m mopSize fuel

/-- The checks cover exactly the accesses of `size` bytes at the listed addresses. -/
def ExactFor (addrs : List ℤ) (size : ℕ) (checks : List Check) : Prop :=
  Exact (fun k => addrs.getD k 0) addrs.length size checks

/-- One of the checks covers the access. -/
def Covers (addr : ℤ) (size : ℕ) (checks : List Check) : Prop :=
  ∃ check ∈ checks, match check with
    | .range beg len => (beg.toNat : ℤ) ≤ addr ∧ addr + size ≤ beg.toNat + len.toNat
    | .access x => (x.toNat : ℤ) = addr

/-- The checks behind the loop cover exactly what the visit accessed, and an access behind the
loop, at the last address, is covered as well. -/
def Preserved (m : Mapping) (size : ℕ) (e : Execution c) : Prop :=
  ∃ fuel checks, runCall m c.mop.mopSize fuel e.executedCall = some checks ∧
    ExactFor (e.counters.map e.addr) size checks ∧
    (c.mop.block ∈ e.after ++ [e.stop] →
      Covers (e.addr (e.backedgesTaken % 2 ^ c.counterBits)) size checks)

/-- The access has the size that is checked, the counter does not overflow, no address wraps,
and the step can be checked. -/
structure Regular (m : Mapping) (size : ℕ) (e : Execution c) : Prop where
  size_eq : size = c.mop.mopSize
  fits : c.counting.Fits c.counterBits c.beforeExiting e.backedgesTaken
  step_ne : e.step.toInt ≠ 0
  noWrap : ∀ j, j < c.covered e.toVisit ∨ j ∈ e.counters → 0 ≤ e.addr j ∧ e.addr j + size < 2 ^ 64
  checkable : 1 ≤ c.covered e.toVisit →
    Checkable m e.start e.step (c.covered e.toVisit) size

/-! ## Exactness over a list of accesses -/

section Exactness

omit [DecidableEq β]

variable {addr : ℕ → ℤ} {n s : ℕ} {counters : List ℕ} {checks : List Check}

theorem exists_getD_iff {addrs : List ℤ} {P : ℤ → Prop} :
    (∃ i < addrs.length, P (addrs.getD i 0)) ↔ ∃ x ∈ addrs, P x := by
  constructor
  · intro h
    obtain ⟨i, hi, hP⟩ := h
    rw [List.getD_eq_getElem _ _ hi] at hP
    exact ⟨addrs[i], List.getElem_mem hi, hP⟩
  · intro h
    obtain ⟨x, hx, hP⟩ := h
    obtain ⟨i, hi, rfl⟩ := List.getElem_of_mem hx
    exact ⟨i, hi, by rwa [List.getD_eq_getElem _ _ hi]⟩

theorem exists_counter_iff {P : ℤ → Prop} :
    (∃ i < (counters.map addr).length, P ((counters.map addr).getD i 0)) ↔
      ∃ j ∈ counters, P (addr j) := by
  rw [exists_getD_iff]
  simp

/-- The accesses at the counters below the count are those of the loop. -/
theorem exactFor_iff_of_counters (h : ∀ j, j ∈ counters ↔ j < n) :
    ExactFor (counters.map addr) s checks ↔ Exact addr n s checks := by
  have hset : ∀ P : ℤ → Prop,
      (∃ i < (counters.map addr).length, P ((counters.map addr).getD i 0)) ↔
        ∃ i < n, P (addr i) := by
    intro P
    rw [exists_counter_iff]
    simp only [h]
  constructor
  · intro hexact
    cases hexact with
    | range hbytes => exact .range fun b => (hbytes b).trans (hset fun x => x ≤ b ∧ b < x + s)
    | accesses haddrs => exact .accesses fun x => (haddrs x).trans (hset fun y => (x.toNat : ℤ) = y)
  · intro hexact
    cases hexact with
    | range hbytes =>
        exact .range fun b => (hbytes b).trans (hset fun x => x ≤ b ∧ b < x + s).symm
    | accesses haddrs =>
        exact .accesses fun x => (haddrs x).trans (hset fun y => (x.toNat : ℤ) = y).symm

theorem exactFor_nil_iff (hs : 0 < s) (hrange : ∀ j ∈ counters, 0 ≤ addr j ∧ addr j + s < 2 ^ 64) :
    ExactFor (counters.map addr) s [] ↔ counters = [] := by
  constructor
  · intro hexact
    refine List.eq_nil_iff_forall_not_mem.mpr ?_
    intro j hj
    obtain ⟨h0, h1⟩ := hrange j hj
    have hmem := (@exact_accesses_iff _ _ _ []).mp hexact (BitVec.ofNat 64 (addr j).toNat)
    have hval : ((BitVec.ofNat 64 (addr j).toNat).toNat : ℤ) = addr j := by
      rw [BitVec.toNat_ofNat, Nat.mod_eq_of_lt (by omega)]
      omega
    exact absurd (hmem.mpr (exists_counter_iff.mpr ⟨j, hj, hval⟩)) List.not_mem_nil
  · intro hnil
    subst hnil
    exact @Exact.accesses _ _ _ [] (by simp)

section Strides

variable {start step : Uptr}

theorem eq_of_addrAt_eq (hstep : step.toInt ≠ 0) {i j : ℕ}
    (h : addrAt start step i = addrAt start step j) : i = j := by
  rw [addrAt, addrAt, add_right_inj] at h
  exact_mod_cast mul_right_cancel₀ hstep h

/-- Accesses one stride apart do not overlap. -/
theorem eq_of_addrAt_near (hstride : step.toInt.natAbs = s) {i j : ℕ}
    (hle : addrAt start step i ≤ addrAt start step j)
    (hlt : addrAt start step j < addrAt start step i + s) : i = j := by
  have habs : |step.toInt| = s := by rw [Int.abs_eq_natAbs, hstride]
  have hdiff : addrAt start step j - addrAt start step i = ((j : ℤ) - i) * step.toInt := by
    unfold addrAt
    ring
  have hmul : |(j : ℤ) - i| * |step.toInt| < 1 * |step.toInt| := by
    rw [← abs_mul, ← hdiff, abs_of_nonneg (by omega), habs, one_mul]
    omega
  have hlt := Int.abs_lt_one_iff.mp (lt_of_mul_lt_mul_right hmul (abs_nonneg _))
  omega

/-- Checks that cover two sets of iterations exactly tell that the sets are equal. -/
theorem mem_counters_iff_of_exact (hs : 0 < s) (hstep : step.toInt ≠ 0)
    (hrange : ∀ j, j < n ∨ j ∈ counters →
      0 ≤ addrAt start step j ∧ addrAt start step j + s < 2 ^ 64)
    (hstride : ∀ lo size, .range lo size ∈ checks → step.toInt.natAbs = s)
    (hexact : Exact (addrAt start step) n s checks)
    (hcounters : ExactFor (counters.map (addrAt start step)) s checks) (j : ℕ) :
    j ∈ counters ↔ j < n := by
  cases hexact with
  | @range beg size hbytes =>
      have habs := hstride beg size List.mem_cons_self
      have hbytes' := exact_range_iff.mp hcounters
      have hsame : ∀ b : ℕ,
          (∃ i < n, addrAt start step i ≤ b ∧ b < addrAt start step i + s) ↔
            ∃ i ∈ counters, addrAt start step i ≤ b ∧ b < addrAt start step i + s := by
        intro b
        rw [← hbytes, hbytes']
        exact exists_counter_iff (P := fun x => x ≤ b ∧ b < x + s)
      constructor
      · intro hj
        obtain ⟨h0, h1⟩ := hrange j (Or.inr hj)
        have hcast : ((addrAt start step j).toNat : ℤ) = addrAt start step j := Int.toNat_of_nonneg h0
        obtain ⟨i, hi, hle, hlt⟩ := (hsame (addrAt start step j).toNat).mpr
          ⟨j, hj, by omega, by omega⟩
        rw [hcast] at hle hlt
        rwa [← eq_of_addrAt_near habs hle hlt]
      · intro hj
        obtain ⟨h0, h1⟩ := hrange j (Or.inl hj)
        have hcast : ((addrAt start step j).toNat : ℤ) = addrAt start step j := Int.toNat_of_nonneg h0
        obtain ⟨i, hi, hle, hlt⟩ := (hsame (addrAt start step j).toNat).mp
          ⟨j, hj, by omega, by omega⟩
        rw [hcast] at hle hlt
        rwa [← eq_of_addrAt_near habs hle hlt]
  | @accesses addrs haddrs =>
      have haddrs' := exact_accesses_iff.mp hcounters
      have hsame : ∀ x : Uptr, (∃ i < n, (x.toNat : ℤ) = addrAt start step i) ↔
          ∃ i ∈ counters, (x.toNat : ℤ) = addrAt start step i := by
        intro x
        rw [← haddrs, haddrs']
        exact exists_counter_iff (P := fun y => (x.toNat : ℤ) = y)
      have hval : ∀ j, j < n ∨ j ∈ counters →
          ((BitVec.ofNat 64 (addrAt start step j).toNat).toNat : ℤ) = addrAt start step j := by
        intro j hj
        obtain ⟨h0, h1⟩ := hrange j hj
        rw [BitVec.toNat_ofNat, Nat.mod_eq_of_lt (by omega)]
        omega
      constructor
      · intro hj
        obtain ⟨i, hi, heq⟩ := (hsame _).mpr ⟨j, hj, hval j (Or.inr hj)⟩
        rw [hval j (Or.inr hj)] at heq
        rwa [eq_of_addrAt_eq hstep heq]
      · intro hj
        obtain ⟨i, hi, heq⟩ := (hsame _).mp ⟨j, hj, hval j (Or.inl hj)⟩
        rw [hval j (Or.inl hj)] at heq
        rwa [eq_of_addrAt_eq hstep heq]

end Strides

end Exactness

/-! ## The combined check -/

section Combined

variable {m : Mapping} {size : ℕ} {e : Execution c}

/-- A visit always comes by the check on its way out. -/
theorem executedCall_eq (hc : c.Valid a latch exiting exit) (hreg : Regular m size e) :
    e.executedCall = some (combinePeriodicCheck c.constStep.isSome e.start e.step
      (BitVec.ofNat 64 (c.covered e.toVisit)) c.mop.mopSize) := by
  have hhit : c.site.hit e.last e.exitTo = true := by
    rw [hc.site_eq, hit_iff hc.exiting_eq hc.exit_eq e.exitTo_mem_succs]
    exact ⟨e.last_mem, e.exitTo_notMem⟩
  rw [Execution.executedCall, if_pos hhit, iterCounter_eq hreg.fits, CombinedCheck.covered]

theorem runsAsCounted_iff_counters : RunsAsCounted c e.toVisit ↔
    (∀ j, j ∈ e.counters ↔ j < c.covered e.toVisit) ∧ c.mop.block ∉ e.after ++ [e.stop] := by
  have hmem : ∀ j, j ∈ e.counters ↔
      ∃ i ∈ e.iterations c.mop.block, i % 2 ^ c.counterBits = j := by
    intro j
    rw [Execution.counters, List.mem_map]
  simp only [hmem]
  constructor
  · intro h
    exact ⟨h.iterations, h.outside⟩
  · intro h
    exact ⟨h.1, h.2⟩

/-- An access behind the loop is not executed in the loop. -/
theorem counters_eq_nil_of_outside (h : c.mop.block ∈ e.after ++ [e.stop]) : e.counters = [] := by
  have hbody : c.mop.block ∉ e.body := fun hmem => e.outside _ h (e.inside _ hmem)
  rw [Execution.counters, e.iterations_eq_nil_iff.mpr hbody, List.map_nil]

theorem mopSize_mem (hc : c.Valid a latch exiting exit) : c.mop.mopSize ∈ [1, 2, 4, 8, 16] := by
  obtain ⟨parent, latch', -, -, -, hvalid⟩ := mem_collectLoopMopCandidates hc.mop
  exact hvalid.size

theorem preserved_iff (hc : c.Valid a latch exiting exit) (hreg : Regular m size e) :
    Preserved m size e ↔ RunsAsCounted c e.toVisit := by
  obtain ⟨rfl, hfits, hstep, hwrap, hcheckable⟩ := hreg
  have hsize := mopSize_mem hc
  have hsmall : 0 < c.mop.mopSize ∧ c.mop.mopSize < 2 ^ 63 := by
    simp only [List.mem_cons, List.not_mem_nil, or_false] at hsize
    omega
  rw [Preserved, executedCall_eq hc ⟨rfl, hfits, hstep, hwrap, hcheckable⟩,
    runsAsCounted_iff_counters]
  cases hn : c.covered e.toVisit with
  | zero =>
      simp only [runCall, run_combine_zero, Option.some.injEq, Nat.not_lt_zero, iff_false]
      rw [hn] at hwrap
      have hnil := exactFor_nil_iff hsmall.1 fun j hj => hwrap j (Or.inr hj)
      constructor
      · intro h
        obtain ⟨-, checks, rfl, hexact, hout⟩ := h
        refine ⟨List.eq_nil_iff_forall_not_mem.mp (hnil.mp hexact), ?_⟩
        intro hmem
        obtain ⟨check, hcheck, -⟩ := hout hmem
        cases hcheck
      · intro h
        refine ⟨0, [], rfl, hnil.mpr (List.eq_nil_iff_forall_not_mem.mpr h.1), ?_⟩
        intro hmem
        exact absurd hmem h.2
  | succ n =>
      rw [hn] at hwrap hcheckable
      have hnoWrap : NoWrap e.start e.step (n + 1) c.mop.mopSize :=
        fun j hj => hwrap j (Or.inl hj)
      obtain ⟨fuel, checks, hrun, hexact⟩ :=
        (@covers_iff m c.constStep.isSome _ _ _ _ (Nat.succ_pos n) hsize hnoWrap).mpr
          (hcheckable (Nat.succ_pos n))
      constructor
      · intro h
        obtain ⟨fuel', checks', hrun', hcounters, hout⟩ := h
        obtain rfl := CheckCall.run_unique hrun hrun'
        have hmem := mem_counters_iff_of_exact hsmall.1 hstep hwrap
          (fun lo len hrange => natAbs_of_mem_run hsmall.2 hrun hrange) hexact hcounters
        refine ⟨hmem, ?_⟩
        intro hafter
        have hzero := (hmem 0).mpr (Nat.succ_pos n)
        rw [counters_eq_nil_of_outside hafter] at hzero
        cases hzero
      · intro h
        refine ⟨fuel, checks, hrun, (exactFor_iff_of_counters h.1).mpr hexact, ?_⟩
        intro hmem
        exact absurd hmem h.2

end Combined

/-! ## An inner loop that may run zero times

The access of block 3 dominates the latch of the inner loop, and its address is a recurrence of
the outer loop. -/

section Nested

def nestedSuccs : Fin 6 → List (Fin 6)
  | 0 => [1]
  | 1 => [2, 5]
  | 2 => [3, 4]
  | 3 => [2]
  | 4 => [1]
  | 5 => []

def nested : Function (Fin 6) where
  blocks := [0, 1, 2, 3, 4, 5]
  entry := 0
  insts b := if b = 3 then [plainLoad 0] else []
  succs := nestedSuccs
  complete := by decide
  nodup := by decide
  parent b b' inst h h' := by
    split at h
    · next hb =>
        split at h'
        · next hb' => rw [hb, hb']
        · cases h'
    · cases h

theorem nested_reachable (b : Fin 6) : nested.ReachableBlock b := by
  have h0 : nested.PathFrom 0 [] 0 := .nil
  have h1 : nested.PathFrom 0 [0] 1 := h0.snoc (by decide)
  have h2 : nested.PathFrom 0 [0, 1] 2 := h1.snoc (by decide)
  have h3 : nested.PathFrom 0 [0, 1, 2] 3 := h2.snoc (by decide)
  have h4 : nested.PathFrom 0 [0, 1, 2] 4 := h2.snoc (by decide)
  have h5 : nested.PathFrom 0 [0, 1] 5 := h1.snoc (by decide)
  fin_cases b
  · exact ⟨_, h0⟩
  · exact ⟨_, h1⟩
  · exact ⟨_, h2⟩
  · exact ⟨_, h3⟩
  · exact ⟨_, h4⟩
  · exact ⟨_, h5⟩

def innerLoop : Loop nested where
  header := 2
  blocks := [2, 3]
  header_mem := by decide
  nodup := by decide
  entry_notMem := by decide
  reachable b _ := nested_reachable b
  header_of_enter := by decide

def outerLoop : Loop nested where
  header := 1
  blocks := [1, 2, 3, 4]
  header_mem := by decide
  nodup := by decide
  entry_notMem := by decide
  reachable b _ := nested_reachable b
  header_of_enter := by decide

def nestedAnalyses : Analyses nested where
  getLoopFor b :=
    if b = 2 ∨ b = 3 then some innerLoop else if b = 1 ∨ b = 4 then some outerLoop else none
  dt := dominatorTree nested
  address _ := 0
  sizeInBits _ := 64
  shouldInstrument _ := true
  scev _ := .addRec ⟨outerLoop, true, some 8, true⟩
  backedgeTakenBits _ := some 64
  phis _ := []

def nestedCheck : CombinedCheck nested where
  mop := ⟨plainLoad 0, 3, 0, 8, [], false, false⟩
  loop := outerLoop
  constStep := some 8
  counterBits := 64
  counting := .backedgeTaken 64
  beforeExiting := false
  site := .block 5

theorem nestedCheck_mem : nestedCheck ∈ combinePeriodicChecks nestedAnalyses false := by
  have h : combinePeriodicChecks nestedAnalyses false = [nestedCheck] := rfl
  rw [h]
  exact List.mem_cons_self

/-- Two rounds of the outer loop, the first without a round of the inner one. -/
def zeroTrips : Execution nestedCheck where
  before := [0]
  body := [1, 2, 4, 1]
  after := []
  stop := 5
  path := by
    have h1 : nested.PathFrom 0 [0] 1 := Path.nil.snoc (by decide)
    have h2 : nested.PathFrom 0 [0, 1] 2 := h1.snoc (by decide)
    have h4 : nested.PathFrom 0 [0, 1, 2] 4 := h2.snoc (by decide)
    have h1' : nested.PathFrom 0 [0, 1, 2, 4] 1 := h4.snoc (by decide)
    exact h1'.snoc (by decide)
  body_ne := by decide
  inside := by decide
  entered := by decide
  outside := by decide
  start := 0x7a0000001000
  step := 8
  const x h := (Option.some.inj h)

theorem regular_zeroTrips :
    Regular mappingX64_48 (nestedAnalyses.sizeInBits (plainLoad 0) / 8) zeroTrips := by
  have hcovered : nestedCheck.covered zeroTrips.toVisit = 1 := by decide
  have hcounters : zeroTrips.counters = [] := by decide
  refine ⟨rfl, ⟨by decide, by decide, by decide⟩, by decide, ?_, ?_⟩
  · intro j hj
    rw [hcovered, hcounters] at hj
    obtain rfl : j = 0 := by simpa using hj
    have haddr : zeroTrips.addr 0 = 0x7a0000001000 := by decide
    rw [haddr]
    decide
  · intro _
    rw [hcovered]
    exact ⟨by decide, by decide, by decide, by decide⟩

end Nested

end Mair.LoopCheck
