import Mair.RaceDetector.Shadow

/-! # What the scalar check does

A check reports an access that the cell remembers and that races with the current one; if there
is none it leaves the current access in the cell. -/

namespace Mair.RaceDetector

open Function

/-- The remembered access overlaps the current one, at least one of the two writes and one is not
atomic, and the clock of the current thread has not reached it. -/
def Races (clock : Sid → ℕ) (cur : Shadow) (typ : AccessType) (old : Shadow) : Prop :=
  cur.access &&& old.access ≠ 0#8 ∧ cur.sid ≠ old.sid ∧ old.isBothReadsOrAtomic typ = false ∧
    clock old.sid < old.epoch

instance (clock : Sid → ℕ) (cur : Shadow) (typ : AccessType) (old : Shadow) :
    Decidable (Races clock cur typ old) := by
  unfold Races
  infer_instance

/-- The values of a cell are filled from the front. -/
def NoGaps (cells : Cells) : Prop :=
  ∀ i j, i < j → cells i = Shadow.kEmpty → cells j = Shadow.kEmpty

/-- The marker of freed memory only stands in front. -/
def FreedInFront (cells : Cells) : Prop :=
  ∀ i, (cells i).sid = kFreeSid → i = firstIdx

/-- The access that a race with the value in place `i` is reported against. -/
def reported (cells : Cells) (i : Fin 4) : Shadow :=
  if (cells i).sid = kFreeSid then cells secondIdx else cells i

variable {clock : Sid → ℕ} {cur old : Shadow} {typ : AccessType} {tracePos : ℕ}
  {cells : Cells} {i : Fin 4}

theorem not_races_empty : ¬ Races clock cur typ Shadow.kEmpty := by
  intro h
  exact h.1 BitVec.and_zero

theorem NoGaps.update (h : NoGaps cells) (hcur : cur ≠ Shadow.kEmpty)
    (hi : cells i ≠ Shadow.kEmpty ∨ ∀ j, j < i → cells j ≠ Shadow.kEmpty) :
    NoGaps (update cells i cur) := by
  intro j k hjk hj
  rcases eq_or_ne j i with rfl | hji
  · rw [update_self] at hj
    exact absurd hj hcur
  · rw [update_of_ne hji] at hj
    rcases eq_or_ne k i with rfl | hki
    · rcases hi with hi | hi
      · exact absurd (h j k hjk hj) hi
      · exact absurd hj (hi j hjk)
    · rw [update_of_ne hki]
      exact h j k hjk hj

theorem noGaps_empty : NoGaps emptyCells := fun _ _ _ _ => rfl

theorem not_lt_firstIdx {j : Fin 4} : ¬ j < firstIdx := Nat.not_lt_zero _

theorem noGaps_cellsOf {v : Shadow} : NoGaps (cellsOf v) := by
  intro j k hjk _
  rw [cellsOf, update_of_ne]
  · rfl
  · rintro rfl
    exact not_lt_firstIdx hjk

theorem cellsOf_first {v : Shadow} : cellsOf v firstIdx = v := update_self ..

theorem cellsOf_of_ne {v : Shadow} (h : i ≠ firstIdx) : cellsOf v i = Shadow.kEmpty :=
  update_of_ne h ..

/-- What a check does to a cell. -/
structure Checked (clock : Sid → ℕ) (cur : Shadow) (typ : AccessType) (cells : Cells)
    (r : CheckResult) : Prop where
  races : ∀ old, r.report = some old → r.cells = cellsOf Shadow.kRodata ∧
    ∃ i, Races clock cur typ (cells i) ∧ (∀ j, j < i → ¬ Races clock cur typ (cells j)) ∧
      (FreedInFront cells → old = reported cells i)
  kept : r.report = none → ∀ i, r.cells i = cells i ∨ r.cells i = cur
  clean : r.report = none → NoGaps cells → ∀ i, ¬ Races clock cur typ (cells i)
  stored : r.report = none → typ.checkOnly = false → ∃ i, r.cells i = cur
  noGaps : cur ≠ Shadow.kEmpty → NoGaps cells → NoGaps r.cells

/-- The loop has still to look at `l`: the places before hold neither an empty value nor a race. -/
structure LoopInvariant (clock : Sid → ℕ) (cur : Shadow) (typ : AccessType) (start : Cells)
    (l : List (Fin 4)) (cells : Cells) (stored : Bool) : Prop where
  sorted : l.Pairwise (· < ·)
  cover : ∀ i j, i ∈ l → i < j → j ∈ l
  same : ∀ i ∈ l, cells i = start i
  kept : ∀ i, cells i = start i ∨ cells i = cur
  past : ∀ i, i ∉ l → cells i ≠ Shadow.kEmpty ∧ ¬ Races clock cur typ (start i)
  stored : stored = true → ∃ i, cells i = cur
  noGaps : cur ≠ Shadow.kEmpty → NoGaps start → NoGaps cells

section

variable {start : Cells} {idx : Fin 4} {rest : List (Fin 4)} {stored : Bool}

theorem kept_update (h : ∀ i, cells i = start i ∨ cells i = cur) (i : Fin 4) :
    update cells idx cur i = start i ∨ update cells idx cur i = cur := by
  rcases eq_or_ne i idx with rfl | hi
  · exact .inr (update_self ..)
  · rw [update_of_ne hi]
    exact h i

theorem LoopInvariant.checked_nil (h : LoopInvariant clock cur typ start [] cells stored) :
    Checked clock cur typ start (checkRacesLoop clock cur typ tracePos [] cells stored) := by
  have hnone (i : Fin 4) := h.past i List.not_mem_nil
  rw [checkRacesLoop]
  cases stored with
  | true =>
      exact ⟨by simp, fun _ => h.kept, fun _ _ i => (hnone i).2, fun _ _ => h.stored rfl, h.noGaps⟩
  | false =>
      refine ⟨by simp, fun _ => kept_update h.kept, fun _ _ i => (hnone i).2,
        fun _ _ => ⟨_, update_self ..⟩, fun hcur hstart => ?_⟩
      exact (h.noGaps hcur hstart).update hcur (.inl (hnone _).1)

theorem LoopInvariant.same_head
    (h : LoopInvariant clock cur typ start (idx :: rest) cells stored) : cells idx = start idx :=
  h.same idx List.mem_cons_self

theorem LoopInvariant.not_mem_of_lt
    (h : LoopInvariant clock cur typ start (idx :: rest) cells stored) {i : Fin 4} (hi : i < idx) :
    i ∉ idx :: rest := by
  intro hin
  rcases List.mem_cons.mp hin with rfl | hin
  · exact lt_irrefl _ hi
  · exact lt_asymm hi ((List.pairwise_cons.mp h.sorted).1 i hin)

theorem LoopInvariant.cover_tail
    (h : LoopInvariant clock cur typ start (idx :: rest) cells stored) (i j : Fin 4)
    (hi : i ∈ rest) (hij : i < j) : j ∈ rest := by
  have hj := h.cover i j (List.mem_cons_of_mem _ hi) hij
  rcases List.mem_cons.mp hj with rfl | hj
  · exact absurd hij (lt_asymm ((List.pairwise_cons.mp h.sorted).1 i hi))
  · exact hj

/-- The loop goes on after a value that is not empty and does not race. -/
theorem LoopInvariant.skip (h : LoopInvariant clock cur typ start (idx :: rest) cells stored)
    (hne : cells idx ≠ Shadow.kEmpty) (hrace : ¬ Races clock cur typ (cells idx)) :
    LoopInvariant clock cur typ start rest cells stored := by
  rw [h.same_head] at hrace
  refine ⟨(List.pairwise_cons.mp h.sorted).2, h.cover_tail,
    fun i hi => h.same i (List.mem_cons_of_mem _ hi), h.kept, fun i hi => ?_, h.stored, h.noGaps⟩
  rcases eq_or_ne i idx with rfl | hi'
  · exact ⟨hne, hrace⟩
  · exact h.past i (by simp [hi', hi])

/-- The current access takes the place of an earlier one of its slot. -/
theorem LoopInvariant.store (h : LoopInvariant clock cur typ start (idx :: rest) cells stored)
    (hne : cells idx ≠ Shadow.kEmpty) (hcur : cur ≠ Shadow.kEmpty)
    (hrace : ¬ Races clock cur typ (cells idx)) :
    LoopInvariant clock cur typ start rest (update cells idx cur) true := by
  have hskip := h.skip hne hrace
  refine ⟨hskip.sorted, hskip.cover, fun i hi => ?_, kept_update h.kept, fun i hi => ?_,
    fun _ => ⟨idx, update_self ..⟩,
    fun hcur hstart => (h.noGaps hcur hstart).update hcur (.inl hne)⟩
  · have hi' : i ≠ idx := by
      rintro rfl
      exact lt_irrefl _ ((List.pairwise_cons.mp h.sorted).1 i hi)
    rw [update_of_ne hi']
    exact hskip.same i hi
  · have hpast := hskip.past i hi
    rcases eq_or_ne i idx with rfl | hi'
    · rw [update_self]
      exact ⟨hcur, hpast.2⟩
    · rwa [update_of_ne hi']

/-- After an empty value there is nothing to race with. -/
theorem LoopInvariant.clean (h : LoopInvariant clock cur typ start (idx :: rest) cells stored)
    (hempty : cells idx = Shadow.kEmpty) (hstart : NoGaps start) (i : Fin 4) :
    ¬ Races clock cur typ (start i) := by
  rw [h.same_head] at hempty
  by_cases hi : i ∈ idx :: rest
  · rcases List.mem_cons.mp hi with rfl | hi
    · rw [hempty]
      exact not_races_empty
    · rw [hstart idx i ((List.pairwise_cons.mp h.sorted).1 i hi) hempty]
      exact not_races_empty
  · exact (h.past i hi).2

theorem LoopInvariant.checked_empty
    (h : LoopInvariant clock cur typ start (idx :: rest) cells stored)
    (hempty : cells idx = Shadow.kEmpty) :
    Checked clock cur typ start
      (if !typ.checkOnly && !stored then ⟨update cells idx cur, none⟩ else ⟨cells, none⟩) := by
  split
  · refine ⟨by simp, fun _ => kept_update h.kept, fun _ => h.clean hempty,
      fun _ _ => ⟨idx, update_self ..⟩, fun hcur hstart => ?_⟩
    exact (h.noGaps hcur hstart).update hcur
      (.inr fun j hj => (h.past j (h.not_mem_of_lt hj)).1)
  · rename_i hno
    refine ⟨by simp, fun _ => h.kept, fun _ => h.clean hempty, ?_, h.noGaps⟩
    intro _ hcheck
    cases stored with
    | true => exact h.stored rfl
    | false => simp [hcheck] at hno

theorem LoopInvariant.checked_race
    (h : LoopInvariant clock cur typ start (idx :: rest) cells stored)
    (hrace : Races clock cur typ (cells idx)) :
    Checked clock cur typ start (doReportRace cells (cells idx)) := by
  rw [h.same_head] at hrace
  refine ⟨?_, by simp [doReportRace], by simp [doReportRace], by simp [doReportRace],
    fun _ _ => noGaps_cellsOf⟩
  intro old hold
  refine ⟨rfl, idx, hrace, fun j hj => (h.past j (h.not_mem_of_lt hj)).2, ?_⟩
  intro hfront
  simp only [doReportRace, Option.some.injEq] at hold
  rw [← hold, reported, h.same_head]
  split
  · rename_i hfree
    have hzero : idx = firstIdx := hfront idx hfree
    apply h.same
    apply h.cover idx _ List.mem_cons_self
    rw [hzero]
    decide
  · rfl

theorem checkRacesLoop_checked {l : List (Fin 4)}
    (h : LoopInvariant clock cur typ start l cells stored) :
    Checked clock cur typ start (checkRacesLoop clock cur typ tracePos l cells stored) := by
  induction l generalizing cells stored with
  | nil => exact h.checked_nil
  | cons idx rest ih =>
      rw [checkRacesLoop]
      split_ifs with hempty hstore hover hsid hsame hboth hle
      · simpa [hstore] using h.checked_empty hempty
      · simpa [hstore] using h.checked_empty hempty
      · exact ih (h.skip hempty fun hrace => hrace.1 hover)
      · refine ih (h.store hempty ?_ fun hrace => hrace.2.1 hsid)
        rintro rfl
        exact hover BitVec.zero_and
      · exact ih (h.skip hempty fun hrace => hrace.2.1 hsid)
      · exact ih (h.skip hempty fun hrace => by simp [hrace.2.2.1] at hboth)
      · exact ih (h.skip hempty fun hrace => absurd hrace.2.2.2 (Nat.not_lt.mpr hle))
      · exact h.checked_race ⟨hover, hsid, by simpa using hboth, Nat.lt_of_not_le hle⟩

end

theorem checkRaces_checked :
    Checked clock cur typ cells (checkRaces clock cur typ tracePos cells) := by
  refine checkRacesLoop_checked ⟨?_, ?_, ?_, ?_, ?_, ?_, ?_⟩
  · simpa using List.pairwise_lt_finRange 4
  · exact fun _ j _ _ => List.mem_finRange j
  · exact fun _ _ => rfl
  · exact fun _ => .inl rfl
  · exact fun i hi => absurd (List.mem_finRange i) hi
  · simp
  · exact fun _ h => h

/-- Two checks of one cell report the same access. -/
theorem Checked.report_eq {r r' : CheckResult} (h : Checked clock cur typ cells r)
    (h' : Checked clock cur typ cells r') (hgaps : NoGaps cells) (hfront : FreedInFront cells) :
    r.report = r'.report := by
  cases hr : r.report with
  | none =>
      cases hr' : r'.report with
      | none => rfl
      | some old' =>
          obtain ⟨-, i, hi, -⟩ := h'.races old' hr'
          exact absurd hi (h.clean hr hgaps i)
  | some old =>
      obtain ⟨-, i, hi, hfirst, hold⟩ := h.races old hr
      cases hr' : r'.report with
      | none => exact absurd hi (h'.clean hr' hgaps i)
      | some old' =>
          obtain ⟨-, j, hj, hfirst', hold'⟩ := h'.races old' hr'
          have hij : i = j := by
            rcases lt_trichotomy i j with hlt | heq | hgt
            · exact absurd hi (hfirst' i hlt)
            · exact heq
            · exact absurd hj (hfirst j hgt)
          rw [hold hfront, hold' hfront, hij]

theorem freedInFront_cellsOf {v : Shadow} : FreedInFront (cellsOf v) := by
  intro i hi
  by_contra hne
  rw [cellsOf_of_ne hne] at hi
  exact absurd hi (by decide)

theorem Checked.freedInFront {r : CheckResult} (h : Checked clock cur typ cells r)
    (hcur : cur.sid ≠ kFreeSid) (hfront : FreedInFront cells) : FreedInFront r.cells := by
  intro i hi
  cases hr : r.report with
  | none =>
      rcases h.kept hr i with heq | heq
      · exact hfront i (heq ▸ hi)
      · exact absurd (heq ▸ hi) hcur
  | some old =>
      rw [(h.races old hr).1] at hi
      exact freedInFront_cellsOf i hi

end Mair.RaceDetector
