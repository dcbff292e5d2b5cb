import Mair.RaceDetector.SameAccess

/-! # What is missed

The clocks are exact but for slots that were handed on, and an access is reported whenever the
cell remembers one that it races with, whether or not the fast path skips the check. -/

namespace Mair.RaceDetector

open Function Causality Detector

variable {vectorize : Bool} {d d' : Detector} {t : Tid} {cell : ℕ} {cur : Shadow}
  {typ : AccessType} {tracePos : ℕ} {env : Env} {ops : List Op} {ctx ctx' : Ctx}

def Detector.clockOf (d : Detector) : Holder Tid Object → VectorClock
  | .thread t => (d.threads t).clock
  | .object x => (d.clocks x).getD VectorClock.reset

theorem Detector.Clocked.summarises (hc : d.Clocked) (p : Holder Tid Object) :
    Summarises Note.opens d.log p (d.clockOf p) := by
  cases p with
  | thread t => exact hc.thread t
  | object x => exact hc.object x

/-- A holder learnt that the slot of the remembered access went to another thread. -/
def SlotHandedOn (d : Detector) (p : Holder Tid Object) (e : LogEntry) (v : Shadow) : Prop :=
  Epochs.HandedOn Note.opens d.log p e.thread v.sid v.epoch

theorem le_clock_iff_of_clocked {p : Holder Tid Object} {k : ℕ} {e : LogEntry} {v : Shadow}
    (hc : d.Clocked) (he : d.Epoched) (hk : d.log[k]? = some e)
    (haccess : e.note = .access cell v typ) (hlast : (v.epoch : ℕ) ≠ kEpochLast) :
    (v.epoch : ℕ) ≤ d.clockOf p v.sid ↔ Knows d.log p k ∨ SlotHandedOn d p e v := by
  have huse : e.note.uses = some (v.sid, (v.epoch : ℕ)) := by
    rw [haccess]
    rfl
  obtain ⟨b, f, -, hb, -, hf⟩ := he.used hk huse
  exact he.le_clock_iff (hc.summarises p) hk huse (hc.marks b f _ _ hb hf).1 hlast

theorem slotLock_reports (h : d.slotLock t = some d') : d'.reports = d.reports := by
  simp only [slotLock, Option.bind_eq_bind, Option.bind_eq_some_iff] at h
  obtain ⟨s, -, h⟩ := h
  split at h
  · cases h
    rfl
  · obtain ⟨d₁, hdetach, hattach⟩ := Option.bind_eq_some_iff.mp h
    obtain ⟨s₂, d₂, hpre, -, -, -, -, -, rfl⟩ := slotAttachAndLock_spec hattach
    have h₁ : d₁.reports = d.reports := by
      obtain ⟨s₁, -, ⟨-, rfl⟩ | ⟨-, rfl⟩⟩ := slotDetachImpl_spec hdetach
      · rfl
      · rfl
    exact hpre.reports.trans h₁

theorem check_reports {raced : Bool} (h : d.check vectorize t cell cur typ tracePos =
    some (d', raced)) :
    d'.reports = d.reports ++ ((runChecks vectorize (d.threads t).clock cur typ tracePos
      (d.shadow cell)).report.map fun old => ⟨t, cell, cur, old, typ⟩).toList := by
  simp only [check, Option.bind_eq_bind] at h
  split at h
  · cases h
    rfl
  · split at h
    · obtain ⟨d₁, hlock, h⟩ := Option.bind_eq_some_iff.mp h
      cases h
      exact slotLock_reports hlock
    · cases h
      rfl

/-- A check reports if and only if the cell remembers something that races. -/
theorem Checked.isSome_report_iff {clock : VectorClock} {cells : Cells} {r : CheckResult}
    (h : Checked clock cur typ cells r) (hgaps : NoGaps cells) :
    r.report.isSome = true ↔ ∃ i, Races clock cur typ (cells i) := by
  cases hr : r.report with
  | none =>
      constructor
      · intro hsome
        cases hsome
      · intro hrace
        obtain ⟨i, hi⟩ := hrace
        exact absurd hi (h.clean hr hgaps i)
  | some old =>
      obtain ⟨-, i, hi, -⟩ := h.races old hr
      exact ⟨fun _ => ⟨i, hi⟩, fun _ => rfl⟩

theorem exists_append_toList_iff {α β : Type*} {l : List β} {o : Option α} {f : α → β} :
    (∃ a, l ++ (o.map f).toList = l ++ [f a]) ↔ o.isSome = true := by
  cases o with
  | none => simp
  | some a => exact ⟨fun _ => rfl, fun _ => ⟨a, rfl⟩⟩

/-- What the theorems on one access ask of the thread: it has its slot, is not in the last epoch
and ignores nothing. -/
structure Ready (d : Detector) (t : Tid) : Prop where
  owns : d.Owns t
  epoch : ((d.threads t).fastState.epoch : ℕ) ≠ kEpochLast
  ignores : (d.threads t).fastState.ignoreAccesses = false

theorem accessCell_reports_iff {pos size : ℕ} {raced : Bool} (hc : d.Clocked) (he : d.Epoched)
    (hx : Explained d) (hs : Settled d) (hready : Ready d t) (hpos : size ≠ 0) (hle : size ≤ 8)
    (hcur : cur = Shadow.make (d.threads t).fastState pos size typ)
    (hrodata : typ.read = true → typ.noRodata = false →
      ∀ i, d.shadow cell i ≠ Shadow.kRodata)
    (h : d.accessCell vectorize t cell cur typ tracePos = some (d', raced)) :
    (∃ old, d'.reports = d.reports ++ [⟨t, cell, cur, old, typ⟩]) ↔
      ∃ i, Races (d.threads t).clock cur typ (d.shadow cell i) := by
  have haccess : d.Accesses t cur := by
    rw [hcur]
    exact accesses_make hready.owns.isSome hpos hle
  have htyp : cur.OfType typ := by
    rw [hcur]
    exact ofType_make hready.ignores
  rw [accessCell] at h
  split at h
  · rename_i hsame
    cases h
    obtain ⟨s, hslot, hown⟩ := hready.owns
    rw [sameAccess_eq] at hsame
    have hnone := not_races_of_same hs hc he hx hslot hown hready.epoch haccess htyp
      (by rw [hcur]; exact accessMask_ne_kFreeAccess hle) hrodata hsame
    constructor
    · intro hreport
      obtain ⟨old, hreport⟩ := hreport
      simp [Detector.note] at hreport
    · intro hrace
      obtain ⟨i, hi⟩ := hrace
      exact absurd hi (hnone i)
  · have hchecked : Checked (d.threads t).clock cur typ (d.shadow cell)
        (runChecks vectorize (d.threads t).clock cur typ tracePos (d.shadow cell)) :=
      runChecks_checked (hc.clock_le_last t) htyp
    rw [check_reports h, ← hchecked.isSome_report_iff (hx.cells cell).noGaps]
    exact exists_append_toList_iff

/-! ## Happens-before -/

/-- The cell remembers an access of another slot that conflicts with the current one, and the
thread does not know of it. -/
structure Unordered (d : Detector) (t : Tid) (cell : ℕ) (cur : Shadow) (typ : AccessType)
    (v : Shadow) (k : ℕ) (e : LogEntry) : Prop where
  remembers : ∃ typ', Remembers d.log cell v k e typ'
  overlap : cur.access &&& v.access ≠ 0#8
  sid : cur.sid ≠ v.sid
  kinds : v.isBothReadsOrAtomic typ = false
  unknown : ¬ Knows d.log (.thread t) k
  notHandedOn : ¬ SlotHandedOn d (.thread t) e v

/-- The cell belongs to memory that was freed and not allocated since. -/
def Freed (d : Detector) (cell : ℕ) : Prop :=
  ∃ s n i, FreedAt d.log cell s n i d.log.length ∧ d.shadow cell = freedCells s n

theorem exists_races_iff (hc : d.Clocked) (he : d.Epoched) (hx : Explained d)
    (hcur : d.Accesses t cur)
    (hlast : ∀ i, Recorded d.log cell (d.shadow cell i) →
      ((d.shadow cell i).epoch : ℕ) ≠ kEpochLast) :
    (∃ i, Races (d.threads t).clock cur typ (d.shadow cell i)) ↔
      Freed d cell ∨ ∃ i k e, Unordered d t cell cur typ (d.shadow cell i) k e := by
  constructor
  · intro hrace
    obtain ⟨i, hoverlap, hsid, hkinds, hlt⟩ := hrace
    rcases hx.cells cell with hfreed | ⟨-, hrec⟩
    · exact .inl hfreed
    · rcases hrec i with hempty | hrodata | hrec
      · rw [hempty] at hoverlap
        exact absurd BitVec.and_zero hoverlap
      · rw [hrodata] at hoverlap
        exact absurd BitVec.and_zero hoverlap
      · obtain ⟨k, e, typ', hk⟩ := hrec
        have hiff := le_clock_iff_of_clocked (p := .thread t) hc he hk.entry hk.access
          (hlast i ⟨k, e, typ', hk⟩)
        have hnot := (not_congr hiff).mp (Nat.not_le.mpr hlt)
        rw [not_or] at hnot
        exact .inr ⟨i, k, e, ⟨typ', hk⟩, hoverlap, hsid, hkinds, hnot.1, hnot.2⟩
  · intro h
    rcases h with ⟨s, n, k, -, hcells⟩ | ⟨i, k, e, hun⟩
    · refine ⟨firstIdx, ?_⟩
      rw [hcells, freedCells_first]
      exact races_freedMarker hc (Accesses.sid_ne hc he hcur) hcur.touches
    · obtain ⟨typ', hk⟩ := hun.remembers
      have hiff := le_clock_iff_of_clocked (p := .thread t) hc he hk.entry hk.access
        (hlast i ⟨k, e, typ', hk⟩)
      have hnot := (not_congr hiff).mpr (not_or.mpr ⟨hun.unknown, hun.notHandedOn⟩)
      exact ⟨i, hun.overlap, hun.sid, hun.kinds, Nat.not_le.mp hnot⟩

theorem memoryAccess_races {addr size : ℕ} (hc : d.Clocked) (he : d.Epoched)
    (hx : Explained d) (hs : Settled d) (hready : Ready d t)
    (hrodata : typ.read = true → typ.noRodata = false →
      ∀ i, d.shadow (addr / 8) i ≠ Shadow.kRodata)
    (hcur : cur = Shadow.make (d.threads t).fastState addr size typ)
    (h : d.memoryAccess env t addr size typ tracePos = some d') :
    d.Accesses t cur ∧
      ((∃ old, d'.reports = d.reports ++ [⟨t, addr / 8, cur, old, typ⟩]) ↔
        ∃ i, Races (d.threads t).clock cur typ (d.shadow (addr / 8) i)) := by
  simp only [memoryAccess, accessMemory, hready.ignores, Bool.false_eq_true, if_false,
    memoryAccessPieces, accessPieces, Option.bind_eq_bind, ite_self] at h
  split at h
  · cases h
  · split at h
    · cases h
    · rename_i hsize
      simp only [Bool.or_eq_true, decide_eq_true_eq, not_or, Nat.not_lt] at hsize
      obtain ⟨⟨d₁, raced⟩, hcell, h⟩ := Option.bind_eq_some_iff.mp h
      cases h
      rw [← hcur] at hcell
      refine ⟨?_, accessCell_reports_iff hc he hx hs hready hsize.1 hsize.2 hcur hrodata hcell⟩
      rw [hcur]
      exact accesses_make hready.owns.isSome hsize.1 hsize.2

/-- What the examples need to know of the run of `writerOps`. -/
theorem writerOps_run : ∃ ctx ctx', Ctx.initial.run exampleEnv writerOps = some ctx ∧
    ctx.step exampleEnv (.memoryAccess 1 64 8 plainWrite 0) = some ctx' ∧ Ready ctx.detector 1 ∧
      ∀ i, ((ctx.detector.shadow 8 i).epoch : ℕ) ≠ kEpochLast := by
  have hfacts : (Ctx.initial.run exampleEnv writerOps).map (fun ctx =>
      ((ctx.step exampleEnv (.memoryAccess 1 64 8 plainWrite 0)).isSome,
        (ctx.detector.threads 1).slot, (ctx.detector.slots ⟨1, by decide⟩).thr,
        (ctx.detector.threads 1).fastState,
        decide (∀ i, ((ctx.detector.shadow 8 i).epoch : ℕ) ≠ kEpochLast))) =
      some (true, some ⟨1, by decide⟩, some 1, ⟨⟨1, by decide⟩, ⟨1, by decide⟩, false⟩, true) := by
    decide +kernel
  obtain ⟨ctx, hrun, hfacts⟩ := Option.map_eq_some_iff.mp hfacts
  simp only [Prod.mk.injEq, decide_eq_true_eq] at hfacts
  obtain ⟨hstep, hslot, hthr, hfast, hepochs⟩ := hfacts
  obtain ⟨ctx', hstep⟩ := Option.isSome_iff_exists.mp hstep
  refine ⟨ctx, ctx', hrun, hstep, ⟨⟨_, hslot, hthr⟩, ?_, ?_⟩, hepochs⟩
  · rw [hfast]
    decide
  · rw [hfast]

end Mair.RaceDetector
