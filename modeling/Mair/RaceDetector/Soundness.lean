import Mair.RaceDetector.Clocks

/-! # Reports are real

What a cell remembers was really done, and what is reported is a race: two accesses to a common
byte, not both reads and not both atomic, of which neither happened before the other; or an
access to memory that was freed and not allocated since. -/

namespace Mair.RaceDetector

open Function Causality Detector

/-- The entry that the cell remembers as `v`. -/
structure Remembers (log : List LogEntry) (cell : ℕ) (v : Shadow) (i : ℕ) (e : LogEntry)
    (typ : AccessType) : Prop where
  entry : log[i]? = some e
  access : e.note = .access cell v typ
  read : v.isRead = typ.read
  atomic : typ.atomic = true → v.isAtomic = true

def Recorded (log : List LogEntry) (cell : ℕ) (v : Shadow) : Prop :=
  ∃ i e typ, Remembers log cell v i e typ

/-- Entry `i` freed the cell and no later one before `j` wiped it. -/
structure FreedAt (log : List LogEntry) (cell : ℕ) (s : Sid) (n : Fin 16384) (i j : ℕ) :
    Prop where
  entry : ∃ e, log[i]? = some e ∧ e.note = .freed cell s n
  kept : ∀ (k : ℕ) g, i < k → k < j → log[k]? = some g → g.note ≠ .wiped cell

/-- A cell of freed memory, or a cell that remembers accesses. -/
def CellOk (log : List LogEntry) (cell : ℕ) (cells : Cells) : Prop :=
  (∃ s n i, FreedAt log cell s n i log.length ∧ cells = freedCells s n) ∨
    NoGaps cells ∧ ∀ j, cells j = Shadow.kEmpty ∨ cells j = Shadow.kRodata ∨
      Recorded log cell (cells j)

/-- The report is about an access at `j` and one at `i` that conflicts with it and is not ordered
with it. -/
structure Conflict (log : List LogEntry) (r : RaceReport) (i j : ℕ) (typ : AccessType) :
    Prop where
  earlier : i < j
  entry : ∃ e, log[i]? = some e ∧ e.note = .access r.cell r.old typ
  unordered : ¬ Precedes log i j
  overlap : r.cur.access &&& r.old.access ≠ 0#8
  notBothRead : ¬ (typ.read = true ∧ r.typ.read = true)
  notBothAtomic : ¬ (typ.atomic = true ∧ r.typ.atomic = true)

def Real (log : List LogEntry) (r : RaceReport) : Prop :=
  ∃ j e, log[j]? = some e ∧ e.thread = r.thread ∧ e.note = .access r.cell r.cur r.typ ∧
    ((∃ i typ, Conflict log r i j typ) ∨
      ∃ i, i < j ∧ FreedAt log r.cell r.old.sid r.old.epoch i j)

structure Explained (d : Detector) : Prop where
  cells : ∀ cell, CellOk d.log cell (d.shadow cell)
  reports : ∀ r ∈ d.reports, Real d.log r

variable {vectorize : Bool} {d d' : Detector} {t : Tid} {cell : ℕ} {cur v : Shadow}
  {typ : AccessType}

/-! ## Growing logs -/

section

variable {log vs : List LogEntry}

theorem getElem?_append_of_some {i : ℕ} {e : LogEntry} (hi : log[i]? = some e) :
    (log ++ vs)[i]? = some e := by
  rw [List.getElem?_append_left (lt_of_getElem? hi)]
  exact hi

theorem getElem?_of_append {i : ℕ} {e : LogEntry} (hlt : i < log.length)
    (hi : (log ++ vs)[i]? = some e) : log[i]? = some e := by
  rwa [List.getElem?_append_left hlt] at hi

theorem Recorded.append (h : Recorded log cell v) : Recorded (log ++ vs) cell v := by
  obtain ⟨i, e, typ, hi⟩ := h
  exact ⟨i, e, typ, { hi with entry := getElem?_append_of_some hi.entry }⟩

theorem FreedAt.append {s : Sid} {n : Fin 16384} {i j : ℕ} (h : FreedAt log cell s n i j)
    (hj : j ≤ log.length) : FreedAt (log ++ vs) cell s n i j where
  entry := by
    obtain ⟨e, hi, he⟩ := h.entry
    exact ⟨e, getElem?_append_of_some hi, he⟩
  kept k g hik hkj hg := h.kept k g hik hkj (getElem?_of_append (hkj.trans_le hj) hg)

theorem CellOk.append {cells : Cells} (h : CellOk log cell cells)
    (hvs : ∀ v ∈ vs, v.note ≠ .wiped cell) : CellOk (log ++ vs) cell cells := by
  rcases h with ⟨s, n, i, hfreed, rfl⟩ | ⟨hgaps, hrec⟩
  · refine .inl ⟨s, n, i, ⟨(hfreed.append le_rfl).entry, ?_⟩, rfl⟩
    intro k g hik _ hg
    rcases Nat.lt_or_ge k log.length with hlt | hge
    · exact hfreed.kept k g hik hlt (getElem?_of_append hlt hg)
    · rw [List.getElem?_append_right hge] at hg
      exact hvs g (List.mem_of_getElem? hg)
  · exact .inr ⟨hgaps, fun j => (hrec j).imp id (Or.imp id Recorded.append)⟩

theorem Real.append {r : RaceReport} (h : Real log r) : Real (log ++ vs) r := by
  obtain ⟨j, e, hj, ht, he, hreal⟩ := h
  have hlt := lt_of_getElem? hj
  refine ⟨j, e, getElem?_append_of_some hj, ht, he, ?_⟩
  rcases hreal with ⟨i, typ, hconflict⟩ | ⟨i, hij, hfreed⟩
  · refine .inl ⟨i, typ, { hconflict with entry := ?_, unordered := ?_ }⟩
    · obtain ⟨f, hi, hf⟩ := hconflict.entry
      exact ⟨f, getElem?_append_of_some hi, hf⟩
    · rw [precedes_append_iff hlt]
      exact hconflict.unordered
  · exact .inr ⟨i, hij, hfreed.append hlt.le⟩

end

/-- Steps that touch neither the shadow memory nor the reports. -/
structure Quiet (d d' : Detector) : Prop where
  shadow : d'.shadow = d.shadow
  reports : d'.reports = d.reports
  log : ∃ vs, d'.log = d.log ++ vs ∧ ∀ v ∈ vs, ∀ c, v.note ≠ .wiped c

theorem Explained.quiet (h : Explained d) (hquiet : Quiet d d') : Explained d' := by
  obtain ⟨vs, hlog, hvs⟩ := hquiet.log
  refine ⟨?_, ?_⟩
  · intro c
    rw [hlog, hquiet.shadow]
    exact (h.cells c).append fun v hv => hvs v hv c
  · intro r hr
    rw [hlog]
    exact (h.reports r (hquiet.reports ▸ hr)).append

/-- One cell changes with one entry of the log. -/
theorem Explained.setCells (h : Explained d) {n : Note} {cells : Cells}
    (hother : ∀ c, c ≠ cell → n ≠ .wiped c)
    (hcell : CellOk (d.log ++ [⟨t, .internal, n⟩]) cell cells) :
    Explained ((d.setCells cell cells).note t .internal n) where
  cells c := by
    rcases eq_or_ne c cell with rfl | hc
    · simpa [Detector.note, Detector.setCells] using hcell
    · have hold : CellOk (d.log ++ [⟨t, .internal, n⟩]) c (d.shadow c) := by
        refine (h.cells c).append ?_
        intro v hv
        rw [List.mem_singleton.mp hv]
        exact hother c hc
      simpa [Detector.note, Detector.setCells, hc] using hold
  reports r hr := (h.reports r hr).append

theorem cellOk_cellsOf {log : List LogEntry} (hv : v = Shadow.kEmpty ∨ v = Shadow.kRodata ∨
    Recorded log cell v) : CellOk log cell (cellsOf v) := by
  refine .inr ⟨noGaps_cellsOf, ?_⟩
  intro j
  rcases eq_or_ne j firstIdx with rfl | hj
  · rwa [cellsOf_first]
  · exact .inl (cellsOf_of_ne hj)

theorem Explained.wipeCell (h : Explained d) : Explained (d.wipeCell t cell) := by
  refine h.setCells ?_ (.inr ⟨noGaps_empty, fun _ => .inl rfl⟩)
  intro c hc heq
  cases heq
  exact hc rfl

theorem Explained.imitateCell (h : Explained d) (hread : cur.isRead = false) :
    Explained (d.imitateCell t cur cell) := by
  refine h.wipeCell.setCells (fun _ _ heq => by cases heq) (cellOk_cellsOf (.inr (.inr ?_)))
  exact ⟨_, _, _, getElem?_snoc_iff.mpr (.inr ⟨rfl, rfl⟩), rfl, hread,
    fun hfalse => by cases hfalse⟩

theorem Explained.markFreed (h : Explained d) {s : Sid} {n : Fin 16384} :
    Explained ((d.setCells cell (freedCells s n)).note t .internal (.freed cell s n)) := by
  refine h.setCells (fun _ _ heq => by cases heq) (.inl ⟨s, n, d.log.length, ⟨?_, ?_⟩, rfl⟩)
  · exact ⟨_, getElem?_snoc_iff.mpr (.inr ⟨rfl, rfl⟩), rfl⟩
  · intro k g hik hkj
    rw [List.length_append, List.length_singleton] at hkj
    omega

/-! ## Checks -/

theorem runChecks_checked {clock : VectorClock} {tracePos : ℕ} {cells : Cells}
    (hclock : ∀ s, clock s ≤ kEpochLast) (htyp : cur.OfType typ) :
    Checked clock cur typ cells (runChecks vectorize clock cur typ tracePos cells) := by
  cases vectorize with
  | false => exact checkRaces_checked
  | true => exact checkRacesV_checked hclock htyp

theorem Recorded.sid_ne (hc : d.Clocked) (he : d.Epoched) (h : Recorded d.log cell v) :
    v.sid ≠ kFreeSid := by
  obtain ⟨i, e, typ, hi⟩ := h
  obtain ⟨b, f, -, hb, -, hf⟩ := he.used hi.entry (by rw [hi.access]; rfl)
  exact hc.ne_kFreeSid hb hf

theorem FreedAt.sid_ne (hc : d.Clocked) (he : d.Epoched) {s : Sid} {n : Fin 16384} {i j : ℕ}
    (h : FreedAt d.log cell s n i j) : s ≠ kFreeSid := by
  obtain ⟨e, hi, hnote⟩ := h.entry
  obtain ⟨b, f, -, hb, -, hf⟩ := he.used hi (a := (s, (n : ℕ))) (by rw [hnote]; rfl)
  exact hc.ne_kFreeSid hb hf

theorem freedCells_first {s : Sid} {n : Fin 16384} :
    freedCells s n firstIdx = Shadow.freedMarker := by
  rw [freedCells, update_of_ne (by decide), cellsOf_first]

theorem freedCells_second {s : Sid} {n : Fin 16384} :
    freedCells s n secondIdx = Shadow.freedInfo s n := update_self ..

theorem freedCells_of_ne {s : Sid} {n : Fin 16384} {i : Fin 4} (hi : i ≠ firstIdx)
    (hi' : i ≠ secondIdx) : freedCells s n i = Shadow.kEmpty := by
  rw [freedCells, update_of_ne hi', cellsOf_of_ne hi]

theorem freedInFront_freedCells {s : Sid} {n : Fin 16384} (hs : s ≠ kFreeSid) :
    FreedInFront (freedCells s n) := by
  intro i hi
  by_contra hne
  rcases eq_or_ne i secondIdx with rfl | hne'
  · rw [freedCells_second] at hi
    exact hs hi
  · rw [freedCells_of_ne hne hne'] at hi
    exact absurd hi (by decide)

theorem noGaps_freedCells {s : Sid} {n : Fin 16384} : NoGaps (freedCells s n) := by
  intro i j hij hi
  rcases eq_or_ne i firstIdx with rfl | hne
  · rw [freedCells_first] at hi
    exact absurd hi (by decide)
  · have hj : j ≠ firstIdx := by
      rintro rfl
      exact not_lt_firstIdx hij
    rcases eq_or_ne j secondIdx with rfl | hj'
    · exact absurd (Fin.ext (Nat.lt_one_iff.mp hij)) hne
    · exact freedCells_of_ne hj hj'

theorem CellOk.noGaps {log : List LogEntry} {cells : Cells} (h : CellOk log cell cells) :
    NoGaps cells := by
  rcases h with ⟨s, n, i, -, rfl⟩ | ⟨hgaps, -⟩
  · exact noGaps_freedCells
  · exact hgaps

theorem CellOk.freedInFront (hc : d.Clocked) (he : d.Epoched) {cells : Cells}
    (h : CellOk d.log cell cells) : FreedInFront cells := by
  rcases h with ⟨s, n, i, hfreed, rfl⟩ | ⟨-, hrec⟩
  · exact freedInFront_freedCells (hfreed.sid_ne hc he)
  · intro j hj
    rcases hrec j with heq | heq | hrec
    · rw [heq] at hj
      exact absurd hj (by decide)
    · rw [heq] at hj
      exact absurd hj (by decide)
    · exact absurd hj (hrec.sid_ne hc he)

/-- Every access to freed memory races with the marker. -/
theorem races_freedMarker (hc : d.Clocked) (hsid : cur.sid ≠ kFreeSid)
    (hcur : cur.access ≠ 0#8) : Races (d.threads t).clock cur typ Shadow.freedMarker := by
  refine ⟨?_, hsid, rfl, ?_⟩
  · have hmask : Shadow.freedMarker.access = BitVec.allOnes 8 := by decide
    rwa [hmask, BitVec.and_allOnes]
  · have hzero : (d.threads t).clock Shadow.freedMarker.sid = 0 := hc.clock_kFreeSid t
    rw [hzero]
    decide

theorem Accesses.sid_ne (hc : d.Clocked) (he : d.Epoched) (hcur : d.Accesses t cur) :
    cur.sid ≠ kFreeSid := by
  obtain ⟨i, e, hi, -, hopens⟩ := he.opened (hcur.current hc)
  exact hc.ne_kFreeSid hi hopens

/-- An access whose epoch the clock has not reached did not happen before the next access. -/
theorem not_precedes_next {log : List LogEntry} {i : ℕ} {e : LogEntry} {n : Note}
    {s : Sid} {m : ℕ} (hc : d.Clocked) (he : d.Epoched) (hlog : d.log = log)
    (hi : log[i]? = some e) (huse : e.note.uses = some (s, m))
    (hlt : (d.threads t).clock s < m) :
    ¬ Precedes (log ++ [⟨t, .internal, n⟩]) i log.length := by
  subst hlog
  intro hprec
  rcases precedes_snoc_iff.mp hprec with hprec | ⟨-, hheard | ⟨x, hx, -⟩⟩
  · exact absurd hprec.lt_length (lt_irrefl _)
  · have hseen := he.seen_of_knows hi huse hheard
    have hle := (hc.thread t s m ((Nat.zero_le _).trans_lt hlt)).mpr hseen
    exact absurd hle hlt.not_ge
  · cases hx

/-- What a report names is an access or a deallocation that the cell remembers. -/
theorem real_of_races {i : Fin 4} (hc : d.Clocked) (he : d.Epoched)
    (hok : CellOk d.log cell (d.shadow cell))
    (hrace : Races (d.threads t).clock cur typ (d.shadow cell i)) :
    Real (d.log ++ [⟨t, .internal, .access cell cur typ⟩])
      ⟨t, cell, cur, reported (d.shadow cell) i, typ⟩ := by
  refine ⟨d.log.length, _, getElem?_snoc_iff.mpr (.inr ⟨rfl, rfl⟩), rfl, rfl, ?_⟩
  rcases hok with ⟨s, n, k, hfreed, hcells⟩ | ⟨-, hrec⟩
  · -- The value is the marker of freed memory or the one behind it.
    have hold : reported (d.shadow cell) i = Shadow.freedInfo s n := by
      rw [hcells] at hrace ⊢
      rcases eq_or_ne i firstIdx with rfl | hne
      · rw [reported, freedCells_first, if_pos (by decide), freedCells_second]
      · rcases eq_or_ne i secondIdx with rfl | hne'
        · rw [reported, freedCells_second, ite_self]
        · rw [freedCells_of_ne hne hne'] at hrace
          exact absurd hrace not_races_empty
    right
    obtain ⟨e, hk, -⟩ := hfreed.entry
    rw [hold]
    exact ⟨k, lt_of_getElem? hk, hfreed.append le_rfl⟩
  · rcases hrec i with hempty | hrodata | ⟨k, e, typ', hk⟩
    · rw [hempty] at hrace
      exact absurd hrace not_races_empty
    · rw [hrodata] at hrace
      exact absurd BitVec.and_zero hrace.1
    · have huse : e.note.uses = some ((d.shadow cell i).sid, ((d.shadow cell i).epoch : ℕ)) := by
        rw [hk.access]
        rfl
      have hsid := Recorded.sid_ne hc he ⟨k, e, typ', hk⟩
      obtain ⟨hoverlap, -, hkinds, hlt⟩ := hrace
      simp only [Shadow.isBothReadsOrAtomic, Bool.or_eq_false_iff, Bool.and_eq_false_iff]
        at hkinds
      left
      refine ⟨k, typ', ⟨lt_of_getElem? hk.entry, ?_, not_precedes_next hc he rfl hk.entry huse hlt,
        ?_, ?_, ?_⟩⟩
      · rw [reported, if_neg hsid]
        exact ⟨e, getElem?_append_of_some hk.entry, hk.access⟩
      · rw [reported, if_neg hsid]
        exact hoverlap
      · rintro ⟨hread, hread'⟩
        rcases hkinds.1 with hno | hno
        · rw [hk.read, hread] at hno
          cases hno
        · cases hno.symm.trans hread'
      · rintro ⟨hatomic, hatomic'⟩
        rcases hkinds.2 with hno | hno
        · rw [hk.atomic hatomic] at hno
          cases hno
        · cases hno.symm.trans hatomic'

theorem ne_kEmpty_of_access (hcur : cur.access ≠ 0#8) : cur ≠ Shadow.kEmpty := by
  rintro rfl
  exact hcur rfl

theorem Explained.check {tracePos : ℕ} (h : Explained d) (hc : d.Clocked) (he : d.Epoched)
    (hcur : d.Accesses t cur) (htyp : cur.OfType typ) :
    Explained ((d.note t .internal (.access cell cur typ)).checked t cell cur typ
      (runChecks vectorize (d.threads t).clock cur typ tracePos (d.shadow cell))) := by
  have hchecked : Checked (d.threads t).clock cur typ (d.shadow cell)
      (runChecks vectorize (d.threads t).clock cur typ tracePos (d.shadow cell)) :=
    runChecks_checked (hc.clock_le_last t) htyp
  have hok := h.cells cell
  have hfront := hok.freedInFront hc he
  generalize runChecks vectorize (d.threads t).clock cur typ tracePos (d.shadow cell) = r
    at hchecked ⊢
  refine ⟨?_, ?_⟩
  · intro c
    rcases eq_or_ne c cell with rfl | hne
    · have hcells : CellOk (d.log ++ [⟨t, .internal, .access c cur typ⟩]) c r.cells := by
        cases hreport : r.report with
        | some old =>
            rw [(hchecked.races old hreport).1]
            exact cellOk_cellsOf (.inr (.inl rfl))
        | none =>
            have hclean := hchecked.clean hreport hok.noGaps
            rcases hok with ⟨s, n, k, -, hcells⟩ | ⟨hgaps, hrec⟩
            · refine absurd ?_ (hclean firstIdx)
              rw [hcells, freedCells_first]
              exact races_freedMarker hc (Accesses.sid_ne hc he hcur) hcur.touches
            · refine .inr ⟨hchecked.noGaps (ne_kEmpty_of_access hcur.touches) hgaps, ?_⟩
              intro j
              rcases hchecked.kept hreport j with heq | heq
              · rw [heq]
                exact (hrec j).imp id (Or.imp id Recorded.append)
              · rw [heq]
                exact .inr (.inr ⟨_, _, typ, getElem?_snoc_iff.mpr (.inr ⟨rfl, rfl⟩), rfl,
                  htyp.1, fun hatomic => htyp.2.trans hatomic⟩)
      simpa [checked, Detector.note, Detector.setCells] using hcells
    · have hold : CellOk (d.log ++ [⟨t, .internal, .access cell cur typ⟩]) c (d.shadow c) := by
        refine (h.cells c).append ?_
        intro v hv heq
        rw [List.mem_singleton.mp hv] at heq
        cases heq
      simpa [checked, Detector.note, Detector.setCells, hne] using hold
  · intro report hmem
    rcases List.mem_append.mp hmem with hmem | hmem
    · exact (h.reports report hmem).append
    · rw [Option.mem_toList, Option.map_eq_some_iff] at hmem
      obtain ⟨old, hreport, rfl⟩ := hmem
      obtain ⟨-, i, hrace, -, hold⟩ := hchecked.races old hreport
      rw [hold hfront]
      exact real_of_races hc he hok hrace

/-! ## Steps -/

theorem quiet_of_preempts (hpre : Preempts d d') : Quiet d d' :=
  ⟨hpre.shadow, hpre.reports, [], by rw [hpre.log, List.append_nil], fun _ hv => by cases hv⟩

theorem Quiet.note {u : Tid} {a : Action Object} {n : Note} (h : Quiet d d')
    (hn : ∀ c, n ≠ .wiped c) : Quiet d (d'.note u a n) := by
  obtain ⟨vs, hlog, hvs⟩ := h.log
  refine ⟨h.shadow, h.reports, vs ++ [⟨u, a, n⟩], ?_, ?_⟩
  · rw [Detector.note, hlog, List.append_assoc]
  · intro v hv
    rcases List.mem_append.mp hv with hv | hv
    · exact hvs v hv
    · rw [List.mem_singleton.mp hv]
      exact hn

theorem Quiet.refl : Quiet d d :=
  ⟨rfl, rfl, [], (List.append_nil _).symm, fun _ hv => by cases hv⟩

theorem Quiet.of_same {d₁ : Detector} (h : Quiet d d₁) (hshadow : d'.shadow = d₁.shadow)
    (hreports : d'.reports = d₁.reports) (hlog : d'.log = d₁.log) : Quiet d d' :=
  ⟨hshadow.trans h.shadow, hreports.trans h.reports, hlog ▸ h.log⟩

theorem Quiet.incrementEpoch {d₁ : Detector} (h : Quiet d d₁)
    (hinc : d₁.incrementEpoch t = some d') : Quiet d d' := by
  rcases incrementEpoch_spec hinc with ⟨-, rfl⟩ | ⟨s, -, -, rfl⟩
  · exact h
  · exact Quiet.note (h.of_same rfl rfl rfl) fun _ heq => by cases heq

theorem quiet_plain {a : Action Object} {c : Object → Option VectorClock} :
    Quiet d (({ d with clocks := c } : Detector).note t a .plain) :=
  Quiet.note (Quiet.refl.of_same rfl rfl rfl) fun _ heq => by cases heq

theorem explained_step (hstep : Step vectorize d d') (hc : d.Clocked) (he : d.Epoched)
    (h : Explained d) : Explained d' := by
  cases hstep with
  | attach hattach =>
      obtain ⟨s, d₁, hpre, -, -, -, -, -, rfl⟩ := slotAttachAndLock_spec hattach
      exact h.quiet (Quiet.note ((quiet_of_preempts hpre).of_same rfl rfl rfl)
        fun _ heq => by cases heq)
  | detach hdetach =>
      obtain ⟨s, -, ⟨-, rfl⟩ | ⟨-, rfl⟩⟩ := slotDetachImpl_spec hdetach
      · exact h.quiet (Quiet.refl.of_same rfl rfl rfl)
      · exact h.quiet (Quiet.refl.of_same rfl rfl rfl)
  | requeue => exact h.quiet (Quiet.refl.of_same rfl rfl rfl)
  | acquire =>
      exact h.quiet (Quiet.note (Quiet.refl.of_same rfl rfl rfl) fun _ heq => by cases heq)
  | release _ hinc => exact h.quiet (quiet_plain.incrementEpoch hinc)
  | releaseStore _ hinc => exact h.quiet (quiet_plain.incrementEpoch hinc)
  | freeClock => exact h.quiet quiet_plain
  | ignore => exact h.quiet (Quiet.refl.of_same rfl rfl rfl)
  | repeated => exact h.quiet (Quiet.refl.note fun _ heq => by cases heq)
  | check t cell cur typ tracePos hcur htyp => exact h.check hc he hcur htyp
  | markFreed => exact h.markFreed
  | wipe => exact h.wipeCell
  | imitate t cell cur hcur hread => exact h.imitateCell hread

theorem explained_steps (hsteps : Steps vectorize d d') (hc : d.Clocked) (he : d.Epoched)
    (h : Explained d) : Explained d' := by
  induction hsteps with
  | refl => exact h
  | tail hsteps hstep ih =>
      obtain ⟨hc', he'⟩ := Steps.clocked hsteps hc he
      exact explained_step hstep hc' he' ih

theorem initial_explained : Explained Detector.initial where
  cells _ := .inr ⟨noGaps_empty, fun _ => .inl rfl⟩
  reports _ hr := by cases hr

theorem run_explained {env : Env} {ops : List Op} {ctx : Ctx}
    (hrun : Ctx.initial.run env ops = some ctx) : Explained ctx.detector :=
  explained_steps (Ctx.run_moves Ctx.initial_ignoreOk hrun) initial_clocked initial_epoched
    initial_explained

def plainWrite : AccessType := { read := false, atomic := false }

def exampleEnv : Env where
  vectorize := true
  reportMutexBugs := true
  reportDestroyLocked := true
  isAppMem := fun _ => true
  clearShadowMmapThreshold := 65536
  pageSize := 4096

/-- Two threads, of which the first writes eight bytes. -/
def writerOps : List Op :=
  [.mainCreate 0, .threadStart 0 true 0 0, .threadCreate 0 1 false, .threadStart 1 false 0 0,
    .memoryAccess 0 64 8 plainWrite 0]

end Mair.RaceDetector
