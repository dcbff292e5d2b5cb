import Mair.RaceDetector.Soundness

/-! # Repeated accesses

An access that the cell has already from the same epoch is not checked again. Nothing is missed:
whoever has accessed the cell since then was checked against it. -/

namespace Mair.RaceDetector

open Function Causality Detector

/-- The kind of a remembered access. -/
def Shadow.kind (v : Shadow) : AccessType := { read := v.isRead, atomic := v.isAtomic }

/-- An access from the current epoch of a thread that has its slot races with nothing else in the
cell. -/
def Settled (d : Detector) : Prop :=
  ∀ cell i j u, d.shadow cell firstIdx ≠ Shadow.freedMarker →
    (d.slots (d.shadow cell i).sid).thr = some u →
    (d.slots (d.shadow cell i).sid).epoch = (d.shadow cell i).epoch →
    ((d.shadow cell i).epoch : ℕ) ≠ kEpochLast →
    ¬ Races (d.threads u).clock (d.shadow cell i) (d.shadow cell i).kind (d.shadow cell j)

variable {vectorize : Bool} {d d' : Detector} {t u : Tid} {cell : ℕ} {cur v w : Shadow}
  {typ : AccessType} {clock clock' : VectorClock} {i j : Fin 4}

theorem Races.anti (h : Races clock' cur typ v) (hle : ∀ s, clock s ≤ clock' s) :
    Races clock cur typ v :=
  ⟨h.1, h.2.1, h.2.2.1, (hle _).trans_lt h.2.2.2⟩

theorem races_kind_iff (hcur : cur.OfType typ) :
    Races clock cur cur.kind v ↔ Races clock cur typ v := by
  obtain ⟨hread, hatomic⟩ := hcur
  simp [Races, Shadow.isBothReadsOrAtomic, Shadow.kind, hread, hatomic]

/-- Two accesses race with each other or neither does, but for the clocks. -/
theorem Races.symm (h : Races clock cur cur.kind v) (hlt : clock' cur.sid < cur.epoch) :
    Races clock' v v.kind cur := by
  obtain ⟨hoverlap, hsid, hkinds, -⟩ := h
  refine ⟨by rwa [BitVec.and_comm], hsid.symm, ?_, hlt⟩
  simpa [Shadow.isBothReadsOrAtomic, Shadow.kind, Bool.and_comm] using hkinds

/-- A thread that has its slot opened the epoch that it runs in. -/
theorem opened_of_owner (hc : d.Clocked) (he : d.Epoched) {s : Sid}
    (hu : (d.slots s).thr = some u) :
    ∃ (i : ℕ) (e : LogEntry), d.log[i]? = some e ∧ e.thread = u ∧
      e.note.opens = some (s, (d.slots s).epoch) := by
  obtain ⟨hslot, hepoch⟩ := hc.owner s u hu
  apply he.opened
  rw [current_eq_some_iff, hepoch]
  exact ⟨hslot, rfl⟩

theorem epoch_pos_of_owner (hc : d.Clocked) (he : d.Epoched) {s : Sid}
    (hu : (d.slots s).thr = some u) : 0 < (d.slots s).epoch := by
  obtain ⟨i, e, hi, -, hopens⟩ := opened_of_owner hc he hu
  exact (hc.marks i e s _ hi hopens).1

/-- Nobody else's clock has reached the epoch of a thread that has its slot. -/
theorem clock_lt_of_owner (hc : d.Clocked) (he : d.Epoched) {s : Sid}
    (hu : (d.slots s).thr = some u) (hlast : (d.slots s).epoch ≠ kEpochLast) (htu : t ≠ u) :
    (d.threads t).clock s < (d.slots s).epoch := by
  obtain ⟨hslot, hepoch⟩ := hc.owner s u hu
  have hcurrent : d.current u = some (s, (d.slots s).epoch) := by
    rw [current_eq_some_iff, hepoch]
    exact ⟨hslot, rfl⟩
  by_contra hge
  obtain ⟨i, e, m, hknows, hi, hopens, hle⟩ :=
    (hc.thread t s _ (epoch_pos_of_owner hc he hu)).mp (Nat.le_of_not_lt hge)
  have hm : m = (d.slots s).epoch := le_antisymm (hc.marks i e s m hi hopens).2 hle
  rw [hm] at hopens
  have hp := he.unpublished hcurrent hlast hi hopens hknows
  exact htu (Holder.thread.inj hp)

/-- What a step without a check may do: clocks grow and epochs are new. -/
structure Advances (d d' : Detector) : Prop where
  shadow : d'.shadow = d.shadow
  owned : ∀ s u, (d'.slots s).thr = some u →
    (d.slots s = d'.slots s ∧ ∀ s', (d.threads u).clock s' ≤ (d'.threads u).clock s') ∨
      (d.slots s).epoch < (d'.slots s).epoch

theorem CellOk.epoch_le (hc : d.Clocked) (he : d.Epoched)
    (hok : CellOk d.log cell (d.shadow cell))
    (hfreed : d.shadow cell firstIdx ≠ Shadow.freedMarker) :
    ((d.shadow cell i).epoch : ℕ) ≤ (d.slots (d.shadow cell i).sid).epoch := by
  rcases hok with ⟨s, n, k, -, hcells⟩ | ⟨-, hrec⟩
  · rw [hcells, freedCells_first] at hfreed
    exact absurd rfl hfreed
  · rcases hrec i with heq | heq | ⟨k, e, typ, hk⟩
    · rw [heq]
      exact Nat.zero_le _
    · rw [heq]
      exact Nat.zero_le _
    · obtain ⟨b, f, -, hb, -, hf⟩ := he.used hk.entry (by rw [hk.access]; rfl)
      exact (hc.marks b f _ _ hb hf).2

theorem Settled.advances (h : Settled d) (hc : d.Clocked) (he : d.Epoched) (hx : Explained d)
    (hadv : Advances d d') : Settled d' := by
  intro cell i j u hfreed hu hepoch hlast hrace
  rw [hadv.shadow] at hfreed hu hepoch hlast hrace
  rcases hadv.owned _ u hu with ⟨hslot, hclock⟩ | hlt
  · rw [← hslot] at hu hepoch
    exact h cell i j u hfreed hu hepoch hlast (hrace.anti hclock)
  · rw [hepoch] at hlt
    exact absurd ((hx.cells cell).epoch_le hc he hfreed) hlt.not_ge

/-- One cell changes and nothing else that matters. -/
theorem Settled.setCells (h : Settled d) (cell : ℕ) (cells : Cells) (hslots : d'.slots = d.slots)
    (hthreads : d'.threads = d.threads) (hshadow : d'.shadow = update d.shadow cell cells)
    (hcell : cells firstIdx ≠ Shadow.freedMarker → ∀ i j u,
      (d.slots (cells i).sid).thr = some u → (d.slots (cells i).sid).epoch = (cells i).epoch →
      ((cells i).epoch : ℕ) ≠ kEpochLast →
      ¬ Races (d.threads u).clock (cells i) (cells i).kind (cells j)) : Settled d' := by
  intro c i j u hfreed hu hepoch hlast
  rw [hslots] at hu hepoch
  rw [hthreads]
  rw [hshadow] at hfreed hu hepoch hlast ⊢
  rcases eq_or_ne c cell with rfl | hc
  · rw [update_self] at hfreed hu hepoch hlast ⊢
    exact hcell hfreed i j u hu hepoch hlast
  · rw [update_of_ne hc] at hfreed hu hepoch hlast ⊢
    exact h c i j u hfreed hu hepoch hlast

theorem not_owned_zeroEpoch (hc : d.Clocked) (he : d.Epoched) (hzero : (v.epoch : ℕ) = 0)
    (hu : (d.slots v.sid).thr = some u) (hepoch : (d.slots v.sid).epoch = v.epoch) : False := by
  have hpos := epoch_pos_of_owner hc he hu
  rw [hepoch, hzero] at hpos
  exact absurd hpos (lt_irrefl 0)

/-- A cell with one value is settled. -/
theorem settled_cellsOf (hc : d.Clocked) (he : d.Epoched)
    (hu : (d.slots (cellsOf v i).sid).thr = some u)
    (hepoch : (d.slots (cellsOf v i).sid).epoch = (cellsOf v i).epoch) :
    ¬ Races (d.threads u).clock (cellsOf v i) (cellsOf v i).kind (cellsOf v j) := by
  intro hrace
  rcases eq_or_ne j firstIdx with rfl | hj
  · rcases eq_or_ne i firstIdx with rfl | hi
    · exact hrace.2.1 rfl
    · rw [cellsOf_of_ne hi] at hu hepoch
      exact not_owned_zeroEpoch hc he rfl hu hepoch
  · rw [cellsOf_of_ne hj] at hrace
    exact not_races_empty hrace

theorem Settled.check {r : CheckResult} (h : Settled d) (hc : d.Clocked) (he : d.Epoched)
    (hx : Explained d) (hcur : d.Accesses t cur) (htyp : cur.OfType typ)
    (hr : Checked (d.threads t).clock cur typ (d.shadow cell) r) :
    Settled ((d.note t .internal (.access cell cur typ)).checked t cell cur typ r) := by
  refine Settled.setCells h cell r.cells rfl rfl rfl ?_
  intro _ i j u hu hepoch hlast
  cases hreport : r.report with
  | some old =>
      rw [(hr.races old hreport).1] at hu hepoch ⊢
      exact settled_cellsOf hc he hu hepoch
  | none =>
      have hclean := hr.clean hreport (hx.cells cell).noGaps
      have hfreed : d.shadow cell firstIdx ≠ Shadow.freedMarker := by
        intro heq
        apply hclean firstIdx
        rw [heq]
        exact races_freedMarker hc (Accesses.sid_ne hc he hcur) hcur.touches
      rcases hr.kept hreport i with hi | hi
      · rw [hi] at hu hepoch hlast ⊢
        rcases hr.kept hreport j with hj | hj
        · rw [hj]
          exact h cell i j u hfreed hu hepoch hlast
        · -- The current access was checked against the remembered one.
          rw [hj]
          intro hrace
          have htu : t ≠ u := by
            rintro rfl
            have hslot := (hc.owner _ _ hu).1
            have hcurrent := (current_eq_some_iff.mp (hcur.current hc)).1
            exact hrace.2.1 (Option.some.inj (hslot.symm.trans hcurrent))
          have hlt := clock_lt_of_owner hc he hu (hepoch ▸ hlast) htu
          rw [hepoch] at hlt
          exact hclean i ((races_kind_iff htyp).mp (hrace.symm hlt))
      · rw [hi] at hu hepoch hlast ⊢
        have hut : u = t := by
          obtain ⟨a, e, ha, heu, hopens⟩ := opened_of_owner hc he hu
          obtain ⟨b, f, hb, hft, hopens'⟩ := he.opened (hcur.current hc)
          rw [hepoch] at hopens
          cases he.unique ha hb hopens hopens'
          cases ha.symm.trans hb
          exact heu.symm.trans hft
        subst hut
        rw [races_kind_iff htyp]
        rcases hr.kept hreport j with hj | hj
        · rw [hj]
          exact hclean j
        · rw [hj]
          exact fun hrace => hrace.2.1 rfl

/-! ## Steps -/

theorem advances_of_slots (hshadow : d'.shadow = d.shadow) (hslots : d'.slots = d.slots)
    (hclock : ∀ u s, (d.threads u).clock s ≤ (d'.threads u).clock s) : Advances d d' :=
  ⟨hshadow, fun s u _ => .inl ⟨by rw [hslots], hclock u⟩⟩

theorem clock_le_setThread {thr : ThreadState}
    (h : ∀ s, (d.threads t).clock s ≤ thr.clock s) (u : Tid) (s : Sid) :
    (d.threads u).clock s ≤ ((d.setThread t thr).threads u).clock s := by
  rcases eq_or_ne u t with rfl | hu
  · simpa [setThread] using h s
  · simp [setThread, hu]

theorem advances_attach (hc : d.Clocked) (hattach : d.slotAttachAndLock t = some d') :
    Advances d d' := by
  obtain ⟨s, d₁, hpre, -, -, hover, -, hslot, rfl⟩ := slotAttachAndLock_spec hattach
  have hc₁ := hc.preempts hpre
  refine ⟨hpre.shadow, ?_⟩
  intro s' u hu
  rcases eq_or_ne s' s with rfl | hs'
  · right
    obtain ⟨hinc, -⟩ := epochInc_of_not_overflow (hc₁.last s') hover
    rw [← hpre.epoch_eq hc]
    simp [Detector.note, setThread, setSlot, hinc]
  · left
    have hu₁ : (d₁.slots s').thr = some u := by
      simpa [Detector.note, setThread, setSlot, hs'] using hu
    have hut : u ≠ t := by
      rintro rfl
      have howner := (hc₁.owner s' u hu₁).1
      rw [hpre.threads, hslot] at howner
      cases howner
    rcases hpre.slots s' with heq | ⟨owner, -, heq⟩
    · refine ⟨by simp [Detector.note, setThread, setSlot, hs', heq], ?_⟩
      intro s₂
      simp [Detector.note, setThread, setSlot, hut, hpre.threads]
    · rw [heq] at hu₁
      cases hu₁

theorem advances_detach {exiting : Bool} (hdetach : d.slotDetachImpl t exiting = some d') :
    Advances d d' := by
  obtain ⟨s, -, ⟨-, rfl⟩ | ⟨-, rfl⟩⟩ := slotDetachImpl_spec hdetach
  · exact advances_of_slots rfl rfl (clock_le_setThread fun _ => le_rfl)
  · refine ⟨rfl, ?_⟩
    intro s' u hu
    rcases eq_or_ne s' s with rfl | hs'
    · simp [setSlot] at hu
    · refine .inl ⟨by simp [setSlot, setThread, hs'], ?_⟩
      rcases eq_or_ne u t with rfl | hu'
      · simp [setSlot, setThread]
      · simp [setSlot, setThread, hu']

theorem advances_publish {a : Action Object} {c : Object → Option VectorClock}
    (hc : (({ d with clocks := c } : Detector).note t a .plain).Clocked) (hown : d.Owns t)
    (hinc : (({ d with clocks := c } : Detector).note t a .plain).incrementEpoch t = some d') :
    Advances d d' := by
  rcases hc.incrementEpoch_cases hown hinc with
    ⟨-, rfl⟩ | ⟨s, n, thr, -, hthr, hnew, -, -, -, -, -, -, rfl⟩
  · exact advances_of_slots rfl rfl fun _ _ => le_rfl
  · refine ⟨rfl, ?_⟩
    intro s' u hu
    rcases eq_or_ne s' s with rfl | hs'
    · right
      simpa [Detector.note, setThread, setSlot] using hnew
    · left
      have hu' : (d.slots s').thr = some u := by
        simpa [Detector.note, setThread, setSlot, hs'] using hu
      have hut : u ≠ t := by
        rintro rfl
        have h₁ := (hc.owner s' u hu').1
        have h₂ := (hc.owner s u hthr).1
        exact hs' (Option.some.inj (h₁.symm.trans h₂))
      refine ⟨by simp [Detector.note, setThread, setSlot, hs'], ?_⟩
      intro s₂
      simp [Detector.note, setThread, setSlot, hut]

theorem settled_step (hstep : Step vectorize d d') (hc : d.Clocked) (he : d.Epoched)
    (hx : Explained d) (h : Settled d) : Settled d' := by
  cases hstep with
  | attach hattach => exact h.advances hc he hx (advances_attach hc hattach)
  | detach hdetach => exact h.advances hc he hx (advances_detach hdetach)
  | requeue => exact h.advances hc he hx (advances_of_slots rfl rfl fun _ _ => le_rfl)
  | @acquire t _ x =>
      refine h.advances hc he hx (advances_of_slots rfl rfl (clock_le_setThread ?_))
      intro s
      cases d.clocks x with
      | none => exact le_rfl
      | some c => exact le_max_left _ _
  | release hown hinc => exact h.advances hc he hx (advances_publish hc.release hown hinc)
  | releaseStore hown hinc =>
      exact h.advances hc he hx (advances_publish hc.releaseStore hown hinc)
  | freeClock => exact h.advances hc he hx (advances_of_slots rfl rfl fun _ _ => le_rfl)
  | ignore t thr _ _ _ hclock =>
      exact h.advances hc he hx
        (advances_of_slots rfl rfl (clock_le_setThread fun s => by rw [hclock]))
  | repeated => exact h.advances hc he hx (advances_of_slots rfl rfl fun _ _ => le_rfl)
  | check t cell cur typ tracePos hcur htyp =>
      exact h.check hc he hx hcur htyp (runChecks_checked (hc.clock_le_last t) htyp)
  | markFreed t cell cur =>
      refine h.setCells cell (freedCells cur.sid cur.epoch) rfl rfl rfl ?_
      intro hfreed
      rw [freedCells_first] at hfreed
      exact absurd rfl hfreed
  | wipe t cell =>
      refine h.setCells cell emptyCells rfl rfl rfl ?_
      intro _ i j u _ _ _ hrace
      exact not_races_empty hrace
  | imitate t cell cur =>
      refine h.setCells cell (cellsOf cur) rfl rfl ?_ ?_
      · simp [imitateCell, wipeCell, Detector.note, Detector.setCells]
      · intro _ i j u hu hepoch _
        exact settled_cellsOf hc he hu hepoch

theorem settled_steps (hsteps : Steps vectorize d d') (hc : d.Clocked) (he : d.Epoched)
    (hx : Explained d) (h : Settled d) : Settled d' := by
  induction hsteps with
  | refl => exact h
  | tail hsteps hstep ih =>
      obtain ⟨hc', he'⟩ := Steps.clocked hsteps hc he
      exact settled_step hstep hc' he' (explained_steps hsteps hc he hx) ih

theorem initial_settled : Settled Detector.initial := by
  intro cell i j u _ hu
  cases hu

theorem run_settled {env : Env} {ops : List Op} {ctx : Ctx}
    (hrun : Ctx.initial.run env ops = some ctx) : Settled ctx.detector :=
  settled_steps (Ctx.run_moves Ctx.initial_ignoreOk hrun) initial_clocked initial_epoched
    initial_explained initial_settled

/-! ## The fast path -/

theorem sameAccess_eq : d.sameAccess vectorize cell cur typ =
    containsSameAccess (d.shadow cell) cur typ := by
  cases vectorize with
  | false => rfl
  | true => exact containsSameAccessV_eq

theorem containsSameAccess_iff {cells : Cells} : containsSameAccess cells cur typ = true ↔
    ∃ i, if typ.read = true then
        ({ cells i with isRead := true } : Shadow) = cur ∨
          typ.noRodata = false ∧ cells i = Shadow.kRodata
      else cells i = cur := by
  rw [containsSameAccess, List.any_eq_true]
  constructor
  · intro h
    obtain ⟨i, -, hi⟩ := h
    refine ⟨i, ?_⟩
    cases hread : typ.read with
    | false => simpa [hread] using hi
    | true => simpa [hread] using hi
  · intro h
    obtain ⟨i, hi⟩ := h
    refine ⟨i, List.mem_finRange i, ?_⟩
    cases hread : typ.read with
    | false => simpa [hread] using hi
    | true => simpa [hread] using hi

/-- What a match of the fast path is: the same bytes in the same epoch, by an access that is at
least as strong. -/
theorem same_of_containsSameAccess {cells : Cells}
    (hrodata : typ.read = true → typ.noRodata = false → ∀ i, cells i ≠ Shadow.kRodata)
    (h : containsSameAccess cells cur typ = true) :
    ∃ i, (cells i).access = cur.access ∧ (cells i).sid = cur.sid ∧
      (cells i).epoch = cur.epoch ∧ (cells i).isAtomic = cur.isAtomic ∧
      ((cells i).isRead = true → cur.isRead = true) := by
  obtain ⟨i, hi⟩ := containsSameAccess_iff.mp h
  refine ⟨i, ?_⟩
  split at hi
  · rename_i hread
    rcases hi with heq | ⟨hno, heq⟩
    · rw [← heq]
      exact ⟨rfl, rfl, rfl, rfl, fun _ => rfl⟩
    · exact absurd heq (hrodata hread hno i)
  · rw [hi]
    exact ⟨rfl, rfl, rfl, rfl, id⟩

/-- The bytes of an access are next to each other; those of the marker behind freed memory are
not. -/
theorem accessMask_ne_kFreeAccess {addr size : ℕ} (hle : size ≤ 8) :
    accessMask addr size ≠ Shadow.kFreeAccess := by
  have hall : ∀ a : Fin 8, ∀ n : Fin 9,
      BitVec.ofNat 8 ((2 ^ (n : ℕ) - 1) * 2 ^ (a : ℕ)) ≠ Shadow.kFreeAccess := by decide
  exact hall ⟨addr % 8, Nat.mod_lt _ (by decide)⟩ ⟨size, Nat.lt_succ_of_le hle⟩

theorem not_containsSameAccess_freed {s : Sid} {n : Fin 16384} (hc : d.Clocked) (he : d.Epoched)
    (hcur : d.Accesses t cur) (hmask : cur.access ≠ Shadow.kFreeAccess) :
    containsSameAccess (freedCells s n) cur typ = false := by
  by_contra hsame
  have hrodata : ∀ i, freedCells s n i ≠ Shadow.kRodata := by
    intro i
    rcases eq_or_ne i firstIdx with rfl | hne
    · rw [freedCells_first]
      decide
    · rcases eq_or_ne i secondIdx with rfl | hne'
      · rw [freedCells_second]
        intro heq
        exact absurd (congrArg Shadow.access heq) (by change Shadow.kFreeAccess ≠ _; decide)
      · rw [freedCells_of_ne hne hne']
        decide
  obtain ⟨i, haccess, hsid, -⟩ := same_of_containsSameAccess (fun _ _ => hrodata)
    (by simpa using hsame)
  rcases eq_or_ne i firstIdx with rfl | hne
  · rw [freedCells_first] at hsid
    exact Accesses.sid_ne hc he hcur hsid.symm
  · rcases eq_or_ne i secondIdx with rfl | hne'
    · rw [freedCells_second] at haccess
      exact hmask haccess.symm
    · rw [freedCells_of_ne hne hne'] at haccess
      exact hcur.touches haccess.symm

theorem not_races_of_same (h : Settled d) (hc : d.Clocked) (he : d.Epoched) (hx : Explained d)
    {s : Sid} (hslot : (d.threads t).slot = some s) (hown : (d.slots s).thr = some t)
    (hlast : ((d.threads t).fastState.epoch : ℕ) ≠ kEpochLast)
    (hcur : d.Accesses t cur) (htyp : cur.OfType typ) (hmask : cur.access ≠ Shadow.kFreeAccess)
    (hrodata : typ.read = true → typ.noRodata = false →
      ∀ i, d.shadow cell i ≠ Shadow.kRodata)
    (hsame : containsSameAccess (d.shadow cell) cur typ = true) :
    ∀ j, ¬ Races (d.threads t).clock cur typ (d.shadow cell j) := by
  have hfreed : d.shadow cell firstIdx ≠ Shadow.freedMarker := by
    intro heq
    rcases hx.cells cell with ⟨s, n, k, -, hcells⟩ | ⟨-, hrec⟩
    · rw [hcells, not_containsSameAccess_freed hc he hcur hmask] at hsame
      cases hsame
    · rcases hrec firstIdx with hno | hno | hrec
      · rw [heq] at hno
        exact absurd hno (by decide)
      · rw [heq] at hno
        exact absurd hno (by decide)
      · apply hrec.sid_ne hc he
        rw [heq]
        rfl
  obtain ⟨i, haccess, hsid, hepoch, hatomic, hread⟩ :=
    same_of_containsSameAccess hrodata hsame
  have hcurSid : cur.sid = s := hcur.sid.trans (hc.running t s hslot).1
  have howner := hc.owner s t hown
  intro j hrace
  obtain ⟨hoverlap, hne, hkinds, hlt⟩ := (races_kind_iff htyp).mpr hrace
  refine h cell i j t hfreed ?_ ?_ ?_ ⟨by rwa [haccess], by rwa [hsid], ?_, hlt⟩
  · rw [hsid, hcurSid]
    exact hown
  · rw [hsid, hcurSid, howner.2, hepoch, hcur.epoch]
  · rw [hepoch, hcur.epoch]
    exact hlast
  · simp only [Shadow.isBothReadsOrAtomic, Shadow.kind, Bool.or_eq_false_iff,
      Bool.and_eq_false_iff] at hkinds ⊢
    refine ⟨hkinds.1.imp id ?_, by rw [hatomic]; exact hkinds.2⟩
    intro hwrite
    by_contra hno
    rw [hread (by simpa using hno)] at hwrite
    cases hwrite

end Mair.RaceDetector
