import Mathlib.Logic.Relation
import Mair.RaceDetector.Runtime

/-! # The steps of the detector

Every operation of the runtime takes the detector through a few kinds of steps. What is proved of
each kind holds of every run. -/

namespace Mair.RaceDetector

open Function Causality Relation

namespace Detector

/-- The thread runs under its slot: the slot was not handed on. -/
def Owns (d : Detector) (t : Tid) : Prop :=
  ∃ s, (d.threads t).slot = some s ∧ (d.slots s).thr = some t

/-- The value describes an access that the thread can make now. -/
structure Accesses (d : Detector) (t : Tid) (cur : Shadow) : Prop where
  slot : (d.threads t).slot.isSome = true
  sid : cur.sid = (d.threads t).fastState.sid
  epoch : cur.epoch = (d.threads t).fastState.epoch
  touches : cur.access ≠ 0#8

inductive Step (vectorize : Bool) (d : Detector) : Detector → Prop where
  | attach {t d'} (h : d.slotAttachAndLock t = some d') : Step vectorize d d'
  | detach {t exiting d'} (h : d.slotDetachImpl t exiting = some d') : Step vectorize d d'
  | requeue (queue : List Sid) (h : ∀ s ∈ queue, s ∈ d.slotQueue) :
      Step vectorize d { d with slotQueue := queue }
  | acquire {t : Tid} (hown : d.Owns t) (x : Object) : Step vectorize d (d.acquire t x)
  | release {t x d'} (hown : d.Owns t) (h : (d.release t x).incrementEpoch t = some d') :
      Step vectorize d d'
  | releaseStore {t x d'} (hown : d.Owns t) (h : (d.releaseStore t x).incrementEpoch t = some d') :
      Step vectorize d d'
  | freeClock (t : Tid) (x : Object) : Step vectorize d (d.freeClock t x)
  | ignore (t : Tid) (thr : ThreadState) (hslot : thr.slot = (d.threads t).slot)
      (hsid : thr.fastState.sid = (d.threads t).fastState.sid)
      (hepoch : thr.fastState.epoch = (d.threads t).fastState.epoch)
      (hclock : thr.clock = (d.threads t).clock)
      (hslotEpoch : thr.slotEpoch = (d.threads t).slotEpoch)
      (hignore : ((d.threads t).ignoreReadsAndWrites = 0 →
          (d.threads t).fastState.ignoreAccesses = false) →
        thr.ignoreReadsAndWrites = 0 → thr.fastState.ignoreAccesses = false) :
      Step vectorize d (d.setThread t thr)
  | repeated (t : Tid) (cell : ℕ) (cur : Shadow) (typ : AccessType) (hcur : d.Accesses t cur)
      (htyp : cur.OfType typ) : Step vectorize d (d.note t .internal (.access cell cur typ))
  | check (t : Tid) (cell : ℕ) (cur : Shadow) (typ : AccessType) (tracePos : ℕ)
      (hcur : d.Accesses t cur) (htyp : cur.OfType typ) :
      Step vectorize d ((d.note t .internal (.access cell cur typ)).checked t cell cur typ
        (runChecks vectorize (d.threads t).clock cur typ tracePos (d.shadow cell)))
  | markFreed (t : Tid) (cell : ℕ) (cur : Shadow) (hcur : d.Accesses t cur) :
      Step vectorize d ((d.setCells cell (freedCells cur.sid cur.epoch)).note t .internal
        (.freed cell cur.sid cur.epoch))
  | wipe (t : Tid) (cell : ℕ) : Step vectorize d (d.wipeCell t cell)
  | imitate (t : Tid) (cell : ℕ) (cur : Shadow) (hcur : d.Accesses t cur)
      (hread : cur.isRead = false) : Step vectorize d (d.imitateCell t cur cell)

abbrev Steps (vectorize : Bool) : Detector → Detector → Prop := ReflTransGen (Step vectorize)

variable {vectorize : Bool} {d d' : Detector} {t : Tid} {env : Env}

/-! ## Slots -/

/-- Slots may have been taken from their threads; a taken slot keeps the epoch of its thread. -/
structure Preempts (d d' : Detector) : Prop where
  threads : d'.threads = d.threads
  clocks : d'.clocks = d.clocks
  shadow : d'.shadow = d.shadow
  reports : d'.reports = d.reports
  log : d'.log = d.log
  globalEpoch : d'.globalEpoch = d.globalEpoch
  slotQueue : ∀ s ∈ d'.slotQueue, s ∈ d.slotQueue
  slots : ∀ s, d'.slots s = d.slots s ∨ ∃ owner, (d.slots s).thr = some owner ∧
    d'.slots s = ⟨none, (d.threads owner).fastState.epoch⟩

theorem Preempts.trans {d'' : Detector} (h : Preempts d d') (h' : Preempts d' d'') :
    Preempts d d'' := by
  refine ⟨h'.threads.trans h.threads, h'.clocks.trans h.clocks, h'.shadow.trans h.shadow,
    h'.reports.trans h.reports, h'.log.trans h.log, h'.globalEpoch.trans h.globalEpoch,
    fun s hs => h.slotQueue s (h'.slotQueue s hs), ?_⟩
  intro s
  rcases h'.slots s with heq | ⟨owner, hthr, heq⟩
  · rw [heq]
    exact h.slots s
  · rcases h.slots s with hs | ⟨_, -, hs⟩
    · rw [h.threads] at heq
      exact .inr ⟨owner, hs ▸ hthr, heq⟩
    · rw [hs] at hthr
      cases hthr

theorem popSlot_mem {slots : Sid → TidSlot} {queue queue' : List Sid} {s : Sid}
    (h : popSlot slots queue = some (s, queue')) :
    s ∈ queue ∧ ∀ s' ∈ queue', s' ∈ queue := by
  induction queue with
  | nil => cases h
  | cons s₀ queue ih =>
      rw [popSlot] at h
      split at h
      · cases h
        refine ⟨List.mem_cons_self, ?_⟩
        intro s' hs'
        rcases List.mem_append.mp hs' with hs' | hs'
        · exact List.mem_cons_of_mem _ hs'
        · rw [List.mem_singleton.mp hs']
          exact List.mem_cons_self
      · obtain ⟨hs, hsub⟩ := ih h
        exact ⟨List.mem_cons_of_mem _ hs, fun s' hs' => List.mem_cons_of_mem _ (hsub s' hs')⟩

theorem preempts_preempt {queue : List Sid} {s : Sid} (hsub : ∀ s ∈ queue, s ∈ d.slotQueue) :
    Preempts d (preempt { d with slotQueue := queue } s) ∧
      ((preempt { d with slotQueue := queue } s).slots s).thr = none := by
  rw [preempt]
  cases hthr : (d.slots s).thr with
  | none => exact ⟨⟨rfl, rfl, rfl, rfl, rfl, rfl, hsub, fun _ => .inl rfl⟩, hthr⟩
  | some owner =>
      refine ⟨⟨rfl, rfl, rfl, rfl, rfl, rfl, hsub, ?_⟩, by simp [setSlot]⟩
      intro s'
      rcases eq_or_ne s' s with rfl | hs'
      · exact .inr ⟨owner, hthr, by simp [setSlot]⟩
      · exact .inl (by simp [setSlot, hs'])

theorem findSlotLoop_spec {fuel : ℕ} {s : Sid} (h : findSlotLoop fuel d = some (s, d')) :
    Preempts d d' ∧ s ∈ d.slotQueue ∧ (d'.slots s).thr = none ∧
      (d'.slots s).epoch ≠ kEpochLast := by
  induction fuel generalizing d with
  | zero => cases h
  | succ fuel ih =>
      simp only [findSlotLoop, Option.bind_eq_bind] at h
      obtain ⟨⟨s', queue⟩, hpop, h⟩ := Option.bind_eq_some_iff.mp h
      obtain ⟨hmem, hsub⟩ := popSlot_mem hpop
      obtain ⟨hpre, hthr⟩ := preempts_preempt (d := d) (s := s') hsub
      dsimp only at h
      split at h
      · rename_i hepoch
        cases h
        exact ⟨hpre, hmem, hthr, hepoch⟩
      · obtain ⟨hpre', hs, hrest⟩ := ih h
        have hdrop : Preempts d { preempt { d with slotQueue := queue } s' with
            slotQueue := (preempt { d with slotQueue := queue } s').slotQueue.erase s' } :=
          { hpre with slotQueue := fun s hs => hpre.slotQueue s (List.mem_of_mem_erase hs) }
        exact ⟨hdrop.trans hpre', hdrop.slotQueue s hs, hrest⟩

/-- What an attachment does: a queued slot that is not exhausted gets the thread and its next
epoch. -/
theorem slotAttachAndLock_spec (h : d.slotAttachAndLock t = some d') :
    ∃ s d₁, Preempts d d₁ ∧ s ∈ d.slotQueue ∧ (d₁.slots s).epoch ≠ kEpochLast ∧
      epochOverflow (epochInc (d₁.slots s).epoch) = false ∧ (d₁.slots s).thr = none ∧
      (d.threads t).slot = none ∧
      d' = ((d₁.setSlot s ⟨some t, epochInc (d₁.slots s).epoch⟩).setThread t
        ((d.threads t).attach d.globalEpoch s (epochInc (d₁.slots s).epoch))).note t .internal
          (.epoch s (epochInc (d₁.slots s).epoch)) := by
  simp only [slotAttachAndLock, Option.bind_eq_bind] at h
  obtain ⟨⟨s, d₁⟩, hfind, h⟩ := Option.bind_eq_some_iff.mp h
  obtain ⟨hpre, hs, hthr, hepoch⟩ := findSlotLoop_spec hfind
  dsimp only at h
  split at h
  · cases h
  · rename_i hcheck
    simp only [Bool.or_eq_true, not_or, Bool.not_eq_true, Option.isSome_eq_false_iff,
      Option.isNone_iff_eq_none, hpre.threads] at hcheck
    refine ⟨s, d₁, hpre, hs, hepoch, hcheck.1.1, hthr, hcheck.2, ?_⟩
    rw [hpre.threads, hpre.globalEpoch] at h
    cases h
    rfl

theorem slotAttachAndLock_owns (h : d.slotAttachAndLock t = some d') : d'.Owns t := by
  obtain ⟨s, d₁, -, -, -, -, -, -, rfl⟩ := slotAttachAndLock_spec h
  exact ⟨s, by simp [note, setThread, ThreadState.attach], by simp [note, setThread, setSlot]⟩

/-- What a detachment does: the slot keeps the epoch of a thread that still has it. -/
theorem slotDetachImpl_spec {exiting : Bool} (h : d.slotDetachImpl t exiting = some d') :
    ∃ s, (d.threads t).slot = some s ∧
      (((d.slots s).thr ≠ some t ∧ d' = d.setThread t { d.threads t with slot := none }) ∨
        ((d.slots s).thr = some t ∧
          d' = (d.setThread t { d.threads t with slot := none }).setSlot s
            ⟨none, (d.threads t).fastState.epoch⟩)) := by
  simp only [slotDetachImpl, Option.bind_eq_bind] at h
  obtain ⟨s, hs, h⟩ := Option.bind_eq_some_iff.mp h
  refine ⟨s, hs, ?_⟩
  split at h
  · rename_i hthr
    cases h
    exact .inl ⟨hthr, rfl⟩
  · rename_i hthr
    split at h
    · cases h
    · cases h
      exact .inr ⟨not_not.mp hthr, rfl⟩

/-- The last epoch of a slot is not left. -/
theorem incrementEpoch_spec (h : d.incrementEpoch t = some d') :
    (epochOverflow (epochInc (d.threads t).fastState.epoch) = true ∧ d' = d) ∨
      ∃ s, epochOverflow (epochInc (d.threads t).fastState.epoch) = false ∧
        (d.threads t).slot = some s ∧
        d' = ((d.setThread t { d.threads t with
          clock := (d.threads t).clock.set (d.threads t).fastState.sid
            (epochInc (d.threads t).fastState.epoch)
          fastState := (d.threads t).fastState.setEpoch
            (epochInc (d.threads t).fastState.epoch) }).setSlot s
          { d.slots s with epoch := epochInc (d.threads t).fastState.epoch }).note t .internal
            (.epoch (d.threads t).fastState.sid (epochInc (d.threads t).fastState.epoch)) := by
  simp only [incrementEpoch, Option.bind_eq_bind] at h
  split at h
  · rename_i hover
    cases h
    exact .inl ⟨hover, rfl⟩
  · rename_i hover
    obtain ⟨s, hs, h⟩ := Option.bind_eq_some_iff.mp h
    cases h
    exact .inr ⟨s, by simpa using hover, hs, rfl⟩

theorem slotLock_steps (vectorize : Bool) (h : d.slotLock t = some d') :
    Steps vectorize d d' ∧ d'.Owns t := by
  simp only [slotLock, Option.bind_eq_bind, Option.bind_eq_some_iff] at h
  obtain ⟨s, hs, h⟩ := h
  split at h
  · rename_i hown
    cases h
    exact ⟨.refl, s, hs, hown.1⟩
  · obtain ⟨d₁, hdetach, hattach⟩ := Option.bind_eq_some_iff.mp h
    exact ⟨.tail (.single (.detach hdetach)) (.attach hattach),
      slotAttachAndLock_owns hattach⟩

theorem traceSwitchPart_steps (h : d.traceSwitchPart t = some d') : Steps vectorize d d' := by
  simp only [traceSwitchPart, Option.bind_eq_bind, Option.bind_eq_some_iff] at h
  obtain ⟨d₁, hlock, s, -, h⟩ := h
  have hsteps := (slotLock_steps vectorize hlock).1
  split at h
  · rename_i hmem
    cases h
    refine hsteps.tail (.requeue _ ?_)
    intro s' hs'
    rcases List.mem_append.mp hs' with hs' | hs'
    · exact List.mem_of_mem_erase hs'
    · rwa [List.mem_singleton.mp hs']
  · cases h
    exact hsteps

theorem Owns.acquire {x : Object} (h : d.Owns t) : (d.acquire t x).Owns t := by
  obtain ⟨s, hs, hthr⟩ := h
  exact ⟨s, by simpa [Detector.acquire, note, setThread] using hs, hthr⟩

theorem Owns.isSome (h : d.Owns t) : (d.threads t).slot.isSome = true := by
  obtain ⟨s, hs, -⟩ := h
  rw [hs]
  rfl

/-! ## Ignored accesses -/

/-- The ignore bit is only set while the counter says so. -/
def IgnoreOk (d : Detector) : Prop :=
  ∀ t, (d.threads t).ignoreReadsAndWrites = 0 → (d.threads t).fastState.ignoreAccesses = false

theorem IgnoreOk.setThread {thr : ThreadState} (h : d.IgnoreOk)
    (hthr : thr.ignoreReadsAndWrites = 0 → thr.fastState.ignoreAccesses = false) :
    (d.setThread t thr).IgnoreOk := by
  intro u
  simp only [Detector.setThread]
  rcases eq_or_ne u t with rfl | hu
  · rw [update_self]
    exact hthr
  · rw [update_of_ne hu]
    exact h u

theorem IgnoreOk.incrementEpoch (h : d.IgnoreOk) (hinc : d.incrementEpoch t = some d') :
    d'.IgnoreOk := by
  rcases incrementEpoch_spec hinc with ⟨-, rfl⟩ | ⟨s, -, -, rfl⟩
  · exact h
  · exact IgnoreOk.setThread h (h t)

theorem Step.ignoreOk (hstep : Step vectorize d d') (h : d.IgnoreOk) : d'.IgnoreOk := by
  cases hstep with
  | @attach t _ hattach =>
      obtain ⟨s, d₁, hpre, -, -, -, -, -, rfl⟩ := slotAttachAndLock_spec hattach
      have h₁ : (d₁.setSlot s ⟨some t, epochInc (d₁.slots s).epoch⟩).IgnoreOk := by
        intro u
        simp only [setSlot, hpre.threads]
        exact h u
      exact h₁.setThread (h t)
  | @detach t exiting _ hdetach =>
      obtain ⟨s, -, ⟨-, rfl⟩ | ⟨-, rfl⟩⟩ := slotDetachImpl_spec hdetach
      · exact h.setThread (h t)
      · exact h.setThread (h t)
  | requeue => exact h
  | @acquire t _ x => exact h.setThread (h t)
  | release _ hinc => exact IgnoreOk.incrementEpoch (d := d.release _ _) h hinc
  | releaseStore _ hinc => exact IgnoreOk.incrementEpoch (d := d.releaseStore _ _) h hinc
  | freeClock => exact h
  | ignore t thr _ _ _ _ _ hignore => exact h.setThread (hignore (h t))
  | repeated => exact h
  | check => exact h
  | markFreed => exact h
  | wipe => exact h
  | imitate => exact h

theorem Steps.ignoreOk (hsteps : Steps vectorize d d') (h : d.IgnoreOk) : d'.IgnoreOk := by
  induction hsteps with
  | refl => exact h
  | tail _ hstep ih => exact hstep.ignoreOk ih

/-! ## Accesses -/

theorem Accesses.of_threads {cur : Shadow} (h : d.Accesses t cur)
    (hthr : d'.threads t = d.threads t) : d'.Accesses t cur :=
  ⟨hthr ▸ h.slot, hthr ▸ h.sid, hthr ▸ h.epoch, h.touches⟩

theorem accessMask_ne_zero {addr size : ℕ} (hpos : size ≠ 0) (hle : size ≤ 8) :
    accessMask addr size ≠ 0#8 := by
  have hall : ∀ a : Fin 8, ∀ n : Fin 9, n ≠ ⟨0, by decide⟩ →
      BitVec.ofNat 8 ((2 ^ (n : ℕ) - 1) * 2 ^ (a : ℕ)) ≠ 0#8 := by decide
  apply hall ⟨addr % 8, Nat.mod_lt _ (by decide)⟩ ⟨size, Nat.lt_succ_of_le hle⟩
  intro h
  exact hpos (Fin.mk.inj h)

theorem check_steps {cell : ℕ} {cur : Shadow} {typ : AccessType} {tracePos : ℕ} {raced : Bool}
    (hcur : d.Accesses t cur) (htyp : cur.OfType typ)
    (h : (d.note t .internal (.access cell cur typ)).check vectorize t cell cur typ tracePos =
      some (d', raced)) :
    Steps vectorize d d' ∧ (raced = false → d'.threads t = d.threads t) := by
  simp only [check, Option.bind_eq_bind] at h
  have hstep : Step vectorize d _ := .check t cell cur typ tracePos hcur htyp
  split at h
  · cases h
    exact ⟨.single hstep, fun _ => rfl⟩
  · split at h
    · obtain ⟨d₁, hlock, h⟩ := Option.bind_eq_some_iff.mp h
      cases h
      exact ⟨(ReflTransGen.single hstep).trans (slotLock_steps _ hlock).1, by simp⟩
    · cases h
      exact ⟨.single hstep, by simp⟩

theorem accessCell_steps {cell : ℕ} {cur : Shadow} {typ : AccessType} {tracePos : ℕ}
    {raced : Bool} (hcur : d.Accesses t cur) (htyp : cur.OfType typ)
    (h : d.accessCell vectorize t cell cur typ tracePos = some (d', raced)) :
    Steps vectorize d d' ∧ (raced = false → d'.threads t = d.threads t) := by
  rw [accessCell] at h
  split at h
  · cases h
    exact ⟨.single (.repeated t cell cur typ hcur htyp), fun _ => rfl⟩
  · exact check_steps hcur htyp h

theorem isSome_of_not_isNone {α : Type*} {o : Option α} (h : ¬ o.isNone = true) :
    o.isSome = true := by
  simpa [Option.isSome_iff_ne_none] using h

theorem accesses_make {pos size : ℕ} {typ : AccessType}
    (hslot : (d.threads t).slot.isSome = true) (hpos : size ≠ 0) (hle : size ≤ 8) :
    d.Accesses t (Shadow.make (d.threads t).fastState pos size typ) :=
  ⟨hslot, rfl, rfl, accessMask_ne_zero hpos hle⟩

theorem ofType_make {s : FastState} {pos size : ℕ} {typ : AccessType}
    (h : s.ignoreAccesses = false) : (Shadow.make s pos size typ).OfType typ :=
  ⟨rfl, by simp [Shadow.make, h]⟩

theorem accessPieces_steps {typ : AccessType} {tracePos : ℕ} {ps : List Piece}
    (hslot : (d.threads t).slot.isSome = true)
    (hignore : (d.threads t).fastState.ignoreAccesses = false)
    (h : d.accessPieces env t typ tracePos ps = some d') : Steps env.vectorize d d' := by
  induction ps generalizing d with
  | nil =>
      cases h
      exact .refl
  | cons p ps ih =>
      simp only [accessPieces, Option.bind_eq_bind] at h
      split at h
      · cases h
      · rename_i hsize
        simp only [Bool.or_eq_true, decide_eq_true_eq, not_or, Nat.not_lt] at hsize
        obtain ⟨⟨d₁, raced⟩, hcell, h⟩ := Option.bind_eq_some_iff.mp h
        obtain ⟨hsteps, hsame⟩ :=
          accessCell_steps (accesses_make hslot hsize.1 hsize.2) (ofType_make hignore) hcell
        split at h
        · cases h
          exact hsteps
        · rename_i hraced
          have hthr := hsame (by simpa using hraced)
          exact hsteps.trans (ih (by rw [hthr]; exact hslot) (by rw [hthr]; exact hignore) h)

theorem accessMemory_steps {typ : AccessType} {tracePos : ℕ} {ps : List Piece}
    (h : d.accessMemory env t typ tracePos ps = some d') : Steps env.vectorize d d' := by
  rw [accessMemory] at h
  split at h
  · cases h
    exact .refl
  · rename_i hignore
    split at h
    · cases h
    · rename_i hslot
      exact accessPieces_steps (isSome_of_not_isNone hslot) (by simpa using hignore) h

theorem memoryAccessRange_steps {addr size tracePos : ℕ} {isRead : Bool}
    (h : d.memoryAccessRange env t addr size isRead tracePos = some d') :
    Steps env.vectorize d d' := by
  rw [memoryAccessRange] at h
  split at h
  · cases h
    exact .refl
  · exact accessMemory_steps h

theorem freeCells_steps {cur : Shadow} {tracePos : ℕ} {cells : List ℕ}
    (hcur : d.Accesses t cur) (htyp : cur.OfType freeAccess)
    (h : d.freeCells env t cur tracePos cells = some d') : Steps env.vectorize d d' := by
  induction cells generalizing d with
  | nil =>
      cases h
      exact .refl
  | cons cell cells ih =>
      simp only [freeCells, Option.bind_eq_bind, Option.bind_eq_some_iff] at h
      obtain ⟨⟨d₁, raced⟩, hcheck, h⟩ := h
      obtain ⟨hsteps, hsame⟩ := check_steps hcur htyp hcheck
      split at h
      · cases h
        exact hsteps
      · rename_i hraced
        have hthr := hsame (by simpa using hraced)
        have hcur' : d₁.Accesses t cur := hcur.of_threads hthr
        exact (hsteps.tail (.markFreed t cell cur hcur')).trans (ih (hcur'.of_threads rfl) h)

theorem memoryRangeFreed_steps {addr size tracePos : ℕ} (hslot : (d.threads t).slot.isSome = true)
    (hignore : (d.threads t).fastState.ignoreAccesses = false)
    (h : d.memoryRangeFreed env t addr size tracePos = some d') : Steps env.vectorize d d' :=
  freeCells_steps (accesses_make hslot (by decide) (by decide)) (ofType_make hignore) h

theorem wipeCells_steps (cells : List ℕ) :
    Steps vectorize d (cells.foldl (fun d cell => d.wipeCell t cell) d) := by
  induction cells generalizing d with
  | nil => exact .refl
  | cons cell cells ih => exact (ReflTransGen.single (.wipe t cell)).trans ih

theorem memoryRangeSet_steps {addr size : ℕ} {val : Option Shadow}
    (hval : ∀ cur, val = some cur → d.Accesses t cur ∧ cur.isRead = false) :
    Steps vectorize d (d.memoryRangeSet env t addr size val) := by
  rw [memoryRangeSet]
  split
  · exact .refl
  · cases val with
    | none => exact wipeCells_steps _
    | some cur =>
        obtain ⟨hcur, hread⟩ := hval cur rfl
        simp only
        generalize addr / 8 + size / 8 = last
        generalize List.range' (addr / 8) (size / 8) = cells
        induction cells generalizing d with
        | nil => exact .refl
        | cons cell cells ih =>
            rw [List.foldl_cons]
            split
            · exact (ReflTransGen.single (.imitate t cell cur hcur hread)).trans
                (ih (fun cur' h => by cases h; exact ⟨hcur.of_threads rfl, hread⟩)
                  (hcur.of_threads rfl))
            · exact (ReflTransGen.single (.wipe t cell)).trans
                (ih (fun cur' h => by cases h; exact ⟨hcur.of_threads rfl, hread⟩)
                  (hcur.of_threads rfl))

theorem memoryResetRange_steps {addr size : ℕ} :
    Steps vectorize d (d.memoryResetRange env t addr size) := by
  rw [memoryResetRange]
  apply memoryRangeSet_steps
  intro cur h
  cases h

theorem memoryRangeImitateWrite_steps {addr size : ℕ}
    (h : d.memoryRangeImitateWrite env t addr size = some d') : Steps vectorize d d' := by
  rw [memoryRangeImitateWrite] at h
  split at h
  · cases h
  · rename_i hslot
    cases h
    apply memoryRangeSet_steps
    intro cur hcur
    cases hcur
    exact ⟨accesses_make (isSome_of_not_isNone hslot) (by decide) (by decide), rfl⟩

end Detector

/-! ## Operations -/

namespace Ctx

variable {env : Env} {ctx ctx' : Ctx} {t tid : Tid} {addr size tracePos : ℕ} {typ : AccessType}
  {flagz : MutexFlags} {mo fmo : MemoryOrder}

/-- The detector moves by steps. -/
def Moves (env : Env) (ctx ctx' : Ctx) : Prop :=
  Detector.Steps env.vectorize ctx.detector ctx'.detector

theorem Moves.refl : Moves env ctx ctx := ReflTransGen.refl

theorem Moves.trans {ctx'' : Ctx} (h : Moves env ctx ctx') (h' : Moves env ctx' ctx'') :
    Moves env ctx ctx'' := ReflTransGen.trans h h'

/-- What happens beside the detector does not matter. -/
theorem Moves.congr {ctx₁ : Ctx} (h : Moves env ctx₁ ctx') (heq : ctx₁.detector = ctx.detector) :
    Moves env ctx ctx' := by
  rw [Moves, ← heq]
  exact h

theorem detect_eq_some_iff {f : Detector → Option Detector} :
    ctx.detect f = some ctx' ↔
      ∃ d, f ctx.detector = some d ∧ ctx' = { ctx with detector := d } := by
  constructor
  · intro h
    obtain ⟨d, hd, h⟩ := Option.bind_eq_some_iff.mp h
    cases h
    exact ⟨d, hd, rfl⟩
  · intro h
    obtain ⟨d, hd, rfl⟩ := h
    exact Option.bind_eq_some_iff.mpr ⟨d, hd, rfl⟩

theorem detect_moves {f : Detector → Option Detector} (h : ctx.detect f = some ctx')
    (hf : ∀ d, f ctx.detector = some d → Detector.Steps env.vectorize ctx.detector d) :
    Moves env ctx ctx' := by
  obtain ⟨d, hd, rfl⟩ := detect_eq_some_iff.mp h
  exact hf d hd

theorem detect_slotLock (env : Env) (h : ctx.detect (fun d => d.slotLock t) = some ctx') :
    Moves env ctx ctx' ∧ ctx'.detector.Owns t := by
  obtain ⟨d, hd, rfl⟩ := detect_eq_some_iff.mp h
  exact Detector.slotLock_steps env.vectorize hd

@[simp] theorem setSync_detector {s : SyncVar} : (ctx.setSync addr s).detector = ctx.detector :=
  rfl

@[simp] theorem misuse_detector {b : Bool} {kind : MutexMisuse} :
    (ctx.misuse b kind addr).detector = ctx.detector := by
  rw [misuse]
  split <;> rfl

theorem accessMutex_moves (h : ctx.accessMutex env t addr typ tracePos = some ctx') :
    Moves env ctx ctx' := by
  rw [accessMutex] at h
  split at h
  · exact detect_moves h (fun d hd => Detector.accessMemory_steps hd)
  · cases h
    exact .refl

theorem detect_acquire (env : Env) {x : Object}
    (h : ctx.detect (fun d => some (d.acquire t x)) = some ctx')
    (hown : ctx.detector.Owns t) : Moves env ctx ctx' :=
  detect_moves h (fun d hd => by cases hd; exact .single (.acquire hown x))

theorem detect_freeClock {x : Object}
    (h : ctx.detect (fun d => some (d.freeClock t x)) = some ctx') : Moves env ctx ctx' :=
  detect_moves h (fun d hd => by cases hd; exact .single (.freeClock t x))

theorem detect_release (env : Env) {x : Object}
    (h : ctx.detect (fun d => (d.release t x).incrementEpoch t) = some ctx')
    (hown : ctx.detector.Owns t) :
    Moves env ctx ctx' :=
  detect_moves h (fun _ hd => .single (.release hown hd))

theorem detect_releaseStore (env : Env) {x : Object}
    (h : ctx.detect (fun d => (d.releaseStore t x).incrementEpoch t) = some ctx')
    (hown : ctx.detector.Owns t) :
    Moves env ctx ctx' :=
  detect_moves h (fun _ hd => .single (.releaseStore hown hd))

/-! ### Mutexes -/

theorem mutexCreate_moves (h : ctx.mutexCreate env t addr flagz tracePos = some ctx') :
    Moves env ctx ctx' := by
  simp only [mutexCreate, Option.bind_eq_bind, Option.bind_some] at h
  split at h
  · obtain ⟨ctx₁, haccess, h⟩ := Option.bind_eq_some_iff.mp h
    obtain ⟨ctx₂, hlock, h⟩ := Option.bind_eq_some_iff.mp h
    cases h
    exact (accessMutex_moves haccess).trans (detect_slotLock env hlock).1
  · obtain ⟨ctx₂, hlock, h⟩ := Option.bind_eq_some_iff.mp h
    cases h
    exact (detect_slotLock env hlock).1

theorem resetSync_moves (h : ctx.resetSync t addr = some ctx') : Moves env ctx ctx' := by
  simp only [resetSync, Option.bind_eq_bind] at h
  obtain ⟨ctx₁, hfree, h⟩ := Option.bind_eq_some_iff.mp h
  cases h
  refine (detect_moves hfree ?_ : Moves env ctx ctx₁)
  intro d hd
  cases hd
  exact .tail (.single (.freeClock t _)) (.freeClock t _)

theorem mutexDestroy_moves (h : ctx.mutexDestroy env t addr flagz tracePos = some ctx') :
    Moves env ctx ctx' := by
  simp only [mutexDestroy, Option.bind_eq_bind] at h
  split at h
  · cases h
    exact .refl
  · obtain ⟨ctx₁, hlock, h⟩ := Option.bind_eq_some_iff.mp h
    have hmoves := (detect_slotLock env hlock).1
    split at h
    · cases h
      exact hmoves
    · obtain ⟨ctx₂, hreset, h⟩ := Option.bind_eq_some_iff.mp h
      obtain ⟨ctx₃, haccess, h⟩ := Option.bind_eq_some_iff.mp h
      cases h
      have hall := (hmoves.trans (resetSync_moves hreset)).trans (accessMutex_moves haccess)
      simpa [Moves] using hall

/-- A mutex operation starts with an access to the mutex and the lock of the slot. -/
theorem lockMutex_moves {ctx₁ ctx₂ : Ctx}
    (haccess : ctx.accessMutex env t addr typ tracePos = some ctx₁)
    (hlock : ctx₁.detect (fun d => d.slotLock t) = some ctx₂) :
    Moves env ctx ctx₂ ∧ ctx₂.detector.Owns t :=
  ⟨(accessMutex_moves haccess).trans (detect_slotLock env hlock).1,
    (detect_slotLock env hlock).2⟩

theorem mutexPostLock_moves {recs : ℤ}
    (h : ctx.mutexPostLock env t addr flagz recs tracePos = some ctx') :
    Moves env ctx ctx' := by
  simp only [mutexPostLock, Option.bind_eq_bind, Option.bind_some] at h
  split at h
  · cases h
  · obtain ⟨ctx₁, haccess, h⟩ := Option.bind_eq_some_iff.mp h
    obtain ⟨ctx₂, hlock, h⟩ := Option.bind_eq_some_iff.mp h
    obtain ⟨hmoves, hown⟩ := lockMutex_moves haccess hlock
    split at h
    · cases h
    · split at h
      · obtain ⟨ctx₃, hacquire, h⟩ := Option.bind_eq_some_iff.mp h
        cases h
        have hsteps : Moves env ctx₂ ctx₃ := by
          refine Moves.congr (detect_moves hacquire ?_) rfl
          intro d hd
          cases hd
          exact .tail (.single (.acquire hown _)) (.acquire hown.acquire _)
        simpa [Moves] using hmoves.trans hsteps
      · cases h
        simpa [Moves] using hmoves

theorem mutexUnlock_moves (h : ctx.mutexUnlock env t addr flagz tracePos = some ctx') :
    Moves env ctx ctx' := by
  simp only [mutexUnlock, Option.bind_eq_bind] at h
  obtain ⟨ctx₁, haccess, h⟩ := Option.bind_eq_some_iff.mp h
  obtain ⟨ctx₂, hlock, h⟩ := Option.bind_eq_some_iff.mp h
  obtain ⟨hmoves, hown⟩ := lockMutex_moves haccess hlock
  split at h
  · cases h
    simpa [Moves] using hmoves
  · split at h
    · exact hmoves.trans (Moves.congr (detect_releaseStore env h hown) rfl)
    · cases h
      exact hmoves

theorem mutexPostReadLock_moves (h : ctx.mutexPostReadLock env t addr flagz tracePos = some ctx') :
    Moves env ctx ctx' := by
  simp only [mutexPostReadLock, Option.bind_eq_bind, Option.bind_some] at h
  obtain ⟨ctx₁, haccess, h⟩ := Option.bind_eq_some_iff.mp h
  obtain ⟨ctx₂, hlock, h⟩ := Option.bind_eq_some_iff.mp h
  obtain ⟨hmoves, hown⟩ := lockMutex_moves haccess hlock
  split at h
  · obtain ⟨ctx₃, hacquire, h⟩ := Option.bind_eq_some_iff.mp h
    cases h
    have hsteps := detect_acquire env hacquire hown
    simpa [Moves] using hmoves.trans hsteps
  · cases h
    simpa [Moves] using hmoves

theorem mutexReadUnlock_moves (h : ctx.mutexReadUnlock env t addr tracePos = some ctx') :
    Moves env ctx ctx' := by
  simp only [mutexReadUnlock, Option.bind_eq_bind, Option.bind_some] at h
  obtain ⟨ctx₁, haccess, h⟩ := Option.bind_eq_some_iff.mp h
  obtain ⟨ctx₂, hlock, h⟩ := Option.bind_eq_some_iff.mp h
  obtain ⟨hmoves, hown⟩ := lockMutex_moves haccess hlock
  split at h
  · obtain ⟨ctx₃, hrelease, h⟩ := Option.bind_eq_some_iff.mp h
    cases h
    have hsteps := detect_release env hrelease hown
    simpa [Moves] using hmoves.trans hsteps
  · cases h
    simpa [Moves] using hmoves

theorem mutexReadOrWriteUnlock_moves
    (h : ctx.mutexReadOrWriteUnlock env t addr tracePos = some ctx') : Moves env ctx ctx' := by
  simp only [mutexReadOrWriteUnlock, Option.bind_eq_bind] at h
  obtain ⟨ctx₁, haccess, h⟩ := Option.bind_eq_some_iff.mp h
  obtain ⟨ctx₂, hlock, h⟩ := Option.bind_eq_some_iff.mp h
  obtain ⟨hmoves, hown⟩ := lockMutex_moves haccess hlock
  split at h
  · split at h
    · exact hmoves.trans (Moves.congr (detect_release env h hown) rfl)
    · cases h
      exact hmoves
  · split at h
    · split at h
      · cases h
      · split at h
        · exact hmoves.trans (Moves.congr (detect_releaseStore env h hown) rfl)
        · cases h
          exact hmoves
    · cases h
      simpa [Moves] using hmoves

theorem mutexRepair_moves (h : ctx.mutexRepair t addr = some ctx') : Moves env ctx ctx' := by
  simp only [mutexRepair, Option.bind_eq_bind] at h
  obtain ⟨ctx₁, hlock, h⟩ := Option.bind_eq_some_iff.mp h
  cases h
  exact (detect_slotLock env hlock).1

/-! ### Addresses and atomics -/

theorem detect_lockAcquire {x : Object} (h : (ctx.detect fun d => do
      let d ← d.slotLock t
      some (d.acquire t x)) = some ctx') : Moves env ctx ctx' := by
  refine detect_moves h ?_
  intro d hd
  obtain ⟨d₁, hlock, hd⟩ := Option.bind_eq_some_iff.mp hd
  cases hd
  obtain ⟨hsteps, hown⟩ := Detector.slotLock_steps env.vectorize hlock
  exact hsteps.tail (.acquire hown x)

theorem acquire_moves (h : ctx.acquire t addr = some ctx') : Moves env ctx ctx' := by
  rw [acquire] at h
  split at h
  · cases h
    exact .refl
  · split at h
    · cases h
      exact .refl
    · exact detect_lockAcquire h

theorem releaseWith_release_moves (h : ctx.releaseWith t addr Detector.release = some ctx') :
    Moves env ctx ctx' := by
  simp only [releaseWith, Option.bind_eq_bind] at h
  obtain ⟨ctx₁, hlock, h⟩ := Option.bind_eq_some_iff.mp h
  obtain ⟨hmoves, hown⟩ := detect_slotLock env hlock
  exact hmoves.trans (Moves.congr (detect_release env h hown) rfl)

theorem releaseWith_releaseStore_moves
    (h : ctx.releaseWith t addr Detector.releaseStore = some ctx') : Moves env ctx ctx' := by
  simp only [releaseWith, Option.bind_eq_bind] at h
  obtain ⟨ctx₁, hlock, h⟩ := Option.bind_eq_some_iff.mp h
  obtain ⟨hmoves, hown⟩ := detect_slotLock env hlock
  exact hmoves.trans (Moves.congr (detect_releaseStore env h hown) rfl)

theorem release_moves (h : ctx.release t addr = some ctx') : Moves env ctx ctx' := by
  rw [release] at h
  split at h
  · cases h
    exact .refl
  · exact releaseWith_release_moves h

theorem releaseStore_moves (h : ctx.releaseStore t addr = some ctx') : Moves env ctx ctx' := by
  rw [releaseStore] at h
  split at h
  · cases h
    exact .refl
  · exact releaseWith_releaseStore_moves h

theorem atomicAccess_moves {isRead : Bool}
    (h : ctx.atomicAccess env t addr size isRead tracePos = some ctx') : Moves env ctx ctx' :=
  detect_moves h (fun _ hd => Detector.accessMemory_steps hd)

theorem atomicLoad_moves (h : ctx.atomicLoad env t addr size mo tracePos = some ctx') :
    Moves env ctx ctx' := by
  simp only [atomicLoad, Option.bind_eq_bind, Option.bind_some] at h
  split at h
  · cases h
    exact .refl
  · split at h
    · exact atomicAccess_moves h
    · split at h
      · exact atomicAccess_moves h
      · obtain ⟨ctx₁, hacquire, h⟩ := Option.bind_eq_some_iff.mp h
        exact (detect_lockAcquire hacquire).trans (atomicAccess_moves h)

theorem atomicStore_moves (h : ctx.atomicStore env t addr size mo tracePos = some ctx') :
    Moves env ctx ctx' := by
  simp only [atomicStore, Option.bind_eq_bind] at h
  split at h
  · cases h
    exact .refl
  · obtain ⟨ctx₁, haccess, h⟩ := Option.bind_eq_some_iff.mp h
    split at h
    · cases h
      exact atomicAccess_moves haccess
    · exact (atomicAccess_moves haccess).trans (releaseWith_releaseStore_moves h)

theorem synchronize_moves {releases : Bool}
    (h : ctx.synchronize t addr mo releases = some ctx') : Moves env ctx ctx' := by
  simp only [synchronize, Option.bind_eq_bind] at h
  obtain ⟨ctx₁, hlock, h⟩ := Option.bind_eq_some_iff.mp h
  obtain ⟨hmoves, hown⟩ := detect_slotLock env hlock
  split at h
  · refine hmoves.trans (Moves.congr (detect_moves h ?_) rfl)
    intro d hd
    exact .tail (.single (.acquire hown (.clock addr))) (.release hown.acquire hd)
  · split at h
    · exact hmoves.trans (Moves.congr (detect_release env h hown) rfl)
    · split at h
      · exact hmoves.trans (Moves.congr (detect_acquire env h hown) rfl)
      · cases h
        exact hmoves

theorem atomicRMW_moves (h : ctx.atomicRMW env t addr size mo tracePos = some ctx') :
    Moves env ctx ctx' := by
  simp only [atomicRMW, Option.bind_eq_bind] at h
  split at h
  · cases h
    exact .refl
  · obtain ⟨ctx₁, haccess, h⟩ := Option.bind_eq_some_iff.mp h
    split at h
    · cases h
      exact atomicAccess_moves haccess
    · exact (atomicAccess_moves haccess).trans (synchronize_moves h)

theorem atomicCAS_moves {success : Bool}
    (h : ctx.atomicCAS env t addr size mo fmo success tracePos = some ctx') :
    Moves env ctx ctx' := by
  simp only [atomicCAS, Option.bind_eq_bind] at h
  split at h
  · cases h
    exact .refl
  · obtain ⟨ctx₁, haccess, h⟩ := Option.bind_eq_some_iff.mp h
    split at h
    · cases h
      exact atomicAccess_moves haccess
    · exact (atomicAccess_moves haccess).trans (synchronize_moves h)

/-! ### Threads -/

@[simp] theorem setContext_detector {tctx : ThreadContext} :
    (ctx.setContext tid tctx).detector = ctx.detector := rfl

theorem mainCreate_moves (h : ctx.mainCreate tid = some ctx') : Moves env ctx ctx' := by
  rw [mainCreate] at h
  split at h
  · cases h
  · cases h
    exact .refl

theorem threadCreate_moves {detached : Bool} (h : ctx.threadCreate t tid detached = some ctx') :
    Moves env ctx ctx' := by
  simp only [threadCreate, Option.bind_eq_bind] at h
  split at h
  · cases h
  · split at h
    · cases h
      exact .refl
    · obtain ⟨ctx₁, hlock, h⟩ := Option.bind_eq_some_iff.mp h
      obtain ⟨hmoves, hown⟩ := detect_slotLock env hlock
      exact hmoves.trans (Moves.congr (detect_releaseStore env h hown) rfl)

/-- The first steps of a thread: it gets a slot, takes over what its creator left and writes its
stack. -/
theorem threadStart_moves {isMain : Bool} {stkAddr stkSize : ℕ}
    (h : ctx.threadStart env tid isMain stkAddr stkSize = some ctx') : Moves env ctx ctx' := by
  simp only [threadStart, Option.bind_eq_bind] at h
  split at h
  · cases h
  · have hrest : ∀ ctx₁ : Ctx, ((ctx₁.detect fun d => some (d.freeClock tid (.thread tid))).bind
        fun ctx => ctx.detect fun d =>
          if (isMain || stkSize = 0) = true then some d
          else d.memoryRangeImitateWrite env tid stkAddr stkSize) = some ctx' →
        Moves env ctx₁ ctx' := by
      intro ctx₁ h
      obtain ⟨ctx₂, hfree, h⟩ := Option.bind_eq_some_iff.mp h
      refine (detect_freeClock hfree).trans (detect_moves h ?_)
      intro d hd
      split at hd
      · cases hd
        exact .refl
      · exact Detector.memoryRangeImitateWrite_steps hd
    split at h
    · exact hrest (ctx.setContext tid _) h
    · obtain ⟨ctx₁, hattach, h⟩ := Option.bind_eq_some_iff.mp h
      refine Moves.trans (Moves.congr (detect_moves hattach ?_) rfl) (hrest ctx₁ h)
      intro d hd
      obtain ⟨d₁, hd₁, hd⟩ := Option.bind_eq_some_iff.mp hd
      cases hd
      have hstep : Detector.Steps env.vectorize ctx.detector d₁ :=
        .single (.attach hd₁)
      split
      · exact hstep.tail (.acquire (Detector.slotAttachAndLock_owns hd₁) _)
      · exact hstep

theorem threadFinish_moves (h : ctx.threadFinish env tid = some ctx') : Moves env ctx ctx' := by
  simp only [threadFinish, Option.bind_eq_bind] at h
  split at h
  · cases h
  · obtain ⟨ctx₁, hwipe, h⟩ := Option.bind_eq_some_iff.mp h
    have hmoves : Moves env ctx ctx₁ := by
      refine detect_moves hwipe ?_
      intro d hd
      cases hd
      exact Detector.wipeCells_steps _
    have hrest : ∀ ctx₂ : Ctx, ((ctx₂.detect fun d => d.slotDetachImpl tid true).bind fun c =>
        some (c.setContext tid { c.contexts tid with
          status := if (ctx.contexts tid).detached = true then .dead else .finished })) =
          some ctx' → Moves env ctx₂ ctx' := by
      intro ctx₂ h
      obtain ⟨ctx₃, hdetach, h⟩ := Option.bind_eq_some_iff.mp h
      cases h
      have hsteps : Moves env ctx₂ ctx₃ := by
        refine detect_moves hdetach ?_
        intro d hd
        exact .single (.detach hd)
      exact hsteps
    split at h
    · exact hmoves.trans (hrest _ (by simpa using h))
    · obtain ⟨ctx₂, hlock, h⟩ := Option.bind_eq_some_iff.mp h
      obtain ⟨hlocked, hown⟩ := detect_slotLock env hlock
      split at h
      · obtain ⟨ctx₃, hstore, h⟩ := Option.bind_eq_some_iff.mp h
        exact (hmoves.trans hlocked).trans
          (Moves.trans (Moves.congr (detect_releaseStore env hstore hown) rfl) (hrest _ h))
      · exact (hmoves.trans hlocked).trans (hrest _ (by simpa using h))

theorem threadJoin_moves (h : ctx.threadJoin t tid = some ctx') : Moves env ctx ctx' := by
  simp only [threadJoin, Option.bind_eq_bind] at h
  split at h
  · cases h
  · split at h
    · exact Moves.congr (detect_freeClock h) rfl
    · obtain ⟨ctx₁, hacquire, h⟩ := Option.bind_eq_some_iff.mp h
      refine Moves.trans (Moves.congr (detect_moves hacquire ?_) rfl) (detect_freeClock h)
      intro d hd
      obtain ⟨d₁, hlock, hd⟩ := Option.bind_eq_some_iff.mp hd
      cases hd
      obtain ⟨hsteps, hown⟩ := Detector.slotLock_steps env.vectorize hlock
      split
      · exact hsteps.tail (.acquire hown _)
      · exact hsteps

theorem threadDetach_moves (h : ctx.threadDetach t tid = some ctx') : Moves env ctx ctx' := by
  simp only [threadDetach, Option.bind_eq_bind] at h
  split at h
  · cases h
    exact .refl
  · obtain ⟨ctx₁, hfree, h⟩ := Option.bind_eq_some_iff.mp h
    have hmoves : Moves env ctx ctx₁ := detect_freeClock hfree
    split at h
    · cases h
      exact hmoves
    · cases h
      exact hmoves

theorem threadIgnoreBegin_moves (h : ctx.threadIgnoreBegin t = some ctx') :
    Moves env ctx ctx' := by
  refine detect_moves h ?_
  intro d hd
  cases hd
  exact .single (.ignore t _ rfl rfl rfl rfl rfl (by simp))

theorem threadIgnoreEnd_moves (h : ctx.threadIgnoreEnd t = some ctx') : Moves env ctx ctx' := by
  refine detect_moves h ?_
  intro d hd
  simp only at hd
  split at hd
  · cases hd
  · cases hd
    refine .single (.ignore t _ rfl ?_ ?_ rfl rfl ?_)
    · dsimp only
      split <;> rfl
    · dsimp only
      split <;> rfl
    · intro _ hleft
      dsimp only at hleft ⊢
      rw [if_pos hleft]

theorem threadIgnoreSyncBegin_moves (h : ctx.threadIgnoreSyncBegin t = some ctx') :
    Moves env ctx ctx' := by
  refine detect_moves h ?_
  intro d hd
  cases hd
  exact .single (.ignore t _ rfl rfl rfl rfl rfl id)

theorem threadIgnoreSyncEnd_moves (h : ctx.threadIgnoreSyncEnd t = some ctx') :
    Moves env ctx ctx' := by
  refine detect_moves h ?_
  intro d hd
  simp only at hd
  split at hd
  · cases hd
  · cases hd
    exact .single (.ignore t _ rfl rfl rfl rfl rfl id)

/-! ### The heap -/

theorem onUserAlloc_moves {p sz : ℕ} {write : Bool}
    (h : ctx.onUserAlloc env t p sz write = some ctx') : Moves env ctx ctx' := by
  rw [onUserAlloc] at h
  refine Moves.congr (detect_moves h ?_) rfl
  intro d hd
  simp only at hd
  split at hd
  · exact Detector.memoryRangeImitateWrite_steps hd
  · cases hd
    exact Detector.memoryResetRange_steps

theorem freeSyncs_moves {addrs : List ℕ} (h : ctx.freeSyncs t addrs = some ctx') :
    Moves env ctx ctx' := by
  induction addrs generalizing ctx with
  | nil =>
      cases h
      exact .refl
  | cons addr addrs ih =>
      simp only [freeSyncs, Option.bind_eq_bind] at h
      split at h
      · exact ih h
      · obtain ⟨ctx₁, hreset, h⟩ := Option.bind_eq_some_iff.mp h
        obtain ⟨ctx₂, hsome, h⟩ := Option.bind_eq_some_iff.mp h
        cases hsome
        exact (resetSync_moves hreset).trans (Moves.congr (ih h) rfl)

theorem resetSync_threads (h : ctx.resetSync t addr = some ctx') :
    ctx'.detector.threads = ctx.detector.threads := by
  simp only [resetSync, Option.bind_eq_bind] at h
  obtain ⟨ctx₁, hfree, h⟩ := Option.bind_eq_some_iff.mp h
  obtain ⟨d, hd, rfl⟩ := detect_eq_some_iff.mp hfree
  cases hd
  cases h
  rfl

theorem freeSyncs_threads {addrs : List ℕ} (h : ctx.freeSyncs t addrs = some ctx') :
    ctx'.detector.threads = ctx.detector.threads := by
  induction addrs generalizing ctx with
  | nil =>
      cases h
      rfl
  | cons addr addrs ih =>
      simp only [freeSyncs, Option.bind_eq_bind] at h
      split at h
      · exact ih h
      · obtain ⟨ctx₁, hreset, h⟩ := Option.bind_eq_some_iff.mp h
        obtain ⟨ctx₂, hsome, h⟩ := Option.bind_eq_some_iff.mp h
        cases hsome
        have hthreads := resetSync_threads hreset
        exact Eq.trans (ih h) hthreads

theorem onUserFree_moves {p : ℕ} {write : Bool} (hok : ctx.detector.IgnoreOk)
    (h : ctx.onUserFree env t p write tracePos = some ctx') : Moves env ctx ctx' := by
  simp only [onUserFree, Option.bind_eq_bind] at h
  obtain ⟨sz, -, h⟩ := Option.bind_eq_some_iff.mp h
  split at h
  · exact Moves.congr (freeSyncs_moves h) rfl
  · obtain ⟨ctx₁, hlock, h⟩ := Option.bind_eq_some_iff.mp h
    obtain ⟨ctx₂, hsyncs, h⟩ := Option.bind_eq_some_iff.mp h
    obtain ⟨hlocked, hown⟩ := detect_slotLock env hlock
    have hmoves : Moves env ctx ctx₂ := Moves.trans hlocked (freeSyncs_moves hsyncs)
    have hthreads := freeSyncs_threads hsyncs
    split at h
    · rename_i hwrite
      rw [Bool.and_eq_true, decide_eq_true_eq] at hwrite
      have hslot : (ctx₂.detector.threads t).slot.isSome = true := by
        rw [hthreads]
        exact hown.isSome
      have hignore := Detector.Steps.ignoreOk hmoves hok t hwrite.2
      exact hmoves.trans
        (detect_moves h (fun d hd => Detector.memoryRangeFreed_steps hslot hignore hd))
    · cases h
      exact hmoves

/-! ### Runs -/

theorem step_moves {op : Op} (hok : ctx.detector.IgnoreOk) (h : ctx.step env op = some ctx') :
    Moves env ctx ctx' := by
  cases op with
  | memoryAccess =>
      rw [step] at h
      exact detect_moves h (fun _ hd => Detector.accessMemory_steps hd)
  | memoryAccess16 =>
      rw [step] at h
      exact detect_moves h (fun _ hd => Detector.accessMemory_steps hd)
  | unalignedMemoryAccess =>
      rw [step] at h
      exact detect_moves h (fun _ hd => Detector.accessMemory_steps hd)
  | memoryAccessRange =>
      rw [step] at h
      exact detect_moves h (fun _ hd => Detector.memoryAccessRange_steps hd)
  | memoryResetRange =>
      rw [step] at h
      refine detect_moves h ?_
      intro d hd
      cases hd
      exact Detector.memoryResetRange_steps
  | memoryRangeImitateWrite =>
      rw [step] at h
      exact detect_moves h (fun _ hd => Detector.memoryRangeImitateWrite_steps hd)
  | traceSwitchPart =>
      rw [step] at h
      exact detect_moves h (fun _ hd => Detector.traceSwitchPart_steps hd)
  | threadIgnoreBegin => exact threadIgnoreBegin_moves h
  | threadIgnoreEnd => exact threadIgnoreEnd_moves h
  | threadIgnoreSyncBegin => exact threadIgnoreSyncBegin_moves h
  | threadIgnoreSyncEnd => exact threadIgnoreSyncEnd_moves h
  | mutexCreate => exact mutexCreate_moves h
  | mutexDestroy => exact mutexDestroy_moves h
  | mutexPostLock => exact mutexPostLock_moves h
  | mutexUnlock => exact mutexUnlock_moves h
  | mutexPostReadLock => exact mutexPostReadLock_moves h
  | mutexReadUnlock => exact mutexReadUnlock_moves h
  | mutexReadOrWriteUnlock => exact mutexReadOrWriteUnlock_moves h
  | mutexRepair => exact mutexRepair_moves h
  | acquire => exact acquire_moves h
  | release => exact release_moves h
  | releaseStore => exact releaseStore_moves h
  | atomicLoad => exact atomicLoad_moves h
  | atomicStore => exact atomicStore_moves h
  | atomicRMW => exact atomicRMW_moves h
  | atomicCAS => exact atomicCAS_moves h
  | mainCreate => exact mainCreate_moves h
  | threadCreate => exact threadCreate_moves h
  | threadStart => exact threadStart_moves h
  | threadFinish => exact threadFinish_moves h
  | threadJoin => exact threadJoin_moves h
  | threadDetach => exact threadDetach_moves h
  | onUserAlloc => exact onUserAlloc_moves h
  | onUserFree => exact onUserFree_moves hok h

/-- Every run moves the detector by steps. -/
theorem run_moves {ops : List Op} (hok : ctx.detector.IgnoreOk) (h : ctx.run env ops = some ctx') :
    Moves env ctx ctx' := by
  induction ops generalizing ctx with
  | nil =>
      cases h
      exact .refl
  | cons op ops ih =>
      simp only [run, List.foldlM_cons, Option.bind_eq_bind] at h
      obtain ⟨ctx₁, hstep, h⟩ := Option.bind_eq_some_iff.mp h
      have hmoves := step_moves hok hstep
      exact hmoves.trans (ih (Detector.Steps.ignoreOk hmoves hok) h)

theorem initial_ignoreOk : initial.detector.IgnoreOk := fun _ _ => rfl

end Ctx

end Mair.RaceDetector
