import Mair.Library.Epochs
import Mair.RaceDetector.Steps

/-! # The clocks stand for happens-before

The invariant of every run: the clock of a thread or of an object summarises the epochs that its
holder knows of, and every access is made in an epoch that its thread opened. -/

namespace Mair.RaceDetector

open Function Causality

namespace Note

def opens : Note → Option (Sid × ℕ)
  | .epoch s n => some (s, n)
  | _ => none

def uses : Note → Option (Sid × ℕ)
  | .access _ cur _ => some (cur.sid, cur.epoch)
  | .freed _ s n => some (s, n)
  | _ => none

end Note

namespace Detector

/-- The epoch that the thread runs in. -/
def current (d : Detector) (t : Tid) : Option (Sid × ℕ) :=
  (d.threads t).slot.map fun s => (s, (d.threads t).fastState.epoch)

structure Clocked (d : Detector) : Prop where
  thread : ∀ t, Summarises Note.opens d.log (.thread t) (d.threads t).clock
  object : ∀ x, Summarises Note.opens d.log (.object x) ((d.clocks x).getD VectorClock.reset)
  marks : ∀ (i : ℕ) e s n, d.log[i]? = some e → e.note.opens = some (s, n) →
    0 < n ∧ n ≤ (d.slots s).epoch
  last : ∀ s, (d.slots s).epoch ≤ kEpochLast
  free : d.slots kFreeSid = ⟨none, kEpochZero⟩
  queue : kFreeSid ∉ d.slotQueue
  owner : ∀ s t, (d.slots s).thr = some t →
    (d.threads t).slot = some s ∧ (d.slots s).epoch = (d.threads t).fastState.epoch
  running : ∀ t s, (d.threads t).slot = some s →
    (d.threads t).fastState.sid = s ∧ (d.threads t).slotEpoch = d.globalEpoch
  fresh : ∀ t, (d.threads t).slotEpoch ≠ d.globalEpoch → (d.threads t).clock = VectorClock.reset

abbrev Epoched (d : Detector) : Prop := Epochs Note.opens Note.uses kEpochLast d.log d.current

variable {vectorize : Bool} {d d' : Detector} {t : Tid} {x : Object} {s : Sid}

theorem Clocked.clock_le (h : d.Clocked) (t : Tid) (s : Sid) :
    (d.threads t).clock s ≤ (d.slots s).epoch := by
  rcases Nat.eq_zero_or_pos ((d.threads t).clock s) with hzero | hpos
  · rw [hzero]
    exact Nat.zero_le _
  · obtain ⟨i, e, m, -, hi, he, hle⟩ := (h.thread t s _ hpos).mp le_rfl
    exact hle.trans (h.marks i e s m hi he).2

theorem Clocked.clock_le_last (h : d.Clocked) (t : Tid) (s : Sid) :
    (d.threads t).clock s ≤ kEpochLast := (h.clock_le t s).trans (h.last s)

/-- No epoch of `kFreeSid` is ever opened. -/
theorem Clocked.ne_kFreeSid (h : d.Clocked) {i n : ℕ} {e : LogEntry} (hi : d.log[i]? = some e)
    (he : e.note.opens = some (s, n)) : s ≠ kFreeSid := by
  rintro rfl
  obtain ⟨hpos, hle⟩ := h.marks i e kFreeSid n hi he
  rw [h.free] at hle
  exact absurd (hpos.trans_le hle) (lt_irrefl _)

theorem Clocked.clock_kFreeSid (h : d.Clocked) (t : Tid) : (d.threads t).clock kFreeSid = 0 := by
  have hle := h.clock_le t kFreeSid
  rw [h.free] at hle
  exact Nat.le_zero.mp hle

theorem initial_clocked : initial.Clocked where
  thread _ := summarises_nil
  object _ := summarises_nil
  marks _ _ _ _ hi := by cases hi
  last _ := Nat.zero_le _
  free := rfl
  queue := by simp [initial]
  owner _ _ h := by cases h
  running _ _ h := by cases h
  fresh _ _ := rfl

theorem initial_epoched : initial.Epoched := Epochs.nil fun _ => rfl

/-! ## What does not touch the log -/

/-- The shadow memory, the reports and the order of the queue do not matter. -/
theorem Clocked.congr (h : d.Clocked) (hlog : d'.log = d.log) (hthreads : d'.threads = d.threads)
    (hclocks : d'.clocks = d.clocks) (hslots : d'.slots = d.slots)
    (hglobal : d'.globalEpoch = d.globalEpoch) (hqueue : kFreeSid ∉ d'.slotQueue) :
    d'.Clocked where
  thread t := hlog ▸ hthreads ▸ h.thread t
  object x := hlog ▸ hclocks ▸ h.object x
  marks := hlog ▸ hslots ▸ h.marks
  last := hslots ▸ h.last
  free := hslots ▸ h.free
  queue := hqueue
  owner := hthreads ▸ hslots ▸ h.owner
  running := hthreads ▸ hglobal ▸ h.running
  fresh := hthreads ▸ hglobal ▸ h.fresh

theorem Preempts.epoch_eq (hpre : Preempts d d') (h : d.Clocked) (s : Sid) :
    (d'.slots s).epoch = (d.slots s).epoch := by
  rcases hpre.slots s with heq | ⟨owner, hthr, heq⟩
  · rw [heq]
  · rw [heq]
    exact (h.owner s owner hthr).2.symm

theorem Clocked.preempts (h : d.Clocked) (hpre : Preempts d d') : d'.Clocked where
  thread t := hpre.log ▸ hpre.threads ▸ h.thread t
  object x := hpre.log ▸ hpre.clocks ▸ h.object x
  marks i e s n hi he := by
    rw [hpre.epoch_eq h]
    exact h.marks i e s n (hpre.log ▸ hi) he
  last s := by
    rw [hpre.epoch_eq h]
    exact h.last s
  free := by
    rcases hpre.slots kFreeSid with heq | ⟨owner, hthr, -⟩
    · rw [heq, h.free]
    · rw [h.free] at hthr
      cases hthr
  queue hmem := h.queue (hpre.slotQueue _ hmem)
  owner s t hthr := by
    rw [hpre.epoch_eq h, hpre.threads]
    rcases hpre.slots s with heq | ⟨owner, -, heq⟩
    · exact h.owner s t (heq ▸ hthr)
    · rw [heq] at hthr
      cases hthr
  running := hpre.threads ▸ hpre.globalEpoch ▸ h.running
  fresh := hpre.threads ▸ hpre.globalEpoch ▸ h.fresh

/-- A thread changes nothing but its slot, which it may only give up, and what it ignores. -/
theorem Clocked.setThread (h : d.Clocked) {thr : ThreadState}
    (hclock : thr.clock = (d.threads t).clock)
    (hslotEpoch : thr.slotEpoch = (d.threads t).slotEpoch)
    (hsid : thr.fastState.sid = (d.threads t).fastState.sid)
    (hepoch : thr.fastState.epoch = (d.threads t).fastState.epoch)
    (hslot : ∀ s, thr.slot = some s → (d.threads t).slot = some s)
    (howned : ∀ s, (d.slots s).thr = some t → thr.slot = some s) :
    (d.setThread t thr).Clocked where
  thread u := by
    rcases eq_or_ne u t with rfl | hu
    · simpa [Detector.setThread, hclock] using h.thread u
    · simpa [Detector.setThread, hu] using h.thread u
  object := h.object
  marks := h.marks
  last := h.last
  free := h.free
  queue := h.queue
  owner s u hthr := by
    rcases eq_or_ne u t with rfl | hu
    · simpa [Detector.setThread, hepoch] using And.intro (howned s hthr) (h.owner s u hthr).2
    · simpa [Detector.setThread, hu] using h.owner s u hthr
  running u s hs := by
    rcases eq_or_ne u t with rfl | hu
    · have hs' : thr.slot = some s := by simpa [Detector.setThread] using hs
      simpa [Detector.setThread, hsid, hslotEpoch] using h.running u s (hslot s hs')
    · exact by simpa [Detector.setThread, hu] using h.running u s (by
        simpa [Detector.setThread, hu] using hs)
  fresh u hne := by
    rcases eq_or_ne u t with rfl | hu
    · have hfresh := h.fresh u
      simp only [Detector.setThread, update_self, hslotEpoch, hclock] at hne ⊢
      exact hfresh hne
    · have hfresh := h.fresh u
      simp only [Detector.setThread, update_of_ne hu] at hne ⊢
      exact hfresh hne

theorem preempts_setSlot (hthr : (d.slots s).thr = some t) :
    Preempts d (d.setSlot s ⟨none, (d.threads t).fastState.epoch⟩) where
  threads := rfl
  clocks := rfl
  shadow := rfl
  reports := rfl
  log := rfl
  globalEpoch := rfl
  slotQueue _ hs := hs
  slots s' := by
    rcases eq_or_ne s' s with rfl | hs'
    · exact .inr ⟨t, hthr, by simp [setSlot]⟩
    · exact .inl (by simp [setSlot, hs'])

theorem Clocked.detach {exiting : Bool} (h : d.Clocked)
    (hdetach : d.slotDetachImpl t exiting = some d') : d'.Clocked := by
  obtain ⟨s, hs, ⟨hthr, rfl⟩ | ⟨hthr, rfl⟩⟩ := slotDetachImpl_spec hdetach
  · refine h.setThread rfl rfl rfl rfl (fun _ hnone => by cases hnone) ?_
    intro s' hs'
    cases hs.symm.trans (h.owner s' t hs').1
    exact absurd hs' hthr
  · have hleft := h.preempts (preempts_setSlot hthr)
    refine hleft.setThread rfl rfl rfl rfl (fun _ hnone => by cases hnone) ?_
    intro s' hs'
    cases hs.symm.trans (hleft.owner s' t hs').1
    simp [setSlot] at hs'

/-! ## What is noted -/

theorem not_publishes_internal : ¬ (Action.internal : Action Object).Publishes x := by
  simp [Action.Publishes]

theorem not_overwrites_internal : ¬ (Action.internal : Action Object).Overwrites x := by
  simp [Action.Overwrites]

/-- The marks of a log with one more entry that opens no epoch. -/
theorem Clocked.marks_snoc (h : d.Clocked) {v : LogEntry} (hopens : v.note.opens = none)
    (i : ℕ) (e : LogEntry) (s : Sid) (n : ℕ) (hi : (d.log ++ [v])[i]? = some e)
    (he : e.note.opens = some (s, n)) : 0 < n ∧ n ≤ (d.slots s).epoch := by
  rcases getElem?_snoc_iff.mp hi with hi | ⟨-, rfl⟩
  · exact h.marks i e s n hi he
  · simp [hopens] at he

theorem Clocked.thread_snoc (h : d.Clocked) {a : Action Object} {n : Note}
    (hopens : n.opens = none) (ha : ∀ x, a ≠ .acquire x) (u : Tid) :
    Summarises Note.opens (d.note t a n).log (.thread u) (d.threads u).clock := by
  rcases eq_or_ne t u with rfl | hu
  · exact (h.thread t).thread_of_not_acquire ha hopens
  · exact (h.thread u).thread_of_ne hu

theorem Clocked.note (h : d.Clocked) {n : Note} (hopens : n.opens = none) :
    (d.note t .internal n).Clocked :=
  { h with
    thread := h.thread_snoc hopens (by simp)
    object := fun x => (h.object x).object_of_not not_publishes_internal not_overwrites_internal
    marks := h.marks_snoc hopens }

theorem Clocked.acquire (h : d.Clocked) (hown : d.Owns t) : (d.acquire t x).Clocked := by
  obtain ⟨s, hs, -⟩ := hown
  have hclock : Summarises Note.opens (d.acquire t x).log (.thread t)
      ((d.threads t).clock.acquire (d.clocks x)) := by
    have hacquired := Summarises.acquired (v := ⟨t, .acquire x, .plain⟩) (h.thread t) (h.object x)
      rfl rfl
    cases hx : d.clocks x with
    | none =>
        simp only [hx, Option.getD_none, VectorClock.reset, kEpochZero, Nat.max_zero]
          at hacquired
        exact hacquired
    | some c =>
        simp only [hx, Option.getD_some] at hacquired
        exact hacquired
  exact
    { thread := fun u => by
        rcases eq_or_ne u t with rfl | hu
        · simpa [Detector.acquire, Detector.note, Detector.setThread] using hclock
        · simpa [Detector.acquire, Detector.note, Detector.setThread, hu] using
            (h.thread u).thread_of_ne hu.symm
      object := fun y => (h.object y).object_of_not (by simp [Action.Publishes])
        (by simp [Action.Overwrites])
      marks := h.marks_snoc rfl
      last := h.last
      free := h.free
      queue := h.queue
      owner := fun s u hthr => by
        rcases eq_or_ne u t with rfl | hu
        · simpa [Detector.acquire, Detector.note, Detector.setThread] using h.owner s u hthr
        · simpa [Detector.acquire, Detector.note, Detector.setThread, hu] using h.owner s u hthr
      running := fun u s hs => by
        rcases eq_or_ne u t with rfl | hu
        · simpa [Detector.acquire, Detector.note, Detector.setThread] using h.running u s
            (by simpa [Detector.acquire, Detector.note, Detector.setThread] using hs)
        · simpa [Detector.acquire, Detector.note, Detector.setThread, hu] using h.running u s
            (by simpa [Detector.acquire, Detector.note, Detector.setThread, hu] using hs)
      fresh := fun u hne => by
        rcases eq_or_ne u t with rfl | hu
        · refine absurd (h.running u s hs).2 ?_
          simpa [Detector.acquire, Detector.note, Detector.setThread] using hne
        · simpa [Detector.acquire, Detector.note, Detector.setThread, hu] using h.fresh u
            (by simpa [Detector.acquire, Detector.note, Detector.setThread, hu] using hne) }

/-- A thread changes the clock of one object. -/
theorem Clocked.setClock (h : d.Clocked) {a : Action Object} {c : Option VectorClock}
    (ha : ∀ y, a ≠ .acquire y) (hother : ∀ y, y ≠ x → ¬ a.Publishes y ∧ ¬ a.Overwrites y)
    (hc : Summarises Note.opens (d.note t a .plain).log (.object x) (c.getD VectorClock.reset)) :
    (({ d with clocks := update d.clocks x c } : Detector).note t a .plain).Clocked :=
  { h with
    thread := h.thread_snoc rfl ha
    object := fun y => by
      rcases eq_or_ne y x with rfl | hy
      · simpa [Detector.note] using hc
      · simpa [Detector.note, hy] using (h.object y).object_of_not (hother y hy).1 (hother y hy).2
    marks := h.marks_snoc rfl }

theorem Clocked.release (h : d.Clocked) : (d.release t x).Clocked := by
  refine h.setClock (by simp) ?_ ?_
  · intro y hy
    simp [Action.Publishes, Action.Overwrites, hy.symm]
  · exact Summarises.released (v := ⟨t, .release x, .plain⟩) (h.thread t) (h.object x) rfl rfl

theorem Clocked.releaseStore (h : d.Clocked) : (d.releaseStore t x).Clocked := by
  refine h.setClock (by simp) ?_ ?_
  · intro y hy
    simp [Action.Publishes, Action.Overwrites, hy.symm]
  · exact Summarises.stored (v := ⟨t, .store x, .plain⟩) (h.thread t) rfl rfl

theorem Clocked.freeClock (h : d.Clocked) : (d.freeClock t x).Clocked := by
  refine h.setClock (by simp) ?_ ?_
  · intro y hy
    simp [Action.Publishes, Action.Overwrites, hy.symm]
  · exact Summarises.forgotten rfl

/-! ## A new epoch -/

/-- The thread opens epoch `n` of slot `s`. -/
theorem Clocked.begin (h : d.Clocked) {thr : ThreadState} {n : ℕ}
    (hclock : thr.clock = update (d.threads t).clock s n) (hslot : thr.slot = some s)
    (hsid : thr.fastState.sid = s) (hepoch : thr.fastState.epoch = n)
    (hslotEpoch : thr.slotEpoch = d.globalEpoch) (hnew : (d.slots s).epoch < n)
    (hlast : n ≤ kEpochLast) (hs : s ≠ kFreeSid)
    (hthr : ∀ u, (d.slots s).thr = some u → u = t)
    (honly : ∀ s', (d.slots s').thr = some t → s' = s) :
    (((d.setSlot s ⟨some t, n⟩).setThread t thr).note t .internal (.epoch s n)).Clocked where
  thread u := by
    rcases eq_or_ne u t with rfl | hu
    · simpa [Detector.note, Detector.setThread, setSlot, hclock] using
        Summarises.marked (v := ⟨u, .internal, .epoch s n⟩) (h.thread u) rfl rfl
          ((h.clock_le u s).trans hnew.le)
    · simpa [Detector.note, Detector.setThread, setSlot, hu] using
        (h.thread u).thread_of_ne (v := ⟨t, .internal, .epoch s n⟩) hu.symm
  object y := (h.object y).object_of_not not_publishes_internal not_overwrites_internal
  marks i e s' m hi he := by
    rcases getElem?_snoc_iff.mp hi with hi | ⟨-, rfl⟩
    · obtain ⟨hpos, hle⟩ := h.marks i e s' m hi he
      rcases eq_or_ne s' s with rfl | hs'
      · simpa [Detector.note, Detector.setThread, setSlot] using And.intro hpos (hle.trans hnew.le)
      · simpa [Detector.note, Detector.setThread, setSlot, hs'] using And.intro hpos hle
    · cases he
      simpa [Detector.note, Detector.setThread, setSlot] using (Nat.zero_le _).trans_lt hnew
  last s' := by
    rcases eq_or_ne s' s with rfl | hs'
    · simpa [Detector.note, Detector.setThread, setSlot] using hlast
    · simpa [Detector.note, Detector.setThread, setSlot, hs'] using h.last s'
  free := by simpa [Detector.note, Detector.setThread, setSlot, hs.symm] using h.free
  queue := h.queue
  owner s' u hu := by
    rcases eq_or_ne s' s with rfl | hs'
    · have hut : t = u := by simpa [Detector.note, Detector.setThread, setSlot] using hu
      simp [Detector.note, Detector.setThread, setSlot, ← hut, hslot, hepoch]
    · have hu' : (d.slots s').thr = some u := by
        simpa [Detector.note, Detector.setThread, setSlot, hs'] using hu
      rcases eq_or_ne u t with rfl | hut
      · exact absurd (honly s' hu') hs'
      · simpa [Detector.note, Detector.setThread, setSlot, hs', hut] using h.owner s' u hu'
  running u s' hs' := by
    rcases eq_or_ne u t with rfl | hu
    · have heq : s = s' := by
        simpa [Detector.note, Detector.setThread, setSlot, hslot] using hs'
      simp [Detector.note, Detector.setThread, setSlot, hsid, hslotEpoch, heq]
    · simpa [Detector.note, Detector.setThread, setSlot, hu] using h.running u s'
        (by simpa [Detector.note, Detector.setThread, setSlot, hu] using hs')
  fresh u hne := by
    rcases eq_or_ne u t with rfl | hu
    · refine absurd hslotEpoch ?_
      simpa [Detector.note, Detector.setThread, setSlot] using hne
    · simpa [Detector.note, Detector.setThread, setSlot, hu] using h.fresh u
        (by simpa [Detector.note, Detector.setThread, setSlot, hu] using hne)

theorem epochInc_of_not_overflow {n : ℕ} (hle : n ≤ kEpochLast)
    (hover : epochOverflow (epochInc n) = false) : epochInc n = n + 1 ∧ n + 1 ≤ kEpochLast := by
  simp only [epochOverflow, epochInc, kEpochOver, kEpochLast, beq_eq_false_iff_ne] at *
  omega

theorem eq_last_of_overflow {n : ℕ} (hle : n ≤ kEpochLast)
    (hover : epochOverflow (epochInc n) = true) : n = kEpochLast := by
  simp only [epochOverflow, epochInc, kEpochOver, kEpochLast, beq_iff_eq] at *
  omega

theorem setEpoch_epoch {fast : FastState} {n : ℕ} (hle : n ≤ kEpochLast) :
    ((fast.setEpoch n).epoch : ℕ) = n :=
  Nat.mod_eq_of_lt (Nat.lt_succ_of_le hle)

theorem Clocked.attach (h : d.Clocked) (hattach : d.slotAttachAndLock t = some d') :
    d'.Clocked := by
  obtain ⟨s, d₁, hpre, hs, hepoch, hover, hthr, hslot, rfl⟩ := slotAttachAndLock_spec hattach
  have h₁ := h.preempts hpre
  obtain ⟨hinc, hlast⟩ := epochInc_of_not_overflow (h₁.last s) hover
  rw [← hinc] at hlast
  refine h₁.begin ?_ rfl rfl (setEpoch_epoch hlast) hpre.globalEpoch.symm ?_ hlast ?_ ?_ ?_
  · have hfresh := h.fresh t
    simp only [ThreadState.attach, VectorClock.set, hpre.threads]
    split
    · rename_i hne
      rw [hfresh hne]
    · rfl
  · rw [hinc]
    exact Nat.lt_succ_self _
  · rintro rfl
    exact h.queue hs
  · intro u hu
    rw [hthr] at hu
    cases hu
  · intro s' hs'
    have howner := (h₁.owner s' t hs').1
    rw [hpre.threads, hslot] at howner
    cases howner

/-- The owner of a slot opens its next epoch there, if there is one. -/
theorem Clocked.incrementEpoch_cases (h : d.Clocked) (hown : d.Owns t)
    (hinc : d.incrementEpoch t = some d') :
    (((d.threads t).fastState.epoch : ℕ) = kEpochLast ∧ d' = d) ∨
      ∃ s n thr, (d.threads t).slot = some s ∧ (d.slots s).thr = some t ∧ (d.slots s).epoch < n ∧
        n ≤ kEpochLast ∧ thr.clock = update (d.threads t).clock s n ∧ thr.slot = some s ∧
        thr.fastState.sid = s ∧ (thr.fastState.epoch : ℕ) = n ∧ thr.slotEpoch = d.globalEpoch ∧
        d' = ((d.setSlot s ⟨some t, n⟩).setThread t thr).note t .internal (.epoch s n) := by
  obtain ⟨s, hs, hthr⟩ := hown
  have hepoch := (h.owner s t hthr).2
  rcases incrementEpoch_spec hinc with ⟨hover, rfl⟩ | ⟨s', hover, hs', rfl⟩
  · exact .inl ⟨eq_last_of_overflow (hepoch ▸ h.last s) hover, rfl⟩
  · cases hs.symm.trans hs'
    obtain ⟨hsid, hslotEpoch⟩ := h.running t s hs
    obtain ⟨hnext, hlast⟩ := epochInc_of_not_overflow (hepoch ▸ h.last s) hover
    rw [← hnext] at hlast
    subst hsid
    refine .inr ⟨_, _, { d.threads t with
      clock := (d.threads t).clock.set (d.threads t).fastState.sid
        (epochInc (d.threads t).fastState.epoch)
      fastState := (d.threads t).fastState.setEpoch (epochInc (d.threads t).fastState.epoch) },
      hs, hthr, ?_, hlast, rfl, hs, rfl, setEpoch_epoch hlast, hslotEpoch, ?_⟩
    · rw [hepoch, hnext]
      exact Nat.lt_succ_self _
    · rw [← hthr]
      rfl

theorem Clocked.incrementEpoch (h : d.Clocked) (hown : d.Owns t)
    (hinc : d.incrementEpoch t = some d') : d'.Clocked := by
  rcases h.incrementEpoch_cases hown hinc with
    ⟨-, rfl⟩ | ⟨s, n, thr, hs, hthr, hnew, hlast, hclock, hslot, hsid, hepoch, hslotEpoch, rfl⟩
  · exact h
  · refine h.begin hclock hslot hsid hepoch hslotEpoch hnew hlast ?_ ?_ ?_
    · rintro rfl
      rw [h.free] at hthr
      cases hthr
    · intro u hu
      exact Option.some.inj (hu.symm.trans hthr)
    · intro s' hs'
      exact Option.some.inj ((h.owner s' t hs').1.symm.trans hs)

/-! ## The epochs of the threads -/

theorem current_eq_some_iff {a : Sid × ℕ} : d.current t = some a ↔
    (d.threads t).slot = some a.1 ∧ ((d.threads t).fastState.epoch : ℕ) = a.2 := by
  simp only [current, Option.map_eq_some_iff]
  constructor
  · intro h
    obtain ⟨s, hs, rfl⟩ := h
    exact ⟨hs, rfl⟩
  · intro h
    exact ⟨a.1, h.1, by rw [h.2]⟩

theorem Accesses.current (hc : d.Clocked) {cur : Shadow} (h : d.Accesses t cur) :
    d.current t = some (cur.sid, (cur.epoch : ℕ)) := by
  obtain ⟨s, hs⟩ := Option.isSome_iff_exists.mp h.slot
  rw [current_eq_some_iff, h.epoch, h.sid, (hc.running t s hs).1]
  exact ⟨hs, rfl⟩

theorem Epoched.congr (h : d.Epoched) (hlog : d'.log = d.log)
    (hcurrent : ∀ t a, d'.current t = some a → d.current t = some a) : d'.Epoched := by
  rw [Epoched, hlog]
  exact h.closed hcurrent

theorem Epoched.preempts (h : d.Epoched) (hpre : Preempts d d') : d'.Epoched := by
  refine h.congr hpre.log ?_
  intro t a ht
  rwa [current, hpre.threads] at ht

theorem Epoched.detach {exiting : Bool} (h : d.Epoched)
    (hdetach : d.slotDetachImpl t exiting = some d') : d'.Epoched := by
  obtain ⟨s, -, ⟨-, rfl⟩ | ⟨-, rfl⟩⟩ := slotDetachImpl_spec hdetach
  · refine h.congr rfl ?_
    intro u a hu
    rcases eq_or_ne u t with rfl | hne
    · simp [current, setThread] at hu
    · simpa [current, setThread, hne] using hu
  · refine h.congr rfl ?_
    intro u a hu
    rcases eq_or_ne u t with rfl | hne
    · simp [current, setThread, setSlot] at hu
    · simpa [current, setThread, setSlot, hne] using hu

theorem Epoched.note (h : d.Epoched) {n : Note} (hopens : n.opens = none)
    (huses : ∀ a, n.uses = some a → d.current t = some a) : (d.note t .internal n).Epoched :=
  Epochs.snoc h hopens (fun a ha => ⟨rfl, huses a ha⟩)
    fun _ _ hpub _ => absurd hpub not_publishes_internal

/-- Another thread's epochs, and those of this one are closed. -/
def currentBut (d : Detector) (t : Tid) : Tid → Option (Sid × ℕ) := update d.current t none

theorem Epoched.closing (h : d.Epoched) (t : Tid) :
    Epochs Note.opens Note.uses kEpochLast d.log (d.currentBut t) := by
  refine h.closed ?_
  intro u a hu
  rcases eq_or_ne u t with rfl | hne
  · simp [currentBut] at hu
  · simpa [currentBut, hne] using hu

theorem epoched_begin {thr : ThreadState} {n : ℕ}
    (h : Epochs Note.opens Note.uses kEpochLast d.log (d.currentBut t)) (hc : d.Clocked)
    (hslot : thr.slot = some s) (hepoch : thr.fastState.epoch = n)
    (hnew : (d.slots s).epoch < n) :
    (((d.setSlot s ⟨some t, n⟩).setThread t thr).note t .internal (.epoch s n)).Epoched := by
  refine Epochs.snoc_open h (s := s) (n := n) rfl rfl rfl ?_ ?_ ?_
  · intro i e m hi he
    exact (hc.marks i e s m hi he).2.trans_lt hnew
  · rw [current_eq_some_iff]
    simp [Detector.note, setThread, hslot, hepoch]
  · intro u hu a ha
    have ha' : d.current u = some a := by
      simpa [current, Detector.note, setThread, setSlot, hu] using ha
    simpa [currentBut, hu] using ha'

theorem Epoched.attach (h : d.Epoched) (hc : d.Clocked)
    (hattach : d.slotAttachAndLock t = some d') : d'.Epoched := by
  obtain ⟨s, d₁, hpre, -, -, hover, -, -, rfl⟩ := slotAttachAndLock_spec hattach
  have hc₁ := hc.preempts hpre
  obtain ⟨hinc, hlast⟩ := epochInc_of_not_overflow (hc₁.last s) hover
  rw [← hinc] at hlast
  refine epoched_begin (Epoched.closing (Epoched.preempts h hpre) t) hc₁ rfl
    (setEpoch_epoch hlast) ?_
  rw [hinc]
  exact Nat.lt_succ_self _

/-- A thread publishes and opens its next epoch. -/
theorem Epoched.publish {a : Action Object} {c : Object → Option VectorClock} (h : d.Epoched)
    (hc : (({ d with clocks := c } : Detector).note t a .plain).Clocked) (hown : d.Owns t)
    (hinc : (({ d with clocks := c } : Detector).note t a .plain).incrementEpoch t = some d') :
    d'.Epoched := by
  rcases hc.incrementEpoch_cases hown hinc with
    ⟨hlast, rfl⟩ | ⟨s, n, thr, -, -, hnew, -, -, hslot, -, hepoch, -, rfl⟩
  · refine Epochs.snoc h rfl (fun _ hnone => by cases hnone) ?_
    intro y b _ hcur
    rw [← (current_eq_some_iff.mp hcur).2]
    exact hlast
  · refine epoched_begin ?_ hc hslot hepoch hnew
    refine Epochs.snoc (Epoched.closing h t) rfl (fun _ hnone => by cases hnone) ?_
    intro y b _ hcur
    simp [currentBut] at hcur

/-! ## Steps -/

theorem Step.clocked (hstep : Step vectorize d d') (h : d.Clocked) : d'.Clocked := by
  cases hstep with
  | attach hattach => exact h.attach hattach
  | detach hdetach => exact h.detach hdetach
  | requeue queue hsub => exact h.congr rfl rfl rfl rfl rfl fun hmem => h.queue (hsub _ hmem)
  | acquire hown => exact h.acquire hown
  | release hown hinc => exact h.release.incrementEpoch hown hinc
  | releaseStore hown hinc => exact h.releaseStore.incrementEpoch hown hinc
  | freeClock => exact h.freeClock
  | ignore t thr hslot hsid hepoch hclock hslotEpoch =>
      refine h.setThread hclock hslotEpoch hsid hepoch (fun s hs => hslot ▸ hs) ?_
      intro s hs
      rw [hslot]
      exact (h.owner s t hs).1
  | repeated => exact h.note rfl
  | check t cell cur typ =>
      have hnote : (d.note t .internal (.access cell cur typ)).Clocked := h.note rfl
      exact hnote.congr rfl rfl rfl rfl rfl hnote.queue
  | markFreed t cell cur =>
      have hset : (d.setCells cell (freedCells cur.sid cur.epoch)).Clocked :=
        h.congr rfl rfl rfl rfl rfl h.queue
      exact hset.note rfl
  | wipe t cell =>
      have hset : (d.setCells cell emptyCells).Clocked := h.congr rfl rfl rfl rfl rfl h.queue
      exact hset.note rfl
  | imitate t cell cur =>
      have hset : (d.setCells cell emptyCells).Clocked := h.congr rfl rfl rfl rfl rfl h.queue
      have hwiped : (d.wipeCell t cell).Clocked := hset.note rfl
      have hcells : ((d.wipeCell t cell).setCells cell (cellsOf cur)).Clocked :=
        hwiped.congr rfl rfl rfl rfl rfl hwiped.queue
      exact hcells.note rfl

theorem Step.epoched (hstep : Step vectorize d d') (hc : d.Clocked) (h : d.Epoched) :
    d'.Epoched := by
  cases hstep with
  | attach hattach => exact Epoched.attach h hc hattach
  | detach hdetach => exact Epoched.detach h hdetach
  | requeue => exact h
  | @acquire t _ x =>
      have hcurrent : (d.acquire t x).current = d.current := by
        funext u
        rcases eq_or_ne u t with rfl | hu
        · simp [current, Detector.acquire, Detector.note, setThread]
        · simp [current, Detector.acquire, Detector.note, setThread, hu]
      rw [Epoched, hcurrent]
      exact Epochs.snoc h rfl (fun _ hnone => by cases hnone)
        fun y _ hpub _ => by simp [Action.Publishes] at hpub
  | release hown hinc => exact Epoched.publish h hc.release hown hinc
  | releaseStore hown hinc => exact Epoched.publish h hc.releaseStore hown hinc
  | freeClock =>
      exact Epochs.snoc h rfl (fun _ hnone => by cases hnone)
        fun y _ hpub _ => by simp [Action.Publishes] at hpub
  | ignore t thr hslot _ hepoch =>
      refine h.congr rfl ?_
      intro u a hu
      rcases eq_or_ne u t with rfl | hne
      · simpa [current, setThread, hslot, hepoch] using hu
      · simpa [current, setThread, hne] using hu
  | repeated t cell cur typ hcur =>
      refine Epoched.note h rfl ?_
      intro a ha
      cases ha
      exact hcur.current hc
  | check t cell cur typ tracePos hcur =>
      refine Epoched.note h rfl ?_
      intro a ha
      cases ha
      exact hcur.current hc
  | markFreed t cell cur hcur =>
      refine Epoched.note (d := d.setCells cell _) h rfl ?_
      intro a ha
      cases ha
      exact hcur.current hc
  | wipe t cell => exact Epoched.note (d := d.setCells cell _) h rfl fun _ hnone => by cases hnone
  | imitate t cell cur hcur =>
      have hwiped : (d.wipeCell t cell).Epoched :=
        Epoched.note (d := d.setCells cell _) h rfl fun _ hnone => by cases hnone
      refine Epoched.note (d := (d.wipeCell t cell).setCells cell _) hwiped rfl ?_
      intro a ha
      cases ha
      exact hcur.current hc

/-- What holds of the clocks and the epochs holds in every run. -/
theorem Steps.clocked (hsteps : Steps vectorize d d') (hc : d.Clocked) (h : d.Epoched) :
    d'.Clocked ∧ d'.Epoched := by
  induction hsteps with
  | refl => exact ⟨hc, h⟩
  | tail _ hstep ih => exact ⟨hstep.clocked ih.1, hstep.epoched ih.1 ih.2⟩

end Detector

namespace Ctx

variable {env : Env} {ops : List Op} {ctx : Ctx}

theorem run_clocked (hrun : initial.run env ops = some ctx) :
    ctx.detector.Clocked ∧ ctx.detector.Epoched :=
  Detector.Steps.clocked (run_moves initial_ignoreOk hrun) Detector.initial_clocked
    Detector.initial_epoched

end Ctx

end Mair.RaceDetector
