import Mathlib.Logic.Function.Basic
import Mair.Library.Causality

/-! # Epochs of stamp owners

A thread opens an epoch of a stamp owner and uses it until it opens another one. An owner may be
handed on from thread to thread, with ever larger epochs. As long as a thread opens a new epoch
whenever it publishes, whoever knows that an epoch was opened knows all that was done in it. The
last epoch of an owner is used on after a publication. -/

namespace Mair.Causality

open Function

variable {T X N S : Type*}

structure Epochs (stamp use : N → Option (S × ℕ)) (last : ℕ) (h : List (Event T X N))
    (current : T → Option (S × ℕ)) : Prop where
  unique : ∀ {i j : ℕ} {e f a}, h[i]? = some e → h[j]? = some f → stamp e.note = some a →
    stamp f.note = some a → i = j
  opened : ∀ {t a}, current t = some a →
    ∃ (i : ℕ) (e : Event T X N), h[i]? = some e ∧ e.thread = t ∧ stamp e.note = some a
  latest : ∀ {t s n m} {i : ℕ} {e}, current t = some (s, n) → h[i]? = some e → e.thread = t →
    stamp e.note = some (s, m) → m ≤ n
  unpublished : ∀ {t a p} {i : ℕ} {e}, current t = some a → a.2 ≠ last → h[i]? = some e →
    stamp e.note = some a → Knows h p i → p = .thread t
  used : ∀ {i : ℕ} {e a}, h[i]? = some e → use e.note = some a →
    ∃ b f, b < i ∧ h[b]? = some f ∧ f.thread = e.thread ∧ stamp f.note = some a
  passed : ∀ {i b : ℕ} {e f s n m}, h[i]? = some e → use e.note = some (s, n) → b < i →
    h[b]? = some f → f.thread = e.thread → stamp f.note = some (s, m) → m ≤ n
  followed : ∀ {b i : ℕ} {f e a p}, h[b]? = some f → stamp f.note = some a → h[i]? = some e →
    use e.note = some a → a.2 ≠ last → Knows h p b → Knows h p i

variable {stamp use : N → Option (S × ℕ)} {last : ℕ} {h : List (Event T X N)}
  {current current' : T → Option (S × ℕ)} {v : Event T X N} {i b : ℕ} {p : Holder T X}

/-- Who learns of one event by the new one learns of the other. -/
theorem Knows.snoc_of_imp (himp : ∀ q, Knows h q b → Knows h q i) (hb : b ≠ h.length)
    (hknows : Knows (h ++ [v]) p b) : Knows (h ++ [v]) p i := by
  have hheard : Heard h v b → Heard h v i := by
    intro hb
    rcases hb with hb | ⟨x, hx, hb⟩
    · exact .inl (himp _ hb)
    · exact .inr ⟨x, hx, himp _ hb⟩
  cases p with
  | thread t =>
      rcases knows_thread_snoc_iff.mp hknows with hold | ⟨ht, heq | hold⟩
      · exact knows_thread_snoc_iff.mpr (.inl (himp _ hold))
      · exact absurd heq hb
      · exact knows_thread_snoc_iff.mpr (.inr ⟨ht, .inr (hheard hold)⟩)
  | object x =>
      rcases knows_object_snoc_iff.mp hknows with ⟨hold, hkept⟩ | ⟨hpub, heq | hold⟩
      · exact knows_object_snoc_iff.mpr (.inl ⟨himp _ hold, hkept⟩)
      · exact absurd heq hb
      · exact knows_object_snoc_iff.mpr (.inr ⟨hpub, .inr (hheard hold)⟩)

/-- Only the thread of an internal event knows of it at once. -/
theorem Knows.eq_thread (hv : v.action = .internal) (hi : Knows (h ++ [v]) p h.length) :
    p = .thread v.thread := by
  cases p with
  | thread t =>
      rcases knows_thread_snoc_iff.mp hi with hold | ⟨ht, -⟩
      · exact absurd hold.lt_length (lt_irrefl _)
      · rw [ht]
  | object x =>
      rcases knows_object_snoc_iff.mp hi with ⟨hold, -⟩ | ⟨hpub, -⟩
      · exact absurd hold.lt_length (lt_irrefl _)
      · simp [Action.Publishes, hv] at hpub

/-- An event that only one thread knew of stays with it if another thread makes the next event
or this one publishes nothing. -/
theorem Knows.eq_of_snoc {t : T} (honly : ∀ q, Knows h q i → q = .thread t)
    (hv : v.thread = t → ∀ x, ¬ v.action.Publishes x) (hi : i ≠ h.length)
    (hknows : Knows (h ++ [v]) p i) : p = .thread t := by
  have hheard : Heard h v i → v.thread = t := by
    intro hi
    rcases hi with hi | ⟨x, -, hi⟩
    · exact Holder.thread.inj (honly _ hi)
    · cases honly _ hi
  cases p with
  | thread u =>
      rcases knows_thread_snoc_iff.mp hknows with hold | ⟨rfl, heq | hold⟩
      · exact honly _ hold
      · exact absurd heq hi
      · rw [hheard hold]
  | object x =>
      rcases knows_object_snoc_iff.mp hknows with ⟨hold, -⟩ | ⟨hpub, heq | hold⟩
      · exact honly _ hold
      · exact absurd heq hi
      · exact absurd hpub (hv (hheard hold) x)

namespace Epochs

theorem nil (hcurrent : ∀ t, current t = none) :
    Epochs stamp use last ([] : List (Event T X N)) current where
  unique hi := by cases hi
  opened ht := by simp [hcurrent] at ht
  latest ht := by simp [hcurrent] at ht
  unpublished ht := by simp [hcurrent] at ht
  used hi := by cases hi
  passed hi := by cases hi
  followed hb := by cases hb

/-- Threads may close their epochs. -/
theorem closed (hepochs : Epochs stamp use last h current)
    (hcurrent : ∀ t a, current' t = some a → current t = some a) :
    Epochs stamp use last h current' :=
  { hepochs with
    opened := fun ht => hepochs.opened (hcurrent _ _ ht)
    latest := fun ht => hepochs.latest (hcurrent _ _ ht)
    unpublished := fun ht => hepochs.unpublished (hcurrent _ _ ht) }

section

variable (hepochs : Epochs stamp use last h current)

include hepochs

theorem opened_snoc {t : T} {a : S × ℕ} (ht : current t = some a) :
    ∃ (i : ℕ) (e : Event T X N), (h ++ [v])[i]? = some e ∧ e.thread = t ∧
      stamp e.note = some a := by
  obtain ⟨i, e, hi, ht, ha⟩ := hepochs.opened ht
  exact ⟨i, e, getElem?_snoc_iff.mpr (.inl hi), ht, ha⟩

theorem used_snoc {e : Event T X N} {a : S × ℕ} (hi : h[i]? = some e)
    (ha : use e.note = some a) :
    ∃ b f, b < i ∧ (h ++ [v])[b]? = some f ∧ f.thread = e.thread ∧ stamp f.note = some a := by
  obtain ⟨b, f, hlt, hb, ht, ha⟩ := hepochs.used hi ha
  exact ⟨b, f, hlt, getElem?_snoc_iff.mpr (.inl hb), ht, ha⟩

/-- An event that opens no epoch. -/
theorem snoc (hstamp : stamp v.note = none)
    (huse : ∀ a, use v.note = some a → v.action = .internal ∧ current v.thread = some a)
    (hpub : ∀ x a, v.action.Publishes x → current v.thread = some a → a.2 = last) :
    Epochs stamp use last (h ++ [v]) current where
  unique := by
    intro i j e f a hi hj he hf
    rcases getElem?_snoc_iff.mp hi with hi | ⟨-, rfl⟩
    · rcases getElem?_snoc_iff.mp hj with hj | ⟨-, rfl⟩
      · exact hepochs.unique hi hj he hf
      · simp [hstamp] at hf
    · simp [hstamp] at he
  opened := fun ht => hepochs.opened_snoc ht
  latest := by
    intro t s n m i e ht hi hte he
    rcases getElem?_snoc_iff.mp hi with hi | ⟨-, rfl⟩
    · exact hepochs.latest ht hi hte he
    · simp [hstamp] at he
  unpublished := by
    intro t a p i e ht hlast hi he hknows
    rcases getElem?_snoc_iff.mp hi with hi | ⟨-, rfl⟩
    · refine Knows.eq_of_snoc (fun q hq => hepochs.unpublished ht hlast hi he hq) ?_
        (lt_of_getElem? hi).ne hknows
      intro hvt x hx
      exact hlast (hpub x a hx (hvt ▸ ht))
    · simp [hstamp] at he
  used := by
    intro i e a hi he
    rcases getElem?_snoc_iff.mp hi with hi | ⟨rfl, rfl⟩
    · exact hepochs.used_snoc hi he
    · obtain ⟨b, f, hb, ht, hf⟩ := hepochs.opened (huse a he).2
      exact ⟨b, f, lt_of_getElem? hb, getElem?_snoc_iff.mpr (.inl hb), ht, hf⟩
  passed := by
    intro i b e f s n m hi he hlt hb ht hf
    have hb' : h[b]? = some f := by
      rcases getElem?_snoc_iff.mp hb with hb | ⟨-, rfl⟩
      · exact hb
      · simp [hstamp] at hf
    rcases getElem?_snoc_iff.mp hi with hi | ⟨rfl, rfl⟩
    · exact hepochs.passed hi he hlt hb' ht hf
    · exact hepochs.latest (huse _ he).2 hb' ht hf
  followed := by
    intro b i f e a p hb hf hi he hlast hknows
    rcases getElem?_snoc_iff.mp hb with hb' | ⟨-, rfl⟩
    · rcases getElem?_snoc_iff.mp hi with hi | ⟨rfl, rfl⟩
      · exact Knows.snoc_of_imp (fun q hq => hepochs.followed hb' hf hi he hlast hq)
          (lt_of_getElem? hb').ne hknows
      · -- The epoch is the current one of the thread, so nobody else knows of it.
        obtain ⟨hint, hcur⟩ := huse a he
        have hp := Knows.eq_of_snoc (fun q hq => hepochs.unpublished hcur hlast hb' hf hq)
          (fun _ x => by simp [Action.Publishes, hint]) (lt_of_getElem? hb').ne hknows
        rw [hp]
        exact Knows.own hi
    · simp [hstamp] at hf

/-- A thread opens an epoch that is larger than all epochs of its owner before. -/
theorem snoc_open {s : S} {n : ℕ} (hint : v.action = .internal)
    (hstamp : stamp v.note = some (s, n)) (huse : use v.note = none)
    (hnew : ∀ (i : ℕ) e m, h[i]? = some e → stamp e.note = some (s, m) → m < n)
    (hthread : current' v.thread = some (s, n))
    (hothers : ∀ t, t ≠ v.thread → ∀ a, current' t = some a → current t = some a) :
    Epochs stamp use last (h ++ [v]) current' where
  unique := by
    intro i j e f a hi hj he hf
    rcases getElem?_snoc_iff.mp hi with hi' | ⟨rfl, rfl⟩
    · rcases getElem?_snoc_iff.mp hj with hj | ⟨rfl, rfl⟩
      · exact hepochs.unique hi' hj he hf
      · cases hstamp.symm.trans hf
        exact absurd (hnew i e n hi' he) (lt_irrefl _)
    · cases hstamp.symm.trans he
      rcases getElem?_snoc_iff.mp hj with hj | ⟨rfl, -⟩
      · exact absurd (hnew j f n hj hf) (lt_irrefl _)
      · rfl
  opened := by
    intro t a ht
    rcases eq_or_ne t v.thread with hvt | hvt
    · subst hvt
      cases hthread.symm.trans ht
      exact ⟨h.length, v, getElem?_snoc_iff.mpr (.inr ⟨rfl, rfl⟩), rfl, hstamp⟩
    · exact hepochs.opened_snoc (hothers t hvt a ht)
  latest := by
    intro t s' n' m i e ht hi hte he
    rcases eq_or_ne t v.thread with hvt | hvt
    · subst hvt
      cases hthread.symm.trans ht
      rcases getElem?_snoc_iff.mp hi with hi | ⟨-, rfl⟩
      · exact (hnew i e m hi he).le
      · cases hstamp.symm.trans he
        exact le_rfl
    · rcases getElem?_snoc_iff.mp hi with hi | ⟨-, rfl⟩
      · exact hepochs.latest (hothers t hvt _ ht) hi hte he
      · exact absurd hte.symm hvt
  unpublished := by
    intro t a p i e ht hlast hi he hknows
    rcases eq_or_ne t v.thread with hvt | hvt
    · subst hvt
      cases hthread.symm.trans ht
      rcases getElem?_snoc_iff.mp hi with hi | ⟨rfl, -⟩
      · exact absurd (hnew i e n hi he) (lt_irrefl _)
      · exact Knows.eq_thread hint hknows
    · have ht' := hothers t hvt a ht
      rcases getElem?_snoc_iff.mp hi with hi | ⟨-, rfl⟩
      · exact Knows.eq_of_snoc (fun q hq => hepochs.unpublished ht' hlast hi he hq)
          (fun heq => absurd heq.symm hvt) (lt_of_getElem? hi).ne hknows
      · cases hstamp.symm.trans he
        obtain ⟨j, f, hj, -, hf⟩ := hepochs.opened ht'
        exact absurd (hnew j f n hj hf) (lt_irrefl _)
  used := by
    intro i e a hi he
    rcases getElem?_snoc_iff.mp hi with hi | ⟨rfl, rfl⟩
    · exact hepochs.used_snoc hi he
    · simp [huse] at he
  passed := by
    intro i b e f s n m hi he hlt hb ht hf
    rcases getElem?_snoc_iff.mp hi with hi | ⟨rfl, rfl⟩
    · rcases getElem?_snoc_iff.mp hb with hb | ⟨rfl, -⟩
      · exact hepochs.passed hi he hlt hb ht hf
      · exact absurd hlt (lt_of_getElem? hi).not_gt
    · simp [huse] at he
  followed := by
    intro b i f e a p hb hf hi he hlast hknows
    rcases getElem?_snoc_iff.mp hi with hi' | ⟨rfl, rfl⟩
    · rcases getElem?_snoc_iff.mp hb with hb | ⟨-, rfl⟩
      · exact Knows.snoc_of_imp (fun q hq => hepochs.followed hb hf hi' he hlast hq)
          (lt_of_getElem? hb).ne hknows
      · cases hstamp.symm.trans hf
        obtain ⟨k, g, -, hk, -, hg⟩ := hepochs.used hi' he
        exact absurd (hnew k g n hk hg) (lt_irrefl _)
    · simp [huse] at he

end

/-! ## What a clock tells about an event -/

/-- Another thread opened a later epoch of the owner than the event used, and the holder knows. -/
def HandedOn (stamp : N → Option (S × ℕ)) (h : List (Event T X N)) (p : Holder T X) (t : T) (s : S)
    (n : ℕ) : Prop :=
  ∃ b f m, Knows h p b ∧ h[b]? = some f ∧ f.thread ≠ t ∧ stamp f.note = some (s, m) ∧ n < m

variable {s : S} {n : ℕ} {e : Event T X N} {c : S → ℕ}

theorem seen_of_knows (hepochs : Epochs stamp use last h current) (hi : h[i]? = some e)
    (he : use e.note = some (s, n)) (hknows : Knows h p i) : Seen stamp h p s n := by
  obtain ⟨b, f, hlt, hb, ht, hf⟩ := hepochs.used hi he
  exact ⟨b, f, n, hknows.of_precedes (.program hlt hb hi ht), hb, hf, le_rfl⟩

theorem knows_or_handedOn_of_seen (hepochs : Epochs stamp use last h current)
    (hi : h[i]? = some e) (he : use e.note = some (s, n)) (hlast : n ≠ last)
    (hseen : Seen stamp h p s n) : Knows h p i ∨ HandedOn stamp h p e.thread s n := by
  obtain ⟨k, g, m, hk, hg, hm, hle⟩ := hseen
  rcases hle.lt_or_eq with hlt | rfl
  · by_cases ht : g.thread = e.thread
    · -- The thread itself went on to a later epoch, and that was after the event.
      left
      rcases Nat.lt_trichotomy k i with hki | rfl | hik
      · exact absurd (hepochs.passed hi he hki hg ht hm) hlt.not_ge
      · exact hk
      · exact hk.of_precedes (.program hik hi hg ht.symm)
    · exact .inr ⟨k, g, m, hk, hg, ht, hm, hlt⟩
  · exact .inl (hepochs.followed hg hm hi he hlast hk)

/-- The clock has reached the epoch of an event if and only if the holder knows of the event or
of a later epoch that another thread opened under the same owner. -/
theorem le_clock_iff (hepochs : Epochs stamp use last h current)
    (hc : Summarises stamp h p c) (hi : h[i]? = some e) (he : use e.note = some (s, n))
    (hpos : 0 < n) (hlast : n ≠ last) :
    n ≤ c s ↔ Knows h p i ∨ HandedOn stamp h p e.thread s n := by
  rw [hc s n hpos]
  constructor
  · exact hepochs.knows_or_handedOn_of_seen hi he hlast
  · intro hknows
    rcases hknows with hknows | ⟨b, f, m, hb, hf, -, hm, hlt⟩
    · exact hepochs.seen_of_knows hi he hknows
    · exact ⟨b, f, m, hb, hf, hm, hlt.le⟩

end Epochs

end Mair.Causality
