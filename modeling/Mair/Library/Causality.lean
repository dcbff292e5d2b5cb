import Mathlib.Data.Set.Basic
import Mathlib.Data.List.Basic
import Mathlib.Order.MinMax

/-! # Happens-before and vector clocks

A history lists the synchronisation of several threads. What a thread or an object knows is the
part of the history that happened before its last event; a vector clock stands for that part by
one number for each stamp owner. -/

namespace Mair.Causality

variable {T X N S : Type*}

/-- What an event does to an object: an acquire reads what the object carries, a release adds
to it, a store replaces it, a forget empties it. -/
inductive Action (X : Type*) where
  | internal
  | acquire (x : X)
  | release (x : X)
  | store (x : X)
  | forget (x : X)
  deriving DecidableEq

namespace Action

def Publishes (a : Action X) (x : X) : Prop := a = release x ∨ a = store x

def Overwrites (a : Action X) (x : X) : Prop := a = store x ∨ a = forget x

end Action

structure Event (T X N : Type*) where
  thread : T
  action : Action X
  note : N
  deriving DecidableEq

/-- Positions `i` and `j` of the history are ordered by the program of one thread, by an acquire
that reads what a release left, or by a chain of these. -/
inductive Precedes (h : List (Event T X N)) : ℕ → ℕ → Prop where
  | program {i j e f} : i < j → h[i]? = some e → h[j]? = some f → e.thread = f.thread →
      Precedes h i j
  | sync {i j e f x} : i < j → h[i]? = some e → h[j]? = some f → e.action.Publishes x →
      f.action = .acquire x →
      (∀ k g, i < k → k < j → h[k]? = some g → ¬ g.action.Overwrites x) → Precedes h i j
  | chain {i j k} : Precedes h i j → Precedes h j k → Precedes h i k

inductive Holder (T X : Type*) where
  | thread (t : T)
  | object (x : X)

/-- The events that a holder has learnt of: those of its own and what happened before them. -/
def Knows (h : List (Event T X N)) : Holder T X → ℕ → Prop
  | .thread t, i => ∃ j e, h[j]? = some e ∧ e.thread = t ∧ (i = j ∨ Precedes h i j)
  | .object x, i => ∃ j e, h[j]? = some e ∧ e.action.Publishes x ∧
      (∀ k g, j < k → h[k]? = some g → ¬ g.action.Overwrites x) ∧ (i = j ∨ Precedes h i j)

variable {h : List (Event T X N)} {i j k : ℕ} {v : Event T X N} {p : Holder T X}

theorem Precedes.lt (hij : Precedes h i j) : i < j := by
  induction hij with
  | program hlt => exact hlt
  | sync hlt => exact hlt
  | chain _ _ ih ih' => exact ih.trans ih'

theorem lt_of_getElem? (hi : h[i]? = some v) : i < h.length := by
  obtain ⟨hlt, -⟩ := List.getElem?_eq_some_iff.mp hi
  exact hlt

theorem Precedes.lt_length (hij : Precedes h i j) : j < h.length := by
  induction hij with
  | program _ _ hj => exact lt_of_getElem? hj
  | sync _ _ hj => exact lt_of_getElem? hj
  | chain _ _ _ ih => exact ih

theorem Knows.of_precedes (hij : Precedes h i j) (hj : Knows h p j) : Knows h p i := by
  cases p with
  | thread t =>
      obtain ⟨k, e, hk, ht, hj | hj⟩ := hj
      · exact ⟨k, e, hk, ht, .inr (hj ▸ hij)⟩
      · exact ⟨k, e, hk, ht, .inr (hij.chain hj)⟩
  | object x =>
      obtain ⟨k, e, hk, hp, hw, hj | hj⟩ := hj
      · exact ⟨k, e, hk, hp, hw, .inr (hj ▸ hij)⟩
      · exact ⟨k, e, hk, hp, hw, .inr (hij.chain hj)⟩

theorem Knows.lt_length (hi : Knows h p i) : i < h.length := by
  cases p with
  | thread t =>
      obtain ⟨k, e, hk, -, rfl | hi⟩ := hi
      · exact lt_of_getElem? hk
      · exact hi.lt.trans hi.lt_length
  | object x =>
      obtain ⟨k, e, hk, -, -, rfl | hi⟩ := hi
      · exact lt_of_getElem? hk
      · exact hi.lt.trans hi.lt_length

theorem Knows.own (hi : h[i]? = some v) : Knows h (.thread v.thread) i :=
  ⟨i, v, hi, rfl, .inl rfl⟩

/-! ## One more event -/

theorem getElem?_snoc_iff {w : Event T X N} :
    (h ++ [v])[i]? = some w ↔ h[i]? = some w ∨ (i = h.length ∧ w = v) := by
  rcases Nat.lt_trichotomy i h.length with hlt | rfl | hgt
  · rw [List.getElem?_append_left hlt]
    exact ⟨Or.inl, fun hw => hw.resolve_right fun heq => hlt.ne heq.1⟩
  · simp [eq_comm]
  · have hout : (h ++ [v]).length ≤ i := by
      rw [List.length_append, List.length_singleton]
      omega
    simp [List.getElem?_eq_none hout, List.getElem?_eq_none hgt.le, hgt.ne']

theorem Precedes.snoc (hij : Precedes h i j) : Precedes (h ++ [v]) i j := by
  induction hij with
  | program hlt hi hj ht =>
      exact .program hlt (getElem?_snoc_iff.mpr (.inl hi)) (getElem?_snoc_iff.mpr (.inl hj)) ht
  | sync hlt hi hj hp ha hw =>
      refine .sync hlt (getElem?_snoc_iff.mpr (.inl hi)) (getElem?_snoc_iff.mpr (.inl hj)) hp ha ?_
      intro k g hik hkj hg
      rcases getElem?_snoc_iff.mp hg with hg | ⟨rfl, -⟩
      · exact hw k g hik hkj hg
      · exact absurd (lt_of_getElem? hj) (by omega)
  | chain _ _ ih ih' => exact ih.chain ih'

/-- What the next event of thread `v.thread` with this action would be preceded by. -/
def Heard (h : List (Event T X N)) (v : Event T X N) (i : ℕ) : Prop :=
  Knows h (.thread v.thread) i ∨ ∃ x, v.action = .acquire x ∧ Knows h (.object x) i

theorem Heard.lt_length (hi : Heard h v i) : i < h.length := by
  rcases hi with hi | ⟨x, -, hi⟩
  · exact hi.lt_length
  · exact hi.lt_length

theorem Heard.of_precedes (hij : Precedes h i j) (hj : Heard h v j) : Heard h v i := by
  rcases hj with hj | ⟨x, hx, hj⟩
  · exact .inl (hj.of_precedes hij)
  · exact .inr ⟨x, hx, hj.of_precedes hij⟩

theorem precedes_snoc_iff :
    Precedes (h ++ [v]) i j ↔ Precedes h i j ∨ (j = h.length ∧ Heard h v i) := by
  constructor
  · intro hij
    induction hij with
    | @program i j e f hlt hi hj ht =>
        rcases getElem?_snoc_iff.mp hj with hj | ⟨rfl, rfl⟩
        · rcases getElem?_snoc_iff.mp hi with hi | ⟨rfl, -⟩
          · exact .inl (.program hlt hi hj ht)
          · exact absurd (lt_of_getElem? hj) (by omega)
        · rcases getElem?_snoc_iff.mp hi with hi | ⟨rfl, -⟩
          · exact .inr ⟨rfl, .inl ⟨i, e, hi, ht, .inl rfl⟩⟩
          · exact absurd hlt (lt_irrefl _)
    | @sync i j e f x hlt hi hj hp ha hw =>
        have hw' : ∀ k g, i < k → k < j → h[k]? = some g → ¬ g.action.Overwrites x :=
          fun k g hik hkj hg => hw k g hik hkj (getElem?_snoc_iff.mpr (.inl hg))
        rcases getElem?_snoc_iff.mp hj with hj | ⟨rfl, rfl⟩
        · rcases getElem?_snoc_iff.mp hi with hi | ⟨rfl, -⟩
          · exact .inl (.sync hlt hi hj hp ha hw')
          · exact absurd (lt_of_getElem? hj) (by omega)
        · rcases getElem?_snoc_iff.mp hi with hi | ⟨rfl, -⟩
          · refine .inr ⟨rfl, .inr ⟨x, ha, i, e, hi, hp, ?_, .inl rfl⟩⟩
            intro k g hik hg
            exact hw' k g hik (lt_of_getElem? hg) hg
          · exact absurd hlt (lt_irrefl _)
    | @chain i j k _ _ ih ih' =>
        rcases ih with hij | ⟨rfl, -⟩
        · rcases ih' with hjk | ⟨rfl, hj⟩
          · exact .inl (hij.chain hjk)
          · exact .inr ⟨rfl, hj.of_precedes hij⟩
        · rcases ih' with hjk | ⟨-, hj⟩
          · exact absurd (hjk.lt.trans hjk.lt_length) (lt_irrefl _)
          · exact absurd hj.lt_length (lt_irrefl _)
  · intro hij
    rcases hij with hij | ⟨rfl, hi | ⟨x, ha, k, e, hk, hp, hw, hi⟩⟩
    · exact hij.snoc
    · obtain ⟨k, e, hk, ht, hi⟩ := hi
      have hlast : Precedes (h ++ [v]) k h.length :=
        .program (lt_of_getElem? hk) (getElem?_snoc_iff.mpr (.inl hk))
          (getElem?_snoc_iff.mpr (.inr ⟨rfl, rfl⟩)) ht
      rcases hi with rfl | hi
      · exact hlast
      · exact hi.snoc.chain hlast
    · have hlast : Precedes (h ++ [v]) k h.length := by
        refine .sync (lt_of_getElem? hk) (getElem?_snoc_iff.mpr (.inl hk))
          (getElem?_snoc_iff.mpr (.inr ⟨rfl, rfl⟩)) hp ha ?_
        intro l g hkl hl hg
        rcases getElem?_snoc_iff.mp hg with hg | ⟨rfl, -⟩
        · exact hw l g hkl hg
        · exact absurd hl (lt_irrefl _)
      rcases hi with rfl | hi
      · exact hlast
      · exact hi.snoc.chain hlast

/-- What happened is settled: later events change nothing about it. -/
theorem precedes_append_iff {vs : List (Event T X N)} (hj : j < h.length) :
    Precedes (h ++ vs) i j ↔ Precedes h i j := by
  induction vs generalizing h with
  | nil => rw [List.append_nil]
  | cons v vs ih =>
      have hj' : j < (h ++ [v]).length := by
        rw [List.length_append]
        omega
      rw [← List.singleton_append, ← List.append_assoc, ih hj', precedes_snoc_iff]
      exact ⟨fun hij => hij.resolve_right fun heq => hj.ne heq.1, .inl⟩

theorem knows_thread_snoc_iff {t : T} : Knows (h ++ [v]) (.thread t) i ↔
    Knows h (.thread t) i ∨ (v.thread = t ∧ (i = h.length ∨ Heard h v i)) := by
  constructor
  · intro hi
    obtain ⟨j, e, hj, ht, hi⟩ := hi
    rcases getElem?_snoc_iff.mp hj with hj | ⟨rfl, rfl⟩
    · rcases hi with rfl | hi
      · exact .inl ⟨i, e, hj, ht, .inl rfl⟩
      · rcases precedes_snoc_iff.mp hi with hi | ⟨rfl, -⟩
        · exact .inl ⟨j, e, hj, ht, .inr hi⟩
        · exact absurd (lt_of_getElem? hj) (lt_irrefl _)
    · rcases hi with rfl | hi
      · exact .inr ⟨ht, .inl rfl⟩
      · rcases precedes_snoc_iff.mp hi with hi | ⟨-, hi⟩
        · exact absurd hi.lt_length (lt_irrefl _)
        · exact .inr ⟨ht, .inr hi⟩
  · intro hi
    rcases hi with ⟨j, e, hj, ht, hi⟩ | ⟨ht, hi⟩
    · refine ⟨j, e, getElem?_snoc_iff.mpr (.inl hj), ht, ?_⟩
      rcases hi with rfl | hi
      · exact .inl rfl
      · exact .inr hi.snoc
    · refine ⟨h.length, v, getElem?_snoc_iff.mpr (.inr ⟨rfl, rfl⟩), ht, ?_⟩
      rcases hi with rfl | hi
      · exact .inl rfl
      · exact .inr (precedes_snoc_iff.mpr (.inr ⟨rfl, hi⟩))

theorem knows_object_snoc_iff {x : X} : Knows (h ++ [v]) (.object x) i ↔
    (Knows h (.object x) i ∧ ¬ v.action.Overwrites x) ∨
      (v.action.Publishes x ∧ (i = h.length ∨ Heard h v i)) := by
  constructor
  · intro hi
    obtain ⟨j, e, hj, hp, hw, hi⟩ := hi
    rcases getElem?_snoc_iff.mp hj with hj | ⟨rfl, rfl⟩
    · have hv : ¬ v.action.Overwrites x :=
        hw h.length v (lt_of_getElem? hj) (getElem?_snoc_iff.mpr (.inr ⟨rfl, rfl⟩))
      have hw' : ∀ k g, j < k → h[k]? = some g → ¬ g.action.Overwrites x :=
        fun k g hjk hg => hw k g hjk (getElem?_snoc_iff.mpr (.inl hg))
      rcases hi with rfl | hi
      · exact .inl ⟨⟨i, e, hj, hp, hw', .inl rfl⟩, hv⟩
      · rcases precedes_snoc_iff.mp hi with hi | ⟨rfl, -⟩
        · exact .inl ⟨⟨j, e, hj, hp, hw', .inr hi⟩, hv⟩
        · exact absurd (lt_of_getElem? hj) (lt_irrefl _)
    · rcases hi with rfl | hi
      · exact .inr ⟨hp, .inl rfl⟩
      · rcases precedes_snoc_iff.mp hi with hi | ⟨-, hi⟩
        · exact absurd hi.lt_length (lt_irrefl _)
        · exact .inr ⟨hp, .inr hi⟩
  · intro hi
    rcases hi with ⟨⟨j, e, hj, hp, hw, hi⟩, hv⟩ | ⟨hp, hi⟩
    · refine ⟨j, e, getElem?_snoc_iff.mpr (.inl hj), hp, ?_, ?_⟩
      · intro k g hjk hg
        rcases getElem?_snoc_iff.mp hg with hg | ⟨-, rfl⟩
        · exact hw k g hjk hg
        · exact hv
      · rcases hi with rfl | hi
        · exact .inl rfl
        · exact .inr hi.snoc
    · refine ⟨h.length, v, getElem?_snoc_iff.mpr (.inr ⟨rfl, rfl⟩), hp, ?_, ?_⟩
      · intro k g hlt hg
        rcases getElem?_snoc_iff.mp hg with hg | ⟨rfl, -⟩
        · exact absurd (lt_of_getElem? hg) (by omega)
        · exact absurd hlt (lt_irrefl _)
      · rcases hi with rfl | hi
        · exact .inl rfl
        · exact .inr (precedes_snoc_iff.mpr (.inr ⟨rfl, hi⟩))

@[simp] theorem not_knows_nil : ¬ Knows ([] : List (Event T X N)) p i := by
  intro hi
  exact absurd hi.lt_length (Nat.not_lt_zero i)

/-! ## Vector clocks -/

variable {stamp : N → Option (S × ℕ)} {s : S} {n : ℕ} {c d : S → ℕ}

/-- The holder knows of an event that the stamp owner `s` marked with `n` or more. -/
def Seen (stamp : N → Option (S × ℕ)) (h : List (Event T X N)) (p : Holder T X) (s : S) (n : ℕ) :
    Prop :=
  ∃ i e m, Knows h p i ∧ h[i]? = some e ∧ stamp e.note = some (s, m) ∧ n ≤ m

/-- The clock stands for what the holder knows. -/
def Summarises (stamp : N → Option (S × ℕ)) (h : List (Event T X N)) (p : Holder T X)
    (c : S → ℕ) : Prop :=
  ∀ s n, 0 < n → (n ≤ c s ↔ Seen stamp h p s n)

theorem seen_of_knows_iff {v : Event T X N} {q : Holder T X}
    (hkeep : ∀ i, Knows (h ++ [v]) p i ↔ Knows h q i) :
    Seen stamp (h ++ [v]) p s n ↔ Seen stamp h q s n := by
  constructor
  · intro hs
    obtain ⟨i, e, m, hi, he, hm, hn⟩ := hs
    have hi' := (hkeep i).mp hi
    rcases getElem?_snoc_iff.mp he with he | ⟨rfl, -⟩
    · exact ⟨i, e, m, hi', he, hm, hn⟩
    · exact absurd hi'.lt_length (lt_irrefl _)
  · intro hs
    obtain ⟨i, e, m, hi, he, hm, hn⟩ := hs
    exact ⟨i, e, m, (hkeep i).mpr hi, getElem?_snoc_iff.mpr (.inl he), hm, hn⟩

/-- The marks that an event adds to what was known before. -/
theorem seen_snoc_iff {P : ℕ → Prop}
    (hkeep : ∀ i, Knows (h ++ [v]) p i ↔ i = h.length ∨ P i) :
    Seen stamp (h ++ [v]) p s n ↔ (∃ m, stamp v.note = some (s, m) ∧ n ≤ m) ∨
      ∃ i e m, P i ∧ h[i]? = some e ∧ stamp e.note = some (s, m) ∧ n ≤ m := by
  constructor
  · intro hs
    obtain ⟨i, e, m, hi, he, hm, hn⟩ := hs
    rcases getElem?_snoc_iff.mp he with he | ⟨rfl, rfl⟩
    · rcases (hkeep i).mp hi with rfl | hi
      · exact absurd (lt_of_getElem? he) (lt_irrefl _)
      · exact .inr ⟨i, e, m, hi, he, hm, hn⟩
    · exact .inl ⟨m, hm, hn⟩
  · intro hs
    rcases hs with ⟨m, hm, hn⟩ | ⟨i, e, m, hi, he, hm, hn⟩
    · exact ⟨h.length, v, m, (hkeep _).mpr (.inl rfl), getElem?_snoc_iff.mpr (.inr ⟨rfl, rfl⟩),
        hm, hn⟩
    · exact ⟨i, e, m, (hkeep i).mpr (.inr hi), getElem?_snoc_iff.mpr (.inl he), hm, hn⟩

theorem summarises_nil : Summarises stamp ([] : List (Event T X N)) p fun _ => 0 := by
  intro s n hn
  constructor
  · intro hle
    exact absurd (hn.trans_le hle) (lt_irrefl 0)
  · intro hs
    obtain ⟨i, e, m, hi, -⟩ := hs
    exact absurd hi not_knows_nil

namespace Summarises

/-- An event of another thread teaches a thread nothing. -/
theorem thread_of_ne {t : T} (hc : Summarises stamp h (.thread t) c) (ht : v.thread ≠ t) :
    Summarises stamp (h ++ [v]) (.thread t) c := by
  intro s n hn
  rw [seen_of_knows_iff (q := .thread t) fun i => by simp [knows_thread_snoc_iff, ht]]
  exact hc s n hn

/-- An event that neither publishes to an object nor overwrites it leaves it alone. -/
theorem object_of_not {x : X} (hc : Summarises stamp h (.object x) c)
    (hp : ¬ v.action.Publishes x) (hw : ¬ v.action.Overwrites x) :
    Summarises stamp (h ++ [v]) (.object x) c := by
  intro s n hn
  rw [seen_of_knows_iff (q := .object x) fun i => by simp [knows_object_snoc_iff, hp, hw]]
  exact hc s n hn

theorem forgotten {x : X} (hv : v.action = .forget x) :
    Summarises stamp (h ++ [v]) (.object x) fun _ => 0 := by
  intro s n hn
  constructor
  · intro hle
    exact absurd (hn.trans_le hle) (lt_irrefl 0)
  · intro hs
    obtain ⟨i, -, -, hi, -⟩ := hs
    rcases knows_object_snoc_iff.mp hi with ⟨-, hw⟩ | ⟨hp, -⟩
    · exact absurd (.inr hv) hw
    · simp [Action.Publishes, hv] at hp

/-- What an unmarked event of a thread learns is what the thread had and what it acquires. -/
theorem acquired {x : X} (hc : Summarises stamp h (.thread v.thread) c)
    (hd : Summarises stamp h (.object x) d) (hv : v.action = .acquire x)
    (hnote : stamp v.note = none) :
    Summarises stamp (h ++ [v]) (.thread v.thread) fun s => max (c s) (d s) := by
  intro s n hn
  rw [seen_snoc_iff (P := Heard h v) fun i => by
    rw [knows_thread_snoc_iff]
    exact ⟨fun hi => hi.elim (fun hi => .inr (.inl hi)) And.right, fun hi => .inr ⟨rfl, hi⟩⟩]
  rw [le_max_iff, hc s n hn, hd s n hn]
  constructor
  · intro hs
    rcases hs with ⟨i, e, m, hi, hs⟩ | ⟨i, e, m, hi, hs⟩
    · exact .inr ⟨i, e, m, .inl hi, hs⟩
    · exact .inr ⟨i, e, m, .inr ⟨x, hv, hi⟩, hs⟩
  · intro hs
    rcases hs with ⟨m, hm, -⟩ | ⟨i, e, m, hi, hs⟩
    · simp [hnote] at hm
    · rcases hi with hi | ⟨y, hy, hi⟩
      · exact .inl ⟨i, e, m, hi, hs⟩
      · cases hv.symm.trans hy
        exact .inr ⟨i, e, m, hi, hs⟩

theorem thread_of_not_acquire (hc : Summarises stamp h (.thread v.thread) c)
    (hv : ∀ x, v.action ≠ .acquire x) (hnote : stamp v.note = none) :
    Summarises stamp (h ++ [v]) (.thread v.thread) c := by
  intro s n hn
  rw [seen_snoc_iff (P := Knows h (.thread v.thread)) fun i => by
    simp [knows_thread_snoc_iff, Heard, hv, or_left_comm]]
  rw [hc s n hn]
  simp [Seen, hnote]

/-- A marked event moves the component of its owner, which must not be ahead of the mark. -/
theorem marked [DecidableEq S] {s₀ : S} {m₀ : ℕ}
    (hc : Summarises stamp h (.thread v.thread) c) (hv : v.action = .internal)
    (hnote : stamp v.note = some (s₀, m₀)) (hle : c s₀ ≤ m₀) :
    Summarises stamp (h ++ [v]) (.thread v.thread) (Function.update c s₀ m₀) := by
  intro s n hn
  rw [seen_snoc_iff (P := Knows h (.thread v.thread)) fun i => by
    simp [knows_thread_snoc_iff, Heard, hv, or_left_comm]]
  have hseen : (∃ i e m, Knows h (.thread v.thread) i ∧ h[i]? = some e ∧
      stamp e.note = some (s, m) ∧ n ≤ m) ↔ n ≤ c s := (hc s n hn).symm
  rw [hseen, hnote]
  by_cases hs : s = s₀
  · subst hs
    rw [Function.update_self]
    constructor
    · intro hn
      exact .inl ⟨m₀, rfl, hn⟩
    · intro hs
      rcases hs with ⟨m, hm, hn⟩ | hn
      · cases hm
        exact hn
      · exact hn.trans hle
  · rw [Function.update_of_ne hs]
    constructor
    · exact Or.inr
    · intro hn
      rcases hn with ⟨m, hm, -⟩ | hn
      · cases hm
        exact absurd rfl hs
      · exact hn

theorem stored {x : X} (hc : Summarises stamp h (.thread v.thread) c) (hv : v.action = .store x)
    (hnote : stamp v.note = none) : Summarises stamp (h ++ [v]) (.object x) c := by
  intro s n hn
  rw [seen_snoc_iff (P := Knows h (.thread v.thread)) fun i => by
    simp [knows_object_snoc_iff, Heard, hv, Action.Overwrites, Action.Publishes]]
  rw [hc s n hn]
  simp [Seen, hnote]

theorem released {x : X} (hc : Summarises stamp h (.thread v.thread) c)
    (hd : Summarises stamp h (.object x) d) (hv : v.action = .release x)
    (hnote : stamp v.note = none) :
    Summarises stamp (h ++ [v]) (.object x) fun s => max (d s) (c s) := by
  intro s n hn
  rw [seen_snoc_iff (P := fun i => Knows h (.object x) i ∨ Knows h (.thread v.thread) i) fun i => by
    simp [knows_object_snoc_iff, Heard, hv, Action.Overwrites, Action.Publishes, or_left_comm]]
  rw [le_max_iff, hc s n hn, hd s n hn]
  constructor
  · intro hs
    rcases hs with ⟨i, e, m, hi, hs⟩ | ⟨i, e, m, hi, hs⟩
    · exact .inr ⟨i, e, m, .inl hi, hs⟩
    · exact .inr ⟨i, e, m, .inr hi, hs⟩
  · intro hs
    rcases hs with ⟨m, hm, -⟩ | ⟨i, e, m, hi | hi, hs⟩
    · simp [hnote] at hm
    · exact .inl ⟨i, e, m, hi, hs⟩
    · exact .inr ⟨i, e, m, hi, hs⟩

end Summarises

end Mair.Causality
