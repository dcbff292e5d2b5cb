import Mathlib.Algebra.Group.Action.Defs
import Mathlib.Algebra.Order.BigOperators.Group.Finset
import Mathlib.Order.Lattice
import Mathlib.Order.BoundedOrder.Basic
import Mair.Library.Paths

/-! # Forward dataflow over a join semilattice

A worklist solver that may visit its pending blocks in any order. Every run stops, and
where the transfer functions distribute over joins the solution holds exactly the facts
that hold on some path. -/

namespace Mair.Dataflow

variable {α L : Type*} [DecidableEq α] [SemilatticeSup L]

/-! ## Systems and paths -/

/-- A finite graph with a distributive transfer function for each block. -/
structure System (α L : Type*) [DecidableEq α] [SemilatticeSup L] where
  blocks : List α
  entry : α
  succs : α → List α
  transfer : α → L → L
  complete : ∀ b, b ∈ blocks
  transfer_sup : ∀ b x y, transfer b (x ⊔ y) = transfer b x ⊔ transfer b y

namespace System

variable (sys : System α L)

def preds (b : α) : List α := sys.blocks.filter fun q => b ∈ sys.succs q

def Reachable (b : α) : Prop := ∃ p, Path sys.succs sys.entry p b

variable {sys}

theorem mem_preds_iff {b q : α} : q ∈ sys.preds b ↔ b ∈ sys.succs q := by
  simp [preds, sys.complete q]

theorem transfer_mono (b : α) {x y : L} (h : x ≤ y) : sys.transfer b x ≤ sys.transfer b y := by
  rw [← sup_eq_right.mpr h, sys.transfer_sup]
  exact le_sup_left

theorem Reachable.succ {b c : α} (h : sys.Reachable b) (hc : c ∈ sys.succs b) :
    sys.Reachable c := by
  obtain ⟨p, hp⟩ := h
  exact ⟨p ++ [b], hp.snoc hc⟩

variable [OrderBot L]

/-- The value that a path carries to its end. -/
def pathValue (sys : System α L) (p : List α) : L := p.foldl (fun x b => sys.transfer b x) ⊥

theorem pathValue_snoc (p : List α) (b : α) :
    sys.pathValue (p ++ [b]) = sys.transfer b (sys.pathValue p) := by
  simp [pathValue]

end System

/-! ## The solver -/

structure State (α L : Type*) where
  inn : α → L
  out : α → L
  work : List α

/-- `SetVector::insert` of a list of blocks; the head of the list is the back. -/
def insertAll (work : List α) (bs : List α) : List α :=
  bs.foldl (fun work b => if b ∈ work then work else b :: work) work

namespace State

variable (sys : System α L) (s : State α L) (b : α)

/-- The block's entry value joined with the exit values of its predecessors. -/
def newInn : L := (sys.preds b).foldl (fun x q => x ⊔ s.out q) (s.inn b)

def newOut : L := sys.transfer b (s.newInn sys b)

/-- Merge and transfer at one block, and leave `work` pending. -/
def update (work : List α) : State α L where
  inn := Function.update s.inn b (s.newInn sys b)
  out := Function.update s.out b (s.newOut sys b)
  work := work

/-- One step of the first sweep: the successors are scheduled in any case. -/
def sweepStep : State α L := s.update sys b (insertAll (s.work.erase b) (sys.succs b))

/-- One visit of the worklist loop: the successors are scheduled when the exit changed. -/
def visit [DecidableEq L] : State α L :=
  s.update sys b
    (if s.newOut sys b = s.out b then s.work.erase b
    else insertAll (s.work.erase b) (sys.succs b))

/-- The worklist loop, taking the back of the worklist; `none` means out of fuel. -/
def drain [DecidableEq L] (sys : System α L) : ℕ → State α L → Option (State α L)
  | 0, s => match s.work with
    | [] => some s
    | _ :: _ => none
  | fuel + 1, s => match s.work with
    | [] => some s
    | b :: _ => drain sys fuel (s.visit sys b)

variable [OrderBot L]

def init : State α L := ⟨fun _ => ⊥, fun _ => ⊥, []⟩

def sweep (order : List α) : State α L := order.foldl (sweepStep sys) init

end State

/-- A visit to any pending block. -/
inductive Step [DecidableEq L] (sys : System α L) (s : State α L) : State α L → Prop where
  | visit (b : α) (h : b ∈ s.work) : Step sys s (s.visit sys b)

/-- The states of a solver run: within the sweep, then after any visits. -/
inductive Intermediate [DecidableEq L] [OrderBot L] (sys : System α L) (order : List α) :
    State α L → Prop where
  | sweep {done : List α} (h : done <+: order) : Intermediate sys order (State.sweep sys done)
  | visits {s : State α L} (h : Relation.ReflTransGen (Step sys) (State.sweep sys order) s) :
      Intermediate sys order s

/-! ## Worklists -/

theorem mem_insertAll_iff {work bs : List α} {b : α} :
    b ∈ insertAll work bs ↔ b ∈ work ∨ b ∈ bs := by
  induction bs generalizing work with
  | nil => simp [insertAll]
  | cons c bs ih =>
      have hstep : insertAll work (c :: bs) =
          insertAll (if c ∈ work then work else c :: work) bs := rfl
      rw [hstep, ih]
      by_cases hc : c ∈ work
      · rw [if_pos hc, List.mem_cons]
        constructor
        · rintro (h | h)
          · exact Or.inl h
          · exact Or.inr (Or.inr h)
        · rintro (h | rfl | h)
          · exact Or.inl h
          · exact Or.inl hc
          · exact Or.inr h
      · rw [if_neg hc, List.mem_cons, List.mem_cons]
        tauto

theorem insertAll_nodup {work : List α} (h : work.Nodup) (bs : List α) :
    (insertAll work bs).Nodup := by
  induction bs generalizing work with
  | nil => exact h
  | cons c bs ih =>
      apply ih
      by_cases hc : c ∈ work
      · simpa only [if_pos hc] using h
      · simpa only [if_neg hc] using List.nodup_cons.mpr ⟨hc, h⟩

/-! ## Merging -/

/-- A fact that holds of a join exactly when it holds of a part. -/
def JoinPrime (P : L → Prop) : Prop := ∀ x y, P (x ⊔ y) ↔ P x ∨ P y

theorem JoinPrime.mono {P : L → Prop} (hP : JoinPrime P) {x y : L} (h : x ≤ y) (hx : P x) :
    P y := by
  rw [← sup_eq_right.mpr h]
  exact (hP x y).mpr (Or.inl hx)

theorem JoinPrime.comp_transfer {P : L → Prop} (hP : JoinPrime P) (sys : System α L) (b : α) :
    JoinPrime fun x => P (sys.transfer b x) := by
  intro x y
  beta_reduce
  rw [sys.transfer_sup]
  exact hP _ _

theorem joinPrime_not_le (u : L) : JoinPrime fun x => ¬x ≤ u := by
  intro x y
  beta_reduce
  rw [sup_le_iff, not_and_or]

section Merge

variable {sys : System α L} {s : State α L} {b : α}

theorem update_inn_self (work : List α) : (s.update sys b work).inn b = s.newInn sys b :=
  Function.update_self ..

theorem update_out_self (work : List α) : (s.update sys b work).out b = s.newOut sys b :=
  Function.update_self ..

theorem update_inn_of_ne {c : α} (h : c ≠ b) (work : List α) :
    (s.update sys b work).inn c = s.inn c :=
  Function.update_of_ne h ..

theorem update_out_of_ne {c : α} (h : c ≠ b) (work : List α) :
    (s.update sys b work).out c = s.out c :=
  Function.update_of_ne h ..

omit [DecidableEq α] in
theorem JoinPrime.foldl_sup {P : L → Prop} (hP : JoinPrime P) (f : α → L) (qs : List α)
    (x : L) : P (qs.foldl (fun x q => x ⊔ f q) x) ↔ P x ∨ ∃ q ∈ qs, P (f q) := by
  induction qs generalizing x with
  | nil => simp
  | cons q qs ih =>
      rw [List.foldl_cons, ih, hP]
      simp [or_assoc]

theorem JoinPrime.newInn_iff {P : L → Prop} (hP : JoinPrime P) :
    P (s.newInn sys b) ↔ P (s.inn b) ∨ ∃ q, b ∈ sys.succs q ∧ P (s.out q) := by
  rw [State.newInn, hP.foldl_sup]
  simp only [System.mem_preds_iff]

theorem newInn_le_iff {u : L} :
    s.newInn sys b ≤ u ↔ s.inn b ≤ u ∧ ∀ q, b ∈ sys.succs q → s.out q ≤ u := by
  have h : ¬s.newInn sys b ≤ u ↔ ¬s.inn b ≤ u ∨ ∃ q, b ∈ sys.succs q ∧ ¬s.out q ≤ u :=
    (joinPrime_not_le u).newInn_iff
  constructor
  · intro hle
    refine ⟨?_, ?_⟩
    · by_contra hn
      exact h.mpr (Or.inl hn) hle
    · intro q hq
      by_contra hn
      exact h.mpr (Or.inr ⟨q, hq, hn⟩) hle
  · rintro ⟨hinn, hout⟩
    by_contra hn
    rcases h.mp hn with hn | ⟨q, hq, hn⟩
    · exact hn hinn
    · exact hn (hout q hq)

theorem inn_le_newInn : s.inn b ≤ s.newInn sys b :=
  (newInn_le_iff.mp le_rfl).1

theorem out_le_newInn {q : α} (hq : b ∈ sys.succs q) : s.out q ≤ s.newInn sys b :=
  (newInn_le_iff.mp le_rfl).2 q hq

end Merge

/-! ## The solver invariant -/

/-- What holds after the blocks in `swept` have each been visited at least once: pending
work and swept blocks are reachable, an unswept block has passed nothing on, an exit value
is the transfer of its entry value, an edge out of a swept block is propagated or pending,
and each fact at a block's entry comes from some path. -/
structure Invariant [OrderBot L] (sys : System α L) (swept : Set α) (s : State α L) : Prop where
  work_nodup : s.work.Nodup
  work_reachable : ∀ b ∈ s.work, sys.Reachable b
  swept_reachable : ∀ b ∈ swept, sys.Reachable b
  out_bot : ∀ b, b ∉ swept → s.out b = ⊥
  out_eq : ∀ b ∈ swept, s.out b = sys.transfer b (s.inn b)
  edge : ∀ q ∈ swept, ∀ b ∈ sys.succs q, b ∈ s.work ∨ s.out q ≤ s.inn b
  inn_sound : ∀ b, ∀ P : L → Prop, JoinPrime P → P (s.inn b) →
    P ⊥ ∨ ∃ p, Path sys.succs sys.entry p b ∧ P (sys.pathValue p)

section Invariant

variable [OrderBot L] {sys : System α L} {swept : Set α} {s : State α L} {b : α}

theorem init_invariant : Invariant sys ∅ (State.init : State α L) where
  work_nodup := List.nodup_nil
  work_reachable b hb := by cases hb
  swept_reachable b hb := by cases hb
  out_bot _ _ := rfl
  out_eq b hb := by cases hb
  edge b hb := by cases hb
  inn_sound _ _ _ h := Or.inl h

/-- A fact at a block's exit comes from some path through the block. -/
theorem Invariant.out_sound (h : Invariant sys swept s) (q : α) {P : L → Prop}
    (hP : JoinPrime P) (hq : P (s.out q)) :
    P ⊥ ∨ ∃ p, Path sys.succs sys.entry p q ∧ P (sys.transfer q (sys.pathValue p)) := by
  by_cases hs : q ∈ swept
  · rw [h.out_eq q hs] at hq
    rcases h.inn_sound q _ (hP.comp_transfer sys q) hq with hbot | hpath
    · obtain ⟨p, hp⟩ := h.swept_reachable q hs
      exact Or.inr ⟨p, hp, hP.mono (System.transfer_mono q bot_le) hbot⟩
    · exact Or.inr hpath
  · rw [h.out_bot q hs] at hq
    exact Or.inl hq

theorem Invariant.out_le_newOut (h : Invariant sys swept s) : s.out b ≤ s.newOut sys b := by
  by_cases hs : b ∈ swept
  · rw [h.out_eq b hs]
    exact System.transfer_mono b inn_le_newInn
  · rw [h.out_bot b hs]
    exact bot_le

/-- One visit preserves the invariant: the new worklist may drop `b` only, and it holds the
successors of `b` unless the visit left the exit value of a swept block unchanged. -/
theorem Invariant.update (h : Invariant sys swept s) (hb : sys.Reachable b) {work : List α}
    (hnodup : work.Nodup) (hreach : ∀ c ∈ work, sys.Reachable c)
    (hkeep : ∀ c ∈ s.work, c ≠ b → c ∈ work)
    (hpropagate : (∀ c ∈ sys.succs b, c ∈ work) ∨ (b ∈ swept ∧ s.newOut sys b = s.out b)) :
    Invariant sys (insert b swept) (s.update sys b work) where
  work_nodup := hnodup
  work_reachable := hreach
  swept_reachable c hc := by
    rcases hc with rfl | hc
    · exact hb
    · exact h.swept_reachable c hc
  out_bot c hc := by
    obtain ⟨hne, hc⟩ := not_or.mp hc
    rw [update_out_of_ne hne]
    exact h.out_bot c hc
  out_eq c hc := by
    by_cases hcb : c = b
    · subst hcb
      rw [update_out_self, update_inn_self, State.newOut]
    · rw [update_out_of_ne hcb, update_inn_of_ne hcb]
      exact h.out_eq c (hc.resolve_left hcb)
  edge q hq c hc := by
    by_cases hqb : q = b
    · subst hqb
      rcases hpropagate with hall | ⟨hs, hsame⟩
      · exact Or.inl (hall c hc)
      · rw [update_out_self, hsame]
        by_cases hcq : c = q
        · subst hcq
          rw [update_inn_self]
          exact Or.inr (out_le_newInn hc)
        · rw [update_inn_of_ne hcq]
          exact (h.edge q hs c hc).imp_left fun hw => hkeep c hw hcq
    · have hq' : q ∈ swept := hq.resolve_left hqb
      rw [update_out_of_ne hqb]
      by_cases hcb : c = b
      · subst hcb
        rw [update_inn_self]
        exact Or.inr (out_le_newInn hc)
      · rw [update_inn_of_ne hcb]
        exact (h.edge q hq' c hc).imp_left fun hw => hkeep c hw hcb
  inn_sound c P hP hPc := by
    by_cases hcb : c = b
    · subst hcb
      rw [update_inn_self, hP.newInn_iff] at hPc
      rcases hPc with hPc | ⟨q, hq, hPq⟩
      · exact h.inn_sound c P hP hPc
      · rcases h.out_sound q hP hPq with hbot | ⟨p, hp, hPp⟩
        · exact Or.inl hbot
        · exact Or.inr ⟨p ++ [q], hp.snoc hq, by rwa [System.pathValue_snoc]⟩
    · rw [update_inn_of_ne hcb] at hPc
      exact h.inn_sound c P hP hPc

theorem Invariant.sweepStep (h : Invariant sys swept s) (hb : sys.Reachable b) :
    Invariant sys (insert b swept) (s.sweepStep sys b) := by
  refine h.update hb (insertAll_nodup (h.work_nodup.erase b) _) ?_ ?_ ?_
  · intro c hc
    rcases mem_insertAll_iff.mp hc with hc | hc
    · exact h.work_reachable c (List.mem_of_mem_erase hc)
    · exact hb.succ hc
  · intro c hc hne
    exact mem_insertAll_iff.mpr (Or.inl ((List.mem_erase_of_ne hne).mpr hc))
  · exact Or.inl fun c hc => mem_insertAll_iff.mpr (Or.inr hc)

theorem foldl_sweepStep_invariant {order : List α} (horder : ∀ b ∈ order, sys.Reachable b)
    (h : Invariant sys swept s) :
    Invariant sys (swept ∪ {b | b ∈ order}) (order.foldl (State.sweepStep sys) s) := by
  induction order generalizing swept s with
  | nil => simpa using h
  | cons b order ih =>
      have hstep := ih (fun c hc => horder c (List.mem_cons_of_mem _ hc))
        (h.sweepStep (horder b List.mem_cons_self))
      have hset : insert b swept ∪ {c | c ∈ order} = swept ∪ {c | c ∈ b :: order} := by
        ext c
        simp only [Set.mem_union, Set.mem_insert_iff, Set.mem_ofPred_eq, List.mem_cons]
        tauto
      rwa [hset] at hstep

theorem sweep_invariant {order : List α} (horder : ∀ b ∈ order, sys.Reachable b) :
    Invariant sys {b | b ∈ order} (State.sweep sys order) := by
  have h := foldl_sweepStep_invariant horder init_invariant
  rwa [Set.empty_union] at h

theorem Invariant.visit [DecidableEq L] (h : Invariant sys swept s) (hb : b ∈ s.work)
    (hs : b ∈ swept) : Invariant sys swept (s.visit sys b) := by
  have hreach := h.work_reachable b hb
  rw [← Set.insert_eq_of_mem hs]
  by_cases hsame : s.newOut sys b = s.out b
  · rw [State.visit, if_pos hsame]
    refine h.update hreach (h.work_nodup.erase b) ?_ ?_ (Or.inr ⟨hs, hsame⟩)
    · intro c hc
      exact h.work_reachable c (List.mem_of_mem_erase hc)
    · intro c hc hne
      exact (List.mem_erase_of_ne hne).mpr hc
  · rw [State.visit, if_neg hsame]
    exact h.sweepStep hreach

/-- Visits keep the invariant once every reachable block has been swept. -/
theorem Invariant.steps [DecidableEq L] (h : Invariant sys swept s)
    (hall : ∀ b, sys.Reachable b → b ∈ swept) {s' : State α L}
    (hsteps : Relation.ReflTransGen (Step sys) s s') : Invariant sys swept s' := by
  induction hsteps with
  | refl => exact h
  | tail _ hstep ih =>
      obtain ⟨b, hb⟩ := hstep
      exact ih.visit hb (hall b (ih.work_reachable b hb))

end Invariant

/-! ## Termination -/

/-- A rank that grows with the order bounds how often a value can grow. -/
structure Ranked (L : Type*) [SemilatticeSup L] where
  rank : L → ℕ
  bound : ℕ
  rank_lt : ∀ {x y}, x < y → rank x < rank y
  rank_le : ∀ x, rank x ≤ bound

namespace Ranked

/-- The growth left at the exits, weighted so that one growth pays for a full worklist. -/
def potential (ranked : Ranked L) (sys : System α L) (s : State α L) : ℕ :=
  (∑ b ∈ sys.blocks.toFinset, (ranked.bound - ranked.rank (s.out b))) *
    (sys.blocks.toFinset.card + 1) + s.work.length

/-- An upper bound of the potential of every state with a duplicate-free worklist. -/
def fuel (ranked : Ranked L) (sys : System α L) : ℕ :=
  sys.blocks.toFinset.card * ranked.bound * (sys.blocks.toFinset.card + 1) +
    sys.blocks.toFinset.card

theorem length_le_card (sys : System α L) {work : List α} (h : work.Nodup) :
    work.length ≤ sys.blocks.toFinset.card := by
  rw [← List.toFinset_card_of_nodup h]
  apply Finset.card_le_card
  intro b _
  exact List.mem_toFinset.mpr (sys.complete b)

theorem potential_le_fuel (ranked : Ranked L) (sys : System α L) {s : State α L}
    (h : s.work.Nodup) : ranked.potential sys s ≤ ranked.fuel sys := by
  have hsum : (∑ b ∈ sys.blocks.toFinset, (ranked.bound - ranked.rank (s.out b))) ≤
      sys.blocks.toFinset.card * ranked.bound := by
    refine (Finset.sum_le_card_nsmul _ _ ranked.bound ?_).trans_eq (smul_eq_mul ..)
    intro b _
    exact Nat.sub_le _ _
  exact Nat.add_le_add (Nat.mul_le_mul_right _ hsum) (length_le_card sys h)

variable [DecidableEq L] [OrderBot L] {sys : System α L} {swept : Set α} {s : State α L}
  {b : α}

/-- Every visit lowers the potential, whichever pending block it takes. -/
theorem potential_visit_lt (ranked : Ranked L) (h : Invariant sys swept s)
    (hb : b ∈ s.work) (hs : b ∈ swept) :
    ranked.potential sys (s.visit sys b) < ranked.potential sys s := by
  have hnext := h.visit hb hs
  have hblock : b ∈ sys.blocks.toFinset := List.mem_toFinset.mpr (sys.complete b)
  by_cases hsame : s.newOut sys b = s.out b
  · have hout : (s.visit sys b).out = s.out := by
      funext c
      by_cases hc : c = b
      · rw [hc, State.visit, update_out_self, hsame]
      · rw [State.visit, update_out_of_ne hc]
    have hwork : (s.visit sys b).work = s.work.erase b := by
      rw [State.visit, if_pos hsame]
      rfl
    have hpos := List.length_pos_of_mem hb
    rw [potential, potential, hout, hwork, List.length_erase_of_mem hb]
    omega
  · have hgrow : s.out b < s.newOut sys b :=
      lt_of_le_of_ne h.out_le_newOut (Ne.symm hsame)
    have hsum : (∑ c ∈ sys.blocks.toFinset,
        (ranked.bound - ranked.rank ((s.visit sys b).out c))) <
        ∑ c ∈ sys.blocks.toFinset, (ranked.bound - ranked.rank (s.out c)) := by
      refine Finset.sum_lt_sum ?_ ⟨b, hblock, ?_⟩
      · intro c _
        by_cases hc : c = b
        · subst hc
          rw [State.visit, update_out_self]
          exact Nat.sub_le_sub_left (Nat.le_of_lt (ranked.rank_lt hgrow)) _
        · rw [State.visit, update_out_of_ne hc]
      · rw [State.visit, update_out_self]
        have hlt := ranked.rank_lt hgrow
        have hle := ranked.rank_le (s.newOut sys b)
        omega
    have hlength := length_le_card sys hnext.work_nodup
    have hmul := Nat.mul_le_mul_right (sys.blocks.toFinset.card + 1) hsum
    rw [Nat.succ_mul] at hmul
    rw [potential, potential]
    omega

/-- The worklist loop stops within its potential, in a state that visits lead to. -/
theorem drain_spec (ranked : Ranked L) (hall : ∀ b, sys.Reachable b → b ∈ swept) (fuel : ℕ)
    (h : Invariant sys swept s) (hfuel : ranked.potential sys s ≤ fuel) :
    ∃ s', State.drain sys fuel s = some s' ∧ s'.work = [] ∧
      Relation.ReflTransGen (Step sys) s s' := by
  induction fuel generalizing s with
  | zero =>
      have hwork : s.work = [] := by
        apply List.eq_nil_of_length_eq_zero
        rw [potential] at hfuel
        omega
      refine ⟨s, ?_, hwork, Relation.ReflTransGen.refl⟩
      simp [State.drain, hwork]
  | succ fuel ih =>
      cases hwork : s.work with
      | nil =>
          refine ⟨s, ?_, hwork, Relation.ReflTransGen.refl⟩
          simp [State.drain, hwork]
      | cons b rest =>
          have hb : b ∈ s.work := hwork ▸ List.mem_cons_self
          have hs := hall b (h.work_reachable b hb)
          have hlt := ranked.potential_visit_lt h hb hs
          obtain ⟨s', hdrain, hdone, hsteps⟩ := ih (h.visit hb hs) (by omega)
          refine ⟨s', ?_, hdone, Relation.ReflTransGen.head ⟨b, hb⟩ hsteps⟩
          simp only [State.drain, hwork]
          exact hdrain

end Ranked

/-- More fuel does not change the result of the worklist loop. -/
theorem drain_le [DecidableEq L] {sys : System α L} {fuel fuel' : ℕ} (hle : fuel ≤ fuel')
    {s s' : State α L} (h : State.drain sys fuel s = some s') :
    State.drain sys fuel' s = some s' := by
  induction fuel generalizing fuel' s with
  | zero =>
      cases hwork : s.work with
      | nil =>
          rw [State.drain, hwork] at h
          cases fuel' <;> simpa [State.drain, hwork] using h
      | cons b rest => simp [State.drain, hwork] at h
  | succ fuel ih =>
      obtain ⟨fuel', rfl⟩ := Nat.exists_eq_succ_of_ne_zero (Nat.ne_zero_of_lt hle)
      cases hwork : s.work with
      | nil => simpa [State.drain, hwork] using h
      | cons b rest =>
          simp only [State.drain, hwork] at h ⊢
          exact ih (Nat.le_of_succ_le_succ hle) h

/-! ## Solutions -/

/-- A solved state: on reachable blocks the entry values collect exactly the facts of the
paths and the exit values are their transfers, and other blocks keep the initial value. -/
structure Solution [OrderBot L] (sys : System α L) (s : State α L) : Prop where
  inn_iff : ∀ b, sys.Reachable b → ∀ P : L → Prop, JoinPrime P → ¬P ⊥ →
    (P (s.inn b) ↔ ∃ p, Path sys.succs sys.entry p b ∧ P (sys.pathValue p))
  out_eq : ∀ b, sys.Reachable b → s.out b = sys.transfer b (s.inn b)
  bot : ∀ b, ¬sys.Reachable b → s.inn b = ⊥ ∧ s.out b = ⊥

section Solution

variable [OrderBot L] {sys : System α L} {swept : Set α} {s s' : State α L}

theorem Invariant.pathValue_le (h : Invariant sys swept s)
    (hall : ∀ b, sys.Reachable b → b ∈ swept) (hwork : s.work = []) {p : List α} {b : α}
    (hp : Path sys.succs sys.entry p b) : sys.pathValue p ≤ s.inn b := by
  induction hp with
  | nil => exact bot_le
  | snoc hp hc ih =>
      rename_i p q c
      have hq := hall q ⟨p, hp⟩
      rw [System.pathValue_snoc]
      refine (System.transfer_mono q ih).trans ?_
      rw [← h.out_eq q hq]
      rcases h.edge q hq c hc with hw | hle
      · rw [hwork] at hw
        cases hw
      · exact hle

theorem Invariant.solution (h : Invariant sys swept s)
    (hall : ∀ b, sys.Reachable b → b ∈ swept) (hwork : s.work = []) : Solution sys s where
  inn_iff b _ P hP hbot := by
    constructor
    · intro hb
      exact (h.inn_sound b P hP hb).resolve_left hbot
    · rintro ⟨p, hp, hPp⟩
      exact hP.mono (h.pathValue_le hall hwork hp) hPp
  out_eq b hb := h.out_eq b (hall b hb)
  bot b hb := by
    refine ⟨?_, h.out_bot b fun hs => hb (h.swept_reachable b hs)⟩
    by_contra hne
    have hle : ¬s.inn b ≤ ⊥ := fun hle => hne (le_bot_iff.mp hle)
    rcases h.inn_sound b _ (joinPrime_not_le ⊥) hle with hbot | ⟨p, hp, -⟩
    · exact hbot le_rfl
    · exact hb ⟨p, hp⟩

/-- The entry value of a solution is below the bounds of the path values only. -/
theorem Solution.inn_le_iff (h : Solution sys s) {b : α} (hb : sys.Reachable b) {u : L} :
    s.inn b ≤ u ↔ ∀ p, Path sys.succs sys.entry p b → sys.pathValue p ≤ u := by
  have hiff := h.inn_iff b hb _ (joinPrime_not_le u) (by simp)
  rw [← not_iff_not, hiff]
  push Not
  rfl

/-- Any two solutions agree on the reachable blocks. -/
theorem Solution.unique (h : Solution sys s) (h' : Solution sys s') {b : α}
    (hb : sys.Reachable b) : s.inn b = s'.inn b ∧ s.out b = s'.out b := by
  have hinn : s.inn b = s'.inn b := by
    apply le_antisymm
    · exact (h.inn_le_iff hb).mpr ((h'.inn_le_iff hb).mp le_rfl)
    · exact (h'.inn_le_iff hb).mpr ((h.inn_le_iff hb).mp le_rfl)
  exact ⟨hinn, by rw [h.out_eq b hb, h'.out_eq b hb, hinn]⟩

/-- A finished run of visits from a sweep over the reachable blocks is a solution. -/
theorem solution_of_steps [DecidableEq L] {order : List α}
    (horder : ∀ b, b ∈ order ↔ sys.Reachable b)
    (hsteps : Relation.ReflTransGen (Step sys) (State.sweep sys order) s)
    (hwork : s.work = []) : Solution sys s := by
  have hall : ∀ b, sys.Reachable b → b ∈ {b | b ∈ order} := fun b hb => (horder b).mpr hb
  have hinv := sweep_invariant fun b hb => (horder b).mp hb
  exact (hinv.steps hall hsteps).solution hall hwork

variable (sys) in
/-- Sweep and worklist loop stop within the fuel bound, and the result is a solution. -/
theorem solve_spec [DecidableEq L] (ranked : Ranked L) {order : List α}
    (horder : ∀ b, b ∈ order ↔ sys.Reachable b) :
    ∃ s, (∀ fuel, ranked.fuel sys ≤ fuel →
        State.drain sys fuel (State.sweep sys order) = some s) ∧ Solution sys s := by
  have hall : ∀ b, sys.Reachable b → b ∈ {b | b ∈ order} := fun b hb => (horder b).mpr hb
  have hinv := sweep_invariant fun b hb => (horder b).mp hb
  obtain ⟨s, hdrain, hwork, hsteps⟩ :=
    ranked.drain_spec hall _ hinv (ranked.potential_le_fuel sys hinv.work_nodup)
  exact ⟨s, fun fuel hfuel => drain_le hfuel hdrain, solution_of_steps horder hsteps hwork⟩

end Solution

/-! ## Properties of every intermediate value -/

/-- A property of values that the solver's operations preserve. -/
structure Stable [OrderBot L] (sys : System α L) (G : L → Prop) : Prop where
  bot : G ⊥
  sup : ∀ {x y}, G x → G y → G (x ⊔ y)
  transfer : ∀ b {x}, G x → G (sys.transfer b x)

section Stable

variable [OrderBot L] {sys : System α L} {G : L → Prop} {s : State α L}

theorem Stable.newInn (hG : Stable sys G) (b : α) (h : ∀ c, G (s.inn c) ∧ G (s.out c)) :
    G (s.newInn sys b) := by
  rw [State.newInn]
  generalize sys.preds b = qs
  have hinn := (h b).1
  generalize s.inn b = x at hinn
  induction qs generalizing x with
  | nil => exact hinn
  | cons q qs ih => exact ih _ (hG.sup hinn (h q).2)

theorem Stable.update (hG : Stable sys G) (b : α) (work : List α)
    (h : ∀ c, G (s.inn c) ∧ G (s.out c)) :
    ∀ c, G ((s.update sys b work).inn c) ∧ G ((s.update sys b work).out c) := by
  intro c
  by_cases hc : c = b
  · subst hc
    rw [update_inn_self, update_out_self]
    exact ⟨hG.newInn c h, hG.transfer c (hG.newInn c h)⟩
  · rw [update_inn_of_ne hc, update_out_of_ne hc]
    exact h c

/-- A stable property holds of every value of every intermediate state. -/
theorem Stable.intermediate [DecidableEq L] (hG : Stable sys G) {order : List α}
    (h : Intermediate sys order s) : ∀ c, G (s.inn c) ∧ G (s.out c) := by
  have hsweep : ∀ done : List α, ∀ s : State α L, (∀ c, G (s.inn c) ∧ G (s.out c)) →
      ∀ c, G ((done.foldl (State.sweepStep sys) s).inn c) ∧
        G ((done.foldl (State.sweepStep sys) s).out c) := by
    intro done
    induction done with
    | nil => exact fun _ hs => hs
    | cons b done ih => exact fun s hs => ih _ (hG.update b _ hs)
  have hinit : ∀ c : α, G ((State.init : State α L).inn c) ∧ G ((State.init : State α L).out c) :=
    fun _ => ⟨hG.bot, hG.bot⟩
  cases h with
  | sweep _ => exact hsweep _ _ hinit
  | visits hsteps =>
      induction hsteps with
      | refl => exact hsweep _ _ hinit
      | tail _ hstep ih =>
          obtain ⟨b, -⟩ := hstep
          exact hG.update b _ ih

end Stable

end Mair.Dataflow
