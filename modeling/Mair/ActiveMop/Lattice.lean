import Mair.ActiveMop.Model

/-! # The four bit vectors form a semilattice with distributive transfer

`kill` overwrites one vector with another, so it distributes over joins without any
condition, and it keeps the three barrier vectors inside the reachable one. -/

namespace Mair.ActiveMop

open Ir Dataflow

variable {numMops : ℕ} {usedForTsan : Bool}

/-! ## The order -/

namespace Lattice

variable (a b c : Lattice numMops usedForTsan)

theorem join_anyAcq : (a.join b).anyAcq = a.anyAcq ∪ b.anyAcq := by
  cases usedForTsan with
  | false => simp [join, b.asanAcq rfl]
  | true => simp [join]

theorem join_anyRel : (a.join b).anyRel = a.anyRel ∪ b.anyRel := by
  cases usedForTsan with
  | false => simp [join, b.asanRel rfl]
  | true => simp [join]

instance : Max (Lattice numMops usedForTsan) := ⟨join⟩

@[simp]
theorem sup_reachable : (a ⊔ b).reachable = a.reachable ∪ b.reachable := rfl

@[simp]
theorem sup_notActive : (a ⊔ b).notActive = a.notActive ∪ b.notActive := rfl

@[simp]
theorem sup_anyAcq : (a ⊔ b).anyAcq = a.anyAcq ∪ b.anyAcq := join_anyAcq a b

@[simp]
theorem sup_anyRel : (a ⊔ b).anyRel = a.anyRel ∪ b.anyRel := join_anyRel a b

instance : SemilatticeSup (Lattice numMops usedForTsan) :=
  SemilatticeSup.mk'
    (fun a b => by ext1 <;> simp [Finset.union_comm])
    (fun a b c => by ext1 <;> simp [Finset.union_assoc])
    (fun a => by ext1 <;> simp)

theorem le_iff_sup_eq : a ≤ b ↔ a ⊔ b = b := Iff.rfl

instance : OrderBot (Lattice numMops usedForTsan) where
  bot := empty
  bot_le a := by
    rw [le_iff_sup_eq]
    ext1 <;> simp [empty]

@[simp]
theorem bot_reachable : (⊥ : Lattice numMops usedForTsan).reachable = ∅ := rfl

@[simp]
theorem bot_notActive : (⊥ : Lattice numMops usedForTsan).notActive = ∅ := rfl

@[simp]
theorem bot_anyAcq : (⊥ : Lattice numMops usedForTsan).anyAcq = ∅ := rfl

@[simp]
theorem bot_anyRel : (⊥ : Lattice numMops usedForTsan).anyRel = ∅ := rfl

theorem le_iff : a ≤ b ↔ a.reachable ⊆ b.reachable ∧ a.notActive ⊆ b.notActive ∧
    a.anyAcq ⊆ b.anyAcq ∧ a.anyRel ⊆ b.anyRel := by
  rw [le_iff_sup_eq, Lattice.ext_iff]
  simp [Finset.union_eq_right]

theorem beq_iff : a.beq b = true ↔ a = b := by
  rw [Lattice.ext_iff]
  cases usedForTsan with
  | false => simp [beq, a.asanAcq rfl, b.asanAcq rfl, a.asanRel rfl, b.asanRel rfl]
  | true => simp [beq, and_assoc]

instance : DecidableEq (Lattice numMops usedForTsan) := fun a b =>
  decidable_of_iff _ (beq_iff a b)

/-- The number of set bits. -/
def weight : ℕ := a.reachable.card + a.notActive.card + a.anyAcq.card + a.anyRel.card

def ranked : Ranked (Lattice numMops usedForTsan) where
  rank := weight
  bound := 4 * numMops
  rank_lt {a b} h := by
    have hle := (le_iff a b).mp h.le
    have hcards := And.intro (Finset.card_le_card hle.1) (Finset.card_le_card hle.2.1)
    have hcards' := And.intro (Finset.card_le_card hle.2.2.1) (Finset.card_le_card hle.2.2.2)
    by_contra hn
    apply h.ne
    unfold weight at hn
    ext1
    · exact Finset.eq_of_subset_of_card_le hle.1 (by omega)
    · exact Finset.eq_of_subset_of_card_le hle.2.1 (by omega)
    · exact Finset.eq_of_subset_of_card_le hle.2.2.1 (by omega)
    · exact Finset.eq_of_subset_of_card_le hle.2.2.2 (by omega)
  rank_le a := by
    have hfin : ∀ s : Finset (Fin numMops), s.card ≤ numMops := fun s => by
      simpa using Finset.card_le_univ s
    have h₁ := hfin a.reachable
    have h₂ := hfin a.notActive
    have h₃ := hfin a.anyAcq
    have h₄ := hfin a.anyRel
    unfold weight
    omega

/-! ## Transfer -/

/-- The barrier vectors stay inside the reachable one. -/
structure Within : Prop where
  notActive : a.notActive ⊆ a.reachable
  anyAcq : a.anyAcq ⊆ a.reachable
  anyRel : a.anyRel ⊆ a.reachable

end Lattice

/-- The vector of one barrier kind after a block: the bits that the block generates, and
elsewhere either every reachable bit or the incoming vector. -/
def throughBlock (invariant : BlockInvariant numMops) (contains : Bool)
    (gen reachable barrier : Finset (Fin numMops)) : Finset (Fin numMops) :=
  ((if contains then reachable else barrier) ∩ invariant.notUseGen) ∪ gen

theorem throughBlock_union (invariant : BlockInvariant numMops) (contains : Bool)
    (gen r r' x x' : Finset (Fin numMops)) :
    throughBlock invariant contains gen (r ∪ r') (x ∪ x') =
      throughBlock invariant contains gen r x ∪ throughBlock invariant contains gen r' x' := by
  cases contains <;> ext id <;> simp [throughBlock] <;> tauto

section Transfer

variable (invariant : BlockInvariant numMops)

theorem transfer_reachable (a : Lattice numMops usedForTsan) :
    (transfer invariant a).reachable = a.reachable ∪ invariant.useGen := by
  obtain ⟨use, notUse, gen, genAcq, genRel, call, acq, rel⟩ := invariant
  cases usedForTsan <;> cases call <;> cases acq <;> cases rel <;> rfl

theorem transfer_notActive (a : Lattice numMops usedForTsan) :
    (transfer invariant a).notActive =
      throughBlock invariant invariant.containsCall invariant.gen a.reachable a.notActive := by
  obtain ⟨use, notUse, gen, genAcq, genRel, call, acq, rel⟩ := invariant
  cases usedForTsan <;> cases call <;> cases acq <;> cases rel <;> rfl

theorem transfer_anyAcq (a : Lattice numMops true) :
    (transfer invariant a).anyAcq =
      throughBlock invariant invariant.containsAcq invariant.genAcq a.reachable a.anyAcq := by
  obtain ⟨use, notUse, gen, genAcq, genRel, call, acq, rel⟩ := invariant
  cases call <;> cases acq <;> cases rel <;> rfl

theorem transfer_anyRel (a : Lattice numMops true) :
    (transfer invariant a).anyRel =
      throughBlock invariant invariant.containsRel invariant.genRel a.reachable a.anyRel := by
  obtain ⟨use, notUse, gen, genAcq, genRel, call, acq, rel⟩ := invariant
  cases call <;> cases acq <;> cases rel <;> rfl

/-- Transfer distributes over joins: each vector of the result is a union of parts of the
incoming vectors and a constant. -/
theorem transfer_sup (a b : Lattice numMops usedForTsan) :
    transfer invariant (a ⊔ b) = transfer invariant a ⊔ transfer invariant b := by
  ext1
  · simp only [transfer_reachable, Lattice.sup_reachable]
    rw [Finset.union_union_distrib_right]
  · simp only [transfer_notActive, Lattice.sup_reachable, Lattice.sup_notActive,
      throughBlock_union]
  · cases usedForTsan with
    | false => rw [Lattice.asanAcq _ rfl, Lattice.asanAcq _ rfl]
    | true =>
        simp only [transfer_anyAcq, Lattice.sup_reachable, Lattice.sup_anyAcq,
          throughBlock_union]
  · cases usedForTsan with
    | false => rw [Lattice.asanRel _ rfl, Lattice.asanRel _ rfl]
    | true =>
        simp only [transfer_anyRel, Lattice.sup_reachable, Lattice.sup_anyRel,
          throughBlock_union]

end Transfer

/-! ## The analysis -/

section Analysis

variable {β : Type*} [DecidableEq β]

/-- The dataflow problem of a function. -/
def activeSystem (f : Function β) (mops : List Instruction) (usedForTsan : Bool) :
    System β (Lattice mops.length usedForTsan) where
  blocks := f.blocks
  entry := f.entry
  succs := f.succs
  transfer b := transfer (getInitializedBlockInfo mops usedForTsan (f.insts b))
  complete := f.complete
  transfer_sup _ := transfer_sup _

/-- `order` is the reverse post-order of the reachable blocks. -/
def dataflowAnalyze (f : Function β) (mops : List Instruction) (usedForTsan : Bool)
    (order : List β) (fuel : ℕ) : Option (State β (Lattice mops.length usedForTsan)) :=
  State.drain (activeSystem f mops usedForTsan) fuel
    (State.sweep (activeSystem f mops usedForTsan) order)

/-- A number of worklist rounds that always suffices. -/
def analysisFuel (f : Function β) (mops : List Instruction) : ℕ :=
  f.blocks.toFinset.card * (4 * mops.length) * (f.blocks.toFinset.card + 1) +
    f.blocks.toFinset.card

end Analysis

end Mair.ActiveMop
