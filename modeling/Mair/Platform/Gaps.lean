import Mair.Platform.Coverage

/-! # Gap protection, exactly

The walk over the sorted ranges either stops at two neighbours out of order, or it splits the
addresses below the last end into the ranges and the protected gaps. -/

namespace Mair.Platform

/-! ## Counting the ranges of an address -/

instance (range : Range) (b : Uptr) : Decidable (range.Contains b) :=
  inferInstanceAs (Decidable (range.beg ≤ b ∧ b < range.fin))

/-- How many ranges of a list hold an address. -/
def holders (ranges : List Range) (b : Uptr) : ℕ :=
  ranges.countP fun range => range.Contains b

theorem holders_append (as bs : List Range) (b : Uptr) :
    holders (as ++ bs) b = holders as b + holders bs b :=
  List.countP_append

theorem holders_cons (a : Range) (as : List Range) (b : Uptr) :
    holders (a :: as) b = holders as b + if a.Contains b then 1 else 0 := by
  simp [holders, List.countP_cons]

theorem holders_pos {ranges : List Range} {a : Range} {b : Uptr} (ha : a ∈ ranges)
    (hb : a.Contains b) : 0 < holders ranges b :=
  List.countP_pos_iff.mpr ⟨a, ha, decide_eq_true hb⟩

/-! ## The walk -/

/-- The end of the last range that the walk has passed. -/
def walkEnd : Uptr → List Range → Uptr
  | lastEnd, [] => lastEnd
  | _, cur :: rest => walkEnd cur.fin rest

/-- No range begins before the end of the one listed before it. -/
def InOrder : Uptr → List Range → Prop
  | _, [] => True
  | lastEnd, cur :: rest => lastEnd ≤ cur.beg ∧ InOrder cur.fin rest

section Walk

variable {ranges gaps : List Range} {lastEnd : Uptr}

theorem exists_protectGaps_iff :
    (∃ gaps, protectGaps lastEnd ranges = some gaps) ↔ InOrder lastEnd ranges := by
  induction ranges generalizing lastEnd with
  | nil => simp [protectGaps, InOrder]
  | cons cur rest ih =>
      rw [protectGaps, InOrder, ← ih]
      by_cases h : cur.beg < lastEnd
      · have hnot : ¬lastEnd ≤ cur.beg := BitVec.not_le.mpr h
        simp [h, hnot]
      · have hle : lastEnd ≤ cur.beg := BitVec.not_lt.mp h
        simp [h, hle]

theorem InOrder.le_walkEnd (hwf : ∀ a ∈ ranges, a.beg ≤ a.fin) (h : InOrder lastEnd ranges) :
    lastEnd ≤ walkEnd lastEnd ranges := by
  induction ranges generalizing lastEnd with
  | nil => exact BitVec.le_refl _
  | cons cur rest ih =>
      have hcur := hwf cur List.mem_cons_self
      have hrest := ih (fun a ha => hwf a (List.mem_cons_of_mem _ ha)) h.2
      exact BitVec.le_trans h.1 (BitVec.le_trans hcur hrest)

/-- An address is held once when the walk has passed it, and not at all otherwise. -/
theorem holders_protectGaps (hwf : ∀ a ∈ ranges, a.beg ≤ a.fin)
    (h : protectGaps lastEnd ranges = some gaps) (b : Uptr) :
    holders ranges b + holders gaps b =
      if lastEnd ≤ b ∧ b < walkEnd lastEnd ranges then 1 else 0 := by
  induction ranges generalizing lastEnd gaps with
  | nil =>
      cases h
      have hnot : ¬(lastEnd ≤ b ∧ b < lastEnd) := fun h => BitVec.not_lt.mpr h.1 h.2
      simp [holders, walkEnd, hnot]
  | cons cur rest ih =>
      have hcur := hwf cur List.mem_cons_self
      have hwf' : ∀ a ∈ rest, a.beg ≤ a.fin := fun a ha => hwf a (List.mem_cons_of_mem _ ha)
      rw [protectGaps] at h
      by_cases hlt : cur.beg < lastEnd
      · simp [hlt] at h
      · rw [if_neg hlt] at h
        obtain ⟨gaps', hgaps', rfl⟩ := Option.map_eq_some_iff.mp h
        have hrest := ih hwf' hgaps'
        have hend := (exists_protectGaps_iff.mp ⟨gaps', hgaps'⟩).le_walkEnd hwf'
        have hgap : holders (if lastEnd = cur.beg then gaps' else ⟨lastEnd, cur.beg⟩ :: gaps') b =
            holders gaps' b + if lastEnd ≤ b ∧ b < cur.beg then 1 else 0 := by
          by_cases heq : lastEnd = cur.beg
          · have hnot : ¬(lastEnd ≤ b ∧ b < cur.beg) :=
              fun h => BitVec.not_lt.mpr h.1 (heq ▸ h.2)
            rw [if_pos heq, if_neg hnot, Nat.add_zero]
          · rw [if_neg heq, holders_cons]
            rfl
        have hcontains : cur.Contains b ↔ cur.beg ≤ b ∧ b < cur.fin := Iff.rfl
        rw [holders_cons, hgap, walkEnd]
        simp only [hcontains, BitVec.le_def, BitVec.lt_def] at *
        split_ifs at * <;> omega

end Walk

/-! ## The protection step -/

/-- The ranges and the gaps hold each address below `fin` once, and no address beyond. -/
structure Partitions (ranges gaps : List Range) (fin : Uptr) : Prop where
  inside : ∀ a ∈ ranges ++ gaps, ∀ b, a.Contains b → b < fin
  once : ∀ b, b < fin → holders (ranges ++ gaps) b = 1
  unprotected : ∀ a ∈ ranges, ∀ gap ∈ gaps, ∀ b, a.Contains b → ¬gap.Contains b

/-- The step dies only where two ranges overlap, and otherwise leaves nothing out. -/
def GapsExact (ranges : List Range) : Prop :=
  match protectGaps 0 (sortRanges ranges) with
  | none => ¬ranges.Pairwise Range.Apart
  | some gaps => Partitions ranges gaps (walkEnd 0 (sortRanges ranges))

/-- Of two neighbours that begin at one address, the first is empty. -/
def EmptiesFirst (ranges : List Range) : Prop :=
  ranges.IsChain fun a b => a.beg = b.beg → a.fin ≤ a.beg

section Step

variable {ranges gaps : List Range} {lastEnd : Uptr}

theorem partitions_of_walk (hwf : ∀ a ∈ ranges, a.beg ≤ a.fin)
    (h : protectGaps 0 (sortRanges ranges) = some gaps) :
    Partitions ranges gaps (walkEnd 0 (sortRanges ranges)) := by
  have hperm := sortRanges_perm ranges
  have hcount : ∀ b, holders ranges b + holders gaps b =
      if b < walkEnd 0 (sortRanges ranges) then 1 else 0 := by
    intro b
    have hsorted := holders_protectGaps (fun a ha => hwf a (hperm.mem_iff.mp ha)) h b
    have hzero : (0 : Uptr) ≤ b := BitVec.le_def.mpr (Nat.zero_le _)
    have hholders : holders (sortRanges ranges) b = holders ranges b := hperm.countP_eq _
    simpa only [hholders, hzero, true_and] using hsorted
  constructor
  · intro a ha b hb
    have hpos := holders_pos ha hb
    rw [holders_append, hcount] at hpos
    by_contra hnot
    rw [if_neg hnot] at hpos
    exact Nat.lt_irrefl 0 hpos
  · intro b hb
    rw [holders_append, hcount, if_pos hb]
  · intro a ha gap hgap b hb hgb
    have hpos := holders_pos ha hb
    have hpos' := holders_pos hgap hgb
    have hle := hcount b
    split at hle <;> omega

theorem emptiesFirst_of_inOrder (h : InOrder lastEnd ranges) : EmptiesFirst ranges := by
  unfold EmptiesFirst
  induction ranges generalizing lastEnd with
  | nil => exact List.IsChain.nil
  | cons cur rest ih =>
      cases rest with
      | nil => exact List.IsChain.singleton cur
      | cons next rest =>
          refine List.IsChain.cons_cons ?_ (ih h.2)
          intro heq
          rw [heq]
          exact h.2.1

/-- A range ends before the ranges sorted behind it begin. -/
theorem fin_le_beg {cur next a : Range} (hle : cur.beg ≤ next.beg) (hle' : next.beg ≤ a.beg)
    (hwf : a.beg ≤ a.fin) (hapart : cur.Apart a)
    (hempty : cur.beg = next.beg → cur.fin ≤ cur.beg) : cur.fin ≤ a.beg := by
  cases hapart with
  | inl h => exact h
  | inr h =>
      have heq : cur.beg = next.beg :=
        BitVec.le_antisymm hle (BitVec.le_trans hle' (BitVec.le_trans hwf h))
      exact BitVec.le_trans (hempty heq) (BitVec.le_trans hle hle')

theorem inOrder_of_emptiesFirst (hwf : ∀ a ∈ ranges, a.beg ≤ a.fin)
    (hsorted : ranges.Pairwise fun a b => a.beg ≤ b.beg) (hapart : ranges.Pairwise Range.Apart)
    (hempties : EmptiesFirst ranges) (hlast : ∀ a ∈ ranges, lastEnd ≤ a.beg) :
    InOrder lastEnd ranges := by
  induction ranges generalizing lastEnd with
  | nil => trivial
  | cons cur rest ih =>
      obtain ⟨hcur, hsorted'⟩ := List.pairwise_cons.mp hsorted
      obtain ⟨hcurApart, hapart'⟩ := List.pairwise_cons.mp hapart
      have hwf' : ∀ a ∈ rest, a.beg ≤ a.fin := fun a ha => hwf a (List.mem_cons_of_mem _ ha)
      refine ⟨hlast cur List.mem_cons_self, ?_⟩
      cases rest with
      | nil => trivial
      | cons next rest =>
          obtain ⟨hempty, hempties'⟩ := List.isChain_cons_cons.mp hempties
          have hnext := hcur next List.mem_cons_self
          apply ih hwf' hsorted' hapart' hempties'
          intro a ha
          apply fin_le_beg hnext _ (hwf' a ha) (hcurApart a ha) hempty
          cases List.mem_cons.mp ha with
          | inl heq => exact heq ▸ BitVec.le_refl _
          | inr hmem => exact (List.pairwise_cons.mp hsorted').1 a hmem

end Step

/-! ## An empty range at the beginning of another one -/

def emptyThenNonempty : List Range := [⟨5, 5⟩, ⟨5, 10⟩]

end Mair.Platform
