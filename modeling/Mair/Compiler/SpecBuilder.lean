import Mair.Compiler.Patch

/-! # The builder of the new link spec

Operations on the link spec are recorded in any order. They are sorted by their position, and the
ones that begin in an operation that was applied are skipped. -/

namespace Mair.Compiler

namespace NewLinkSpecBuilder

/-- `substr` throws behind the end. -/
def insert (builder : NewLinkSpecBuilder) (pos : ℕ) (str : CString) :
    Except Failure NewLinkSpecBuilder :=
  if str = [] then .ok builder
  else if builder.linkSpec.length < pos then .error .outOfRange
  else .ok (builder.replace ⟨pos, []⟩ str)

end NewLinkSpecBuilder

/-! ## Sequences of operations -/

inductive Edit where
  | insert (pos : ℕ) (str : CString)
  | remove (str : View)
  | replace (fr : View) (to_ : CString)

def Edit.record (builder : NewLinkSpecBuilder) : Edit → Except Failure NewLinkSpecBuilder
  | .insert pos str => builder.insert pos str
  | .remove str => .ok (builder.remove str)
  | .replace fr to_ => .ok (builder.replace fr to_)

def recordAll : List Edit → NewLinkSpecBuilder → Except Failure NewLinkSpecBuilder
  | [], builder => .ok builder
  | edit :: edits, builder => do
      let builder ← edit.record builder
      recordAll edits builder

abbrev FrToPair := View × CString

/-- What `std::sort` may leave: the order of operations at the same position is open. -/
structure SortedByPos (operations sorted : List FrToPair) : Prop where
  perm : sorted.Perm operations
  ordered : sorted.Pairwise fun a b => a.1.pos ≤ b.1.pos

/-! ## What is claimed -/

/-- The operations that do not begin before the end of the last applied one. -/
def applied : ℕ → List FrToPair → List FrToPair
  | _, [] => []
  | last, op :: operations =>
      if op.1.pos < last then applied last operations
      else op :: applied (op.1.pos + op.1.text.length) operations

/-- The link spec from a position on, with the range of each operation replaced. -/
def replaced (linkSpec : CString) : ℕ → List FrToPair → CString
  | last, [] => linkSpec.drop last
  | last, op :: operations =>
      (linkSpec.drop last).take (op.1.pos - last) ++ op.2 ++
        replaced linkSpec (op.1.pos + op.1.text.length) operations

def sizeChange : List FrToPair → ℤ
  | [] => 0
  | op :: operations => (op.2.length - op.1.text.length) + sizeChange operations

structure BuildsRightly (linkSpec : CString) (sorted : List FrToPair) (result : CString) :
    Prop where
  length_le : result.length ≤ linkSpec.length
  replaces : result = replaced linkSpec 0 (applied 0 sorted)
  ordered : (applied 0 sorted).Pairwise fun a b => a.1.pos + a.1.text.length ≤ b.1.pos
  all : sorted.Pairwise (fun a b => Apart a.1 b.1) → applied 0 sorted = sorted

/-! ## Applied operations -/

section Applied

variable {linkSpec : CString} {operations sorted : List FrToPair} {op : FrToPair} {last : ℕ}

theorem applied_sublist : (applied last operations).Sublist operations := by
  induction operations generalizing last with
  | nil => exact .slnil
  | cons op operations ih =>
      rw [applied]
      split
      · exact ih.cons op
      · exact ih.cons_cons op

theorem applied_ordered :
    (∀ op ∈ applied last operations, last ≤ op.1.pos) ∧
      (applied last operations).Pairwise fun a b => a.1.pos + a.1.text.length ≤ b.1.pos := by
  induction operations generalizing last with
  | nil => exact ⟨nofun, .nil⟩
  | cons op operations ih =>
      rw [applied]
      split
      · exact ih
      · next hlast =>
          obtain ⟨hfrom, hpairwise⟩ := @ih (op.1.pos + op.1.text.length)
          refine ⟨?_, List.pairwise_cons.mpr ⟨hfrom, hpairwise⟩⟩
          intro b hb
          rcases List.mem_cons.mp hb with rfl | hb
          · exact Nat.le_of_not_lt hlast
          · have := hfrom b hb
            omega

/-- All operations are applied if and only if each ends before the next begins. -/
theorem applied_eq_self_iff :
    applied last operations = operations ↔ (∀ op ∈ operations, last ≤ op.1.pos) ∧
      operations.Pairwise fun a b => a.1.pos + a.1.text.length ≤ b.1.pos := by
  constructor
  · intro h
    have hordered := @applied_ordered operations last
    rw [h] at hordered
    exact hordered
  · intro h
    induction operations generalizing last with
    | nil => rfl
    | cons op operations ih =>
        obtain ⟨hfrom, hpairwise⟩ := h
        obtain ⟨hnext, hpairwise⟩ := List.pairwise_cons.mp hpairwise
        rw [applied, if_neg (Nat.not_lt.mpr (hfrom op List.mem_cons_self)), ih ⟨hnext, hpairwise⟩]

/-- The loop of `build` replaces the ranges of the operations that are applied. -/
theorem splice_eq_replaced (h : ∀ op ∈ operations, op.1.pos ≤ linkSpec.length) :
    NewLinkSpecBuilder.splice linkSpec last operations =
      replaced linkSpec last (applied last operations) := by
  induction operations generalizing last with
  | nil => rfl
  | cons op operations ih =>
      obtain ⟨fr, to_⟩ := op
      have hpos : ¬linkSpec.length < fr.pos := Nat.not_lt.mpr (h _ List.mem_cons_self)
      have hrest := fun op hop => h op (List.mem_cons_of_mem _ hop)
      rw [NewLinkSpecBuilder.splice, applied]
      by_cases hlast : fr.pos < last
      · rw [if_pos (Or.inl hlast), if_pos hlast, ih hrest]
      · rw [if_neg (not_or.mpr ⟨hlast, hpos⟩), if_neg hlast, replaced, ih hrest]

theorem length_replaced (hle : last ≤ linkSpec.length)
    (hinside : ∀ op ∈ operations, op.1.pos + op.1.text.length ≤ linkSpec.length)
    (hfrom : ∀ op ∈ operations, last ≤ op.1.pos)
    (hpairwise : operations.Pairwise fun a b => a.1.pos + a.1.text.length ≤ b.1.pos) :
    ((replaced linkSpec last operations).length : ℤ) =
      linkSpec.length - last + sizeChange operations := by
  induction operations generalizing last with
  | nil =>
      rw [replaced, sizeChange, List.length_drop]
      omega
  | cons op operations ih =>
      obtain ⟨hnext, hpairwise⟩ := List.pairwise_cons.mp hpairwise
      have hop := hinside op List.mem_cons_self
      have hlast := hfrom op List.mem_cons_self
      have hrest := ih hop (fun b hb => hinside b (List.mem_cons_of_mem _ hb)) hnext hpairwise
      rw [replaced, sizeChange, List.length_append, List.length_append, List.length_take,
        List.length_drop]
      omega

end Applied

/-! ## Recorded operations -/

section Record

variable {linkSpec : CString} {builder builder' : NewLinkSpecBuilder} {edit : Edit}
  {edits : List Edit}

theorem sizeChange_append {operations more : List FrToPair} :
    sizeChange (operations ++ more) = sizeChange operations + sizeChange more := by
  induction operations with
  | nil => exact (Int.zero_add _).symm
  | cons op operations ih => rw [List.cons_append, sizeChange, sizeChange, ih, Int.add_assoc]

theorem sizeChange_perm {operations more : List FrToPair} (h : operations.Perm more) :
    sizeChange operations = sizeChange more := by
  induction h with
  | nil => rfl
  | cons op _ ih => rw [sizeChange, sizeChange, ih]
  | swap a b l =>
      rw [sizeChange, sizeChange, sizeChange, sizeChange]
      omega
  | trans _ _ ih ih' => rw [ih, ih']

/-- The operations lie in the link spec, and the guard has their sizeChange. -/
structure Recorded (linkSpec : CString) (builder : NewLinkSpecBuilder) : Prop where
  linkSpec_eq : builder.linkSpec = linkSpec
  deltaSize_eq : builder.deltaSize = sizeChange builder.operations
  inside : ∀ op ∈ builder.operations, op.1.pos + op.1.text.length ≤ linkSpec.length

theorem Recorded.replace (h : Recorded linkSpec builder) {fr : View} {to_ : CString} :
    Recorded linkSpec (builder.replace fr to_) := by
  rw [NewLinkSpecBuilder.replace]
  by_cases hin : builder.inSpec fr = true
  · rw [if_pos hin]
    refine ⟨h.linkSpec_eq, ?_, ?_⟩
    · simp only [sizeChange_append, sizeChange, h.deltaSize_eq, Int.add_zero]
    · intro op hop
      rcases List.mem_append.mp hop with hop | hop
      · exact h.inside op hop
      · rw [List.mem_singleton] at hop
        rw [hop, ← h.linkSpec_eq]
        exact (of_decide_eq_true hin).2
  · rw [if_neg hin]
    exact h

theorem Recorded.record (h : Recorded linkSpec builder)
    (hrecord : edit.record builder = .ok builder') :
    Recorded linkSpec builder' := by
  cases edit with
  | insert pos str =>
      rw [Edit.record, NewLinkSpecBuilder.insert] at hrecord
      rcases ite_eq_iff.mp hrecord with ⟨-, hrecord⟩ | ⟨-, hrecord⟩
      · cases hrecord
        exact h
      rcases ite_eq_iff.mp hrecord with ⟨-, hrecord⟩ | ⟨-, hrecord⟩
      · cases hrecord
      · cases hrecord
        exact h.replace
  | remove str =>
      cases hrecord
      rw [NewLinkSpecBuilder.remove]
      split
      · exact h
      · exact h.replace
  | replace fr to_ =>
      cases hrecord
      exact h.replace

theorem Recorded.recordAll (h : Recorded linkSpec builder)
    (hrecord : Mair.Compiler.recordAll edits builder = .ok builder') :
    Recorded linkSpec builder' := by
  induction edits generalizing builder with
  | nil =>
      cases hrecord
      exact h
  | cons edit edits ih =>
      obtain ⟨next, hnext, hrest⟩ := bind_eq_ok.mp hrecord
      exact ih (h.record hnext) hrest

end Record

/-! ## Every order of the operations -/

section Build

variable {linkSpec : CString} {operations sorted : List FrToPair}

/-- Where no insertion stands at the beginning of a replaced range, disjoint operations are all
applied. -/
theorem applied_all (h : SortedByPos operations sorted)
    (happart : operations.Pairwise fun a b => Apart a.1 b.1)
    (hinsert : ∀ a ∈ operations, ∀ b ∈ operations, a.1.text ≠ [] → b.1.text = [] →
      a.1.pos ≠ b.1.pos) :
    applied 0 sorted = sorted := by
  rw [applied_eq_self_iff]
  refine ⟨fun _ _ => Nat.zero_le _, ?_⟩
  have happart' : sorted.Pairwise fun a b => Apart a.1 b.1 :=
    (h.perm.pairwise_iff fun hab => Or.symm hab).mpr happart
  refine (h.ordered.and happart').imp_of_mem ?_
  intro a b ha hb hab
  obtain ⟨hpos, hle | hle⟩ := hab
  · exact hle
  · by_cases hreplace : a.1.text = []
    · rw [hreplace]
      exact hpos
    · have hempty : b.1.text = [] := by
        rw [← List.length_eq_zero_iff]
        omega
      refine absurd ?_ (hinsert a (h.perm.mem_iff.mp ha) b (h.perm.mem_iff.mp hb) hreplace hempty)
      omega

/-- Insertions come behind the other operations at their position. -/
def InsertsLast (a b : FrToPair) : Prop :=
  a.1.pos < b.1.pos ∨ a.1.pos = b.1.pos ∧ (a.1.text ≠ [] ∨ b.1.text = [])

instance : DecidableRel InsertsLast := fun _ _ => inferInstanceAs (Decidable (_ ∨ _ ∧ (_ ∨ _)))

instance : Std.Total InsertsLast where
  total a b := by
    rcases Nat.lt_trichotomy a.1.pos b.1.pos with hlt | heq | hlt
    · exact .inl (.inl hlt)
    · by_cases hempty : b.1.text = []
      · exact .inl (.inr ⟨heq, .inr hempty⟩)
      · exact .inr (.inr ⟨heq.symm, .inl hempty⟩)
    · exact .inr (.inl hlt)

instance : IsTrans FrToPair InsertsLast where
  trans a b c hab hbc := by
    rcases hab with hab | ⟨hab, hlast⟩
    · rcases hbc with hbc | ⟨hbc, -⟩
      · exact .inl (hab.trans hbc)
      · exact .inl (hbc ▸ hab)
    · rcases hbc with hbc | ⟨hbc, hlast'⟩
      · exact .inl (hab ▸ hbc)
      · refine .inr ⟨hab.trans hbc, ?_⟩
        rcases hlast with hlast | hlast
        · exact .inl hlast
        · rcases hlast' with hlast' | hlast'
          · exact absurd hlast hlast'
          · exact .inr hlast'

theorem sortedByPos_insertsLast :
    SortedByPos operations (operations.insertionSort InsertsLast) where
  perm := List.perm_insertionSort InsertsLast operations
  ordered := by
    refine (List.pairwise_insertionSort InsertsLast operations).imp ?_
    intro a b hab
    rcases hab with hab | hab
    · exact hab.le
    · exact hab.1.le

/-- An insertion at the beginning of a replaced range may be sorted behind it. -/
theorem exists_not_applied {a b : FrToPair} (ha : a ∈ operations) (hb : b ∈ operations)
    (hreplace : a.1.text ≠ []) (hinsert : b.1.text = []) (hpos : a.1.pos = b.1.pos) :
    ∃ sorted, SortedByPos operations sorted ∧ applied 0 sorted ≠ sorted := by
  refine ⟨_, sortedByPos_insertsLast, ?_⟩
  intro happlied
  have hmem : ∀ {op : FrToPair}, op ∈ operations → op ∈ operations.insertionSort InsertsLast :=
    fun hop => (List.mem_insertionSort InsertsLast).mpr hop
  obtain ⟨i, hi, rfl⟩ := List.getElem_of_mem (hmem ha)
  obtain ⟨j, hj, rfl⟩ := List.getElem_of_mem (hmem hb)
  have hlast := List.pairwise_iff_getElem.mp (List.pairwise_insertionSort InsertsLast operations)
  have hend := List.pairwise_iff_getElem.mp (applied_eq_self_iff.mp happlied).2
  have hlength := List.length_pos_of_ne_nil hreplace
  rcases Nat.lt_trichotomy i j with hij | rfl | hij
  · have hle := hend i j hi hj hij
    omega
  · exact hreplace hinsert
  · rcases hlast j i hj hi hij with hlt | ⟨-, hbehind | hbehind⟩
    · exact absurd hpos hlt.ne'
    · exact hbehind hinsert
    · exact hreplace hbehind

theorem buildSorted_of_build {builder : NewLinkSpecBuilder} {result : CString}
    (h : builder.build = .ok result) (sorted : List FrToPair) :
    builder.buildSorted sorted = .ok (NewLinkSpecBuilder.splice builder.linkSpec 0 sorted) := by
  rw [NewLinkSpecBuilder.build, NewLinkSpecBuilder.buildSorted] at h
  rcases ite_eq_iff.mp h with ⟨-, h⟩ | ⟨hdelta, h⟩
  · cases h
  rcases ite_eq_iff.mp h with ⟨-, h⟩ | ⟨hreserve, -⟩
  · cases h
  rw [NewLinkSpecBuilder.buildSorted, if_neg hdelta, if_neg hreserve]

/-- One order of the operations is built rightly if and only if the applied ones do not lengthen
the link spec, and disjoint ones are all applied. -/
theorem buildsRightly_splice_iff
    (hinside : ∀ op ∈ sorted, op.1.pos + op.1.text.length ≤ linkSpec.length) :
    BuildsRightly linkSpec sorted (NewLinkSpecBuilder.splice linkSpec 0 sorted) ↔
      sizeChange (applied 0 sorted) ≤ 0 ∧
        (sorted.Pairwise (fun a b => Apart a.1 b.1) → applied 0 sorted = sorted) := by
  have heq := @splice_eq_replaced linkSpec sorted 0 fun op hop =>
    Nat.le_trans (Nat.le_add_right _ _) (hinside op hop)
  have hlength := length_replaced (Nat.zero_le linkSpec.length)
    (fun op hop => hinside op (applied_sublist.subset hop)) (@applied_ordered sorted 0).1
    applied_ordered.2
  rw [heq]
  constructor
  · intro h
    have hle := h.length_le
    exact ⟨by omega, h.all⟩
  · intro h
    exact ⟨by omega, rfl, applied_ordered.2, h.2⟩

/-- What `build` returns is right for every order that the sort may leave, if and only if the
applied operations do not lengthen the link spec, and no insertion stands at the beginning of a
replaced range where the operations are disjoint. -/
theorem buildsRightly_iff {edits : List Edit} {builder : NewLinkSpecBuilder}
    (hrecord : recordAll edits ⟨linkSpec, [], 0⟩ = .ok builder)
    (hbuild : ∃ result, builder.build = .ok result) :
    (∀ sorted result, SortedByPos builder.operations sorted →
        builder.buildSorted sorted = .ok result → BuildsRightly linkSpec sorted result) ↔
      (∀ sorted, SortedByPos builder.operations sorted → sizeChange (applied 0 sorted) ≤ 0) ∧
        (builder.operations.Pairwise (fun a b => Apart a.1 b.1) →
          ∀ a ∈ builder.operations, ∀ b ∈ builder.operations, a.1.text ≠ [] → b.1.text = [] →
            a.1.pos ≠ b.1.pos) := by
  have hrecorded : Recorded linkSpec builder :=
    Recorded.recordAll ⟨rfl, rfl, fun _ hop => absurd hop List.not_mem_nil⟩ hrecord
  obtain ⟨built, hbuilt⟩ := hbuild
  have hright : ∀ sorted, SortedByPos builder.operations sorted →
      ((∀ result, builder.buildSorted sorted = .ok result → BuildsRightly linkSpec sorted result) ↔
        sizeChange (applied 0 sorted) ≤ 0 ∧
          (sorted.Pairwise (fun a b => Apart a.1 b.1) → applied 0 sorted = sorted)) := by
    intro sorted hsorted
    rw [buildSorted_of_build hbuilt sorted, hrecorded.linkSpec_eq,
      ← buildsRightly_splice_iff fun op hop => hrecorded.inside op (hsorted.perm.mem_iff.mp hop)]
    constructor
    · intro h
      exact h _ rfl
    · intro h result hresult
      cases hresult
      exact h
  constructor
  · intro h
    refine ⟨fun sorted hsorted => ((hright sorted hsorted).mp fun result =>
      h sorted result hsorted).1, ?_⟩
    intro happart a ha b hb hreplace hinsert hpos
    obtain ⟨sorted, hsorted, hne⟩ := exists_not_applied ha hb hreplace hinsert hpos
    refine hne (((hright sorted hsorted).mp fun result => h sorted result hsorted).2 ?_)
    exact (hsorted.perm.pairwise_iff fun hab => Or.symm hab).mpr happart
  · intro h sorted result hsorted
    refine (hright sorted hsorted).mpr ⟨h.1 sorted hsorted, ?_⟩ result
    intro happart
    have happart' := (hsorted.perm.pairwise_iff fun hab => Or.symm hab).mp happart
    exact applied_all hsorted happart' (h.2 happart')

end Build

/-! ## A removal recorded twice -/

/-- The first two characters are removed twice, and three are inserted. -/
def removedTwice : List Edit :=
  [.remove ⟨0, "ab".toList⟩, .remove ⟨0, "ab".toList⟩, .insert 4 "xyz".toList]

def insertedBehind : List Edit := [.remove ⟨0, "a".toList⟩, .insert 0 "x".toList]

/-- The guard counts both removals, and the result is longer than the link spec; and an insertion
at the beginning of a removed range is lost. -/
theorem removedTwice_longer :
    (∃ builder sorted result,
      recordAll removedTwice ⟨"abcdef".toList, [], 0⟩ = .ok builder ∧
        SortedByPos builder.operations sorted ∧ builder.buildSorted sorted = .ok result ∧
          ¬BuildsRightly "abcdef".toList sorted result) ∧
    ∃ builder sorted result,
      recordAll insertedBehind ⟨"abcdef".toList, [], 0⟩ = .ok builder ∧
        SortedByPos builder.operations sorted ∧ builder.buildSorted sorted = .ok result ∧
          ¬BuildsRightly "abcdef".toList sorted result := by
  refine ⟨⟨_, [(⟨0, "ab".toList⟩, []), (⟨0, "ab".toList⟩, []), (⟨4, []⟩, "xyz".toList)],
    "cdxyzef".toList, rfl, ⟨.refl _, by decide⟩, by decide, ?_⟩,
    ⟨_, [(⟨0, "a".toList⟩, []), (⟨0, []⟩, "x".toList)], "bcdef".toList, rfl,
    ⟨.refl _, by decide⟩, by decide, ?_⟩⟩
  · intro h
    exact absurd h.length_le (by decide)
  · intro h
    exact absurd (h.all (List.pairwise_pair.mpr (Or.inr (by decide)))) (by decide)

def insertedBuilder : NewLinkSpecBuilder :=
  ⟨"abcdef".toList, [(⟨0, "a".toList⟩, []), (⟨0, []⟩, "x".toList)], 0⟩

theorem buildsRightly_iff_insertedBehind :
    (∀ sorted result, SortedByPos insertedBuilder.operations sorted →
        insertedBuilder.buildSorted sorted = .ok result →
          BuildsRightly "abcdef".toList sorted result) ↔
      (∀ sorted, SortedByPos insertedBuilder.operations sorted →
        sizeChange (applied 0 sorted) ≤ 0) ∧
        (insertedBuilder.operations.Pairwise (fun a b => Apart a.1 b.1) →
          ∀ a ∈ insertedBuilder.operations, ∀ b ∈ insertedBuilder.operations,
            a.1.text ≠ [] → b.1.text = [] → a.1.pos ≠ b.1.pos) :=
  @buildsRightly_iff "abcdef".toList insertedBehind insertedBuilder rfl ⟨"bcdef".toList, by decide⟩

end Mair.Compiler
