import Mair.UbsanTagging.Model

/-! # What the pass tags

The instructions of a check are those that feed its branch. They are reached forwards from the ones
that no other instruction of UBSan feeds, if there are such instructions. -/

namespace Mair.UbsanTagging

open DepthFirst Relation

variable {φ β ι : Type*} (m : Module φ β ι)

/-! ## The law and when it holds -/

/-- The step from a definition to a use between instructions with `nosanitize`. -/
def Module.Feed (i j : ι) : Prop :=
  i ∈ m.operands j ∧ j ∈ m.allInsts ∧ m.nosanitize i = true ∧ m.nosanitize j = true

def Module.Feeds : ι → ι → Prop := ReflTransGen m.Feed

/-- No instruction with `nosanitize` feeds it. -/
def Module.IsBoundary (i : ι) : Prop :=
  m.nosanitize i = true ∧ ∀ j ∈ m.operands i, m.nosanitize j = false

def Module.InFallbackBlock (i : ι) : Prop :=
  ∃ b ∈ m.allBlocks, m.isUbsanFallbackBlock b = true ∧ i ∈ m.insts b

/-- The instruction belongs to the check in front of a fallback block. -/
def Module.InCheck (i : ι) : Prop :=
  ∃ b ∈ m.allBlocks, m.isUbsanFallbackBlock b = true ∧
    ∃ br, m.checkBranch b = some br ∧ m.Feeds i br

structure Module.Covers (tags : List ι) : Prop where
  block : ∀ i, m.InFallbackBlock i → i ∈ tags
  check : ∀ i, m.InCheck i → i ∈ tags
  only : ∀ i ∈ tags, m.nosanitize i = true ∨ m.InFallbackBlock i

/-- The instructions of a check outside of fallback blocks are fed by boundary instructions. -/
def Module.Grounded : Prop :=
  ∀ i, m.InCheck i → m.InFallbackBlock i ∨ ∃ j, m.IsBoundary j ∧ m.Feeds j i

/-! ## Walks -/

section Walks

variable {m} {a b i j br : ι} {boundary tags order : List ι} {blk : β}

/-- The graph without the edges that leave an instruction without `nosanitize`. -/
def Module.gated (m : Module φ β ι) (succs : ι → List ι) (i : ι) : List ι :=
  if m.nosanitize i then succs i else []

theorem mem_gated_iff {succs : ι → List ι} :
    j ∈ m.gated succs i ↔ j ∈ succs i ∧ m.nosanitize i = true := by
  rw [Module.gated]
  split_ifs with hnosan
  · simp [hnosan]
  · simp [hnosan]

theorem reaches_gated_iff {succs : ι → List ι} :
    Reaches (m.gated succs) a b ∧ m.nosanitize b = true ↔
      m.nosanitize a = true ∧ ReflTransGen
        (fun u v => v ∈ succs u ∧ m.nosanitize u = true ∧ m.nosanitize v = true) a b := by
  constructor
  · rintro ⟨hreach, hb⟩
    induction hreach with
    | refl => exact ⟨hb, .refl⟩
    | tail _ hstep ih =>
        obtain ⟨hsucc, hu⟩ := mem_gated_iff.mp hstep
        obtain ⟨ha, hpath⟩ := ih hu
        exact ⟨ha, hpath.tail ⟨hsucc, hu, hb⟩⟩
  · rintro ⟨ha, hpath⟩
    induction hpath with
    | refl => exact ⟨.refl, ha⟩
    | tail _ hstep ih =>
        obtain ⟨hsucc, hu, hv⟩ := hstep
        exact ⟨ih.1.tail (mem_gated_iff.mpr ⟨hsucc, hu⟩), hv⟩

theorem mem_allInsts_iff : i ∈ m.allInsts ↔ ∃ b ∈ m.allBlocks, i ∈ m.insts b := by
  simp [Module.allInsts]

theorem mem_allBlocks_iff : blk ∈ m.allBlocks ↔ ∃ f ∈ m.functions, blk ∈ m.blocks f := by
  simp [Module.allBlocks]

theorem mem_allInsts_of_operand (hi : i ∈ m.allInsts) (hj : j ∈ m.operands i) :
    j ∈ m.allInsts := by
  obtain ⟨blk, hblk, hmem⟩ := mem_allInsts_iff.mp hi
  obtain ⟨f, hf, hfb⟩ := mem_allBlocks_iff.mp hblk
  obtain ⟨f', hf', b', hb', hj'⟩ := m.operand_mem f hf blk hfb i hmem j hj
  exact mem_allInsts_iff.mpr ⟨b', mem_allBlocks_iff.mpr ⟨f', hf', hb'⟩, hj'⟩

theorem feeds_mem_allInsts (hfeeds : m.Feeds i j) (hj : j ∈ m.allInsts) : i ∈ m.allInsts := by
  induction hfeeds using ReflTransGen.head_induction_on with
  | refl => exact hj
  | head hstep _ ih => exact mem_allInsts_of_operand ih hstep.1

/-- Backwards from an instruction of the module. -/
theorem feeds_iff_operands (hbr : br ∈ m.allInsts) : m.Feeds i br ↔
    ReflTransGen (fun u v => v ∈ m.operands u ∧ m.nosanitize u = true ∧ m.nosanitize v = true)
      br i := by
  constructor
  · intro hfeeds
    induction hfeeds using ReflTransGen.head_induction_on with
    | refl => exact .refl
    | head hstep _ ih => exact ih.tail ⟨hstep.1, hstep.2.2.2, hstep.2.2.1⟩
  · intro hpath
    induction hpath with
    | refl => exact .refl
    | tail _ hstep ih =>
        have hu := feeds_mem_allInsts ih hbr
        exact ReflTransGen.head ⟨hstep.1, hu, hstep.2.2, hstep.2.1⟩ ih

theorem length_gated_le (succs : ι → List ι) (i : ι) :
    (m.gated succs i).length ≤ (succs i).length := by
  rw [Module.gated]
  split_ifs
  · exact Nat.le_refl _
  · exact Nat.zero_le _

theorem collectBoundaryInst_snd : (m.collectBoundaryInst boundary i).2 = m.gated m.operands i := by
  rw [Module.collectBoundaryInst, Module.gated]
  cases m.nosanitize i with
  | false => rfl
  | true =>
      simp only [Bool.not_true, Bool.false_eq_true, if_false, if_true]
      split_ifs <;> rfl

theorem mem_collectBoundaryInst_iff :
    j ∈ (m.collectBoundaryInst boundary i).1 ↔ j ∈ boundary ∨ (j = i ∧ m.IsBoundary i) := by
  rw [Module.collectBoundaryInst, Module.IsBoundary]
  cases hnosan : m.nosanitize i with
  | false => simp
  | true =>
      simp only [Bool.not_true, Bool.false_eq_true, if_false, List.any_eq_true, true_and]
      split_ifs with hany
      · obtain ⟨k, hk, hknosan⟩ := hany
        simp only [iff_self_or, and_imp]
        intro _ hall
        rw [hall k hk] at hknosan
        cases hknosan
      · simp only [not_exists, not_and, Bool.not_eq_true] at hany
        simp only [List.mem_append, List.mem_singleton]
        tauto

theorem mem_foldl_collectBoundaryInst_iff :
    j ∈ order.foldl (fun acc i => (m.collectBoundaryInst acc i).1) boundary ↔
      j ∈ boundary ∨ (j ∈ order ∧ m.IsBoundary j) := by
  induction order generalizing boundary with
  | nil => simp
  | cons i order ih =>
      rw [List.foldl_cons, ih, mem_collectBoundaryInst_iff, List.mem_cons]
      constructor
      · rintro ((hj | ⟨rfl, hb⟩) | ⟨hj, hb⟩)
        · exact Or.inl hj
        · exact Or.inr ⟨Or.inl rfl, hb⟩
        · exact Or.inr ⟨Or.inr hj, hb⟩
      · rintro (hj | ⟨rfl | hj, hb⟩)
        · exact Or.inl (Or.inl hj)
        · exact Or.inl (Or.inr ⟨rfl, hb⟩)
        · exact Or.inr ⟨hj, hb⟩

variable [DecidableEq ι]

theorem mem_users_iff : j ∈ m.users i ↔ j ∈ m.allInsts ∧ i ∈ m.operands j := by
  simp only [Module.users, List.mem_flatMap, List.mem_map, List.mem_filter, decide_eq_true_eq]
  constructor
  · rintro ⟨u, hu, w, ⟨hw, rfl⟩, rfl⟩
    exact ⟨hu, hw⟩
  · rintro ⟨hj, hi⟩
    exact ⟨j, hj, i, ⟨hi, rfl⟩, rfl⟩

theorem feeds_iff_users : m.Feeds i j ↔ ReflTransGen
    (fun u v => v ∈ m.users u ∧ m.nosanitize u = true ∧ m.nosanitize v = true) i j := by
  have hstep : m.Feed =
      fun u v => v ∈ m.users u ∧ m.nosanitize u = true ∧ m.nosanitize v = true := by
    funext u v
    rw [Module.Feed, mem_users_iff, eq_iff_iff]
    tauto
  rw [Module.Feeds, hstep]

theorem mem_setTag_iff : i ∈ Module.setTag tags j ↔ i ∈ tags ∨ i = j := by
  rw [Module.setTag]
  split_ifs with hj
  · constructor
    · exact Or.inl
    · rintro (hi | rfl)
      · exact hi
      · exact hj
  · rw [List.mem_cons, or_comm]

theorem mem_foldl_setTag_iff {is : List ι} :
    i ∈ is.foldl Module.setTag tags ↔ i ∈ tags ∨ i ∈ is := by
  induction is generalizing tags with
  | nil => simp
  | cons j is ih =>
      rw [List.foldl_cons, ih, mem_setTag_iff, List.mem_cons]
      tauto

theorem walkOverUseDefChain_spec (hbr : br ∈ m.allInsts) (hnosan : m.nosanitize br = true) :
    ∃ boundary, m.walkOverUseDefChain br = some boundary ∧
      ∀ j, j ∈ boundary ↔ m.IsBoundary j ∧ m.Feeds j br := by
  obtain ⟨order, -, hmem, hwalk⟩ := @Walk.walkFrom_spec ι _ _ m.collectBoundaryInst
    (m.gated m.operands) m.operands m.allInsts [br] (fun _ _ => collectBoundaryInst_snd)
    (length_gated_le m.operands)
    (fun u hu v hv => mem_allInsts_of_operand hu (mem_gated_iff.mp hv).1)
    (fun i hi => by rwa [List.mem_singleton.mp hi]) []
  refine ⟨_, hwalk, ?_⟩
  intro j
  have hreach : (∃ s ∈ [br], Reaches (m.gated m.operands) s j) ↔
      Reaches (m.gated m.operands) br j := by simp
  have hgated := @reaches_gated_iff φ β ι m br j m.operands
  rw [← feeds_iff_operands hbr] at hgated
  rw [mem_foldl_collectBoundaryInst_iff, hmem, hreach]
  constructor
  · rintro (hj | ⟨hreach, hb⟩)
    · cases hj
    · exact ⟨hb, (hgated.mp ⟨hreach, hb.1⟩).2⟩
  · rintro ⟨hb, hfeeds⟩
    exact Or.inr ⟨(hgated.mpr ⟨hnosan, hfeeds⟩).1, hb⟩

theorem markUbsan_snd : (m.markUbsan tags i).2 = m.gated m.users i := by
  rw [Module.markUbsan, Module.gated]
  cases m.nosanitize i <;> rfl

theorem mem_foldl_markUbsan_iff :
    j ∈ order.foldl (fun acc i => (m.markUbsan acc i).1) tags ↔
      j ∈ tags ∨ (j ∈ order ∧ m.nosanitize j = true) := by
  induction order generalizing tags with
  | nil => simp
  | cons i order ih =>
      have hmark : j ∈ (m.markUbsan tags i).1 ↔ j ∈ tags ∨ (j = i ∧ m.nosanitize i = true) := by
        rw [Module.markUbsan]
        cases m.nosanitize i with
        | false => simp
        | true => simp [mem_setTag_iff]
      rw [List.foldl_cons, ih, hmark, List.mem_cons]
      constructor
      · rintro ((hj | ⟨rfl, hn⟩) | ⟨hj, hn⟩)
        · exact Or.inl hj
        · exact Or.inr ⟨Or.inl rfl, hn⟩
        · exact Or.inr ⟨Or.inr hj, hn⟩
      · rintro (hj | ⟨rfl | hj, hn⟩)
        · exact Or.inl (Or.inl hj)
        · exact Or.inl (Or.inr ⟨rfl, hn⟩)
        · exact Or.inr ⟨hj, hn⟩

theorem walkOverDefUseChain_spec (hboundary : ∀ i ∈ boundary, i ∈ m.allInsts) :
    ∃ tags', m.walkOverDefUseChain boundary tags = some tags' ∧
      ∀ j, j ∈ tags' ↔ j ∈ tags ∨ ∃ i ∈ boundary, m.nosanitize i = true ∧ m.Feeds i j := by
  obtain ⟨order, -, hmem, hwalk⟩ := @Walk.walkFrom_spec ι _ _ m.markUbsan
    (m.gated m.users) m.users m.allInsts boundary (fun _ _ => markUbsan_snd)
    (length_gated_le m.users)
    (fun u hu v hv => (mem_users_iff.mp (mem_gated_iff.mp hv).1).1) hboundary tags
  refine ⟨_, hwalk, ?_⟩
  intro j
  rw [mem_foldl_markUbsan_iff, hmem]
  apply or_congr Iff.rfl
  constructor
  · rintro ⟨⟨i, hi, hreach⟩, hn⟩
    obtain ⟨hni, hpath⟩ := reaches_gated_iff.mp ⟨hreach, hn⟩
    exact ⟨i, hi, hni, feeds_iff_users.mpr hpath⟩
  · rintro ⟨i, hi, hni, hfeeds⟩
    obtain ⟨hreach, hn⟩ := reaches_gated_iff.mpr ⟨hni, feeds_iff_users.mp hfeeds⟩
    exact ⟨⟨i, hi, hreach⟩, hn⟩

end Walks

/-! ## The pass -/

section Pass

variable {m} {i j br : ι} {tags : List ι} {b : β} {order : List β}

/-- What a visit of the block tags. -/
def Module.Tags (m : Module φ β ι) (b : β) (i : ι) : Prop :=
  m.isUbsanFallbackBlock b = true ∧
    (i ∈ m.insts b ∨ ∃ br, m.checkBranch b = some br ∧
      ∃ j, m.IsBoundary j ∧ m.Feeds j br ∧ m.Feeds j i)

theorem checkBranch_eq_some_iff : m.checkBranch b = some br ↔
    (∃ p, m.getSinglePredecessor b = some p ∧ m.getTerminator p = some br) ∧
      m.isBranch br = true ∧ m.nosanitize br = true := by
  simp [Module.checkBranch, Option.filter_eq_some_iff, Option.bind_eq_some_iff]

theorem getSinglePredecessor_eq_some_iff {p : β} :
    m.getSinglePredecessor b = some p ↔ m.predecessors b = [p] := by
  rw [Module.getSinglePredecessor]
  split
  · next q hq => simp [hq]
  · next hnot =>
      simp only [reduceCtorEq, false_iff]
      exact hnot p

theorem checkBranch_mem (hb : b ∈ m.allBlocks) (hbr : m.checkBranch b = some br) :
    br ∈ m.allInsts ∧ m.nosanitize br = true := by
  obtain ⟨⟨p, hp, hterm⟩, -, hnosan⟩ := checkBranch_eq_some_iff.mp hbr
  obtain ⟨f, hf, hbf⟩ := mem_allBlocks_iff.mp hb
  have hpred : p ∈ m.predecessors b := by
    rw [getSinglePredecessor_eq_some_iff.mp hp]
    exact List.mem_singleton_self p
  obtain ⟨f', hf', hpf⟩ := m.predecessor_mem f hf b hbf p hpred
  refine ⟨mem_allInsts_iff.mpr ⟨p, mem_allBlocks_iff.mpr ⟨f', hf', hpf⟩, ?_⟩, hnosan⟩
  exact List.mem_of_getLast? hterm

theorem feeds_nosanitize (hfeeds : m.Feeds i j) (hi : m.nosanitize i = true) :
    m.nosanitize j = true := by
  induction hfeeds with
  | refl => exact hi
  | tail _ hstep _ => exact hstep.2.2.2

/-- A fallback block calls a function of UBSan, so the pass does not skip the module. -/
theorem any_isUbsanFunction (hfallback : m.isUbsanFallbackBlock b = true) :
    m.functions.any m.isUbsanFunction = true := by
  rw [Module.isUbsanFallbackBlock] at hfallback
  split_ifs at hfallback
  obtain ⟨i, -, hcall⟩ := List.any_eq_true.mp hfallback
  rw [Module.isUbsanReportCall, Module.isUbsanInterfaceCall, Bool.and_eq_true,
    Bool.and_eq_true] at hcall
  obtain ⟨⟨-, hubsan⟩, -⟩ := hcall
  obtain ⟨f, hf, hname⟩ := (Option.any_eq_true _ _).mp hubsan
  exact List.any_eq_true.mpr ⟨f, m.called_mem i f hf, hname⟩

/-- Everything that is tagged outside of fallback blocks carries `nosanitize`. -/
theorem Module.Tags.only (htags : m.Tags b i) (hb : b ∈ m.allBlocks) :
    m.nosanitize i = true ∨ m.InFallbackBlock i := by
  obtain ⟨hfallback, hi | ⟨br, -, j, hbound, -, hji⟩⟩ := htags
  · exact Or.inr ⟨b, hb, hfallback, hi⟩
  · exact Or.inl (feeds_nosanitize hji hbound.1)

variable [DecidableEq ι]

theorem visitBlock_spec (hb : b ∈ m.allBlocks) (tags : List ι) :
    ∃ tags', m.visitBlock tags b = some tags' ∧ ∀ i, i ∈ tags' ↔ i ∈ tags ∨ m.Tags b i := by
  rw [Module.visitBlock]
  simp only [Module.Tags]
  cases hfallback : m.isUbsanFallbackBlock b with
  | false => exact ⟨tags, rfl, by simp⟩
  | true =>
      simp only [Bool.not_true, Bool.false_eq_true, if_false, true_and]
      cases hbr : m.checkBranch b with
      | none => exact ⟨_, rfl, by simp [mem_foldl_setTag_iff]⟩
      | some br =>
          obtain ⟨hmem, hnosan⟩ := checkBranch_mem hb hbr
          obtain ⟨boundary, hback, hboundary⟩ := walkOverUseDefChain_spec hmem hnosan
          obtain ⟨tags', hforward, htags⟩ := walkOverDefUseChain_spec
            (fun j hj => feeds_mem_allInsts ((hboundary j).mp hj).2 hmem)
          refine ⟨tags', ?_, ?_⟩
          · simp only [hback, Option.bind_some]
            exact hforward
          · intro i
            rw [htags, mem_foldl_setTag_iff, or_assoc]
            refine or_congr Iff.rfl (or_congr Iff.rfl ?_)
            constructor
            · rintro ⟨j, hj, -, hji⟩
              obtain ⟨hbound, hjbr⟩ := (hboundary j).mp hj
              exact ⟨br, rfl, j, hbound, hjbr, hji⟩
            · rintro ⟨br', hbr', j, hbound, hjbr, hji⟩
              cases hbr'
              exact ⟨j, (hboundary j).mpr ⟨hbound, hjbr⟩, hbound.1, hji⟩

theorem foldlM_visitBlock_spec (horder : ∀ b ∈ order, b ∈ m.allBlocks) (tags : List ι) :
    ∃ tags', order.foldlM m.visitBlock tags = some tags' ∧
      ∀ i, i ∈ tags' ↔ i ∈ tags ∨ ∃ b ∈ order, m.Tags b i := by
  induction order generalizing tags with
  | nil => exact ⟨tags, rfl, by simp⟩
  | cons b order ih =>
      obtain ⟨tags₁, hvisit, htags₁⟩ := visitBlock_spec (horder b List.mem_cons_self) tags
      obtain ⟨tags₂, hrest, htags₂⟩ := ih (fun c hc => horder c (List.mem_cons_of_mem b hc)) tags₁
      refine ⟨tags₂, ?_, ?_⟩
      · rw [List.foldlM_cons, hvisit]
        exact hrest
      · intro i
        rw [htags₂, htags₁]
        simp only [List.mem_cons, exists_eq_or_imp, or_assoc]

/-- The pass ends, and tags what the visits of the blocks tag. -/
theorem run_spec (horder : ∀ b ∈ order, b ∈ m.allBlocks) :
    ∃ tags, m.run order = some tags ∧ ∀ i, i ∈ tags ↔ ∃ b ∈ order, m.Tags b i := by
  rw [Module.run]
  cases hany : m.functions.any m.isUbsanFunction with
  | false =>
      refine ⟨[], rfl, ?_⟩
      intro i
      simp only [List.not_mem_nil, false_iff, not_exists, not_and]
      intro b _ htags
      rw [any_isUbsanFunction htags.1] at hany
      cases hany
  | true =>
      obtain ⟨tags, hrun, htags⟩ := foldlM_visitBlock_spec horder []
      refine ⟨tags, hrun, ?_⟩
      intro i
      rw [htags]
      simp

/-! ## Exactness -/

/-- In every order of the blocks the pass ends with the same tags, and these cover the checks. -/
def Module.Exact (m : Module φ β ι) : Prop :=
  ∃ tags, m.Covers tags ∧ ∀ order, order.Perm m.allBlocks →
    ∃ tags', m.run order = some tags' ∧ ∀ i, i ∈ tags' ↔ i ∈ tags

/-- The tags cover every check and do not depend on the order of the blocks, if and only if the
instructions of each check are fed by boundary instructions. -/
theorem exact_iff_grounded (m : Module φ β ι) : m.Exact ↔ m.Grounded := by
  constructor
  · rintro ⟨tags, hcovers, hrun⟩ i hcheck
    obtain ⟨tags', hrun', hsame⟩ := hrun m.allBlocks (List.Perm.refl _)
    obtain ⟨tags'', hrun'', htags⟩ := @run_spec φ β ι m m.allBlocks _ fun b hb => hb
    rw [hrun', Option.some.injEq] at hrun''
    obtain ⟨b, hb, hfallback, htag⟩ := (htags i).mp
      (hrun'' ▸ (hsame i).mpr (hcovers.check i hcheck))
    rcases htag with hi | ⟨br, -, j, hbound, -, hji⟩
    · exact Or.inl ⟨b, hb, hfallback, hi⟩
    · exact Or.inr ⟨j, hbound, hji⟩
  · intro hgrounded
    obtain ⟨tags, hrun, htags⟩ := @run_spec φ β ι m m.allBlocks _ fun b hb => hb
    refine ⟨tags, ⟨?_, ?_, ?_⟩, ?_⟩
    · rintro i ⟨b, hb, hfallback, hi⟩
      exact (htags i).mpr ⟨b, hb, hfallback, Or.inl hi⟩
    · intro i hcheck
      rcases hgrounded i hcheck with ⟨b, hb, hfallback, hi⟩ | ⟨j, hbound, hji⟩
      · exact (htags i).mpr ⟨b, hb, hfallback, Or.inl hi⟩
      · obtain ⟨b, hb, hfallback, br, hbr, hibr⟩ := hcheck
        exact (htags i).mpr ⟨b, hb, hfallback, Or.inr ⟨br, hbr, j, hbound, hji.trans hibr, hji⟩⟩
    · intro i hi
      obtain ⟨b, hb, htag⟩ := (htags i).mp hi
      exact htag.only hb
    · intro order hperm
      obtain ⟨tags', hrun', htags'⟩ := @run_spec φ β ι m order _ fun b hb => hperm.mem_iff.mp hb
      refine ⟨tags', hrun', ?_⟩
      intro i
      rw [htags, htags']
      simp only [hperm.mem_iff]

end Pass

/-! ## A check in a loop -/

/-- A branch on a value that depends on itself around a loop: 0 is a PHI of 1, which uses 0, and the
branch 2 uses 1. The block 1 with the report 3 and the terminator 4 is the fallback block. -/
def loopModule : Module Bool ℕ ℕ where
  functions := [false, true]
  name f := (if f then "__ubsan_handle_add_overflow" else "main").toList
  blocks f := if f then [] else [0, 1]
  insts b := if b = 0 then [0, 1, 2] else [3, 4]
  predecessors _ := [0]
  nosanitize _ := true
  isBranch i := i = 2 || i = 4
  calledFunction i := if i = 3 then some true else none
  operands i := if i = 0 then [1] else if i = 1 then [0] else if i = 2 then [1] else []
  called_mem i f _ := by cases f <;> simp
  predecessor_mem f _ b _ p hp := ⟨false, by simp, by simp [List.mem_singleton.mp hp]⟩
  operand_mem f _ b _ i _ j hj := by
    refine ⟨false, by simp, 0, by simp, ?_⟩
    split_ifs at hj <;> simp_all

/-- Nothing of the check is tagged, and its branch is not either. -/
theorem loopModule_untagged : loopModule.run [0, 1] = some [4, 3] ∧ ¬loopModule.Exact := by
  have hrun : loopModule.run [0, 1] = some [4, 3] := by decide
  refine ⟨hrun, ?_⟩
  rintro ⟨tags, hcovers, horder⟩
  obtain ⟨tags', hrun', hsame⟩ := horder [0, 1] (List.Perm.refl _)
  rw [hrun, Option.some.injEq] at hrun'
  have hbranch := hcovers.check 2 ⟨1, by decide, by decide, 2, rfl, .refl⟩
  rw [← hsame, ← hrun'] at hbranch
  exact absurd hbranch (by decide)

end Mair.UbsanTagging
