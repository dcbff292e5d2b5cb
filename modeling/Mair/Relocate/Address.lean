import Mair.Relocate.Places

/-! # The address of a relocated check

A relocated check is right when its address, or what its copy of the address is computed from, is
available where it stands, and the address is invariant in all loops that the check left. -/

namespace Mair.Relocate

open Ir LoopCheck

variable {β Λ : Type*} {f : Function β}

/-! ## Right places -/

/-- Whoever comes by the place has executed the instruction. -/
def Available (f : Function β) (g : Cfg β Λ) (inst : Instruction) (insertPt : InsertPt β) : Prop :=
  ∀ p, Path g.graph.succs (.old f.entry) p insertPt.block →
    some inst ∈ g.graph.trace p ++ (g.graph.labels insertPt.block).take
      ((g.graph.labels insertPt.block).length - insertPt.behind)

def Outside (a : Analyses f Λ) (l : Λ) : Value → Prop
  | .inst inst => ¬DefinedIn a l inst
  | .other => True

/-- The value depends on the operands alone. -/
def isPure (inst : Instruction) : Bool :=
  match inst.opcode with
  | .bitCast => true
  | .getElementPtr => true
  | .select => true
  | .addrSpaceCast => true
  | .other => true
  | .call callBase => !callBase.mayRead && !callBase.mayWrite
  | _ => false

/-- An instruction of a loop that computes one value, from operands outside the loop and from
memory that no store of the loop writes. The loops have no other writes. -/
structure Recomputable (a : Analyses f Λ) (l : Λ) (inst : Instruction) : Prop where
  operands : ∀ o ∈ a.operands inst, Outside a l o
  value : isPure inst = true ∨ (inst.isLoad = true ∧ inst.isVolatile = false ∧
    inst.isAtomic = false ∧ ∀ store, DefinedIn a l store → store.isStore = true →
      a.noAlias inst store = true)

def InvariantIn (a : Analyses f Λ) (l : Λ) : Value → Prop
  | .inst inst => DefinedIn a l inst → Recomputable a l inst
  | .other => True

/-- The loops around an access, innermost first. -/
def LoopMop.loops (a : Analyses f Λ) (mop : LoopMop Λ) : List Λ :=
  mop.loop :: a.parentLoops mop.loop

structure Relocated.Right (a : Analyses f Λ) (r : Relocated β Λ) : Prop where
  available : ∀ inst, r.mop.address = .inst inst →
    if r.cloned then ∀ op, .inst op ∈ a.operands inst → Available f r.cfg op r.insertPt
    else Available f r.cfg inst r.insertPt
  invariant : ∀ l ∈ r.mop.loops a, r.cfg.inLoop l r.insertPt.block = false →
    InvariantIn a l r.mop.address

/-! ## What the compiler guarantees -/

/-- The analyses are right: definitions dominate their uses, and the dominator tree is that of the
edited function. -/
structure Analyses.Sound (a : Analyses f Λ) : Prop where
  loops : a.NaturalLoops
  getLoopFor : ∀ b l, a.getLoopFor b = some l → a.inLoop l b = true
  def_dominates : ∀ b before inst after, f.insts b = before ++ inst :: after →
    inst.opcode ≠ .phi → ∀ op, .inst op ∈ a.operands inst →
      ∀ q, f.PathFrom f.entry q b → op ∈ f.graph.trace q ++ before
  dominates_iff : ∀ g origin inst insertPt, g.Refines f a.inLoop origin →
    (a.dominates g inst insertPt = true ↔ Available f g inst insertPt)

/-- The access was collected in the innermost loop around its block. -/
structure LoopMop.Collected (a : Analyses f Λ) (mop : LoopMop Λ) : Prop where
  block : ∃ b, mop.inst ∈ f.insts b ∧ a.getLoopFor b = some mop.loop
  opcode : mop.inst.opcode ≠ .phi
  address : mop.address ∈ a.operands mop.inst

/-! ## When the place is right -/

section Condition

variable [DecidableEq β]

/-- The pass's test with its UBSan cases, without the addresses of the loop that are allocated or
come from a call that touches memory. -/
def keepsAddress (a : Analyses f Λ) (g : Cfg β Λ) (l : Λ) (v : Value) : Bool :=
  isLoopInvariant { a with ubsanExists := true } g l v &&
    match v with
    | .inst inst => isInvariantOperand g l v || isPure inst || inst.isLoad
    | .other => true

/-- The loops that the pass may leave for the check. -/
def LoopMop.steadyLoops (a : Analyses f Λ) (g : Cfg β Λ) (mop : LoopMop Λ) : List Λ :=
  mop.loop :: (a.parentLoops mop.loop).takeWhile fun l =>
    isLoopInvariant a g l mop.address && a.isSimpleLoop l

/-- The test is passed for the loops that a place used again lies outside of, and for a new place
for the loops that the pass may leave. -/
def StablePlace (a : Analyses f Λ) (s : State β Λ) (mop : LoopMop Λ) : Prop :=
  isLoopInvariant a s.cfg mop.loop mop.address = true →
    match (s.cfg.getParent mop.inst).bind s.reused with
    | some insertPt => ∀ l ∈ mop.loops a, s.cfg.inLoop l insertPt.block = false →
        keepsAddress a s.cfg l mop.address = true
    | none => ∀ l ∈ mop.steadyLoops a s.cfg, keepsAddress a s.cfg l mop.address = true

end Condition

section Invariance

variable {a : Analyses f Λ} {g : Cfg β Λ} {origin : Node β → β} {l p : Λ} {inst : Instruction}
  {v : Value}

theorem isInvariantOperand_iff (h : Tracks a g origin) :
    isInvariantOperand g l v = true ↔ Outside a l v := by
  cases v with
  | other => simp [isInvariantOperand, Outside]
  | inst inst =>
      rw [isInvariantOperand, Bool.not_eq_true', Outside, ← h.definedIn_iff, Bool.not_eq_true]

theorem all_isInvariantOperand_iff (h : Tracks a g origin) :
    (a.operands inst).all (isInvariantOperand g l) = true ↔
      ∀ o ∈ a.operands inst, Outside a l o := by
  rw [List.all_eq_true]
  exact forall₂_congr fun o _ => isInvariantOperand_iff h

theorem mem_getStoresInLoop_iff (h : Tracks a g origin) :
    inst ∈ getStoresInLoop g l ↔ DefinedIn a l inst ∧ inst.isStore = true := by
  rw [getStoresInLoop, List.mem_flatMap]
  obtain ⟨done, hsub⟩ := h.refines.subdivides
  constructor
  · intro hmem
    obtain ⟨c, hc, hinst⟩ := hmem
    rw [List.mem_filter] at hc hinst
    exact ⟨⟨origin c, hsub.own_subset hc.1 hinst.1, h.refines.inLoop l c hc.1 hc.2⟩, hinst.2⟩
  · intro hmem
    obtain ⟨⟨b, hb, hin⟩, hstore⟩ := hmem
    obtain ⟨c, hc, hown⟩ := h.placed b inst hb
    rw [f.parent _ _ inst hb (hsub.own_subset hc hown)] at hin
    exact ⟨c, List.mem_filter.mpr ⟨hc, h.inLoop_own l c hc inst hown hin⟩,
      List.mem_filter.mpr ⟨hown, hstore⟩⟩

theorem isLoadLoopInvariant_iff (h : Tracks a g origin) :
    isLoadLoopInvariant a g l inst = true ↔
      inst.isVolatile = false ∧ inst.isAtomic = false ∧ (∀ o ∈ a.operands inst, Outside a l o) ∧
        ∀ store, DefinedIn a l store → store.isStore = true → a.noAlias inst store = true := by
  rw [isLoadLoopInvariant, ← all_isInvariantOperand_iff h]
  have hstores : (getStoresInLoop g l).all (a.noAlias inst) = true ↔
      ∀ store, DefinedIn a l store → store.isStore = true → a.noAlias inst store = true := by
    rw [List.all_eq_true]
    refine forall_congr' fun store => ?_
    rw [mem_getStoresInLoop_iff h, and_imp]
  rw [← hstores]
  cases inst.isVolatile <;> cases inst.isAtomic <;>
    cases (a.operands inst).all (isInvariantOperand g l) <;> simp

theorem isLoopInvariant_iff (h : Tracks a g origin)
    (hin : isInvariantOperand g l (.inst inst) = false) :
    isLoopInvariant { a with ubsanExists := true } g l (.inst inst) = true ↔
      inst.opcode ≠ .phi ∧ (∀ o ∈ a.operands inst, Outside a l o) ∧
        (inst.isLoad = true → isLoadLoopInvariant a g l inst = true) := by
  have hload : isLoadLoopInvariant { a with ubsanExists := true } g l inst =
      isLoadLoopInvariant a g l inst := rfl
  rw [isLoopInvariant, ← all_isInvariantOperand_iff h]
  simp only [hin, Bool.not_true, Bool.or_false, Bool.false_eq_true, if_false, hload]
  by_cases hphi : inst.opcode = .phi
  · simp [hphi]
  · cases (a.operands inst).all (isInvariantOperand g l) <;> cases inst.isLoad <;> simp [hphi]

theorem opcode_ne_phi (h : isPure inst = true ∨ inst.isLoad = true) : inst.opcode ≠ .phi := by
  intro heq
  rw [isPure, Instruction.isLoad, heq] at h
  simp at h

theorem isLoad_eq_false_of_isPure (h : isPure inst = true) : inst.isLoad = false := by
  rw [isPure] at h
  rw [Instruction.isLoad]
  cases hop : inst.opcode <;> simp_all

/-- The condition says that the address is invariant. -/
theorem keepsAddress_iff (h : Tracks a g origin) :
    keepsAddress a g l v = true ↔ InvariantIn a l v := by
  cases v with
  | other => simp [keepsAddress, isLoopInvariant, isInvariantOperand, InvariantIn]
  | inst inst =>
      rw [keepsAddress, InvariantIn]
      cases hin : isInvariantOperand g l (.inst inst) with
      | true =>
          have hout := (isInvariantOperand_iff h).mp hin
          rw [Outside] at hout
          simp [isLoopInvariant, hin, hout]
      | false =>
          have hdef : DefinedIn a l inst := by
            rw [← Bool.not_eq_true, isInvariantOperand_iff h, Outside, not_not] at hin
            exact hin
          rw [Bool.and_eq_true, isLoopInvariant_iff h hin, Bool.false_or, Bool.or_eq_true,
            isLoadLoopInvariant_iff h]
          constructor
          · intro hkeeps _
            obtain ⟨⟨-, hops, hload⟩, hkind⟩ := hkeeps
            refine ⟨hops, ?_⟩
            rcases hkind with hpure | hisLoad
            · exact Or.inl hpure
            · obtain ⟨hvol, hatomic, -, hstores⟩ := hload hisLoad
              exact Or.inr ⟨hisLoad, hvol, hatomic, hstores⟩
          · intro hinv
            obtain ⟨hops, hvalue⟩ := hinv hdef
            rcases hvalue with hpure | ⟨hisLoad, hvol, hatomic, hstores⟩
            · have hnot : inst.isLoad = false := isLoad_eq_false_of_isPure hpure
              refine ⟨⟨opcode_ne_phi (Or.inl hpure), hops, ?_⟩, Or.inl hpure⟩
              intro hisLoad
              rw [hnot] at hisLoad
              cases hisLoad
            · exact ⟨⟨opcode_ne_phi (Or.inr hisLoad), hops, fun _ => ⟨hvol, hatomic, hops, hstores⟩⟩,
                Or.inr hisLoad⟩

/-- An address that is invariant in a loop is so in the loops of it. -/
theorem InvariantIn.of_encloses (h : InvariantIn a p v) (hp : a.Encloses p l) :
    InvariantIn a l v := by
  have hdef : ∀ inst, DefinedIn a l inst → DefinedIn a p inst := by
    intro inst hinst
    obtain ⟨b, hb, hin⟩ := hinst
    exact ⟨b, hb, hp.subset b hin⟩
  cases v with
  | other => exact trivial
  | inst inst =>
      intro hinst
      obtain ⟨hops, hvalue⟩ := h (hdef inst hinst)
      constructor
      · intro o ho
        cases o with
        | other => exact trivial
        | inst op => exact mt (hdef op) (hops _ ho)
      · rcases hvalue with hpure | ⟨hload, hvol, hatomic, hstores⟩
        · exact Or.inl hpure
        · exact Or.inr ⟨hload, hvol, hatomic, fun store hstore => hstores store (hdef store hstore)⟩

end Invariance

/-! ## What is available at a place -/

section Available

variable {a : Analyses f Λ} {g : Cfg β Λ} {origin : Node β → β} {l T : Λ} {b : β}
  {inst op : Instruction} {before after : List Instruction} {insertPt : InsertPt β}
  {mop : LoopMop Λ}

/-- What dominates an instruction of the loop, and does not belong to the loop, is executed before
the header. -/
theorem mem_trace_header (ha : a.NaturalLoops) (hinst : f.insts b = before ++ inst :: after)
    (hin : a.inLoop l b = true) (hout : ¬DefinedIn a l op)
    (hdom : ∀ q, f.PathFrom f.entry q b → op ∈ f.graph.trace q ++ before) {q : List β}
    (hq : f.PathFrom f.entry q (a.header l)) : op ∈ f.graph.trace q := by
  obtain ⟨p, hp⟩ := ha.reachable l b hin
  obtain ⟨y, c, r, hyc, hy, hc, hr, hrin⟩ := hp.exists_last_in (s := {x | a.inLoop l x = true})
    (by simp [ha.entry_notMem l]) hin
  have hy : a.inLoop l y = false := Bool.eq_false_of_not_eq_true hy
  obtain rfl := ha.header_of_enter l y c hyc hy hc
  have hmem := hdom (q ++ r) (hq.append hr)
  rw [Graph.trace, List.flatMap_append, List.mem_append, List.mem_append] at hmem
  rcases hmem with (hmem | hmem) | hmem
  · exact hmem
  · obtain ⟨x, hx, hop⟩ := List.mem_flatMap.mp hmem
    exact absurd ⟨x, hop, hrin x hx⟩ hout
  · refine absurd ⟨b, ?_, hin⟩ hout
    rw [hinst]
    exact List.mem_append_left _ hmem

/-- So it is available at the places of the loop. -/
theorem available_of_use (ha : a.Sound) (h : Tracks a g origin) (hpt : PlacedFor a g l insertPt)
    (huse : DefinedIn a l inst) (hphi : inst.opcode ≠ .phi) (hop : .inst op ∈ a.operands inst)
    (hout : ¬DefinedIn a l op) : Available f g op insertPt := by
  intro p hp
  obtain ⟨b, hinst, hin⟩ := huse
  obtain ⟨before, after, hsplit⟩ := List.append_of_mem hinst
  obtain ⟨insts, ⟨q, hq, hsub⟩, hmem⟩ := passed_of_isPlace ha.loops h hpt.place hp
  apply hmem
  apply hsub
  exact mem_trace_header ha.loops hsplit hin hout
    (ha.def_dominates b before inst after hsplit hphi op hop) hq

theorem LoopMop.Collected.definedIn (ha : a.Sound) (hmop : mop.Collected a) (hT : T ∈ mop.loops a) :
    DefinedIn a T mop.inst := by
  obtain ⟨b, hinst, hloop⟩ := hmop.block
  have hin := ha.getLoopFor b mop.loop hloop
  rcases List.mem_cons.mp hT with rfl | hT
  · exact ⟨b, hinst, hin⟩
  · exact ⟨b, hinst, (List.rel_of_pairwise_cons (ha.loops.chain mop.loop) hT).subset b hin⟩

/-- Of two loops around an access one encloses the other. -/
theorem eq_or_encloses (ha : a.NaturalLoops) (hl : l ∈ mop.loops a) (hT : T ∈ mop.loops a) :
    l = T ∨ a.Encloses T l ∨ a.Encloses l T := by
  let R := fun x y => x = y ∨ a.Encloses y x ∨ a.Encloses x y
  have hinner : (mop.loops a).Pairwise R := (ha.chain mop.loop).imp fun h => Or.inr (Or.inl h)
  have houter : (mop.loops a).Pairwise (flip R) :=
    (ha.chain mop.loop).imp fun h => Or.inr (Or.inr h)
  have hrefl : ∀ x ∈ mop.loops a, R x x := fun _ _ => Or.inl rfl
  exact List.Pairwise.forall_of_forall_of_flip hrefl hinner houter hl hT

/-- An address that is invariant in the loop of a place is so in all loops that the check left. -/
theorem invariantIn_outside {v : Value} (ha : a.NaturalLoops) (hT : T ∈ mop.loops a)
    (hpt : PlacedFor a g T insertPt) (hinv : InvariantIn a T v) :
    ∀ l ∈ mop.loops a, g.inLoop l insertPt.block = false → InvariantIn a l v := by
  intro l hl hout
  rcases eq_or_encloses ha hl hT with rfl | henc | henc
  · exact hinv
  · exact hinv.of_encloses henc
  · have haround := hpt.around l henc
    rw [hout] at haround
    cases haround

/-- A place of one of the loops is right if and only if the address is invariant there. -/
theorem right_iff_invariantIn [DecidableEq β] (ha : a.Sound) (h : Tracks a g origin)
    (hmop : mop.Collected a) (hT : T ∈ mop.loops a) (hpt : PlacedFor a g T insertPt) (topL : Λ) :
    (⟨mop, topL, g, insertPt, isCloned a g insertPt mop.address⟩ : Relocated β Λ).Right a ↔
      InvariantIn a T mop.address := by
  constructor
  · intro hright
    exact hright.invariant T hT hpt.outside
  · intro hinv
    constructor
    · intro inst haddress
      have hmem := hmop.address
      rw [haddress] at hinv hmem
      have hcloned : isCloned a g insertPt mop.address = !a.dominates g inst insertPt := by
        rw [haddress, isCloned]
      have havailable : ¬DefinedIn a T inst → Available f g inst insertPt :=
        available_of_use ha h hpt (hmop.definedIn ha hT) hmop.opcode hmem
      cases hdom : a.dominates g inst insertPt with
      | true =>
          have hthere := (ha.dominates_iff g origin inst insertPt h.refines).mp hdom
          simpa only [hcloned, hdom, Bool.not_true, Bool.false_eq_true, if_false] using hthere
      | false =>
          have hnot : ¬Available f g inst insertPt := by
            rw [← ha.dominates_iff g origin inst insertPt h.refines, hdom]
            exact Bool.false_ne_true
          have hdef : DefinedIn a T inst := by
            by_contra hout
            exact hnot (havailable hout)
          obtain ⟨hops, hvalue⟩ := hinv hdef
          have hphi := opcode_ne_phi (hvalue.imp_right And.left)
          have hclone : ∀ op, .inst op ∈ a.operands inst → Available f g op insertPt :=
            fun op hop => available_of_use ha h hpt hdef hphi hop (hops _ hop)
          simpa only [hcloned, hdom, Bool.not_false, if_true] using hclone
    · exact invariantIn_outside ha.loops hT hpt hinv

end Available

end Mair.Relocate
