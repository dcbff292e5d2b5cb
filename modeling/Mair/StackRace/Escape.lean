import Mathlib.Data.Set.Card
import Mair.StackRace.Strategies
import Mair.StackRace.UseChains

/-! # Accesses that a thread may race with

What the walk over the use chains collects, the three ways in which a call can obtain the
address of a stack object, and the accesses whose check the filter keeps. -/

namespace Mair.StackRace

open Ir Worklist

/-! ## One round of the walk -/

section Round

variable {β : Type*} {f : Function β} {d : DefUse f} {u : Use f} {v : Value}

/-- The uses of the result are added to the worklist. -/
def propagates (d : DefUse f) (s : Site f) : Bool :=
  !s.inst.nosanitize &&
    match s.inst.opcode with
    | .call _ => (d.callFacts s).returnsAliasOfArgument
    | .atomicRMW _ => true
    | .atomicCmpXchg _ _ => true
    | .bitCast => true
    | .getElementPtr => true
    | .phi => true
    | .select => true
    | .addrSpaceCast => true
    | _ => false

def isCandidateUse (d : DefUse f) (u : Use f) : Bool :=
  !u.user.inst.nosanitize &&
    match u.user.inst.opcode with
    | .call _ => !u.isCallee d && u.operandNo ≠ 0
    | .store .. => u.operandNo ≠ 0
    | .load .. => true
    | _ => false

def isSpawnUse (d : DefUse f) (u : Use f) : Bool :=
  !u.user.inst.nosanitize &&
    match u.user.inst.opcode with
    | .call callBase => maySpawnThread d callBase u false
    | _ => false

def addedUses (d : DefUse f) (u : Use f) : List (Use f) :=
  if propagates d u.user then d.uses (.inst u.user.inst) else []

theorem visitUse_eq (acc : Chains f) (u : Use f) :
    visitUse d acc u =
      (⟨acc.candidateMops ++ if isCandidateUse d u then [u.user] else [],
        acc.mightSpawns ++ if isSpawnUse d u then [u.user] else []⟩, addedUses d u) := by
  unfold visitUse addedUses propagates isCandidateUse isSpawnUse
  cases hsan : u.user.inst.nosanitize with
  | true => simp [hsan]
  | false =>
      cases hopcode : u.user.inst.opcode with
      | call callBase =>
          cases hspawn : maySpawnThread d callBase u false <;> cases u.isCallee d <;>
            by_cases hno : u.operandNo = 0 <;>
            simp [hsan, hopcode, hspawn, hno, Chains.addMop, Chains.addSpawn]
      | store => by_cases hno : u.operandNo = 0 <;> simp [hsan, hopcode, hno, Chains.addMop]
      | _ => simp [hsan, hopcode, Chains.addMop]

theorem foldl_visitUse (order : List (Use f)) :
    order.foldl (fun acc u => (visitUse d acc u).1) ⟨[], []⟩ =
      ⟨(order.filter (isCandidateUse d)).map Use.user,
        (order.filter (isSpawnUse d)).map Use.user⟩ := by
  induction order using List.reverseRecOn with
  | nil => rfl
  | append_singleton order u ih =>
      rw [List.foldl_append, ih, List.foldl_cons, List.foldl_nil, visitUse_eq]
      cases hc : isCandidateUse d u <;> cases hs : isSpawnUse d u <;> simp [hc, hs]

theorem mem_blockSites (s : Site f) : s ∈ blockSites f s.block :=
  List.mem_map.mpr ⟨⟨s.inst, s.mem⟩, List.mem_attach _ _, rfl⟩

theorem mem_sites (s : Site f) : s ∈ sites f :=
  List.mem_flatMap.mpr ⟨s.block, f.complete _, mem_blockSites s⟩

theorem mem_uses_iff : u ∈ d.uses v ↔ (d.operands u.user)[u.operandNo]? = some v := by
  simp only [DefUse.uses, List.mem_filter, decide_eq_true_eq, and_iff_right_iff_imp]
  intro h
  obtain ⟨hlt, -⟩ := List.getElem?_eq_some_iff.mp h
  exact List.mem_flatMap.mpr ⟨u.user, mem_sites _,
    List.mem_map.mpr ⟨u.operandNo, List.mem_range.mpr hlt, rfl⟩⟩

theorem mem_allUses_of_mem_uses (h : u ∈ d.uses v) : u ∈ d.allUses := List.mem_of_mem_filter h

end Round

/-! ## The whole walk -/

section Walk

variable {β : Type*} {f : Function β} {d : DefUse f} {alloc s : Site f} {u : Use f}
  {a v : Value}

/-- The values whose uses the walk visits. -/
inductive Followed (d : DefUse f) (a : Value) : Value → Prop where
  | base : Followed d a a
  | step {v : Value} {u : Use f} : Followed d a v → u ∈ d.uses v →
      propagates d u.user = true → Followed d a (.inst u.user.inst)

def FollowedUse (d : DefUse f) (a : Value) (u : Use f) : Prop :=
  ∃ v, Followed d a v ∧ u ∈ d.uses v

theorem Followed.reached (h : Followed d a v) (hu : u ∈ d.uses v) :
    ReachedFrom (addedUses d) (d.uses a) u := by
  induction h generalizing u with
  | base => exact ⟨u, hu, .refl⟩
  | step _ hw hprop ih =>
      obtain ⟨first, hfirst, hreach⟩ := ih hw
      refine ⟨first, hfirst, hreach.tail ?_⟩
      rwa [addedUses, if_pos hprop]

theorem reachedFrom_iff : ReachedFrom (addedUses d) (d.uses a) u ↔ FollowedUse d a u := by
  constructor
  · rintro ⟨first, hfirst, hreach⟩
    induction hreach with
    | refl => exact ⟨a, .base, hfirst⟩
    | tail _ hadded ih =>
        obtain ⟨v, hv, hw⟩ := ih
        unfold addedUses at hadded
        split at hadded
        · next hprop => exact ⟨_, hv.step hw hprop, hadded⟩
        · cases hadded
  · rintro ⟨v, hv, hu⟩
    exact hv.reached hu

variable [DecidableEq β]

/-- The walk ends, and it visits each followed use once. -/
theorem walk_spec (d : DefUse f) (alloc : Site f) : ∃ order : List (Use f), order.Nodup ∧
    (∀ u, u ∈ order ↔ FollowedUse d (.inst alloc.inst) u) ∧
    walkOverAllocaDefUseChains d alloc =
      some ⟨(order.filter (isCandidateUse d)).map Use.user,
        (order.filter (isSpawnUse d)).map Use.user⟩ := by
  have hstep : ∀ acc u, (visitUse d acc u).2 = addedUses d u := fun acc u => by
    rw [visitUse_eq]
  have hitems : ∀ u, ReachedFrom (addedUses d) (d.uses (.inst alloc.inst)) u →
      u ∈ d.allUses := by
    intro u hu
    obtain ⟨v, -, hu⟩ := reachedFrom_iff.mp hu
    exact mem_allUses_of_mem_uses hu
  obtain ⟨order, hnodup, hmem, hrun⟩ := drain_spec hstep hitems ⟨[], []⟩
  refine ⟨order, hnodup, fun u => (hmem u).trans reachedFrom_iff, ?_⟩
  rw [walkOverAllocaDefUseChains, hrun, foldl_visitUse]

/-- The calls that the walk takes for spawns, in the order of the walk. -/
def spawnCalls (d : DefUse f) (alloc : Site f) : List (Site f) :=
  match walkOverAllocaDefUseChains d alloc with
  | none => []
  | some chains => chains.mightSpawns

/-- The followed uses that the walk takes for accesses. -/
def candidateUses (d : DefUse f) (alloc : Site f) : Set (Use f) :=
  {u | FollowedUse d (.inst alloc.inst) u ∧ isCandidateUse d u = true}

theorem mem_spawnCalls_iff : s ∈ spawnCalls d alloc ↔
    ∃ u, FollowedUse d (.inst alloc.inst) u ∧ isSpawnUse d u = true ∧ u.user = s := by
  obtain ⟨order, -, hmem, hrun⟩ := walk_spec d alloc
  simp [spawnCalls, hrun, hmem, and_assoc]

/-- What the walk returns: the users of the candidate uses, as many as there are such uses,
and the calls taken for spawns. -/
theorem walk_eq (d : DefUse f) (alloc : Site f) : ∃ mops : List (Site f),
    walkOverAllocaDefUseChains d alloc = some ⟨mops, spawnCalls d alloc⟩ ∧
    mops.length = (candidateUses d alloc).ncard ∧
    ∀ m, m ∈ mops ↔ ∃ u ∈ candidateUses d alloc, u.user = m := by
  classical
  obtain ⟨order, hnodup, hmem, hrun⟩ := walk_spec d alloc
  refine ⟨(order.filter (isCandidateUse d)).map Use.user, by rw [spawnCalls, hrun], ?_, ?_⟩
  · have hset : candidateUses d alloc = ↑(order.filter (isCandidateUse d)).toFinset := by
      ext u
      simp [candidateUses, hmem]
    rw [List.length_map, hset, Set.ncard_coe_finset,
      List.toFinset_card_of_nodup (hnodup.filter _)]
  · intro m
    simp [candidateUses, hmem]

end Walk

/-! ## The flows of an address -/

section Flows

variable {β : Type*} {f : Function β} {d : DefUse f} {alloc s m : Site f} {u : Use f}
  {a v : Value}

def isDerivation (inst : Instruction) : Bool :=
  match inst.opcode with
  | .getElementPtr => true
  | .bitCast => true
  | .addrSpaceCast => true
  | .phi => true
  | .select => true
  | _ => false

/-- `a`, or a pointer derived from it by address arithmetic, casts, joins and selects. -/
inductive Derived (d : DefUse f) (a : Value) : Value → Prop where
  | base : Derived d a a
  | step {v : Value} {u : Use f} : Derived d a v → u ∈ d.uses v →
      isDerivation u.user.inst = true → Derived d a (.inst u.user.inst)

/-- `v` is a capturing argument of the call `s`. -/
def Captures (d : DefUse f) (s : Site f) (v : Value) : Prop :=
  ∃ u ∈ d.uses v, u.user = s ∧ u.isDataOperand d = true ∧
    (d.callFacts s).doesNotCapture u.operandNo = false

/-- The store `st` of `v` to `p` is executed before `s`. -/
structure StoredBefore (d : DefUse f) (st s : Site f) (v p : Value) : Prop where
  store : st.inst.isStore = true
  value : (d.operands st)[0]? = some v
  pointer : (d.operands st)[1]? = some p
  before : st.Runs s

/-- The call `s` can obtain the address of `alloc`: as an argument, through an object whose
address is an argument, or through a global. -/
inductive Obtains (d : DefUse f) (alloc s : Site f) (callBase : CallBase) : Prop where
  | argument {v : Value} : Derived d (.inst alloc.inst) v → Captures d s v →
      Obtains d alloc s callBase
  | object {st : Site f} {object v p w : Value} : Derived d (.inst alloc.inst) v →
      StoredBefore d st s v p → Derived d object p → Derived d object w → Captures d s w →
      Obtains d alloc s callBase
  | global {st : Site f} {name : ℕ} {v p : Value} : Derived d (.inst alloc.inst) v →
      StoredBefore d st s v p → Derived d (.global name) p → callBase.mayRead = true →
      Obtains d alloc s callBase

/-- The site is a call that is no intrinsic. -/
def IsPlainCall (s : Site f) (callBase : CallBase) : Prop :=
  s.inst.opcode = .call callBase ∧ isIntrinsic callBase = false

/-- An access to a stack object behind a call that can obtain its address and may write
memory, and in front of another call. -/
structure PossiblyRacing (d : DefUse f) (alloc m : Site f) : Prop where
  stackObject : alloc ∈ getStackObjects f
  access : extractAddrFromLoadStoreInst d m = some (.inst alloc.inst)
  path : ∃ s callBase, IsPlainCall s callBase ∧ shouldSkip d s = false ∧
    callBase.mayWrite = true ∧ Obtains d alloc s callBase ∧ s.Runs m ∧
    ∃ j callBase', IsPlainCall j callBase' ∧ m.Runs j

theorem derivation_propagates (hsan : u.user.inst.nosanitize = false)
    (h : isDerivation u.user.inst = true) : propagates d u.user = true := by
  unfold isDerivation at h
  unfold propagates
  rw [hsan]
  cases hop : u.user.inst.opcode <;> simp [hop] at h ⊢

/-- The walk follows the derived pointers when no instruction is marked `nosanitize`. -/
theorem Derived.followed (hsan : ∀ s : Site f, s.inst.nosanitize = false)
    (h : Derived d a v) : Followed d a v := by
  induction h with
  | base => exact .base
  | step _ hu hderiv ih => exact ih.step hu (derivation_propagates (hsan _) hderiv)

variable [DecidableEq β]

/-- Of the three flows the walk finds the first one. -/
theorem mem_spawnCalls_of_argument {callBase : CallBase}
    (hcall : IsPlainCall s callBase) (hskip : shouldSkip d s = false)
    (hwrite : callBase.mayWrite = true) (hv : Followed d (.inst alloc.inst) v)
    (hcapture : Captures d s v) : s ∈ spawnCalls d alloc := by
  obtain ⟨u, hu, rfl, hdata, hcap⟩ := hcapture
  refine mem_spawnCalls_iff.mpr ⟨u, ⟨v, hv, hu⟩, ?_, rfl⟩
  have hsan : u.user.inst.nosanitize = false := (Bool.or_eq_false_iff.mp hskip).1
  simp [isSpawnUse, hsan, hcall.1, maySpawnThread, hskip, hcall.2, hdata, hcap, hwrite]

omit [DecidableEq β] in
theorem mem_mightJoins_iff : s ∈ mightJoins d ↔
    ∃ callBase, IsPlainCall s callBase ∧ shouldSkip d s = false := by
  unfold mightJoins IsPlainCall
  cases hop : s.inst.opcode <;>
    simp [hop, mem_sites, mayJoinThread, and_comm]

end Flows

/-! ## What the filter keeps -/

section Filter

variable {β : Type*} [DecidableEq β] {f : Function β} {d : DefUse f} {q : CfgQueries β}
  {alloc m : Site f}

/-- The access is not exempt, and the strategy chosen by the number of accesses finds it
between the recognized calls. -/
structure Kept (d : DefUse f) (q : CfgQueries β) (alloc m : Site f) : Prop where
  sanitized : m.inst.nosanitize = false
  several : (candidateUses d alloc).ncard ≤ mopThreshold →
    SpawnSeen q (spawnCalls d alloc) m ∧ JoinSeen q (mightJoins d) m
  many : mopThreshold < (candidateUses d alloc).ncard →
    InChain (spawnCalls d alloc) (mightJoins d) m

omit [DecidableEq β] in
theorem find_stackObject (h : alloc ∈ getStackObjects f) :
    ((getStackObjects f).find? fun a => Value.inst a.inst = .inst alloc.inst) = some alloc := by
  cases hfind : (getStackObjects f).find? fun a => Value.inst a.inst = .inst alloc.inst with
  | none =>
      have hnone := List.find?_eq_none.mp hfind alloc h
      simp at hnone
  | some a =>
      have ha := List.find?_some hfind
      rw [decide_eq_true_eq, Value.inst.injEq] at ha
      rw [Site.eq_of_inst ha]

omit [DecidableEq β] in
/-- An access to the object is a candidate unless it is exempt. -/
theorem access_candidate (h : extractAddrFromLoadStoreInst d m = some (.inst alloc.inst)) :
    (∃ u ∈ candidateUses d alloc, u.user = m) ↔ m.inst.nosanitize = false := by
  constructor
  · rintro ⟨u, ⟨-, hu⟩, rfl⟩
    rw [isCandidateUse, Bool.and_eq_true] at hu
    simpa using hu.1
  · intro hsan
    unfold extractAddrFromLoadStoreInst at h
    cases hop : m.inst.opcode <;> simp only [hop] at h <;> try cases h
    · exact ⟨⟨m, 0⟩, ⟨⟨_, .base, mem_uses_iff.mpr h⟩, by simp [isCandidateUse, hsan, hop]⟩, rfl⟩
    · exact ⟨⟨m, 1⟩, ⟨⟨_, .base, mem_uses_iff.mpr h⟩, by simp [isCandidateUse, hsan, hop]⟩, rfl⟩

theorem ne_nil_of_spawnSeen {mightSpawns : List (Site f)} (h : SpawnSeen q mightSpawns m) :
    mightSpawns ≠ [] := by
  rcases h with ⟨s, hs, -⟩ | ⟨⟨s, hs, -⟩, -⟩ <;> exact List.ne_nil_of_mem hs

omit [DecidableEq β] in
theorem ne_nil_of_joinSeen {mightJoins : List (Site f)} (h : JoinSeen q mightJoins m) :
    mightJoins ≠ [] := by
  rcases h with ⟨j, hj, -⟩ | ⟨j, hj, -⟩ <;> exact List.ne_nil_of_mem hj

omit [DecidableEq β] in
theorem ne_nil_of_inChain {mightSpawns mightJoins : List (Site f)}
    (h : InChain mightSpawns mightJoins m) : mightSpawns ≠ [] ∧ mightJoins ≠ [] := by
  obtain ⟨s, hs, -⟩ := (chained_iff.mp h.chained).1
  obtain ⟨-, j, hj, -⟩ := h.chained.exists_path
  exact ⟨List.ne_nil_of_mem hs, List.ne_nil_of_mem hj⟩

/-- An empty list of candidates, spawns or joins leaves nothing to find. -/
theorem mem_racyMops_iff {chains : Chains f} : m ∈ racyMops d q chains ↔
    m ∈ chains.candidateMops ∧
      (chains.candidateMops.length ≤ mopThreshold →
        SpawnSeen q chains.mightSpawns m ∧ JoinSeen q (mightJoins d) m) ∧
      (mopThreshold < chains.candidateMops.length →
        InChain chains.mightSpawns (mightJoins d) m) := by
  unfold racyMops
  by_cases hlen : chains.candidateMops.length ≤ mopThreshold
  · have hnot : ¬mopThreshold < chains.candidateMops.length := Nat.not_lt.mpr hlen
    simp only [hlen, hnot, true_imp_iff, false_imp_iff, and_true, if_true]
    split
    · next hempty =>
        simp only [List.not_mem_nil, false_iff, not_and]
        intro hm hspawn hjoin
        have := List.ne_nil_of_mem hm
        have := ne_nil_of_spawnSeen hspawn
        have := ne_nil_of_joinSeen hjoin
        simp_all
    · exact mem_collectSeveral_iff
  · have hlt := Nat.not_le.mp hlen
    simp only [hlen, hlt, true_imp_iff, false_imp_iff, true_and, if_false]
    split
    · next hempty =>
        simp only [List.not_mem_nil, false_iff, not_and]
        intro hm hchain
        have := List.ne_nil_of_mem hm
        have := ne_nil_of_inChain hchain
        simp_all
    · exact mem_collectMany_iff

end Filter

/-! ## An address stored to a global -/

/-- The address of an object is stored to a global, a call follows, the object is written, and
another call follows. -/
def published : Function Unit where
  blocks := [()]
  entry := ()
  insts _ := [⟨0, .alloca, false⟩, plainStore 1, plainCall 2, plainStore 3, plainCall 4]
  succs _ := []
  complete _ := List.mem_singleton_self _
  nodup := by decide
  parent _ _ _ _ _ := rfl

def publishedObject : Site published := ⟨(), ⟨0, .alloca, false⟩, by decide⟩

def publishedStore : Site published := ⟨(), plainStore 1, by decide⟩

def publishedSpawn : Site published := ⟨(), plainCall 2, by decide⟩

def publishedMop : Site published := ⟨(), plainStore 3, by decide⟩

def publishedJoin : Site published := ⟨(), plainCall 4, by decide⟩

def publishedUses : DefUse published where
  operands s :=
    match s.inst.name with
    | 1 => [.inst publishedObject.inst, .global 0]
    | 3 => [.other, .inst publishedObject.inst]
    | _ => [.other]
  callFacts _ := ⟨0, 0, fun _ => false, false, .other, []⟩
  delegateToXSan _ := false

def publishedQueries : CfgQueries Unit where
  inLoop _ := false
  isPotentiallyReachableFromMany _ _ := false

theorem publishedQueries_sound : publishedQueries.Sound published where
  inLoop _ h := by cases h
  reachable _ _ := by
    rintro ⟨a, -, p, hp⟩
    obtain ⟨-, c, hc, -⟩ := Path.cons_iff.mp hp
    cases hc

theorem published_possiblyRacing :
    PossiblyRacing publishedUses publishedObject publishedMop where
  stackObject := by decide
  access := by decide
  path := by
    have hstore : StoredBefore publishedUses publishedStore publishedSpawn
        (.inst publishedObject.inst) (.global 0) :=
      ⟨by decide, by decide, by decide, Site.runs_of_comesBefore rfl (by decide)⟩
    refine ⟨publishedSpawn, ⟨.plain, true, true⟩, ⟨rfl, by decide⟩, by decide, rfl,
      .global .base hstore .base rfl, Site.runs_of_comesBefore rfl (by decide),
      publishedJoin, ⟨.plain, true, true⟩, ⟨rfl, by decide⟩,
      Site.runs_of_comesBefore rfl (by decide)⟩

end Mair.StackRace
