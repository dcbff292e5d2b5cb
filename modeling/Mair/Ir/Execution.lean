import Mair.Ir.Function
import Mair.Library.Occurrence

/-! # Executions and the windows between two instructions

A finite execution runs whole blocks along a path and then a prefix of one more block. The
windows between two instructions of different blocks are read off the paths between their
blocks. -/

namespace Mair.Ir

open Occurrence

namespace Function

variable {β : Type*} {f : Function β}

/-! ## Executions -/

def IsExecution (f : Function β) (tr : List Instruction) : Prop :=
  ∃ p c pref, f.PathFrom f.entry p c ∧ pref <+: f.insts c ∧ tr = f.trace p ++ pref

/-- `mid` is executed between an execution of `fromI` and the next one of `toI`. -/
def Window (f : Function β) (fromI toI : Instruction) (mid : List Instruction) : Prop :=
  toI ∉ mid ∧ ∃ pre post, f.IsExecution (pre ++ fromI :: (mid ++ toI :: post))

/-- Every path from `b` to a block without successors goes through `d`. -/
def PostDominates (f : Function β) (d b : β) : Prop :=
  ∀ p c, f.PathFrom b p c → f.succs c = [] → d ∈ p ++ [c]

/-- `d` post-dominates `m` from another block, or comes later in the same block. -/
def StrictlyPostDominates (f : Function β) (d m : Instruction) : Prop :=
  (∃ bd b, d ∈ f.insts bd ∧ m ∈ f.insts b ∧ bd ≠ b ∧ f.PostDominates bd b) ∨
    ∃ b pre mid post, f.insts b = pre ++ m :: (mid ++ d :: post)

/-- `d` is executed on every path to the block of `m`, or comes earlier in that block. -/
def StrictlyDominates (f : Function β) (d m : Instruction) : Prop :=
  (∃ bd b, d ∈ f.insts bd ∧ m ∈ f.insts b ∧ bd ≠ b ∧ f.DominatesEntry d b) ∨
    ∃ b pre mid post, f.insts b = pre ++ d :: (mid ++ m :: post)

/-- `mid` is executed between the last execution of `fromI` and an execution of `toI`. -/
def LastWindow (f : Function β) (fromI toI : Instruction) (mid : List Instruction) : Prop :=
  fromI ∉ mid ∧ ∃ pre post, f.IsExecution (pre ++ fromI :: (mid ++ toI :: post))

/-! ## Splitting a block and a trace -/

section Split

variable {b : β} {m : Instruction} {before after before' after' : List Instruction}

theorem split_unique (h : f.insts b = before ++ m :: after)
    (h' : f.insts b = before' ++ m :: after') : before = before' ∧ after = after' := by
  have hnodup := f.nodup b
  rw [h'] at hnodup
  have hnot := List.nodup_middle.mp hnodup
  rw [List.nodup_cons, List.mem_append, not_or] at hnot
  rw [h] at h'
  obtain ⟨hb, -, ha⟩ := (List.append_cons_inj_of_notMem hnot.1.1 hnot.1.2).mp h'.symm
  exact ⟨hb.symm, ha.symm⟩

theorem notMem_split (h : f.insts b = before ++ m :: after) : m ∉ before ∧ m ∉ after := by
  have hnodup := f.nodup b
  rw [h] at hnodup
  have hnot := (List.nodup_cons.mp (List.nodup_middle.mp hnodup)).1
  rwa [List.mem_append, not_or] at hnot

/-- The part between two instructions of a block is unique. -/
theorem between_unique {m' : Instruction} {between between' : List Instruction}
    (h : f.insts b = before ++ m :: (between ++ m' :: after))
    (h' : f.insts b = before' ++ m :: (between' ++ m' :: after')) : between = between' := by
  have hcut : f.insts b = (before ++ m :: between) ++ m' :: after := by
    rw [h]
    simp
  have hcut' : f.insts b = (before' ++ m :: between') ++ m' :: after' := by
    rw [h']
    simp
  have heq := (split_unique hcut hcut').1
  rw [(split_unique h h').1, List.append_cancel_left_eq, List.cons.injEq] at heq
  exact heq.2

theorem mem_insts_of_split (h : f.insts b = before ++ m :: after) : m ∈ f.insts b := by
  rw [h]
  simp

theorem trace_cons (b : β) (p : List β) : f.trace (b :: p) = f.insts b ++ f.trace p := rfl

theorem trace_append (p q : List β) : f.trace (p ++ q) = f.trace p ++ f.trace q := by
  simp [trace]

/-- An occurrence of `m` in an execution cuts the path at the block of `m`: either in the
last, partial block, or in a block that the path leaves. -/
theorem trace_split {a c : β} {p : List β} {pref pre post : List Instruction}
    (hpath : f.PathFrom a p c) (hpref : pref <+: f.insts c)
    (hb : f.insts b = before ++ m :: after) (h : f.trace p ++ pref = pre ++ m :: post) :
    ∃ p₁, f.PathFrom a p₁ b ∧ pre = f.trace p₁ ++ before ∧
      ((c = b ∧ pref = before ++ m :: post) ∨
        ∃ p₂, f.PathFrom b (b :: p₂) c ∧ post = after ++ f.trace p₂ ++ pref) := by
  induction p generalizing a pre with
  | nil =>
      obtain rfl := Path.nil_iff.mp hpath
      obtain ⟨rest, hrest⟩ := hpref
      have hpre : pref = pre ++ m :: post := h
      have hinsts : f.insts a = pre ++ m :: (post ++ rest) := by
        rw [← hrest, hpre]
        simp
      obtain rfl := f.parent a b m (mem_insts_of_split hinsts) (mem_insts_of_split hb)
      obtain ⟨rfl, -⟩ := split_unique hb hinsts
      exact ⟨[], .nil, rfl, Or.inl ⟨rfl, hpre⟩⟩
  | cons x p ih =>
      obtain ⟨rfl, d, hd, hp⟩ := Path.cons_iff.mp hpath
      rw [trace_cons, List.append_assoc] at h
      rcases List.append_eq_append_iff.mp h with ⟨mid, rfl, hmid⟩ | ⟨mid, hx, hmid⟩
      · obtain ⟨p₁, hp₁, rfl, hrest⟩ := ih hp hmid
        exact ⟨x :: p₁, (Path.single hd).append hp₁, by rw [trace_cons, List.append_assoc], hrest⟩
      · cases mid with
        | nil =>
            have hrec : f.trace p ++ pref = [] ++ m :: post := by simpa using hmid.symm
            obtain ⟨p₁, hp₁, hnil, hrest⟩ := ih hp hrec
            refine ⟨x :: p₁, (Path.single hd).append hp₁, ?_, hrest⟩
            rw [trace_cons, List.append_assoc, ← hnil, hx, List.append_nil, List.append_nil]
        | cons i mid =>
            rw [List.cons_append, List.cons.injEq] at hmid
            obtain ⟨rfl, rfl⟩ := hmid
            obtain rfl := f.parent x b m (mem_insts_of_split hx) (mem_insts_of_split hb)
            obtain ⟨rfl, rfl⟩ := split_unique hb hx
            exact ⟨[], .nil, rfl, Or.inr ⟨p, hpath, by rw [List.append_assoc]⟩⟩

end Split

/-! ## Windows -/

section Windows

variable {fromI toI : Instruction} {bf bt : β}
  {before after before' after' mid : List Instruction}

/-- The instructions from `fromI` along the blocks `r` up to `toI`. -/
def segment (f : Function β) (after : List Instruction) (r : List β)
    (before' : List Instruction) : List Instruction :=
  after ++ f.trace r ++ before'

theorem notMem_segment_iff (hto : f.insts bt = before' ++ toI :: after') (hne : bf ≠ bt)
    (hfrom : f.insts bf = before ++ fromI :: after) {r : List β} :
    toI ∉ f.segment after r before' ↔ bt ∉ r := by
  have hafter : toI ∉ after := by
    intro h
    apply hne
    refine f.parent bf bt toI ?_ (mem_insts_of_split hto)
    rw [hfrom]
    simp [h]
  have hbefore := (notMem_split hto).1
  simp only [segment, List.mem_append, hafter, hbefore, or_false, false_or, mem_trace_iff,
    not_exists, not_and]
  constructor
  · intro h hr
    exact h bt hr (mem_insts_of_split hto)
  · intro h b hb hmem
    exact h (f.parent b bt toI hmem (mem_insts_of_split hto) ▸ hb)

/-- The windows between instructions of different blocks are the segments along the paths
that meet the second block only at their end. -/
theorem window_iff_of_ne (hfrom : f.insts bf = before ++ fromI :: after)
    (hto : f.insts bt = before' ++ toI :: after') (hne : bf ≠ bt) :
    f.Window fromI toI mid ↔ f.ReachableBlock bf ∧ ∃ r, f.PathFrom bf (bf :: r) bt ∧
      bt ∉ r ∧ mid = f.segment after r before' := by
  constructor
  · rintro ⟨hnot, pre, post, p, c, pref, hpath, hpref, htr⟩
    obtain ⟨p₁, hp₁, -, ⟨rfl, hlast⟩ | ⟨p₂, hp₂, hrest⟩⟩ :=
      trace_split hpath hpref hfrom htr.symm
    · exfalso
      apply hne
      refine f.parent c bt toI (hpref.subset ?_) (mem_insts_of_split hto)
      rw [hlast]
      simp
    · have hcut : f.trace (bf :: p₂) ++ pref = (before ++ fromI :: mid) ++ toI :: post := by
        rw [trace_cons, hfrom]
        simp only [List.append_assoc, List.cons_append]
        rw [← List.append_assoc after, ← hrest]
      obtain ⟨q, hq, hbefore, -⟩ := trace_split hp₂ hpref hto hcut
      cases q with
      | nil => exact absurd (Path.nil_iff.mp hq) hne
      | cons x r =>
          obtain ⟨rfl, -⟩ := Path.cons_iff.mp hq
          rw [trace_cons, hfrom] at hbefore
          simp only [List.append_assoc, List.cons_append, List.append_cancel_left_eq,
            List.cons.injEq, true_and] at hbefore
          have hmid : mid = f.segment after r before' := by
            rw [hbefore, segment, List.append_assoc]
          refine ⟨⟨p₁, hp₁⟩, r, hq, ?_, hmid⟩
          rw [hmid] at hnot
          exact (notMem_segment_iff hto hne hfrom).mp hnot
  · rintro ⟨⟨p₁, hp₁⟩, r, hr, hnot, rfl⟩
    refine ⟨(notMem_segment_iff hto hne hfrom).mpr hnot, f.trace p₁ ++ before, [],
      p₁ ++ bf :: r, bt, before' ++ [toI], hp₁.append hr, ⟨after', by rw [hto]; simp⟩, ?_⟩
    rw [trace_append, trace_cons, hfrom, segment]
    simp

/-- Within one block the window is the part between the two instructions. -/
theorem window_of_same {b : β} {between : List Instruction}
    (h : f.insts b = before ++ fromI :: (between ++ toI :: after)) (hw : f.Window fromI toI mid) :
    mid = between := by
  obtain ⟨hnot, pre, post, p, c, pref, hpath, hpref, htr⟩ := hw
  have hbetween : toI ∉ between := by
    have h' : f.insts b = (before ++ fromI :: between) ++ toI :: after := by rw [h]; simp
    have hn := (notMem_split h').1
    simp only [List.mem_append, List.mem_cons, not_or] at hn
    exact hn.2.2
  obtain ⟨p₁, -, -, ⟨rfl, hlast⟩ | ⟨p₂, -, hrest⟩⟩ := trace_split hpath hpref h htr.symm
  · obtain ⟨rest, hrest⟩ := hpref
    have hcut : f.insts c = before ++ fromI :: (mid ++ toI :: (post ++ rest)) := by
      rw [← hrest, hlast]
      simp
    exact firstSplit_unique hnot hbetween (split_unique hcut h).2
  · have hcut : mid ++ toI :: post = between ++ toI :: (after ++ f.trace p₂ ++ pref) := by
      rw [hrest]
      simp
    exact firstSplit_unique hnot hbetween hcut

/-- The last windows between different blocks end with what the second block executes before
`toI`. -/
theorem lastWindow_iff_of_ne (hfrom : fromI ∈ f.insts bf)
    (hto : f.insts bt = before' ++ toI :: after') (hne : bf ≠ bt) :
    f.LastWindow fromI toI mid ↔ ∃ p pre post, f.PathFrom f.entry p bt ∧
      LastSplit fromI (f.trace p) pre post ∧ mid = post ++ before' := by
  have hbefore : fromI ∉ before' := by
    intro h
    apply hne
    refine f.parent bf bt fromI hfrom ?_
    rw [hto]
    exact List.mem_append_left _ h
  constructor
  · intro hw
    obtain ⟨hnot, pre, post, p, c, pref, hpath, hpref, htr⟩ := hw
    have hcut : f.trace p ++ pref = (pre ++ fromI :: mid) ++ toI :: post := by
      rw [← htr]
      simp
    obtain ⟨q, hq, hpre, -⟩ := trace_split hpath hpref hto hcut
    rcases List.append_eq_append_iff.mp hpre.symm with ⟨rest, hpre, hrest⟩ | ⟨rest, htrace, hrest⟩
    · exfalso
      apply hbefore
      rw [hrest]
      simp
    · cases rest with
      | nil =>
          exfalso
          apply hbefore
          rw [List.nil_append] at hrest
          rw [← hrest]
          exact List.mem_cons_self
      | cons i rest =>
          rw [List.cons_append, List.cons.injEq] at hrest
          obtain ⟨rfl, rfl⟩ := hrest
          refine ⟨q, pre, rest, hq, ⟨htrace, ?_⟩, rfl⟩
          exact fun h => hnot (List.mem_append_left _ h)
  · intro hw
    obtain ⟨p, pre, post, hp, ⟨htrace, hpost⟩, rfl⟩ := hw
    refine ⟨?_, pre, [], p, bt, before' ++ [toI], hp, ⟨after', by rw [hto]; simp⟩, ?_⟩
    · rw [List.mem_append, not_or]
      exact ⟨hpost, hbefore⟩
    · rw [htrace]
      simp

/-- Within one block the last window is the part between the two instructions. -/
theorem lastWindow_iff_of_same {b : β} {between : List Instruction}
    (h : f.insts b = before ++ fromI :: (between ++ toI :: after)) :
    f.LastWindow fromI toI mid ↔ f.ReachableBlock b ∧ mid = between := by
  have hcut : f.insts b = (before ++ fromI :: between) ++ toI :: after := by
    rw [h]
    simp
  have hbetween : fromI ∉ between := by
    have hnot := (notMem_split h).2
    rw [List.mem_append, not_or] at hnot
    exact hnot.1
  constructor
  · intro hw
    obtain ⟨hnot, pre, post, p, c, pref, hpath, hpref, htr⟩ := hw
    have hpost : f.trace p ++ pref = (pre ++ fromI :: mid) ++ toI :: post := by
      rw [← htr]
      simp
    obtain ⟨q, hq, hpre, -⟩ := trace_split hpath hpref hcut hpost
    refine ⟨⟨q, hq⟩, ?_⟩
    have hlast : pre ++ fromI :: mid = (f.trace q ++ before) ++ fromI :: between := by
      rw [hpre]
      simp
    exact lastSplit_unique ⟨rfl, hnot⟩ ⟨hlast, hbetween⟩
  · intro hw
    obtain ⟨⟨p, hp⟩, rfl⟩ := hw
    refine ⟨hbetween, f.trace p ++ before, [], p, b, before ++ fromI :: (mid ++ [toI]), hp,
      ⟨after, by rw [h]; simp⟩, ?_⟩
    simp

end Windows

end Function

end Mair.Ir
