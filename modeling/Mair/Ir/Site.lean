import Mair.Ir.Execution

/-! # Instructions and their blocks

A site is an instruction together with the block that contains it. One site runs to another
when control goes from the first to the second. -/

namespace Mair.Ir

@[ext]
structure Site {β : Type*} (f : Function β) where
  block : β
  inst : Instruction
  mem : inst ∈ f.insts block

namespace Site

variable {β : Type*} {f : Function β} {a b c m s j : Site f}

instance [DecidableEq β] : DecidableEq (Site f) := fun _ _ =>
  decidable_of_iff _ Site.ext_iff.symm

theorem eq_of_inst (h : a.inst = b.inst) : a = b :=
  Site.ext (f.parent _ _ a.inst a.mem (h ▸ b.mem)) h

/-! ## Order within a block -/

/-- The order of two instructions of one block. -/
def comesBefore (a b : Site f) : Bool :=
  (f.insts a.block).idxOf a.inst < (f.insts a.block).idxOf b.inst

/-- `b` is `a` or follows it in the block of `a`. -/
def NotAfter (a b : Site f) : Prop := a.block = b.block ∧ b.comesBefore a = false

def pos (a : Site f) : ℕ := (f.insts a.block).idxOf a.inst

theorem comesBefore_eq (hab : a.block = b.block) :
    a.comesBefore b = decide (a.pos < b.pos) := by
  simp only [comesBefore, pos, hab]

theorem notAfter_iff_pos (hab : a.block = b.block) : a.NotAfter b ↔ a.pos ≤ b.pos := by
  simp [NotAfter, hab, comesBefore_eq hab.symm]

theorem eq_of_pos (hab : a.block = b.block) (h : a.pos = b.pos) : a = b := by
  unfold pos at h
  rw [← hab] at h
  exact eq_of_inst ((List.idxOf_inj a.mem).mp h)

theorem notAfter_iff (hab : a.block = b.block) :
    a.NotAfter b ↔ a = b ∨ a.comesBefore b = true := by
  rw [notAfter_iff_pos hab, comesBefore_eq hab, decide_eq_true_eq, Nat.le_iff_lt_or_eq, or_comm]
  refine or_congr_left ⟨eq_of_pos hab, ?_⟩
  rintro rfl
  rfl

theorem NotAfter.refl (a : Site f) : a.NotAfter a :=
  (notAfter_iff_pos rfl).mpr (Nat.le_refl _)

/-! ## Runs -/

/-- `l` is what control executes from `a` to `b`, both included. -/
def InstPath (a b : Site f) (l : List Instruction) : Prop :=
  ∃ before after before' after' p rest, f.insts a.block = before ++ a.inst :: after ∧
    f.insts b.block = before' ++ b.inst :: after' ∧ f.PathFrom a.block p b.block ∧
    f.trace p ++ (before' ++ [b.inst]) = before ++ a.inst :: rest ∧ l = a.inst :: rest

def Runs (a b : Site f) : Prop := ∃ l, InstPath a b l

/-- A path that leaves its first block. -/
def Leads (f : Function β) (b c : β) : Prop := ∃ p, f.PathFrom b (b :: p) c

/-- `m` is executed on the way from `a` to `b`. -/
def Between (a m b : Site f) : Prop := ∃ l, InstPath a b l ∧ m.inst ∈ l

theorem exists_split (a : Site f) :
    ∃ before after, f.insts a.block = before ++ a.inst :: after :=
  List.append_of_mem a.mem

theorem pos_of_split {before after : List Instruction}
    (h : f.insts a.block = before ++ a.inst :: after) : a.pos = before.length := by
  rw [pos, h, List.idxOf_append_of_notMem (Function.notMem_split h).1, List.idxOf_cons_self, add_zero]

theorem notAfter_iff_length {before after before' after' : List Instruction}
    (hab : a.block = b.block) (ha : f.insts a.block = before ++ a.inst :: after)
    (hb : f.insts b.block = before' ++ b.inst :: after') :
    a.NotAfter b ↔ before.length ≤ before'.length := by
  rw [notAfter_iff_pos hab, pos_of_split ha, pos_of_split hb]

theorem trace_from {before after : List Instruction}
    (h : f.insts a.block = before ++ a.inst :: after) (p : List β) (l : List Instruction) :
    f.trace (a.block :: p) ++ l = before ++ a.inst :: (after ++ f.trace p ++ l) := by
  rw [Function.trace_cons, h]
  simp only [List.append_assoc, List.cons_append]

/-- Control goes from `a` to `b` within the block or along a path that leaves it. -/
theorem runs_iff : a.Runs b ↔ a.NotAfter b ∨ Leads f a.block b.block := by
  constructor
  · rintro ⟨l, before, after, before', after', p, rest, ha, hb, hp, htr, -⟩
    cases p with
    | nil =>
        have hab := Path.nil_iff.mp hp
        refine Or.inl ((notAfter_iff_length hab ha hb).mpr ?_)
        have hlen := congrArg List.length htr
        simp [Function.trace] at hlen
        omega
    | cons c p =>
        obtain ⟨rfl, -⟩ := Path.cons_iff.mp hp
        exact Or.inr ⟨p, hp⟩
  · obtain ⟨before, after, ha⟩ := a.exists_split
    obtain ⟨before', after', hb⟩ := b.exists_split
    rintro (h | ⟨p, hp⟩)
    · have hle := (notAfter_iff_length h.1 ha hb).mp h
      have ha' : before ++ [a.inst] <+: f.insts b.block := ⟨after, by rw [← h.1, ha]; simp⟩
      have hb' : before' ++ [b.inst] <+: f.insts b.block := ⟨after', by rw [hb]; simp⟩
      obtain ⟨rest, hrest⟩ := List.prefix_of_prefix_length_le ha' hb' (by simpa using hle)
      exact ⟨_, before, after, before', after', [], rest, ha, hb, Path.nil_iff.mpr h.1,
        by simpa [Function.trace] using hrest.symm, rfl⟩
    · exact ⟨_, before, after, before', after', a.block :: p, _, ha, hb, hp,
        trace_from ha p _, rfl⟩

theorem runs_of_comesBefore (hab : a.block = b.block) (h : a.comesBefore b = true) :
    a.Runs b :=
  runs_iff.mpr (Or.inl ((notAfter_iff hab).mpr (Or.inr h)))

theorem InstPath.comp {l l' : List Instruction} (h : InstPath s m l) (h' : InstPath m j l') :
    Between s m j := by
  obtain ⟨before, after, u, v, p, rest, hs, hm, hp, htr, rfl⟩ := h
  obtain ⟨u', v', before', after', p', rest', hm', hj, hp', htr', rfl⟩ := h'
  obtain ⟨rfl, -⟩ := Function.split_unique hm hm'
  have hlast : m.inst ∈ s.inst :: rest := by
    have h := congrArg List.getLast? htr
    rw [← List.append_assoc, List.getLast?_concat, List.getLast?_append_cons] at h
    exact List.mem_of_getLast? h.symm
  refine ⟨s.inst :: (rest ++ rest'), ⟨before, after, before', after', p ++ p', rest ++ rest',
    hs, hj, hp.append hp', ?_, rfl⟩, ?_⟩
  · have hsplit : f.trace p ++ (u ++ m.inst :: rest') =
        (f.trace p ++ (u ++ [m.inst])) ++ rest' := by simp
    rw [Function.trace_append, List.append_assoc, htr', hsplit, htr]
    simp
  · rw [← List.cons_append]
    exact List.mem_append_left _ hlast

/-- The paths through `m` are composed of the paths to `m` and the paths from `m`. -/
theorem between_iff : Between s m j ↔ s.Runs m ∧ m.Runs j := by
  constructor
  · rintro ⟨l, ⟨before, after, before', after', p, rest, hs, hj, hp, htr, rfl⟩, hmem⟩
    obtain ⟨u, v, huv⟩ := List.append_of_mem hmem
    obtain ⟨x, y, hm⟩ := m.exists_split
    have hpref : before' ++ [j.inst] <+: f.insts j.block := ⟨after', by rw [hj]; simp⟩
    have hcut : f.trace p ++ (before' ++ [j.inst]) = (before ++ u) ++ m.inst :: v := by
      rw [htr, huv, List.append_assoc]
    obtain ⟨p₁, hp₁, hpre, hrest⟩ := Function.trace_split hp hpref hm hcut
    refine ⟨?_, ?_⟩
    · have hcut₁ : f.trace p₁ ++ (x ++ [m.inst]) = before ++ (u ++ [m.inst]) := by
        rw [← List.append_assoc, ← hpre, List.append_assoc]
      cases u with
      | nil =>
          rw [List.nil_append, List.cons.injEq] at huv
          obtain rfl := eq_of_inst huv.1
          exact runs_iff.mpr (Or.inl (.refl s))
      | cons i u =>
          rw [List.cons_append, List.cons.injEq] at huv
          rw [← huv.1] at hcut₁
          exact ⟨_, before, after, x, y, p₁, u ++ [m.inst], hs, hm, hp₁, hcut₁, rfl⟩
    · rcases hrest with ⟨hblock, hpref'⟩ | ⟨p₂, hp₂, rfl⟩
      · exact ⟨_, x, y, before', after', [], v, hm, hj, Path.nil_iff.mpr hblock.symm, hpref', rfl⟩
      · exact ⟨_, x, y, before', after', m.block :: p₂, _, hm, hj, hp₂,
          trace_from hm p₂ _, rfl⟩
  · rintro ⟨⟨l, h⟩, ⟨l', h'⟩⟩
    exact h.comp h'

end Site

end Mair.Ir
