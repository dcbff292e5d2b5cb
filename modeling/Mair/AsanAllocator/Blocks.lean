import Mair.AsanAllocator.Model
import Mathlib.Data.List.Nodup
import Mathlib.Data.List.Pairwise
import Mathlib.Logic.Function.Basic

/-! # What every mapped block is used for

The abstract heap gives each mapped block one use; the heap of the runtime represents it when
its lists, its shadow and its headers agree with these uses. An operation changes the use of one
block and writes inside this block only. -/

namespace Mair.AsanAllocator

inductive Use where
  | free
  | taken
  | live (l : Live)
  | quarantined (ptr : ℕ)

/-- A user chunk in its block, with the header that it shows. -/
structure UserChunk (s : Heap) (b : Block) (ptr used : ℕ) (state : ChunkState) : Prop where
  beg_le : b.beg + 16 ≤ ptr
  used_pos : 0 < used
  le_end : ptr + roundUpTo used 8 ≤ b.beg + b.size
  header : s.headers (ptr - 16) = ⟨state, used⟩
  shadow : s.shadow ptr ≠ .internalHeap
  given : ptr ∈ s.withHeader

/-- A block that the runtime took for itself is given out from its start. -/
structure RawBlock (b : Block) (l : Live) : Prop where
  ptr_eq : l.ptr = b.beg
  size_le : l.size ≤ b.size

/-- What the shadow and the headers of a block show of its use. -/
def Fits (s : Heap) (b : Block) : Use → Prop
  | .free => b.fromPrimary = true
  | .taken => True
  | .quarantined ptr => ∃ used, UserChunk s b ptr used .quarantine
  | .live l =>
      l.block = b ∧
      match l.owner with
      | .user => UserChunk s b l.ptr l.size .allocated
      | .internal => RawBlock b l ∧ s.shadow l.ptr = .internalHeap
      | .quarantineBatch => RawBlock b l

structure Represents (s : Heap) (use : Block → Option Use) : Prop where
  mapped : ∀ b, b ∈ s.mapped ↔ use b ≠ none
  separate : s.mapped.Pairwise fun b c => b.separate c = true
  free : ∀ a, a ∈ s.free ↔ ∃ b, b.beg = a ∧ use b = some .free
  freeNodup : s.free.Nodup
  live : ∀ l, l ∈ s.live ↔ ∃ b, use b = some (.live l)
  quarantine : ∀ p, p ∈ s.quarantine ↔ ∃ b, use b = some (.quarantined p)
  quarantineNodup : s.quarantine.Nodup
  fits : ∀ b u, use b = some u → Fits s b u
  recycled : ∀ p ∈ s.recycled, ∀ b u, use b = some u → b.contains p = true →
    u = .free ∧ ∃ used, UserChunk s b p used .invalid
  recycledGiven : ∀ p ∈ s.recycled, p ∈ s.withHeader
  internalFreed : ∀ p ∈ s.internalFreed, ∀ b u, use b = some u → b.contains p = true → u = .free

def Consistent (s : Heap) : Prop := ∃ use, Represents s use

/-- The two heaps have the same contents outside the block. -/
structure SameOutside (b : Block) (s s' : Heap) : Prop where
  shadow : ∀ a, b.contains a = false → s'.shadow a = s.shadow a
  headers : ∀ a, b.contains a = false → s'.headers a = s.headers a
  withHeader : ∀ p ∈ s.withHeader, p ∈ s'.withHeader

variable {s s' s'' : Heap} {use : Block → Option Use} {b c : Block} {u v : Use} {a p used : ℕ}
  {state : ChunkState} {l : Live}

/-! ## Addresses -/

theorem Block.contains_iff : b.contains a = true ↔ b.beg ≤ a ∧ a < b.beg + b.size := by
  simp [Block.contains]

theorem Block.contains_eq_false (h : a < b.beg ∨ b.beg + b.size ≤ a) : b.contains a = false := by
  rw [← Bool.not_eq_true, Block.contains_iff]
  omega

theorem Block.separate_iff :
    b.separate c = true ↔ b.beg + b.size ≤ c.beg ∨ c.beg + c.size ≤ b.beg := by
  simp [Block.separate]

theorem Block.separate_comm (h : b.separate c = true) : c.separate b = true := by
  rw [Block.separate_iff] at h ⊢
  exact h.symm

instance : Std.Symm fun b c : Block => b.separate c = true where
  symm _ _ h := Block.separate_comm h

theorem Block.contains_beg (b : Block) : b.contains b.beg = true := by
  rw [Block.contains_iff]
  have := b.size_pos
  omega

theorem Block.not_separate (hb : b.contains a = true) (hc : c.contains a = true) :
    ¬b.separate c = true := by
  rw [Block.contains_iff] at hb hc
  rw [Block.separate_iff]
  omega

theorem Block.separate_ne (h : b.separate c = true) : b ≠ c := by
  intro heq
  cases heq
  exact Block.not_separate b.contains_beg b.contains_beg h

theorem le_roundUpTo (size : ℕ) : size ≤ roundUpTo size 8 := by
  rw [roundUpTo]
  omega

/-! ## Content of other blocks -/

theorem UserChunk.contains (h : UserChunk s b p used state) : b.contains p = true := by
  have := h.beg_le
  have := h.used_pos
  have := h.le_end
  have := le_roundUpTo used
  rw [Block.contains_iff]
  omega

theorem UserChunk.contains_header (h : UserChunk s b p used state) :
    b.contains (p - 16) = true := by
  have := h.beg_le
  have hp := Block.contains_iff.mp h.contains
  rw [Block.contains_iff]
  omega

theorem Block.contains_separate (hc : c.contains a = true) (hsep : b.separate c = true) :
    b.contains a = false := by
  rw [← Bool.not_eq_true]
  intro hb
  exact Block.not_separate hb hc hsep

theorem SameOutside.trans (h : SameOutside b s s') (h' : SameOutside b s' s'') :
    SameOutside b s s'' where
  shadow a ha := (h'.shadow a ha).trans (h.shadow a ha)
  headers a ha := (h'.headers a ha).trans (h.headers a ha)
  withHeader p hp := h'.withHeader p (h.withHeader p hp)

theorem UserChunk.frame (h : UserChunk s c p used state) (hout : SameOutside b s s')
    (hsep : b.separate c = true) : UserChunk s' c p used state where
  beg_le := h.beg_le
  used_pos := h.used_pos
  le_end := h.le_end
  header := by
    rw [hout.headers _ (Block.contains_separate h.contains_header hsep)]
    exact h.header
  shadow := by
    rw [hout.shadow _ (Block.contains_separate h.contains hsep)]
    exact h.shadow
  given := hout.withHeader p h.given

theorem RawBlock.contains (h : RawBlock b l) : b.contains l.ptr = true := by
  rw [h.ptr_eq]
  exact b.contains_beg

theorem Fits.contains_live (h : Fits s b (.live l)) : b.contains l.ptr = true := by
  obtain ⟨-, h⟩ := h
  cases howner : l.owner with
  | user =>
      rw [howner] at h
      exact h.contains
  | internal =>
      rw [howner] at h
      exact h.1.contains
  | quarantineBatch =>
      rw [howner] at h
      exact RawBlock.contains h

theorem Fits.frame (h : Fits s c u) (hout : SameOutside b s s') (hsep : b.separate c = true) :
    Fits s' c u := by
  cases u with
  | free => exact h
  | taken => trivial
  | quarantined ptr =>
      obtain ⟨used, h⟩ := h
      exact ⟨used, h.frame hout hsep⟩
  | live l =>
      have hcontains := h.contains_live
      obtain ⟨hblock, h⟩ := h
      refine ⟨hblock, ?_⟩
      cases howner : l.owner with
      | user =>
          rw [howner] at h
          exact UserChunk.frame h hout hsep
      | internal =>
          rw [howner] at h
          refine ⟨h.1, ?_⟩
          rw [hout.shadow _ (Block.contains_separate hcontains hsep)]
          exact h.2
      | quarantineBatch =>
          rw [howner] at h
          exact h

/-! ## Finding a block -/

theorem exists_update {α β : Type*} [DecidableEq α] {f : α → Option β} {a : α} {o : Option β}
    {w : β} (hunique : ∀ {b c}, f b = some w → f c = some w → c = b) :
    (∃ c, Function.update f a o c = some w) ↔ o = some w ∨ (∃ c, f c = some w) ∧ f a ≠ some w := by
  constructor
  · intro h
    obtain ⟨c, hc⟩ := h
    by_cases heq : c = a
    · rw [heq, Function.update_self] at hc
      exact .inl hc
    · rw [Function.update_of_ne heq] at hc
      exact .inr ⟨⟨c, hc⟩, fun ha => heq (hunique ha hc)⟩
  · intro h
    rcases h with h | h
    · exact ⟨a, by rw [Function.update_self, h]⟩
    · obtain ⟨⟨c, hc⟩, ha⟩ := h
      refine ⟨c, ?_⟩
      rw [Function.update_of_ne, hc]
      intro heq
      rw [heq] at hc
      exact ha hc

namespace Represents

theorem mem_mapped (h : Represents s use) (hb : use b = some u) : b ∈ s.mapped := by
  rw [h.mapped, hb]
  simp

theorem separate_of_ne (h : Represents s use) (hb : use b = some u) (hc : use c = some v)
    (hne : b ≠ c) : b.separate c = true :=
  h.separate.forall (h.mem_mapped hb) (h.mem_mapped hc) hne

theorem eq_of_contains (h : Represents s use) (hb : use b = some u) (hc : use c = some v)
    (hba : b.contains a = true) (hca : c.contains a = true) : b = c := by
  by_contra hne
  exact Block.not_separate hba hca (h.separate_of_ne hb hc hne)

theorem mapped_nodup (h : Represents s use) : s.mapped.Nodup :=
  h.separate.imp fun hsep => Block.separate_ne hsep

theorem getBlockBegin_eq (h : Represents s use) (hb : use b = some u)
    (hba : b.contains a = true) : s.getBlockBegin a = some b := by
  cases hfind : s.getBlockBegin a with
  | none =>
      have := List.find?_eq_none.mp hfind b (h.mem_mapped hb)
      exact absurd hba this
  | some c =>
      have hc := List.mem_of_find?_eq_some hfind
      have hca := List.find?_some hfind
      rw [h.mapped, Option.ne_none_iff_exists'] at hc
      obtain ⟨v, hc⟩ := hc
      rw [h.eq_of_contains hb hc hba hca]

/-- The live allocation at a pointer is the one that its block is used for. -/
theorem live_eq (h : Represents s use) (hb : use b = some u) {l : Live} (hl : l ∈ s.live)
    (hcontains : b.contains l.ptr = true) : u = .live l := by
  obtain ⟨c, hc⟩ := (h.live l).mp hl
  have heq := h.eq_of_contains hb hc hcontains (h.fits c _ hc).contains_live
  rw [heq, hc, Option.some.injEq] at hb
  exact hb.symm

theorem quarantine_eq (h : Represents s use) (hb : use b = some u) (hp : p ∈ s.quarantine)
    (hcontains : b.contains p = true) : u = .quarantined p := by
  obtain ⟨c, hc⟩ := (h.quarantine p).mp hp
  obtain ⟨used, hchunk⟩ := h.fits c _ hc
  have heq := h.eq_of_contains hb hc hcontains hchunk.contains
  rw [heq, hc, Option.some.injEq] at hb
  exact hb.symm

/-- No pointer into a block that is not free is one whose memory was left alone since. -/
theorem untouched_eq_false (h : Represents s use) (hb : use b = some u) (hfree : u ≠ .free)
    (hquarantined : u ≠ .quarantined p) (hcontains : b.contains p = true) :
    s.untouched p = false := by
  have hq : p ∉ s.quarantine := fun hp => hquarantined (h.quarantine_eq hb hp hcontains)
  have hr : p ∉ s.recycled := fun hp => hfree (h.recycled p hp b u hb hcontains).1
  have hi : p ∉ s.internalFreed := fun hp => hfree (h.internalFreed p hp b u hb hcontains)
  simp [Heap.untouched, hq, hr, hi]

theorem live_unique (h : Represents s use) (l : Live) (hb : use b = some (.live l))
    (hc : use c = some (.live l)) : c = b :=
  h.eq_of_contains hc hb (h.fits c _ hc).contains_live (h.fits b _ hb).contains_live

theorem quarantined_unique (h : Represents s use) (p : ℕ) (hb : use b = some (.quarantined p))
    (hc : use c = some (.quarantined p)) : c = b := by
  obtain ⟨used, hchunk⟩ := h.fits b _ hb
  obtain ⟨used', hchunk'⟩ := h.fits c _ hc
  exact h.eq_of_contains hc hb hchunk'.contains hchunk.contains

/-! ## Changes of one block -/

variable {o : Option Use}

/-- The use of one block changes, and its content with it. -/
theorem update (h : Represents s use)
    (hsep : ∀ c w, use c = some w → c ≠ b → b.separate c = true)
    (hout : SameOutside b s s') (hfits : ∀ w, o = some w → Fits s' b w)
    (hmapped : ∀ c, c ∈ s'.mapped ↔ if c = b then o ≠ none else c ∈ s.mapped)
    (hseparate : s'.mapped.Pairwise fun b c => b.separate c = true)
    (hfree : ∀ a, a ∈ s'.free ↔
      a = b.beg ∧ o = some .free ∨ a ∈ s.free ∧ ¬(a = b.beg ∧ use b = some .free))
    (hfreeNodup : s'.free.Nodup)
    (hlive : ∀ l, l ∈ s'.live ↔ o = some (.live l) ∨ l ∈ s.live ∧ use b ≠ some (.live l))
    (hquarantine : ∀ p, p ∈ s'.quarantine ↔
      o = some (.quarantined p) ∨ p ∈ s.quarantine ∧ use b ≠ some (.quarantined p))
    (hquarantineNodup : s'.quarantine.Nodup)
    (hrecycled : ∀ p ∈ s'.recycled, (p ∈ s.recycled ∨ p ∈ s'.withHeader ∧ b.contains p = true) ∧
      (b.contains p = true → ∀ w, o = some w → w = .free ∧ ∃ used, UserChunk s' b p used .invalid))
    (hinternalFreed : ∀ p ∈ s'.internalFreed, (p ∈ s.internalFreed ∨ b.contains p = true) ∧
      (b.contains p = true → ∀ w, o = some w → w = .free)) :
    Represents s' (Function.update use b o) := by
  refine ⟨?_, hseparate, ?_, hfreeNodup, ?_, ?_, hquarantineNodup, ?_, ?_, ?_, ?_⟩
  · intro c
    rw [hmapped]
    by_cases heq : c = b
    · rw [if_pos heq, heq, Function.update_self]
    · rw [if_neg heq, Function.update_of_ne heq, h.mapped]
  · intro a
    rw [hfree]
    constructor
    · intro ha
      rcases ha with ⟨ha, ho⟩ | ⟨ha, hne⟩
      · exact ⟨b, ha.symm, by rw [Function.update_self, ho]⟩
      · obtain ⟨c, hbeg, hc⟩ := (h.free a).mp ha
        refine ⟨c, hbeg, ?_⟩
        rw [Function.update_of_ne, hc]
        intro heq
        cases heq
        exact hne ⟨hbeg.symm, hc⟩
    · intro ha
      obtain ⟨c, hbeg, hc⟩ := ha
      by_cases heq : c = b
      · rw [heq, Function.update_self] at hc
        exact .inl ⟨by rw [← hbeg, heq], hc⟩
      · rw [Function.update_of_ne heq] at hc
        refine .inr ⟨(h.free a).mpr ⟨c, hbeg, hc⟩, ?_⟩
        intro hb
        have hsep := hsep c _ hc heq
        refine Block.not_separate b.contains_beg ?_ hsep
        rw [← hb.1, ← hbeg]
        exact c.contains_beg
  · intro l
    rw [hlive, exists_update (h.live_unique l), ← h.live]
  · intro p
    rw [hquarantine, exists_update (h.quarantined_unique p), ← h.quarantine]
  · intro c w hc
    by_cases heq : c = b
    · cases heq
      rw [Function.update_self] at hc
      exact hfits w hc
    · rw [Function.update_of_ne heq] at hc
      exact (h.fits c w hc).frame hout (hsep c w hc heq)
  · intro p hp c w hc hcontains
    obtain ⟨hold, hnew⟩ := hrecycled p hp
    by_cases heq : c = b
    · cases heq
      rw [Function.update_self] at hc
      exact hnew hcontains w hc
    · rw [Function.update_of_ne heq] at hc
      have hsep := hsep c w hc heq
      rcases hold with hold | hold
      · obtain ⟨hw, used, hchunk⟩ := h.recycled p hold c w hc hcontains
        exact ⟨hw, used, hchunk.frame hout hsep⟩
      · exact absurd hsep (Block.not_separate hold.2 hcontains)
  · intro p hp
    rcases (hrecycled p hp).1 with hold | hold
    · exact hout.withHeader p (h.recycledGiven p hold)
    · exact hold.1
  · intro p hp c w hc hcontains
    obtain ⟨hold, hnew⟩ := hinternalFreed p hp
    by_cases heq : c = b
    · cases heq
      rw [Function.update_self] at hc
      exact hnew hcontains w hc
    · rw [Function.update_of_ne heq] at hc
      rcases hold with hold | hold
      · exact h.internalFreed p hold c w hc hcontains
      · exact absurd (hsep c w hc heq) (Block.not_separate hold hcontains)

/-- A block changes between uses that are not free. -/
theorem replace (h : Represents s use) (hb : use b = some u) (hfree : u ≠ .free)
    (hfree' : v ≠ .free) (hout : SameOutside b s s') (hfits : Fits s' b v)
    (hmapped : s'.mapped = s.mapped) (hfreeList : s'.free = s.free)
    (hlive : ∀ l, l ∈ s'.live ↔ v = .live l ∨ l ∈ s.live ∧ u ≠ .live l)
    (hquarantine : ∀ p, p ∈ s'.quarantine ↔
      v = .quarantined p ∨ p ∈ s.quarantine ∧ u ≠ .quarantined p)
    (hnodup : s'.quarantine.Nodup) (hrecycled : s'.recycled = s.recycled)
    (hinternalFreed : s'.internalFreed = s.internalFreed) :
    Represents s' (Function.update use b (some v)) := by
  apply h.update
  · intro c w hc hne
    exact h.separate_of_ne hb hc (Ne.symm hne)
  · exact hout
  · intro w hw
    cases hw
    exact hfits
  · intro c
    rw [hmapped]
    by_cases heq : c = b
    · simp [heq, h.mem_mapped hb]
    · simp [heq]
  · rw [hmapped]
    exact h.separate
  · intro a
    simp [hfreeList, hb, hfree, hfree']
  · rw [hfreeList]
    exact h.freeNodup
  · intro l
    simp [hlive, hb]
  · intro p
    simp [hquarantine, hb]
  · exact hnodup
  · intro p hp
    rw [hrecycled] at hp
    exact ⟨.inl hp, fun hcontains => absurd (h.recycled p hp b u hb hcontains).1 hfree⟩
  · intro p hp
    rw [hinternalFreed] at hp
    exact ⟨.inl hp, fun hcontains => absurd (h.internalFreed p hp b u hb hcontains) hfree⟩

end Represents

end Mair.AsanAllocator
