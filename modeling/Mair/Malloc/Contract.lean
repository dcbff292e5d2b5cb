import Mair.Library.Runs
import Mair.Library.SwapRemoval
import Mair.Malloc.Model

/-! # The contract of the entry points

Each call grants a block that is large enough and hands its operand to the allocator that produced
it, along every run in which no call uses a size or a pointer that its interceptor gets wrong. -/

namespace Mair.Malloc

/-! ## The law and when it holds -/

structure Contract (h : Heap) (call : Call) (o : Outcome) : Prop where
  routed : ∀ a ptr, o.handed = some (a, ptr) → ∀ b ∈ h.blocks, b.addr = ptr → b.producer = a
  granted : ∀ h' q, o.answer = some (h', q) → q ≠ 0 →
    ∃ b ∈ h'.blocks, b.addr = q ∧ call.requested ≤ b.size
  zeroed : ∀ nmemb size, call = .calloc nmemb size → ∀ h' q, o.answer = some (h', q) → q ≠ 0 →
    ∀ i < nmemb * size, h'.mem (q + i) = 0
  kept : ∀ h' q, o.answer = some (h', q) → q ≠ 0 → ∀ b ∈ h.blocks, b.addr = call.operand →
    ∀ i < min b.size call.requested, h'.mem (q + i) = h.mem (b.addr + i)

def Observation.Good (o : Observation) : Prop := Contract o.before o.call o.outcome

/-- The program passes null or a block, inside the symbolizer exactly if it obtained it there. -/
def Permitted (p : Program) : Event → Prop
  | .write _ => True
  | .call mode call _ =>
      call.operand = 0 ∨ (∃ b ∈ p.heap.blocks, b.addr = call.operand) ∧
        (p.source call.operand).insideSymbolizer = decide (mode = .symbolizer)

/-- The internal allocator is asked for enough. -/
def Call.SizeServed (settings : Settings) : Call → Prop
  | calloc nmemb size | reallocarray _ nmemb size => nmemb ≤ size ∨ size = 0
  | pvalloc size => checkForPvallocOverflow size settings.pageSize = false
  | _ => True

/-- Inside the symbolizer, the count of `calloc` or `reallocarray` is at most the size, the size for
`pvalloc` can be rounded up, and no block of `memalign` is freed or resized. Before XSan is
initialised `realloc` resizes blocks for `dlsym` only, and outside the symbolizer `reallocarray`
resizes none of them. -/
def Served (settings : Settings) (p : Program) : Event → Prop
  | .call .symbolizer call _ =>
      (call.operand ≠ 0 → (p.source call.operand).fromMemalign = false) ∧ call.SizeServed settings
  | .call .uninitialised (.realloc ptr _) _ => ptr = 0 ∨ p.heap.pointerIsMine ptr = true
  | .call _ (.reallocarray ptr _ _) _ => p.heap.pointerIsMine ptr = false
  | _ => True

/-! ## Placed blocks -/

structure Layout (h : Heap) : Prop where
  placed : ∀ b ∈ h.blocks, 0 < b.addr ∧ 0 < b.size
  apart : h.blocks.Pairwise fun b c => b.apart c = true

section Blocks

variable {h h' : Heap} {a : Allocator} {P : Block → Prop} {b c : Block} {ptr n m : ℕ}
  {answer : Answer} {choice : Option Chunk} {settings : Settings}

theorem apart_iff : b.apart c = true ↔ b.addr + b.size ≤ c.addr ∨ c.addr + c.size ≤ b.addr := by
  simp [Block.apart]

theorem apart_addr_ne (hapart : b.apart c = true) (hb : 0 < b.size) (hc : 0 < c.size) :
    b.addr ≠ c.addr := by
  rw [apart_iff] at hapart
  omega

theorem Layout.nodup (hl : Layout h) : (h.blocks.map Block.addr).Nodup := by
  rw [List.Nodup, List.pairwise_map]
  refine hl.apart.imp_of_mem ?_
  intro b c hb hc hapart
  exact apart_addr_ne hapart (hl.placed b hb).2 (hl.placed c hc).2

theorem Layout.eq_of_addr (hl : Layout h) (hb : b ∈ h.blocks) (hc : c ∈ h.blocks)
    (haddr : b.addr = c.addr) : b = c :=
  List.inj_on_of_nodup_map hl.nodup hb hc haddr

theorem Layout.getActuallyAllocatedSize (hl : Layout h) (hb : b ∈ h.blocks) :
    h.getActuallyAllocatedSize b.addr = b.size := by
  rw [Heap.getActuallyAllocatedSize, (SwapRemoval.find_eq_some_iff hl.nodup).mpr ⟨hb, rfl⟩]
  rfl

theorem Layout.pointerIsMine_iff (hl : Layout h) (hb : b ∈ h.blocks) :
    h.pointerIsMine b.addr = true ↔ b.producer ≠ .xsan ∧ b.fromPrimary = true := by
  rw [Heap.pointerIsMine, List.any_eq_true]
  constructor
  · rintro ⟨c, hc, hmine⟩
    simp only [Bool.and_eq_true, decide_eq_true_eq] at hmine
    cases hl.eq_of_addr hc hb hmine.1.1
    exact ⟨hmine.1.2, hmine.2⟩
  · rintro ⟨hxsan, hprimary⟩
    exact ⟨b, hb, by simp [hxsan, hprimary]⟩

/-! ## What an allocator gives -/

def ProducedBy (a : Allocator) (b : Block) : Prop := b.producer = a

/-- Blocks for `dlsym` come from the primary part of the internal allocator. -/
def Made (a : Allocator) (b : Block) : Prop :=
  ProducedBy a b ∧ (a = .dlsym → b.fromPrimary = true)

/-- A new block `b` for `n` bytes, with the common part of the block at `ptr`. -/
structure Granted (h : Heap) (ptr n : ℕ) (P : Block → Prop) (h' : Heap) (b : Block) : Prop where
  rest : ∃ rest, h'.blocks = b :: rest ∧ rest.Sublist h.blocks
  placed : 0 < b.addr ∧ 0 < b.size
  made : P b
  size : n ≤ b.size
  apart : ∀ c ∈ h.blocks, b.apart c = true
  frame : ∀ x, x < b.addr ∨ b.addr + b.size ≤ x → h'.mem x = h.mem x
  kept : ∀ c ∈ h.blocks, c.addr = ptr → ∀ i < min c.size n, h'.mem (b.addr + i) = h.mem (ptr + i)

/-- Null or a block. -/
def IsBlock (h : Heap) (ptr : ℕ) : Prop := ptr = 0 ∨ ∃ c ∈ h.blocks, c.addr = ptr

/-- Every answer is null or a granted block. -/
def Gives (h : Heap) (ptr n : ℕ) (P : Block → Prop) (answer : Answer) : Prop :=
  ∀ h' q, answer = some (h', q) →
    q = 0 ∧ h'.blocks.Sublist h.blocks ∨ ∃ b, b.addr = q ∧ Granted h ptr n P h' b

theorem gives_none : Gives h ptr n P none := by
  intro h' q hanswer
  cases hanswer

theorem gives_null (hsub : h'.blocks.Sublist h.blocks) : Gives h ptr n P (some (h', 0)) := by
  intro h'' q hanswer
  cases hanswer
  exact Or.inl ⟨rfl, hsub⟩

theorem Gives.mono (hgives : Gives h ptr n P answer) (hle : m ≤ n) : Gives h ptr m P answer := by
  intro h' q hanswer
  rcases hgives h' q hanswer with hnull | ⟨b, hb, hg⟩
  · exact Or.inl hnull
  · refine Or.inr ⟨b, hb, ?_⟩
    refine ⟨hg.rest, hg.placed, hg.made, Nat.le_trans hle hg.size, hg.apart, hg.frame, ?_⟩
    intro c hc haddr i hi
    exact hg.kept c hc haddr i (by omega)

/-- A check of the answer. -/
theorem Gives.bind (hgives : Gives h ptr n P answer) {check : Heap × ℕ → Answer}
    (hcheck : ∀ r r', check r = some r' → r' = r) : Gives h ptr n P (answer.bind check) := by
  intro h' q hanswer
  obtain ⟨r, hr, hr'⟩ := Option.bind_eq_some_iff.mp hanswer
  rw [← hcheck r _ hr'] at hr
  exact hgives h' q hr

theorem gives_allocate (hl : Layout h) (alignment : ℕ) :
    Gives h 0 n (ProducedBy a) (some (h.allocate a n alignment choice)) := by
  cases choice with
  | none => exact gives_null (List.Sublist.refl _)
  | some c =>
      rw [Heap.allocate]
      split_ifs with hfit
      · intro h' q hanswer
        cases hanswer
        refine Or.inr ⟨⟨c.addr, c.size, a, c.fromPrimary⟩, rfl, ?_⟩
        obtain ⟨haddr, hsize, hle, -, hall⟩ := hfit
        refine ⟨⟨h.blocks, rfl, List.Sublist.refl _⟩, ⟨haddr, hsize⟩, rfl, hle,
          List.all_eq_true.mp hall, ?_, ?_⟩
        · intro x hx
          exact if_neg (by simp only at hx; omega)
        · intro d hd hzero
          have hpos := (hl.placed d hd).1
          omega
      · exact gives_null (List.Sublist.refl _)

theorem Granted.memsetZero (hg : Granted h 0 n P h' b) (hl : Layout h) :
    Granted h 0 n P (h'.memsetZero b.addr n) b := by
  refine ⟨hg.rest, hg.placed, hg.made, hg.size, hg.apart, ?_, ?_⟩
  · intro x hx
    have hsize := hg.size
    rw [← hg.frame x hx]
    exact if_neg (by omega)
  · intro c hc hzero
    have hpos := (hl.placed c hc).1
    omega

/-- The common part of a block is copied to the new one before the old one is given back. -/
theorem Granted.move (hg : Granted h 0 n P h' b) (hl : Layout h) (hc : c ∈ h.blocks) :
    Granted h c.addr n P
      ((h'.memcpy b.addr c.addr (min n (h.getActuallyAllocatedSize c.addr))).deallocate c.addr)
      b := by
  have hsize := hg.size
  have hapart := apart_iff.mp (hg.apart c hc)
  have hpos := (hl.placed c hc).2
  have hne : b.addr ≠ c.addr := apart_addr_ne (hg.apart c hc) hg.placed.2 hpos
  obtain ⟨rest, hblocks, hsub⟩ := hg.rest
  rw [hl.getActuallyAllocatedSize hc]
  refine ⟨⟨rest.filter fun d => d.addr ≠ c.addr, ?_, List.filter_sublist.trans hsub⟩, hg.placed,
    hg.made, hg.size, hg.apart, ?_, ?_⟩
  · rw [Heap.deallocate, Heap.memcpy, hblocks]
    simp [hne]
  · intro x hx
    rw [← hg.frame x hx]
    exact if_neg (by omega)
  · intro d hd haddr i hi
    cases hl.eq_of_addr hd hc haddr
    have hcopied : ((h'.memcpy b.addr c.addr (min n c.size)).deallocate c.addr).mem (b.addr + i) =
        h'.mem (c.addr + (b.addr + i - b.addr)) := if_pos (by omega)
    rw [hcopied, Nat.add_sub_cancel_left]
    exact hg.frame _ (by omega)

theorem Gives.made (hgives : Gives h ptr n (ProducedBy a) answer) (ha : a ≠ .dlsym) :
    Gives h ptr n (Made a) answer := by
  intro h' q hanswer
  rcases hgives h' q hanswer with hnull | ⟨b, hb, hg⟩
  · exact Or.inl hnull
  · exact Or.inr ⟨b, hb, hg.rest, hg.placed, ⟨hg.made, fun hdlsym => absurd hdlsym ha⟩, hg.size,
      hg.apart, hg.frame, hg.kept⟩

/-! ## The allocators -/

theorem eq_of_dieOnNull (r r' : Heap × ℕ) (hr : dieOnNull r = some r') : r' = r := by
  rw [dieOnNull] at hr
  split_ifs at hr
  exact (Option.some_inj.mp hr).symm

theorem eq_of_checkFromPrimary (r r' : Heap × ℕ)
    (hr : DlSymAllocator.checkFromPrimary r = some r') : r' = r := by
  rw [DlSymAllocator.checkFromPrimary] at hr
  split_ifs at hr
  exact (Option.some_inj.mp hr).symm

theorem eq_of_onBadRequest (settings : Settings) (r r' : Heap × ℕ)
    (hr : onBadRequest settings r = some r') : r' = r := by
  rw [onBadRequest] at hr
  split_ifs at hr
  exact (Option.some_inj.mp hr).symm

theorem le_atLeastOne (n : ℕ) : n ≤ atLeastOne n := by
  rw [atLeastOne]
  split_ifs
  · omega
  · exact Nat.le_refl n

/-- What is done with a new block. -/
theorem Gives.map (hgives : Gives h 0 n P answer) {f : Heap × ℕ → Heap × ℕ}
    (hnull : ∀ h', h'.blocks.Sublist h.blocks →
      (f (h', 0)).2 = 0 ∧ (f (h', 0)).1.blocks.Sublist h.blocks)
    (hnew : ∀ h' b, Granted h 0 n P h' b →
      (f (h', b.addr)).2 = b.addr ∧ Granted h ptr n P (f (h', b.addr)).1 b) :
    Gives h ptr n P (answer.map f) := by
  intro h' q hanswer
  obtain ⟨⟨h₁, q₁⟩, hr, heq⟩ := Option.map_eq_some_iff.mp hanswer
  rcases hgives h₁ q₁ hr with ⟨rfl, hsub⟩ | ⟨b, rfl, hg⟩
  · have hboth := hnull h₁ hsub
    rw [heq] at hboth
    exact Or.inl hboth
  · obtain ⟨haddr, hg'⟩ := hnew h₁ b hg
    rw [heq] at haddr hg'
    exact Or.inr ⟨b, haddr.symm, hg'⟩

theorem Granted.addr_ne_zero (hg : Granted h ptr n P h' b) : b.addr ≠ 0 := Nat.ne_of_gt hg.placed.1

theorem gives_combinedAllocate (hl : Layout h) (alignment : ℕ) :
    Gives h 0 n (ProducedBy a) (combinedAllocate h a n alignment choice) := by
  rw [combinedAllocate]
  split_ifs
  · exact gives_null (List.Sublist.refl _)
  · exact gives_none
  · exact (gives_allocate hl alignment).mono (le_atLeastOne n)

theorem gives_internalAlloc (hl : Layout h) (alignment : ℕ) :
    Gives h 0 n (ProducedBy a) (internalAlloc h a n alignment choice) :=
  (gives_combinedAllocate hl _).bind eq_of_dieOnNull

theorem gives_internalCalloc (hl : Layout h) {count size : ℕ} :
    Gives h 0 (count * size) (ProducedBy a) (internalCalloc h a count size choice) := by
  rw [internalCalloc]
  split_ifs
  · exact gives_none
  · apply (gives_internalAlloc hl 0).map
    · intro h' hsub
      exact ⟨rfl, hsub⟩
    · intro h' b hg
      exact ⟨rfl, hg.memsetZero hl⟩

theorem gives_combinedReallocate (hl : Layout h) (hptr : IsBlock h ptr) (alignment : ℕ) :
    Gives h ptr n (ProducedBy .internal) (combinedReallocate h ptr n alignment choice) := by
  rw [combinedReallocate]
  rcases hptr with rfl | ⟨c, hc, rfl⟩
  · rw [if_pos rfl]
    exact gives_combinedAllocate hl alignment
  · have hpos := (hl.placed c hc).1
    rw [if_neg (by omega)]
    split_ifs
    · exact gives_null List.filter_sublist
    · apply (gives_combinedAllocate hl alignment).map
      · intro h' hsub
        exact ⟨rfl, List.filter_sublist.trans hsub⟩
      · intro h' b hg
        simp only [if_pos hg.addr_ne_zero]
        exact ⟨trivial, hg.move hl hc⟩

theorem gives_internalRealloc (hl : Layout h) (hptr : IsBlock h ptr) :
    Gives h ptr n (ProducedBy .internal) (internalRealloc h ptr n choice) :=
  (gives_combinedReallocate hl hptr 8).bind eq_of_dieOnNull

theorem gives_internalReallocArray (hl : Layout h) (hptr : IsBlock h ptr) {count size : ℕ} :
    Gives h ptr (count * size) (ProducedBy .internal)
      (internalReallocArray h ptr count size choice) := by
  rw [internalReallocArray]
  split_ifs
  · exact gives_none
  · exact gives_internalRealloc hl hptr

theorem Granted.layout (hg : Granted h ptr n P h' b) (hl : Layout h) : Layout h' := by
  obtain ⟨rest, hblocks, hsub⟩ := hg.rest
  constructor
  · intro c hc
    rw [hblocks, List.mem_cons] at hc
    cases hc with
    | inl heq =>
        rw [heq]
        exact hg.placed
    | inr hmem => exact hl.placed c (hsub.subset hmem)
  · rw [hblocks, List.pairwise_cons]
    refine ⟨?_, hl.apart.sublist hsub⟩
    intro c hc
    exact hg.apart c (hsub.subset hc)

theorem Granted.mem (hg : Granted h ptr n P h' b) : b ∈ h'.blocks := by
  obtain ⟨rest, hblocks, -⟩ := hg.rest
  rw [hblocks]
  exact List.mem_cons_self

/-- A block for `dlsym` lies in the primary part of the internal allocator. -/
theorem Gives.checkFromPrimary (hgives : Gives h 0 n (ProducedBy .dlsym) answer) (hl : Layout h) :
    Gives h 0 n (Made .dlsym) (answer.bind DlSymAllocator.checkFromPrimary) := by
  intro h' q hanswer
  obtain ⟨r, hr, hchecked⟩ := Option.bind_eq_some_iff.mp hanswer
  have heq := eq_of_checkFromPrimary r _ hchecked
  rw [← heq] at hr hchecked
  rcases hgives h' q hr with hnull | ⟨b, rfl, hg⟩
  · exact Or.inl hnull
  · refine Or.inr ⟨b, rfl, hg.rest, hg.placed, ⟨hg.made, ?_⟩, hg.size, hg.apart, hg.frame, hg.kept⟩
    intro _
    rw [DlSymAllocator.checkFromPrimary] at hchecked
    split_ifs at hchecked with hmine
    exact (((hg.layout hl).pointerIsMine_iff hg.mem).mp hmine).2

theorem gives_dlsymAllocate (hl : Layout h) :
    Gives h 0 n (Made .dlsym) (DlSymAllocator.allocate h n choice) :=
  (gives_internalAlloc hl 8).checkFromPrimary hl

theorem gives_dlsymCallocate (hl : Layout h) {nmemb size : ℕ} :
    Gives h 0 (nmemb * size) (Made .dlsym) (DlSymAllocator.callocate h nmemb size choice) :=
  (gives_internalCalloc hl).checkFromPrimary hl

theorem gives_dlsymRealloc (hl : Layout h) (hptr : IsBlock h ptr) :
    Gives h ptr n (Made .dlsym) (DlSymAllocator.realloc h ptr n choice) := by
  rw [DlSymAllocator.realloc]
  rcases hptr with rfl | ⟨c, hc, rfl⟩
  · rw [if_pos rfl]
    exact gives_dlsymAllocate hl
  · have hpos := (hl.placed c hc).1
    rw [if_neg (by omega)]
    split_ifs
    · exact gives_none
    · exact gives_null List.filter_sublist
    · apply (gives_dlsymAllocate hl).map
      · intro h' hsub
        exact ⟨rfl, List.filter_sublist.trans hsub⟩
      · intro h' b hg
        exact ⟨rfl, hg.move hl hc⟩

theorem gives_onBadRequest : Gives h ptr n P (onBadRequest settings (h, 0)) := by
  intro h' q hanswer
  cases eq_of_onBadRequest settings _ _ hanswer
  exact Or.inl ⟨rfl, List.Sublist.refl _⟩

theorem gives_unless {bad : Bool} (hgives : Gives h ptr n P answer) :
    Gives h ptr n P (if bad = true then onBadRequest settings (h, 0) else answer) := by
  split_ifs
  · exact gives_onBadRequest
  · exact hgives

theorem gives_xsanAllocate (hl : Layout h) (alignment : ℕ) :
    Gives h 0 n (ProducedBy .xsan) (xsanAllocate settings h n alignment choice) :=
  ((gives_allocate hl (max alignment 8)).mono (le_atLeastOne n)).bind (eq_of_onBadRequest settings)

theorem gives_xsanCalloc (hl : Layout h) {nmemb size : ℕ} :
    Gives h 0 (nmemb * size) (ProducedBy .xsan) (xsanCalloc settings h nmemb size choice) := by
  apply gives_unless
  apply (gives_xsanAllocate hl 8).map
  · intro h' hsub
    exact ⟨rfl, hsub⟩
  · intro h' b hg
    simp only [if_pos hg.addr_ne_zero]
    exact ⟨trivial, hg.memsetZero hl⟩

theorem gives_xsanRealloc (hl : Layout h) (hptr : IsBlock h ptr) :
    Gives h ptr n (ProducedBy .xsan) (xsanRealloc settings h ptr n choice) := by
  rw [xsanRealloc]
  rcases hptr with rfl | ⟨c, hc, rfl⟩
  · rw [if_pos rfl]
    exact gives_xsanAllocate hl 8
  · have hpos := (hl.placed c hc).1
    rw [if_neg (by omega)]
    split_ifs
    · exact gives_null List.filter_sublist
    · refine Gives.mono ?_ (le_atLeastOne n)
      apply (gives_xsanAllocate hl 8).map
      · intro h' hsub
        exact ⟨rfl, hsub⟩
      · intro h' b hg
        simp only [if_pos hg.addr_ne_zero]
        exact ⟨trivial, hg.move hl hc⟩

theorem gives_xsanReallocarray (hl : Layout h) (hptr : IsBlock h ptr) {nmemb size : ℕ} :
    Gives h ptr (nmemb * size) (ProducedBy .xsan)
      (xsanReallocarray settings h ptr nmemb size choice) :=
  gives_unless (gives_xsanRealloc hl hptr)

theorem gives_xsanMemalign (hl : Layout h) (alignment : ℕ) :
    Gives h 0 n (ProducedBy .xsan) (xsanMemalign settings h alignment n choice) :=
  gives_unless (gives_xsanAllocate hl alignment)

theorem gives_xsanAlignedAlloc (hl : Layout h) (alignment : ℕ) :
    Gives h 0 n (ProducedBy .xsan) (xsanAlignedAlloc settings h alignment n choice) :=
  gives_unless (gives_xsanAllocate hl alignment)

theorem gives_xsanPosixMemalign (hl : Layout h) (alignment : ℕ) :
    Gives h 0 n (ProducedBy .xsan) (xsanPosixMemalign settings h alignment n choice) :=
  gives_unless (gives_xsanAllocate hl alignment)

theorem le_roundedUp {pageSize : ℕ} (hfit : checkForPvallocOverflow n pageSize = false) :
    n ≤ if n ≠ 0 then roundUpTo n pageSize else pageSize := by
  rw [checkForPvallocOverflow, decide_eq_false_iff_not, Nat.not_lt] at hfit
  split_ifs with hzero
  · exact hfit
  · omega

theorem gives_xsanPvalloc (hl : Layout h) :
    Gives h 0 n (ProducedBy .xsan) (xsanPvalloc settings h n choice) := by
  cases hfit : checkForPvallocOverflow n settings.pageSize with
  | true =>
      rw [xsanPvalloc, hfit, if_pos rfl]
      exact gives_onBadRequest
  | false =>
      rw [xsanPvalloc, hfit]
      exact (gives_xsanAllocate hl _).mono (le_roundedUp hfit)

theorem zeroed_memsetZero (h : Heap) {dst i : ℕ} (hi : i < n) :
    (h.memsetZero dst n).mem (dst + i) = 0 :=
  if_pos (by omega)

theorem zeroed_internalCalloc {count size q i : ℕ}
    (hanswer : internalCalloc h a count size choice = some (h', q)) (hi : i < count * size) :
    h'.mem (q + i) = 0 := by
  rw [internalCalloc] at hanswer
  split_ifs at hanswer
  obtain ⟨r, -, heq⟩ := Option.map_eq_some_iff.mp hanswer
  cases heq
  exact zeroed_memsetZero r.1 hi

theorem zeroed_dlsymCallocate {nmemb size q i : ℕ}
    (hanswer : DlSymAllocator.callocate h nmemb size choice = some (h', q))
    (hi : i < nmemb * size) : h'.mem (q + i) = 0 := by
  obtain ⟨r, hr, hchecked⟩ := Option.bind_eq_some_iff.mp hanswer
  rw [← eq_of_checkFromPrimary r _ hchecked] at hr
  exact zeroed_internalCalloc hr hi

theorem zeroed_xsanCalloc {nmemb size q i : ℕ}
    (hanswer : xsanCalloc settings h nmemb size choice = some (h', q)) (hq : q ≠ 0)
    (hi : i < nmemb * size) : h'.mem (q + i) = 0 := by
  rw [xsanCalloc] at hanswer
  split_ifs at hanswer
  · cases eq_of_onBadRequest settings _ _ hanswer
    exact absurd rfl hq
  · obtain ⟨r, -, heq⟩ := Option.map_eq_some_iff.mp hanswer
    split_ifs at heq with hr
    · cases heq
      exact zeroed_memsetZero r.1 hi
    · rw [heq] at hr
      exact absurd hq hr

end Blocks

/-! ## Calls -/

/-- A call served by the allocator `a`. -/
structure Serves (h : Heap) (call : Call) (a : Allocator) (o : Outcome) : Prop where
  gives : Gives h call.operand call.requested (Made a) o.answer
  handed : ∀ a' ptr, o.handed = some (a', ptr) → a' = a ∧ ptr = call.operand
  zeroed : ∀ nmemb size, call = .calloc nmemb size → ∀ h' q, o.answer = some (h', q) → q ≠ 0 →
    ∀ i < nmemb * size, h'.mem (q + i) = 0

section Calls

variable {settings : Settings} {h : Heap} {call : Call} {a : Allocator} {o : Outcome}
  {mode : Mode} {choice : Option Chunk} {answer : Answer} {ptr : ℕ}

theorem serves_fresh (hcall : ∀ nmemb size, call ≠ .calloc nmemb size)
    (hgives : Gives h call.operand call.requested (Made a) answer) :
    Serves h call a (fresh answer) := by
  refine ⟨hgives, ?_, ?_⟩
  · intro a' ptr hhanded
    cases hhanded
  · intro nmemb size heq
    exact absurd heq (hcall nmemb size)

theorem serves_handTo (hcall : ∀ nmemb size, call ≠ .calloc nmemb size)
    (hgives : Gives h call.operand call.requested (Made a) answer) :
    Serves h call a (handTo a call.operand answer) := by
  refine ⟨hgives, ?_, ?_⟩
  · intro a' ptr hhanded
    rw [handTo] at hhanded
    split_ifs at hhanded
    cases hhanded
    exact ⟨rfl, rfl⟩
  · intro nmemb size heq
    exact absurd heq (hcall nmemb size)

theorem serves_calloc {nmemb size : ℕ} (hgives : Gives h 0 (nmemb * size) (Made a) answer)
    (hzeroed : ∀ h' q i, answer = some (h', q) → q ≠ 0 → i < nmemb * size → h'.mem (q + i) = 0) :
    Serves h (.calloc nmemb size) a (fresh answer) := by
  refine ⟨hgives, ?_, ?_⟩
  · intro a' ptr hhanded
    cases hhanded
  · intro nmemb' size' heq h' q hanswer hq i hi
    cases heq
    exact hzeroed h' q i hanswer hq hi

theorem mul_le_square {nmemb size : ℕ} (hle : nmemb ≤ size ∨ size = 0) :
    nmemb * size ≤ size * size := by
  rcases hle with hle | rfl
  · exact Nat.mul_le_mul_right size hle
  · exact Nat.le_refl _

theorem internal_ne_dlsym : Allocator.internal ≠ .dlsym := by decide

theorem xsan_ne_dlsym : Allocator.xsan ≠ .dlsym := by decide

/-- Inside the symbolizer. -/
theorem serves_symbolizer (hl : Layout h) (hptr : IsBlock h call.operand)
    (hmemalign : call.isMemalign = false) (hsize : call.SizeServed settings) :
    Serves h call .internal (call.outcome settings h .symbolizer choice) := by
  cases call with
  | malloc size =>
      rw [Call.outcome, malloc, if_pos rfl]
      exact serves_fresh (by simp) ((gives_internalAlloc hl 0).made internal_ne_dlsym)
  | calloc nmemb size =>
      rw [Call.outcome, calloc, if_pos rfl]
      have hle := mul_le_square hsize
      apply serves_calloc
      · exact ((gives_internalCalloc hl).mono hle).made internal_ne_dlsym
      · intro h' q i hanswer _ hi
        exact zeroed_internalCalloc hanswer (by omega)
  | realloc ptr size =>
      rw [Call.outcome, realloc, if_pos rfl]
      exact serves_handTo (by simp) ((gives_internalRealloc hl hptr).made internal_ne_dlsym)
  | reallocarray ptr nmemb size =>
      rw [Call.outcome, reallocarray, if_pos rfl]
      have hle := mul_le_square hsize
      exact serves_handTo (by simp)
        (((gives_internalReallocArray hl hptr).mono hle).made internal_ne_dlsym)
  | memalign boundary size => cases hmemalign
  | libcMemalign boundary size => cases hmemalign
  | alignedAlloc boundary size =>
      rw [Call.outcome, alignedAlloc, if_pos rfl]
      exact serves_fresh (by simp) ((gives_internalAlloc hl boundary).made internal_ne_dlsym)
  | posixMemalign alignment size =>
      rw [Call.outcome, posixMemalign, if_pos rfl]
      exact serves_fresh (by simp) ((gives_internalAlloc hl alignment).made internal_ne_dlsym)
  | valloc size =>
      rw [Call.outcome, valloc, if_pos rfl]
      exact serves_fresh (by simp) ((gives_internalAlloc hl _).made internal_ne_dlsym)
  | pvalloc size =>
      rw [Call.outcome, pvalloc, if_pos rfl]
      exact serves_fresh (by simp)
        (((gives_internalAlloc hl _).mono (le_roundedUp hsize)).made internal_ne_dlsym)
  | free ptr =>
      rw [Call.outcome, free]
      by_cases hzero : ptr = 0
      · rw [if_pos hzero]
        exact serves_fresh (by simp) (gives_null (List.Sublist.refl _))
      · rw [if_neg hzero, if_pos rfl]
        exact serves_handTo (by simp) (gives_null List.filter_sublist)

theorem serves_memalign (hl : Layout h) (hmemalign : call.isMemalign = true) :
    Serves h call .xsan (call.outcome settings h mode choice) := by
  cases call with
  | memalign boundary size =>
      exact serves_fresh (by simp) ((gives_xsanMemalign hl boundary).made xsan_ne_dlsym)
  | libcMemalign boundary size =>
      exact serves_fresh (by simp) ((gives_xsanMemalign hl boundary).made xsan_ne_dlsym)
  | _ => cases hmemalign

theorem operand_of_isMemalign (hmemalign : call.isMemalign = true) : call.operand = 0 := by
  cases call with
  | memalign boundary size => rfl
  | libcMemalign boundary size => rfl
  | _ => cases hmemalign

/-- The allocator outside the symbolizer is that of the operand, if it has one. -/
structure ServesOutside (h : Heap) (call : Call) (o : Outcome) (a : Allocator) : Prop where
  serves : Serves h call a o
  outside : a ≠ .internal
  routed : ∀ b ∈ h.blocks, b.addr = call.operand →
    (h.pointerIsMine call.operand = true ↔ a = .dlsym)

theorem serves_outside_fresh (hl : Layout h) (hserves : Serves h call a o) (ha : a ≠ .internal)
    (hoperand : call.operand = 0) : ServesOutside h call o a := by
  refine ⟨hserves, ha, ?_⟩
  intro b hb haddr
  have hpos := (hl.placed b hb).1
  omega

theorem serves_outside (hl : Layout h) (hptr : IsBlock h call.operand) (hmode : mode ≠ .symbolizer)
    (hrealloc : ∀ ptr size, call = .realloc ptr size → mode = .uninitialised →
      ptr = 0 ∨ h.pointerIsMine ptr = true)
    (hreallocarray : ∀ ptr nmemb size, call = .reallocarray ptr nmemb size →
      h.pointerIsMine ptr = false) :
    ∃ a, ServesOutside h call (call.outcome settings h mode choice) a := by
  cases call with
  | malloc size =>
      rw [Call.outcome, malloc, if_neg hmode]
      split_ifs
      · exact ⟨.dlsym, serves_outside_fresh hl (serves_fresh (by simp) (gives_dlsymAllocate hl))
          (by decide) rfl⟩
      · exact ⟨.xsan, serves_outside_fresh hl (serves_fresh (by simp)
          ((gives_xsanAllocate hl 8).made xsan_ne_dlsym)) (by decide) rfl⟩
  | calloc nmemb size =>
      rw [Call.outcome, calloc, if_neg hmode]
      split_ifs
      · refine ⟨.dlsym, serves_outside_fresh hl (serves_calloc (gives_dlsymCallocate hl) ?_)
          (by decide) rfl⟩
        intro h' q i hanswer _ hi
        exact zeroed_dlsymCallocate hanswer hi
      · refine ⟨.xsan, serves_outside_fresh hl
          (serves_calloc ((gives_xsanCalloc hl).made xsan_ne_dlsym) ?_) (by decide) rfl⟩
        intro h' q i hanswer hq hi
        exact zeroed_xsanCalloc hanswer hq hi
  | realloc ptr size =>
      rw [Call.outcome, realloc, if_neg hmode]
      split_ifs with hdlsym
      · refine ⟨.dlsym, serves_handTo (by simp) (gives_dlsymRealloc hl hptr), by decide, ?_⟩
        intro b hb haddr
        have hpos := (hl.placed b hb).1
        simp only [iff_true]
        rw [Bool.or_eq_true, decide_eq_true_eq] at hdlsym
        rcases hdlsym with huninit | hmine
        · rcases hrealloc ptr size rfl huninit with hzero | hmine
          · exact absurd (haddr.trans hzero) (by omega)
          · exact hmine
        · exact hmine
      · refine ⟨.xsan, serves_handTo (by simp) ((gives_xsanRealloc hl hptr).made xsan_ne_dlsym),
          by decide, ?_⟩
        intro b hb haddr
        rw [Bool.or_eq_true, not_or] at hdlsym
        simp [Call.operand, hdlsym.2]
  | reallocarray ptr nmemb size =>
      rw [Call.outcome, reallocarray, if_neg hmode]
      refine ⟨.xsan, serves_handTo (by simp) ((gives_xsanReallocarray hl hptr).made xsan_ne_dlsym),
        by decide, ?_⟩
      intro b hb haddr
      simp [Call.operand, hreallocarray ptr nmemb size rfl]
  | memalign boundary size =>
      exact ⟨.xsan, serves_outside_fresh hl (serves_memalign hl rfl) (by decide) rfl⟩
  | libcMemalign boundary size =>
      exact ⟨.xsan, serves_outside_fresh hl (serves_memalign hl rfl) (by decide) rfl⟩
  | alignedAlloc boundary size =>
      rw [Call.outcome, alignedAlloc, if_neg hmode]
      exact ⟨.xsan, serves_outside_fresh hl (serves_fresh (by simp)
        ((gives_xsanAlignedAlloc hl boundary).made xsan_ne_dlsym)) (by decide) rfl⟩
  | posixMemalign alignment size =>
      rw [Call.outcome, posixMemalign, if_neg hmode]
      exact ⟨.xsan, serves_outside_fresh hl (serves_fresh (by simp)
        ((gives_xsanPosixMemalign hl alignment).made xsan_ne_dlsym)) (by decide) rfl⟩
  | valloc size =>
      rw [Call.outcome, valloc, if_neg hmode]
      exact ⟨.xsan, serves_outside_fresh hl (serves_fresh (by simp)
        ((gives_xsanAllocate hl settings.pageSize).made xsan_ne_dlsym)) (by decide) rfl⟩
  | pvalloc size =>
      rw [Call.outcome, pvalloc, if_neg hmode]
      exact ⟨.xsan, serves_outside_fresh hl (serves_fresh (by simp)
        ((gives_xsanPvalloc hl).made xsan_ne_dlsym)) (by decide) rfl⟩
  | free ptr =>
      rw [Call.outcome, free, if_neg hmode]
      split_ifs with hzero hmine
      · exact ⟨.xsan, serves_outside_fresh hl
          (serves_fresh (by simp) (gives_null (List.Sublist.refl _))) (by decide) hzero⟩
      · refine ⟨.dlsym, serves_handTo (by simp) (gives_null List.filter_sublist), by decide, ?_⟩
        intro b hb haddr
        simp [Call.operand, hmine]
      · refine ⟨.xsan, serves_handTo (by simp) (gives_null List.filter_sublist), by decide, ?_⟩
        intro b hb haddr
        simp [Call.operand, hmine]

end Calls

/-! ## Runs -/

/-- Which allocators a pointer can come from. -/
def Source.Allows (s : Source) (b : Block) : Prop :=
  if s.insideSymbolizer = true then s.fromMemalign = true ∨ b.producer = .internal
  else ∃ a, a ≠ .internal ∧ Made a b

structure Sound (p : Program) : Prop where
  layout : Layout p.heap
  source : ∀ b ∈ p.heap.blocks, (p.source b.addr).Allows b

section Runs

variable {settings : Settings} {p p' : Program} {mode : Mode} {call : Call} {a : Allocator}
  {choice : Option Chunk} {events : List Event} {obs : List Observation}

/-- Each call is served by the allocator of its operand. -/
theorem Sound.serves (hp : Sound p) (hpermitted : Permitted p (.call mode call choice))
    (hserved : Served settings p (.call mode call choice)) :
    ∃ a, Serves p.heap call a (call.outcome settings p.heap mode choice) ∧
      (∀ b ∈ p.heap.blocks, b.addr = call.operand → b.producer = a) ∧
        ∀ b, Made a b → Source.Allows ⟨mode = .symbolizer, call.isMemalign⟩ b := by
  have hptr : IsBlock p.heap call.operand := hpermitted.imp_right And.left
  have hinside : ∀ b ∈ p.heap.blocks, b.addr = call.operand →
      (p.source b.addr).insideSymbolizer = decide (mode = .symbolizer) := by
    intro b hb haddr
    have hpos := (hp.layout.placed b hb).1
    rcases hpermitted with hzero | hblock
    · exact absurd (haddr.trans hzero) (by omega)
    · rw [haddr]
      exact hblock.2
  by_cases hmode : mode = .symbolizer
  · subst hmode
    cases hmemalign : call.isMemalign with
    | false =>
        refine ⟨.internal, serves_symbolizer hp.layout hptr hmemalign hserved.2, ?_, ?_⟩
        · intro b hb haddr
          have hpos := (hp.layout.placed b hb).1
          have hfrom := hserved.1 (by omega)
          have hallows := hp.source b hb
          rw [Source.Allows, if_pos (by simpa using hinside b hb haddr), haddr, hfrom] at hallows
          exact hallows.resolve_left (by decide)
        · intro b hmade
          exact Or.inr hmade.1
    | true =>
        refine ⟨.xsan, serves_memalign hp.layout hmemalign, ?_, ?_⟩
        · intro b hb haddr
          have hpos := (hp.layout.placed b hb).1
          rw [operand_of_isMemalign hmemalign] at haddr
          omega
        · intro b _
          exact Or.inl rfl
  · obtain ⟨a, hserves⟩ := @serves_outside settings p.heap call mode choice hp.layout hptr hmode
      (by
        intro ptr size hcall huninit
        subst hcall huninit
        exact hserved)
      (by
        intro ptr nmemb size hcall
        subst hcall
        cases mode with
        | symbolizer => exact absurd rfl hmode
        | uninitialised => exact hserved
        | normal => exact hserved)
    refine ⟨a, hserves.serves, ?_, ?_⟩
    · intro b hb haddr
      have hallows := hp.source b hb
      rw [Source.Allows, if_neg (by simpa [hinside b hb haddr] using hmode)] at hallows
      obtain ⟨a', ha', hmade⟩ := hallows
      have hroute := hserves.routed b hb haddr
      rw [← haddr, hp.layout.pointerIsMine_iff hb, hmade.1] at hroute
      rw [hmade.1]
      cases a' with
      | internal => exact absurd rfl ha'
      | dlsym => exact (hroute.mp ⟨by decide, hmade.2 rfl⟩).symm
      | xsan =>
          cases a with
          | internal => exact absurd rfl hserves.outside
          | dlsym => exact absurd rfl (hroute.mpr rfl).1
          | xsan => rfl
    · intro b hmade
      rw [Source.Allows, if_neg (by simpa using hmode)]
      exact ⟨a, hserves.outside, hmade⟩

theorem contract_of_serves {h : Heap} {o : Outcome} (hserves : Serves h call a o)
    (hrouted : ∀ b ∈ h.blocks, b.addr = call.operand → b.producer = a) : Contract h call o := by
  constructor
  · intro a' ptr hhanded b hb haddr
    obtain ⟨rfl, rfl⟩ := hserves.handed a' ptr hhanded
    exact hrouted b hb haddr
  · intro h' q hanswer hq
    rcases hserves.gives h' q hanswer with hnull | ⟨b, hb, hg⟩
    · exact absurd hnull.1 hq
    · exact ⟨b, hg.mem, hb, hg.size⟩
  · exact hserves.zeroed
  · intro h' q hanswer hq b hb haddr i hi
    rcases hserves.gives h' q hanswer with hnull | ⟨c, hc, hg⟩
    · exact absurd hnull.1 hq
    · rw [haddr, ← hc]
      exact hg.kept b hb haddr i hi

theorem Sound.stepCall (hp : Sound p) (hpermitted : Permitted p (.call mode call choice))
    (hserved : Served settings p (.call mode call choice))
    (hstep : step settings p (.call mode call choice) = some (p', obs)) :
    Sound p' ∧ ∀ o ∈ obs, o.Good := by
  obtain ⟨a, hserves, hrouted, hallows⟩ := hp.serves hpermitted hserved
  rw [step] at hstep
  split_ifs at hstep
  rw [Option.some.injEq, Prod.mk.injEq] at hstep
  obtain ⟨rfl, rfl⟩ := hstep
  constructor
  · cases hanswer : (call.outcome settings p.heap mode choice).answer with
    | none => exact ⟨hp.layout, hp.source⟩
    | some r =>
        obtain ⟨h', q⟩ := r
        rcases hserves.gives h' q hanswer with ⟨rfl, hsub⟩ | ⟨b, rfl, hg⟩
        · have hlayout : Layout h' :=
            ⟨fun b hb => hp.layout.placed b (hsub.subset hb), hp.layout.apart.sublist hsub⟩
          refine ⟨hlayout, ?_⟩
          intro b hb
          have hpos := (hlayout.placed b hb).1
          simp only [if_neg (Nat.ne_of_gt hpos)]
          exact hp.source b (hsub.subset hb)
        · refine ⟨hg.layout hp.layout, ?_⟩
          intro c hc
          obtain ⟨rest, hblocks, hsub⟩ := hg.rest
          simp only [hblocks, List.mem_cons] at hc
          rcases hc with rfl | hc
          · simp only [if_pos]
            exact hallows c hg.made
          · have hmem := hsub.subset hc
            have hne := apart_addr_ne (hg.apart c hmem) hg.placed.2 (hp.layout.placed c hmem).2
            simp only [if_neg (Ne.symm hne)]
            exact hp.source c hmem
  · intro o ho
    rw [List.mem_singleton] at ho
    rw [ho]
    exact contract_of_serves hserves hrouted

theorem Sound.step {e : Event} (hp : Sound p) (hpermitted : Permitted p e)
    (hserved : Served settings p e) (hstep : step settings p e = some (p', obs)) :
    Sound p' ∧ ∀ o ∈ obs, o.Good := by
  cases e with
  | call mode call choice => exact hp.stepCall hpermitted hserved hstep
  | write mem =>
      rw [Malloc.step] at hstep
      split_ifs at hstep
      cases hstep
      exact ⟨⟨⟨hp.layout.placed, hp.layout.apart⟩, hp.source⟩, by simp⟩

theorem sound_initialProgram : Sound initialProgram :=
  ⟨⟨fun _ hb => absurd hb List.not_mem_nil, List.Pairwise.nil⟩,
    fun _ hb => absurd hb List.not_mem_nil⟩

/-- In every sequence of calls that uses its pointers as it may, and of which the interceptors get
no size and no pointer wrong, every call keeps its contract. -/
theorem run_contract (hpermitted : Runs.Meets (step settings) Permitted initialProgram events)
    (hserved : Runs.Meets (step settings) (Served settings) initialProgram events)
    (hrun : Runs.run (step settings) initialProgram events = some (p', obs)) :
    ∀ o ∈ obs, o.Good := by
  refine (Runs.run_meets ?_ sound_initialProgram (Runs.meets_and_iff.mpr ⟨hpermitted, hserved⟩)
    hrun).2
  intro p e p' obs hp hboth hstep
  exact hp.step hboth.1 hboth.2 hstep

end Runs

def pages : Settings := ⟨4096, false, true⟩

def smallChunk : Chunk := ⟨4096, 16, true, fun _ => 1⟩

/-- A block for `dlsym` is freed after the initialisation. -/
theorem run_contract_dlsym : ∃ p' obs,
    Runs.run (step pages) initialProgram
        [.call .uninitialised (.malloc 10) (some smallChunk), .call .normal (.free 4096) none] =
      some (p', obs) ∧ obs.length = 2 ∧ ∀ o ∈ obs, o.Good := by
  refine ⟨_, _, rfl, rfl, ?_⟩
  refine @run_contract pages _ [.call .uninitialised (.malloc 10) (some smallChunk),
    .call .normal (.free 4096) none] _ ?_ ?_ rfl
  · refine ⟨Or.inl rfl, ?_⟩
    intro p obs hstep
    cases hstep
    refine ⟨Or.inr ⟨⟨_, List.mem_cons_self, rfl⟩, rfl⟩, ?_⟩
    intro p obs _
    trivial
  · refine ⟨trivial, ?_⟩
    intro p obs hstep
    refine ⟨trivial, ?_⟩
    intro p obs _
    trivial

/-- Inside the symbolizer `calloc` of 64 times one byte asks for one byte. -/
theorem symbolizer_calloc_short :
    ¬∀ (settings : Settings) (events : List Event) (p' : Program) (obs : List Observation),
      Runs.Meets (step settings) Permitted initialProgram events →
        Runs.run (step settings) initialProgram events = some (p', obs) →
          ∀ o ∈ obs, o.Good := by
  intro h
  have hgood := h pages [.call .symbolizer (.calloc 64 1) (some smallChunk)] _ _
    ⟨Or.inl rfl, fun _ _ _ => trivial⟩ rfl _ List.mem_cons_self
  obtain ⟨b, hb, -, hsize⟩ := hgood.granted _ _ rfl (by decide)
  cases List.mem_singleton.mp hb
  exact absurd hsize (by decide)

end Mair.Malloc
