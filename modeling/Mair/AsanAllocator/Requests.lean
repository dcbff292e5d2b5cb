import Mair.AsanAllocator.Operations

/-! # What the requests to the allocator do to the uses of the blocks -/

namespace Mair.AsanAllocator

variable {s s' : Heap} {use : Block → Option Use} {b : Block} {u : Use}
  {a p ptr size : ℕ} {l : Live} {fill : ℕ → ChunkHeader} {options : Options}

/-! ## The layout of a user chunk -/

theorem le_roundUpTo_boundary (size : ℕ) {boundary : ℕ} (hpos : 0 < boundary) :
    size ≤ roundUpTo size boundary := by
  have hdiv := Nat.div_add_mod (size + boundary - 1) boundary
  have hmod := Nat.mod_lt (size + boundary - 1) hpos
  rw [roundUpTo, Nat.mul_comm]
  omega

theorem le_userBegin {allocBeg rzSize alignment : ℕ} (hpos : 0 < alignment) :
    allocBeg + rzSize ≤ userBegin allocBeg rzSize alignment := by
  rw [userBegin]
  split
  · exact Nat.le_refl _
  · exact le_roundUpTo_boundary _ hpos

theorem dvd_userBegin {allocBeg rzSize alignment : ℕ} (hbeg : 8 ∣ allocBeg) (hrz : 8 ∣ rzSize)
    (halignment : 8 ∣ alignment) : 8 ∣ userBegin allocBeg rzSize alignment := by
  rw [userBegin]
  split
  · exact Nat.dvd_add hbeg hrz
  · exact Nat.dvd_trans halignment (Nat.dvd_mul_left _ _)

theorem dvd_alignment (alignmentLog : ℕ) : 8 ∣ max (2 ^ alignmentLog) 8 := by
  rcases Nat.le_total 3 alignmentLog with hlog | hlog
  · have hdvd : 2 ^ 3 ∣ 2 ^ alignmentLog := Nat.pow_dvd_pow 2 hlog
    have hle : 8 ≤ 2 ^ alignmentLog := Nat.pow_le_pow_right (n := 2) (by decide) hlog
    rw [Nat.max_eq_left hle]
    exact hdvd
  · have hle : 2 ^ alignmentLog ≤ 8 := Nat.pow_le_pow_right (n := 2) (by decide) hlog
    exact ⟨1, Nat.max_eq_right hle⟩

theorem sixteen_le_rzLog2Size (rzLog : ℕ) : 16 ≤ rzLog2Size rzLog ∧ 8 ∣ rzLog2Size rzLog := by
  have hpos : 0 < 2 ^ rzLog := Nat.pow_pos (by decide)
  rw [rzLog2Size]
  exact ⟨by omega, by omega⟩

/-- Where the user memory lies in its block. -/
structure Layout (b : Block) (userBeg size : ℕ) : Prop where
  beg_le : b.beg + 16 ≤ userBeg
  size_pos : 0 < size
  le_end : userBeg + roundUpTo size 8 ≤ b.beg + b.size
  aligned : 8 ∣ userBeg

theorem Layout.of_fits {rzLog alignmentLog : ℕ} (hsize : 0 < size)
    (hend : userBegin b.beg (rzLog2Size rzLog) (max (2 ^ alignmentLog) 8) + size ≤
      b.beg + b.size) :
    Layout b (userBegin b.beg (rzLog2Size rzLog) (max (2 ^ alignmentLog) 8)) size := by
  have hrz := sixteen_le_rzLog2Size rzLog
  have hbeg : 8 ∣ b.beg := Nat.dvd_trans (by decide) b.beg_aligned
  have hsize16 : 8 ∣ b.size := Nat.dvd_trans (by decide) b.size_aligned
  have haligned := dvd_userBegin hbeg hrz.2 (dvd_alignment alignmentLog)
  have hle : b.beg + rzLog2Size rzLog ≤ _ :=
    
    le_userBegin (Nat.lt_of_lt_of_le (by decide) (Nat.le_max_right (2 ^ alignmentLog) 8))
  refine ⟨by omega, hsize, ?_, haligned⟩
  rw [roundUpTo]
  omega

theorem Layout.sameOutside_poisonChunk (h : Layout b ptr size) (hout : SameOutside b s s') :
    SameOutside b s (poisonChunk s' b ptr size) := by
  have hbeg := h.beg_le
  have hend := h.le_end
  have haligned := h.aligned
  rw [roundUpTo] at hend
  have hsides : SameOutside b s
      ((s'.poisonShadow b.beg (ptr - b.beg) .heapLeftRedzone).poisonShadow
        (roundUpTo (ptr + size) 8) (b.beg + b.size - roundUpTo (ptr + size) 8)
        .heapLeftRedzone) := by
    apply SameOutside.poisonShadow
    · exact hout.poisonShadow (Nat.le_refl _) (by omega)
    · rw [roundUpTo]
      omega
    · rw [roundUpTo]
      omega
  have huser {t : Heap} (ht : SameOutside b s t) :
      SameOutside b s (t.poisonShadow ptr (roundDownTo size 8) .addressable) := by
    apply ht.poisonShadow
    · omega
    · rw [roundDownTo]
      omega
  have hlast {t : Heap} (hne : size ≠ roundDownTo size 8) (ht : SameOutside b s t) :
      SameOutside b s (t.poisonShadow (ptr + roundDownTo size 8) 8 .firstBytes) := by
    rw [roundDownTo] at hne
    apply ht.poisonShadow
    · omega
    · rw [roundDownTo]
      omega
  rw [poisonChunk]
  by_cases hwhole : size = roundDownTo size 8
  · rw [if_pos hwhole]
    split
    · exact huser hsides
    · exact huser hout
  · rw [if_neg hwhole]
    split
    · exact hlast hwhole (huser hsides)
    · exact hlast hwhole (huser hout)

theorem Layout.shadow_poisonChunk (h : Layout b ptr size) :
    (poisonChunk s b ptr size).shadow ptr ≠ .internalHeap := by
  have hpos := h.size_pos
  rw [poisonChunk]
  by_cases hwhole : size = roundDownTo size 8
  · rw [if_pos hwhole, Heap.shadow_poisonShadow_of_mem (Nat.le_refl _) (by omega)]
    nofun
  · rw [if_neg hwhole]
    by_cases hsmall : roundDownTo size 8 = 0
    · rw [Heap.shadow_poisonShadow_of_mem (by omega) (by omega)]
      nofun
    · rw [Heap.shadow_poisonShadow_of_not_mem (by omega),
        Heap.shadow_poisonShadow_of_mem (Nat.le_refl _) (by omega)]
      nofun

theorem poisonChunk_eq (s : Heap) (b : Block) (ptr size : ℕ) :
    ∃ shadow, poisonChunk s b ptr size = { s with shadow := shadow } := by
  rw [poisonChunk]
  by_cases hwhole : size = roundDownTo size 8
  · rw [if_pos hwhole]
    split <;> exact ⟨_, rfl⟩
  · rw [if_neg hwhole]
    split <;> exact ⟨_, rfl⟩

/-! ## Allocation -/

theorem le_of_atLeastOne {n : ℕ} (hn : (if size = 0 then 1 else size) = n) : size ≤ n ∧ 0 < n := by
  rw [← hn]
  split <;> omega

namespace Represents

theorem allocateInternel (h : Represents s use)
    (hallocate : Mair.AsanAllocator.allocateInternel s size b = some (s', ptr)) :
    ∃ use', Represents s' use' ∧ ∃ l, use' b = some (.live l) ∧ l.ptr = ptr ∧ size ≤ l.size := by
  dsimp only [Mair.AsanAllocator.allocateInternel] at hallocate
  generalize hn : (if size = 0 then 1 else size) = n at hallocate
  split at hallocate
  case isTrue => cases hallocate
  case isFalse hfits =>
    obtain ⟨t, htake, heq⟩ := Option.map_eq_some_iff.mp hallocate
    cases heq
    have ht := h.take htake
    refine ⟨_, ht.handOut (l := ⟨b.beg, n, b, .internal⟩) (Function.update_self _ _ _) ?_
      ⟨rfl, ⟨rfl, Nat.le_of_not_lt hfits⟩, ?_⟩ rfl rfl rfl rfl rfl rfl, _,
      Function.update_self _ _ _, rfl, (le_of_atLeastOne hn).1⟩
    · have hout : SameOutside b t (t.poisonShadow b.beg b.size .internalHeap) :=
        .poisonShadow (.of_eq rfl rfl fun _ hp => hp) (Nat.le_refl _) (Nat.le_refl _)
      exact ⟨hout.shadow, hout.headers, hout.withHeader⟩
    · exact Heap.shadow_poisonShadow_of_mem (Nat.le_refl b.beg)
        (Nat.lt_add_of_pos_right b.size_pos)

theorem allocateUser {alignmentLog : ℕ} (h : Represents s use)
    (hallocate : Mair.AsanAllocator.allocateUser options s size alignmentLog b fill =
      some (s', ptr)) :
    ∃ use', Represents s' use' ∧ ∃ l, use' b = some (.live l) ∧ l.ptr = ptr ∧ size ≤ l.size := by
  dsimp only [Mair.AsanAllocator.allocateUser] at hallocate
  generalize hn : (if size = 0 then 1 else size) = n at hallocate
  obtain ⟨hle, hpos⟩ := le_of_atLeastOne hn
  split at hallocate
  case isTrue => cases hallocate
  case isFalse hneeded =>
    split at hallocate
    case isTrue => cases hallocate
    case isFalse hend =>
      obtain ⟨t, htake, heq⟩ := Option.map_eq_some_iff.mp hallocate
      cases heq
      have hlayout : Layout b _ n := .of_fits hpos (Nat.le_trans (Nat.le_of_not_lt hend) (by omega))
      generalize userBegin b.beg _ _ = userBeg at hlayout
      have ht := h.take htake
      have hout := hlayout.sameOutside_poisonChunk (.of_eq (s := t) rfl rfl fun _ hp => hp)
      have hshadow := hlayout.shadow_poisonChunk (s := t)
      obtain ⟨shadow, hpoison⟩ := poisonChunk_eq t b userBeg n
      rw [hpoison] at hout hshadow ⊢
      have hheader : b.contains (userBeg - 16) = true := by
        have := hlayout.beg_le
        have := hlayout.le_end
        rw [Block.contains_iff]
        omega
      have hout := (hout.fillHeaders fill (Nat.le_refl _) (Nat.le_refl _)).setHeader
        ⟨.allocated, n⟩ hheader
      refine ⟨_, ht.handOut (l := ⟨userBeg, n, b, .user⟩) (Function.update_self _ _ _)
        ⟨hout.shadow, hout.headers, fun p hp => List.mem_cons_of_mem _ hp⟩
        ⟨rfl, hlayout.beg_le, hpos, hlayout.le_end, if_pos rfl, hshadow, List.mem_cons_self⟩
        rfl rfl rfl rfl rfl rfl, _, Function.update_self _ _ _, rfl, hle⟩

theorem allocate {request : Request} (h : Represents s use)
    (hallocate : Mair.AsanAllocator.allocate options s request = some (s', ptr)) :
    ∃ use', Represents s' use' ∧ (ptr ≠ 0 →
      ∃ b l, use' b = some (.live l) ∧ l.ptr = ptr ∧ request.size ≤ l.size) := by
  rw [Mair.AsanAllocator.allocate] at hallocate
  cases hgiven : request.given with
  | none =>
      rw [hgiven] at hallocate
      cases hallocate
      exact ⟨use, h, fun hne => absurd rfl hne⟩
  | some b =>
      rw [hgiven] at hallocate
      dsimp only at hallocate
      split at hallocate
      · obtain ⟨use', hs', hl⟩ := h.allocateInternel hallocate
        exact ⟨use', hs', fun _ => ⟨b, hl⟩⟩
      · obtain ⟨use', hs', hl⟩ := h.allocateUser hallocate
        exact ⟨use', hs', fun _ => ⟨b, hl⟩⟩

end Represents

end Mair.AsanAllocator
