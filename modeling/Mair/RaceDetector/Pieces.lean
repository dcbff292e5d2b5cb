import Mair.RaceDetector.Runtime

/-! # The bytes of an access

An access that crosses a cell is split; the parts touch the bytes of the access and no others. -/

namespace Mair.RaceDetector

/-- The part marks this byte of its cell. -/
def Piece.touches (p : Piece) (a : ℕ) : Bool :=
  p.cell == a / 8 && (accessMask p.pos p.size).getLsbD (a % 8)

/-- What the constructor of `Shadow` wants of a part. -/
structure Piece.Fits (p : Piece) : Prop where
  pos : 0 < p.size
  le : p.pos % 8 + p.size ≤ 8

/-- The parts touch exactly the bytes, each in a cell of its own. -/
structure Covers (ps : List Piece) (addr size : ℕ) : Prop where
  fits : ∀ p ∈ ps, p.Fits
  cells : (ps.map Piece.cell).Nodup
  bytes : ∀ a, (∃ p ∈ ps, p.touches a = true) ↔ addr ≤ a ∧ a < addr + size

variable {addr size a cell : ℕ} {p : Piece}

theorem accessMask_getLsbD {pos n b : ℕ} (hb : b < 8) :
    (accessMask pos n).getLsbD b = decide (pos % 8 ≤ b ∧ b < pos % 8 + n) := by
  rw [accessMask, BitVec.getLsbD_ofNat, Nat.testBit_mul_two_pow, Nat.testBit_two_pow_sub_one,
    decide_eq_true hb, Bool.true_and, ← Bool.decide_and, decide_eq_decide]
  omega

theorem touches_iff : p.touches a = true ↔
    p.cell = a / 8 ∧ p.pos % 8 ≤ a % 8 ∧ a % 8 < p.pos % 8 + p.size := by
  rw [Piece.touches, Bool.and_eq_true, beq_iff_eq, accessMask_getLsbD (Nat.mod_lt _ (by decide)),
    decide_eq_true_eq]

theorem memoryAccess_covers (hpos : 0 < size) (hle : addr % 8 + size ≤ 8) :
    Covers (memoryAccessPieces addr size) addr size where
  fits p hp := by
    rw [List.mem_singleton.mp hp]
    exact ⟨hpos, hle⟩
  cells := by simp [memoryAccessPieces]
  bytes a := by
    simp only [memoryAccessPieces, List.mem_singleton, exists_eq_left, touches_iff]
    omega

theorem memoryAccess16_covers (haligned : addr % 8 = 0) :
    Covers (memoryAccess16Pieces addr) addr 16 where
  fits p hp := by
    simp only [memoryAccess16Pieces, List.mem_cons, List.not_mem_nil, or_false] at hp
    rcases hp with rfl | rfl
    · exact ⟨Nat.succ_pos _, Nat.le_refl 8⟩
    · exact ⟨Nat.succ_pos _, Nat.le_refl 8⟩
  cells := by simp [memoryAccess16Pieces]
  bytes a := by
    simp only [memoryAccess16Pieces, List.mem_cons, List.not_mem_nil, or_false, exists_eq_or_imp,
      exists_eq_left, touches_iff]
    omega

theorem unaligned_covers (hpos : 0 < size) (hle : size ≤ 8) :
    Covers (unalignedPieces addr size) addr size := by
  have hround : roundUp (addr + 1) - addr = 8 - addr % 8 := by
    rw [roundUp]
    omega
  rw [unalignedPieces, hround]
  by_cases hfit : size - min size (8 - addr % 8) = 0
  · refine ⟨?_, ?_, ?_⟩
    · intro p hp
      simp only [hfit, if_true, List.mem_singleton] at hp
      rw [hp]
      exact ⟨by dsimp only; omega, by dsimp only; omega⟩
    · simp [hfit]
    · intro a
      simp only [hfit, if_true, List.mem_singleton, exists_eq_left, touches_iff]
      omega
  · refine ⟨?_, ?_, ?_⟩
    · intro p hp
      simp only [hfit, if_false, List.mem_cons, List.not_mem_nil, or_false] at hp
      rcases hp with rfl | rfl
      · exact ⟨by dsimp only; omega, by dsimp only; omega⟩
      · exact ⟨by dsimp only; omega, by dsimp only; omega⟩
    · simp [hfit]
    · intro a
      simp only [hfit, if_false, List.mem_cons, List.not_mem_nil, or_false, exists_eq_or_imp,
        exists_eq_left, touches_iff]
      omega

/-- A run of whole cells and what is left behind them. -/
theorem middle_covers (cell size : ℕ) : Covers (middlePieces cell size) (8 * cell) size where
  fits p hp := by
    rcases List.mem_append.mp hp with hp | hp
    · obtain ⟨i, -, rfl⟩ := List.mem_map.mp hp
      exact ⟨Nat.succ_pos _, Nat.le_refl 8⟩
    · split at hp
      · cases hp
      · rename_i hrest
        rw [List.mem_singleton.mp hp]
        exact ⟨Nat.pos_of_ne_zero hrest, by dsimp only; omega⟩
  cells := by
    have hcells : (middlePieces cell size).map Piece.cell =
        (List.range (size / 8 + if size % 8 = 0 then 0 else 1)).map (cell + ·) := by
      split
      · rename_i hrest
        simp [middlePieces, hrest, Function.comp_def]
      · rename_i hrest
        simp [middlePieces, hrest, Function.comp_def, List.range_succ]
    rw [hcells]
    exact List.nodup_range.map fun _ _ => Nat.add_left_cancel
  bytes a := by
    constructor
    · intro h
      obtain ⟨p, hp, hbyte⟩ := h
      rw [touches_iff] at hbyte
      rcases List.mem_append.mp hp with hp | hp
      · obtain ⟨i, hi, rfl⟩ := List.mem_map.mp hp
        rw [List.mem_range] at hi
        dsimp only at hbyte
        omega
      · split at hp
        · cases hp
        · rw [List.mem_singleton.mp hp] at hbyte
          dsimp only at hbyte
          omega
    · intro h
      by_cases hwhole : a / 8 - cell < size / 8
      · refine ⟨⟨cell + (a / 8 - cell), 0, 8⟩, ?_, ?_⟩
        · exact List.mem_append_left _ (List.mem_map.mpr ⟨_, List.mem_range.mpr hwhole, rfl⟩)
        · rw [touches_iff]
          dsimp only
          omega
      · have hrest : size % 8 ≠ 0 := by omega
        refine ⟨⟨cell + size / 8, 0, size % 8⟩, ?_, ?_⟩
        · exact List.mem_append_right _ (by simp [hrest])
        · rw [touches_iff]
          dsimp only
          omega

theorem cell_of_middle (hp : p ∈ middlePieces cell size) : cell ≤ p.cell := by
  rcases List.mem_append.mp hp with hp | hp
  · obtain ⟨i, -, rfl⟩ := List.mem_map.mp hp
    exact Nat.le_add_right _ _
  · split at hp
    · cases hp
    · rw [List.mem_singleton.mp hp]
      exact Nat.le_add_right _ _

theorem range_covers (hpos : 0 < size) : Covers (rangePieces addr size) addr size := by
  by_cases haligned : addr % 8 = 0
  · have hmiddle := middle_covers (addr / 8) size
    rw [show 8 * (addr / 8) = addr by omega] at hmiddle
    rwa [rangePieces, if_pos haligned]
  · have hround : roundUp addr - addr = 8 - addr % 8 := by
      rw [roundUp]
      omega
    have hmiddle := middle_covers (addr / 8 + 1) (size - min size (8 - addr % 8))
    rw [rangePieces, if_neg haligned, hround]
    refine ⟨?_, ?_, ?_⟩
    · intro p hp
      rcases List.mem_cons.mp hp with rfl | hp
      · exact ⟨by dsimp only; omega, by dsimp only; omega⟩
      · exact hmiddle.fits p hp
    · rw [List.map_cons, List.nodup_cons]
      refine ⟨?_, hmiddle.cells⟩
      intro hmem
      obtain ⟨p, hp, heq⟩ := List.mem_map.mp hmem
      have hle := cell_of_middle hp
      dsimp only at heq
      omega
    · intro a
      have hrest := hmiddle.bytes a
      simp only [List.mem_cons, exists_eq_or_imp, touches_iff] at hrest ⊢
      rw [hrest]
      clear hrest
      omega

end Mair.RaceDetector
