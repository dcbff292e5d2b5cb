import Mair.Library.Lanes
import Mair.RaceDetector.Checks

/-! # The vectorised check

The same check on the four values at once, as 32-bit lanes of an SSE register. -/

namespace Mair.RaceDetector

open Function Lanes

namespace Shadow

/-- The 32-bit value: bits 0-7 the bytes, 8-15 the slot, 16-29 the epoch, 30 and 31 the kind. -/
def raw (s : Shadow) : BitVec 32 :=
  (BitVec.ofBool s.isAtomic ++ BitVec.ofBool s.isRead ++ BitVec.ofNat 14 s.epoch ++
    BitVec.ofNat 8 s.sid ++ s.access : BitVec (1 + 1 + 14 + 8 + 8))

def ofRaw (w : BitVec 32) : Shadow where
  access := w.extractLsb' 0 8
  sid := ⟨(w.extractLsb' 8 8).toNat, (w.extractLsb' 8 8).isLt⟩
  epoch := ⟨(w.extractLsb' 16 14).toNat, (w.extractLsb' 16 14).isLt⟩
  isRead := w.getLsbD 30
  isAtomic := w.getLsbD 31

end Shadow

/-- `typ & (kAccessRead | kAccessAtomic)`. -/
def kindBits (typ : AccessType) : ℕ := typ.read.toNat + 2 * typ.atomic.toNat

def shadowLanes (cells : Cells) : M128 := fun i => (cells i).raw

def containsSameAccessV (shadow access : M128) (typ : AccessType) : Bool :=
  if !typ.read then ffs (movemask (cmpeq shadow access)) != 0
  else
    let readMask := set1 Shadow.kRodata.raw
    let maskedShadow := or shadow readMask
    let same := cmpeq maskedShadow access
    if !typ.noRodata then ffs (movemask (or (cmpeq shadow readMask) same)) != 0
    else ffs (movemask same) != 0

/-- Lane `idx` of a register, for an index that a mask gave. -/
def laneOf (idx : ℕ) : Fin 4 := ⟨idx % 4, Nat.mod_lt _ (by decide)⟩

def doReportRaceV (cells : Cells) (raceMask : Fin 16 → Bool) (shadow : M128) : CheckResult :=
  let old := shadow (laneOf (ffs raceMask / 4))
  let prev := Shadow.ofRaw old
  let prev := if prev.sid = kFreeSid then Shadow.ofRaw (shadow secondIdx) else prev
  doReportRace cells prev

/-- Zero in the lanes that overlap, have another slot and a conflicting kind. -/
def noRace (access shadow : M128) : M128 :=
  let zero := set1 0#32
  let accessAnd := and access shadow
  let accessXor := xor access shadow
  let intersect := and accessAnd (set1 0x000000ff#32)
  let notIntersect := cmpeq intersect zero
  let notSameSid := and accessXor (set1 0x0000ff00#32)
  let sameSid := cmpeq notSameSid zero
  let bothReadOrAtomic := and accessAnd (set1 0xc0000000#32)
  or (or notIntersect sameSid) bothReadOrAtomic

section

variable (clock : Sid → ℕ) (cur : Shadow) (typ : AccessType) (tracePos : ℕ)

def storeV (cells : Cells) (shadow accessXor : M128) : CheckResult :=
  if typ.checkOnly then ⟨cells, none⟩
  else
    let zero := set1 0#32
    let notSameSidAccess := and accessXor (set1 0x0000ffff#32)
    let sameSidAccess := cmpeq notSameSidAccess zero
    let accessReadAtomic := set1 (BitVec.ofNat 32 (kindBits typ) <<< 30)
    let rwWeaker := cmpeq (maxu shadow accessReadAtomic) shadow
    let rewrite := and sameSidAccess rwWeaker
    let index := ffs (movemask rewrite)
    let index := if index = 0 then ffs (movemask (cmpeq shadow zero)) else index
    let index := if index = 0 then tracePos / 2 % 16 else index
    ⟨update cells (laneOf (index / 4)) cur, none⟩

/-- `LOAD_EPOCH`: the clock of the thread for the slots of the lanes that may race, and a bound
that no epoch reaches for the others. -/
def threadEpochs (shadow : M128) (raceMask : Fin 16 → Bool) : M128 := fun i =>
  if raceMask ⟨i * 4, by omega⟩ then
    BitVec.ofNat 32
      (clock ⟨(byte shadow ⟨i * 4 + 1, by omega⟩).toNat, BitVec.isLt _⟩ % 65536) <<< 16
  else 0x7fffffff#32

def checkRacesV (cells : Cells) : CheckResult :=
  let access := set1 cur.raw
  let shadow := shadowLanes cells
  let accessXor := xor access shadow
  let raceMask := movemask (cmpeq (noRace access shadow) (set1 0#32))
  if ffs raceMask = 0 then storeV cur typ tracePos cells shadow accessXor
  else
    let shadowEpochs := and shadow (set1 0x3fff0000#32)
    let concurrentMask := movemask (cmplt (threadEpochs clock shadow raceMask) shadowEpochs)
    if ffs concurrentMask = 0 then storeV cur typ tracePos cells shadow accessXor
    else doReportRaceV cells concurrentMask shadow

end

/-! ## The fields of a raw value -/

namespace Shadow

variable {s t : Shadow}

theorem raw_access : s.raw.extractLsb' 0 8 = s.access := by
  rw [raw, BitVec.extractLsb'_append_eq_right]

theorem raw_sid : s.raw.extractLsb' 8 8 = BitVec.ofNat 8 s.sid := by
  apply BitVec.eq_of_getLsbD_eq
  intro n hn
  have h₁ : ¬ 8 + n < 8 := by omega
  have h₂ : 8 + n - 8 < 8 := by omega
  rw [BitVec.getLsbD_extractLsb', decide_eq_true hn, Bool.true_and, raw, BitVec.getLsbD_append,
    if_neg h₁, BitVec.getLsbD_append, if_pos h₂, Nat.add_sub_cancel_left]

theorem raw_epoch : s.raw.extractLsb' 16 14 = BitVec.ofNat 14 s.epoch := by
  apply BitVec.eq_of_getLsbD_eq
  intro n hn
  have h₁ : ¬ 16 + n < 8 := by omega
  have h₂ : ¬ 16 + n - 8 < 8 := by omega
  have h₃ : 16 + n - 8 - 8 < 14 := by omega
  have h₄ : 16 + n - 8 - 8 = n := by omega
  rw [BitVec.getLsbD_extractLsb', decide_eq_true hn, Bool.true_and, raw, BitVec.getLsbD_append,
    if_neg h₁, BitVec.getLsbD_append, if_neg h₂, BitVec.getLsbD_append, if_pos h₃, h₄]

theorem raw_isRead : s.raw.getLsbD 30 = s.isRead := by
  rw [raw, BitVec.getLsbD_append, if_neg (by decide), BitVec.getLsbD_append, if_neg (by decide),
    BitVec.getLsbD_append, if_neg (by decide), BitVec.getLsbD_append, if_pos (by decide)]
  cases s.isRead <;> decide

theorem raw_isAtomic : s.raw.getLsbD 31 = s.isAtomic := by
  rw [raw, BitVec.getLsbD_append, if_neg (by decide), BitVec.getLsbD_append, if_neg (by decide),
    BitVec.getLsbD_append, if_neg (by decide), BitVec.getLsbD_append, if_neg (by decide)]
  cases s.isAtomic <;> decide

theorem ofRaw_raw : ofRaw s.raw = s := by
  have hsid := s.sid.isLt
  have hepoch := s.epoch.isLt
  cases s with
  | mk access sid epoch isRead isAtomic =>
      simp only [ofRaw, raw_access, raw_sid, raw_epoch, raw_isRead, raw_isAtomic, mk.injEq,
        true_and, and_true]
      refine ⟨Fin.ext ?_, Fin.ext ?_⟩
      · show (BitVec.ofNat 8 sid).toNat = sid
        rw [BitVec.toNat_ofNat, Nat.mod_eq_of_lt hsid]
      · show (BitVec.ofNat 14 epoch).toNat = epoch
        rw [BitVec.toNat_ofNat, Nat.mod_eq_of_lt hepoch]

theorem raw_injective : Injective raw := by
  intro s t h
  rw [← ofRaw_raw (s := s), h, ofRaw_raw]

theorem kEmpty_raw : kEmpty.raw = 0#32 := by decide

theorem raw_eq_zero_iff : s.raw = 0#32 ↔ s = kEmpty := by
  rw [← kEmpty_raw]
  exact raw_injective.eq_iff

/-- The kind is the number that the top two bits make. -/
theorem raw_toNat : s.raw.toNat =
    s.access.toNat + 2 ^ 8 * s.sid + 2 ^ 16 * s.epoch + 2 ^ 30 * s.isRead.toNat +
      2 ^ 31 * s.isAtomic.toNat := by
  have hsid := s.sid.isLt
  have hepoch := s.epoch.isLt
  have haccess := s.access.isLt
  simp only [raw, BitVec.toNat_append, BitVec.toNat_ofNat, BitVec.toNat_ofBool]
  rw [Nat.mod_eq_of_lt hsid, Nat.mod_eq_of_lt hepoch, ← Nat.shiftLeft_add_eq_or_of_lt haccess,
    ← Nat.shiftLeft_add_eq_or_of_lt hsid, ← Nat.shiftLeft_add_eq_or_of_lt hepoch,
    ← Nat.shiftLeft_add_eq_or_of_lt (by cases s.isRead <;> decide)]
  simp only [Nat.shiftLeft_eq]
  omega

end Shadow

/-! ## One lane -/

section Lane

variable {clock : Sid → ℕ} {cur old : Shadow} {typ : AccessType} {cells : Cells} {i : Fin 4}

theorem overlap_lane : (cur.raw &&& old.raw) &&& 0x000000ff#32 = 0#32 ↔
    cur.access &&& old.access = 0#8 := by
  rw [show 0x000000ff#32 = fieldMask 32 0 8 by decide, and_fieldMask_eq_zero_iff (by decide),
    BitVec.extractLsb'_and, Shadow.raw_access, Shadow.raw_access]

theorem sid_lane : (cur.raw ^^^ old.raw) &&& 0x0000ff00#32 = 0#32 ↔ cur.sid = old.sid := by
  rw [show 0x0000ff00#32 = fieldMask 32 8 8 by decide, and_fieldMask_eq_zero_iff (by decide),
    BitVec.extractLsb'_xor, BitVec.xor_eq_zero_iff, Shadow.raw_sid, Shadow.raw_sid]
  constructor
  · intro h
    have hnat := congrArg BitVec.toNat h
    rw [BitVec.toNat_ofNat, BitVec.toNat_ofNat, Nat.mod_eq_of_lt cur.sid.isLt,
      Nat.mod_eq_of_lt old.sid.isLt] at hnat
    exact Fin.ext hnat
  · intro h
    rw [h]

theorem sidAccess_lane : (cur.raw ^^^ old.raw) &&& 0x0000ffff#32 = 0#32 ↔
    cur.access = old.access ∧ cur.sid = old.sid := by
  have hmask : 0x0000ffff#32 = 0x000000ff#32 ||| 0x0000ff00#32 := by decide
  rw [hmask, BitVec.and_or_distrib_left, BitVec.or_eq_zero_iff, sid_lane,
    show 0x000000ff#32 = fieldMask 32 0 8 by decide, and_fieldMask_eq_zero_iff (by decide),
    BitVec.extractLsb'_xor, BitVec.xor_eq_zero_iff, Shadow.raw_access, Shadow.raw_access]

theorem kind_lane : (cur.raw &&& old.raw) &&& 0xc0000000#32 = 0#32 ↔
    (old.isRead && cur.isRead) = false ∧ (old.isAtomic && cur.isAtomic) = false := by
  rw [show 0xc0000000#32 = fieldMask 32 30 2 by decide, and_fieldMask_eq_zero_iff (by decide)]
  have hbit₀ : ((cur.raw &&& old.raw).extractLsb' 30 2).getLsbD 0 =
      (old.isRead && cur.isRead) := by
    rw [BitVec.getLsbD_extractLsb', decide_eq_true (by decide), Bool.true_and,
      BitVec.getLsbD_and, Shadow.raw_isRead, Shadow.raw_isRead, Bool.and_comm]
  have hbit₁ : ((cur.raw &&& old.raw).extractLsb' 30 2).getLsbD 1 =
      (old.isAtomic && cur.isAtomic) := by
    rw [BitVec.getLsbD_extractLsb', decide_eq_true (by decide), Bool.true_and,
      BitVec.getLsbD_and, Shadow.raw_isAtomic, Shadow.raw_isAtomic, Bool.and_comm]
  rw [← hbit₀, ← hbit₁]
  constructor
  · intro h
    rw [h]
    exact ⟨rfl, rfl⟩
  · intro h
    apply BitVec.eq_of_getLsbD_eq
    intro n hn
    rcases (by omega : n = 0 ∨ n = 1) with rfl | rfl
    · exact h.1
    · exact h.2

theorem noRace_lane : noRace (set1 cur.raw) (shadowLanes cells) i = 0#32 ↔
    cur.access &&& (cells i).access ≠ 0#8 ∧ cur.sid ≠ (cells i).sid ∧
      ((cells i).isRead && cur.isRead) = false ∧ ((cells i).isAtomic && cur.isAtomic) = false := by
  have hmask : ∀ P : Prop, [Decidable P] →
      ((if P then BitVec.allOnes 32 else 0#32) = 0#32 ↔ ¬ P) := by
    intro P _
    by_cases hP : P
    · simp only [hP, if_true, not_true]
      decide
    · simp [hP]
  simp only [noRace, Lanes.or, cmpeq, Lanes.and, Lanes.xor, set1, shadowLanes,
    BitVec.or_eq_zero_iff, hmask, overlap_lane, sid_lane, kind_lane]
  exact and_assoc

theorem slt_iff {a b : BitVec 32} (ha : a.toNat < 2 ^ 31) (hb : b.toNat < 2 ^ 31) :
    a.slt b = true ↔ a.toNat < b.toNat := by
  rw [BitVec.slt_iff_toInt_lt, BitVec.toInt_eq_toNat_of_lt (by omega),
    BitVec.toInt_eq_toNat_of_lt (by omega), Int.ofNat_lt]

theorem epoch_lane : (old.raw &&& 0x3fff0000#32).toNat = 2 ^ 16 * old.epoch := by
  have hepoch := old.epoch.isLt
  rw [show 0x3fff0000#32 = fieldMask 32 16 14 by decide, and_fieldMask, Shadow.raw_epoch,
    BitVec.toNat_shiftLeft, BitVec.toNat_setWidth, BitVec.toNat_ofNat, Nat.shiftLeft_eq]
  omega

theorem clock_lane {c : ℕ} (hc : c ≤ kEpochLast) :
    (BitVec.ofNat 32 (c % 65536) <<< 16).toNat = 2 ^ 16 * c := by
  have hc' : c ≤ 16383 := hc
  rw [BitVec.toNat_shiftLeft, BitVec.toNat_ofNat, Nat.shiftLeft_eq]
  omega

theorem sid_byte (k : Fin 16) (hk : (k : ℕ) = i * 4 + 1) :
    (byte (shadowLanes cells) k).toNat = (cells i).sid := by
  have hlane : (⟨k / 4, by omega⟩ : Fin 4) = i := by
    apply Fin.ext
    show (k : ℕ) / 4 = i
    omega
  have hpos : 8 * ((k : ℕ) % 4) = 8 := by omega
  rw [byte, hlane, hpos, shadowLanes, Shadow.raw_sid, BitVec.toNat_ofNat,
    Nat.mod_eq_of_lt (cells i).sid.isLt]

/-- A lane's epochs are compared only where the lane may race. -/
theorem concurrent_lane {mask : Fin 16 → Bool} {m : Bool} (hclock : ∀ s, clock s ≤ kEpochLast)
    (hm : ∀ k : Fin 16, (k : ℕ) / 4 = i → mask k = m) :
    (threadEpochs clock (shadowLanes cells) mask i).slt
        (and (shadowLanes cells) (set1 0x3fff0000#32) i) = true ↔
      m = true ∧ clock (cells i).sid < (cells i).epoch := by
  have hepoch := (cells i).epoch.isLt
  have hshadow : (and (shadowLanes cells) (set1 0x3fff0000#32) i).toNat =
      2 ^ 16 * (cells i).epoch := epoch_lane
  rw [threadEpochs, hm _ (by simp)]
  cases m with
  | false =>
      rw [if_neg (by decide), slt_iff (by decide) (by omega), hshadow]
      have hbound : (0x7fffffff#32).toNat = 2147483647 := by decide
      simp only [hbound, Bool.false_eq_true, false_and, iff_false]
      omega
  | true =>
      have hsid : (⟨(byte (shadowLanes cells) ⟨i * 4 + 1, by omega⟩).toNat, BitVec.isLt _⟩ : Sid) =
          (cells i).sid := Fin.ext (sid_byte _ rfl)
      have hc := hclock (cells i).sid
      have hc' : clock (cells i).sid ≤ 16383 := hc
      have hlane := clock_lane hc
      rw [if_pos rfl, hsid, slt_iff (by omega) (by omega), hshadow, hlane]
      simp only [true_and]
      omega

theorem weaker_lane : (if old.raw ≤ BitVec.ofNat 32 (kindBits typ) <<< 30 then
      BitVec.ofNat 32 (kindBits typ) <<< 30 else old.raw) = old.raw ↔
    old.isRWWeakerOrEqual typ = true := by
  have hbits : (BitVec.ofNat 32 (kindBits typ) <<< 30).toNat = 2 ^ 30 * kindBits typ := by
    have hlt : kindBits typ < 4 := by
      rw [kindBits]
      cases typ.read <;> cases typ.atomic <;> decide
    rw [BitVec.toNat_shiftLeft, BitVec.toNat_ofNat, Nat.shiftLeft_eq]
    omega
  have hle : BitVec.ofNat 32 (kindBits typ) <<< 30 ≤ old.raw ↔
      old.isRWWeakerOrEqual typ = true := by
    have hsid := old.sid.isLt
    have hepoch := old.epoch.isLt
    have haccess := old.access.isLt
    have hkind : 2 ^ 30 * kindBits typ ≤ old.raw.toNat ↔
        kindBits typ ≤ old.isRead.toNat + 2 * old.isAtomic.toNat := by
      rw [Shadow.raw_toNat]
      omega
    rw [BitVec.le_def, hbits, hkind, kindBits, Shadow.isRWWeakerOrEqual]
    cases typ.read <;> cases typ.atomic <;> cases old.isRead <;> cases old.isAtomic <;> decide
  rw [← hle]
  split
  · rename_i h
    constructor
    · intro heq
      rw [heq]
      exact BitVec.le_refl _
    · intro h'
      exact BitVec.le_antisymm h' h
  · rename_i h
    simp only [true_iff]
    exact BitVec.le_of_lt (BitVec.not_le.mp h)

end Lane

/-! ## The whole check -/

section

variable {clock : Sid → ℕ} {cur : Shadow} {typ : AccessType} {tracePos : ℕ} {cells : Cells}

/-- The value describes an access of this type. -/
def Shadow.OfType (cur : Shadow) (typ : AccessType) : Prop :=
  cur.isRead = typ.read ∧ cur.isAtomic = typ.atomic

def raceLane (clock : Sid → ℕ) (cur : Shadow) (typ : AccessType) (cells : Cells) :
    Option (Fin 4) :=
  firstLane fun i => decide (Races clock cur typ (cells i))

/-- The value that a check without a race replaces. -/
def storeLane (cur : Shadow) (typ : AccessType) (tracePos : ℕ) (cells : Cells) : Fin 4 :=
  ((firstLane fun i => decide ((cur.access = (cells i).access ∧ cur.sid = (cells i).sid) ∧
      (cells i).isRWWeakerOrEqual typ = true)).or
    (firstLane fun i => decide (cells i = Shadow.kEmpty))).getD (evictIdx tracePos)

theorem laneOf_eq {i : Fin 4} {n : ℕ} (h : n = i) : laneOf n = i := by
  apply Fin.ext
  show n % 4 = i
  omega

theorem storeV_eq : storeV cur typ tracePos cells (shadowLanes cells)
      (xor (set1 cur.raw) (shadowLanes cells)) =
    if typ.checkOnly then ⟨cells, none⟩
    else ⟨update cells (storeLane cur typ tracePos cells) cur, none⟩ := by
  rw [storeV]
  split
  · rfl
  · have hrewrite : IsMask (and (cmpeq (and (xor (set1 cur.raw) (shadowLanes cells))
        (set1 0x0000ffff#32)) (set1 0#32)) (cmpeq (maxu (shadowLanes cells)
        (set1 (BitVec.ofNat 32 (kindBits typ) <<< 30))) (shadowLanes cells)))
        fun i => decide ((cur.access = (cells i).access ∧ cur.sid = (cells i).sid) ∧
          (cells i).isRWWeakerOrEqual typ = true) := by
      intro i
      rw [(isMask_cmpeq _ _).and (isMask_cmpeq _ _) i]
      apply if_congr _ rfl rfl
      rw [Bool.and_eq_true, decide_eq_true_eq, decide_eq_true_eq, decide_eq_true_eq]
      exact and_congr sidAccess_lane weaker_lane
    have hempty : IsMask (cmpeq (shadowLanes cells) (set1 0#32))
        fun i => decide (cells i = Shadow.kEmpty) := by
      intro i
      rw [isMask_cmpeq _ _ i]
      simp only [set1, shadowLanes, Shadow.raw_eq_zero_iff]
    rw [storeLane]
    rcases ffs_movemask hrewrite with ⟨hzero, hnone⟩ | ⟨i, hsome, hne, hdiv⟩
    · rw [hnone, Option.none_or]
      rcases ffs_movemask hempty with ⟨hzero', hnone'⟩ | ⟨i, hsome, hne, hdiv⟩
      · have hevict : laneOf (tracePos / 2 % 16 / 4) = evictIdx tracePos := by
          apply laneOf_eq
          show tracePos / 2 % 16 / 4 = tracePos / 8 % 4
          omega
        rw [hnone']
        simp only [hzero, hzero', if_true, hevict, Option.getD_none]
      · rw [hsome]
        simp only [hzero, if_true, if_neg hne, laneOf_eq hdiv, Option.getD_some]
    · rw [hsome]
      simp only [if_neg hne, laneOf_eq hdiv, Option.some_or, Option.getD_some]

/-- The check reports the first value that races, and stores if there is none. -/
theorem checkRacesV_eq (hclock : ∀ s, clock s ≤ kEpochLast) (hcur : cur.OfType typ) :
    checkRacesV clock cur typ tracePos cells =
      match raceLane clock cur typ cells with
      | some i => doReportRace cells (reported cells i)
      | none =>
          if typ.checkOnly then ⟨cells, none⟩
          else ⟨update cells (storeLane cur typ tracePos cells) cur, none⟩ := by
  rw [← storeV_eq]
  have hmay : IsMask (cmpeq (noRace (set1 cur.raw) (shadowLanes cells)) (set1 0#32))
      fun i => decide (cur.access &&& (cells i).access ≠ 0#8 ∧ cur.sid ≠ (cells i).sid ∧
        (cells i).isBothReadsOrAtomic typ = false) := by
    intro i
    rw [isMask_cmpeq _ _ i]
    have hkind : (cells i).isBothReadsOrAtomic typ = false ↔
        ((cells i).isRead && cur.isRead) = false ∧
          ((cells i).isAtomic && cur.isAtomic) = false := by
      rw [hcur.1, hcur.2, Shadow.isBothReadsOrAtomic, Bool.or_eq_false_iff]
    simp only [hkind]
    exact if_congr (by rw [decide_eq_true_eq, decide_eq_true_eq]; exact noRace_lane) rfl rfl
  rw [checkRacesV]
  have hconcurrent : IsMask (cmplt (threadEpochs clock (shadowLanes cells) (movemask
      (cmpeq (noRace (set1 cur.raw) (shadowLanes cells)) (set1 0#32))))
      (and (shadowLanes cells) (set1 0x3fff0000#32)))
      fun i => decide (Races clock cur typ (cells i)) := by
    intro i
    rw [isMask_cmplt _ _ i]
    apply if_congr _ rfl rfl
    rw [decide_eq_true_eq, concurrent_lane hclock (m := decide
      (cur.access &&& (cells i).access ≠ 0#8 ∧ cur.sid ≠ (cells i).sid ∧
        (cells i).isBothReadsOrAtomic typ = false)), decide_eq_true_eq, Races]
    · simp only [and_assoc]
    · intro k hk
      rw [movemask_apply hmay]
      have hlane : (⟨k / 4, by omega⟩ : Fin 4) = i := Fin.ext hk
      rw [hlane]
  have hreport : ∀ i : Fin 4, Shadow.ofRaw (shadowLanes cells i) = cells i :=
    fun i => Shadow.ofRaw_raw
  rcases ffs_movemask hconcurrent with ⟨hzero, hnone⟩ | ⟨i, hsome, hne, hdiv⟩
  · rw [raceLane, hnone]
    simp only [hzero, if_true, ite_self]
  · rw [raceLane, hsome]
    have hmask : ffs (movemask (cmpeq (noRace (set1 cur.raw) (shadowLanes cells))
        (set1 0#32))) ≠ 0 := by
      rcases ffs_movemask hmay with ⟨-, hnone⟩ | ⟨-, -, hne', -⟩
      · have hrace := (firstLane_eq_some_iff.mp hsome).1
        have hno := firstLane_eq_none_iff.mp hnone i
        rw [decide_eq_true_eq] at hrace
        rw [decide_eq_false_iff_not] at hno
        exact absurd ⟨hrace.1, hrace.2.1, hrace.2.2.1⟩ hno
      · exact hne'
    simp only [if_neg hmask, if_neg hne, doReportRaceV, laneOf_eq hdiv, hreport, reported]

theorem storeLane_noGaps (hcur : cur ≠ Shadow.kEmpty) (hgaps : NoGaps cells) :
    NoGaps (update cells (storeLane cur typ tracePos cells) cur) := by
  apply hgaps.update hcur
  rw [storeLane]
  cases hrewrite : firstLane fun i =>
      decide ((cur.access = (cells i).access ∧ cur.sid = (cells i).sid) ∧
        (cells i).isRWWeakerOrEqual typ = true) with
  | some i =>
      obtain ⟨hi, hbefore⟩ := firstLane_eq_some_iff.mp hrewrite
      rw [Option.some_or, Option.getD_some]
      by_cases hempty : cells i = Shadow.kEmpty
      · right
        intro j hj hempty'
        have hj' := hbefore j hj
        rw [hempty', ← hempty] at hj'
        exact of_decide_eq_false hj' (of_decide_eq_true hi)
      · exact .inl hempty
  | none =>
      rw [Option.none_or]
      cases hempty : firstLane fun i => decide (cells i = Shadow.kEmpty) with
      | some i =>
          obtain ⟨-, hbefore⟩ := firstLane_eq_some_iff.mp hempty
          rw [Option.getD_some]
          exact .inr fun j hj => of_decide_eq_false (hbefore j hj)
      | none => exact .inl (of_decide_eq_false (firstLane_eq_none_iff.mp hempty _))

theorem checkRacesV_checked (hclock : ∀ s, clock s ≤ kEpochLast) (hcur : cur.OfType typ) :
    Checked clock cur typ cells (checkRacesV clock cur typ tracePos cells) := by
  rw [checkRacesV_eq hclock hcur]
  cases hrace : raceLane clock cur typ cells with
  | some i =>
      obtain ⟨hi, hfirst⟩ := firstLane_eq_some_iff.mp hrace
      refine ⟨?_, by simp [doReportRace], by simp [doReportRace], by simp [doReportRace],
        fun _ _ => noGaps_cellsOf⟩
      intro old hold
      simp only [doReportRace, Option.some.injEq] at hold
      refine ⟨rfl, i, of_decide_eq_true hi, fun j hj => of_decide_eq_false (hfirst j hj), ?_⟩
      intro hfront
      rw [← hold, reported]
      by_cases hfree : (cells i).sid = kFreeSid <;> simp [hfree]
  | none =>
      have hclean : ∀ i, ¬ Races clock cur typ (cells i) :=
        fun i => of_decide_eq_false (firstLane_eq_none_iff.mp hrace i)
      cases hcheck : typ.checkOnly with
      | true =>
          exact ⟨by simp, fun _ _ => .inl rfl, fun _ _ => hclean, by simp [hcheck],
            fun _ hgaps => hgaps⟩
      | false =>
          refine ⟨by simp, ?_, fun _ _ => hclean, fun _ _ => ⟨_, update_self ..⟩,
            fun hcur hgaps => storeLane_noGaps hcur hgaps⟩
          intro _ i
          rcases eq_or_ne i (storeLane cur typ tracePos cells) with rfl | hi
          · exact .inr (update_self ..)
          · exact .inl (update_of_ne hi ..)

theorem readMask_lane {s : Shadow} :
    s.raw ||| Shadow.kRodata.raw = ({ s with isRead := true } : Shadow).raw := by
  apply BitVec.eq_of_getLsbD_eq
  intro n hn
  rw [BitVec.getLsbD_or, show Shadow.kRodata.raw = fieldMask 32 30 1 by decide,
    getLsbD_fieldMask]
  by_cases h : n = 30
  · subst h
    rw [Shadow.raw_isRead, Shadow.raw_isRead]
    simp
  · rw [decide_eq_false (by omega), Bool.or_false]
    simp only [Shadow.raw, BitVec.getLsbD_append]
    split
    · rfl
    · split
      · rfl
      · split
        · rfl
        · split
          · omega
          · rfl

/-- The vectorised test for a repeated access is the scalar one. -/
theorem containsSameAccessV_eq :
    containsSameAccessV (shadowLanes cells) (set1 cur.raw) typ =
      containsSameAccess cells cur typ := by
  have hsame : IsMask (cmpeq (shadowLanes cells) (set1 cur.raw))
      fun i => decide (cells i = cur) := by
    intro i
    rw [isMask_cmpeq _ _ i]
    simp only [shadowLanes, set1, Shadow.raw_injective.eq_iff]
  have hmasked : IsMask (cmpeq (or (shadowLanes cells) (set1 Shadow.kRodata.raw)) (set1 cur.raw))
      fun i => decide (({ cells i with isRead := true } : Shadow) = cur) := by
    intro i
    rw [isMask_cmpeq _ _ i]
    simp only [Lanes.or, shadowLanes, set1, readMask_lane, Shadow.raw_injective.eq_iff]
  have hrodata : IsMask (cmpeq (shadowLanes cells) (set1 Shadow.kRodata.raw))
      fun i => decide (cells i = Shadow.kRodata) := by
    intro i
    rw [isMask_cmpeq _ _ i]
    simp only [shadowLanes, set1, Shadow.raw_injective.eq_iff]
  rw [containsSameAccessV, containsSameAccess]
  cases hread : typ.read with
  | false =>
      simp only [Bool.not_false, if_true, ffs_movemask_ne_zero hsame, Bool.false_eq_true, if_false]
  | true =>
      cases hro : typ.noRodata with
      | true =>
          simp [ffs_movemask_ne_zero hmasked]
      | false =>
          simp only [Bool.not_true, Bool.false_eq_true, if_false, Bool.not_false, if_true,
            ffs_movemask_ne_zero (hrodata.or hmasked)]
          congr 1
          funext i
          simp [Bool.or_comm]

end

end Mair.RaceDetector
