import Mair.LongJump.Model

/-! # What the operations on a thread do -/

namespace Mair.LongJump

open SwapRemoval

namespace ThreadState

variable {t t' : ThreadState} {buf b : JmpBuf} {sp pc pos : ℕ}

/-! ## Entry, exit and unwinding -/

@[simp] theorem funcEntry_jmpBufs : (t.funcEntry pc).jmpBufs = t.jmpBufs := by
  unfold funcEntry
  split <;> rfl

@[simp] theorem funcEntry_isInited : (t.funcEntry pc).isInited = t.isInited := by
  unfold funcEntry
  split <;> rfl

@[simp] theorem funcEntry_inSignalHandler :
    (t.funcEntry pc).inSignalHandler = t.inSignalHandler := by
  unfold funcEntry
  split <;> rfl

@[simp] theorem funcExit_jmpBufs : t.funcExit.jmpBufs = t.jmpBufs := by
  unfold funcExit
  split <;> rfl

@[simp] theorem funcExit_isInited : t.funcExit.isInited = t.isInited := by
  unfold funcExit
  split <;> rfl

@[simp] theorem funcExit_inSignalHandler : t.funcExit.inSignalHandler = t.inSignalHandler := by
  unfold funcExit
  split <;> rfl

theorem unwind_eq (t : ThreadState) (pos : ℕ) :
    t.unwind pos =
      if t.shadowStackPos > pos then { t with shadowStackPos := pos, stackOverflow := 0 }
      else t := by
  fun_induction unwind t pos with
  | case1 t hgt ih =>
      rw [ih, if_pos hgt]
      by_cases hoverflow : t.stackOverflow ≠ 0
      · rw [funcExit, if_pos hoverflow, if_pos hgt]
      · rw [funcExit, if_neg hoverflow]
        by_cases hone : t.shadowStackPos - 1 > pos
        · rw [if_pos hone]
        · have hpos : t.shadowStackPos - 1 = pos := by omega
          have hzero : t.stackOverflow = 0 := by omega
          rw [if_neg hone, hpos, hzero]
  | case2 t hgt => rw [if_neg hgt]

/-! ## Records -/

theorem mem_garbageCollect : buf ∈ (t.jmpBufGarbageCollect sp).jmpBufs ↔
    buf ∈ t.jmpBufs ∧
      ((buf.inSignalHandler ≠ 0 ↔ t.inSignalHandler ≠ 0) → sp < buf.sp) := by
  rw [jmpBufGarbageCollect, mem_sweep_iff]
  simp only [Bool.and_eq_false_iff, beq_eq_false_iff_ne, ne_eq, decide_eq_decide, not_iff,
    decide_eq_false_iff_not, not_le]
  grind

theorem nodup_garbageCollect (h : (t.jmpBufs.map JmpBuf.sp).Nodup) :
    ((t.jmpBufGarbageCollect sp).jmpBufs.map JmpBuf.sp).Nodup := nodup_sweep h

theorem setJmp_eq (h : t.isInited = true) : t.setJmp sp =
    { t with jmpBufs := (t.jmpBufGarbageCollect sp).jmpBufs ++ [t.jmpBuf sp] } := by
  rw [setJmp, if_neg (by simp [h])]
  rfl

/-- The state after a jump with this record. -/
structure Jumped (buf : JmpBuf) (t t' : ThreadState) : Prop where
  shadowStack : t'.shadowStack = t.shadowStack
  shadowStackPos : t'.shadowStackPos = buf.shadowStackPos
  stackOverflow : t'.stackOverflow =
    if t.shadowStackPos > buf.shadowStackPos then 0 else t.stackOverflow
  intSignalSend : t'.intSignalSend = buf.intSignalSend
  inBlockingFunc : t'.inBlockingFunc = buf.inBlockingFunc
  inSignalHandler : t'.inSignalHandler = buf.inSignalHandler
  isInited : t'.isInited = t.isInited
  ignores : t'.ignores =
    if t.inSignalHandler ≠ 0 ∧ t.optimised then t.mainThreadState else t.ignores
  ignoreBit : t'.ignoreBit = t.ignoreBit
  optimised : t'.optimised = t.optimised
  nodup : (t.jmpBufs.map JmpBuf.sp).Nodup → (t'.jmpBufs.map JmpBuf.sp).Nodup
  mem_iff : ∀ b, b ∈ t'.jmpBufs ↔
    b ∈ t.jmpBufs ∧ ((b.inSignalHandler ≠ 0 ↔ buf.inSignalHandler ≠ 0) → buf.sp - 1 < b.sp)

theorem longJmp_spec (hfind : (t.jmpBufs.find? fun b => b.sp = sp) = some buf)
    (hpos : buf.shadowStackPos ≤ t.shadowStackPos) :
    ∃ t', t.longJmp sp = some t' ∧ Jumped buf t t' := by
  have hlt : ¬t.shadowStackPos < buf.shadowStackPos := by omega
  rw [longJmp, hfind]
  by_cases hgt : t.shadowStackPos > buf.shadowStackPos
  · by_cases hrestore : t.inSignalHandler ≠ 0 ∧ t.optimised
    · simp only [if_neg hlt, unwind_eq, if_pos hgt, if_pos hrestore, restoreTsanState]
      exact ⟨_, rfl, rfl, rfl, (if_pos hgt).symm, rfl, rfl, rfl, rfl, (if_pos hrestore).symm, rfl,
        rfl, nodup_sweep,
        fun b => mem_garbageCollect⟩
    · simp only [if_neg hlt, unwind_eq, if_pos hgt, if_neg hrestore]
      exact ⟨_, rfl, rfl, rfl, (if_pos hgt).symm, rfl, rfl, rfl, rfl, (if_neg hrestore).symm, rfl,
        rfl, nodup_sweep,
        fun b => mem_garbageCollect⟩
  · have heq : t.shadowStackPos = buf.shadowStackPos := by omega
    by_cases hrestore : t.inSignalHandler ≠ 0 ∧ t.optimised
    · simp only [if_neg hlt, unwind_eq, if_neg hgt, if_pos hrestore, restoreTsanState]
      exact ⟨_, rfl, rfl, heq, (if_neg hgt).symm, rfl, rfl, rfl, rfl, (if_pos hrestore).symm, rfl,
        rfl, nodup_sweep,
        fun b => mem_garbageCollect⟩
    · simp only [if_neg hlt, unwind_eq, if_neg hgt, if_neg hrestore]
      exact ⟨_, rfl, rfl, heq, (if_neg hgt).symm, rfl, rfl, rfl, rfl, (if_neg hrestore).symm, rfl,
        rfl, nodup_sweep,
        fun b => mem_garbageCollect⟩

theorem exists_jumped (h : t.longJmp sp = some t') :
    ∃ buf, (t.jmpBufs.find? fun b => b.sp = sp) = some buf ∧ Jumped buf t t' := by
  cases hfind : t.jmpBufs.find? fun b => b.sp = sp with
  | none =>
      rw [longJmp, hfind] at h
      cases h
  | some buf =>
      by_cases hlt : t.shadowStackPos < buf.shadowStackPos
      · rw [longJmp, hfind] at h
        simp only [if_pos hlt] at h
        cases h
      · obtain ⟨u, hu, hjump⟩ := longJmp_spec hfind (Nat.not_lt.mp hlt)
        rw [h, Option.some_inj] at hu
        exact ⟨buf, rfl, hu ▸ hjump⟩

end ThreadState

/-! ## The start of a thread -/

/-- A thread that runs no function yet. -/
structure ThreadState.Started (t : ThreadState) : Prop where
  isInited : t.isInited = true
  inSignalHandler : t.inSignalHandler = 0
  shadowStackPos : t.shadowStackPos = 0
  stackOverflow : t.stackOverflow = 0
  jmpBufs : t.jmpBufs = []

def idleThread : ThreadState where
  ignoreBit := false
  ignores := ⟨0, 0⟩
  ignoreInterceptors := 0
  inSymbolizer := 0
  nomalloc := 0
  isInited := true
  inSignalHandler := 0
  inBlockingFunc := false
  intSignalSend := 0
  shadowStack _ := 0
  shadowStackPos := 0
  stackOverflow := 0
  jmpBufs := []
  optimised := false
  mainThreadTsanDisabled := false
  mainThreadState := ⟨0, 0⟩

theorem idleThread_started : idleThread.Started := ⟨rfl, rfl, rfl, rfl, rfl⟩

end Mair.LongJump
