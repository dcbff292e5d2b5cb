import Mair.Library.Runs
import Mair.LongJump.Operations

/-! # The shadow stack and the calls

Past the end the shadow stack is a counter and one slot. The jump record holds a position
only, and the slot is one of the entries. -/

namespace Mair.LongJump

open SwapRemoval

/-! ## Calls -/

/-- An active function. `armed` says that it has called `setjmp`. -/
structure Call where
  pc : ℕ
  sp : ℕ
  armed : Bool
  deriving DecidableEq

/-- The active functions, the innermost first, and the last one that was entered with the shadow
stack full. -/
structure Calls where
  active : List Call
  spilled : ℕ

inductive CallEvent where
  | entry (pc sp : ℕ)
  | exit
  | setjmp (sp : ℕ)
  | longjmp (sp : ℕ)

namespace Calls

/-- The active functions without those that a jump to the frame at `sp` leaves. -/
def target (c : Calls) (sp : ℕ) : List Call := c.active.dropWhile fun f => f.sp ≠ sp

/-- Real control flow: the stack grows down, and a jump goes to an active function that has called
`setjmp`. -/
def next (c : Calls) : CallEvent → Option Calls
  | .entry pc sp =>
      if 0 < sp ∧ ∀ f ∈ c.active.head?, sp < f.sp then
        some {
          active := ⟨pc, sp, false⟩ :: c.active
          spilled := if c.active.length ≥ kShadowStackSize - 1 then pc else c.spilled }
      else none
  | .exit =>
      match c.active with
      | [] => none
      | _ :: rest => some { c with active := rest }
  | .setjmp sp =>
      match c.active with
      | [] => none
      | f :: rest =>
          if f.sp = sp then some { c with active := { f with armed := true } :: rest } else none
  | .longjmp sp =>
      match c.target sp with
      | [] => none
      | f :: rest => if f.armed then some { c with active := f :: rest } else none

end Calls

/-- What the instrumentation and the interceptors call. -/
def ThreadState.exec (t : ThreadState) : CallEvent → Option ThreadState
  | .entry pc _ => some (t.funcEntry pc)
  | .exit => some t.funcExit
  | .setjmp sp => some (t.setJmp sp)
  | .longjmp sp => t.longJmp sp

structure CallState where
  calls : Calls
  thread : ThreadState

namespace CallState

/-- Shows the state that is reached, or that the code has failed. -/
def step (s : CallState) (e : CallEvent) : Option (CallState × List (Option CallState)) :=
  (s.calls.next e).map fun calls =>
    match s.thread.exec e with
    | some thread => (⟨calls, thread⟩, [some ⟨calls, thread⟩])
    | none => (⟨calls, s.thread⟩, [none])

/-- The pcs of the active functions, the outermost first. -/
def pcs (c : Calls) : List ℕ := (c.active.map Call.pc).reverse

structure Tracks (s : CallState) : Prop where
  pos_le : s.thread.shadowStackPos ≤ kShadowStackSize - 1
  depth : s.thread.shadowStackPos + s.thread.stackOverflow = s.calls.active.length
  entries : s.thread.stackOverflow = 0 →
    (List.range s.thread.shadowStackPos).map s.thread.shadowStack = pcs s.calls

def Good (o : Option CallState) : Prop := ∃ s, o = some s ∧ s.Tracks

/-- The counter does not wrap; a return that empties it finds in the slot the function that is now
the innermost; and a jump that leaves a function goes to one below the slot. -/
def Recovers (s : CallState) : CallEvent → Prop
  | .entry _ _ => s.calls.active.length + 1 < kShadowStackSize - 1 + 2 ^ 32
  | .exit => s.calls.active.length = kShadowStackSize →
      ∀ f ∈ s.calls.active[1]?, f.pc = s.calls.spilled
  | .setjmp _ => True
  | .longjmp sp => (s.calls.target sp).length < kShadowStackSize - 1 ∨
      s.calls.target sp = s.calls.active

end CallState

/-! ## The stack -/

section Stack

variable {t : ThreadState} {pcs more : List ℕ} {pc spilled pos : ℕ}

theorem two_le_kShadowStackSize : 2 ≤ kShadowStackSize := by decide

/-- The shadow stack for active functions with these pcs. -/
structure Holds (pcs : List ℕ) (spilled : ℕ) (t : ThreadState) : Prop where
  pos : t.shadowStackPos = min pcs.length (kShadowStackSize - 1)
  overflow : t.stackOverflow = pcs.length - (kShadowStackSize - 1)
  entries : ∀ i, i < min pcs.length (kShadowStackSize - 1) →
    pcs.length ≤ kShadowStackSize - 1 ∨ i < kShadowStackSize - 2 → pcs[i]? = some (t.shadowStack i)
  slot : kShadowStackSize - 1 < pcs.length → t.shadowStack (kShadowStackSize - 2) = spilled

theorem Holds.entry (pc : ℕ) (h : Holds pcs spilled t)
    (hlt : pcs.length + 1 < kShadowStackSize - 1 + 2 ^ 32) :
    Holds (pcs ++ [pc]) (if pcs.length ≥ kShadowStackSize - 1 then pc else spilled)
      (t.funcEntry pc) := by
  have hsize := two_le_kShadowStackSize
  have hpos := h.pos
  have hoverflow := h.overflow
  have hlength : (pcs ++ [pc]).length = pcs.length + 1 := List.length_append
  by_cases hfull : pcs.length ≥ kShadowStackSize - 1
  · have hge : t.shadowStackPos ≥ kShadowStackSize - 1 := by omega
    rw [if_pos hfull, ThreadState.funcEntry, if_pos hge]
    refine ⟨?_, ?_, ?_, ?_⟩
    · simp only [hlength]
      omega
    · simp only [hlength]
      omega
    · intro i hi hlow
      simp only [hlength] at hi hlow ⊢
      rw [List.getElem?_append_left (by omega), Function.update_of_ne (by omega)]
      exact h.entries i (by omega) (by omega)
    · intro hlt'
      simp only [Function.update_self]
  · have hge : ¬t.shadowStackPos ≥ kShadowStackSize - 1 := by omega
    have hlast : t.shadowStackPos = pcs.length := by omega
    rw [if_neg hfull, ThreadState.funcEntry, if_neg hge]
    refine ⟨?_, ?_, ?_, ?_⟩
    · simp only [hlength]
      omega
    · simp only [hlength]
      omega
    · intro i hi hlow
      simp only [hlength] at hi hlow ⊢
      by_cases hi' : i = pcs.length
      · rw [hi', hlast, Function.update_self, List.getElem?_concat_length]
      · rw [List.getElem?_append_left (by omega), Function.update_of_ne (by omega)]
        exact h.entries i (by omega) (by omega)
    · intro hlt'
      omega

/-- Only the return that empties the counter depends on the slot. -/
theorem Holds.exit (h : Holds (pcs ++ [pc]) spilled t)
    (hslot : pcs.length = kShadowStackSize - 1 →
      pcs[kShadowStackSize - 2]? = some spilled) :
    Holds pcs spilled t.funcExit := by
  have hsize := two_le_kShadowStackSize
  have hpos := h.pos
  have hoverflow := h.overflow
  have hlength : (pcs ++ [pc]).length = pcs.length + 1 := List.length_append
  have hentries : ∀ i, i < min pcs.length (kShadowStackSize - 1) →
      pcs.length ≤ kShadowStackSize - 1 ∨ i < kShadowStackSize - 2 →
        pcs[i]? = some (t.shadowStack i) := by
    intro i hi hlow
    by_cases hi' : i < kShadowStackSize - 2 ∨ pcs.length < kShadowStackSize - 1
    · have hentry := h.entries i (by omega) (by omega)
      rw [List.getElem?_append_left (by omega)] at hentry
      exact hentry
    · have hi'' : i = kShadowStackSize - 2 := by omega
      rw [hi'', h.slot (by omega)]
      exact hslot (by omega)
  by_cases hfull : pcs.length ≥ kShadowStackSize - 1
  · have hne : t.stackOverflow ≠ 0 := by omega
    rw [ThreadState.funcExit, if_pos hne]
    refine ⟨?_, ?_, hentries, ?_⟩
    · simp only
      omega
    · simp only
      omega
    · intro hlt
      exact h.slot (by omega)
  · have hne : ¬t.stackOverflow ≠ 0 := by omega
    rw [ThreadState.funcExit, if_neg hne]
    refine ⟨?_, ?_, hentries, ?_⟩
    · simp only
      omega
    · simp only
      omega
    · intro hlt
      omega

/-- A jump below the slot leaves nothing of what came after. -/
theorem Holds.jump {t' : ThreadState} {buf : JmpBuf} (h : Holds (pcs ++ more) spilled t)
    (hjump : ThreadState.Jumped buf t t')
    (hpos : buf.shadowStackPos = min pcs.length (kShadowStackSize - 1))
    (hlow : pcs.length < kShadowStackSize - 1 ∨ more = []) : Holds pcs spilled t' := by
  have hlength : (pcs ++ more).length = pcs.length + more.length := List.length_append
  have htpos := h.pos
  have htoverflow := h.overflow
  refine ⟨hjump.shadowStackPos.trans hpos, ?_, ?_, ?_⟩
  · rw [hjump.stackOverflow]
    rcases hlow with hlow | rfl
    · split_ifs <;> omega
    · rw [List.length_nil] at hlength
      rw [if_neg (by omega)]
      omega
  · intro i hi hslot
    have hentry := h.entries i (by omega) (by
      rcases hlow with hlow | rfl
      · omega
      · rw [List.append_nil]
        exact hslot)
    rw [List.getElem?_append_left (by omega)] at hentry
    rw [hjump.shadowStack]
    exact hentry
  · intro hfull
    rw [hjump.shadowStack]
    exact h.slot (by omega)

theorem Holds.map_range (h : Holds pcs spilled t) (hzero : t.stackOverflow = 0) :
    (List.range t.shadowStackPos).map t.shadowStack = pcs := by
  have hpos := h.pos
  have hoverflow := h.overflow
  apply List.ext_getElem?
  intro i
  rw [List.getElem?_map]
  by_cases hi : i < pcs.length
  · rw [h.entries i (by omega) (by omega), List.getElem?_range (by omega)]
    rfl
  · rw [List.getElem?_eq_none (by rw [List.length_range]; omega), List.getElem?_eq_none (by omega)]
    rfl

end Stack

/-! ## Records -/

section Records

variable {t : ThreadState} {active : List Call} {sp : ℕ} {f : Call}

/-- Each active function that has called `setjmp` has one record, at its position. -/
structure Records (active : List Call) (t : ThreadState) : Prop where
  inited : t.isInited = true
  handler : t.inSignalHandler = 0
  sorted : active.Pairwise fun f g => f.sp < g.sp
  positive : ∀ f ∈ active, 0 < f.sp
  nodup : (t.jmpBufs.map JmpBuf.sp).Nodup
  normal : ∀ buf ∈ t.jmpBufs, buf.inSignalHandler = 0
  found : ∀ f rest, f :: rest <:+ active → f.armed → ∃ buf ∈ t.jmpBufs,
    buf.sp = f.sp ∧ buf.shadowStackPos = min (rest.length + 1) (kShadowStackSize - 1)

theorem Records.entry {pc : ℕ} (h : Records active t) (hsp : 0 < sp)
    (htop : ∀ f ∈ active.head?, sp < f.sp) :
    Records (⟨pc, sp, false⟩ :: active) (t.funcEntry pc) where
  inited := by rw [ThreadState.funcEntry_isInited]; exact h.inited
  handler := by rw [ThreadState.funcEntry_inSignalHandler]; exact h.handler
  sorted := by
    refine List.pairwise_cons.mpr ⟨?_, h.sorted⟩
    intro f hf
    cases active with
    | nil => cases hf
    | cons g rest =>
        have hg : sp < g.sp := htop g rfl
        rcases List.mem_cons.mp hf with rfl | hf
        · exact hg
        · exact Nat.lt_trans hg ((List.pairwise_cons.mp h.sorted).1 f hf)
  positive := by
    intro f hf
    rcases List.mem_cons.mp hf with rfl | hf
    · exact hsp
    · exact h.positive f hf
  nodup := by rw [ThreadState.funcEntry_jmpBufs]; exact h.nodup
  normal := by rw [ThreadState.funcEntry_jmpBufs]; exact h.normal
  found := by
    intro f rest hsuffix harmed
    rw [ThreadState.funcEntry_jmpBufs]
    rcases List.suffix_cons_iff.mp hsuffix with heq | hsuffix
    · cases heq
      cases harmed
    · exact h.found f rest hsuffix harmed

theorem Records.exit {rest : List Call} (h : Records (f :: rest) t) :
    Records rest t.funcExit where
  inited := by rw [ThreadState.funcExit_isInited]; exact h.inited
  handler := by rw [ThreadState.funcExit_inSignalHandler]; exact h.handler
  sorted := (List.pairwise_cons.mp h.sorted).2
  positive g hg := h.positive g (List.mem_cons_of_mem f hg)
  nodup := by rw [ThreadState.funcExit_jmpBufs]; exact h.nodup
  normal := by rw [ThreadState.funcExit_jmpBufs]; exact h.normal
  found := by
    intro g rest' hsuffix harmed
    rw [ThreadState.funcExit_jmpBufs]
    exact h.found g rest' (hsuffix.trans (List.suffix_cons f rest)) harmed

/-- The functions further out keep their records, since they lie higher. -/
theorem Records.setJmp {rest : List Call} (h : Records (f :: rest) t)
    (hpos : t.shadowStackPos = min (rest.length + 1) (kShadowStackSize - 1)) :
    Records ({ f with armed := true } :: rest) (t.setJmp f.sp) := by
  have hjmpBufs : (t.setJmp f.sp).jmpBufs =
      (t.jmpBufGarbageCollect f.sp).jmpBufs ++ [t.jmpBuf f.sp] := by
    rw [ThreadState.setJmp_eq h.inited]
  have hkept : ∀ buf ∈ (t.jmpBufGarbageCollect f.sp).jmpBufs, buf ∈ t.jmpBufs ∧ f.sp < buf.sp := by
    intro buf hbuf
    rw [ThreadState.mem_garbageCollect] at hbuf
    exact ⟨hbuf.1, hbuf.2 (by rw [h.normal buf hbuf.1, h.handler])⟩
  have hsorted := List.pairwise_cons.mp h.sorted
  refine ⟨?_, ?_, ?_, ?_, ?_, ?_, ?_⟩
  · rw [ThreadState.setJmp_eq h.inited]
    exact h.inited
  · rw [ThreadState.setJmp_eq h.inited]
    exact h.handler
  · exact List.pairwise_cons.mpr hsorted
  · intro g hg
    rcases List.mem_cons.mp hg with rfl | hg
    · exact h.positive f List.mem_cons_self
    · exact h.positive g (List.mem_cons_of_mem f hg)
  · rw [hjmpBufs, List.map_append, List.nodup_append]
    refine ⟨ThreadState.nodup_garbageCollect h.nodup, by simp, ?_⟩
    intro a ha b hb
    obtain ⟨buf, hbuf, rfl⟩ := List.mem_map.mp ha
    have hlt := (hkept buf hbuf).2
    rw [List.map_singleton, List.mem_singleton] at hb
    rw [hb]
    exact Nat.ne_of_gt hlt
  · intro buf hbuf
    rw [hjmpBufs] at hbuf
    rcases List.mem_append.mp hbuf with hbuf | hbuf
    · exact h.normal buf (hkept buf hbuf).1
    · rw [List.mem_singleton.mp hbuf]
      exact h.handler
  · intro g rest' hsuffix harmed
    rw [hjmpBufs]
    rcases List.suffix_cons_iff.mp hsuffix with heq | hsuffix
    · cases heq
      exact ⟨t.jmpBuf f.sp, by simp, rfl, hpos⟩
    · obtain ⟨buf, hbuf, hsp, hbufpos⟩ :=
        h.found g rest' (hsuffix.trans (List.suffix_cons f rest)) harmed
      have hlt : f.sp < buf.sp := by
        rw [hsp]
        exact hsorted.1 g (hsuffix.subset List.mem_cons_self)
      refine ⟨buf, List.mem_append_left _ ?_, hsp, hbufpos⟩
      exact ThreadState.mem_garbageCollect.mpr ⟨hbuf, fun _ => hlt⟩

theorem Records.find {rest : List Call} (h : Records active t) (hsuffix : f :: rest <:+ active)
    (harmed : f.armed) : ∃ buf, (t.jmpBufs.find? fun b => b.sp = f.sp) = some buf ∧
      buf.inSignalHandler = 0 ∧
        buf.shadowStackPos = min (rest.length + 1) (kShadowStackSize - 1) := by
  obtain ⟨buf, hbuf, hsp, hpos⟩ := h.found f rest hsuffix harmed
  exact ⟨buf, (find_eq_some_iff h.nodup).mpr ⟨hbuf, hsp⟩, h.normal buf hbuf, hpos⟩

theorem Records.jump {rest : List Call} {t' : ThreadState} {buf : JmpBuf} (h : Records active t)
    (hsuffix : f :: rest <:+ active) (hjump : ThreadState.Jumped buf t t')
    (hbuf : buf.inSignalHandler = 0) (hsp : buf.sp = f.sp) : Records (f :: rest) t' where
  inited := hjump.isInited.trans h.inited
  handler := hjump.inSignalHandler.trans hbuf
  sorted := h.sorted.sublist hsuffix.sublist
  positive g hg := h.positive g (hsuffix.subset hg)
  nodup := hjump.nodup h.nodup
  normal b hb := h.normal b ((hjump.mem_iff b).mp hb).1
  found := by
    intro g rest' hsuffix' harmed
    obtain ⟨b, hb, hbsp, hpos⟩ := h.found g rest' (hsuffix'.trans hsuffix) harmed
    refine ⟨b, (hjump.mem_iff b).mpr ⟨hb, fun _ => ?_⟩, hbsp, hpos⟩
    have hf : 0 < f.sp := h.positive f (hsuffix.subset List.mem_cons_self)
    have hle : f.sp ≤ g.sp := by
      rcases List.mem_cons.mp (hsuffix'.subset List.mem_cons_self) with rfl | hg
      · exact le_rfl
      · exact Nat.le_of_lt ((List.pairwise_cons.mp (h.sorted.sublist hsuffix.sublist)).1 g hg)
    omega

end Records

/-! ## Runs -/

namespace CallState

variable {s : CallState} {c : Calls} {e : CallEvent}

structure Inv (s : CallState) : Prop where
  stack : Holds (pcs s.calls) s.calls.spilled s.thread
  records : Records s.calls.active s.thread
  bound : s.calls.active.length < kShadowStackSize - 1 + 2 ^ 32

theorem length_pcs : (pcs c).length = c.active.length := by simp [pcs]

theorem Inv.tracks (h : Inv s) : s.Tracks where
  pos_le := by
    rw [h.stack.pos]
    exact Nat.min_le_right ..
  depth := by
    rw [h.stack.pos, h.stack.overflow, length_pcs]
    omega
  entries hzero := h.stack.map_range hzero

/-- What an event does to a state that meets the invariant. -/
def Outcome (s : CallState) (e : CallEvent) (c : Calls) : Prop :=
  ∃ t, s.thread.exec e = some t ∧ (s.Recovers e → Inv ⟨c, t⟩) ∧ (¬s.Recovers e → ¬Tracks ⟨c, t⟩)

theorem Inv.entry {pc sp : ℕ} (h : Inv s) (hnext : s.calls.next (.entry pc sp) = some c) :
    Outcome s (.entry pc sp) c := by
  have hsize := two_le_kShadowStackSize
  have hbound := h.bound
  have hpos := h.stack.pos
  have hoverflow := h.stack.overflow
  rw [length_pcs] at hpos hoverflow
  simp only [Calls.next, Option.ite_none_right_eq_some, Option.some_inj] at hnext
  obtain ⟨⟨hsp, htop⟩, rfl⟩ := hnext
  refine ⟨s.thread.funcEntry pc, rfl, ?_, ?_⟩
  · intro hrecovers
    refine ⟨?_, h.records.entry hsp htop, hrecovers⟩
    have hstack := h.stack.entry pc (by rw [length_pcs]; exact hrecovers)
    rw [length_pcs] at hstack
    simpa [pcs] using hstack
  · intro hwraps htracks
    have hdepth := htracks.depth
    have hlength : s.calls.active.length + 1 = kShadowStackSize - 1 + 2 ^ 32 := by
      simp only [Recovers] at hwraps
      omega
    have hfull : s.thread.shadowStackPos ≥ kShadowStackSize - 1 := by omega
    simp only [ThreadState.funcEntry, if_pos hfull, List.length_cons] at hdepth
    omega

theorem Inv.exit (h : Inv s) (hnext : s.calls.next .exit = some c) : Outcome s .exit c := by
  have hsize := two_le_kShadowStackSize
  have hbound := h.bound
  obtain ⟨⟨active, spilled⟩, t⟩ := s
  cases active with
  | nil => cases hnext
  | cons f rest =>
      cases hnext
      have hpcs : pcs ⟨f :: rest, spilled⟩ = pcs ⟨rest, spilled⟩ ++ [f.pc] := by simp [pcs]
      have hlast : ∀ (hlength : rest.length = kShadowStackSize - 1),
          (pcs ⟨rest, spilled⟩)[kShadowStackSize - 2]? = rest.head?.map Call.pc := by
        intro hlength
        cases rest with
        | nil =>
            rw [List.length_nil] at hlength
            omega
        | cons g rest =>
            rw [List.length_cons] at hlength
            have hindex : kShadowStackSize - 2 = (pcs ⟨rest, spilled⟩).length := by
              rw [length_pcs]
              simp only
              omega
            rw [hindex]
            simp [pcs]
      have hstack : Holds (pcs ⟨f :: rest, spilled⟩) spilled t := h.stack
      rw [hpcs] at hstack
      refine ⟨t.funcExit, rfl, ?_, ?_⟩
      · intro hrecovers
        refine ⟨hstack.exit ?_, h.records.exit, ?_⟩
        · intro hlength
          rw [length_pcs] at hlength
          rw [hlast hlength]
          cases rest with
          | nil =>
              simp only [List.length_nil] at hlength
              omega
          | cons g rest =>
              have hg := hrecovers (by simp only [List.length_cons] at hlength ⊢; omega) g rfl
              simp [hg]
        · simp only [List.length_cons] at hbound ⊢
          omega
      · intro hlost htracks
        have hlength : rest.length = kShadowStackSize - 1 := by
          by_contra hne
          refine hlost fun hfull => ?_
          simp only [List.length_cons] at hfull
          omega
        have hslot := hstack.slot (by rw [List.length_append, length_pcs, hlength]; simp)
        have hpos := hstack.pos
        have hoverflow := hstack.overflow
        rw [List.length_append, length_pcs, hlength, List.length_singleton] at hpos hoverflow
        rw [Nat.min_eq_right (Nat.le_succ _)] at hpos
        have hne : t.stackOverflow ≠ 0 := by omega
        have hentries := htracks.entries
        simp only [ThreadState.funcExit, if_pos hne] at hentries
        have hentry := congrArg (fun l => l[kShadowStackSize - 2]?) (hentries (by omega))
        simp only [List.getElem?_map] at hentry
        rw [List.getElem?_range (by omega), hlast hlength] at hentry
        refine hlost fun _ g hg => ?_
        rw [List.getElem?_cons_succ, ← List.head?_eq_getElem?] at hg
        rw [Option.mem_def.mp hg] at hentry
        rw [← hslot]
        exact (Option.some_inj.mp hentry).symm

theorem Inv.setjmp {sp : ℕ} (h : Inv s) (hnext : s.calls.next (.setjmp sp) = some c) :
    Outcome s (.setjmp sp) c := by
  obtain ⟨⟨active, spilled⟩, t⟩ := s
  cases active with
  | nil => cases hnext
  | cons f rest =>
      simp only [Calls.next, Option.ite_none_right_eq_some, Option.some_inj] at hnext
      obtain ⟨rfl, rfl⟩ := hnext
      have hpos := h.stack.pos
      rw [length_pcs] at hpos
      refine ⟨t.setJmp f.sp, rfl, ?_, ?_⟩
      · intro _
        refine ⟨?_, h.records.setJmp hpos, h.bound⟩
        rw [ThreadState.setJmp_eq h.records.inited]
        exact ⟨h.stack.pos, h.stack.overflow, h.stack.entries, h.stack.slot⟩
      · intro hfails
        exact absurd trivial hfails

theorem Inv.longjmp {sp : ℕ} (h : Inv s) (hnext : s.calls.next (.longjmp sp) = some c) :
    Outcome s (.longjmp sp) c := by
  have hsize := two_le_kShadowStackSize
  have hbound := h.bound
  cases htarget : s.calls.target sp with
  | nil => simp [Calls.next, htarget] at hnext
  | cons f rest =>
      simp only [Calls.next, htarget, Option.ite_none_right_eq_some, Option.some_inj] at hnext
      obtain ⟨harmed, rfl⟩ := hnext
      have hsuffix : f :: rest <:+ s.calls.active := htarget ▸ List.dropWhile_suffix _
      have hsp : f.sp = sp := by
        have hhead := List.head?_dropWhile_not (fun f : Call => f.sp ≠ sp) s.calls.active
        rw [show s.calls.active.dropWhile (fun f : Call => f.sp ≠ sp) = f :: rest from htarget]
          at hhead
        simpa using hhead
      subst hsp
      obtain ⟨buf, hfind, hnormal, hbufpos⟩ := h.records.find hsuffix harmed
      have hbufsp : buf.sp = f.sp := ((find_eq_some_iff h.records.nodup).mp hfind).2
      have hpos := h.stack.pos
      have hoverflow := h.stack.overflow
      rw [length_pcs] at hpos hoverflow
      have hle : rest.length + 1 ≤ s.calls.active.length := hsuffix.length_le
      obtain ⟨t, hjmp, hjump⟩ := ThreadState.longJmp_spec hfind (by omega)
      have hjumppos := hjump.shadowStackPos
      have hjumpoverflow := hjump.stackOverflow
      refine ⟨t, hjmp, ?_, ?_⟩
      · intro hrecovers
        refine ⟨?_, h.records.jump hsuffix hjump hnormal hbufsp, ?_⟩
        · obtain ⟨front, hfront⟩ := hsuffix
          have hpcs : pcs s.calls = pcs ⟨f :: rest, s.calls.spilled⟩ ++
              (front.map Call.pc).reverse := by
            simp [pcs, ← hfront]
          have hstack := h.stack
          rw [hpcs] at hstack
          refine hstack.jump hjump (by rw [length_pcs]; exact hbufpos) ?_
          rw [length_pcs]
          rcases hrecovers with hlow | heq
          · rw [htarget] at hlow
            exact Or.inl hlow
          · rw [htarget, ← hfront] at heq
            have hnil : front = [] := List.self_eq_append_left.mp heq
            rw [hnil]
            exact Or.inr rfl
        · simp only [List.length_cons]
          omega
      · intro hlost htracks
        have hdepth := htracks.depth
        simp only [Recovers, htarget, List.length_cons, not_or] at hlost
        have hne : rest.length + 1 ≠ s.calls.active.length := by
          intro heq
          exact hlost.2 (hsuffix.eq_of_length heq)
        simp only [List.length_cons] at hdepth
        rw [if_neg (by omega)] at hjumpoverflow
        omega

theorem Inv.outcome (h : Inv s) (hnext : s.calls.next e = some c) : Outcome s e c := by
  cases e with
  | entry pc sp => exact h.entry hnext
  | exit => exact h.exit hnext
  | setjmp sp => exact h.setjmp hnext
  | longjmp sp => exact h.longjmp hnext

theorem Inv.step (h : Inv s) (hnext : s.calls.next e = some c) :
    ∃ t, s.step e = some (⟨c, t⟩, [some ⟨c, t⟩]) ∧ (s.Recovers e → Inv ⟨c, t⟩) ∧
      (¬s.Recovers e → ¬Tracks ⟨c, t⟩) := by
  obtain ⟨t, hexec, hgood, hbad⟩ := h.outcome hnext
  refine ⟨t, ?_, hgood, hbad⟩
  rw [CallState.step, hnext, hexec]
  rfl

theorem step_good {s' : CallState} {obs : List (Option CallState)} (h : Inv s)
    (hrecovers : s.Recovers e) (hstep : s.step e = some (s', obs)) :
    Inv s' ∧ ∀ o ∈ obs, Good o := by
  obtain ⟨c, hnext, -⟩ := Option.map_eq_some_iff.mp hstep
  obtain ⟨t, hstep', hgood, -⟩ := h.step hnext
  rw [hstep, Option.some_inj] at hstep'
  cases hstep'
  have hinv := hgood hrecovers
  refine ⟨hinv, ?_⟩
  intro o ho
  rw [List.mem_singleton] at ho
  exact ⟨_, ho, hinv.tracks⟩

theorem step_bad {s' : CallState} {obs : List (Option CallState)} (h : Inv s)
    (hlost : ¬s.Recovers e) (hstep : s.step e = some (s', obs)) : ∃ o ∈ obs, ¬Good o := by
  obtain ⟨c, hnext, -⟩ := Option.map_eq_some_iff.mp hstep
  obtain ⟨t, hstep', -, hbad⟩ := h.step hnext
  rw [hstep, Option.some_inj] at hstep'
  cases hstep'
  refine ⟨_, List.mem_singleton_self _, ?_⟩
  rintro ⟨s, hs, htracks⟩
  cases hs
  exact hbad hlost htracks

end CallState

def CallState.start (t : ThreadState) : CallState := ⟨⟨[], 0⟩, t⟩

theorem ThreadState.Started.inv {t : ThreadState} (h : t.Started) : (CallState.start t).Inv where
  stack := by
    refine ⟨?_, ?_, ?_, ?_⟩
    · exact h.shadowStackPos
    · exact h.stackOverflow.trans (Nat.zero_sub _).symm
    · intro i hi
      exact absurd hi (Nat.not_lt_zero i ∘ fun hlt => Nat.lt_of_lt_of_le hlt (Nat.min_le_left ..))
    · intro hlt
      exact absurd hlt (Nat.not_lt_zero _)
  records := by
    have hjmpBufs : (CallState.start t).thread.jmpBufs = [] := h.jmpBufs
    refine ⟨h.isInited, h.inSignalHandler, .nil, ?_, ?_, ?_, ?_⟩
    · intro f hf
      cases hf
    · rw [hjmpBufs]
      exact .nil
    · rw [hjmpBufs]
      intro buf hbuf
      cases hbuf
    · intro f rest hsuffix
      exact absurd (List.suffix_nil.mp hsuffix) (List.cons_ne_nil f rest)
  bound := by
    exact Nat.lt_add_left _ (show 0 < 2 ^ 32 by decide)

open CallState Runs in
/-- The shadow stack tracks the calls in every state that a run reaches, if and only if each event
of the run meets the condition. -/
theorem tracks_iff_recovers {t last : ThreadState} {calls : Calls} {events : List CallEvent}
    {obs : List (Option CallState)} (ht : t.Started)
    (hrun : run CallState.step (start t) events = some (⟨calls, last⟩, obs)) :
    (∀ o ∈ obs, Good o) ↔ Meets CallState.step Recovers (start t) events :=
  run_good_iff (fun _ _ _ _ => step_good) (fun _ _ _ _ => step_bad) ht.inv hrun

/-! ## A return past the end -/

namespace CallState

def descend : ℕ → List CallEvent
  | 0 => []
  | n + 1 => .entry 1 (n + 2) :: descend n

/-- Calls until the stack is full, one more function is entered, and it returns. -/
def spill : List CallEvent := descend (kShadowStackSize - 1) ++ [.entry 2 1, .exit]

def Fails (s : CallState) (events : List CallEvent) : Prop :=
  ∃ last obs, Runs.run CallState.step s events = some (last, obs) ∧ ∃ o ∈ obs, ¬Good o

variable {s : CallState} {c : Calls} {e : CallEvent}

theorem Inv.fails_cons {events : List CallEvent} (h : Inv s) (hnext : s.calls.next e = some c)
    (hrecovers : s.Recovers e) (hrest : ∀ t, Inv ⟨c, t⟩ → Fails ⟨c, t⟩ events) :
    Fails s (e :: events) := by
  obtain ⟨t, hstep, hgood, -⟩ := h.step hnext
  obtain ⟨last, obs, hrun, o, ho, hbad⟩ := hrest t (hgood hrecovers)
  exact ⟨last, _, Runs.run_cons_iff.mpr ⟨_, _, _, hstep, hrun, rfl⟩, o,
    List.mem_append_right _ ho, hbad⟩

theorem Inv.fails_last (h : Inv s) (hnext : s.calls.next e = some c) (hlost : ¬s.Recovers e) :
    Fails s [e] := by
  obtain ⟨t, hstep, -, -⟩ := h.step hnext
  refine ⟨_, _, Runs.run_cons_iff.mpr ⟨_, _, _, hstep, rfl, rfl⟩, ?_⟩
  obtain ⟨o, ho, hbad⟩ := step_bad h hlost hstep
  exact ⟨o, List.mem_append_left _ ho, hbad⟩

theorem descend_fails {n : ℕ} (h : Inv s) (hroom : s.calls.active.length + n = kShadowStackSize - 1)
    (htop : ∀ f ∈ s.calls.active.head?, f.pc = 1 ∧ n + 1 < f.sp) :
    Fails s (descend n ++ [.entry 2 1, .exit]) := by
  have hsize := two_le_kShadowStackSize
  induction n generalizing s with
  | zero =>
      have hlower : ∀ f ∈ s.calls.active.head?, 1 < f.sp := fun f hf => (htop f hf).2
      have hfull : s.calls.active.length ≥ kShadowStackSize - 1 := by omega
      refine h.fails_cons (if_pos ⟨Nat.one_pos, hlower⟩) ?_ ?_
      · simp only [Recovers]
        omega
      · intro t ht
        refine ht.fails_last rfl ?_
        intro hrecovers
        cases hactive : s.calls.active with
        | nil =>
            rw [hactive, List.length_nil] at hfull
            omega
        | cons f rest =>
            rw [if_pos hfull] at hrecovers
            have hspilled :=
              hrecovers (by simp only [List.length_cons]; omega) f (by simp [hactive])
            rw [(htop f (by simp [hactive])).1] at hspilled
            cases hspilled
  | succ n ih =>
      have hlower : ∀ f ∈ s.calls.active.head?, n + 2 < f.sp := fun f hf => (htop f hf).2
      refine h.fails_cons (if_pos ⟨Nat.succ_pos _, hlower⟩) ?_ ?_
      · simp only [Recovers]
        omega
      · intro t ht
        refine ih ht ?_ ?_
        · simp only [List.length_cons]
          omega
        · intro f hf
          cases hf
          exact ⟨rfl, Nat.lt_succ_self _⟩

/-- The function that returned is the innermost entry. -/
theorem spill_fails : Fails (start idleThread) spill :=
  descend_fails idleThread_started.inv (Nat.zero_add _) (by simp [start])

theorem tracks_iff_recovers_call :
    (∀ o ∈ [some ⟨⟨[⟨1, 2, false⟩], 0⟩, idleThread.funcEntry 1⟩], Good o) ↔
      Runs.Meets CallState.step Recovers (start idleThread) [.entry 1 2] :=
  tracks_iff_recovers idleThread_started rfl

end CallState

end Mair.LongJump
