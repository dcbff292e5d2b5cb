import Mair.Library.Runs
import Mair.LongJump.Operations

/-! # Jumps to an environment

A jump finds its record by the stack pointer alone, and the collection keeps the records of the
other kind, of handlers or of normal code. Handlers may run on the stack of the code that they
interrupt. -/

namespace Mair.LongJump

open SwapRemoval

/-! ## Histories of a thread -/

/-- An active function. `handler` holds what `CallUserSignalHandler` keeps for it if it is a signal
handler, and `env` the record that `SetJmp` has made of the environment that it filled. -/
structure Frame where
  sp : ℕ
  handler : Option Interrupted
  env : Option JmpBuf
  deriving DecidableEq

/-- `other` stands for `raise` and blocking calls, which change the two fields. -/
inductive JumpEvent where
  | call (pc sp : ℕ)
  | ret
  | deliver (pending : Bool) (pc sp : ℕ)
  | setjmp (sp : ℕ)
  | longjmp (sp : ℕ)
  | other (intSignalSend : ℤ) (inBlockingFunc : Bool)

structure EnvState where
  frames : List Frame
  thread : ThreadState

namespace EnvState

section Step

variable {S : Type*} [DecidableEq S] (stack : ℕ → S)

/-- The frame lies below the active ones of its stack. -/
def Fits (s : EnvState) (sp : ℕ) : Prop :=
  0 < sp ∧ ∀ f ∈ s.frames, stack f.sp = stack sp → sp < f.sp

instance (s : EnvState) (sp : ℕ) : Decidable (s.Fits stack sp) :=
  inferInstanceAs (Decidable (0 < sp ∧ ∀ f ∈ s.frames, stack f.sp = stack sp → sp < f.sp))

def target (s : EnvState) (sp : ℕ) : List Frame := s.frames.dropWhile fun f => f.sp ≠ sp

/-- Shows the state that is reached, unless the code has failed, and the record of the environment
that was jumped to. -/
abbrev Outcome := Option EnvState × Option JmpBuf

/-- A function runs on the stack of its caller, and a handler on any. A jump goes to an active
function that has filled its environment. -/
def step (s : EnvState) : JumpEvent → Option (EnvState × List Outcome)
  | .call pc sp =>
      if s.Fits stack sp ∧ ∀ f ∈ s.frames.head?, stack f.sp = stack sp then
        let s' : EnvState := ⟨⟨sp, none, none⟩ :: s.frames, s.thread.funcEntry pc⟩
        some (s', [(some s', none)])
      else none
  | .ret =>
      match s.frames with
      | [] => none
      | f :: rest =>
          let t := s.thread.funcExit
          let s' : EnvState := ⟨rest, match f.handler with
            | none => t
            | some saved => t.resume saved⟩
          some (s', [(some s', none)])
  | .deliver pending pc sp =>
      if s.Fits stack sp then
        let t := s.thread.deliver pending
        let s' : EnvState := ⟨⟨sp, some t.2, none⟩ :: s.frames, t.1.funcEntry pc⟩
        some (s', [(some s', none)])
      else none
  | .setjmp sp =>
      match s.frames with
      | [] => none
      | f :: rest =>
          if f.sp = sp then
            let s' : EnvState :=
              ⟨{ f with env := some (s.thread.jmpBuf sp) } :: rest, s.thread.setJmp sp⟩
            some (s', [(some s', none)])
          else none
  | .longjmp sp =>
      match s.target sp with
      | [] => none
      | f :: rest =>
          match f.env with
          | none => none
          | some env =>
              match s.thread.longJmp sp with
              | some t => some (⟨f :: rest, t⟩, [(some ⟨f :: rest, t⟩, some env)])
              | none => some (s, [(none, some env)])
  | .other intSignalSend inBlockingFunc =>
      let s' : EnvState := { s with thread := { s.thread with
        intSignalSend := intSignalSend
        inBlockingFunc := inBlockingFunc } }
      some (s', [(some s', none)])

end Step

/-! ## The law and when it holds -/

/-- A search by the stack pointer of an environment whose function is active finds its record. -/
def FindsOwn (s : EnvState) : Prop :=
  ∀ f ∈ s.frames, ∀ env ∈ f.env, (s.thread.jmpBufs.find? fun buf => buf.sp = f.sp) = some env

/-- The fields that a jump restores. -/
structure Restores (env : JmpBuf) (t : ThreadState) : Prop where
  shadowStackPos : t.shadowStackPos = env.shadowStackPos
  intSignalSend : t.intSignalSend = env.intSignalSend
  inBlockingFunc : t.inBlockingFunc = env.inBlockingFunc
  inSignalHandler : t.inSignalHandler = env.inSignalHandler

def Good (o : Outcome) : Prop :=
  ∃ s, o.1 = some s ∧ s.FindsOwn ∧ ∀ env ∈ o.2, Restores env s.thread

def SameKind (m n : ℕ) : Prop := m ≠ 0 ↔ n ≠ 0

/-- `setjmp` meets no record of the other kind with its stack pointer, and neither `setjmp` nor
`longjmp` meets an environment of its kind that is still active and lies lower, on another stack. -/
def Separate (s : EnvState) : JumpEvent → Prop
  | .setjmp sp =>
      (∀ buf ∈ s.thread.jmpBufs, buf.sp = sp →
        SameKind buf.inSignalHandler s.thread.inSignalHandler) ∧
      ∀ f ∈ s.frames.tail, ∀ env ∈ f.env,
        SameKind env.inSignalHandler s.thread.inSignalHandler → sp < f.sp
  | .longjmp sp =>
      ∀ g ∈ (s.target sp).head?, ∀ dest ∈ g.env, ∀ f ∈ (s.target sp).tail, ∀ env ∈ f.env,
        SameKind env.inSignalHandler dest.inSignalHandler → sp < f.sp
  | _ => True

/-- The overflow counter of the shadow stack does not wrap. -/
def Counted (s : EnvState) : JumpEvent → Prop
  | .call _ _ => s.thread.stackOverflow + 1 < 2 ^ 32
  | .deliver _ _ _ => s.thread.stackOverflow + 1 < 2 ^ 32
  | _ => True

end EnvState

/-! ## The position of a live environment -/

/-- The shadow stack has come to `n` calls, with a call for each active function, and it is not
below the position of an environment that an active function has filled. -/
def Accounted : List Frame → ℕ → Prop
  | [], _ => True
  | f :: rest, n => ∃ m, 0 < m ∧ m ≤ n ∧ (∀ env ∈ f.env,
      env.shadowStackPos ≤ m ∧ env.shadowStackPos ≤ kShadowStackSize - 1 ∧
        (env.shadowStackPos < kShadowStackSize - 1 → m ≤ env.shadowStackPos)) ∧
      Accounted rest (m - 1)

section Positions

variable {frames rest : List Frame} {f : Frame} {m n : ℕ}

theorem Accounted.mono (h : Accounted frames m) (hle : m ≤ n) : Accounted frames n := by
  cases frames with
  | nil => trivial
  | cons f rest =>
      obtain ⟨k, hpos, hk, henv, hrest⟩ := h
      exact ⟨k, hpos, Nat.le_trans hk hle, henv, hrest⟩

theorem Accounted.tail (h : Accounted (f :: rest) n) : Accounted rest (n - 1) := by
  obtain ⟨k, -, hk, -, hrest⟩ := h
  exact hrest.mono (by omega)

theorem Accounted.suffix (h : Accounted frames n) (hsuffix : rest <:+ frames) :
    Accounted rest n := by
  induction frames generalizing n with
  | nil =>
      rw [List.suffix_nil.mp hsuffix]
      trivial
  | cons f frames ih =>
      rcases List.suffix_cons_iff.mp hsuffix with rfl | hsuffix
      · exact h
      · exact (ih h.tail hsuffix).mono (Nat.sub_le n 1)

/-- The counter is only in use when the shadow stack is full. -/
structure Level (t : ThreadState) : Prop where
  pos_le : t.shadowStackPos ≤ kShadowStackSize - 1
  full : t.stackOverflow ≠ 0 → t.shadowStackPos = kShadowStackSize - 1

/-- What a thread has come to. -/
def ThreadState.total (t : ThreadState) : ℕ := t.shadowStackPos + t.stackOverflow

variable {t t' : ThreadState} {pc : ℕ} {buf : JmpBuf}

theorem Level.funcEntry (pc : ℕ) (h : Level t) (hcounted : t.stackOverflow + 1 < 2 ^ 32) :
    Level (t.funcEntry pc) ∧ (t.funcEntry pc).total = t.total + 1 := by
  have hpos := h.pos_le
  have hfull := h.full
  by_cases hge : t.shadowStackPos ≥ kShadowStackSize - 1
  · rw [ThreadState.funcEntry, if_pos hge]
    refine ⟨⟨hpos, fun _ => Nat.le_antisymm hpos hge⟩, ?_⟩
    simp only [ThreadState.total, Nat.mod_eq_of_lt hcounted]
    omega
  · rw [ThreadState.funcEntry, if_neg hge]
    refine ⟨⟨?_, ?_⟩, ?_⟩
    · simp only
      omega
    · intro hne
      exact absurd (Nat.le_of_eq (hfull hne).symm) hge
    · simp only [ThreadState.total]
      omega

theorem Level.funcExit (h : Level t) : Level t.funcExit ∧ t.funcExit.total = t.total - 1 := by
  have hpos := h.pos_le
  have hfull := h.full
  by_cases hne : t.stackOverflow ≠ 0
  · rw [ThreadState.funcExit, if_pos hne]
    refine ⟨⟨hpos, fun _ => hfull hne⟩, ?_⟩
    simp only [ThreadState.total]
    omega
  · rw [ThreadState.funcExit, if_neg hne]
    refine ⟨⟨?_, fun hne' => absurd hne' hne⟩, ?_⟩
    · simp only
      omega
    · simp only [ThreadState.total]
      omega

theorem Level.le_of_accounted (h : Level t) (hacc : Accounted (f :: rest) t.total)
    (henv : f.env = some buf) : buf.shadowStackPos ≤ t.shadowStackPos := by
  obtain ⟨m, -, hm, hbuf, -⟩ := hacc
  obtain ⟨hle, hle', -⟩ := hbuf buf henv
  have hfull := h.full
  simp only [ThreadState.total] at hm
  by_cases hne : t.stackOverflow ≠ 0
  · rw [hfull hne]
    exact hle'
  · omega

/-- After the jump the shadow stack has come to what it had come to at the `setjmp`, or further. -/
theorem Level.jump (h : Level t) (hacc : Accounted (f :: rest) t.total) (henv : f.env = some buf)
    (hjump : ThreadState.Jumped buf t t') : Level t' ∧ Accounted (f :: rest) t'.total := by
  have hpos := h.pos_le
  have hle := h.le_of_accounted hacc henv
  have hjumppos := hjump.shadowStackPos
  have hjumpoverflow := hjump.stackOverflow
  by_cases hgt : t.shadowStackPos > buf.shadowStackPos
  · rw [if_pos hgt] at hjumpoverflow
    refine ⟨⟨by omega, fun hne => absurd hjumpoverflow hne⟩, ?_⟩
    obtain ⟨m, hm, -, hbuf, hrest⟩ := hacc
    have hexact := (hbuf buf henv).2.2 (by omega)
    refine ⟨m, hm, ?_, hbuf, hrest⟩
    simp only [ThreadState.total]
    omega
  · rw [if_neg hgt] at hjumpoverflow
    have htotal : t'.total = t.total := by
      simp only [ThreadState.total]
      omega
    refine ⟨⟨by omega, ?_⟩, by rw [htotal]; exact hacc⟩
    intro hne
    rw [hjumpoverflow] at hne
    have hfull := h.full hne
    omega

theorem Accounted.setJmp (h : Accounted (f :: rest) t.total) (hlevel : Level t) {sp : ℕ} :
    Accounted ({ f with env := some (t.jmpBuf sp) } :: rest) t.total := by
  obtain ⟨m, hm, hle, -, hrest⟩ := h
  refine ⟨t.total, Nat.lt_of_lt_of_le hm hle, Nat.le_refl _, ?_, hrest.mono (by omega)⟩
  intro env henv
  cases henv
  refine ⟨Nat.le_add_right _ _, hlevel.pos_le, ?_⟩
  intro hlt
  have hfull := hlevel.full
  simp only [ThreadState.jmpBuf, ThreadState.total] at hlt ⊢
  omega

end Positions

/-! ## Steps -/

namespace EnvState

section Steps

variable {S : Type*} {stack : ℕ → S} {s s' : EnvState} {e : JumpEvent}
  {f : Frame} {frames rest : List Frame} {t t' : ThreadState} {sp : ℕ} {obs : List Outcome}

/-- The frames of one stack lie in the order of the calls. -/
structure Apart (stack : ℕ → S) (frames : List Frame) : Prop where
  positive : ∀ f ∈ frames, 0 < f.sp
  sorted : frames.Pairwise fun f g => stack f.sp = stack g.sp → f.sp < g.sp

/-- The records of the environments of active functions are there. -/
structure Held (frames : List Frame) (t : ThreadState) : Prop where
  nodup : (t.jmpBufs.map JmpBuf.sp).Nodup
  mem : ∀ f ∈ frames, ∀ env ∈ f.env, env ∈ t.jmpBufs ∧ env.sp = f.sp

structure Inv (stack : ℕ → S) (s : EnvState) : Prop where
  inited : s.thread.isInited = true
  apart : Apart stack s.frames
  held : Held s.frames s.thread
  level : Level s.thread
  accounted : Accounted s.frames s.thread.total

theorem Apart.cons (h : Apart stack s.frames) (hfits : s.Fits stack sp)
    (hsp : f.sp = sp) : Apart stack (f :: s.frames) where
  positive := by
    intro g hg
    rcases List.mem_cons.mp hg with rfl | hg
    · exact hsp ▸ hfits.1
    · exact h.positive g hg
  sorted := by
    refine List.pairwise_cons.mpr ⟨?_, h.sorted⟩
    intro g hg hstack
    rw [hsp] at hstack ⊢
    exact hfits.2 g hg hstack.symm

theorem Apart.suffix (h : Apart stack frames) (hsuffix : rest <:+ frames) : Apart stack rest where
  positive g hg := h.positive g (hsuffix.subset hg)
  sorted := h.sorted.sublist hsuffix.sublist

theorem Apart.ne_of_mem (h : Apart stack (f :: rest)) {g : Frame} (hg : g ∈ rest) :
    f.sp ≠ g.sp := by
  intro heq
  have hlt := (List.pairwise_cons.mp h.sorted).1 g hg (by rw [heq])
  omega

theorem Held.findsOwn (h : Held s.frames s.thread) : s.FindsOwn := by
  intro f hf env henv
  exact (find_eq_some_iff h.nodup).mpr (h.mem f hf env henv)

theorem Held.suffix (h : Held frames t) (hsuffix : rest <:+ frames) : Held rest t :=
  ⟨h.nodup, fun f hf => h.mem f (hsuffix.subset hf)⟩

theorem Held.cons (h : Held frames t) (henv : f.env = none) : Held (f :: frames) t := by
  refine ⟨h.nodup, ?_⟩
  intro g hg env hgenv
  rcases List.mem_cons.mp hg with rfl | hg
  · rw [henv] at hgenv
    cases hgenv
  · exact h.mem g hg env hgenv

theorem Held.congr (h : Held frames t) (heq : t'.jmpBufs = t.jmpBufs) : Held frames t' :=
  ⟨by rw [heq]; exact h.nodup, by rw [heq]; exact h.mem⟩

theorem mem_setJmp (hinited : t.isInited = true) {buf : JmpBuf} :
    buf ∈ (t.setJmp sp).jmpBufs ↔
      (buf ∈ t.jmpBufs ∧ (SameKind buf.inSignalHandler t.inSignalHandler → sp < buf.sp)) ∨
        buf = t.jmpBuf sp := by
  rw [ThreadState.setJmp_eq hinited, List.mem_append, List.mem_singleton,
    ThreadState.mem_garbageCollect]
  rfl

/-- The new record is the only one with its stack pointer. -/
theorem Held.setJmp (h : Held (f :: rest) t) (hinited : t.isInited = true)
    (hother : ∀ buf ∈ t.jmpBufs, buf.sp = f.sp →
      SameKind buf.inSignalHandler t.inSignalHandler)
    (hlower : ∀ g ∈ rest, ∀ env ∈ g.env,
      SameKind env.inSignalHandler t.inSignalHandler → f.sp < g.sp) :
    Held ({ f with env := some (t.jmpBuf f.sp) } :: rest) (t.setJmp f.sp) where
  nodup := by
    rw [ThreadState.setJmp_eq hinited]
    rw [List.map_append, List.nodup_append]
    refine ⟨ThreadState.nodup_garbageCollect h.nodup, by simp, ?_⟩
    intro a ha b hb
    obtain ⟨buf, hbuf, rfl⟩ := List.mem_map.mp ha
    rw [ThreadState.mem_garbageCollect] at hbuf
    rw [List.map_singleton, List.mem_singleton] at hb
    rw [hb]
    intro heq
    have hlt := hbuf.2 (hother buf hbuf.1 heq)
    exact Nat.lt_irrefl _ (heq ▸ hlt)
  mem := by
    intro g hg env henv
    rw [mem_setJmp hinited]
    rcases List.mem_cons.mp hg with rfl | hg
    · cases henv
      exact ⟨Or.inr rfl, rfl⟩
    · obtain ⟨hmem, hsp⟩ := h.mem g (List.mem_cons_of_mem f hg) env henv
      refine ⟨Or.inl ⟨hmem, ?_⟩, hsp⟩
      intro hkind
      rw [hsp]
      exact hlower g hg env henv hkind

/-- A record of the other kind with the same stack pointer comes first, and a record that lies lower
on another stack is collected. -/
theorem separate_of_findsOwn (hinited : t.isInited = true) (hheld : Held (f :: rest) t)
    (hapart : Apart stack (f :: rest))
    (h : FindsOwn ⟨{ f with env := some (t.jmpBuf f.sp) } :: rest, t.setJmp f.sp⟩) :
    (∀ buf ∈ t.jmpBufs, buf.sp = f.sp → SameKind buf.inSignalHandler t.inSignalHandler) ∧
      ∀ g ∈ rest, ∀ env ∈ g.env,
        SameKind env.inSignalHandler t.inSignalHandler → f.sp < g.sp := by
  constructor
  · intro buf hbuf hsp
    by_contra hkind
    have hfind := h _ List.mem_cons_self (t.jmpBuf f.sp) rfl
    have hkept : buf ∈ (t.jmpBufGarbageCollect f.sp).jmpBufs :=
      ThreadState.mem_garbageCollect.mpr ⟨hbuf, fun hsame => absurd hsame hkind⟩
    simp only [ThreadState.setJmp_eq hinited, List.find?_append] at hfind
    cases hfirst : (t.jmpBufGarbageCollect f.sp).jmpBufs.find? fun b => b.sp = f.sp with
    | none =>
        rw [List.find?_eq_none] at hfirst
        exact absurd hsp (by simpa using hfirst buf hkept)
    | some first =>
        rw [hfirst, Option.some_or, Option.some_inj] at hfind
        have hmem := List.mem_of_find?_eq_some hfirst
        rw [hfind, ThreadState.mem_garbageCollect] at hmem
        exact Nat.lt_irrefl _ (hmem.2 Iff.rfl)
  · intro g hg env henv hkind
    have hfind := h g (List.mem_cons_of_mem _ hg) env henv
    have hmem := List.mem_of_find?_eq_some hfind
    obtain ⟨-, hsp⟩ := hheld.mem g (List.mem_cons_of_mem f hg) env henv
    rcases (mem_setJmp hinited).mp hmem with hmem | rfl
    · rw [← hsp]
      exact hmem.2 hkind
    · exact absurd hsp (hapart.ne_of_mem hg)

theorem Held.jump {buf : JmpBuf} (h : Held (f :: rest) t) (hapart : Apart stack (f :: rest))
    (hjump : ThreadState.Jumped buf t t') (hbuf : f.env = some buf)
    (hlower : ∀ g ∈ rest, ∀ env ∈ g.env,
      SameKind env.inSignalHandler buf.inSignalHandler → f.sp < g.sp) :
    Held (f :: rest) t' where
  nodup := hjump.nodup h.nodup
  mem := by
    intro g hg env henv
    obtain ⟨hmem, hsp⟩ := h.mem g hg env henv
    have hbufsp := (h.mem f List.mem_cons_self buf hbuf).2
    have hpositive := hapart.positive f List.mem_cons_self
    refine ⟨(hjump.mem_iff env).mpr ⟨hmem, ?_⟩, hsp⟩
    intro hkind
    rcases List.mem_cons.mp hg with rfl | hg
    · omega
    · have hlt := hlower g hg env henv hkind
      omega

theorem lower_of_findsOwn {buf : JmpBuf} (hheld : Held (f :: rest) t)
    (hapart : Apart stack (f :: rest)) (hjump : ThreadState.Jumped buf t t')
    (hbuf : f.env = some buf) (h : FindsOwn ⟨f :: rest, t'⟩) :
    ∀ g ∈ rest, ∀ env ∈ g.env,
      SameKind env.inSignalHandler buf.inSignalHandler → f.sp < g.sp := by
  intro g hg env henv hkind
  have hmem := List.mem_of_find?_eq_some (h g (List.mem_cons_of_mem f hg) env henv)
  have hlt := ((hjump.mem_iff env).mp hmem).2 hkind
  have hbufsp := (hheld.mem f List.mem_cons_self buf hbuf).2
  have hsp := (hheld.mem g (List.mem_cons_of_mem f hg) env henv).2
  have hne := hapart.ne_of_mem hg
  omega

/-- What is to be shown of a step. -/
def StepSpec (stack : ℕ → S) (s : EnvState) (e : JumpEvent) (s' : EnvState)
    (obs : List Outcome) : Prop :=
  ∃ o, obs = [o] ∧ (s.Separate e → s'.Inv stack ∧ Good o) ∧ (¬s.Separate e → ¬Good o)

theorem stepSpec_of_inv (hseparate : s.Separate e) (hinv : s'.Inv stack) :
    StepSpec stack s e s' [(some s', none)] := by
  refine ⟨_, rfl, fun _ => ⟨hinv, s', rfl, hinv.held.findsOwn, ?_⟩,
    fun hnot => absurd hseparate hnot⟩
  intro env henv
  cases henv

variable [DecidableEq S]

theorem Inv.call {pc : ℕ} (h : s.Inv stack) (hcounted : s.Counted (.call pc sp))
    (hstep : s.step stack (.call pc sp) = some (s', obs)) :
    StepSpec stack s (.call pc sp) s' obs := by
  simp only [EnvState.step, Option.ite_none_right_eq_some, Option.some_inj, Prod.mk.injEq] at hstep
  obtain ⟨⟨hfits, -⟩, rfl, rfl⟩ := hstep
  obtain ⟨hlevel, htotal⟩ := h.level.funcEntry pc hcounted
  refine stepSpec_of_inv trivial ⟨?_, h.apart.cons hfits rfl, ?_, hlevel, ?_⟩
  · rw [ThreadState.funcEntry_isInited]
    exact h.inited
  · exact (h.held.cons rfl).congr ThreadState.funcEntry_jmpBufs
  · rw [htotal]
    exact ⟨_, Nat.succ_pos _, le_rfl, by simp, h.accounted⟩

theorem Inv.ret (h : s.Inv stack) (hstep : s.step stack .ret = some (s', obs)) :
    StepSpec stack s .ret s' obs := by
  obtain ⟨frames, t⟩ := s
  cases frames with
  | nil => cases hstep
  | cons f rest =>
      obtain ⟨hlevel, htotal⟩ := h.level.funcExit
      have hsuffix : rest <:+ f :: rest := List.suffix_cons f rest
      have hacc : Accounted rest t.funcExit.total := by
        rw [htotal]
        exact h.accounted.tail
      have hheld := (h.held.suffix hsuffix).congr ThreadState.funcExit_jmpBufs
      have hinited : t.funcExit.isInited = true := ThreadState.funcExit_isInited.trans h.inited
      cases hhandler : f.handler with
      | none =>
          simp only [EnvState.step, hhandler, Option.some_inj, Prod.mk.injEq] at hstep
          obtain ⟨rfl, rfl⟩ := hstep
          exact stepSpec_of_inv trivial ⟨hinited, h.apart.suffix hsuffix, hheld, hlevel, hacc⟩
      | some saved =>
          simp only [EnvState.step, hhandler, Option.some_inj, Prod.mk.injEq] at hstep
          obtain ⟨rfl, rfl⟩ := hstep
          exact stepSpec_of_inv trivial ⟨hinited, h.apart.suffix hsuffix, hheld.congr rfl,
            ⟨hlevel.pos_le, hlevel.full⟩, hacc⟩

theorem Inv.deliver {pending : Bool} {pc : ℕ} (h : s.Inv stack)
    (hcounted : s.Counted (.deliver pending pc sp))
    (hstep : s.step stack (.deliver pending pc sp) = some (s', obs)) :
    StepSpec stack s (.deliver pending pc sp) s' obs := by
  simp only [EnvState.step, Option.ite_none_right_eq_some, Option.some_inj, Prod.mk.injEq] at hstep
  obtain ⟨hfits, rfl, rfl⟩ := hstep
  have hentered : Level (s.thread.deliver pending).1 := ⟨h.level.pos_le, h.level.full⟩
  obtain ⟨hlevel, htotal⟩ := hentered.funcEntry pc hcounted
  refine stepSpec_of_inv trivial ⟨?_, h.apart.cons hfits rfl, ?_, hlevel, ?_⟩
  · rw [ThreadState.funcEntry_isInited]
    exact h.inited
  · exact (h.held.cons rfl).congr ThreadState.funcEntry_jmpBufs
  · rw [htotal]
    exact ⟨_, Nat.succ_pos _, le_rfl, by simp, h.accounted⟩

theorem Inv.setjmp (h : s.Inv stack) (hstep : s.step stack (.setjmp sp) = some (s', obs)) :
    StepSpec stack s (.setjmp sp) s' obs := by
  obtain ⟨frames, t⟩ := s
  cases frames with
  | nil => cases hstep
  | cons f rest =>
      simp only [EnvState.step, Option.ite_none_right_eq_some, Option.some_inj,
        Prod.mk.injEq] at hstep
      obtain ⟨rfl, rfl, rfl⟩ := hstep
      refine ⟨_, rfl, ?_, ?_⟩
      · intro hseparate
        have hheld := h.held.setJmp h.inited hseparate.1 hseparate.2
        refine ⟨⟨?_, ⟨?_, ?_⟩, hheld, ?_, ?_⟩, _, rfl, hheld.findsOwn, by simp⟩
        · rw [ThreadState.setJmp_eq h.inited]
          exact h.inited
        · intro g hg
          rcases List.mem_cons.mp hg with rfl | hg
          · exact h.apart.positive f List.mem_cons_self
          · exact h.apart.positive g (List.mem_cons_of_mem f hg)
        · exact List.pairwise_cons.mpr (List.pairwise_cons.mp h.apart.sorted)
        · rw [ThreadState.setJmp_eq h.inited]
          exact ⟨h.level.pos_le, h.level.full⟩
        · rw [ThreadState.setJmp_eq h.inited]
          exact h.accounted.setJmp h.level
      · rintro hnot ⟨s, hs, hfinds, -⟩
        cases hs
        exact hnot (separate_of_findsOwn h.inited h.held h.apart hfinds)

theorem Inv.longjmp (h : s.Inv stack) (hstep : s.step stack (.longjmp sp) = some (s', obs)) :
    StepSpec stack s (.longjmp sp) s' obs := by
  cases htarget : s.target sp with
  | nil => simp [EnvState.step, htarget] at hstep
  | cons f rest =>
      cases hbuf : f.env with
      | none => simp [EnvState.step, htarget, hbuf] at hstep
      | some buf =>
          have hsuffix : f :: rest <:+ s.frames := htarget ▸ List.dropWhile_suffix _
          have hsp : f.sp = sp := by
            have hhead := List.head?_dropWhile_not (fun f : Frame => f.sp ≠ sp) s.frames
            rw [show s.frames.dropWhile (fun f : Frame => f.sp ≠ sp) = f :: rest from htarget]
              at hhead
            simpa using hhead
          subst hsp
          have hheld := h.held.suffix hsuffix
          have hapart := h.apart.suffix hsuffix
          have hacc := h.accounted.suffix hsuffix
          have hfind := h.held.findsOwn f (hsuffix.subset List.mem_cons_self) buf hbuf
          obtain ⟨t, hjmp, hjump⟩ :=
            ThreadState.longJmp_spec hfind (h.level.le_of_accounted hacc hbuf)
          simp only [EnvState.step, htarget, hbuf, hjmp, Option.some_inj, Prod.mk.injEq] at hstep
          obtain ⟨rfl, rfl⟩ := hstep
          have hrestores : Restores buf t :=
            ⟨hjump.shadowStackPos, hjump.intSignalSend, hjump.inBlockingFunc,
              hjump.inSignalHandler⟩
          refine ⟨_, rfl, ?_, ?_⟩
          · intro hseparate
            rw [Separate, htarget] at hseparate
            have hheld' := hheld.jump hapart hjump hbuf (hseparate f rfl buf hbuf)
            obtain ⟨hlevel, hacc'⟩ := h.level.jump hacc hbuf hjump
            refine ⟨⟨hjump.isInited.trans h.inited, hapart, hheld', hlevel, hacc'⟩,
              _, rfl, hheld'.findsOwn, ?_⟩
            intro env henv
            cases henv
            exact hrestores
          · rintro hnot ⟨s', hs', hfinds, -⟩
            cases hs'
            refine hnot ?_
            rw [Separate, htarget]
            intro g hg dest hdest
            cases hg
            rw [hbuf] at hdest
            cases hdest
            exact lower_of_findsOwn hheld hapart hjump hbuf hfinds

theorem Inv.other {send : ℤ} {blocking : Bool} (h : s.Inv stack)
    (hstep : s.step stack (.other send blocking) = some (s', obs)) :
    StepSpec stack s (.other send blocking) s' obs := by
  simp only [EnvState.step, Option.some_inj, Prod.mk.injEq] at hstep
  obtain ⟨rfl, rfl⟩ := hstep
  exact stepSpec_of_inv trivial ⟨h.inited, h.apart, h.held.congr rfl,
    ⟨h.level.pos_le, h.level.full⟩, h.accounted⟩

theorem Inv.step (h : s.Inv stack) (hcounted : s.Counted e)
    (hstep : s.step stack e = some (s', obs)) : StepSpec stack s e s' obs := by
  cases e with
  | call pc sp => exact h.call hcounted hstep
  | ret => exact h.ret hstep
  | deliver pending pc sp => exact h.deliver hcounted hstep
  | setjmp sp => exact h.setjmp hstep
  | longjmp sp => exact h.longjmp hstep
  | other send blocking => exact h.other hstep

end Steps

/-! ## Runs -/

section Runs

open Mair.Runs

variable {S : Type*} {stack : ℕ → S} {t : ThreadState}

def start (t : ThreadState) : EnvState := ⟨[], t⟩

theorem inv_start (ht : t.Started) : (start t).Inv stack where
  inited := ht.isInited
  apart := ⟨by simp [start], .nil⟩
  held := by
    refine ⟨?_, by simp [start]⟩
    rw [show (start t).thread.jmpBufs = [] from ht.jmpBufs]
    exact .nil
  level := by
    refine ⟨?_, ?_⟩
    · rw [show (start t).thread.shadowStackPos = 0 from ht.shadowStackPos]
      exact Nat.zero_le _
    · intro hne
      exact absurd ht.stackOverflow hne
  accounted := trivial

variable [DecidableEq S]

end Runs

/-! ## A handler on the stack of the code that it interrupts -/

/-- A function calls `setjmp` and returns. A handler that runs in its place calls `setjmp` and jumps
back to it. -/
def handlerJump : List JumpEvent :=
  [.call 1 100, .call 2 50, .setjmp 50, .ret, .deliver false 3 50, .setjmp 50, .longjmp 50]

end EnvState

end Mair.LongJump
