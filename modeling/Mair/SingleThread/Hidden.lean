import Mair.SingleThread.Model

/-! # Which runs keep every live thread visible

Outside handlers the flag follows the unjoined threads. Inside a handler it cannot change, so
what matters is that the threads created there are joined before the handler returns. -/

namespace Mair.SingleThread

open Runs

/-! ## The property -/

/-- What `DisableMainThreadTsan` has added to the two counters. -/
def Level.contribution (l : Level) : ℤ × ℤ :=
  (l.counters.ignoreReadsAndWrites - l.others.ignoreReadsAndWrites,
    l.counters.ignoreSync - l.others.ignoreSync)

/-- An unjoined thread is never hidden, and disabling counts once. -/
structure Runtime.Visible (r : Runtime) : Prop where
  enabled : r.saved = [] → (∃ t ∈ r.threads, t.joined = false) →
    r.mainThreadTsanDisabled = false ∧ r.current.contribution = (0, 0)
  disabled : r.saved = [] → r.mainThreadTsanDisabled = true → r.current.contribution = (1, 1)

/-- An outermost handler that was entered with TSan disabled returns when every thread is
joined. -/
def HandlersJoin (r : Runtime) : Event → Prop
  | .signalReturn =>
      r.saved.length = 1 → r.mainThreadTsanDisabled = true → ∀ t ∈ r.threads, t.joined = true
  | _ => True

/-! ## The invariant -/

/-- Only the level outside all handlers carries the contribution. -/
def Levels (disabled : Bool) : Level → List Level → Prop
  | current, [] => current.contribution = if disabled then (1, 1) else (0, 0)
  | current, level :: saved => current.contribution = (0, 0) ∧ Levels disabled level saved

structure Runtime.Consistent (r : Runtime) : Prop where
  unjoined : r.numUnjoinedThreads = r.threads.countP (fun t => !t.joined) + 1
  finished : ∀ t ∈ r.threads, t.joined = true → t.finished = true
  hidden : r.saved = [] → r.mainThreadTsanDisabled = true → ∀ t ∈ r.threads, t.joined = true
  levels : Levels r.mainThreadTsanDisabled r.current r.saved

section Invariant

variable {r r' : Runtime} {l : Level} {tid : ℕ} {t t' : ThreadContext} {actor : Actor}
  {e : Event} {check : ThreadContext → Bool}

@[simp] theorem contribution_add (writes sync : ℤ) :
    (l.add writes sync).contribution = l.contribution := by
  apply Prod.ext
  · exact Int.add_sub_add_right _ _ _
  · exact Int.add_sub_add_right _ _ _

theorem contribution_disableTsan (h : l.contribution = (0, 0)) :
    Level.contribution { l with counters := l.counters.disableTsan } = (1, 1) := by
  simp only [Level.contribution, Counters.disableTsan, Prod.mk.injEq] at h ⊢
  omega

theorem contribution_enableTsan (h : l.contribution = (1, 1)) :
    Level.contribution { l with counters := l.counters.enableTsan } = (0, 0) := by
  simp only [Level.contribution, Counters.enableTsan, Prod.mk.injEq] at h ⊢
  omega

theorem levels_congr {disabled : Bool} {current current' : Level} {saved : List Level}
    (h : current'.contribution = current.contribution) (hl : Levels disabled current saved) :
    Levels disabled current' saved := by
  cases saved with
  | nil => exact h.trans hl
  | cons level saved => exact ⟨h.trans hl.1, hl.2⟩

theorem Runtime.Consistent.visible (h : r.Consistent) : r.Visible where
  enabled hsaved hex := by
    obtain ⟨t, ht, hjoined⟩ := hex
    have hflag : r.mainThreadTsanDisabled = false := by
      by_contra hflag
      rw [h.hidden hsaved (by simpa using hflag) t ht] at hjoined
      cases hjoined
    have hlevels := h.levels
    rw [hsaved, hflag] at hlevels
    exact ⟨hflag, hlevels⟩
  disabled hsaved hflag := by
    have hlevels := h.levels
    rw [hsaved, hflag] at hlevels
    exact hlevels

theorem find_spec (h : r.find tid check = some t) : r.threads[tid]? = some t ∧ check t = true := by
  rw [Runtime.find, Option.bind_eq_some_iff] at h
  obtain ⟨t', ht', h⟩ := h
  split at h
  · next hcheck =>
      cases h
      exact ⟨ht', hcheck⟩
  · cases h

/-- Disabling is right when every thread is joined. -/
theorem Runtime.Consistent.disable (h : r.Consistent) (hall : ∀ t ∈ r.threads, t.joined = true) :
    r.disableMainThreadTsan.Consistent := by
  unfold Runtime.disableMainThreadTsan
  split
  · exact h
  · next hhandler =>
      split
      · exact h
      · next hflag =>
          have hsaved : r.saved = [] := by
            simpa [Runtime.inSignalHandler] using hhandler
          have hlevels := h.levels
          rw [Bool.not_eq_true] at hflag
          rw [hsaved, hflag] at hlevels
          have hcontribution : r.current.contribution = (0, 0) := hlevels
          refine ⟨h.unjoined, h.finished, fun _ _ => hall, ?_⟩
          show Levels true { r.current with counters := r.current.counters.disableTsan } r.saved
          rw [hsaved]
          exact contribution_disableTsan hcontribution

/-- Enabling is always right, and outside handlers the flag is off afterwards. -/
theorem Runtime.Consistent.enable (h : r.Consistent) :
    r.enableMainThreadTsan.Consistent ∧
      (r.enableMainThreadTsan.saved = [] →
        r.enableMainThreadTsan.mainThreadTsanDisabled = false) := by
  unfold Runtime.enableMainThreadTsan
  split
  · next hhandler =>
      refine ⟨h, ?_⟩
      intro hsaved
      simp [Runtime.inSignalHandler, hsaved] at hhandler
  · next hhandler =>
      split
      · next hflag => exact ⟨h, fun _ => by simpa using hflag⟩
      · next hflag =>
          have hsaved : r.saved = [] := by
            simpa [Runtime.inSignalHandler] using hhandler
          have hon : r.mainThreadTsanDisabled = true := by simpa using hflag
          have hlevels := h.levels
          rw [hsaved, hon] at hlevels
          have hcontribution : r.current.contribution = (1, 1) := hlevels
          refine ⟨⟨h.unjoined, h.finished, fun _ hfalse => (by cases hfalse), ?_⟩, fun _ => rfl⟩
          show Levels false { r.current with counters := r.current.counters.enableTsan } r.saved
          rw [hsaved]
          exact contribution_enableTsan hcontribution

theorem enable_counts (alive unjoined : ℕ) :
    Runtime.enableMainThreadTsan
        { r with numAliveThreads := alive, numUnjoinedThreads := unjoined } =
      { r.enableMainThreadTsan with
        numAliveThreads := alive, numUnjoinedThreads := unjoined } := by
  unfold Runtime.enableMainThreadTsan
  cases hsaved : r.saved with
  | cons level saved => simp [Runtime.inSignalHandler, hsaved]
  | nil =>
      cases hflag : r.mainThreadTsanDisabled <;>
        simp [Runtime.inSignalHandler, Runtime.storeCurrentTsanState, hsaved, hflag]

theorem enable_unjoined :
    r.enableMainThreadTsan.numUnjoinedThreads = r.numUnjoinedThreads := by
  unfold Runtime.enableMainThreadTsan
  split
  · rfl
  · split <;> rfl

/-! ## What each step preserves -/

theorem Runtime.Consistent.alive (h : r.Consistent) (alive : ℕ) :
    Runtime.Consistent { r with numAliveThreads := alive } :=
  ⟨h.unjoined, h.finished, h.hidden, h.levels⟩

/-- A new thread is unjoined, and outside handlers the flag is off when it is created. -/
theorem Runtime.Consistent.snoc (h : r.Consistent) (detached started : Bool)
    (hflag : r.saved = [] → r.mainThreadTsanDisabled = false) :
    Runtime.Consistent { r with
      numUnjoinedThreads := r.numUnjoinedThreads + 1
      threads := r.threads ++ [⟨started, false, false, detached⟩] } where
  unjoined := by simp [h.unjoined]
  finished t ht hjoined := by
    rcases List.mem_append.mp ht with ht | ht
    · exact h.finished t ht hjoined
    · rw [List.mem_singleton.mp ht] at hjoined
      cases hjoined
  hidden hsaved hon := by
    rw [hflag hsaved] at hon
    cases hon
  levels := h.levels

theorem joined_of_hidden (h : r.Consistent) (hsaved : r.saved = [])
    (hrun : r.canRun (.thread tid) = true) : r.mainThreadTsanDisabled = false := by
  by_contra hflag
  rw [Runtime.canRun] at hrun
  split at hrun
  · next t ht =>
      have hmem := List.mem_of_getElem? ht
      have hjoined := h.hidden hsaved (by simpa using hflag) t hmem
      rw [h.finished t hmem hjoined] at hrun
      simp at hrun
  · cases hrun

theorem threadCreate_spec (h : r.Consistent) (hrun : r.canRun actor = true)
    (detached started : Bool) : (r.threadCreate actor detached started).Consistent := by
  cases actor with
  | main =>
      have hcreate := (h.enable.1.alive (r.numAliveThreads + 1)).snoc detached started h.enable.2
      rw [enable_unjoined] at hcreate
      rw [Runtime.threadCreate]
      simp only [enable_counts]
      exact hcreate
  | thread tid =>
      have hflag : r.saved = [] → r.mainThreadTsanDisabled = false := fun hsaved =>
        joined_of_hidden h hsaved hrun
      exact (h.alive (r.numAliveThreads + 1)).snoc detached started hflag

/-- Replacing a thread by one that has not been joined since. -/
theorem Runtime.Consistent.set (h : r.Consistent) (ht : r.threads[tid]? = some t)
    (hjoined : t'.joined = t.joined) (hfinished : t.finished = true → t'.finished = true) :
    Runtime.Consistent { r with threads := r.threads.set tid t' } where
  unjoined := by
    obtain ⟨hlt, rfl⟩ := List.getElem?_eq_some_iff.mp ht
    show r.numUnjoinedThreads = (r.threads.set tid t').countP (fun t => !t.joined) + 1
    have hpos : (!r.threads[tid].joined) = true →
        0 < r.threads.countP (fun t => !t.joined) := fun hp =>
      List.countP_pos_iff.mpr ⟨_, List.getElem_mem hlt, hp⟩
    rw [List.countP_set hlt, hjoined, h.unjoined]
    split
    · next hp => have := hpos hp; omega
    · omega
  finished u hu hj := by
    rcases List.mem_or_eq_of_mem_set hu with hu | rfl
    · exact h.finished u hu hj
    · rw [hjoined] at hj
      exact hfinished (h.finished t (List.mem_of_getElem? ht) hj)
  hidden hsaved hon u hu := by
    rcases List.mem_or_eq_of_mem_set hu with hu | rfl
    · exact h.hidden hsaved hon u hu
    · rw [hjoined]
      exact h.hidden hsaved hon t (List.mem_of_getElem? ht)
  levels := h.levels

theorem Levels.of_signal {disabled : Bool} {current : Level} {saved : List Level}
    (h : Levels disabled current saved) : Levels disabled ⟨.zero, .zero⟩ (current :: saved) :=
  ⟨rfl, h⟩

/-- Joining is right for the main thread, which disables TSan when every thread is joined,
and for the others. -/
theorem threadJoin_spec (h : r.Consistent) (ht : r.threads[tid]? = some t)
    (hfinished : t.finished = true) (hjoined : t.joined = false) :
    (r.threadJoin actor tid t).Consistent := by
  obtain ⟨hlt, rfl⟩ := List.getElem?_eq_some_iff.mp ht
  have hpos : 0 < r.threads.countP (fun t => !t.joined) :=
    List.countP_pos_iff.mpr ⟨_, List.getElem_mem hlt, by rw [hjoined]; rfl⟩
  have hnext : Runtime.Consistent
      { r with
        threads := r.threads.set tid { r.threads[tid] with joined := true }
        numUnjoinedThreads := r.numUnjoinedThreads - 1 } := by
    refine ⟨?_, ?_, ?_, h.levels⟩
    · show r.numUnjoinedThreads - 1 = (r.threads.set tid _).countP (fun t => !t.joined) + 1
      rw [List.countP_set hlt, hjoined, h.unjoined]
      simp only [Bool.not_false, Bool.not_true, if_true, Bool.false_eq_true, if_false]
      omega
    · intro u hu hj
      rcases List.mem_or_eq_of_mem_set hu with hu | rfl
      · exact h.finished u hu hj
      · exact hfinished
    · intro hsaved hon u hu
      rcases List.mem_or_eq_of_mem_set hu with hu | rfl
      · exact h.hidden hsaved hon u hu
      · rfl
  cases actor with
  | thread i => exact hnext
  | main =>
      rw [Runtime.threadJoin]
      split
      · next hall =>
          apply hnext.disable
          intro u hu
          have hle : r.numUnjoinedThreads - 1 ≤ 1 := by
            simpa [Runtime.isNowAllJoined] using hall
          have hcount := Nat.le_trans (Nat.le_of_eq hnext.unjoined.symm) hle
          by_contra hu'
          have hunjoined : (!u.joined) = true := by simpa using hu'
          have hpos' := (@List.countP_pos_iff ThreadContext _ fun t => !t.joined).mpr
            ⟨u, hu, hunjoined⟩
          omega
      · exact hnext

/-- What a step that meets the condition preserves. -/
theorem next_spec (h : r.Consistent) (hmeets : HandlersJoin r e) (hnext : next r e = some r') :
    r'.Consistent := by
  cases e with
  | create actor detached =>
      rw [next] at hnext
      split at hnext
      · next hrun =>
          cases hnext
          exact threadCreate_spec h hrun detached false
      · cases hnext
  | start tid =>
      rw [next, Option.map_eq_some_iff] at hnext
      obtain ⟨t, ht, rfl⟩ := hnext
      exact h.set (find_spec ht).1 rfl fun hf => hf
  | finish tid =>
      rw [next, Option.map_eq_some_iff] at hnext
      obtain ⟨t, ht, rfl⟩ := hnext
      exact (h.alive _).set (find_spec ht).1 rfl fun _ => rfl
  | join actor tid =>
      rw [next] at hnext
      split at hnext
      · rw [Option.map_eq_some_iff] at hnext
        obtain ⟨t, ht, rfl⟩ := hnext
        obtain ⟨hget, hcheck⟩ := find_spec ht
        simp only [Bool.and_eq_true, Bool.not_eq_true'] at hcheck
        exact threadJoin_spec h hget hcheck.1.1 hcheck.1.2
      · cases hnext
  | detach actor tid =>
      rw [next] at hnext
      split at hnext
      · rw [Option.map_eq_some_iff] at hnext
        obtain ⟨t, ht, rfl⟩ := hnext
        exact h.set (find_spec ht).1 rfl fun hf => hf
      · cases hnext
  | fiberCreate actor =>
      rw [next] at hnext
      split at hnext
      · next hrun =>
          cases hnext
          exact threadCreate_spec h hrun true true
      · cases hnext
  | fiberDestroy actor tid =>
      rw [next] at hnext
      split at hnext
      · rw [Option.map_eq_some_iff] at hnext
        obtain ⟨t, ht, rfl⟩ := hnext
        exact (h.alive _).set (find_spec ht).1 rfl fun _ => rfl
      · cases hnext
  | signal =>
      cases hnext
      exact ⟨h.unjoined, h.finished, fun hsaved => (by cases hsaved), rfl, h.levels⟩
  | signalReturn =>
      rw [next] at hnext
      split at hnext
      · cases hnext
      · next level saved hsaved =>
          cases hnext
          have hlevels := h.levels
          rw [hsaved] at hlevels
          refine ⟨h.unjoined, h.finished, ?_, hlevels.2⟩
          intro hnone hon
          refine hmeets ?_ hon
          have hnil : saved = [] := hnone
          rw [hsaved, hnil]
          rfl
  | ignoreBegin =>
      cases hnext
      exact ⟨h.unjoined, h.finished, h.hidden, levels_congr (contribution_add 1 0) h.levels⟩
  | ignoreEnd =>
      rw [next] at hnext
      split at hnext
      · cases hnext
        exact ⟨h.unjoined, h.finished, h.hidden, levels_congr (contribution_add (-1) 0) h.levels⟩
      · cases hnext
  | syncBegin =>
      cases hnext
      exact ⟨h.unjoined, h.finished, h.hidden, levels_congr (contribution_add 0 1) h.levels⟩
  | syncEnd =>
      rw [next] at hnext
      split at hnext
      · cases hnext
        exact ⟨h.unjoined, h.finished, h.hidden, levels_congr (contribution_add 0 (-1)) h.levels⟩
      · cases hnext

/-- A handler that returns too early leaves an unjoined thread hidden. -/
theorem next_hides (hnot : ¬HandlersJoin r e) (hnext : next r e = some r') : ¬r'.Visible := by
  cases e with
  | signalReturn =>
      rw [HandlersJoin] at hnot
      push Not at hnot
      obtain ⟨hlength, hon, t, ht, hjoined⟩ := hnot
      obtain ⟨level, hsaved⟩ := List.length_eq_one_iff.mp hlength
      rw [next, hsaved] at hnext
      cases hnext
      intro hvisible
      have henabled := (hvisible.enabled rfl ⟨t, ht, by simpa using hjoined⟩).1
      rw [hon] at henabled
      cases henabled
  | _ => exact absurd trivial hnot

end Invariant

/-! ## Runs -/

theorem initial_consistent : initial.Consistent := by
  refine ⟨rfl, ?_, ?_, rfl⟩
  · intro t ht
    cases ht
  · intro _ _ t ht
    cases ht

/-- In a run every unjoined thread is visible and disabling counts once, in every state
reached, if and only if each outermost handler that was entered with TSan disabled returns
with every thread joined. -/
theorem visible_iff (events : List Event) (last : Runtime) (reached : List Runtime)
    (hrun : run step initial events = some (last, reached)) :
    (∀ r ∈ reached, r.Visible) ↔ Meets step HandlersJoin initial events := by
  refine run_good_iff ?_ ?_ initial_consistent hrun
  · intro r e r' obs h hmeets hstep
    rw [step, Option.map_eq_some_iff] at hstep
    obtain ⟨r'', hnext, heq⟩ := hstep
    cases heq
    have hr' := next_spec h hmeets hnext
    refine ⟨hr', ?_⟩
    intro o ho
    rw [List.mem_singleton.mp ho]
    exact hr'.visible
  · intro r e r' obs _ hnot hstep
    rw [step, Option.map_eq_some_iff] at hstep
    obtain ⟨r'', hnext, heq⟩ := hstep
    cases heq
    exact ⟨r', List.mem_singleton_self _, next_hides hnot hnext⟩

/-! ## A thread created in a handler -/

/-- The main thread creates a thread in a signal handler and returns from it. -/
def createInHandler : List Event := [.signal, .create .main false, .signalReturn]

theorem handler_hides_thread :
    ∃ last reached, run step initial createInHandler = some (last, reached) ∧
      last.mainThreadTsanDisabled = true ∧ last.saved = [] ∧
      (∃ t ∈ last.threads, t.joined = false) ∧ ¬∀ r ∈ reached, r.Visible := by
  refine ⟨_, _, rfl, by decide, by decide, by decide, ?_⟩
  intro h
  have hlast := (h _ (List.mem_append_right _ (List.mem_append_right _
    List.mem_cons_self))).enabled rfl ⟨_, List.mem_singleton_self _, rfl⟩
  exact absurd hlast.1 (by decide)

theorem visible_iff_createInHandler :
    ∃ last reached, run step initial createInHandler = some (last, reached) ∧
      ((∀ r ∈ reached, r.Visible) ↔ Meets step HandlersJoin initial createInHandler) :=
  ⟨_, _, rfl, visible_iff _ _ _ rfl⟩

end Mair.SingleThread
