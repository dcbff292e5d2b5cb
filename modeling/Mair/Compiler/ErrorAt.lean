import Mair.Compiler.Diagnostic

/-! # The interceptor of `error_at`

In the front end of GCC the live patch suppresses the error about two sanitizers at once, and
forwards every other error to the real function. -/

namespace Mair.Compiler

/-! ## The interceptor -/

/-- An argument of type `intptr_t`. -/
abbrev VaArg := BitVec 64

inductive ErrorAtResult where
  | suppressed
  | forwarded (loc : BitVec 32) (gmsgid : CString) (values : List VaArg)
  | aborted
  | undefined
  deriving DecidableEq

def keywords : List CString :=
  ["-fsanitize=address".toList, "incompatible".toList, "-fsanitize=thread".toList]

def fallbackKeywords : List CString := ["-fsanitize=%s".toList, "incompatible".toList]

def maskedSanitizers : List CString := ["thread".toList, "address".toList]

def maxArgs : ℕ := 20

/-- Whether one of the names is masked. The memory says what string lies at an address. -/
def anyMasked (memory : VaArg → Option CString) (san1 san2 : VaArg) : List CString → Option Bool
  | [] => some false
  | sanitizer :: rest => do
      if sanitizer = (← memory san1) then return true
      if sanitizer = (← memory san2) then return true
      anyMasked memory san1 san2 rest

/-- The arguments are evaluated from left to right, as Clang does. -/
def readArgs : ℕ → List VaArg → Option (List VaArg)
  | 0, _ => some []
  | _ + 1, [] => none
  | n + 1, arg :: args => do
      let values ← readArgs n args
      return arg :: values

def callInterceptor (loc : BitVec 32) (gmsgid : CString) (args : List VaArg) (numArgs : ℕ) :
    ErrorAtResult :=
  match readArgs numArgs args with
  | some values => .forwarded loc gmsgid values
  | none => .undefined

def forwardError (loc : BitVec 32) (gmsgid : CString) (args : List VaArg) : ErrorAtResult :=
  let countExtraArgs := (countGccDiagSpecifiers gmsgid []).toNat
  if countExtraArgs ≤ maxArgs then callInterceptor loc gmsgid args countExtraArgs else .aborted

def errorAt (memory : VaArg → Option CString) (isXsanEnabled : Bool) (loc : BitVec 32)
    (gmsgid : CString) (args : List VaArg) : ErrorAtResult :=
  if isXsanEnabled && keywords.all (strstr gmsgid ·) then .suppressed
  else if isXsanEnabled && fallbackKeywords.all (strstr gmsgid ·) &&
      countGccDiagSpecifiers gmsgid "s".toList = 2 then
    match args with
    | san1 :: san2 :: args =>
        if san1 = 0 ∨ san2 = 0 then .aborted
        else
          match anyMasked memory san1 san2 maskedSanitizers with
          | some true => .suppressed
          | some false => forwardError loc gmsgid args
          | none => .undefined
    | _ => .undefined
  else forwardError loc gmsgid args

/-! ## What the message reports -/

def Piece.isString (p : Piece) : Bool :=
  p.isPlain fun conversion => conversion.spelling = "s".toList

/-- The arguments of the directives `%s`. -/
def stringArgs : List Piece → List VaArg → List VaArg
  | [], _ => []
  | p :: format, args =>
      (if p.isString then args.take 1 else []) ++ stringArgs format (args.drop p.arity)

/-- The message says literally that the two sanitizers are incompatible. -/
def namesLiterally (format : List Piece) : Bool := keywords.all (strstr (spell format) ·)

/-- Literally, or through two directives `%s`. -/
def ReportsConflict (memory : VaArg → Option CString) (format : List Piece) (args : List VaArg) :
    Prop :=
  namesLiterally format ∨
    fallbackKeywords.all (strstr (spell format) ·) ∧
      ((stringArgs format args).map memory = [some "address".toList, some "thread".toList] ∨
        (stringArgs format args).map memory = [some "thread".toList, some "address".toList])

instance (memory : VaArg → Option CString) (format : List Piece) (args : List VaArg) :
    Decidable (ReportsConflict memory format args) :=
  inferInstanceAs (Decidable (_ ∨ _ ∧ (_ ∨ _)))

/-- The conflict is suppressed, and every other error forwarded as it is. -/
def SuppressesConflict (memory : VaArg → Option CString) (isXsanEnabled : Bool) (loc : BitVec 32)
    (format : List Piece) (args : List VaArg) : Prop :=
  errorAt memory isXsanEnabled loc (spell format) args =
    if isXsanEnabled ∧ ReportsConflict memory format args then .suppressed
    else .forwarded loc (spell format) args

/-- The option stands in the message as `-fsanitize=%s`, with two names in all. -/
def namesTwo (format : List Piece) : Bool :=
  fallbackKeywords.all (strstr (spell format) ·) && format.countP Piece.isString = 2

/-- The first two arguments are read as names, and one of them is a masked sanitizer. -/
def MaskedFirst (memory : VaArg → Option CString) : List VaArg → Prop
  | san1 :: san2 :: _ =>
      san1 ≠ 0 ∧ san2 ≠ 0 ∧ ∃ name1, memory san1 = some name1 ∧
        (name1 = "thread".toList ∨ ∃ name2, memory san2 = some name2 ∧
          (name1 ∈ maskedSanitizers ∨ name2 ∈ maskedSanitizers))
  | _ => False

/-- A message with two names is the conflict, with a masked sanitizer among the first two arguments;
and a message that is not looked into has no wildcard. -/
structure ReadsRightly (memory : VaArg → Option CString) (isXsanEnabled : Bool)
    (format : List Piece) (args : List VaArg) : Prop where
  names : isXsanEnabled → namesLiterally format = false → namesTwo format →
    ReportsConflict memory format args ∧ MaskedFirst memory args
  other : (isXsanEnabled → namesLiterally format = false ∧ namesTwo format = false) →
    ∀ p ∈ format, p.hasWildcard = false

/-! ## Forwarding -/

section Forwarding

variable {memory : VaArg → Option CString} {isXsanEnabled : Bool} {loc : BitVec 32}
  {gmsgid : CString} {args values : List VaArg} {san1 san2 : VaArg} {format : List Piece} {n : ℕ}

theorem readArgs_eq_some_iff :
    readArgs n args = some values ↔ n ≤ args.length ∧ values = args.take n := by
  induction n generalizing args values with
  | zero =>
      rw [readArgs, List.take_zero, Option.some_inj]
      exact ⟨fun h => ⟨Nat.zero_le _, h.symm⟩, fun h => h.2.symm⟩
  | succ n ih =>
      cases args with
      | nil => exact iff_of_false nofun fun h => Nat.not_succ_le_zero n h.1
      | cons arg args =>
          rw [readArgs, Option.bind_eq_bind, Option.bind_eq_some_iff, List.take_succ_cons,
            List.length_cons, Nat.succ_le_succ_iff]
          constructor
          · intro h
            obtain ⟨read, hread, hvalues⟩ := h
            obtain ⟨hle, rfl⟩ := ih.mp hread
            exact ⟨hle, (Option.some.inj hvalues).symm⟩
          · intro h
            exact ⟨args.take n, ih.mpr ⟨h.1, rfl⟩, congrArg some h.2.symm⟩

theorem forwardError_eq_forwarded_iff :
    forwardError loc gmsgid args = .forwarded loc gmsgid values ↔
      (countGccDiagSpecifiers gmsgid []).toNat ≤ maxArgs ∧
        (countGccDiagSpecifiers gmsgid []).toNat ≤ args.length ∧
          values = args.take (countGccDiagSpecifiers gmsgid []).toNat := by
  rw [forwardError, callInterceptor, ← readArgs_eq_some_iff]
  by_cases hle : (countGccDiagSpecifiers gmsgid []).toNat ≤ maxArgs
  · rw [if_pos hle, and_iff_right hle]
    cases readArgs (countGccDiagSpecifiers gmsgid []).toNat args with
    | none => exact iff_of_false nofun nofun
    | some read =>
        rw [Option.some_inj, ErrorAtResult.forwarded.injEq]
        exact ⟨fun h => h.2.2, fun h => ⟨rfl, rfl, h⟩⟩
  · rw [if_neg hle]
    exact iff_of_false nofun fun h => hle h.1

theorem forwardError_ne_suppressed : forwardError loc gmsgid args ≠ .suppressed := by
  rw [forwardError, callInterceptor]
  split
  · split <;> nofun
  · nofun

theorem anyMasked_cons {sanitizer : CString} {rest : List CString} :
    anyMasked memory san1 san2 (sanitizer :: rest) = some true ↔
      ∃ name1, memory san1 = some name1 ∧ (name1 = sanitizer ∨
        ∃ name2, memory san2 = some name2 ∧
          (name2 = sanitizer ∨ anyMasked memory san1 san2 rest = some true)) := by
  rw [anyMasked]
  cases memory san1 with
  | none => exact iff_of_false nofun nofun
  | some name1 =>
      simp only [Option.bind_eq_bind, Option.bind_some, Option.some.injEq, exists_eq_left']
      by_cases hname1 : sanitizer = name1
      · rw [if_pos hname1]
        exact iff_of_true rfl (Or.inl hname1.symm)
      · rw [if_neg hname1, or_iff_right (Ne.symm hname1)]
        cases memory san2 with
        | none => exact iff_of_false nofun nofun
        | some name2 =>
            simp only [Option.bind_some, Option.some.injEq, exists_eq_left']
            by_cases hname2 : sanitizer = name2
            · rw [if_pos hname2]
              exact iff_of_true rfl (Or.inl hname2.symm)
            · rw [if_neg hname2, or_iff_right (Ne.symm hname2)]

/-- The second argument is not read when the first is the first masked name. -/
theorem anyMasked_pair {thread address : CString} :
    anyMasked memory san1 san2 [thread, address] = some true ↔
      ∃ name1, memory san1 = some name1 ∧ (name1 = thread ∨ ∃ name2, memory san2 = some name2 ∧
        (name1 ∈ [thread, address] ∨ name2 ∈ [thread, address])) := by
  have hnil : ¬anyMasked memory san1 san2 [] = some true := nofun
  rw [anyMasked_cons, anyMasked_cons]
  simp only [hnil, or_false, List.mem_cons, List.not_mem_nil]
  cases memory san1 with
  | none => exact iff_of_false nofun nofun
  | some name1 =>
      cases memory san2 with
      | none => simp
      | some name2 =>
          simp only [Option.some.injEq, exists_eq_left']
          tauto

/-! ## Counting the names -/

theorem length_stringArgs (hle : consumedArgs format ≤ args.length) :
    (stringArgs format args).length = format.countP Piece.isString := by
  induction format generalizing args with
  | nil => rfl
  | cons p format ih =>
      rw [consumedArgs] at hle
      have hp := @plain_le_arity (fun conversion => conversion.spelling = "s".toList) p
      have hrest : consumedArgs format ≤ (args.drop p.arity).length := by
        rw [List.length_drop]
        omega
      rw [stringArgs, List.length_append, ih hrest, List.countP_cons, Nat.add_comm]
      cases hstring : p.isString with
      | false => rfl
      | true =>
          have hone : 1 ≤ p.arity := by
            rw [Piece.isString] at hstring
            rw [hstring] at hp
            exact hp
          simp only [if_true]
          rw [List.length_take, Nat.min_eq_left (by omega)]

theorem count_string_eq_two_iff (hle : consumedArgs format ≤ maxArgs) :
    countGccDiagSpecifiers (spell format) "s".toList = 2 ↔ format.countP Piece.isString = 2 := by
  have hcount : countGccDiagSpecifiers (spell format) "s".toList =
      BitVec.ofNat 32 (format.countP Piece.isString) :=
    finds_string.scan_spell.trans (BitVec.zero_add _)
  have hlt : format.countP Piece.isString ≤ maxArgs := countP_le_consumedArgs.trans hle
  rw [hcount, ← BitVec.toNat_inj, BitVec.toNat_ofNat, Nat.mod_eq_of_lt]
  · rfl
  · rw [maxArgs] at hlt
    omega

theorem ReportsConflict.namesTwo (h : ReportsConflict memory format args)
    (hle : consumedArgs format ≤ args.length) (hnot : namesLiterally format = false) :
    namesTwo format = true := by
  rcases h with h | ⟨hkeywords, hnames⟩
  · rw [hnot] at h
    cases h
  · have hlength : (stringArgs format args).length = 2 := by
      rw [← List.length_map memory]
      rcases hnames with hnames | hnames <;> rw [hnames] <;> rfl
    rw [length_stringArgs hle] at hlength
    rw [Compiler.namesTwo, hkeywords, decide_eq_true hlength]
    rfl

theorem forwardError_eq_iff (hargs : args.length = consumedArgs format)
    (hmax : args.length ≤ maxArgs) :
    forwardError loc (spell format) args = .forwarded loc (spell format) args ↔
      ∀ p ∈ format, p.hasWildcard = false := by
  have hplain : format.countP (·.isPlain fun _ => true) ≤ args.length :=
    countP_le_consumedArgs.trans_eq hargs.symm
  have hlt : args.length < 2 ^ 32 := hmax.trans_lt (by decide)
  have hcount : (countGccDiagSpecifiers (spell format) []).toNat =
      format.countP (·.isPlain fun _ => true) := by
    rw [countGccDiagSpecifiers_eq, BitVec.toNat_ofNat, Nat.mod_eq_of_lt (hplain.trans_lt hlt)]
  rw [forwardError_eq_forwarded_iff, hcount, ← countP_eq_consumedArgs_iff, ← hargs]
  constructor
  · intro h
    obtain ⟨-, -, htake⟩ := h
    have hlength := congrArg List.length htake
    rw [List.length_take, Nat.min_eq_left hplain] at hlength
    exact hlength.symm
  · intro h
    rw [h]
    exact ⟨hmax, le_rfl, List.take_length.symm⟩

/-- Once two names are read, the rest cannot be forwarded as the whole. -/
theorem errorAt_namesTwo (hnot : namesLiterally format = false) (hnames : namesTwo format = true)
    (hargs : args.length = consumedArgs format) (hmax : args.length ≤ maxArgs) :
    errorAt memory true loc (spell format) args ≠ .forwarded loc (spell format) args ∧
      (errorAt memory true loc (spell format) args = .suppressed ↔ MaskedFirst memory args) := by
  rw [namesTwo, Bool.and_eq_true, decide_eq_true_eq] at hnames
  have htwo : 2 ≤ args.length := by
    rw [hargs, ← hnames.2]
    exact countP_le_consumedArgs
  have hcount := (count_string_eq_two_iff (hargs ▸ hmax)).mpr hnames.2
  rw [namesLiterally] at hnot
  unfold errorAt
  rw [hnot, hnames.1, decide_eq_true hcount, Bool.and_false, if_neg Bool.false_ne_true,
    if_pos (by decide)]
  cases args with
  | nil => exact absurd htwo (Nat.not_succ_le_zero 1)
  | cons san1 args =>
      cases args with
      | nil => exact absurd htwo (Nat.not_succ_le_self 1)
      | cons san2 args =>
          rw [MaskedFirst]
          by_cases hzero : san1 = 0 ∨ san2 = 0
          · simp only [hzero, if_true]
            refine ⟨nofun, iff_of_false nofun ?_⟩
            intro h
            rcases hzero with hzero | hzero
            · exact h.1 hzero
            · exact h.2.1 hzero
          · have hne := not_or.mp hzero
            have hmasked := @anyMasked_pair memory san1 san2 "thread".toList "address".toList
            rw [← maskedSanitizers] at hmasked
            simp only [hzero, if_false]
            rw [and_iff_right hne.1, and_iff_right hne.2, ← hmasked]
            cases hany : anyMasked memory san1 san2 maskedSanitizers with
            | none => exact ⟨nofun, iff_of_false nofun nofun⟩
            | some masked =>
                cases masked with
                | true => exact ⟨nofun, iff_of_true rfl rfl⟩
                | false =>
                    refine ⟨?_, iff_of_false forwardError_ne_suppressed nofun⟩
                    intro hforward
                    have hlength :=
                      congrArg List.length (forwardError_eq_forwarded_iff.mp hforward).2.2
                    rw [List.length_take, List.length_cons, List.length_cons] at hlength
                    omega

/-- A message that names no conflict is forwarded. -/
theorem errorAt_other (hargs : args.length = consumedArgs format) (hmax : args.length ≤ maxArgs)
    (hother : isXsanEnabled = true →
      namesLiterally format = false ∧ namesTwo format = false) :
    errorAt memory isXsanEnabled loc (spell format) args =
      forwardError loc (spell format) args := by
  unfold errorAt
  cases isXsanEnabled with
  | false => rfl
  | true =>
      obtain ⟨hliteral, hnames⟩ := hother rfl
      rw [namesLiterally] at hliteral
      rw [namesTwo, Bool.and_eq_false_iff, decide_eq_false_iff_not,
        ← count_string_eq_two_iff (hargs ▸ hmax)] at hnames
      rw [hliteral, Bool.and_false, if_neg Bool.false_ne_true, if_neg]
      rw [Bool.true_and, Bool.and_eq_true, decide_eq_true_eq]
      intro h
      rcases hnames with hnames | hnames
      · rw [h.1] at hnames
        cases hnames
      · exact hnames h.2

/-- The message is suppressed or forwarded as it should be if and only if its arguments are read
rightly. -/
theorem suppressesConflict_iff (hargs : args.length = consumedArgs format)
    (hmax : args.length ≤ maxArgs) :
    SuppressesConflict memory isXsanEnabled loc format args ↔
      ReadsRightly memory isXsanEnabled format args := by
  rw [SuppressesConflict]
  by_cases hother : isXsanEnabled = true →
      namesLiterally format = false ∧ namesTwo format = false
  · have hreports : ¬(isXsanEnabled = true ∧ ReportsConflict memory format args) := by
      intro h
      obtain ⟨hliteral, hnames⟩ := hother h.1
      rw [h.2.namesTwo hargs.ge hliteral] at hnames
      cases hnames
    rw [if_neg hreports, errorAt_other hargs hmax hother, forwardError_eq_iff hargs hmax]
    constructor
    · intro hwild
      refine ⟨?_, fun _ => hwild⟩
      intro henabled _ hnames
      rw [(hother henabled).2] at hnames
      cases hnames
    · intro h
      exact h.other hother
  · obtain ⟨rfl, hnamed⟩ := Classical.not_imp.mp hother
    cases hliteral : namesLiterally format with
    | true =>
        have hsuppressed : errorAt memory true loc (spell format) args = .suppressed := by
          rw [namesLiterally] at hliteral
          unfold errorAt
          rw [hliteral]
          rfl
        rw [hsuppressed, if_pos ⟨rfl, Or.inl hliteral⟩]
        refine iff_of_true rfl ⟨?_, fun h => absurd h hother⟩
        intro _ hnot
        rw [hliteral] at hnot
        cases hnot
    | false =>
        have hnames : namesTwo format = true := by
          rw [← Bool.not_eq_false]
          exact fun h => hnamed ⟨hliteral, h⟩
        obtain ⟨hne, hmasked⟩ := @errorAt_namesTwo memory loc args format hliteral hnames hargs hmax
        have hreads : ReadsRightly memory true format args ↔
            ReportsConflict memory format args ∧ MaskedFirst memory args := by
          constructor
          · intro h
            exact h.names rfl hliteral hnames
          · intro h
            exact ⟨fun _ _ _ => h, fun h => absurd h hother⟩
        rw [hreads, ← hmasked]
        by_cases hreports : ReportsConflict memory format args
        · rw [if_pos ⟨rfl, hreports⟩, and_iff_right hreports]
        · rw [if_neg fun h => hreports h.2]
          exact iff_of_false hne fun h => hreports h.1

end Forwarding

/-! ## Other sanitizers -/

/-- Plain text. -/
def literal (text : CString) (h : ∀ c ∈ text, c ≠ '%') : List Piece := text.pmap Piece.text h

def quotedOption : List Piece :=
  .other '<' (by decide) ::
    literal "-fsanitize=".toList (List.forall_iff_forall_mem.mp (by decide)) ++
    [.directive false false false .string, .other '>' (by decide)]

/-- The message of GCC. -/
def incompatibleOptions : List Piece :=
  quotedOption ++
    literal " is incompatible with ".toList (List.forall_iff_forall_mem.mp (by decide)) ++
    quotedOption

def namesAt (address : VaArg) : Option CString :=
  [(1, "address".toList), (2, "hwaddress".toList), (3, "leak".toList)].lookup address

/-- The conflict of `address` with `hwaddress` is suppressed, and that of `leak` with `hwaddress`
reads behind its arguments. -/
theorem hwaddress_suppressed :
    ¬SuppressesConflict namesAt true 0 incompatibleOptions [1, 2] ∧
      ¬SuppressesConflict namesAt true 0 incompatibleOptions [3, 2] := by
  have hsuppressed : errorAt namesAt true 0 (spell incompatibleOptions) [1, 2] = .suppressed := by
    decide
  have hundefined : errorAt namesAt true 0 (spell incompatibleOptions) [3, 2] = .undefined := by
    decide
  have hnot : ¬ReportsConflict namesAt incompatibleOptions [1, 2] := by decide
  have hnot' : ¬ReportsConflict namesAt incompatibleOptions [3, 2] := by decide
  constructor
  · rw [SuppressesConflict, hsuppressed, if_neg fun h => hnot h.2]
    nofun
  · rw [SuppressesConflict, hundefined, if_neg fun h => hnot' h.2]
    nofun

theorem suppressesConflict_iff_plain :
    SuppressesConflict namesAt true 0 [.directive false false false (.integer .none .d)] [5] ↔
      ReadsRightly namesAt true [.directive false false false (.integer .none .d)] [5] :=
  suppressesConflict_iff rfl (by decide)

end Mair.Compiler
