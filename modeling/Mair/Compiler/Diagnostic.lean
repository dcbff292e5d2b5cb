import Mair.Compiler.EditParams

/-! # Counting the arguments of a diagnostic

GCC's diagnostics take a format string of their own. The live patch counts the specifiers to learn
how many arguments it forwards. -/

namespace Mair.Compiler

/-! ## The scanner -/

def supportedSpecifiers : List CString :=
  ["llx".toList, "llo".toList, "llu".toList, "lli".toList, "lld".toList, "llX".toList,
    "llO".toList, "llU".toList, "wd".toList, "wi".toList, "wo".toList, "wu".toList, "wx".toList,
    "ld".toList, "li".toList, "lo".toList, "lu".toList, "lx".toList, "qD".toList, "qE".toList,
    "qO".toList, "qP".toList, "qT".toList, "qc".toList, "qs".toList, "qp".toList, "D".toList,
    "E".toList, "O".toList, "P".toList, "T".toList, "d".toList, "i".toList, "o".toList,
    "u".toList, "x".toList, "c".toList, "s".toList, "p".toList]

/-- The loop over the characters, with the number of them that the index jumps over. -/
def scanSpecifiers (specifiers : List CString) : CString → ℕ → BitVec 32 → BitVec 32
  | [], _, count => count
  | _ :: rest, skipped + 1, count => scanSpecifiers specifiers rest skipped count
  | c :: rest, 0, count =>
      if c ≠ '%' then scanSpecifiers specifiers rest 0 count
      else if rest.head? = some '%' then scanSpecifiers specifiers rest 1 count
      else
        let hasQ := if rest.head? = some 'q' then 1 else 0
        let cur := rest.drop hasQ
        match specifiers.find? (·.isPrefixOf cur) with
        | some spec => scanSpecifiers specifiers rest (hasQ + spec.length) (count + 1)
        | none =>
            if cur.head? = some 'm' then scanSpecifiers specifiers rest (hasQ + 1) count
            else scanSpecifiers specifiers rest 0 count

def countGccDiagSpecifiers (gmsgid givenSpec : CString) : BitVec 32 :=
  scanSpecifiers (if givenSpec.isEmpty then supportedSpecifiers else [givenSpec]) gmsgid 0 0

/-! ## The format language -/

inductive LengthModifier where
  | none | l | ll | w

inductive IntegerConversion where
  | d | i | o | u | x

inductive TreeConversion where
  | decl | expr | obstack | generic | type

inductive Conversion where
  | integer (modifier : LengthModifier) (conversion : IntegerConversion)
  | character
  | string
  | pointer
  | tree (conversion : TreeConversion)

def LengthModifier.spelling : LengthModifier → CString
  | .none => []
  | .l => ['l']
  | .ll => ['l', 'l']
  | .w => ['w']

def IntegerConversion.letter : IntegerConversion → Char
  | .d => 'd'
  | .i => 'i'
  | .o => 'o'
  | .u => 'u'
  | .x => 'x'

def TreeConversion.letter : TreeConversion → Char
  | .decl => 'D'
  | .expr => 'E'
  | .obstack => 'O'
  | .generic => 'P'
  | .type => 'T'

def Conversion.spelling : Conversion → CString
  | .integer modifier conversion => modifier.spelling ++ [conversion.letter]
  | .character => ['c']
  | .string => ['s']
  | .pointer => ['p']
  | .tree conversion => [conversion.letter]

/-- The characters that begin a directive of the table. -/
def initials : List Char :=
  ['l', 'w', 'q', 'd', 'i', 'o', 'u', 'x', 'c', 's', 'p', 'D', 'E', 'O', 'P', 'T']

/-- A directive outside the table, as `%<`, takes no argument. -/
inductive Piece where
  | text (c : Char) (h : c ≠ '%')
  | percent
  | errno (quoted : Bool)
  | other (c : Char) (h : c ∉ '%' :: 'm' :: '*' :: '.' :: initials)
  | directive (quoted width precision : Bool) (conversion : Conversion)

def quotation (quoted : Bool) : CString := if quoted then ['q'] else []

def wildcards (width precision : Bool) : CString :=
  (if width then ['*'] else []) ++ if precision then ['.', '*'] else []

def Piece.spelling : Piece → CString
  | .text c _ => [c]
  | .percent => ['%', '%']
  | .errno quoted => '%' :: (quotation quoted ++ ['m'])
  | .other c _ => ['%', c]
  | .directive quoted width precision conversion =>
      '%' :: (quotation quoted ++ wildcards width precision ++ conversion.spelling)

/-- The arguments that the piece takes. -/
def Piece.arity : Piece → ℕ
  | .directive _ width precision _ => width.toNat + precision.toNat + 1
  | _ => 0

def Piece.hasWildcard : Piece → Bool
  | .directive _ width precision _ => width || precision
  | _ => false

def spell (format : List Piece) : CString := format.flatMap Piece.spelling

def consumedArgs : List Piece → ℕ
  | [] => 0
  | p :: format => p.arity + consumedArgs format

/-- A directive without wildcards, with such a conversion. -/
def Piece.isPlain (counts : Conversion → Bool) : Piece → Bool
  | .directive _ width precision conversion => !width && !precision && counts conversion
  | _ => false

/-! ## One piece after the other -/

section Scan

variable {specifiers : List CString} {count : BitVec 32} {body rest : CString}
  {counts : Conversion → Bool} {format : List Piece}

theorem scanSpecifiers_skip :
    scanSpecifiers specifiers (body ++ rest) body.length count =
      scanSpecifiers specifiers rest 0 count := by
  induction body with
  | nil => cases rest <;> rfl
  | cons c body ih => exact ih

theorem scanSpecifiers_text (h : '%' ∉ body) :
    scanSpecifiers specifiers (body ++ rest) 0 count = scanSpecifiers specifiers rest 0 count := by
  induction body with
  | nil => rfl
  | cons c body ih =>
      rw [List.mem_cons, not_or] at h
      rw [List.cons_append, scanSpecifiers, if_pos (Ne.symm h.1)]
      exact ih h.2

/-- The list of specifiers finds those conversions that count, and nothing else. -/
structure Finds (specifiers : List CString) (counts : Conversion → Bool) : Prop where
  initial : ∀ spec ∈ specifiers, ∃ c ∈ initials, ∃ tail, spec = c :: tail
  conversion : ∀ conversion rest,
    specifiers.find? (·.isPrefixOf (conversion.spelling ++ rest)) =
      if counts conversion then some conversion.spelling else none

theorem Finds.eq_none (h : Finds specifiers counts) {c : Char} (hc : c ∉ initials) :
    specifiers.find? (·.isPrefixOf (c :: rest)) = none := by
  rw [List.find?_eq_none]
  intro spec hspec hbegins
  obtain ⟨d, hd, tail, rfl⟩ := h.initial spec hspec
  rw [List.isPrefixOf_cons_cons, Bool.and_eq_true, beq_iff_eq] at hbegins
  rw [hbegins.1] at hd
  exact hc hd

theorem quotation_length (quoted : Bool) : (quotation quoted).length = quoted.toNat := by
  cases quoted <;> rfl

/-- After the percent sign and the flag `q`. -/
theorem scanSpecifiers_percent {quoted : Bool} {c : Char} {cur : CString} (hpercent : c ≠ '%')
    (hq : c ≠ 'q') :
    scanSpecifiers specifiers ('%' :: (quotation quoted ++ c :: cur)) 0 count =
      match specifiers.find? (·.isPrefixOf (c :: cur)) with
      | some spec =>
          scanSpecifiers specifiers (quotation quoted ++ c :: cur) (quoted.toNat + spec.length)
            (count + 1)
      | none =>
          if c = 'm' then
            scanSpecifiers specifiers (quotation quoted ++ c :: cur) (quoted.toNat + 1) count
          else scanSpecifiers specifiers (quotation quoted ++ c :: cur) 0 count := by
  have hpercent' : some c ≠ some '%' := fun h => hpercent (Option.some.inj h)
  have hq' : some c ≠ some 'q' := fun h => hq (Option.some.inj h)
  have hm : some c = some 'm' ↔ c = 'm' := Option.some_inj
  cases quoted with
  | false =>
      rw [scanSpecifiers, if_neg (not_not.mpr rfl)]
      simp only [quotation, Bool.false_eq_true, if_false, List.nil_append, List.head?_cons,
        hpercent', hq', List.drop_zero, hm, Bool.toNat_false]
  | true =>
      rw [scanSpecifiers, if_neg (not_not.mpr rfl)]
      have hne : some 'q' ≠ some '%' := by decide
      simp only [quotation, if_true, List.singleton_append, List.head?_cons, hne, if_false,
        List.drop_succ_cons, List.drop_zero, hm, Bool.toNat_true]

theorem Conversion.exists_spelling (conversion : Conversion) :
    ∃ c tail, conversion.spelling = c :: tail ∧ c ≠ '%' ∧ c ≠ 'q' ∧ c ≠ 'm' := by
  cases conversion with
  | integer modifier conversion =>
      cases modifier <;> cases conversion <;> exact ⟨_, _, rfl, by decide⟩
  | character => exact ⟨_, _, rfl, by decide⟩
  | string => exact ⟨_, _, rfl, by decide⟩
  | pointer => exact ⟨_, _, rfl, by decide⟩
  | tree conversion => cases conversion <;> exact ⟨_, _, rfl, by decide⟩

theorem Conversion.percent_notMem (conversion : Conversion) : '%' ∉ conversion.spelling := by
  cases conversion with
  | integer modifier conversion => cases modifier <;> cases conversion <;> decide
  | character => decide
  | string => decide
  | pointer => decide
  | tree conversion => cases conversion <;> decide

theorem percent_notMem_wildcards {quoted width precision : Bool} :
    '%' ∉ quotation quoted ++ wildcards width precision := by
  cases quoted <;> cases width <;> cases precision <;> decide

/-- A conversion that counts is jumped over, and any other is read as text. -/
theorem Finds.scan_conversion (h : Finds specifiers counts) {quoted : Bool}
    {conversion : Conversion} :
    scanSpecifiers specifiers ('%' :: (quotation quoted ++ (conversion.spelling ++ rest))) 0 count =
      scanSpecifiers specifiers rest 0
        (count + BitVec.ofNat 32 (counts conversion).toNat) := by
  have hfind := h.conversion conversion rest
  have hquoted : '%' ∉ quotation quoted := by cases quoted <;> decide
  obtain ⟨c, tail, hspelling, hpercent, hq, hm⟩ := conversion.exists_spelling
  have hnotMem := conversion.percent_notMem
  rw [hspelling, List.cons_append] at hfind ⊢
  rw [scanSpecifiers_percent hpercent hq, hfind]
  cases counts conversion with
  | true =>
      have hbody : quotation quoted ++ c :: (tail ++ rest) =
          (quotation quoted ++ c :: tail) ++ rest := by rw [List.append_assoc, List.cons_append]
      have hskip : quoted.toNat + (c :: tail).length = (quotation quoted ++ c :: tail).length := by
        rw [List.length_append, quotation_length]
      simp only [if_true]
      rw [hbody, hskip, scanSpecifiers_skip]
      rfl
  | false =>
      rw [hspelling, List.mem_cons, not_or] at hnotMem
      simp only [Bool.false_eq_true, if_false, hm]
      rw [scanSpecifiers_text hquoted, ← List.cons_append, scanSpecifiers_text]
      · rw [Bool.toNat_false, BitVec.add_zero]
      · rw [List.mem_cons, not_or]
        exact hnotMem

/-- A directive without a plain conversion is read as text. -/
theorem Finds.scan_other (h : Finds specifiers counts) {quoted : Bool} {c : Char} {cur : CString}
    (hc : c ∉ '%' :: 'm' :: initials) (hcur : '%' ∉ cur) :
    scanSpecifiers specifiers ('%' :: (quotation quoted ++ (c :: (cur ++ rest)))) 0 count =
      scanSpecifiers specifiers rest 0 count := by
  rw [List.mem_cons, List.mem_cons, not_or, not_or] at hc
  have hq : c ≠ 'q' := by
    rintro rfl
    exact absurd hc.2.2 (by decide)
  have hbody : '%' ∉ quotation quoted ++ c :: cur := by
    rw [List.mem_append, List.mem_cons, not_or, not_or]
    refine ⟨?_, Ne.symm hc.1, hcur⟩
    cases quoted <;> decide
  rw [scanSpecifiers_percent hc.1 hq, h.eq_none hc.2.2]
  simp only [hc.2.1, if_false]
  rw [← List.cons_append, ← List.append_assoc, scanSpecifiers_text hbody]

/-- The scanner counts the plain directives. -/
theorem Finds.scan_piece (h : Finds specifiers counts) {p : Piece} :
    scanSpecifiers specifiers (p.spelling ++ rest) 0 count =
      scanSpecifiers specifiers rest 0 (count + BitVec.ofNat 32 (p.isPlain counts).toNat) := by
  have hzero : count + BitVec.ofNat 32 false.toNat = count := by
    rw [Bool.toNat_false, BitVec.add_zero]
  cases p with
  | text c hc =>
      rw [show (Piece.text c hc).isPlain counts = false from rfl, hzero, Piece.spelling,
        scanSpecifiers_text]
      rw [List.mem_singleton]
      exact Ne.symm hc
  | percent =>
      rw [show Piece.percent.isPlain counts = false from rfl, hzero]
      cases rest <;> rfl
  | errno quoted =>
      rw [show (Piece.errno quoted).isPlain counts = false from rfl, hzero, Piece.spelling,
        List.cons_append, List.append_assoc, List.singleton_append,
        scanSpecifiers_percent (by decide) (by decide), h.eq_none (by decide)]
      have hbody : quotation quoted ++ 'm' :: rest = (quotation quoted ++ ['m']) ++ rest := by
        rw [List.append_assoc, List.singleton_append]
      have hskip : quoted.toNat + 1 = (quotation quoted ++ ['m']).length := by
        rw [List.length_append, quotation_length, List.length_singleton]
      simp only [if_true]
      rw [hbody, hskip, scanSpecifiers_skip]
  | other c hc =>
      rw [show (Piece.other c hc).isPlain counts = false from rfl, hzero]
      refine @Finds.scan_other specifiers count rest counts h false c [] ?_ List.not_mem_nil
      simp only [List.mem_cons, not_or] at hc ⊢
      exact ⟨hc.1, hc.2.1, hc.2.2.2.2⟩
  | directive quoted width precision conversion =>
      have hwild : '%' ∉ wildcards false precision ++ conversion.spelling := by
        rw [List.mem_append, not_or]
        exact ⟨by cases precision <;> decide, conversion.percent_notMem⟩
      rw [Piece.spelling, List.cons_append, List.append_assoc, List.append_assoc]
      cases width with
      | true =>
          have hbody : wildcards true precision ++ (conversion.spelling ++ rest) =
              '*' :: (wildcards false precision ++ conversion.spelling ++ rest) := by
            rw [List.append_assoc]
            rfl
          rw [show (Piece.directive quoted true precision conversion).isPlain counts = false
            from rfl, hzero, hbody]
          exact h.scan_other (by decide) hwild
      | false =>
          cases precision with
          | true =>
              have hstar : '%' ∉ '*' :: conversion.spelling := by
                rw [List.mem_cons, not_or]
                exact ⟨by decide, conversion.percent_notMem⟩
              rw [show (Piece.directive quoted false true conversion).isPlain counts = false
                from rfl, hzero]
              exact @Finds.scan_other specifiers count rest counts h quoted '.' _ (by decide) hstar
          | false => exact h.scan_conversion

theorem countP_isPlain_cons {p : Piece} :
    (p :: format).countP (·.isPlain counts) =
      format.countP (·.isPlain counts) + (p.isPlain counts).toNat := by
  rw [List.countP_cons]
  cases p.isPlain counts <;> rfl

/-- The count is that of the plain directives. -/
theorem Finds.scan_spell (h : Finds specifiers counts) :
    scanSpecifiers specifiers (spell format) 0 count =
      count + BitVec.ofNat 32 (format.countP (·.isPlain counts)) := by
  induction format generalizing count with
  | nil => exact (BitVec.add_zero count).symm
  | cons p format ih =>
      have hspell : spell (p :: format) = p.spelling ++ spell format := List.flatMap_cons
      rw [hspell, h.scan_piece, ih, BitVec.add_assoc, ← BitVec.ofNat_add, countP_isPlain_cons,
        Nat.add_comm]

end Scan

/-! ## The number of arguments -/

theorem finds_supported : Finds supportedSpecifiers fun _ => true where
  initial := by
    have hall : (supportedSpecifiers.all fun spec =>
        initials.any fun c => decide (spec.head? = some c)) = true := by decide
    have hhead : ∀ spec ∈ supportedSpecifiers, ∃ c ∈ initials, spec.head? = some c := by
      simpa only [List.all_eq_true, List.any_eq_true, decide_eq_true_eq] using hall
    intro spec hspec
    obtain ⟨c, hc, heq⟩ := hhead spec hspec
    rw [List.head?_eq_some_iff] at heq
    exact ⟨c, hc, heq⟩
  conversion := by
    intro conversion rest
    cases conversion with
    | integer modifier conversion =>
        cases modifier <;> cases conversion <;> rfl
    | character => rfl
    | string => rfl
    | pointer => rfl
    | tree conversion => cases conversion <;> rfl

theorem finds_string :
    Finds ["s".toList] fun conversion => conversion.spelling = "s".toList where
  initial := by
    intro spec hspec
    rw [List.mem_singleton] at hspec
    exact ⟨'s', by decide, [], hspec⟩
  conversion := by
    intro conversion rest
    cases conversion with
    | integer modifier conversion =>
        cases modifier <;> cases conversion <;> rfl
    | character => rfl
    | string => rfl
    | pointer => rfl
    | tree conversion => cases conversion <;> rfl

theorem countGccDiagSpecifiers_eq (format : List Piece) :
    countGccDiagSpecifiers (spell format) [] =
      BitVec.ofNat 32 (format.countP (·.isPlain fun _ => true)) := by
  rw [countGccDiagSpecifiers, if_pos List.isEmpty_nil, finds_supported.scan_spell]
  exact BitVec.zero_add _

theorem plain_le_arity {counts : Conversion → Bool} {p : Piece} :
    (p.isPlain counts).toNat ≤ p.arity := by
  cases p with
  | directive quoted width precision conversion =>
      exact (Bool.toNat_le _).trans (Nat.le_add_left 1 _)
  | text c h => exact le_rfl
  | percent => exact le_rfl
  | errno quoted => exact le_rfl
  | other c h => exact le_rfl

theorem countP_le_consumedArgs {counts : Conversion → Bool} {format : List Piece} :
    format.countP (·.isPlain counts) ≤ consumedArgs format := by
  induction format with
  | nil => exact le_rfl
  | cons p format ih =>
      rw [countP_isPlain_cons, consumedArgs]
      exact (Nat.add_le_add ih plain_le_arity).trans_eq (Nat.add_comm _ _)

theorem plain_eq_arity_iff {p : Piece} :
    (p.isPlain fun _ => true).toNat = p.arity ↔ p.hasWildcard = false := by
  cases p with
  | directive quoted width precision conversion =>
      rw [Piece.isPlain, Piece.arity, Piece.hasWildcard]
      revert width precision
      decide
  | text c h => exact iff_of_true rfl rfl
  | percent => exact iff_of_true rfl rfl
  | errno quoted => exact iff_of_true rfl rfl
  | other c h => exact iff_of_true rfl rfl

/-- Each wildcard takes an argument that no specifier stands for. -/
theorem countP_eq_consumedArgs_iff {format : List Piece} :
    format.countP (·.isPlain fun _ => true) = consumedArgs format ↔
      ∀ p ∈ format, p.hasWildcard = false := by
  induction format with
  | nil => exact iff_of_true rfl nofun
  | cons p format ih =>
      have hp := @plain_le_arity (fun _ => true) p
      have hle := @countP_le_consumedArgs (fun _ => true) format
      rw [List.forall_mem_cons, ← ih, ← plain_eq_arity_iff, countP_isPlain_cons, consumedArgs]
      omega

/-- The count is the number of arguments if and only if there is no wildcard and the counter does
not overflow. -/
theorem countGccDiagSpecifiers_eq_consumedArgs_iff (format : List Piece) :
    (countGccDiagSpecifiers (spell format) []).toNat = consumedArgs format ↔
      (∀ p ∈ format, p.hasWildcard = false) ∧ consumedArgs format < 2 ^ 32 := by
  rw [countGccDiagSpecifiers_eq, BitVec.toNat_ofNat, ← countP_eq_consumedArgs_iff]
  have hle := @countP_le_consumedArgs (fun _ => true) format
  constructor
  · intro h
    have hlt : consumedArgs format < 2 ^ 32 := h ▸ Nat.mod_lt _ (by decide)
    rw [Nat.mod_eq_of_lt (hle.trans_lt hlt)] at h
    exact ⟨h, hlt⟩
  · intro h
    rw [h.1, Nat.mod_eq_of_lt h.2]

/-- `%*d` takes a width and a number, and none is counted. -/
theorem wildcard_uncounted :
    ¬(countGccDiagSpecifiers "%*d".toList []).toNat =
      consumedArgs [.directive false true false (.integer .none .d)] ∧
    spell [.directive false true false (.integer .none .d)] = "%*d".toList := by
  decide

end Mair.Compiler
