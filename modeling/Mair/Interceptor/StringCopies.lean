import Mair.Interceptor.CStrings

/-! # Interceptors of string functions

Each interceptor computes the ranges that the function behind it will read, write and copy. -/

namespace Mair.Interceptor

/-! ## Hooks -/

structure Flags where
  replaceStr : Bool
  strictStringChecks : Bool

inductive Operand where
  | destination
  | source
  deriving DecidableEq

/-- The calls of the hooks. -/
inductive Effect where
  | readRange (operand : Operand) (offset size : ℕ)
  | writeRange (offset size : ℕ)
  | useRange (offset size : ℕ)
  | copyRange (dst src size : ℕ)
  | initRange (offset size : ℕ)
  | overlap (name : String) (offset1 length1 offset2 length2 : ℕ)
  deriving DecidableEq

section Macros

variable (f : Flags) (isAppMem : ℕ → Bool)

@[simp] def xsanReadRange (operand : Operand) (offset size : ℕ) : List Effect :=
  if isAppMem offset then [.readRange operand offset size] else []

@[simp] def xsanWriteRange (offset size : ℕ) : List Effect :=
  if isAppMem offset then [.writeRange offset size] else []

@[simp] def xsanUseRange (offset size : ℕ) : List Effect :=
  if isAppMem offset then [.useRange offset size] else []

@[simp] def xsanCopyRange (dst src size : ℕ) : List Effect :=
  if isAppMem dst && isAppMem src then [.copyRange dst src size] else []

@[simp] def xsanInitRange (offset size : ℕ) : List Effect :=
  if isAppMem offset then [.initRange offset size] else []

@[simp] def xsanReadStringOfLen (operand : Operand) (s len n : ℕ) : List Effect :=
  xsanReadRange isAppMem operand s (if f.strictStringChecks then len + 1 else n)

@[simp] def xsanUseString (s len : ℕ) : List Effect :=
  if f.strictStringChecks then xsanUseRange isAppMem (s + len) 1 else []

def xsanRangesOverlap (offset1 length1 offset2 length2 : ℕ) : Bool :=
  !(decide (offset1 + length1 ≤ offset2) || decide (offset2 + length2 ≤ offset1))

@[simp] def checkRangesOverlap (name : String) (offset1 length1 offset2 length2 : ℕ) :
    List Effect :=
  if xsanRangesOverlap offset1 length1 offset2 length2 then
    [.overlap name offset1 length1 offset2 length2]
  else []

/-! ## Interceptors -/

variable (mem : ℕ → UInt8) (d s : ℕ)

def strcat : List Effect :=
  if f.replaceStr then
    let fromLength := internalStrlen mem s
    let toLength := internalStrlen mem d
    xsanReadRange isAppMem .source s (fromLength + 1) ++
    xsanUseString f isAppMem s fromLength ++
    xsanReadStringOfLen f isAppMem .destination d toLength toLength ++
    xsanWriteRange isAppMem (d + toLength) (fromLength + 1) ++
    xsanUseString f isAppMem d toLength ++
    xsanCopyRange isAppMem (d + toLength) s (fromLength + 1) ++
    if 0 < fromLength then
      checkRangesOverlap "strcat" d (fromLength + toLength + 1) s (fromLength + 1)
    else []
  else []

def strncat (size : ℕ) : List Effect :=
  if f.replaceStr then
    let fromLength := strnlen mem s size
    let copyLength := min size (fromLength + 1)
    let toLength := internalStrlen mem d
    xsanReadRange isAppMem .source s copyLength ++
    xsanReadStringOfLen f isAppMem .destination d toLength toLength ++
    xsanWriteRange isAppMem (d + toLength) (fromLength + 1) ++
    xsanUseString f isAppMem d toLength ++
    xsanCopyRange isAppMem (d + toLength) s copyLength ++
    xsanInitRange isAppMem (d + toLength + copyLength) 1 ++
    if 0 < fromLength then
      checkRangesOverlap "strncat" d (toLength + copyLength + 1) s copyLength
    else []
  else []

def strcpy : List Effect :=
  if f.replaceStr then
    let fromSize := internalStrlen mem s + 1
    checkRangesOverlap "strcpy" d fromSize s fromSize ++
    xsanReadRange isAppMem .source s fromSize ++
    xsanWriteRange isAppMem d fromSize ++
    xsanUseString f isAppMem s (fromSize - 1) ++
    xsanCopyRange isAppMem d s fromSize
  else []

def strncpy (size : ℕ) : List Effect :=
  if f.replaceStr then
    let fromSize := min size (strnlen mem s size + 1)
    checkRangesOverlap "strncpy" d fromSize s fromSize ++
    xsanReadRange isAppMem .source s fromSize ++
    xsanWriteRange isAppMem d size ++
    xsanCopyRange isAppMem d s fromSize ++
    xsanInitRange isAppMem (d + fromSize) (size - fromSize)
  else []

def stringEffects : StringCall → List Effect
  | .strcpy => strcpy f isAppMem mem d s
  | .strncpy size => strncpy f isAppMem mem d s size
  | .strcat => strcat f isAppMem mem d s
  | .strncat size => strncat f isAppMem mem d s size

end Macros

/-! ## The law and when it holds -/

/-- The shadow bytes after a call of a hook. -/
@[simp] def Effect.apply (shadow : ℕ → UInt8) : Effect → ℕ → UInt8
  | .copyRange dst src size =>
      fun x => if dst ≤ x ∧ x < dst + size then shadow (src + (x - dst)) else shadow x
  | .initRange offset size => fun x => if offset ≤ x ∧ x < offset + size then 0 else shadow x
  | _ => shadow

def shadowAfter (shadow : ℕ → UInt8) (es : List Effect) : ℕ → UInt8 := es.foldl Effect.apply shadow

@[simp] def Effect.Writes : Effect → ℕ → Prop
  | .writeRange offset size, x => offset ≤ x ∧ x < offset + size
  | _, _ => False

/-- The bytes of the source that a call is about. -/
@[simp] def Effect.Reads : Effect → ℕ → Prop
  | .readRange .source offset size, y => offset ≤ y ∧ y < offset + size
  | _, _ => False

def WrittenIn (es : List Effect) (x : ℕ) : Prop := ∃ e ∈ es, e.Writes x

def ReadIn (es : List Effect) (y : ℕ) : Prop := ∃ e ∈ es, e.Reads y

/-- The hooks are told what the accesses of the function are. -/
structure Describes (shadow : ℕ → UInt8) (es : List Effect) (as : List Access) : Prop where
  written : ∀ x, WrittenIn es x ↔ .fill x ∈ as ∨ ∃ y, .copy x y ∈ as
  read : ∀ y, ReadIn es y ↔ .load y ∈ as
  copied : ∀ x y, .copy x y ∈ as → shadowAfter shadow es x = shadow y
  generated : ∀ x, .fill x ∈ as → shadowAfter shadow es x = 0
  unchanged : ∀ x, (.fill x ∉ as ∧ ∀ y, .copy x y ∉ as) → shadowAfter shadow es x = shadow x

/-- The strings whose length the function takes without a bound end. -/
def StringCall.Valid (mem : ℕ → UInt8) (d s : ℕ) : StringCall → Prop
  | .strcpy => Terminated mem s
  | .strncpy _ => True
  | .strcat => Terminated mem s ∧ Terminated mem d
  | .strncat _ => Terminated mem d

structure InAppMem (isAppMem : ℕ → Bool) (as : List Access) : Prop where
  load : ∀ y, .load y ∈ as → isAppMem y
  copy : ∀ x y, .copy x y ∈ as → isAppMem x
  fill : ∀ x, .fill x ∈ as → isAppMem x

/-- If the source of `strncat` ends before its bound, its terminator is initialised, and so is the
byte behind the new terminator unless it is no application memory. -/
def StringCall.Exact (isAppMem : ℕ → Bool) (shadow mem : ℕ → UInt8) (d s : ℕ) :
    StringCall → Prop
  | .strncat size =>
      let fromLength := strnlen mem s size
      let behind := d + internalStrlen mem d + fromLength + 1
      fromLength < size → shadow (s + fromLength) = 0 ∧ (isAppMem behind → shadow behind = 0)
  | _ => True

/-! ## What an interceptor does -/

/-- The hooks hear of `r` source bytes and `w` written bytes, and the shadow of `c` bytes is copied
before that of the next `g` bytes is cleared. -/
structure Announces (isAppMem : ℕ → Bool) (es : List Effect) (d s r w c g : ℕ) : Prop where
  read : ∀ y, ReadIn es y ↔ isAppMem s ∧ s ≤ y ∧ y < s + r
  written : ∀ x, WrittenIn es x ↔ isAppMem d ∧ d ≤ x ∧ x < d + w
  shadow : ∀ shadow x, shadowAfter shadow es x =
    if isAppMem (d + c) ∧ d + c ≤ x ∧ x < d + c + g then 0
    else if (isAppMem d ∧ isAppMem s) ∧ d ≤ x ∧ x < d + c then shadow (s + (x - d))
    else shadow x

section Effects

variable {f : Flags} {isAppMem : ℕ → Bool} {mem shadow : ℕ → UInt8} {es es' : List Effect}
  {e : Effect} {d s n x y : ℕ} {cond : Prop} [Decidable cond]

@[simp] theorem shadowAfter_append :
    shadowAfter shadow (es ++ es') = shadowAfter (shadowAfter shadow es) es' :=
  List.foldl_append

@[simp] theorem readIn_append : ReadIn (es ++ es') y ↔ ReadIn es y ∨ ReadIn es' y := by
  simp only [ReadIn, List.mem_append, or_and_right, exists_or]

@[simp] theorem writtenIn_append : WrittenIn (es ++ es') x ↔ WrittenIn es x ∨ WrittenIn es' x := by
  simp only [WrittenIn, List.mem_append, or_and_right, exists_or]

@[simp] theorem shadowAfter_nil : shadowAfter shadow [] = shadow := rfl

@[simp] theorem shadowAfter_singleton : shadowAfter shadow [e] = e.apply shadow := rfl

@[simp] theorem readIn_nil : ¬ReadIn [] y := by simp [ReadIn]

@[simp] theorem readIn_singleton : ReadIn [e] y ↔ e.Reads y := by simp [ReadIn]

@[simp] theorem writtenIn_nil : ¬WrittenIn [] x := by simp [WrittenIn]

@[simp] theorem writtenIn_singleton : WrittenIn [e] x ↔ e.Writes x := by simp [WrittenIn]

/-! A macro calls its hook under a condition. -/

@[simp] theorem shadowAfter_gate : shadowAfter shadow (if cond then es else []) =
    if cond then shadowAfter shadow es else shadow := by
  split_ifs <;> rfl

@[simp] theorem readIn_gate : ReadIn (if cond then es else []) y ↔ cond ∧ ReadIn es y := by
  split_ifs with hcond <;> simp [hcond]

@[simp] theorem writtenIn_gate :
    WrittenIn (if cond then es else []) x ↔ cond ∧ WrittenIn es x := by
  split_ifs with hcond <;> simp [hcond]

theorem strcpy_announces (hreplace : f.replaceStr = true) (hstrict : f.strictStringChecks = false) :
    Announces isAppMem (strcpy f isAppMem mem d s) d s (internalStrlen mem s + 1)
      (internalStrlen mem s + 1) (internalStrlen mem s + 1) 0 := by
  refine ⟨fun y => ?_, fun x => ?_, fun shadow x => ?_⟩
  · simp [strcpy, hreplace, hstrict]
  · simp [strcpy, hreplace, hstrict]
  · rw [if_neg (by omega)]
    simp [strcpy, hreplace, hstrict, ite_apply, ite_and]

theorem strncpy_announces (hreplace : f.replaceStr = true) :
    Announces isAppMem (strncpy f isAppMem mem d s n) d s (min n (strnlen mem s n + 1)) n
      (min n (strnlen mem s n + 1)) (n - min n (strnlen mem s n + 1)) := by
  refine ⟨fun y => ?_, fun x => ?_, fun shadow x => ?_⟩
  · simp [strncpy, hreplace]
  · simp [strncpy, hreplace]
  · simp [strncpy, hreplace, ite_apply, ite_and]

theorem strcat_announces (hreplace : f.replaceStr = true) (hstrict : f.strictStringChecks = false) :
    Announces isAppMem (strcat f isAppMem mem d s) (d + internalStrlen mem d) s
      (internalStrlen mem s + 1) (internalStrlen mem s + 1) (internalStrlen mem s + 1) 0 := by
  refine ⟨fun y => ?_, fun x => ?_, fun shadow x => ?_⟩
  · simp [strcat, hreplace, hstrict]
  · simp [strcat, hreplace, hstrict]
  · rw [if_neg (by omega)]
    simp [strcat, hreplace, hstrict, ite_apply, ite_and]

theorem strncat_announces (hreplace : f.replaceStr = true)
    (hstrict : f.strictStringChecks = false) :
    Announces isAppMem (strncat f isAppMem mem d s n) (d + internalStrlen mem d) s
      (min n (strnlen mem s n + 1)) (strnlen mem s n + 1) (min n (strnlen mem s n + 1)) 1 := by
  refine ⟨fun y => ?_, fun x => ?_, fun shadow x => ?_⟩
  · simp [strncat, hreplace, hstrict]
  · simp [strncat, hreplace, hstrict]
  · simp [strncat, hreplace, hstrict, ite_apply, ite_and]

end Effects

/-! ## The ranges of an interceptor and of a loop -/

section Ranges

variable {isAppMem : ℕ → Bool} {shadow : ℕ → UInt8} {es : List Effect} {as : List Access}
  {d s r c g : ℕ}

theorem InAppMem.source (happ : InAppMem isAppMem as) (hperf : Performs as d s r c g)
    (hr : 0 < r) : isAppMem s = true :=
  happ.load s ((hperf.load s).mpr (by omega))

theorem InAppMem.copied (happ : InAppMem isAppMem as) (hperf : Performs as d s r c g)
    (hc : 0 < c) : isAppMem d = true :=
  happ.copy d s ((hperf.copy d s).mpr (by omega))

theorem InAppMem.filled (happ : InAppMem isAppMem as) (hperf : Performs as d s r c g)
    (hg : 0 < g) : isAppMem (d + c) = true :=
  happ.fill (d + c) ((hperf.fill (d + c)).mpr (by omega))

theorem InAppMem.begin (happ : InAppMem isAppMem as) (hperf : Performs as d s r c g)
    (hpos : 0 < c + g) : isAppMem d = true := by
  cases c with
  | zero => simpa using happ.filled hperf (by omega)
  | succ c => exact happ.copied hperf (Nat.succ_pos c)

/-- The reads and writes of a loop are the ones that are announced. -/
theorem written_iff (happ : InAppMem isAppMem as) (hperf : Performs as d s r c g) (x : ℕ) :
    (isAppMem d = true ∧ d ≤ x ∧ x < d + (c + g)) ↔ .fill x ∈ as ∨ ∃ y, .copy x y ∈ as := by
  simp only [hperf.fill, hperf.copy]
  constructor
  · rintro ⟨-, hle, hlt⟩
    by_cases hx : x < d + c
    · exact Or.inr ⟨s + (x - d), by omega⟩
    · exact Or.inl (by omega)
  · intro hx
    have hrange : d ≤ x ∧ x < d + (c + g) := by
      rcases hx with hx | ⟨y, hx⟩
      · omega
      · omega
    exact ⟨happ.begin hperf (by omega), hrange⟩

theorem read_iff (happ : InAppMem isAppMem as) (hperf : Performs as d s r c g) (y : ℕ) :
    (isAppMem s = true ∧ s ≤ y ∧ y < s + r) ↔ .load y ∈ as := by
  rw [hperf.load]
  constructor
  · rintro ⟨-, hrange⟩
    exact hrange
  · intro hrange
    exact ⟨happ.source hperf (by omega), hrange⟩

/-- The interceptor announces exactly the ranges of the loop. -/
theorem describes_of_announces (happ : InAppMem isAppMem as) (hperf : Performs as d s r c g)
    (hcr : c ≤ r) (hann : Announces isAppMem es d s r (c + g) c g) :
    Describes shadow es as := by
  have hsh := hann.shadow shadow
  refine ⟨fun x => ?_, fun y => ?_, fun x y hxy => ?_, fun x hx => ?_, fun x hx => ?_⟩
  · rw [hann.written, written_iff happ hperf]
  · rw [hann.read, read_iff happ hperf]
  · have hx := (hperf.copy x y).mp hxy
    rw [hsh, if_neg (by omega), if_pos]
    · congr 1
      omega
    · exact ⟨⟨happ.copied hperf (by omega), happ.source hperf (by omega)⟩, by omega⟩
  · have hx' := (hperf.fill x).mp hx
    rw [hsh, if_pos]
    exact ⟨happ.filled hperf (by omega), hx'⟩
  · have hfill := mt (hperf.fill x).mpr hx.1
    have hcopy := mt (hperf.copy x (s + (x - d))).mpr (hx.2 _)
    rw [hsh, if_neg (by omega), if_neg (by omega)]

/-- The interceptor announces the terminator of the source as copied, and clears the shadow of the
byte behind the generated one. -/
theorem describes_iff_of_overrun (happ : InAppMem isAppMem as)
    (hperf : Performs as d s (c + 1) c 1)
    (hann : Announces isAppMem es d s (c + 1) (c + 1) (c + 1) 1) :
    Describes shadow es as ↔
      shadow (s + c) = 0 ∧ (isAppMem (d + c + 1) → shadow (d + c + 1) = 0) := by
  have hsh := hann.shadow shadow
  have hd := happ.begin hperf (Nat.succ_pos c)
  have hs := happ.source hperf (Nat.succ_pos c)
  have hlast : shadowAfter shadow es (d + c) = shadow (s + c) := by
    rw [hsh, if_neg (by omega), if_pos ⟨⟨hd, hs⟩, by omega⟩]
    congr 1
    omega
  have hbehind : shadowAfter shadow es (d + c + 1) =
      if isAppMem (d + c + 1) then 0 else shadow (d + c + 1) := by
    rw [hsh, Nat.add_assoc d c 1]
    by_cases happ' : isAppMem (d + (c + 1)) = true
    · rw [if_pos ⟨happ', by omega⟩, if_pos happ']
    · rw [if_neg fun h => happ' h.1, if_neg (by omega), if_neg happ']
  constructor
  · intro h
    constructor
    · rw [← hlast]
      exact h.generated (d + c) ((hperf.fill _).mpr (by omega))
    · intro happ'
      have hkept := h.unchanged (d + c + 1)
        ⟨mt (hperf.fill _).mp (by omega), fun y => mt (hperf.copy _ y).mp (by omega)⟩
      rw [← hkept, hbehind, if_pos happ']
  · rintro ⟨hterm, hbyte⟩
    refine ⟨fun x => ?_, fun y => ?_, fun x y hxy => ?_, fun x hx => ?_, fun x hx => ?_⟩
    · rw [hann.written, written_iff happ hperf]
    · rw [hann.read, read_iff happ hperf]
    · have hx := (hperf.copy x y).mp hxy
      rw [hsh, if_neg (by omega), if_pos ⟨⟨hd, hs⟩, by omega⟩]
      congr 1
      omega
    · have hx' := (hperf.fill x).mp hx
      have heq : x = d + c := by omega
      rw [heq, hlast, hterm]
    · have hfill := mt (hperf.fill x).mpr hx.1
      have hcopy := mt (hperf.copy x (s + (x - d))).mpr (hx.2 _)
      by_cases heq : x = d + c + 1
      · rw [heq, hbehind]
        split_ifs with happ'
        · exact (hbyte happ').symm
        · rfl
      · rw [hsh, if_neg (by omega), if_neg (by omega)]

end Ranges

/-! ## Calls -/

/-- For every content of the memory and every size, the hooks are told exactly what the function
does, if and only if the source of `strncat` does not end early with a byte behind it to be
cleared. -/
theorem describes_iff_exact (f : Flags) (isAppMem : ℕ → Bool) (mem shadow : ℕ → UInt8) (d s : ℕ)
    (call : StringCall) (hreplace : f.replaceStr = true) (hstrict : f.strictStringChecks = false)
    (hvalid : call.Valid mem d s) (happ : InAppMem isAppMem (call.accesses mem d s)) :
    Describes shadow (stringEffects f isAppMem mem d s call) (call.accesses mem d s) ↔
      call.Exact isAppMem shadow mem d s := by
  cases call with
  | strcpy =>
      refine iff_of_true ?_ trivial
      exact describes_of_announces happ (copyString_performs hvalid.strlen_lt) (Nat.le_refl _)
        (strcpy_announces hreplace hstrict)
  | strncpy size =>
      refine iff_of_true ?_ trivial
      have hann := @strncpy_announces f isAppMem mem d s size hreplace
      apply describes_of_announces happ copyPadded_performs (Nat.le_refl _)
      rwa [Nat.add_sub_cancel' (Nat.min_le_left _ _)]
  | strcat =>
      refine iff_of_true ?_ trivial
      exact describes_of_announces happ (copyString_performs hvalid.1.strlen_lt) (Nat.le_refl _)
        (strcat_announces hreplace hstrict)
  | strncat size =>
      have hperf := @copyTerminated_performs mem (d + internalStrlen mem d) s size
      have hann := @strncat_announces f isAppMem mem d s size hreplace hstrict
      have hle : strnlen mem s size ≤ size := strnlen_le s size
      simp only [stringEffects, StringCall.accesses, StringCall.Exact] at happ ⊢
      by_cases hlt : strnlen mem s size < size
      · rw [Nat.min_eq_right hlt] at hperf hann
        rw [describes_iff_of_overrun happ hperf hann]
        constructor
        · intro h _
          exact h
        · intro h
          exact h hlt
      · have heq : strnlen mem s size = size := Nat.le_antisymm hle (Nat.le_of_not_lt hlt)
        refine iff_of_true ?_ fun h => absurd h hlt
        rw [heq, Nat.min_eq_left (Nat.le_succ size)] at hperf hann
        exact describes_of_announces happ hperf (Nat.le_refl _) hann

/-! ## A bound that is not reached -/

def reportFlags : Flags := ⟨true, false⟩

/-- The empty string at 0, with a poisoned byte behind its terminator, and the string at 8. -/
def twoStrings (x : ℕ) : UInt8 := if x = 8 then 97 else 0

def poisonedBehind (x : ℕ) : UInt8 := if x = 2 then 255 else 0

theorem everything_inAppMem (as : List Access) : InAppMem (fun _ => true) as :=
  ⟨fun _ _ => rfl, fun _ _ _ => rfl, fun _ _ => rfl⟩

theorem twoStrings_valid : (StringCall.strncat 4).Valid twoStrings 0 8 :=
  ⟨0, by decide, rfl⟩

/-- `strncat(to, "a", 4)` on an empty string writes two bytes and clears the shadow of a third. -/
theorem strncat_clears_behind :
    (StringCall.strncat 4).accesses twoStrings 0 8 = [.load 8, .copy 0 8, .load 9, .fill 1] ∧
      ¬Describes poisonedBehind
        (stringEffects reportFlags (fun _ => true) twoStrings 0 8 (.strncat 4))
        ((StringCall.strncat 4).accesses twoStrings 0 8) := by
  have haccesses :
      (StringCall.strncat 4).accesses twoStrings 0 8 = [.load 8, .copy 0 8, .load 9, .fill 1] := by
    decide
  refine ⟨haccesses, ?_⟩
  intro h
  have hkept := h.unchanged 2 (by rw [haccesses]; simp)
  exact absurd hkept (by decide)

theorem describes_iff_exact_strncat :
    Describes poisonedBehind
        (stringEffects reportFlags (fun _ => true) twoStrings 0 8 (.strncat 4))
        ((StringCall.strncat 4).accesses twoStrings 0 8) ↔
      (StringCall.strncat 4).Exact (fun _ => true) poisonedBehind twoStrings 0 8 :=
  describes_iff_exact reportFlags (fun _ => true) twoStrings poisonedBehind 0 8 (.strncat 4) rfl rfl
    twoStrings_valid (everything_inAppMem _)

end Mair.Interceptor
