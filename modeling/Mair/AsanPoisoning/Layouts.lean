import Mair.AsanPoisoning.Requests
import Mair.AsanPoisoning.Verification

/-! # Containers that share no granule

Each container changes its elements when the program says so, and other memory is poisoned and
unpoisoned in between. Containers whose storages have no granule in common stay annotated. -/

namespace Mair.AsanPoisoning

/-- The elements of a vector start with its storage. -/
structure Storage where
  beg : ℕ
  stop : ℕ
  isVector : Bool

def Storage.bytes (st : Storage) : Set ℕ := Set.Ico st.beg st.stop

/-- An interval of the storage. -/
structure Elements (st : Storage) where
  beg : ℕ
  stop : ℕ
  first : st.beg ≤ beg
  ordered : beg ≤ stop
  last : stop ≤ st.stop
  vector : st.isVector = true → beg = st.beg

structure Layout (r : Runtime) (ι : Type) where
  storage : ι → Storage
  served : ∀ c, r.Serves ((storage c).beg / 8) (((storage c).stop + 8 - 1) / 8)
  small : ∀ c, (storage c).stop - (storage c).beg ≤ 1 <<< 40
  apart : ∀ c d, c ≠ d → ∀ a ∈ (storage c).bytes, ∀ b ∈ (storage d).bytes, a / 8 ≠ b / 8

variable {r : Runtime} {ι : Type} {L : Layout r ι} {s s' : Shadow}

def Storage.all (st : Storage) (h : st.beg ≤ st.stop) : Elements st :=
  ⟨st.beg, st.stop, le_rfl, h, le_rfl, fun _ => rfl⟩

abbrev Layout.State (L : Layout r ι) := (c : ι) → Elements (L.storage c)

inductive Layout.Event (L : Layout r ι) where
  | change (c : ι) (new : Elements (L.storage c))
  | other (q : Request)

def Layout.request (L : Layout r ι) (st : L.State) : L.Event → Request
  | .change c new =>
      if (L.storage c).isVector then
        .annotateContiguous (L.storage c).beg (L.storage c).stop (st c).stop new.stop
      else
        .annotateDoubleEnded (L.storage c).beg (L.storage c).stop
          ⟨(st c).beg, (st c).stop, new.beg, new.stop⟩
  | .other q => q

def Layout.next [DecidableEq ι] (L : Layout r ι) (st : L.State) : L.Event → L.State
  | .change c new => Function.update st c new
  | .other _ => st

def Layout.run [DecidableEq ι] (L : Layout r ι) (st : L.State) :
    List L.Event → Shadow → Option (L.State × Shadow)
  | [], s => some (st, s)
  | e :: es, s => (step r s (L.request st e)).bind fun s => L.run (L.next st e) es s

/-- The bytes that a request is about. -/
def Request.bytes : Request → Set ℕ
  | poisonRegion addr size => Set.Ico addr (addr + size)
  | unpoisonRegion addr size => Set.Ico addr (addr + size)
  | poisonStack addr size => Set.Ico addr (addr + size)
  | unpoisonStack addr size => Set.Ico addr (addr + size)
  | annotateContiguous storageBeg storageEnd _ _ => Set.Ico storageBeg storageEnd
  | annotateDoubleEnded storageBeg storageEnd _ => Set.Ico storageBeg storageEnd
  | copyAnnotations _ _ dstBeg dstEnd => Set.Ico dstBeg dstEnd

/-- Other requests are about other granules. -/
def Layout.Admits (L : Layout r ι) : L.Event → Prop
  | .change _ _ => True
  | .other q => q.WellFormed r ∧ (∀ A, q.Matches A) ∧
      ∀ c, ∀ a ∈ (L.storage c).bytes, ∀ b ∈ q.bytes, a / 8 ≠ b / 8

/-- Every container is annotated with its elements. -/
def Layout.Annotated (L : Layout r ι) (st : L.State) (s : Shadow) : Prop :=
  ∀ c, accessible s =
    annotatedBytes s (L.storage c).beg (L.storage c).stop (st c).beg (st c).stop

/-! ## Granules that a request leaves alone -/

theorem mem_effect_iff {q : Request} {A : Set ℕ} {a : ℕ} (hform : q.WellFormed r)
    (ha : a ∉ q.bytes) : a ∈ q.effect A ↔ a ∈ A := by
  have hsdiff (l u : ℕ) (h : a ∉ Set.Ico l u) : a ∈ A \ Set.Ico l u ↔ a ∈ A :=
    ⟨fun hmem => hmem.1, fun hmem => ⟨hmem, h⟩⟩
  have hunion (B C : Set ℕ) (h : a ∉ C) : a ∈ B ∪ C ↔ a ∈ B :=
    ⟨fun hmem => hmem.resolve_right h, .inl⟩
  cases q with
  | poisonRegion addr size => exact hsdiff _ _ ha
  | unpoisonRegion addr size => exact hunion _ _ ha
  | poisonStack addr size => exact hsdiff _ _ ha
  | unpoisonStack addr size => exact hunion _ _ ha
  | annotateContiguous storageBeg storageEnd oldEnd newEnd =>
      refine (hunion _ _ fun h => ha ?_).trans (hsdiff _ _ ha)
      exact ⟨h.1, h.2.trans_le hform.2.2.1.2⟩
  | annotateDoubleEnded storageBeg storageEnd b =>
      refine (hunion _ _ fun h => ha ?_).trans (hsdiff _ _ ha)
      exact ⟨hform.2.1.newBeg.trans h.1, h.2.trans_le hform.2.1.newEnd⟩
  | copyAnnotations srcBeg srcEnd dstBeg dstEnd =>
      exact (hunion _ _ fun h => ha h.1).trans (hsdiff _ _ ha)

/-- A set that is the same in the granules of the storage is annotated alike. -/
theorem annotated_of_agree {storageBeg storageEnd beg stop : ℕ} (hbeg : storageBeg ≤ beg)
    (hend : stop ≤ storageEnd)
    (hagree : ∀ a ∈ Set.Ico storageBeg storageEnd, ∀ b, b / 8 = a / 8 →
      (b ∈ accessible s' ↔ b ∈ accessible s))
    (h : accessible s = annotatedBytes s storageBeg storageEnd beg stop) :
    accessible s' = annotatedBytes s' storageBeg storageEnd beg stop := by
  apply Set.Subset.antisymm
  · intro a ha
    by_cases hstorage : a ∈ Set.Ico storageBeg storageEnd
    · have hmem := (hagree a hstorage a rfl).mp ha
      rw [h] at hmem
      obtain ⟨b, hb, hquot, hle⟩ := hmem
      rcases hb with hb | hb
      · exact ⟨b, .inl ⟨(hagree a hstorage b hquot.symm).mpr hb.1, hb.2⟩, hquot, hle⟩
      · exact ⟨b, .inr hb, hquot, hle⟩
    · exact Granules.subset_fill (.inl ⟨ha, hstorage⟩)
  · apply Granules.fill_subset closed_accessible
    apply Set.union_subset Set.sdiff_subset
    intro a ha
    have hstorage : a ∈ Set.Ico storageBeg storageEnd := ⟨hbeg.trans ha.1, ha.2.trans_le hend⟩
    rw [hagree a hstorage a rfl, h]
    exact Granules.subset_fill (.inr ha)

/-- A storage that was annotated is annotated. -/
theorem annotated_refill {storageBeg storageEnd beg stop : ℕ}
    (h : accessible s' = annotatedBytes s storageBeg storageEnd beg stop) :
    accessible s' = annotatedBytes s' storageBeg storageEnd beg stop := by
  have hsub : accessible s \ Set.Ico storageBeg storageEnd ∪ Set.Ico beg stop ⊆ accessible s' := by
    rw [h]
    exact Granules.subset_fill
  apply Set.Subset.antisymm
  · rw [h]
    apply Granules.fill_mono
    apply Set.union_subset_union_left
    exact fun a ha => ⟨hsub (.inl ha), ha.2⟩
  · apply Granules.fill_subset closed_accessible
    exact Set.union_subset Set.sdiff_subset fun a ha => hsub (.inr ha)

theorem Answered.agree {q : Request} (h : Answered s s' q) (hform : q.WellFormed r)
    (hmatches : q.Matches (accessible s)) {a : ℕ} (hapart : ∀ b ∈ q.bytes, a / 8 ≠ b / 8) :
    a ∈ accessible s' ↔ a ∈ accessible s := by
  rw [h.exact hmatches]
  have hsame (b : ℕ) (hb : a / 8 = b / 8) : b ∈ q.effect (accessible s) ↔ b ∈ accessible s :=
    mem_effect_iff hform fun hmem => hapart b hmem hb
  constructor
  · intro ha
    obtain ⟨b, hb, hquot, hle⟩ := ha
    exact closed_accessible a b ((hsame b hquot).mp hb) hquot hle
  · exact fun ha => Granules.subset_fill ((hsame a rfl).mpr ha)

/-! ## Runs -/

theorem Layout.annotated_all (hle : ∀ c, (L.storage c).beg ≤ (L.storage c).stop)
    (h : ∀ c, (L.storage c).bytes ⊆ accessible s) :
    L.Annotated (fun c => (L.storage c).all (hle c)) s :=
  fun c => annotatedBytes_self (h c)

theorem Layout.wellFormed_change (st : L.State) (c : ι) (new : Elements (L.storage c)) :
    (L.request st (.change c new)).WellFormed r := by
  rw [Layout.request]
  split_ifs
  · exact ⟨L.served c, ⟨(st c).first.trans (st c).ordered, (st c).last⟩,
      ⟨new.first.trans new.ordered, new.last⟩, L.small c⟩
  · exact ⟨L.served c, ⟨(st c).ordered, new.ordered, (st c).first, new.first, (st c).last,
      new.last⟩, L.small c⟩

theorem Layout.bytes_change (st : L.State) (c : ι) (new : Elements (L.storage c)) :
    (L.request st (.change c new)).bytes = (L.storage c).bytes := by
  rw [Layout.request]
  split_ifs
  · rfl
  · rfl

theorem Layout.effect_change (st : L.State) (c : ι) (new : Elements (L.storage c)) (A : Set ℕ) :
    (L.request st (.change c new)).effect A =
      A \ Set.Ico (L.storage c).beg (L.storage c).stop ∪ Set.Ico new.beg new.stop := by
  rw [Layout.request]
  split_ifs with hvector
  · rw [new.vector hvector]
    rfl
  · rfl

theorem Layout.Annotated.matches_change {st : L.State} (h : L.Annotated st s) (c : ι)
    (new : Elements (L.storage c)) : (L.request st (.change c new)).Matches (accessible s) := by
  have hc := h c
  rw [Layout.request]
  split_ifs with hvector
  · rw [(st c).vector hvector] at hc
    exact hc
  · exact hc

variable [DecidableEq ι]

theorem Layout.Annotated.step {st : L.State} (h : L.Annotated st s)
    (hallow : r.allowUserPoisoning = true) (hdetect : r.detectContainerOverflow = true)
    {e : L.Event} (hadmits : L.Admits e) :
    ∃ s', step r s (L.request st e) = some s' ∧ L.Annotated (L.next st e) s' := by
  cases e with
  | change c new =>
      have hform := L.wellFormed_change st c new
      obtain ⟨s', hs', hanswered⟩ := step_answered (s := s) hallow hdetect hform
      refine ⟨s', hs', fun d => ?_⟩
      have hmatches := h.matches_change c new
      by_cases hd : d = c
      · subst hd
        rw [Layout.next, Function.update_self]
        have hexact := hanswered.exact hmatches
        rw [L.effect_change] at hexact
        exact annotated_refill hexact
      · rw [Layout.next, Function.update_of_ne hd]
        refine annotated_of_agree (st d).first (st d).last ?_ (h d)
        intro a ha b hb
        refine hanswered.agree hform hmatches fun b' hb' => ?_
        rw [L.bytes_change] at hb'
        rw [hb]
        exact L.apart d c hd a ha b' hb'
  | other q =>
      obtain ⟨hform, hmatches, hapart⟩ := hadmits
      obtain ⟨s', hs', hanswered⟩ := step_answered (s := s) hallow hdetect hform
      refine ⟨s', hs', fun d => ?_⟩
      refine annotated_of_agree (st d).first (st d).last ?_ (h d)
      intro a ha b hb
      refine hanswered.agree hform (hmatches _) fun b' hb' => ?_
      rw [hb]
      exact hapart d a ha b' hb'

theorem Layout.Annotated.run {st : L.State} (h : L.Annotated st s)
    (hallow : r.allowUserPoisoning = true) (hdetect : r.detectContainerOverflow = true)
    {es : List L.Event} (hadmits : ∀ e ∈ es, L.Admits e) :
    ∃ st' s', L.run st es s = some (st', s') ∧ L.Annotated st' s' := by
  induction es generalizing st s with
  | nil => exact ⟨st, s, rfl, h⟩
  | cons e es ih =>
      obtain ⟨t, ht, hnext⟩ := h.step hallow hdetect (hadmits e List.mem_cons_self)
      obtain ⟨st', s', hrun, hannotated⟩ :=
        ih hnext fun e' he' => hadmits e' (List.mem_cons_of_mem e he')
      refine ⟨st', s', ?_, hannotated⟩
      rw [Layout.run, ht]
      exact hrun

/-- A vector and a deque whose storages are not aligned. -/
def exampleLayout : Layout exampleRuntime Bool where
  storage c := if c then ⟨35, 48, false⟩ else ⟨16, 27, true⟩
  served c := ⟨rfl, by cases c <;> decide, fun _ _ _ => rfl⟩
  small c := by cases c <;> decide
  apart c d hcd a ha b hb := by
    cases c <;> cases d <;> simp_all [Storage.bytes] <;> omega

def exampleState : exampleLayout.State := fun c =>
  (exampleLayout.storage c).all (by cases c <;> decide)

def exampleEvents : List exampleLayout.Event :=
  [.change false ⟨16, 20, by decide, by decide, by decide, fun _ => rfl⟩,
    .other (.poisonRegion 64 8), .change true ⟨37, 41, by decide, by decide, by decide, nofun⟩]

theorem exampleState_annotated : exampleLayout.Annotated exampleState fun _ => 0 :=
  Layout.annotated_all _ fun _ _ _ => rfl

theorem exampleEvents_admitted : ∀ e ∈ exampleEvents, exampleLayout.Admits e := by
  intro e he
  simp only [exampleEvents, List.mem_cons, List.not_mem_nil, or_false] at he
  rcases he with rfl | rfl | rfl
  · trivial
  · refine ⟨trivial, fun _ => trivial, fun c a ha b hb => ?_⟩
    cases c <;> simp_all [exampleLayout, Storage.bytes, Request.bytes] <;> omega
  · trivial

/-- Every container is verified after every run. -/
theorem containers_verified (hallow : r.allowUserPoisoning = true)
    (hdetect : r.detectContainerOverflow = true) {st : L.State} (h : L.Annotated st s)
    {es : List L.Event} (hadmits : ∀ e ∈ es, L.Admits e) :
    ∃ st' s', L.run st es s = some (st', s') ∧
      ∀ c, verifyDoubleEndedContiguousContainer r s' (L.storage c).beg (st' c).beg (st' c).stop
        (L.storage c).stop = some true := by
  obtain ⟨st', s', hrun, hannotated⟩ := h.run hallow hdetect hadmits
  refine ⟨st', s', hrun, fun c => ?_⟩
  obtain ⟨bad, hbad, hiff⟩ := verifyDoubleEnded_decides (s := s') hdetect (st' c).first
    (st' c).ordered (st' c).last
  rw [verifyDoubleEndedContiguousContainer, hbad, hiff.mpr (hannotated c)]
  rfl

theorem containers_verified_pair : ∃ st' s',
    exampleLayout.run exampleState exampleEvents (fun _ => 0) = some (st', s') ∧
      ∀ c, verifyDoubleEndedContiguousContainer exampleRuntime s' (exampleLayout.storage c).beg
        (st' c).beg (st' c).stop (exampleLayout.storage c).stop = some true :=
  containers_verified rfl rfl exampleState_annotated exampleEvents_admitted

/-- In a granule of its own storage a container finds every byte after its elements, and every
byte in a granule before them, to be poisoned. -/
theorem containers_detect (hallow : r.allowUserPoisoning = true)
    (hdetect : r.detectContainerOverflow = true) {st : L.State} (h : L.Annotated st s)
    {es : List L.Event} (hadmits : ∀ e ∈ es, L.Admits e) :
    ∃ st' s', L.run st es s = some (st', s') ∧
      ∀ c, ∀ a ∈ (L.storage c).bytes, a / 8 < (L.storage c).stop / 8 →
        (addressIsPoisoned s' a = false ↔
          (st' c).beg < (st' c).stop ∧ (st' c).beg / 8 * 8 ≤ a ∧ a < (st' c).stop) := by
  obtain ⟨st', s', hrun, hannotated⟩ := h.run hallow hdetect hadmits
  refine ⟨st', s', hrun, fun c a ha hlast => ?_⟩
  refine (eq_annotatedBytes_iff_forall (st' c).first (st' c).last).mp (hannotated c) a ha.1 ?_
  rcases annotationsEnd_cases s' (L.storage c).stop with ⟨heq, -, -⟩ | ⟨heq, -⟩
  · rw [heq]
    omega
  · rw [heq]
    exact ha.2

theorem containers_detect_pair : ∃ st' s',
    exampleLayout.run exampleState exampleEvents (fun _ => 0) = some (st', s') ∧
      ∀ c, ∀ a ∈ (exampleLayout.storage c).bytes, a / 8 < (exampleLayout.storage c).stop / 8 →
        (addressIsPoisoned s' a = false ↔
          (st' c).beg < (st' c).stop ∧ (st' c).beg / 8 * 8 ≤ a ∧ a < (st' c).stop) :=
  containers_detect rfl rfl exampleState_annotated exampleEvents_admitted

/-! ## Containers that move -/

/-- The accessible bytes of a verified container are its elements, wherever they are copied. -/
theorem copied_eq_Ico {srcBeg mid srcEnd dstBeg dstEnd : ℕ} (hbeg : srcBeg ≤ mid)
    (hmid : mid ≤ srcEnd) (hlen : srcEnd + dstBeg = dstEnd + srcBeg)
    (hlast : annotationsEnd s srcEnd = srcEnd)
    (h : accessible s = annotatedBytes s srcBeg srcEnd srcBeg mid) :
    copied s srcBeg dstBeg dstEnd = Set.Ico dstBeg (mid - srcBeg + dstBeg) := by
  rw [eq_annotatedBytes_iff_forall le_rfl hmid, hlast] at h
  ext a
  constructor
  · intro ha
    obtain ⟨⟨hle, hlt⟩, hmem⟩ := ha
    have hat := (h (a - dstBeg + srcBeg) (by omega) (by omega)).mp hmem
    exact ⟨hle, by omega⟩
  · intro ha
    obtain ⟨hle, hlt⟩ := ha
    refine ⟨⟨hle, by omega⟩, ?_⟩
    exact (h (a - dstBeg + srcBeg) (by omega) (by omega)).mpr (by omega)

/-- A verified container is verified where its annotations are copied, when its last granule is
its own. -/
theorem copied_container_verified {srcBeg mid srcEnd dstBeg dstEnd : ℕ}
    (hdetect : r.detectContainerOverflow = true) (hbeg : srcBeg ≤ mid) (hmid : mid ≤ srcEnd)
    (hlen : srcEnd + dstBeg = dstEnd + srcBeg)
    (hown : srcEnd % 8 = 0 ∨ addressIsPoisoned s srcEnd = true)
    (hverified : verifyContiguousContainer r s srcBeg mid srcEnd = some true) :
    ∃ s', copyContiguousContainerAnnotations r s srcBeg srcEnd dstBeg dstEnd = some s' ∧
      verifyContiguousContainer r s' dstBeg (mid - srcBeg + dstBeg) dstEnd = some true := by
  obtain ⟨answer, hanswer, hiff⟩ := verifyContiguousContainer_iff (s := s) hdetect hbeg hmid
  rw [hverified, Option.some_inj] at hanswer
  have hsrc := hiff.mp hanswer.symm
  have hlast : annotationsEnd s srcEnd = srcEnd := by
    rcases annotationsEnd_cases s srcEnd with ⟨-, hunaligned, hmem⟩ | ⟨heq, -⟩
    · rw [mem_accessible] at hmem
      rcases hown with haligned | hpoisoned
      · exact absurd haligned hunaligned
      · rw [hmem] at hpoisoned
        cases hpoisoned
    · exact heq
  obtain ⟨s', hs', heq⟩ := copyContiguousContainerAnnotations_accessible (s := s) hdetect
    (hbeg.trans hmid) hlen
  refine ⟨s', hs', ?_⟩
  rw [copied_eq_Ico hbeg hmid hlen hlast hsrc] at heq
  obtain ⟨answer', hanswer', hiff'⟩ := verifyContiguousContainer_iff (s := s') hdetect
    (show dstBeg ≤ mid - srcBeg + dstBeg by omega) (show mid - srcBeg + dstBeg ≤ dstEnd by omega)
  rw [hanswer', hiff'.mpr (annotated_refill heq)]

theorem copied_container_verified_four : ∃ s',
    copyContiguousContainerAnnotations exampleRuntime (fun i => if i = 2 then 4 else 0)
        16 24 33 41 = some s' ∧
      verifyContiguousContainer exampleRuntime s' 33 (20 - 16 + 33) 41 = some true :=
  copied_container_verified rfl (by decide) (by decide) (by decide) (.inl rfl) rfl

end Mair.AsanPoisoning
