import Mathlib.Data.List.Basic
import Mathlib.Data.List.Nodup
import Mathlib.Logic.Equiv.Basic
import Mathlib.Order.Lattice

/-! # Heap sort

An array of `size` entries is sorted in place through a binary heap. The comparison decides
the order only up to a key, and entries with one key may change places. -/

namespace Mair.HeapSort

variable {α : Type*} {v w : ℕ → α}

def parent (k : ℕ) : ℕ := (k - 1) / 2

theorem parent_lt {k : ℕ} (hk : 0 < k) : parent k < k := by
  unfold parent
  omega

theorem parent_eq_iff {k j : ℕ} (hk : 0 < k) :
    parent k = j ↔ k = 2 * j + 1 ∨ k = 2 * j + 2 := by
  unfold parent
  omega

/-! ## The algorithm -/

/-- Exchange two entries. -/
def exchange (v : ℕ → α) (i j : ℕ) : ℕ → α := fun k =>
  if k = i then v j else if k = j then v i else v k

section Algorithm

variable (comp : α → α → Bool)

/-- Move the entry at the given position up while its parent is smaller. -/
def siftUp : ℕ → (ℕ → α) → ℕ → ℕ → α
  | 0, v, _ => v
  | fuel + 1, v, j =>
      if j = 0 then v
      else if comp (v (parent j)) (v j) then
        siftUp fuel (exchange v j (parent j)) (parent j)
      else v

/-- Stage 1: insert the entries one by one. -/
def buildHeap (size : ℕ) (v : ℕ → α) : ℕ → α :=
  (List.range' 1 (size - 1)).foldl (fun v i => siftUp comp i v i) v

/-- The position of the largest entry among a position and its children below `i`. -/
def maxInd (i : ℕ) (v : ℕ → α) (j : ℕ) : ℕ :=
  let left := if 2 * j + 1 < i ∧ comp (v j) (v (2 * j + 1)) then 2 * j + 1 else j
  if 2 * j + 2 < i ∧ comp (v left) (v (2 * j + 2)) then 2 * j + 2 else left

/-- Move the entry at the given position down while a child below `i` is larger. -/
def siftDown (i : ℕ) : ℕ → (ℕ → α) → ℕ → ℕ → α
  | 0, v, _ => v
  | fuel + 1, v, j =>
      if maxInd comp i v j = j then v
      else siftDown i fuel (exchange v j (maxInd comp i v j)) (maxInd comp i v j)

/-- Stage 2: exchange the largest entry with the last one and sink the new top. -/
def popAll : ℕ → (ℕ → α) → ℕ → α
  | 0, v => v
  | i + 1, v => popAll i (siftDown comp (i + 1) (i + 1) (exchange v 0 (i + 1)) 0)

def heapSort (size : ℕ) (v : ℕ → α) : ℕ → α :=
  if size < 2 then v else popAll comp (size - 1) (buildHeap comp size v)

def sortList [Inhabited α] (l : List α) : List α :=
  (List.range l.length).map (heapSort comp l.length fun k => l.getD k default)

end Algorithm

/-! ## Rearrangements -/

@[simp] theorem exchange_left (v : ℕ → α) (i j : ℕ) : exchange v i j i = v j := by
  simp [exchange]

@[simp] theorem exchange_right (v : ℕ → α) (i j : ℕ) : exchange v i j j = v i := by
  by_cases h : j = i
  · rw [h, exchange_left]
  · simp [exchange, h]

theorem exchange_of_ne {i j k : ℕ} (hi : k ≠ i) (hj : k ≠ j) : exchange v i j k = v k := by
  simp [exchange, hi, hj]

theorem exchange_eq_comp (v : ℕ → α) (i j : ℕ) : exchange v i j = v ∘ Equiv.swap i j := by
  funext k
  by_cases hi : k = i
  · simp [hi]
  · by_cases hj : k = j
    · simp [hj]
    · rw [exchange_of_ne hi hj, Function.comp_apply, Equiv.swap_apply_of_ne_of_ne hi hj]

/-- `w` has the first `size` entries of `v` in some order, and the others in place. -/
def Rearranges (size : ℕ) (v w : ℕ → α) : Prop :=
  ∃ σ : Equiv.Perm ℕ, (∀ k, size ≤ k → σ k = k) ∧ w = v ∘ σ

theorem Rearranges.refl (size : ℕ) (v : ℕ → α) : Rearranges size v v :=
  ⟨Equiv.refl ℕ, fun _ _ => rfl, rfl⟩

theorem Rearranges.trans {size : ℕ} {u : ℕ → α} (h : Rearranges size u v)
    (h' : Rearranges size v w) : Rearranges size u w := by
  obtain ⟨σ, hσ, rfl⟩ := h
  obtain ⟨τ, hτ, rfl⟩ := h'
  refine ⟨τ.trans σ, ?_, rfl⟩
  intro k hk
  rw [Equiv.trans_apply, hτ k hk, hσ k hk]

theorem Rearranges.mono {size size' : ℕ} (h : Rearranges size v w) (hle : size ≤ size') :
    Rearranges size' v w := by
  obtain ⟨σ, hσ, rfl⟩ := h
  exact ⟨σ, fun k hk => hσ k (Nat.le_trans hle hk), rfl⟩

theorem Rearranges.of_exchange {size i j : ℕ} (hi : i < size) (hj : j < size)
    (h : Rearranges size (exchange v i j) w) : Rearranges size v w := by
  refine Rearranges.trans ⟨Equiv.swap i j, ?_, exchange_eq_comp v i j⟩ h
  intro k hk
  apply Equiv.swap_apply_of_ne_of_ne
  · omega
  · omega

theorem Rearranges.eq_of_le {size k : ℕ} (h : Rearranges size v w) (hk : size ≤ k) :
    w k = v k := by
  obtain ⟨σ, hσ, rfl⟩ := h
  rw [Function.comp_apply, hσ k hk]

theorem Rearranges.exists_lt {size k : ℕ} (h : Rearranges size v w) (hk : k < size) :
    ∃ k' < size, w k = v k' := by
  obtain ⟨σ, hσ, rfl⟩ := h
  refine ⟨σ k, ?_, rfl⟩
  by_contra hle
  have hfix := σ.injective (hσ (σ k) (Nat.le_of_not_lt hle))
  omega

theorem Rearranges.perm {size : ℕ} (h : Rearranges size v w) :
    ((List.range size).map w).Perm ((List.range size).map v) := by
  obtain ⟨σ, hσ, rfl⟩ := h
  have hrange : ((List.range size).map σ).Perm (List.range size) := by
    apply (List.perm_ext_iff_of_nodup (List.nodup_range.map σ.injective) List.nodup_range).mpr
    intro k
    simp only [List.mem_map, List.mem_range]
    constructor
    · intro hmem
      obtain ⟨k', hk', rfl⟩ := hmem
      by_contra hle
      have hfix := σ.injective (hσ (σ k') (Nat.le_of_not_lt hle))
      omega
    · intro hk
      refine ⟨σ.symm k, ?_, σ.apply_symm_apply k⟩
      by_contra hle
      have hfix := hσ (σ.symm k) (Nat.le_of_not_lt hle)
      rw [σ.apply_symm_apply] at hfix
      omega
  rw [← List.map_map]
  exact hrange.map v

section Rearranging

variable {comp : α → α → Bool}

theorem siftUp_rearranges {size : ℕ} (fuel : ℕ) (v : ℕ → α) (j : ℕ) (hj : j < size) :
    Rearranges size v (siftUp comp fuel v j) := by
  induction fuel generalizing v j with
  | zero => exact Rearranges.refl size v
  | succ fuel ih =>
      rw [siftUp]
      split
      · exact Rearranges.refl size v
      · rename_i hpos
        have hlt := parent_lt (Nat.pos_of_ne_zero hpos)
        split
        · exact (ih _ _ (by omega)).of_exchange hj (by omega)
        · exact Rearranges.refl size v

theorem buildHeap_rearranges (size : ℕ) (v : ℕ → α) :
    Rearranges size v (buildHeap comp size v) := by
  have hfold : ∀ n ≤ size - 1, Rearranges size v
      ((List.range' 1 n).foldl (fun v i => siftUp comp i v i) v) := by
    intro n hn
    induction n with
    | zero => exact Rearranges.refl size v
    | succ n ih =>
        rw [List.range'_1_concat, List.foldl_concat]
        exact (ih (by omega)).trans (siftUp_rearranges _ _ _ (by omega))
  exact hfold (size - 1) (Nat.le_refl _)

theorem maxInd_lt {i j : ℕ} (hj : j < i) : maxInd comp i v j < i := by
  unfold maxInd
  grind

theorem siftDown_rearranges {i : ℕ} (fuel : ℕ) (v : ℕ → α) (j : ℕ) (hj : j < i) :
    Rearranges i v (siftDown comp i fuel v j) := by
  induction fuel generalizing v j with
  | zero => exact Rearranges.refl i v
  | succ fuel ih =>
      rw [siftDown]
      split
      · exact Rearranges.refl i v
      · exact (ih _ _ (maxInd_lt hj)).of_exchange hj (maxInd_lt hj)

theorem popAll_rearranges (i : ℕ) (v : ℕ → α) : Rearranges (i + 1) v (popAll comp i v) := by
  induction i generalizing v with
  | zero => exact Rearranges.refl 1 v
  | succ i ih =>
      rw [popAll]
      have hsink := @siftDown_rearranges _ comp (i + 1) (i + 1) (exchange v 0 (i + 1)) 0
        (Nat.succ_pos i)
      apply Rearranges.of_exchange (Nat.succ_pos _) (Nat.lt_succ_self _)
      exact (hsink.trans (ih _)).mono (Nat.le_succ _)

theorem heapSort_rearranges (size : ℕ) (v : ℕ → α) :
    Rearranges size v (heapSort comp size v) := by
  rw [heapSort]
  split
  · exact Rearranges.refl size v
  · have hpop := @popAll_rearranges _ comp (size - 1) (buildHeap comp size v)
    exact (buildHeap_rearranges size v).trans (hpop.mono (by omega))

end Rearranging

/-! ## Heaps -/

section Order

variable {β : Type*} [LinearOrder β] {key : α → β} {comp : α → α → Bool}

/-- No entry below `m` is larger than its parent. -/
def IsHeap (key : α → β) (v : ℕ → α) (m : ℕ) : Prop :=
  ∀ k, 0 < k → k < m → key (v k) ≤ key (v (parent k))

theorem IsHeap.le_root {m k : ℕ} (h : IsHeap key v m) (hk : k < m) :
    key (v k) ≤ key (v 0) := by
  induction k using Nat.strong_induction_on with
  | _ k ih =>
      by_cases hpos : 0 < k
      · have hlt := parent_lt hpos
        exact (h k hpos hk).trans (ih (parent k) hlt (by omega))
      · rw [Nat.eq_zero_of_not_pos hpos]

theorem IsHeap.mono {m m' : ℕ} (h : IsHeap key v m) (hle : m' ≤ m) : IsHeap key v m' :=
  fun k hpos hk => h k hpos (by omega)

/-- A heap but for the entry at `j`, which may be larger than its parent. -/
structure UpHeap (key : α → β) (v : ℕ → α) (m j : ℕ) : Prop where
  rest : ∀ k, 0 < k → k < m → k ≠ j → key (v k) ≤ key (v (parent k))
  grand : ∀ k, 0 < k → k < m → parent k = j → 0 < j → key (v k) ≤ key (v (parent j))

theorem UpHeap.move {m j : ℕ} (h : UpHeap key v m j) (hpos : 0 < j)
    (hlt : key (v (parent j)) < key (v j)) :
    UpHeap key (exchange v j (parent j)) m (parent j) where
  rest k hk hkm hne := by
    have hkp := parent_lt hk
    by_cases hkj : k = j
    · subst hkj
      rw [exchange_left, exchange_right]
      exact hlt.le
    · rw [exchange_of_ne hkj hne]
      by_cases hj : parent k = j
      · rw [hj, exchange_left]
        exact h.grand k hk hkm hj hpos
      · by_cases hp : parent k = parent j
        · rw [hp, exchange_right]
          have hle := h.rest k hk hkm hkj
          rw [hp] at hle
          exact hle.trans hlt.le
        · rw [exchange_of_ne hj hp]
          exact h.rest k hk hkm hkj
  grand k hk hkm hkp hp := by
    have hlt' := parent_lt hp
    have hjp := parent_lt hpos
    have hkk := parent_lt hk
    rw [@exchange_of_ne _ _ _ _ (parent (parent j)) (by omega) (by omega)]
    have hroot := h.rest (parent j) hp (by omega) (by omega)
    by_cases hkj : k = j
    · rw [hkj, exchange_left]
      exact hroot
    · rw [exchange_of_ne hkj (by omega)]
      have hle := h.rest k hk hkm hkj
      rw [hkp] at hle
      exact hle.trans hroot

theorem UpHeap.isHeap {m j : ℕ} (h : UpHeap key v m j)
    (hstop : 0 < j → key (v j) ≤ key (v (parent j))) : IsHeap key v m := by
  intro k hk hkm
  by_cases hkj : k = j
  · rw [hkj]
    exact hstop (hkj ▸ hk)
  · exact h.rest k hk hkm hkj

theorem siftUp_isHeap (hcomp : ∀ a b, comp a b = true ↔ key a < key b) {m fuel j : ℕ}
    (h : UpHeap key v m j) (hfuel : j ≤ fuel) : IsHeap key (siftUp comp fuel v j) m := by
  induction fuel generalizing v j with
  | zero => exact h.isHeap fun hpos => by omega
  | succ fuel ih =>
      rw [siftUp]
      by_cases hzero : j = 0
      · rw [if_pos hzero]
        exact h.isHeap fun hpos => by omega
      · have hpos := Nat.pos_of_ne_zero hzero
        rw [if_neg hzero]
        by_cases hlt : comp (v (parent j)) (v j) = true
        · rw [if_pos hlt]
          have hp := parent_lt hpos
          exact ih (h.move hpos ((hcomp _ _).mp hlt)) (by omega)
        · rw [if_neg hlt]
          exact h.isHeap fun _ => le_of_not_gt (mt (hcomp _ _).mpr hlt)

theorem buildHeap_isHeap (hcomp : ∀ a b, comp a b = true ↔ key a < key b) (size : ℕ)
    (v : ℕ → α) : IsHeap key (buildHeap comp size v) size := by
  have hfold : ∀ n, IsHeap key
      ((List.range' 1 n).foldl (fun v i => siftUp comp i v i) v) (n + 1) := by
    intro n
    induction n with
    | zero =>
        intro k hk hkm
        omega
    | succ n ih =>
        rw [List.range'_1_concat, List.foldl_concat]
        apply siftUp_isHeap hcomp _ (Nat.le_refl _)
        refine ⟨fun k hk hkm hne => ih k hk (by omega), ?_⟩
        intro k hk hkm hkp
        have hlt := parent_lt hk
        omega
  exact (hfold (size - 1)).mono (by omega)

/-- A heap but for the entry at `j`, which may be smaller than its children. -/
structure DownHeap (key : α → β) (v : ℕ → α) (m j : ℕ) : Prop where
  rest : ∀ k, 0 < k → k < m → parent k ≠ j → key (v k) ≤ key (v (parent k))
  grand : ∀ k, 0 < k → k < m → parent k = j → 0 < j → key (v k) ≤ key (v (parent j))

theorem DownHeap.move {m j c : ℕ} (h : DownHeap key v m j) (hc : 0 < c) (hcm : c < m)
    (hcj : parent c = j) (hlt : key (v j) < key (v c))
    (hmax : ∀ k, 0 < k → k < m → parent k = j → key (v k) ≤ key (v c)) :
    DownHeap key (exchange v j c) m c where
  rest k hk hkm hne := by
    have hcp := parent_lt hc
    have hkp := parent_lt hk
    by_cases hkc : k = c
    · rw [hkc, hcj, exchange_left, exchange_right]
      exact hlt.le
    · by_cases hkj : k = j
      · subst hkj
        rw [exchange_left, exchange_of_ne (by omega) (by omega)]
        exact h.grand c hc hcm hcj hk
      · rw [exchange_of_ne hkj hkc]
        by_cases hp : parent k = j
        · rw [hp, exchange_left]
          exact hmax k hk hkm hp
        · rw [exchange_of_ne hp hne]
          exact h.rest k hk hkm hp
  grand k hk hkm hkc _ := by
    have hcp := parent_lt hc
    have hkp := parent_lt hk
    rw [hcj, exchange_left, exchange_of_ne (by omega) (by omega)]
    have hle := h.rest k hk hkm (by omega)
    rwa [hkc] at hle

theorem DownHeap.isHeap {m j : ℕ} (h : DownHeap key v m j)
    (hstop : ∀ k, 0 < k → k < m → parent k = j → key (v k) ≤ key (v j)) :
    IsHeap key v m := by
  intro k hk hkm
  by_cases hp : parent k = j
  · rw [hp]
    exact hstop k hk hkm hp
  · exact h.rest k hk hkm hp

/-- What the choice of the largest entry gives. -/
structure MaxIndSpec (key : α → β) (v : ℕ → α) (i j c : ℕ) : Prop where
  child : c ≠ j → 0 < c ∧ c < i ∧ parent c = j ∧ key (v j) < key (v c)
  max : ∀ k, 0 < k → k < i → parent k = j → key (v k) ≤ key (v c)

theorem maxInd_spec (hcomp : ∀ a b, comp a b = true ↔ key a < key b) (i j : ℕ) :
    MaxIndSpec key v i j (maxInd comp i v j) := by
  have hleft : parent (2 * j + 1) = j := (parent_eq_iff (by omega)).mpr (Or.inl rfl)
  have hright : parent (2 * j + 2) = j := (parent_eq_iff (by omega)).mpr (Or.inr rfl)
  have hcases : ∀ k, 0 < k → parent k = j → k = 2 * j + 1 ∨ k = 2 * j + 2 :=
    fun k hk hp => (parent_eq_iff hk).mp hp
  unfold maxInd
  simp only [hcomp]
  constructor
  · grind
  · grind

theorem siftDown_isHeap (hcomp : ∀ a b, comp a b = true ↔ key a < key b) {i fuel j : ℕ}
    (h : DownHeap key v i j) (hj : j < i) (hfuel : i ≤ j + fuel) :
    IsHeap key (siftDown comp i fuel v j) i := by
  induction fuel generalizing v j with
  | zero => omega
  | succ fuel ih =>
      have hspec : MaxIndSpec key v i j (maxInd comp i v j) := maxInd_spec hcomp i j
      rw [siftDown]
      by_cases heq : maxInd comp i v j = j
      · rw [if_pos heq]
        apply h.isHeap
        have hmax := hspec.max
        rwa [heq] at hmax
      · obtain ⟨hc, hci, hcj, hlt⟩ := hspec.child heq
        have hparent := parent_lt hc
        rw [if_neg heq]
        exact ih (h.move hc hci hcj hlt hspec.max) hci (by omega)

/-! ## The sorted array -/

/-- The entries from `i` on are in place: in order, and not below any entry before them. -/
structure TopSorted (key : α → β) (size : ℕ) (v : ℕ → α) (i : ℕ) : Prop where
  sorted : ∀ a b, i ≤ a → a ≤ b → b < size → key (v a) ≤ key (v b)
  above : ∀ a b, a < i → i ≤ b → b < size → key (v a) ≤ key (v b)

/-- The root goes behind the entries of the heap, and the others stay before it. -/
theorem TopSorted.pop {size i : ℕ} (htop : TopSorted key size v (i + 2))
    (hheap : IsHeap key v (i + 2))
    (h : Rearranges (i + 1) (exchange v 0 (i + 1)) w) : TopSorted key size w (i + 1) := by
  have hlast : w (i + 1) = v 0 := by
    rw [h.eq_of_le (Nat.le_refl _), exchange_right]
  have hrest : ∀ b, i + 2 ≤ b → w b = v b := by
    intro b hb
    rw [h.eq_of_le (by omega), exchange_of_ne (by omega) (by omega)]
  have hlow : ∀ a, a < i + 1 → ∃ a' < i + 2, w a = v a' := by
    intro a ha
    obtain ⟨k, hk, hw⟩ := h.exists_lt ha
    rw [hw]
    by_cases hzero : k = 0
    · exact ⟨i + 1, by omega, by rw [hzero, exchange_left]⟩
    · exact ⟨k, by omega, exchange_of_ne hzero (by omega)⟩
  have hroot : ∀ b, i + 1 ≤ b → b < size → key (v 0) ≤ key (w b) := by
    intro b hb hbs
    by_cases heq : b = i + 1
    · rw [heq, hlast]
    · rw [hrest b (by omega)]
      exact htop.above 0 b (by omega) (by omega) hbs
  constructor
  · intro a b ha hab hb
    by_cases heq : a = i + 1
    · rw [heq, hlast]
      exact hroot b (by omega) hb
    · rw [hrest a (by omega), hrest b (by omega)]
      exact htop.sorted a b (by omega) hab hb
  · intro a b ha hb hbs
    obtain ⟨a', ha', hw⟩ := hlow a ha
    rw [hw]
    exact (hheap.le_root ha').trans (hroot b hb hbs)

theorem popAll_sorted (hcomp : ∀ a b, comp a b = true ↔ key a < key b) {size i : ℕ}
    (hheap : IsHeap key v (i + 1)) (htop : TopSorted key size v (i + 1)) (hi : i < size) :
    ∀ a b, a ≤ b → b < size → key (popAll comp i v a) ≤ key (popAll comp i v b) := by
  induction i generalizing v with
  | zero =>
      intro a b hab hb
      rw [popAll]
      by_cases ha : a = 0
      · by_cases hb0 : b = 0
        · rw [ha, hb0]
        · exact htop.above a b (by omega) (by omega) hb
      · exact htop.sorted a b (by omega) hab hb
  | succ i ih =>
      rw [popAll]
      apply ih
      · apply siftDown_isHeap hcomp _ (Nat.succ_pos i) (by omega)
        constructor
        · intro k hk hki hp
          have hlt := parent_lt hk
          rw [exchange_of_ne (by omega) (by omega), exchange_of_ne hp (by omega)]
          exact hheap k hk (by omega)
        · intro k hk hki hp hzero
          exact absurd hzero (Nat.lt_irrefl 0)
      · exact htop.pop hheap (siftDown_rearranges _ _ _ (Nat.succ_pos i))
      · omega

theorem heapSort_sorted (hcomp : ∀ a b, comp a b = true ↔ key a < key b) (size : ℕ)
    (v : ℕ → α) (a b : ℕ) (hab : a ≤ b) (hb : b < size) :
    key (heapSort comp size v a) ≤ key (heapSort comp size v b) := by
  rw [heapSort]
  split
  · have heq : a = b := by omega
    rw [heq]
  · have hheap := buildHeap_isHeap hcomp size v
    refine popAll_sorted hcomp (hheap.mono (by omega)) ?_ (by omega) a b hab hb
    constructor
    · intro a b ha hab hb
      omega
    · intro a b ha hb hbs
      omega

end Order

/-! ## Sorted lists -/

variable [Inhabited α] {comp : α → α → Bool}

theorem sortList_perm (comp : α → α → Bool) (l : List α) : (sortList comp l).Perm l := by
  have hl : (List.range l.length).map (fun k => l.getD k default) = l := by
    apply List.ext_getElem
    · simp
    · intro k hk hk'
      simp [hk']
  have hperm := (@heapSort_rearranges _ comp l.length fun k => l.getD k default).perm
  rwa [hl] at hperm

theorem sortList_pairwise {β : Type*} [LinearOrder β] {key : α → β}
    (hcomp : ∀ a b, comp a b = true ↔ key a < key b) (l : List α) :
    (sortList comp l).Pairwise fun a b => key a ≤ key b := by
  rw [sortList, List.pairwise_map]
  apply List.Pairwise.imp_of_mem _ List.pairwise_lt_range
  intro a b _ hb hlt
  exact heapSort_sorted hcomp _ _ a b hlt.le (List.mem_range.mp hb)

end Mair.HeapSort
