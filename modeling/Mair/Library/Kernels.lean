import Mathlib.Data.List.Nodup
import Mathlib.Data.List.Perm.Subperm
import Mathlib.Data.Set.Basic
import Mathlib.Logic.Relation

/-! # Kernels of a directed graph

A kernel is a list of vertices none of which reaches another and from which every vertex can
be reached. All kernels of a graph have one length, and no dominating list is shorter. -/

namespace Mair.Kernels

open Relation

variable {α : Type*} {step finer : α → α → Prop} {vs ks ds : List α}

/-! ## Kernels -/

def Dominates (step : α → α → Prop) (ds vs : List α) : Prop :=
  ∀ v ∈ vs, ∃ d ∈ ds, ReflTransGen step d v

def Independent (step : α → α → Prop) (ks : List α) : Prop :=
  ∀ k ∈ ks, ∀ k' ∈ ks, ReflTransGen step k k' → k = k'

structure IsKernel (step : α → α → Prop) (vs ks : List α) : Prop where
  nodup : ks.Nodup
  subset : ∀ k ∈ ks, k ∈ vs
  dominates : Dominates step ks vs
  independent : Independent step ks

/-- Whatever reaches `v` is reached from it. -/
def IsTop (step : α → α → Prop) (v : α) : Prop :=
  ∀ u, ReflTransGen step u v → ReflTransGen step v u

theorem Dominates.mono (hfiner : ∀ a b, finer a b → step a b) (h : Dominates finer ds vs) :
    Dominates step ds vs := by
  intro v hv
  obtain ⟨d, hd, hreach⟩ := h v hv
  exact ⟨d, hd, ReflTransGen.mono hfiner _ _ hreach⟩

/-- Each vertex of a kernel is reached from a vertex of a dominating list that it reaches. -/
theorem IsKernel.exists_mutual (hk : IsKernel step vs ks) (hds : ∀ d ∈ ds, d ∈ vs)
    (hd : Dominates step ds vs) :
    ∀ k ∈ ks, ∃ d ∈ ds, ReflTransGen step d k ∧ ReflTransGen step k d := by
  intro k hmem
  obtain ⟨d, hdmem, hreach⟩ := hd k (hk.subset k hmem)
  obtain ⟨k', hmem', hreach'⟩ := hk.dominates d (hds d hdmem)
  have heq : k' = k := hk.independent k' hmem' k hmem (hreach'.trans hreach)
  rw [heq] at hreach'
  exact ⟨d, hdmem, hreach, hreach'⟩

/-- The choice of such vertices is injective. -/
theorem IsKernel.exists_choice (hk : IsKernel step vs ks) (hds : ∀ d ∈ ds, d ∈ vs)
    (hd : Dominates step ds vs) :
    ∃ f : α → α, (∀ k ∈ ks, ReflTransGen step (f k) k ∧ ReflTransGen step k (f k)) ∧
      (ks.map f).Nodup ∧ ks.map f ⊆ ds := by
  have hmutual := hk.exists_mutual hds hd
  choose! f hmem hreach using hmutual
  refine ⟨f, hreach, ?_, ?_⟩
  · apply hk.nodup.map_on
    intro k hk' k' hk'' heq
    apply hk.independent k hk' k' hk''
    have hback := (hreach k' hk'').1
    rw [← heq] at hback
    exact (hreach k hk').2.trans hback
  · intro d hd'
    obtain ⟨k, hk', rfl⟩ := List.mem_map.mp hd'
    exact hmem k hk'

theorem IsKernel.length_le (hk : IsKernel step vs ks) (hds : ∀ d ∈ ds, d ∈ vs)
    (hd : Dominates step ds vs) : ks.length ≤ ds.length := by
  obtain ⟨f, -, hnodup, hsub⟩ := hk.exists_choice hds hd
  have hle := (hnodup.subperm hsub).length_le
  rwa [List.length_map] at hle

theorem IsKernel.length_eq (hk : IsKernel step vs ks) (hd : IsKernel step vs ds) :
    ks.length = ds.length :=
  Nat.le_antisymm (hk.length_le hd.subset hd.dominates) (hd.length_le hk.subset hk.dominates)

/-- A dominating list of the length of a kernel is independent. -/
theorem IsKernel.independent_of_length_le (hk : IsKernel step vs ks) (hds : ∀ d ∈ ds, d ∈ vs)
    (hd : Dominates step ds vs) (hle : ds.length ≤ ks.length) : Independent step ds := by
  obtain ⟨f, hreach, hnodup, hsub⟩ := hk.exists_choice hds hd
  have hperm : (ks.map f).Perm ds := by
    apply (hnodup.subperm hsub).perm_of_length_le
    rwa [List.length_map]
  intro d hd' d' hd'' hdd
  obtain ⟨k, hk', rfl⟩ := List.mem_map.mp (hperm.mem_iff.mpr hd')
  obtain ⟨k', hk'', rfl⟩ := List.mem_map.mp (hperm.mem_iff.mpr hd'')
  have heq : k = k' := by
    apply hk.independent k hk' k' hk''
    exact (hreach k hk').2.trans (hdd.trans (hreach k' hk'').1)
  rw [heq]

theorem IsKernel.isTop (hk : IsKernel step vs ks) {k : α} (hmem : k ∈ ks)
    (hclosed : ∀ u, ReflTransGen step u k → u ∈ vs) : IsTop step k := by
  intro u hu
  obtain ⟨k', hmem', hreach⟩ := hk.dominates u (hclosed u hu)
  have heq := hk.independent k' hmem' k hmem (hreach.trans hu)
  rwa [heq] at hreach

/-! ## Isolated vertices -/

def IsIsolated (step : α → α → Prop) (v : α) : Prop := ∀ u, ¬step u v ∧ ¬step v u

theorem IsIsolated.eq_of_reach {u v : α} (hv : IsIsolated step v) (h : ReflTransGen step u v) :
    u = v := by
  cases ReflTransGen.cases_tail h with
  | inl heq => exact heq.symm
  | inr htail =>
      obtain ⟨w, -, hstep⟩ := htail
      exact absurd hstep (hv w).1

theorem IsIsolated.eq_of_reach_from {u v : α} (hv : IsIsolated step v)
    (h : ReflTransGen step v u) : v = u := by
  cases ReflTransGen.cases_head h with
  | inl heq => exact heq
  | inr hhead =>
      obtain ⟨w, hstep, -⟩ := hhead
      exact absurd hstep (hv w).2

/-- Isolated vertices belong to each kernel. -/
theorem IsKernel.extend {extra ws : List α} (hk : IsKernel step vs ks) (hnodup : extra.Nodup)
    (hisolated : ∀ e ∈ extra, IsIsolated step e) (hdisjoint : ∀ e ∈ extra, e ∉ vs)
    (hws : ∀ w, w ∈ ws ↔ w ∈ extra ∨ w ∈ vs) : IsKernel step ws (extra ++ ks) where
  nodup := by
    apply List.nodup_append.mpr
    refine ⟨hnodup, hk.nodup, ?_⟩
    intro e he k hmem heq
    rw [heq] at he
    exact hdisjoint k he (hk.subset k hmem)
  subset k hmem := by
    rw [hws]
    exact (List.mem_append.mp hmem).imp_right (hk.subset k)
  dominates w hw := by
    cases (hws w).mp hw with
    | inl he => exact ⟨w, List.mem_append_left _ he, ReflTransGen.refl⟩
    | inr hv =>
        obtain ⟨k, hmem, hreach⟩ := hk.dominates w hv
        exact ⟨k, List.mem_append_right _ hmem, hreach⟩
  independent k hmem k' hmem' hreach := by
    cases List.mem_append.mp hmem with
    | inl he => exact (hisolated k he).eq_of_reach_from hreach
    | inr hk' =>
        cases List.mem_append.mp hmem' with
        | inl he => exact (hisolated k' he).eq_of_reach hreach
        | inr hk'' => exact hk.independent k hk' k' hk'' hreach

/-! ## Two graphs, one with fewer edges -/

/-- What only the larger graph reaches a top vertex of the smaller graph from. -/
def TopsKept (step finer : α → α → Prop) (vs : List α) : Prop :=
  ∀ v ∈ vs, IsTop finer v → ∀ u ∈ vs, ReflTransGen step u v → ReflTransGen finer v u

/-- A kernel of the smaller graph stays independent in the larger one exactly when the larger
graph reaches each top vertex from below that vertex only. -/
theorem IsKernel.independent_iff (hfiner : ∀ a b, finer a b → step a b)
    (hclosed : ∀ u v, v ∈ vs → ReflTransGen finer u v → u ∈ vs) (hk : IsKernel finer vs ks) :
    Independent step ks ↔ TopsKept step finer vs := by
  constructor
  · intro h v hv htop u hu hreach
    obtain ⟨k, hmem, hkv⟩ := hk.dominates v hv
    obtain ⟨k', hmem', hku⟩ := hk.dominates u hu
    have hvk := htop k hkv
    have heq : k' = k := by
      apply h k' hmem' k hmem
      exact (ReflTransGen.mono hfiner _ _ hku).trans
        (hreach.trans (ReflTransGen.mono hfiner _ _ hvk))
    rw [heq] at hku
    exact hvk.trans hku
  · intro h k hmem k' hmem' hreach
    have htop : IsTop finer k' := hk.isTop hmem' fun u hu => hclosed u k' (hk.subset k' hmem') hu
    have hback := h k' (hk.subset k' hmem') htop k (hk.subset k hmem) hreach
    exact (hk.independent k' hmem' k hmem hback).symm

/-- Kernels of the two graphs have one length exactly when the top vertices are kept. -/
theorem IsKernel.length_eq_iff (hfiner : ∀ a b, finer a b → step a b)
    (hclosed : ∀ u v, v ∈ vs → ReflTransGen finer u v → u ∈ vs)
    (hk : IsKernel step vs ks) (hd : IsKernel finer vs ds) :
    ks.length = ds.length ↔ TopsKept step finer vs := by
  rw [← hd.independent_iff hfiner hclosed]
  have hdom := hd.dominates.mono hfiner
  constructor
  · intro heq
    exact hk.independent_of_length_le hd.subset hdom (Nat.le_of_eq heq.symm)
  · intro hind
    exact hk.length_eq ⟨hd.nodup, hd.subset, hdom, hind⟩

/-! ## Greedy selection -/

/-- Take each listed vertex that nothing taken so far and nothing in `seen` reaches. -/
noncomputable def greedy (step : α → α → Prop) (seen : Set α) : List α → List α
  | [] => []
  | v :: vs =>
      open scoped Classical in
      if v ∈ seen then greedy step seen vs
      else v :: greedy step (seen ∪ {u | ReflTransGen step v u}) vs

variable {seen : Set α}

theorem greedy_cons_of_mem {v : α} (h : v ∈ seen) :
    greedy step seen (v :: vs) = greedy step seen vs := by
  simp [greedy, h]

theorem greedy_cons_of_notMem {v : α} (h : v ∉ seen) :
    greedy step seen (v :: vs) = v :: greedy step (seen ∪ {u | ReflTransGen step v u}) vs := by
  simp [greedy, h]

theorem mem_of_mem_greedy {v : α} (h : v ∈ greedy step seen vs) : v ∈ vs ∧ v ∉ seen := by
  induction vs generalizing seen with
  | nil => simp [greedy] at h
  | cons u vs ih =>
      by_cases hu : u ∈ seen
      · rw [greedy_cons_of_mem hu] at h
        exact ⟨List.mem_cons_of_mem _ (ih h).1, (ih h).2⟩
      · rw [greedy_cons_of_notMem hu] at h
        cases List.mem_cons.mp h with
        | inl heq => exact ⟨heq ▸ List.mem_cons_self, heq ▸ hu⟩
        | inr h =>
            exact ⟨List.mem_cons_of_mem _ (ih h).1, fun hv => (ih h).2 (Or.inl hv)⟩

/-- No selected vertex reaches one selected after it. -/
theorem greedy_pairwise :
    (greedy step seen vs).Pairwise fun u v => ¬ReflTransGen step u v := by
  induction vs generalizing seen with
  | nil => simp [greedy]
  | cons u vs ih =>
      by_cases hu : u ∈ seen
      · rw [greedy_cons_of_mem hu]
        exact ih
      · rw [greedy_cons_of_notMem hu]
        refine List.pairwise_cons.mpr ⟨?_, ih⟩
        intro v hv hreach
        exact (mem_of_mem_greedy hv).2 (Or.inr hreach)

theorem greedy_nodup : (greedy step seen vs).Nodup := by
  apply List.Pairwise.imp _ greedy_pairwise
  intro u v h heq
  rw [heq] at h
  exact h ReflTransGen.refl

theorem greedy_dominates {v : α} (h : v ∈ vs) :
    v ∈ seen ∨ ∃ k ∈ greedy step seen vs, ReflTransGen step k v := by
  induction vs generalizing seen with
  | nil => cases h
  | cons u vs ih =>
      by_cases hu : u ∈ seen
      · rw [greedy_cons_of_mem hu]
        cases List.mem_cons.mp h with
        | inl heq => exact Or.inl (heq ▸ hu)
        | inr h => exact ih h
      · rw [greedy_cons_of_notMem hu]
        cases List.mem_cons.mp h with
        | inl heq => exact Or.inr ⟨u, List.mem_cons_self, heq ▸ ReflTransGen.refl⟩
        | inr h =>
            rcases @ih (seen ∪ {w | ReflTransGen step u w}) h with (hv | hv) | hv
            · exact Or.inl hv
            · exact Or.inr ⟨u, List.mem_cons_self, hv⟩
            · obtain ⟨k, hk, hreach⟩ := hv
              exact Or.inr ⟨k, List.mem_cons_of_mem _ hk, hreach⟩

/-- A greedy selection of top vertices is a kernel. -/
theorem isKernel_greedy (htop : ∀ k ∈ greedy step ∅ vs, IsTop step k) :
    IsKernel step vs (greedy step ∅ vs) where
  nodup := greedy_nodup
  subset k hk := (mem_of_mem_greedy hk).1
  dominates v hv := (greedy_dominates hv).resolve_left (Set.notMem_empty v)
  independent := by
    have hafter : (greedy step ∅ vs).Pairwise fun u v => ReflTransGen step u v → u = v :=
      greedy_pairwise.imp fun h hreach => absurd hreach h
    have hbefore : (greedy step ∅ vs).Pairwise fun u v => ReflTransGen step v u → v = u :=
      greedy_pairwise.imp_of_mem fun hu _ h hreach => absurd (htop _ hu _ hreach) h
    have hall := List.Pairwise.forall_of_forall_of_flip (fun _ _ _ => rfl) hafter hbefore
    intro k hk k' hk'
    exact hall hk hk'

/-- Two neighbours of which the first reaches the second, listed the other way round, give
one more selected vertex. -/
theorem length_greedy_swap {u v : α} (hu : u ∉ seen) (hv : v ∉ seen)
    (huv : ReflTransGen step u v) (hvu : ¬ReflTransGen step v u) :
    (greedy step seen (v :: u :: vs)).length = (greedy step seen (u :: v :: vs)).length + 1 := by
  have hv' : v ∈ seen ∪ {w | ReflTransGen step u w} := Or.inr huv
  have hu' : u ∉ seen ∪ {w | ReflTransGen step v w} := by
    intro h
    cases h with
    | inl h => exact hu h
    | inr h => exact hvu h
  have hseen : seen ∪ {w | ReflTransGen step v w} ∪ {w | ReflTransGen step u w} =
      seen ∪ {w | ReflTransGen step u w} := by
    have hsub : {w | ReflTransGen step v w} ⊆ {w | ReflTransGen step u w} :=
      fun w hw => huv.trans hw
    rw [Set.union_assoc, Set.union_eq_self_of_subset_left hsub]
  rw [greedy_cons_of_notMem hv, greedy_cons_of_notMem hu', hseen, greedy_cons_of_notMem hu,
    greedy_cons_of_mem hv']
  simp

theorem greedy_append (as bs : List α) :
    greedy step seen (as ++ bs) = greedy step seen as ++
      greedy step (seen ∪ {w | ∃ k ∈ greedy step seen as, ReflTransGen step k w}) bs := by
  induction as generalizing seen with
  | nil => simp [greedy]
  | cons a as ih =>
      by_cases ha : a ∈ seen
      · rw [List.cons_append, greedy_cons_of_mem ha, greedy_cons_of_mem ha, ih]
      · rw [List.cons_append, greedy_cons_of_notMem ha, greedy_cons_of_notMem ha, ih]
        have hseen : seen ∪ {u | ReflTransGen step a u} ∪
              {w | ∃ k ∈ greedy step (seen ∪ {u | ReflTransGen step a u}) as,
                ReflTransGen step k w} =
            seen ∪ {w | ∃ k ∈ a :: greedy step (seen ∪ {u | ReflTransGen step a u}) as,
                ReflTransGen step k w} := by
          ext w
          simp [or_assoc]
        rw [hseen, List.cons_append]

/-! ## Which vertices are selected -/

/-- `v` is listed, and no vertex listed before it reaches it. -/
def Unreached (step : α → α → Prop) (vs : List α) (v : α) : Prop :=
  ∃ before after, vs = before ++ v :: after ∧ ∀ u ∈ before, ¬ReflTransGen step u v

theorem Unreached.mem {v : α} (h : Unreached step vs v) : v ∈ vs := by
  obtain ⟨before, after, rfl, -⟩ := h
  simp

theorem unreached_cons_iff {u v : α} :
    Unreached step (u :: vs) v ↔
      u = v ∨ ¬ReflTransGen step u v ∧ Unreached step vs v := by
  constructor
  · intro h
    obtain ⟨before, after, hlist, hbefore⟩ := h
    cases before with
    | nil => exact Or.inl (List.cons.inj hlist).1
    | cons w before =>
        obtain ⟨rfl, rfl⟩ := List.cons.inj hlist
        refine Or.inr ⟨hbefore u List.mem_cons_self, before, after, rfl, ?_⟩
        exact fun w hw => hbefore w (List.mem_cons_of_mem _ hw)
  · intro h
    cases h with
    | inl heq =>
        subst heq
        exact ⟨[], vs, rfl, by simp⟩
    | inr h =>
        obtain ⟨hu, before, after, rfl, hbefore⟩ := h
        refine ⟨u :: before, after, rfl, ?_⟩
        intro w hw
        cases List.mem_cons.mp hw with
        | inl heq => exact heq ▸ hu
        | inr hw => exact hbefore w hw

/-- A set that holds whatever its members reach. -/
def ReachClosed (step : α → α → Prop) (seen : Set α) : Prop :=
  ∀ u ∈ seen, ∀ w, ReflTransGen step u w → w ∈ seen

theorem ReachClosed.union (h : ReachClosed step seen) (v : α) :
    ReachClosed step (seen ∪ {u | ReflTransGen step v u}) := by
  intro u hu w hw
  cases hu with
  | inl hu => exact Or.inl (h u hu w hw)
  | inr hu => exact Or.inr (ReflTransGen.trans hu hw)

theorem mem_greedy_iff (hseen : ReachClosed step seen) {v : α} :
    v ∈ greedy step seen vs ↔ v ∉ seen ∧ Unreached step vs v := by
  induction vs generalizing seen with
  | nil => simp [greedy, Unreached]
  | cons u vs ih =>
      rw [unreached_cons_iff]
      by_cases hu : u ∈ seen
      · rw [greedy_cons_of_mem hu, ih hseen]
        constructor
        · intro h
          exact ⟨h.1, Or.inr ⟨fun hreach => h.1 (hseen u hu v hreach), h.2⟩⟩
        · intro h
          cases h.2 with
          | inl heq => exact absurd (heq ▸ hu) h.1
          | inr hrest => exact ⟨h.1, hrest.2⟩
      · rw [greedy_cons_of_notMem hu, List.mem_cons, ih (hseen.union u)]
        constructor
        · intro h
          cases h with
          | inl heq => exact ⟨heq ▸ hu, Or.inl heq.symm⟩
          | inr h =>
              exact ⟨fun hv => h.1 (Or.inl hv), Or.inr ⟨fun hv => h.1 (Or.inr hv), h.2⟩⟩
        · intro h
          cases h.2 with
          | inl heq => exact Or.inl heq.symm
          | inr hrest =>
              refine Or.inr ⟨?_, hrest.2⟩
              intro hv
              cases hv with
              | inl hv => exact h.1 hv
              | inr hv => exact hrest.1 hv

/-! ## Sources first -/

def IsSource (step : α → α → Prop) (v : α) : Prop := ∀ u, ¬step u v

theorem IsSource.eq_of_reach {u v : α} (hv : IsSource step v) (h : ReflTransGen step u v) :
    u = v := by
  cases ReflTransGen.cases_tail h with
  | inl heq => exact heq.symm
  | inr htail =>
      obtain ⟨w, -, hstep⟩ := htail
      exact absurd hstep (hv w)

/-- The first round takes the sources, the second one what they do not reach. -/
noncomputable def sourcesFirst (step : α → α → Prop) (vs : List α) : List α :=
  open scoped Classical in greedy step ∅ (vs.filter (fun v => IsSource step v) ++ vs)

/-- Vertices that no source reaches are reached only by vertices that they reach. -/
def Reversible (step : α → α → Prop) (vs : List α) : Prop :=
  ∀ v ∈ vs, (∀ r ∈ vs, IsSource step r → ¬ReflTransGen step r v) → IsTop step v

/-- Isolated vertices are sources, and no others are reached from them. -/
theorem reversible_iff_of_isolated {ws : List α} (hsub : ∀ v ∈ vs, v ∈ ws)
    (hisolated : ∀ w ∈ ws, w ∉ vs → IsIsolated step w) :
    Reversible step ws ↔ Reversible step vs := by
  constructor
  · intro h v hv hfree
    apply h v (hsub v hv)
    intro r hr hsource hreach
    by_cases hmem : r ∈ vs
    · exact hfree r hmem hsource hreach
    · exact hmem ((hisolated r hr hmem).eq_of_reach_from hreach ▸ hv)
  · intro h v hv hfree
    by_cases hmem : v ∈ vs
    · apply h v hmem
      intro r hr
      exact hfree r (hsub r hr)
    · exact absurd ReflTransGen.refl
        (hfree v hv fun u hu => ((hisolated v hv hmem) u).1 hu)

theorem mem_of_mem_sourcesFirst {v : α} (h : v ∈ sourcesFirst step vs) : v ∈ vs := by
  cases List.mem_append.mp (mem_of_mem_greedy h).1 with
  | inl hfirst => exact (List.mem_filter.mp hfirst).1
  | inr hsecond => exact hsecond

theorem sourcesFirst_nodup : (sourcesFirst step vs).Nodup := greedy_nodup

theorem sourcesFirst_dominates : Dominates step (sourcesFirst step vs) vs := by
  intro v hv
  apply (greedy_dominates _).resolve_left (Set.notMem_empty v)
  exact List.mem_append_right _ hv

theorem isTop_of_mem_sourcesFirst (hrev : Reversible step vs) {k : α}
    (h : k ∈ sourcesFirst step vs) : IsTop step k := by
  classical
  have hk := h
  rw [sourcesFirst, greedy_append] at h
  cases List.mem_append.mp h with
  | inl hfirst =>
      have hsource := (mem_of_mem_greedy hfirst).1
      simp only [List.mem_filter, decide_eq_true_eq] at hsource
      intro u hu
      rw [hsource.2.eq_of_reach hu]
  | inr hsecond =>
      apply hrev k (mem_of_mem_sourcesFirst hk)
      intro r hr hsource hreach
      apply (mem_of_mem_greedy hsecond).2
      have hfirst : r ∈ vs.filter (fun v => decide (IsSource step v)) := by
        simp [hr, hsource]
      cases @greedy_dominates _ step _ ∅ r hfirst with
      | inl hempty => exact absurd hempty (Set.notMem_empty r)
      | inr hreached =>
          obtain ⟨k', hk', hreach'⟩ := hreached
          exact Or.inr ⟨k', hk', hreach'.trans hreach⟩

theorem isKernel_sourcesFirst (hrev : Reversible step vs) :
    IsKernel step vs (sourcesFirst step vs) where
  nodup := sourcesFirst_nodup
  subset _ := mem_of_mem_sourcesFirst
  dominates := sourcesFirst_dominates
  independent := (isKernel_greedy fun _ hk => isTop_of_mem_sourcesFirst hrev hk).independent

theorem IsKernel.of_perm {ws : List α} (hperm : ws.Perm vs) (hk : IsKernel step ws ks) :
    IsKernel step vs ks where
  nodup := hk.nodup
  subset k hmem := hperm.mem_iff.mp (hk.subset k hmem)
  dominates v hv := hk.dominates v (hperm.mem_iff.mpr hv)
  independent := hk.independent

/-- In a reversible graph the order of the vertices does not matter. -/
theorem length_sourcesFirst_of_perm {ws : List α} (hrev : Reversible step vs)
    (hperm : ws.Perm vs) : (sourcesFirst step ws).length = (sourcesFirst step vs).length := by
  have hrev' : Reversible step ws :=
    (reversible_iff_of_isolated (fun v hv => hperm.mem_iff.mpr hv)
      fun w hw hn => absurd (hperm.mem_iff.mp hw) hn).mpr hrev
  exact ((isKernel_sourcesFirst hrev').of_perm hperm).length_eq (isKernel_sourcesFirst hrev)

/-- Only reversible graphs give every order of the vertices the same number of selected
ones. -/
theorem reversible_of_length_const {n : ℕ}
    (hclosed : ∀ u v, v ∈ vs → ReflTransGen step u v → u ∈ vs)
    (hconst : ∀ ws : List α, ws.Perm vs → (sourcesFirst step ws).length = n) :
    Reversible step vs := by
  classical
  intro v hv hfree u huv
  by_contra hvu
  have hu : u ∈ vs := hclosed u v hv huv
  have hne : v ≠ u := fun heq => hvu (heq ▸ ReflTransGen.refl)
  have hperm : (u :: v :: (vs.erase u).erase v).Perm vs := by
    have hv' : v ∈ vs.erase u := (List.mem_erase_of_ne hne).mpr hv
    exact ((List.perm_cons_erase hv').symm.cons u).trans (List.perm_cons_erase hu).symm
  have hswap : (v :: u :: (vs.erase u).erase v).Perm vs := (List.Perm.swap u v _).trans hperm
  have hsourceV : ¬IsSource step v := by
    intro hsource
    exact hfree v hv hsource ReflTransGen.refl
  have hsourceU : ¬IsSource step u := by
    intro hsource
    exact hfree u hu hsource huv
  have hlong := hconst _ hswap
  have hshort := hconst _ hperm
  rw [sourcesFirst, greedy_append, List.length_append] at hlong hshort
  simp only [List.filter_cons, hsourceU, hsourceV, decide_false, Bool.false_eq_true,
    if_false] at hlong hshort
  let rest := (vs.erase u).erase v
  let first := greedy step ∅ (rest.filter fun w => decide (IsSource step w))
  have hunseen : ∀ w, ReflTransGen step w v →
      w ∉ (∅ : Set α) ∪ {w | ∃ k ∈ first, ReflTransGen step k w} := by
    intro w hwv hw
    obtain ⟨k, hk, hkw⟩ := hw.resolve_left (Set.notMem_empty w)
    have hk' := (mem_of_mem_greedy hk).1
    simp only [List.mem_filter, decide_eq_true_eq] at hk'
    exact hfree k (List.mem_of_mem_erase (List.mem_of_mem_erase hk'.1)) hk'.2 (hkw.trans hwv)
  have hone := @length_greedy_swap _ _ rest _ _ _ (hunseen u huv) (hunseen v ReflTransGen.refl)
    huv hvu
  simp only [first, rest] at hone
  omega

/-! ## Minimal selections -/

def SourceFree (step : α → α → Prop) (vs : List α) (v : α) : Prop :=
  ∀ r ∈ vs, IsSource step r → ¬ReflTransGen step r v

/-- What the first round reaches is what the sources reach. -/
theorem exists_greedy_sources_iff [DecidablePred (IsSource step)] {v : α} :
    (∃ k ∈ greedy step ∅ (vs.filter fun v => IsSource step v), ReflTransGen step k v) ↔
      ∃ r ∈ vs, IsSource step r ∧ ReflTransGen step r v := by
  constructor
  · intro h
    obtain ⟨k, hk, hreach⟩ := h
    have hmem := (mem_of_mem_greedy hk).1
    simp only [List.mem_filter, decide_eq_true_eq] at hmem
    exact ⟨k, hmem.1, hmem.2, hreach⟩
  · intro h
    obtain ⟨r, hr, hsource, hreach⟩ := h
    have hmem : r ∈ vs.filter fun v => IsSource step v := by
      simp [hr, hsource]
    obtain ⟨k, hk, hkr⟩ := (greedy_dominates hmem).resolve_left (Set.notMem_empty r)
    exact ⟨k, hk, hkr.trans hreach⟩

theorem mem_sourcesFirst_iff {v : α} :
    v ∈ sourcesFirst step vs ↔
      v ∈ vs ∧ IsSource step v ∨ SourceFree step vs v ∧ Unreached step vs v := by
  classical
  have hclosed : ReachClosed step (∅ ∪ {w | ∃ k ∈ greedy step ∅
      (vs.filter fun v => decide (IsSource step v)), ReflTransGen step k w}) := by
    intro u hu w hw
    obtain ⟨k, hk, hreach⟩ := hu.resolve_left (Set.notMem_empty u)
    exact Or.inr ⟨k, hk, hreach.trans hw⟩
  rw [sourcesFirst, greedy_append, List.mem_append, mem_greedy_iff hclosed]
  apply or_congr
  · constructor
    · intro h
      simpa using (mem_of_mem_greedy h).1
    · intro h
      obtain ⟨k, hk, hreach⟩ := exists_greedy_sources_iff.mpr ⟨v, h.1, h.2, ReflTransGen.refl⟩
      exact h.2.eq_of_reach hreach ▸ hk
  · apply and_congr_left'
    simp only [Set.empty_union, Set.mem_ofPred_eq, exists_greedy_sources_iff, SourceFree]
    push Not
    rfl

/-- The vertices that neither a source nor a vertex listed before them reaches are reached
only by vertices that they reach. -/
def EntriesFirst (step : α → α → Prop) (vs : List α) : Prop :=
  ∀ v, SourceFree step vs v → Unreached step vs v → IsTop step v

theorem IsSource.isTop {v : α} (hv : IsSource step v) : IsTop step v := by
  intro u hu
  rw [hv.eq_of_reach hu]

theorem isTop_sourcesFirst_iff :
    (∀ k ∈ sourcesFirst step vs, IsTop step k) ↔ EntriesFirst step vs := by
  constructor
  · intro h v hfree hunreached
    exact h v (mem_sourcesFirst_iff.mpr (Or.inr ⟨hfree, hunreached⟩))
  · intro h k hk
    cases mem_sourcesFirst_iff.mp hk with
    | inl hsource => exact hsource.2.isTop
    | inr hrest => exact h k hrest.1 hrest.2

/-- One vertex is listed for each component that nothing outside it reaches, and no other. -/
structure OnePerTop (step : α → α → Prop) (vs ks : List α) : Prop where
  nodup : ks.Nodup
  isTop : ∀ k ∈ ks, IsTop step k
  existsUnique : ∀ v ∈ vs, IsTop step v → ∃! k, k ∈ ks ∧ ReflTransGen step k v

theorem IsKernel.onePerTop (hclosed : ∀ u v, v ∈ vs → ReflTransGen step u v → u ∈ vs)
    (hk : IsKernel step vs ks) : OnePerTop step vs ks where
  nodup := hk.nodup
  isTop k hmem := hk.isTop hmem fun u hu => hclosed u k (hk.subset k hmem) hu
  existsUnique v hv htop := by
    obtain ⟨k, hmem, hreach⟩ := hk.dominates v hv
    refine ⟨k, ⟨hmem, hreach⟩, ?_⟩
    intro k' h
    exact hk.independent k' h.1 k hmem (h.2.trans (htop k hreach))

theorem independent_sourcesFirst_iff
    (hclosed : ∀ u v, v ∈ vs → ReflTransGen step u v → u ∈ vs) :
    Independent step (sourcesFirst step vs) ↔ EntriesFirst step vs := by
  rw [← isTop_sourcesFirst_iff]
  constructor
  · intro h
    have hk : IsKernel step vs (sourcesFirst step vs) :=
      ⟨sourcesFirst_nodup, fun _ => mem_of_mem_sourcesFirst, sourcesFirst_dominates, h⟩
    exact (hk.onePerTop hclosed).isTop
  · intro h
    exact (isKernel_greedy h).independent

end Mair.Kernels
