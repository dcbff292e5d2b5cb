import Mair.AsanPoisoning.AlignedCopies
import Mair.AsanPoisoning.Annotations
import Mair.AsanPoisoning.Regions

/-! # Runs of requests

The program asks for bytes to be poisoned and unpoisoned, for containers to be annotated and for
annotations to be copied, in any order. What it asks for is a set of bytes that may be accessed;
the shadow can only hold sets of prefixes of granules. -/

namespace Mair.AsanPoisoning

inductive Request where
  | poisonRegion (addr size : ℕ)
  | unpoisonRegion (addr size : ℕ)
  | poisonStack (addr size : ℕ)
  | unpoisonStack (addr size : ℕ)
  | annotateContiguous (storageBeg storageEnd oldEnd newEnd : ℕ)
  | annotateDoubleEnded (storageBeg storageEnd : ℕ) (b : Bounds)
  | copyAnnotations (srcBeg srcEnd dstBeg dstEnd : ℕ)

def step (r : Runtime) (s : Shadow) : Request → Option Shadow
  | .poisonRegion addr size => asanPoisonMemoryRegion r s addr size
  | .unpoisonRegion addr size => asanUnpoisonMemoryRegion r s addr size
  | .poisonStack addr size => poisonAlignedStackMemory r s addr size true
  | .unpoisonStack addr size => poisonAlignedStackMemory r s addr size false
  | .annotateContiguous storageBeg storageEnd oldEnd newEnd =>
      annotateContiguousContainer r s storageBeg storageEnd oldEnd newEnd
  | .annotateDoubleEnded storageBeg storageEnd b =>
      annotateDoubleEndedContiguousContainer r s storageBeg storageEnd b
  | .copyAnnotations srcBeg srcEnd dstBeg dstEnd =>
      copyContiguousContainerAnnotations r s srcBeg srcEnd dstBeg dstEnd

def run (r : Runtime) : List Request → Shadow → Option Shadow
  | [], s => some s
  | q :: qs, s => (step r s q).bind (run r qs)

/-- What a request means for the set of bytes that may be accessed. -/
def Request.effect (q : Request) (A : Set ℕ) : Set ℕ :=
  match q with
  | poisonRegion addr size => A \ Set.Ico addr (addr + size)
  | unpoisonRegion addr size => A ∪ Set.Ico addr (addr + size)
  | poisonStack addr size => A \ Set.Ico addr (addr + size)
  | unpoisonStack addr size => A ∪ Set.Ico addr (addr + size)
  | annotateContiguous storageBeg storageEnd _ newEnd =>
      A \ Set.Ico storageBeg storageEnd ∪ Set.Ico storageBeg newEnd
  | annotateDoubleEnded storageBeg storageEnd b =>
      A \ Set.Ico storageBeg storageEnd ∪ Set.Ico b.newBeg b.newEnd
  | copyAnnotations srcBeg _ dstBeg dstEnd =>
      A \ Set.Ico dstBeg dstEnd ∪ {a | (dstBeg ≤ a ∧ a < dstEnd) ∧ a - dstBeg + srcBeg ∈ A}

/-- The parameters are in order and the memory is the program's. -/
def Request.WellFormed (r : Runtime) : Request → Prop
  | poisonRegion _ _ => True
  | unpoisonRegion _ _ => True
  | poisonStack addr size => r.Serves (addr / 8) ((addr + size) / 8) ∧ addr % 8 = 0
  | unpoisonStack addr size => r.Serves (addr / 8) ((addr + size) / 8) ∧ addr % 8 = 0
  | annotateContiguous storageBeg storageEnd oldEnd newEnd =>
      r.Serves (storageBeg / 8) ((storageEnd + 8 - 1) / 8) ∧
        (storageBeg ≤ oldEnd ∧ oldEnd ≤ storageEnd) ∧ (storageBeg ≤ newEnd ∧ newEnd ≤ storageEnd) ∧
        storageEnd - storageBeg ≤ 1 <<< 40
  | annotateDoubleEnded storageBeg storageEnd b =>
      r.Serves (storageBeg / 8) ((storageEnd + 8 - 1) / 8) ∧ b.Ordered storageBeg storageEnd ∧
        storageEnd - storageBeg ≤ 1 <<< 40
  | copyAnnotations srcBeg srcEnd dstBeg dstEnd =>
      srcBeg ≤ srcEnd ∧ srcEnd + dstBeg = dstEnd + srcBeg

/-- The old elements of a container may be accessed. -/
def Request.Known (q : Request) (A : Set ℕ) : Prop :=
  match q with
  | annotateContiguous storageBeg _ oldEnd _ => Set.Ico storageBeg oldEnd ⊆ A
  | annotateDoubleEnded _ _ b => Set.Ico b.oldBeg b.oldEnd ⊆ A
  | _ => True

/-- The storage of a container is accessible as far as its old elements say. -/
def Request.Matches (q : Request) (A : Set ℕ) : Prop :=
  match q with
  | annotateContiguous storageBeg storageEnd oldEnd _ =>
      A = Granules.fill 8 (A \ Set.Ico storageBeg storageEnd ∪ Set.Ico storageBeg oldEnd)
  | annotateDoubleEnded storageBeg storageEnd b =>
      A = Granules.fill 8 (A \ Set.Ico storageBeg storageEnd ∪ Set.Ico b.oldBeg b.oldEnd)
  | _ => True

/-- Every request of a run meets a condition on the set before it. -/
def Follows (V : Request → Set ℕ → Prop) (f : Request → Set ℕ → Set ℕ) :
    List Request → Set ℕ → Prop
  | [], _ => True
  | q :: qs, A => V q A ∧ Follows V f qs (f q A)

variable {r : Runtime} {s : Shadow} {q : Request} {A : Set ℕ}

theorem effect_mono (q : Request) {B : Set ℕ} (h : A ⊆ B) : q.effect A ⊆ q.effect B := by
  cases q with
  | poisonRegion addr size => exact Set.sdiff_subset_sdiff_left h
  | unpoisonRegion addr size => exact Set.union_subset_union_left _ h
  | poisonStack addr size => exact Set.sdiff_subset_sdiff_left h
  | unpoisonStack addr size => exact Set.union_subset_union_left _ h
  | annotateContiguous storageBeg storageEnd oldEnd newEnd =>
      exact Set.union_subset_union_left _ (Set.sdiff_subset_sdiff_left h)
  | annotateDoubleEnded storageBeg storageEnd b =>
      exact Set.union_subset_union_left _ (Set.sdiff_subset_sdiff_left h)
  | copyAnnotations srcBeg srcEnd dstBeg dstEnd =>
      exact Set.union_subset_union (Set.sdiff_subset_sdiff_left h) fun a ha => ⟨ha.1, h ha.2⟩

/-! ## One request -/

/-- The shadow after a request: nothing the program may access is poisoned, and when the storages
are as the program says, no byte is left accessible that the granules do not force. -/
structure Answered (s s' : Shadow) (q : Request) : Prop where
  sound : ∀ A, q.Known A → A ⊆ accessible s → q.effect A ⊆ accessible s'
  exact : q.Matches (accessible s) → accessible s' = Granules.fill 8 (q.effect (accessible s))

theorem answered_of_eq {s' : Shadow}
    (h : accessible s' = Granules.fill 8 (q.effect (accessible s))) : Answered s s' q := by
  refine ⟨fun A _ hA => ?_, fun _ => h⟩
  rw [h]
  exact (effect_mono q hA).trans Granules.subset_fill

theorem step_answered (hallow : r.allowUserPoisoning = true)
    (hdetect : r.detectContainerOverflow = true) (hform : q.WellFormed r) :
    ∃ s', step r s q = some s' ∧ Answered s s' q := by
  cases q with
  | poisonRegion addr size =>
      obtain ⟨s', hs', hcount⟩ := poisonRegion_count hallow
      exact ⟨s', hs', answered_of_eq (accessible_remove hcount)⟩
  | unpoisonRegion addr size =>
      obtain ⟨s', hs', hcount⟩ := unpoisonRegion_count hallow
      exact ⟨s', hs', answered_of_eq (accessible_add hcount)⟩
  | poisonStack addr size =>
      obtain ⟨s', hs', hcount⟩ := poisonStack_count hform.1 hform.2
      exact ⟨s', hs', answered_of_eq (accessible_remove hcount)⟩
  | unpoisonStack addr size =>
      obtain ⟨s', hs', hcount⟩ := unpoisonStack_count hform.1 hform.2
      exact ⟨s', hs', answered_of_eq (accessible_add hcount)⟩
  | annotateContiguous storageBeg storageEnd oldEnd newEnd =>
      obtain ⟨hserves, hold, hnew, hsize⟩ := hform
      obtain ⟨s', hs', hchanged⟩ :=
        annotateContiguousContainer_changed hserves hdetect hold hnew hsize
      refine ⟨s', hs', fun A hknown hA => ?_, hchanged.exact⟩
      exact (effect_mono _ hA).trans (hchanged.sound (hknown.trans hA))
  | annotateDoubleEnded storageBeg storageEnd b =>
      obtain ⟨hserves, hord, hsize⟩ := hform
      obtain ⟨s', hs', hchanged⟩ :=
        annotateDoubleEndedContiguousContainer_changed hserves hdetect hord hsize
      refine ⟨s', hs', fun A hknown hA => ?_, hchanged.exact⟩
      exact (effect_mono (.annotateDoubleEnded storageBeg storageEnd b) hA).trans
        (hchanged.sound (hknown.trans hA))
  | copyAnnotations srcBeg srcEnd dstBeg dstEnd =>
      obtain ⟨s', hs', heq⟩ :=
        copyContiguousContainerAnnotations_accessible hdetect hform.1 hform.2
      exact ⟨s', hs', answered_of_eq heq⟩

/-! ## Runs -/

theorem run_of_step {V : Request → Set ℕ → Prop} {f : Request → Set ℕ → Set ℕ}
    (R : Set ℕ → Shadow → Prop)
    (hstep : ∀ q A s, V q A → R A s → ∃ s', step r s q = some s' ∧ R (f q A) s')
    {qs : List Request} (hfollows : Follows V f qs A) (h : R A s) :
    ∃ s', run r qs s = some s' ∧ R (qs.foldl (fun A q => f q A) A) s' := by
  induction qs generalizing A s with
  | nil => exact ⟨s, rfl, h⟩
  | cons q qs ih =>
      obtain ⟨hq, hqs⟩ := hfollows
      obtain ⟨t, ht, hR⟩ := hstep q A s hq h
      obtain ⟨s', hs', hR'⟩ := ih hqs hR
      refine ⟨s', ?_, hR'⟩
      rw [run, ht]
      exact hs'

/-- A container gives up its last bytes and other memory is poisoned. -/
def exampleRequests : List Request := [.annotateContiguous 16 27 27 20, .poisonRegion 64 16]

theorem exampleRequests_wellFormed : ∀ q ∈ exampleRequests, q.WellFormed exampleRuntime := by
  intro q hq
  simp only [exampleRequests, List.mem_cons, List.not_mem_nil, or_false] at hq
  rcases hq with rfl | rfl
  · exact ⟨⟨rfl, by decide, fun _ _ _ => rfl⟩, by decide, by decide, by decide⟩
  · trivial

/-- No byte that the program may access is ever found to be poisoned. -/
theorem run_sound (hallow : r.allowUserPoisoning = true)
    (hdetect : r.detectContainerOverflow = true) {qs : List Request}
    (hfollows : Follows (fun q A => q.WellFormed r ∧ q.Known A) Request.effect qs A)
    (h : A ⊆ accessible s) :
    ∃ s', run r qs s = some s' ∧ qs.foldl (fun A q => q.effect A) A ⊆ accessible s' := by
  refine run_of_step (fun A s => A ⊆ accessible s) ?_ hfollows h
  intro q A s hq hA
  obtain ⟨s', hs', hanswered⟩ := step_answered (s := s) hallow hdetect hq.1
  exact ⟨s', hs', hanswered.sound A hq.2 hA⟩

theorem run_sound_example : ∃ s', run exampleRuntime exampleRequests (fun _ => 0) = some s' ∧
    exampleRequests.foldl (fun A q => q.effect A) Set.univ ⊆ accessible s' :=
  run_sound rfl rfl
    ⟨⟨exampleRequests_wellFormed _ (.head _), fun _ _ => trivial⟩,
      ⟨exampleRequests_wellFormed _ (.tail _ (.head _)), trivial⟩, trivial⟩
    fun _ _ => rfl

/-- The accessible bytes are the least set of prefixes of granules after every request. -/
theorem run_exact (hallow : r.allowUserPoisoning = true)
    (hdetect : r.detectContainerOverflow = true) {qs : List Request}
    (hfollows : Follows (fun q A => q.WellFormed r ∧ q.Matches A)
      (fun q A => Granules.fill 8 (q.effect A)) qs (accessible s)) :
    ∃ s', run r qs s = some s' ∧
      accessible s' = qs.foldl (fun A q => Granules.fill 8 (q.effect A)) (accessible s) := by
  refine run_of_step (fun A s => accessible s = A) ?_ hfollows rfl
  intro q A s hq hA
  obtain ⟨s', hs', hanswered⟩ := step_answered (s := s) hallow hdetect hq.1
  subst hA
  exact ⟨s', hs', hanswered.exact hq.2⟩

theorem run_exact_example : ∃ s', run exampleRuntime exampleRequests (fun _ => 0) = some s' ∧
    accessible s' = exampleRequests.foldl (fun A q => Granules.fill 8 (q.effect A))
      (accessible fun _ => 0) :=
  run_exact rfl rfl
    ⟨⟨exampleRequests_wellFormed _ (.head _), annotatedBytes_self fun _ _ => rfl⟩,
      ⟨exampleRequests_wellFormed _ (.tail _ (.head _)), trivial⟩, trivial⟩

end Mair.AsanPoisoning
