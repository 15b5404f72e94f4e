import Mathlib.Order.Bounds.Basic
import FerroDruid.Kafka.Resume
/-!
# The resume point is the first offset that is not loaded

`PartitionResume::new` merges the loaded spans in one loop and the walk crosses
them in another. Read together, the two find the least offset from the floor on
that lies in none of the spans, in whatever order these were listed.
-/

namespace FerroDruid.Kafka

open List

/-- Some span of the list holds the offset. -/
def Covered (spans : List OffsetSpan) (o : ℤ) : Prop := ∃ s ∈ spans, s.Has o

/-- The offsets from `floor` on that no span holds. -/
def uncoveredFrom (floor : ℤ) (spans : List OffsetSpan) : Set ℤ := {o | floor ≤ o ∧ ¬ Covered spans o}

/-- The floor of a resume: the lower of the committed offset and the first durable start. -/
def resumeBase : Option ℤ → ℤ → ℤ
  | some c, minStart => min c minStart
  | none, minStart => minStart

@[simp] theorem covered_cons (s : OffsetSpan) (spans : List OffsetSpan) (o : ℤ) :
    Covered (s :: spans) o ↔ s.Has o ∨ Covered spans o := by
  simp [Covered]

@[simp] theorem not_covered_nil (o : ℤ) : ¬ Covered [] o := by
  simp [Covered]

variable {spans : List OffsetSpan}

theorem covered_perm {spans' : List OffsetSpan} (h : spans.Perm spans') (o : ℤ) :
    Covered spans o ↔ Covered spans' o := by
  simp [Covered, h.mem_iff]

theorem uncoveredFrom_perm {spans' : List OffsetSpan} (floor : ℤ) (h : spans.Perm spans') :
    uncoveredFrom floor spans = uncoveredFrom floor spans' := by
  simp only [uncoveredFrom, covered_perm h]

/-! ## The merge loop

The merged spans stand last first, each apart from the one before it. The sort
gives that every span to come starts no earlier than all of them. -/

/-- Merged spans, last first, with a hole between any two. -/
def Apart (merged : List OffsetSpan) : Prop := merged.Pairwise fun a b => b.next < a.start

variable {merged : List OffsetSpan} {span : OffsetSpan}

section

variable (h : ∀ s ∈ merged, s.start ≤ span.start)

include h

theorem mergeSpan_start_le : ∀ s ∈ mergeSpan merged span, s.start ≤ span.start := by
  intro s hs
  unfold mergeSpan at hs
  rcases merged with _ | ⟨prev, rest⟩ <;> dsimp only at hs <;> split_ifs at hs <;> simp at hs <;> grind

/-- A merged span adds its offsets to the coverage and nothing else. -/
theorem covered_mergeSpan (o : ℤ) : Covered (mergeSpan merged span) o ↔ span.Has o ∨ Covered merged o := by
  unfold mergeSpan
  by_cases he : span.next ≤ span.start
  · have hno : ¬ span.Has o := by
      unfold OffsetSpan.Has
      omega
    simp [he, hno]
  rw [if_neg he]
  rcases merged with _ | ⟨prev, rest⟩
  · simp
  have hp : prev.start ≤ span.start := h prev mem_cons_self
  dsimp only
  split_ifs with ht hn
  -- the span reaches past the one it touches, which takes its end
  · have hun : OffsetSpan.Has { prev with next := span.next } o ↔ span.Has o ∨ prev.Has o := by
      unfold OffsetSpan.Has
      simp only
      omega
    simp only [covered_cons, hun, or_assoc]
  -- it lies inside
  · have hin : span.Has o → prev.Has o := by
      unfold OffsetSpan.Has
      omega
    tauto
  · simp only [covered_cons]

theorem apart_mergeSpan (ha : Apart merged) : Apart (mergeSpan merged span) := by
  unfold mergeSpan
  by_cases he : span.next ≤ span.start
  · rwa [if_pos he]
  rw [if_neg he]
  rcases merged with _ | ⟨prev, rest⟩
  · simp [Apart]
  obtain ⟨hprev, hrest⟩ := pairwise_cons.1 ha
  have hp : prev.start ≤ span.start := h prev mem_cons_self
  dsimp only
  split_ifs with ht hn
  · exact pairwise_cons.2 ⟨hprev, hrest⟩
  · exact ha
  · refine pairwise_cons.2 ⟨?_, ha⟩
    intro b hb
    rcases mem_cons.1 hb with rfl | hb
    · exact not_le.1 ht
    · exact lt_of_lt_of_le (hprev b hb) hp

end

/-- The whole loop, over spans sorted by start. -/
theorem mergeSpans_spec (hs : spans.Pairwise fun a b => a.start ≤ b.start)
    (hm : ∀ s ∈ merged, ∀ t ∈ spans, s.start ≤ t.start) (ha : Apart merged) :
    Apart (spans.foldl mergeSpan merged) ∧
      ∀ o, Covered (spans.foldl mergeSpan merged) o ↔ Covered spans o ∨ Covered merged o := by
  induction spans generalizing merged with
  | nil => exact ⟨ha, by simp⟩
  | cons span rest ih =>
    obtain ⟨hspan, hrest⟩ := pairwise_cons.1 hs
    have hle : ∀ s ∈ merged, s.start ≤ span.start := fun s hmem => hm s hmem span mem_cons_self
    have hnext : ∀ s ∈ mergeSpan merged span, ∀ t ∈ rest, s.start ≤ t.start := fun s hmem t ht =>
      le_trans (mergeSpan_start_le hle s hmem) (hspan t ht)
    obtain ⟨hap, hcov⟩ := ih hrest hnext (apart_mergeSpan hle ha)
    refine ⟨hap, fun o => ?_⟩
    simp only [foldl_cons, hcov, covered_mergeSpan hle, covered_cons]
    tauto

theorem sorted_starts (spans : List OffsetSpan) :
    (spans.insertionSort OffsetSpan.le).Pairwise fun a b => a.start ≤ b.start := by
  have : Std.Total OffsetSpan.le := ⟨fun a b => by unfold OffsetSpan.le; omega⟩
  have : IsTrans OffsetSpan OffsetSpan.le := ⟨fun a b c => by unfold OffsetSpan.le; omega⟩
  refine (pairwise_insertionSort OffsetSpan.le spans).imp fun {a b} h => ?_
  rcases h with h | ⟨h, -⟩ <;> omega

/-- What `PartitionResume::new` keeps of the list: its coverage, in order and with holes between. -/
theorem PartitionResume.new_loaded (minStart : ℤ) (spans : List OffsetSpan) :
    ((PartitionResume.new minStart spans).loaded.Pairwise fun a b => a.next < b.start) ∧
      ∀ o, Covered (PartitionResume.new minStart spans).loaded o ↔ Covered spans o := by
  obtain ⟨hap, hcov⟩ := @mergeSpans_spec _ [] (sorted_starts spans) (by simp) (by simp [Apart])
  refine ⟨pairwise_reverse.2 hap, fun o => ?_⟩
  have hrev : Covered (PartitionResume.new minStart spans).loaded o ↔
      Covered ((spans.insertionSort OffsetSpan.le).foldl mergeSpan []) o :=
    covered_perm (reverse_perm _) o
  rw [hrev, hcov, covered_perm (perm_insertionSort _ _)]
  simp

/-! ## The walk -/

/-- The walk never stops inside coverage: the span it stopped at starts later,
and every span after that one later still. -/
theorem not_covered_advanceContiguous {point : ℤ} {loaded : List OffsetSpan}
    (h : loaded.Pairwise fun a b => a.next < b.start) : ¬ Covered loaded (advanceContiguous point loaded) := by
  induction loaded generalizing point with
  | nil => simp
  | cons span rest ih =>
    obtain ⟨hspan, hrest⟩ := pairwise_cons.1 h
    rw [covered_cons, not_or]
    simp only [advanceContiguous]
    split_ifs with hb hs
    · have := le_advanceContiguous point rest
      exact ⟨fun hin => by unfold OffsetSpan.Has at hin; omega, ih hrest⟩
    · have := le_advanceContiguous span.next rest
      exact ⟨fun hin => by unfold OffsetSpan.Has at hin; omega, ih hrest⟩
    · refine ⟨fun hin => hs hin.1, ?_⟩
      rintro ⟨s, hmem, hin⟩
      have := hspan s hmem
      unfold OffsetSpan.Has at hin
      omega

theorem advanceContiguous_isLeast (point : ℤ) (minStart : ℤ) (spans : List OffsetSpan) :
    IsLeast (uncoveredFrom point spans) (advanceContiguous point (PartitionResume.new minStart spans).loaded) := by
  obtain ⟨hap, hcov⟩ := PartitionResume.new_loaded minStart spans
  constructor
  · refine ⟨le_advanceContiguous _ _, ?_⟩
    rw [← hcov]
    exact not_covered_advanceContiguous hap
  · rintro o ⟨hle, hfree⟩
    by_contra hlt
    exact hfree ((hcov o).1 (advanceContiguous_covers hle (not_le.1 hlt)))

/-- Below the least uncovered offset everything is covered, and the other way round. -/
theorem isLeast_uncoveredFrom_iff {floor r : ℤ} : IsLeast (uncoveredFrom floor spans) r ↔
      floor ≤ r ∧ (∀ o, floor ≤ o → o < r → Covered spans o) ∧ ¬ Covered spans r := by
  constructor
  · rintro ⟨⟨hle, hfree⟩, hleast⟩
    refine ⟨hle, fun o ho hlt => ?_, hfree⟩
    by_contra hno
    exact absurd (hleast ⟨ho, hno⟩) (not_le.2 hlt)
  · rintro ⟨hle, hcov, hfree⟩
    refine ⟨⟨hle, hfree⟩, fun o ho => ?_⟩
    by_contra hlt
    exact ho.2 (hcov o ho.1 (not_le.1 hlt))

/-! ## The two targets -/

theorem resumeOffset_new (committed : Option ℤ) (minStart : ℤ) (spans : List OffsetSpan) :
    resumeOffset committed (.new minStart spans) =
      advanceContiguous (resumeBase committed minStart) (PartitionResume.new minStart spans).loaded := by
  cases committed <;> rfl

/-- Inside the window nothing is clamped. -/
theorem clampResumeTarget_of_mem {target low high : ℤ} (hl : low ≤ target) (hh : target ≤ high) :
    clampResumeTarget target low high = target := by
  rcases clampResumeTarget_cases target low high with h | ⟨h, -, -⟩
  · unfold clampResumeTarget at h ⊢
    split_ifs at h ⊢ <;> omega
  · exact h

/-- The resume offset is the least offset from the floor on outside all loaded
spans: it skips nothing that is not loaded and stops inside no loaded span,
whatever the order of the list. The same holds of a recreated partition from
its low watermark, as long as that offset is inside the window. -/
theorem resumeOffset_isLeast (committed : Option ℤ) (minStart : ℤ) (spans : List OffsetSpan) :
    (IsLeast (uncoveredFrom (resumeBase committed minStart) spans)
        (resumeOffset committed (.new minStart spans)) ∧
      (∀ o, resumeBase committed minStart ≤ o → o < resumeOffset committed (.new minStart spans) →
        Covered spans o) ∧
      ¬ Covered spans (resumeOffset committed (.new minStart spans)) ∧
      ∀ spans', spans.Perm spans' →
        resumeOffset committed (.new minStart spans') = resumeOffset committed (.new minStart spans)) ∧
    ∀ low high r, IsLeast (uncoveredFrom low spans) r → r ≤ high →
      recreatedResumeTarget low high (.new minStart spans) = r ∧
      (∀ o, low ≤ o → o < r → Covered spans o) ∧
      ∀ spans', spans.Perm spans' → recreatedResumeTarget low high (.new minStart spans') = r := by
  have hleast : ∀ spans', IsLeast (uncoveredFrom (resumeBase committed minStart) spans')
      (resumeOffset committed (.new minStart spans')) := fun spans' => by
    rw [resumeOffset_new]
    exact advanceContiguous_isLeast _ _ _
  have hrec : ∀ spans' low high r, IsLeast (uncoveredFrom low spans') r → r ≤ high →
      recreatedResumeTarget low high (.new minStart spans') = r := by
    intro spans' low high r hr hh
    have heq := (advanceContiguous_isLeast low minStart spans').unique hr
    unfold recreatedResumeTarget
    rw [heq]
    exact clampResumeTarget_of_mem hr.1.1 hh
  obtain ⟨-, hcov, hfree⟩ := isLeast_uncoveredFrom_iff.1 (hleast spans)
  refine ⟨⟨hleast spans, hcov, hfree, fun spans' hp => ?_⟩, fun low high r hr hh => ?_⟩
  · have hl := hleast spans'
    rw [← uncoveredFrom_perm _ hp] at hl
    exact hl.unique (hleast spans)
  · refine ⟨hrec spans low high r hr hh, (isLeast_uncoveredFrom_iff.1 hr).2.1, fun spans' hp => ?_⟩
    rw [uncoveredFrom_perm _ hp] at hr
    exact hrec spans' low high r hr hh

end FerroDruid.Kafka
