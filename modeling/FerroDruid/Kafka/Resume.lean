import Mathlib.Data.List.Sort
import FerroDruid.Lib.HashMap
/-!
# Offsets, spans and resume targets

The pure arithmetic of `ferrodruid-ingest-kafka/src/streaming.rs`: where a
partition is resumed on restart, where it is restored after a rebalance, and
how a target is pulled into the broker's watermark window.

Offsets and partition ids are `i64` and `i32` in the source. They are integers
here; the only place where the width shows is the saturating successor.
-/

namespace FerroDruid.Kafka

open Lib

/-- A partition of the topic. -/
abbrev Partition := ℤ

/-- `i64::MAX`, the last offset there is. -/
def i64Max : ℤ := 2 ^ 63 - 1

/-- `saturating_add(1)`. -/
def saturatingSucc (o : ℤ) : ℤ := min (o + 1) i64Max

/-- The offsets `[start, next)`. -/
structure OffsetSpan where
  start : ℤ
  next : ℤ
  deriving DecidableEq, Repr

/-- `o` lies in the span. -/
def OffsetSpan.Has (s : OffsetSpan) (o : ℤ) : Prop := s.start ≤ o ∧ o < s.next

instance (s : OffsetSpan) (o : ℤ) : Decidable (s.Has o) := inferInstanceAs (Decidable (_ ∧ _))

abbrev PartitionOffsets := HashMap Partition OffsetSpan

/-! ## Resume evidence -/

/-- What the durable segment set says about one partition. -/
structure PartitionResume where
  minStart : ℤ
  loaded : List OffsetSpan
  recreated : Bool
  deriving DecidableEq, Repr

/-- One step of the merge loop. The merged spans are kept last first, so that
the head is the source's `merged.last_mut()`. -/
def mergeSpan (merged : List OffsetSpan) (span : OffsetSpan) : List OffsetSpan :=
  if span.next ≤ span.start then merged
  else
    match merged with
    | prev :: rest =>
      if span.start ≤ prev.next then
        (if span.next > prev.next then { prev with next := span.next } else prev) :: rest
      else span :: prev :: rest
    | [] => [span]

/-- The sort key `(start, next)`. -/
def OffsetSpan.le (a b : OffsetSpan) : Prop := a.start < b.start ∨ a.start = b.start ∧ a.next ≤ b.next

instance : DecidableRel OffsetSpan.le := fun _ _ => inferInstanceAs (Decidable (_ ∨ _))

def PartitionResume.new (minStart : ℤ) (loaded : List OffsetSpan) : PartitionResume where
  minStart := minStart
  loaded := ((loaded.insertionSort OffsetSpan.le).foldl mergeSpan []).reverse
  recreated := false

def PartitionResume.markRecreated (r : PartitionResume) : PartitionResume := { r with recreated := true }

/-- The offsets the reloaded rows cover. -/
def PartitionResume.Covers (r : PartitionResume) (o : ℤ) : Prop := ∃ s ∈ r.loaded, s.Has o

/-- The evidence of every partition, with the verdict on the topic. -/
structure ResumeFrontier where
  partitions : HashMap Partition PartitionResume
  topicRecreated : Bool

/-- Under a detected recreation every listed partition gets an entry, floored
at the low watermark. -/
def ResumeFrontier.synthesizeRecreated (f : ResumeFrontier) (partitions : List Partition) : ResumeFrontier :=
  if f.topicRecreated then
    { f with
      partitions := partitions.foldl
        (fun m p => if p ∈ m then m else m.insert p (PartitionResume.new 0 []).markRecreated) f.partitions }
  else f

/-! ## Targets -/

/-- Walk forward through the coverage, up to the first hole. -/
def advanceContiguous (point : ℤ) : List OffsetSpan → ℤ
  | [] => point
  | span :: rest =>
    if span.next ≤ point then advanceContiguous point rest
    else if span.start ≤ point then advanceContiguous span.next rest
    else point

def resumeOffset (committed : Option ℤ) (resume : PartitionResume) : ℤ :=
  let point :=
    if resume.recreated then 0
    else
      match committed with
      | some c => min c resume.minStart
      | none => resume.minStart
  advanceContiguous point resume.loaded

/-- Out of the window in either direction, the low watermark. -/
def clampResumeTarget (target low high : ℤ) : ℤ :=
  if high < low then low
  else if target < low ∨ target > high then low
  else target

def recreatedResumeTarget (low high : ℤ) (resume : PartitionResume) : ℤ :=
  clampResumeTarget (advanceContiguous low resume.loaded) low high

def rebalanceRestoreTarget (committed : Option ℤ) (resumeFloor : ℤ) : ℤ :=
  match committed with
  | none => resumeFloor
  | some c => max c resumeFloor

def restoreTarget (committedUntrusted : Bool) (committed : Option ℤ) (resumeFloor : ℤ) : ℤ :=
  if committedUntrusted then resumeFloor else rebalanceRestoreTarget committed resumeFloor

def resumeSeekFailureIsSafe (committed : Option ℤ) (target : ℤ) : Bool := committed == some target

/-- The validated target, and whether the log was seen to end below it. -/
def resolveSeekTarget (recreation : Option PartitionResume) (resetFloor : Bool) (target low high : ℤ) :
    ℤ × Bool :=
  match recreation with
  | some resume => (recreatedResumeTarget low high resume, false)
  | none =>
    if resetFloor then (clampResumeTarget low low high, false)
    else (clampResumeTarget target low high, decide (target > high))

/-! ## What the walk and the clamp can return -/

theorem le_advanceContiguous (point : ℤ) (loaded : List OffsetSpan) :
    point ≤ advanceContiguous point loaded := by
  induction loaded generalizing point with
  | nil => exact le_rfl
  | cons span rest ih =>
    simp only [advanceContiguous]
    split_ifs with hb hs
    · exact ih point
    · have := ih span.next
      omega
    · exact le_rfl

/-- The walk passes over nothing but covered offsets. -/
theorem advanceContiguous_covers {point o : ℤ} {loaded : List OffsetSpan} (hp : point ≤ o)
    (ho : o < advanceContiguous point loaded) : ∃ s ∈ loaded, s.Has o := by
  induction loaded generalizing point with
  | nil =>
    simp only [advanceContiguous] at ho
    omega
  | cons span rest ih =>
    simp only [advanceContiguous] at ho
    split_ifs at ho with hb hs
    · obtain ⟨s, hm, h⟩ := ih hp ho
      exact ⟨s, List.mem_cons_of_mem _ hm, h⟩
    · by_cases hn : o < span.next
      · exact ⟨span, List.mem_cons_self, by unfold OffsetSpan.Has; omega⟩
      · obtain ⟨s, hm, h⟩ := ih (not_lt.1 hn) ho
        exact ⟨s, List.mem_cons_of_mem _ hm, h⟩
    · omega

/-- A clamped target is the target, inside the window, or the low watermark. -/
theorem clampResumeTarget_cases (target low high : ℤ) :
    clampResumeTarget target low high = low ∨
      clampResumeTarget target low high = target ∧ low ≤ target ∧ target ≤ high := by
  unfold clampResumeTarget
  split_ifs with hd hr
  · exact .inl rfl
  · exact .inl rfl
  · exact .inr ⟨rfl, by omega, by omega⟩

theorem clampResumeTarget_le {low high : ℤ} (target : ℤ) (h : low ≤ high) :
    clampResumeTarget target low high ≤ high := by
  rcases clampResumeTarget_cases target low high with he | ⟨he, -, hle⟩ <;> omega

theorem resolveSeekTarget_le {low high : ℤ} (h : low ≤ high) (recreation : Option PartitionResume)
    (resetFloor : Bool) (target : ℤ) :
    (resolveSeekTarget recreation resetFloor target low high).1 ≤ high := by
  unfold resolveSeekTarget recreatedResumeTarget
  cases recreation with
  | some resume => exact clampResumeTarget_le _ h
  | none => split_ifs <;> exact clampResumeTarget_le _ h

/-- A plain or floored target that was moved was moved to the low watermark. -/
theorem resolveSeekTarget_none (resetFloor : Bool) (target low high : ℤ) :
    (resolveSeekTarget none resetFloor target low high).1 = low ∨
      resetFloor = false ∧ (resolveSeekTarget none resetFloor target low high).1 = target := by
  cases resetFloor with
  | true => rcases clampResumeTarget_cases low low high with he | ⟨he, -, -⟩ <;> exact .inl he
  | false =>
    rcases clampResumeTarget_cases target low high with he | ⟨he, -, -⟩
    · exact .inl he
    · exact .inr ⟨rfl, he⟩

/-- A recreation floor passes over nothing but covered offsets. -/
theorem recreatedResumeTarget_covers {low high o : ℤ} {resume : PartitionResume} (hl : low ≤ o)
    (ho : o < recreatedResumeTarget low high resume) : resume.Covers o := by
  unfold recreatedResumeTarget at ho
  rcases clampResumeTarget_cases (advanceContiguous low resume.loaded) low high with he | ⟨he, -, -⟩
  · omega
  · rw [he] at ho
    exact advanceContiguous_covers hl ho

/-- Restoring to the floor, when the committed offset is not above it. -/
theorem restoreTarget_eq_floor {untrusted : Bool} {committed : Option ℤ} {floor : ℤ}
    (h : untrusted = false → ∀ c, committed = some c → c ≤ floor) :
    restoreTarget untrusted committed floor = floor := by
  cases untrusted with
  | true => rfl
  | false =>
    cases committed with
    | none => rfl
    | some c => exact max_eq_right (h rfl c rfl)

/-! ## What a synthesized entry adds -/

theorem lookup_synthesize_fold (ps : List Partition) (m : HashMap Partition PartitionResume) (q : Partition)
    {r : PartitionResume} (h : m.lookup q = some r) :
    (ps.foldl (fun m p => if p ∈ m then m else m.insert p (PartitionResume.new 0 []).markRecreated) m).lookup q =
      some r := by
  induction ps generalizing m with
  | nil => exact h
  | cons p ps ih =>
    refine ih _ ?_
    dsimp only
    split_ifs with hp
    · exact h
    · have hne : q ≠ p := by
        rintro rfl
        exact hp (AList.lookup_isSome.1 (by rw [h]; rfl))
      rw [AList.lookup_insert_ne hne, h]

/-- Existing entries are never touched. -/
theorem ResumeFrontier.lookup_synthesizeRecreated {f : ResumeFrontier} (ps : List Partition) {q : Partition}
    {r : PartitionResume} (h : f.partitions.lookup q = some r) :
    (f.synthesizeRecreated ps).partitions.lookup q = some r := by
  unfold ResumeFrontier.synthesizeRecreated
  split_ifs
  · exact lookup_synthesize_fold ps _ q h
  · exact h

end FerroDruid.Kafka
