import FerroDruid.Kinesis.Frontier
/-!
# A shard resumes after durable records only

An interval of folded spans has no record outside the spans, and the chain of
intervals leaves out no record that was consumed.
-/

namespace FerroDruid.Kinesis

open List

variable {records : List SeqNum} {consumed durable : SeqNum → Prop} {spans : List SeqSpan}

/-- What a span says of the records of its shard. -/
structure Faithful (records : List SeqNum) (consumed durable : SeqNum → Prop) (span : SeqSpan) : Prop where
  kept : ∀ r ∈ records, span.start ≤ r → r ≤ span.last → durable r
  anchored : span.prevLast = none → ∀ r, consumed r → ¬ r < span.start
  linked : ∀ p, span.prevLast = some p → ∀ r ∈ records, ¬ (p < r ∧ r < span.start)

/-- The number lies inside a span. -/
def Inside (spans : List SeqSpan) (r : SeqNum) : Prop := ∃ span ∈ spans, span.start ≤ r ∧ r ≤ span.last

/-- An interval has the start and the link of a span, and no record outside the spans. -/
structure Stands (records : List SeqNum) (spans : List SeqSpan) (interval : SeqSpan) : Prop where
  head : ∃ span ∈ spans, span.start = interval.start ∧ span.prevLast = interval.prevLast
  inside : ∀ r ∈ records, interval.start ≤ r → r ≤ interval.last → Inside spans r

variable {span : SeqSpan}

theorem Stands.of_mem (h : span ∈ spans) : Stands records spans span where
  head := ⟨span, h, rfl, rfl⟩
  inside _ _ hstart hlast := ⟨span, h, hstart, hlast⟩

/-- An interval stays one when it is extended by what overlaps or continues it. -/
theorem Stands.extend {prev : SeqSpan} (hprev : Stands records spans prev) (hspan : span ∈ spans)
    (hfaithful : Faithful records consumed durable span) (h : span.start ≤ prev.last ∨ span.prevLast = some prev.last) :
    Stands records spans { prev with last := span.last } where
  head := hprev.head
  inside r hr hstart hlast := by
    by_cases hbefore : r ≤ prev.last
    · exact hprev.inside r hr hstart hbefore
    · refine ⟨span, hspan, ?_, hlast⟩
      have hafter : prev.last < r := by
        rw [SeqNum.le_iff, not_le] at hbefore
        exact SeqNum.lt_iff.2 hbefore
      rcases h with hoverlap | hlink
      · rw [SeqNum.le_iff] at hoverlap ⊢
        rw [SeqNum.lt_iff] at hafter
        omega
      · have hnone := hfaithful.linked prev.last hlink r hr
        by_contra hnot
        rw [SeqNum.le_iff, not_le] at hnot
        exact hnone ⟨hafter, SeqNum.lt_iff.2 hnot⟩

theorem stands_pushSpan {merged : List SeqSpan} (hmerged : ∀ interval ∈ merged, Stands records spans interval)
    (hspan : span ∈ spans) (hfaithful : Faithful records consumed durable span) :
    ∀ interval ∈ pushSpan merged span, Stands records spans interval := by
  have hpush : ∀ interval ∈ merged ++ [span], Stands records spans interval := by
    simp only [mem_append, mem_singleton]
    rintro interval (h | rfl)
    · exact hmerged interval h
    · exact .of_mem hspan
  unfold pushSpan
  cases hlast : merged.getLast? with
  | none => exact hpush
  | some prev =>
    dsimp only
    split_ifs with hchain
    · have hprev := hmerged prev (mem_of_getLast? hlast)
      simp only [mem_append, mem_singleton]
      rintro interval (h | rfl)
      · exact hmerged interval (dropLast_subset _ h)
      · exact hprev.extend hspan hfaithful hchain
    · exact hmerged
    · exact hpush

/-- Folding keeps what the spans say. -/
theorem stands_foldSpans (hfaithful : ∀ span ∈ spans, Faithful records consumed durable span) :
    ∀ interval ∈ foldSpans spans, Stands records spans interval := by
  have hfold : ∀ (rest merged : List SeqSpan), (∀ span ∈ rest, span ∈ spans) → (∀ interval ∈ merged, Stands records spans interval) →
      ∀ interval ∈ rest.foldl pushSpan merged, Stands records spans interval := by
    intro rest
    induction rest with
    | nil => exact fun _ _ hmerged => hmerged
    | cons span rest ih =>
      intro merged hrest hmerged
      obtain ⟨hspan, hrest⟩ := forall_mem_cons.1 hrest
      exact ih _ hrest (stands_pushSpan hmerged hspan (hfaithful span hspan))
  refine hfold _ [] (fun span hspan => ?_) (fun _ h => absurd h not_mem_nil)
  exact (mem_filter.1 ((mem_insertionSort _).1 hspan)).1

/-- What was consumed up to a point lies inside the spans. -/
def Reached (consumed : SeqNum → Prop) (spans : List SeqSpan) (p : SeqNum) : Prop := ∀ r, consumed r → r ≤ p → Inside spans r

/-- A step of the walk passes no consumed record outside the spans. -/
theorem reached_advance (hconsumed : ∀ r, consumed r → r ∈ records) (hfaithful : ∀ span ∈ spans, Faithful records consumed durable span)
    {interval : SeqSpan} (hstands : Stands records spans interval) {point : Option SeqNum} (hpoint : ∀ p ∈ point, Reached consumed spans p)
    (hchains : ShardResume.chains point interval = true) : ∀ p ∈ ShardResume.advance point interval, Reached consumed spans p := by
  obtain ⟨head, hhead, hstart, hlink⟩ := hstands.head
  have hfaith := hfaithful head hhead
  cases point with
  | none =>
    -- consumption began with this interval
    intro p hp r hr hle
    obtain rfl : interval.last = p := by simpa [ShardResume.advance] using hp
    have hnone : interval.prevLast = none := by simpa [ShardResume.chains] using hchains
    refine hstands.inside r (hconsumed r hr) ?_ hle
    have hbelow := hfaith.anchored (hlink.trans hnone) r hr
    rw [hstart, SeqNum.lt_iff, not_lt] at hbelow
    exact SeqNum.le_iff.2 hbelow
  | some p =>
    have hp := hpoint p rfl
    have hreached : Reached consumed spans interval.last := by
      intro r hr hle
      by_cases hbefore : r ≤ p
      · exact hp r hr hbefore
      · rw [SeqNum.le_iff, not_le] at hbefore
        refine hstands.inside r (hconsumed r hr) ?_ hle
        simp only [ShardResume.chains, Bool.decide_or, Bool.or_eq_true, decide_eq_true_eq] at hchains
        rcases hchains with hprev | hoverlap
        · have hbetween := hfaith.linked p (hlink.trans hprev) r (hconsumed r hr)
          by_contra hnot
          rw [← hstart, SeqNum.le_iff, not_le] at hnot
          exact hbetween ⟨SeqNum.lt_iff.2 hbefore, SeqNum.lt_iff.2 hnot⟩
        · rw [SeqNum.le_iff] at hoverlap ⊢
          omega
    intro p' hp'
    unfold ShardResume.advance at hp'
    dsimp only at hp'
    split_ifs at hp' with hlt
    · cases hp'
      exact hreached
    · cases hp'
      exact hp

theorem reached_walk (hconsumed : ∀ r, consumed r → r ∈ records) (hfaithful : ∀ span ∈ spans, Faithful records consumed durable span)
    {intervals : List SeqSpan} (hintervals : ∀ interval ∈ intervals, Stands records spans interval) {point : Option SeqNum}
    (hpoint : ∀ p ∈ point, Reached consumed spans p) : ∀ p ∈ ShardResume.walk point intervals, Reached consumed spans p := by
  induction intervals generalizing point with
  | nil => exact hpoint
  | cons interval intervals ih =>
    obtain ⟨hinterval, hintervals⟩ := forall_mem_cons.1 hintervals
    unfold ShardResume.walk
    split_ifs with hchains
    · exact ih hintervals (reached_advance hconsumed hfaithful hinterval hpoint hchains)
    · exact hpoint

/-- A shard that resumes after a number has every record consumed up to it in a span,
so it passes no record that is not durable. -/
theorem resumeStartPosition_covers (hconsumed : ∀ r, consumed r → r ∈ records)
    (hfaithful : ∀ span ∈ spans, Faithful records consumed durable span) (shardId : String) {p : SeqNum}
    (h : (ShardResume.new shardId spans).resumeStartPosition = .afterSequenceNumber p) {r : SeqNum} (hr : consumed r)
    (hle : r.value ≤ p.value) : (∃ span ∈ spans, span.start.value ≤ r.value ∧ r.value ≤ span.last.value) ∧ durable r := by
  have hwalk : ShardResume.walk none (foldSpans spans) = some p := by
    unfold ShardResume.resumeStartPosition ShardResume.new at h
    cases hpoint : ShardResume.walk none (foldSpans spans) with
    | none =>
      rw [hpoint] at h
      cases h
    | some q =>
      rw [hpoint] at h
      cases h
      rfl
  obtain ⟨span, hspan, hstart, hlast⟩ := reached_walk hconsumed hfaithful (stands_foldSpans hfaithful)
    (fun q hq => absurd hq (Option.not_mem_none q)) p hwalk r hr (SeqNum.le_iff.2 hle)
  exact ⟨⟨span, hspan, SeqNum.le_iff.1 hstart, SeqNum.le_iff.1 hlast⟩, (hfaithful span hspan).kept r (hconsumed r hr) hstart hlast⟩

/-! ## Two rolls of a shard -/

def seqOne : SeqNum := ⟨[0x31], ⟨by simp [Lib.isDigit], .inr ⟨0x31, [], rfl, by decide⟩⟩⟩

def seqTwo : SeqNum := ⟨[0x32], ⟨by simp [Lib.isDigit], .inr ⟨0x32, [], rfl, by decide⟩⟩⟩

def seqTen : SeqNum := ⟨[0x31, 0x30], ⟨by simp [Lib.isDigit], .inr ⟨0x31, [0x30], rfl, by decide⟩⟩⟩

/-- The first roll covers 1 and 2, the second 10; the later one is listed first. -/
def twoRolls : List SeqSpan := [⟨seqTen, seqTen, some seqTwo⟩, ⟨seqOne, seqTwo, none⟩]

theorem resumeStartPosition_covers_two : (∃ span ∈ twoRolls, span.start.value ≤ seqTwo.value ∧ seqTwo.value ≤ span.last.value) ∧
    seqTwo ∈ [seqOne, seqTwo, seqTen] := by
  have hfaithful : ∀ span ∈ twoRolls, Faithful [seqOne, seqTwo, seqTen] (· ∈ [seqOne, seqTwo, seqTen]) (· ∈ [seqOne, seqTwo, seqTen]) span := by
    intro span hspan
    refine ⟨fun r hr _ _ => hr, ?_, ?_⟩
    · revert span
      decide
    · revert span
      decide
  exact resumeStartPosition_covers (fun _ hr => hr) hfaithful "shard" (show (ShardResume.new "shard" twoRolls).resumeStartPosition =
    .afterSequenceNumber seqTen by decide) (by decide) (by decide)

end FerroDruid.Kinesis
