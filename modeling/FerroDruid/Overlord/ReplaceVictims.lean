import FerroDruid.Overlord.ReplaceScope
/-!
# What a replace retires

The window of a replace against the buckets of its granularity, and its victims
against the buckets that have a new row.

The window goes from the first bucket to the last one: where no new row is in a
bucket between them, what was there is retired and nothing replaces it.
-/

namespace FerroDruid.Overlord

open Lib Calendar List

/-! ## Buckets -/

namespace SegmentGranularity

/-- All of time is one bucket that starts nowhere. -/
def buckets : SegmentGranularity → Option Buckets
  | all => none
  | fixed millis anchor pos => some (.fixed anchor millis pos)
  | month => some (.months 1 Int.one_pos)
  | quarter => some (.months 3 (by decide))
  | year => some (.months 12 (by decide))

variable (g : SegmentGranularity)

/-- Where the bucket of an instant starts and stops, as far as `i64` goes. -/
def bucketStart (t : ℤ) : ℤ :=
  match g.buckets with
  | none => -2 ^ 63
  | some b => max (-2 ^ 63) (b.start (b.index t))

def bucketStop (t : ℤ) : ℤ :=
  match g.buckets with
  | none => 2 ^ 63 - 1
  | some b => min (2 ^ 63 - 1) (b.start (b.index t + 1))

def SameBucket (s t : ℤ) : Prop := ∀ b ∈ g.buckets, b.index s = b.index t

/-- From the bucket of one instant to that of another. -/
def InSpan (lo hi t : ℤ) : Prop := ∀ b ∈ g.buckets, b.index lo ≤ b.index t ∧ b.index t ≤ b.index hi

end SegmentGranularity

/-! ## Rows -/

/-- The first and the last timestamp of the rows to ingest, as `ferrodruid-ingest-batch`
finds them; without rows it fails. -/
def dataBounds (rows : List Int64) : Option (Int64 × Int64) :=
  let parsed := rows.mergeSort
  match parsed.head?, parsed.getLast? with
  | some minTs, some maxTs => some (minTs, maxTs)
  | _, _ => none

theorem dataBounds_spec {rows : List Int64} {bounds : Int64 × Int64} (h : dataBounds rows = some bounds) :
    bounds.1 ∈ rows ∧ bounds.2 ∈ rows ∧ ∀ t ∈ rows, bounds.1 ≤ t ∧ t ≤ bounds.2 := by
  have hsorted : rows.mergeSort.Pairwise (· ≤ ·) := by
    have hpairwise := @List.pairwise_mergeSort Int64 (fun a b => decide (a ≤ b)) (fun a b c hab hbc => ?_) (fun a b => ?_) rows
    · exact hpairwise.imp of_decide_eq_true
    · exact decide_eq_true (Int64.le_trans (of_decide_eq_true hab) (of_decide_eq_true hbc))
    · simpa using Int64.le_total a b
  unfold dataBounds at h
  dsimp only at h
  split at h
  · rename_i minTs maxTs hhead hlast
    cases h
    have hmem : ∀ t, t ∈ rows.mergeSort ↔ t ∈ rows := fun t => mem_mergeSort
    obtain ⟨rest, hrest⟩ := head?_eq_some_iff.1 hhead
    obtain ⟨init, hinit⟩ := getLast?_eq_some_iff.1 hlast
    refine ⟨(hmem _).1 (mem_of_head? hhead), (hmem _).1 (mem_of_getLast? hlast), fun t ht => ⟨?_, ?_⟩⟩
    · rw [hrest, pairwise_cons] at hsorted
      rw [← hmem, hrest] at ht
      rcases mem_cons.1 ht with rfl | hlater
      · exact Int64.le_refl _
      · exact hsorted.1 t hlater
    · rw [hinit, pairwise_append] at hsorted
      rw [← hmem, hinit] at ht
      rcases mem_append.1 ht with hearlier | hlast'
      · exact hsorted.2.2 t hearlier maxTs (mem_singleton_self _)
      · rw [mem_singleton.1 hlast']
        exact Int64.le_refl _
  · cases h

/-- An instant of a bucket that has a new row. -/
def Written (g : SegmentGranularity) (rows : List Int64) (t : ℤ) : Prop := ∃ row ∈ rows, g.SameBucket row.toInt t

/-- An instant between the first and the last bucket, of one without a new row. -/
def InGap (g : SegmentGranularity) (rows : List Int64) (t : ℤ) : Prop :=
  (∃ first ∈ rows, ∃ last ∈ rows, g.InSpan first.toInt last.toInt t) ∧ ¬ Written g rows t

/-! ## Segments -/

section

variable (chrono : Chrono) (g : SegmentGranularity) (rows : List Int64)

/-- The stored interval of a segment. -/
def HasInterval (seg : SegmentMetadataRow) (start stop : Int64) : Prop :=
  parseIntervalBoundMillis chrono seg.start = .ok start ∧ parseIntervalBoundMillis chrono seg.stop = .ok stop

def Covers (seg : SegmentMetadataRow) (t : Int64) : Prop := ∃ start stop, HasInterval chrono seg start stop ∧ start ≤ t ∧ t < stop

/-- What is retired is what overlaps a bucket with a new row, and is in such buckets only. -/
structure RetiresWritten (used : List SegmentMetadataRow) (newSegmentId : String) (victims : List SegmentMetadataRow) : Prop where
  exact : ∀ seg, seg ∈ victims ↔ seg ∈ used ∧ seg.id ≠ newSegmentId ∧ ∃ t, Covers chrono seg t ∧ Written g rows t.toInt
  contained : ∀ seg ∈ victims, ∀ t, Covers chrono seg t → Written g rows t.toInt

/-- The window is made of buckets, as far as `i64` goes, and has every new row. -/
structure WindowFits (bounds scope : Int64 × Int64) : Prop where
  start : scope.1.toInt = g.bucketStart bounds.1.toInt
  stop : scope.2.toInt = g.bucketStop bounds.2.toInt
  rows : ∀ t ∈ rows, scope.1 ≤ t ∧ t < scope.2

/-- The span of the new rows' buckets, against two ends in any order. -/
def Reaches (start stop : Int64) : Prop :=
  start ≠ .maxValue ∧ stop ≠ .minValue ∧
    ∀ b ∈ g.buckets, (∃ first ∈ rows, b.index first.toInt ≤ b.index (stop.toInt - 1)) ∧ ∃ last ∈ rows, b.index start.toInt ≤ b.index last.toInt

/-- No segment covers an instant of a gap, and none without instants is within the span. -/
def GapsUncovered (used : List SegmentMetadataRow) (newSegmentId : String) : Prop :=
  ∀ seg ∈ used, seg.id ≠ newSegmentId → ∀ start stop, HasInterval chrono seg start stop →
    (∀ t, start ≤ t → t < stop → ¬ InGap g rows t.toInt) ∧ (stop ≤ start → ¬ Reaches g rows start stop)

end

/-! ## The window -/

theorem toInt_clampMillisI64 (v : ℤ) : (clampMillisI64 v).toInt = max (-2 ^ 63) (min v (2 ^ 63 - 1)) :=
  Int64.toInt_ofInt_of_le (by omega) (by omega)

section

variable {chrono : Chrono} (h : LawfulChrono chrono)
include h

variable {year month0 : ℤ}

theorem monthOf_yearMonth0 {ts : Int64} (hread : yearMonth0 chrono ts = .ok (year, month0)) :
    12 * year + month0 = monthOfMillis ts.toInt ∧ 0 ≤ month0 ∧ month0 < 12 := by
  unfold yearMonth0 at hread
  split at hread
  · rename_i f hfields
    cases hread
    obtain rfl := h.fields ts f hfields
    have hindex := monthIndex_fields ts.toInt
    have hmonth := (valid_fields ts.toInt).month
    unfold Fields.monthIndex at hindex
    omega
  · cases hread

theorem ymStartMillis_spec {t : Int64} (hstart : ymStartMillis chrono year month0 = .ok t) :
    t.toInt = monthMillis (12 * year + month0) := by
  unfold ymStartMillis at hstart
  split at hstart
  · rename_i midnight hmidnight
    cases hstart
    rw [h.midnight _ _ _ hmidnight]
    congr 1
    omega
  · cases hstart

/-- A window of buckets of so many months. -/
theorem months_window {n : ℤ} (pos : 0 < n) {year' month0' lo hi : ℤ} {scope : Int64 × Int64}
    (hfirst : 12 * year + month0 = monthOfMillis lo / n * n) (hlast : 12 * year' + month0' = (monthOfMillis hi / n + 1) * n)
    (hscope : (do .ok (← ymStartMillis chrono year month0, ← ymStartMillis chrono year' month0') : Except ReplaceError (Int64 × Int64)) = .ok scope) :
    let b := Buckets.months n pos
    scope.1.toInt = max (-2 ^ 63) (b.start (b.index lo)) ∧ scope.2.toInt = min (2 ^ 63 - 1) (b.start (b.index hi + 1)) := by
  obtain ⟨start, hstart, hscope⟩ := bind_eq_ok.1 hscope
  obtain ⟨stop, hstop, hscope⟩ := bind_eq_ok.1 hscope
  cases hscope
  have hstart' := ymStartMillis_spec h hstart
  have hstop' := ymStartMillis_spec h hstop
  have hlow := start.le_toInt
  have hhigh := stop.toInt_lt
  rw [hfirst] at hstart'
  rw [hlast] at hstop'
  simp only [Buckets.months, ← hstart', ← hstop']
  omega

/-- The window starts where the first row's bucket does, and stops where the last
row's bucket does. -/
theorem replaceScope_spec {g : SegmentGranularity} {minTs maxTs : Int64} {scope : Int64 × Int64}
    (hscope : replaceScope chrono g minTs maxTs = .ok scope) :
      scope.1.toInt = g.bucketStart minTs.toInt ∧ scope.2.toInt = g.bucketStop maxTs.toInt := by
  unfold SegmentGranularity.bucketStart SegmentGranularity.bucketStop
  cases g with
  | all =>
    cases hscope
    exact ⟨rfl, rfl⟩
  | fixed millis anchor pos =>
    cases hscope
    have hfirst : anchor + (minTs.toInt - anchor) / millis * millis ≤ minTs.toInt := (Buckets.fixed anchor millis pos).start_index_le _
    have hlast : maxTs.toInt < anchor + ((maxTs.toInt - anchor) / millis + 1) * millis := (Buckets.fixed anchor millis pos).lt_start_succ _
    have hlow := maxTs.le_toInt
    have hhigh := minTs.toInt_lt
    simp only [toInt_clampMillisI64, SegmentGranularity.buckets, Buckets.fixed]
    rw [Int.add_mul, one_mul] at hlast ⊢
    omega
  | month | quarter | year =>
    obtain ⟨⟨ys, ms⟩, hfirst, hscope⟩ := bind_eq_ok.1 hscope
    obtain ⟨⟨ye, me⟩, hlast, hscope⟩ := bind_eq_ok.1 hscope
    have hfirst' := monthOf_yearMonth0 h hfirst
    have hlast' := monthOf_yearMonth0 h hlast
    exact months_window h _ (by omega) (by omega) hscope

end

section

variable {g : SegmentGranularity} {rows : List Int64} {bounds : Int64 × Int64} (hbounds : dataBounds rows = some bounds)
include hbounds

theorem windowFits_iff {chrono : Chrono} (h : LawfulChrono chrono) {scope : Int64 × Int64}
    (hscope : replaceScope chrono g bounds.1 bounds.2 = .ok scope) : WindowFits g rows bounds scope ↔ .maxValue ∉ rows := by
  obtain ⟨hstart, hstop⟩ := replaceScope_spec h hscope
  obtain ⟨-, -, hrows⟩ := dataBounds_spec hbounds
  constructor
  · intro hfits hmax
    have hlt := Int64.lt_iff_toInt_lt.1 (hfits.rows _ hmax).2
    exact absurd scope.2.toInt_le (not_le.2 hlt)
  · intro hmax
    refine ⟨hstart, hstop, fun t ht => ?_⟩
    obtain ⟨hlow, hhigh⟩ := hrows t ht
    have hne : t ≠ .maxValue := fun heq => hmax (heq ▸ ht)
    rw [← Int64.toInt_inj.ne, Int64.toInt_maxValue] at hne
    have htlow := t.le_toInt
    have hthigh := t.toInt_lt
    rw [Int64.le_iff_toInt_le] at hlow hhigh
    rw [Int64.le_iff_toInt_le, Int64.lt_iff_toInt_lt, hstart, hstop]
    unfold SegmentGranularity.bucketStart SegmentGranularity.bucketStop
    cases g.buckets with
    | none =>
      dsimp only
      omega
    | some b =>
      have hfirst := b.start_index_le bounds.1.toInt
      have hlast := b.lt_start_succ bounds.2.toInt
      dsimp only
      omega

/-- The window reaches what the span of the rows' buckets does. -/
theorem reaches_iff {chrono : Chrono} (h : LawfulChrono chrono) {scope : Int64 × Int64} (hscope : replaceScope chrono g bounds.1 bounds.2 = .ok scope)
    (start stop : Int64) : start < scope.2 ∧ scope.1 < stop ↔ Reaches g rows start stop := by
  obtain ⟨hfrom, hto⟩ := replaceScope_spec h hscope
  obtain ⟨hfirst, hlast, hrows⟩ := dataBounds_spec hbounds
  have hmax : start ≠ .maxValue ↔ start.toInt ≠ 2 ^ 63 - 1 := not_congr Int64.toInt_inj.symm
  have hmin : stop ≠ .minValue ↔ stop.toInt ≠ -2 ^ 63 := not_congr Int64.toInt_inj.symm
  have hstartHigh := start.toInt_lt
  have hstopLow := stop.le_toInt
  rw [Int64.lt_iff_toInt_lt, Int64.lt_iff_toInt_lt, hfrom, hto, Reaches, hmax, hmin]
  unfold SegmentGranularity.bucketStart SegmentGranularity.bucketStop
  cases g.buckets with
  | none =>
    simp only [Option.mem_def, reduceCtorEq, false_implies, implies_true, and_true]
    omega
  | some b =>
    simp only [Option.mem_def, Option.some.injEq, forall_eq']
    have hlow : (∃ first ∈ rows, b.index first.toInt ≤ b.index (stop.toInt - 1)) ↔ b.index bounds.1.toInt ≤ b.index (stop.toInt - 1) :=
      ⟨fun ⟨first, hmem, hle⟩ => (b.index_mono (Int64.le_iff_toInt_le.1 (hrows first hmem).1)).trans hle, fun hle => ⟨_, hfirst, hle⟩⟩
    have hhigh : (∃ last ∈ rows, b.index start.toInt ≤ b.index last.toInt) ↔ b.index start.toInt ≤ b.index bounds.2.toInt :=
      ⟨fun ⟨last, hmem, hle⟩ => hle.trans (b.index_mono (Int64.le_iff_toInt_le.1 (hrows last hmem).2)), fun hle => ⟨_, hlast, hle⟩⟩
    rw [hlow, hhigh, ← b.start_le_iff, ← Int.lt_add_one_iff (a := b.index start.toInt), ← b.lt_start_iff]
    omega

end

/-! ## The victims -/

section

variable {α : Type} {P : α → Prop} {a : α} {items kept : List α} (h : ∀ x, x ∈ kept ↔ x ∈ items ∧ P x)
include h

theorem mem_skip (ha : ¬ P a) (x : α) : x ∈ kept ↔ x ∈ a :: items ∧ P x := by
  rw [h x, mem_cons]
  refine and_congr_left fun hx => (or_iff_right ?_).symm
  rintro rfl
  exact ha hx

theorem mem_keep (ha : P a) (x : α) : x ∈ a :: kept ↔ x ∈ a :: items ∧ P x := by
  rw [mem_cons, mem_cons, h x, or_and_right]
  refine or_congr_left ⟨fun hx => ⟨hx, ?_⟩, And.left⟩
  rw [hx]
  exact ha

end

theorem HasInterval.unique {chrono : Chrono} {seg : SegmentMetadataRow} {start stop start' stop' : Int64} (h : HasInterval chrono seg start stop)
    (h' : HasInterval chrono seg start' stop') : start = start' ∧ stop = stop' :=
  ⟨Except.ok.inj (h.1.symm.trans h'.1), Except.ok.inj (h.2.symm.trans h'.2)⟩

/-- A plan that succeeds has read every segment, and none of them reaches out of the window. -/
theorem planVictims_spec {chrono : Chrono} {scope : Int64 × Int64} {newSegmentId : String} {used victims : List SegmentMetadataRow}
    (hplan : planVictims chrono scope newSegmentId used = .ok victims) :
    (∀ seg ∈ used, seg.id ≠ newSegmentId → ∃ start stop, HasInterval chrono seg start stop ∧
      (start < scope.2 ∧ scope.1 < stop → scope.1 ≤ start ∧ stop ≤ scope.2)) ∧
    ∀ seg, seg ∈ victims ↔ seg ∈ used ∧ seg.id ≠ newSegmentId ∧ ∃ start stop, HasInterval chrono seg start stop ∧ start < scope.2 ∧ scope.1 < stop := by
  induction used generalizing victims with
  | nil =>
    cases hplan
    exact ⟨nofun, by simp⟩
  | cons seg used ih =>
    unfold planVictims at hplan
    split_ifs at hplan with hid
    · obtain ⟨hread, hvictims⟩ := ih hplan
      exact ⟨forall_mem_cons.2 ⟨fun hne => absurd hid hne, hread⟩, mem_skip hvictims fun hsel => hsel.1 hid⟩
    · split at hplan
      · cases hplan
      · rename_i start hstart
        split at hplan
        · cases hplan
        · rename_i stop hstop
          split_ifs at hplan with haway hbeyond
          · obtain ⟨hread, hvictims⟩ := ih hplan
            have hnot : ¬ (start < scope.2 ∧ scope.1 < stop) := by
              rw [← Int64.not_le, ← Int64.not_le, ← not_or]
              exact not_not.2 haway
            refine ⟨forall_mem_cons.2 ⟨fun _ => ⟨start, stop, ⟨hstart, hstop⟩, fun hmeet => absurd hmeet hnot⟩, hread⟩, mem_skip hvictims ?_⟩
            rintro ⟨-, start', stop', hother, hmeet⟩
            obtain ⟨rfl, rfl⟩ := hother.unique ⟨hstart, hstop⟩
            exact hnot hmeet
          · cases hrest : planVictims chrono scope newSegmentId used with
            | error e =>
              rw [hrest] at hplan
              cases hplan
            | ok rest =>
              rw [hrest] at hplan
              obtain rfl := Except.ok.inj hplan
              obtain ⟨hread, hvictims⟩ := ih hrest
              rw [not_or, Int64.not_le, Int64.not_le] at haway
              rw [not_or, Int64.not_lt, Int64.not_lt] at hbeyond
              exact ⟨forall_mem_cons.2 ⟨fun _ => ⟨start, stop, ⟨hstart, hstop⟩, fun _ => hbeyond⟩, hread⟩,
                mem_keep hvictims ⟨hid, start, stop, ⟨hstart, hstop⟩, haway⟩⟩

section

variable {chrono : Chrono} (h : LawfulChrono chrono) {g : SegmentGranularity} {rows : List Int64} {bounds : Int64 × Int64}
  (hbounds : dataBounds rows = some bounds)
include hbounds

theorem inSpan_of_rows {first last : Int64} (hfirst : first ∈ rows) (hlast : last ∈ rows) {t : ℤ} (hspan : g.InSpan first.toInt last.toInt t) :
    g.InSpan bounds.1.toInt bounds.2.toInt t := by
  obtain ⟨-, -, hrows⟩ := dataBounds_spec hbounds
  intro b hb
  obtain ⟨hlow, hhigh⟩ := hspan b hb
  exact ⟨(b.index_mono (Int64.le_iff_toInt_le.1 (hrows first hfirst).1)).trans hlow,
    hhigh.trans (b.index_mono (Int64.le_iff_toInt_le.1 (hrows last hlast).2))⟩

theorem inSpan_of_written {t : ℤ} (hwritten : Written g rows t) : g.InSpan bounds.1.toInt bounds.2.toInt t := by
  obtain ⟨row, hrow, hsame⟩ := hwritten
  exact inSpan_of_rows hbounds hrow hrow fun b hb => ⟨(hsame b hb).le, (hsame b hb).ge⟩

/-- What has an instant of the span is reached. -/
theorem reaches_of_inSpan {start stop t : Int64} (hstart : start ≤ t) (hstop : t < stop) (hspan : g.InSpan bounds.1.toInt bounds.2.toInt t.toInt) :
    Reaches g rows start stop := by
  obtain ⟨hfirst, hlast, -⟩ := dataBounds_spec hbounds
  rw [Int64.le_iff_toInt_le] at hstart
  rw [Int64.lt_iff_toInt_lt] at hstop
  refine ⟨?_, ?_, fun b hb => ⟨⟨_, hfirst, (hspan b hb).1.trans (b.index_mono (by omega))⟩, _, hlast, (b.index_mono hstart).trans (hspan b hb).2⟩⟩
  · rintro rfl
    have hhigh' := stop.toInt_le
    omega
  · rintro rfl
    have hlow := t.le_toInt
    rw [Int64.toInt_minValue] at hstop
    omega

include h

omit hbounds in
/-- What is in the window is of the span. -/
theorem inSpan_of_scope {scope : Int64 × Int64} (hscope : replaceScope chrono g bounds.1 bounds.2 = .ok scope) {t : Int64} (hlow : scope.1 ≤ t)
    (hhigh : t < scope.2) : g.InSpan bounds.1.toInt bounds.2.toInt t.toInt := by
  obtain ⟨hfrom, hto⟩ := replaceScope_spec h hscope
  rw [Int64.le_iff_toInt_le, hfrom] at hlow
  rw [Int64.lt_iff_toInt_lt, hto] at hhigh
  intro b hb
  unfold SegmentGranularity.bucketStart at hlow
  unfold SegmentGranularity.bucketStop at hhigh
  rw [Option.mem_def.1 hb] at hlow hhigh
  rw [← b.start_le_iff, ← Int.lt_add_one_iff (a := b.index t.toInt), ← b.lt_start_iff]
  dsimp only at hlow hhigh
  omega

theorem retiresWritten_iff {scope : Int64 × Int64} (hscope : replaceScope chrono g bounds.1 bounds.2 = .ok scope)
    {used victims : List SegmentMetadataRow}
    {newSegmentId : String} (hplan : planVictims chrono scope newSegmentId used = .ok victims) :
    RetiresWritten chrono g rows used newSegmentId victims ↔ GapsUncovered chrono g rows used newSegmentId := by
  obtain ⟨hread, hvictims⟩ := planVictims_spec hplan
  have hreaches := reaches_iff hbounds h hscope
  obtain ⟨hfirst, hlast, -⟩ := dataBounds_spec hbounds
  constructor
  · intro hretires seg hseg hid start stop hinterval
    have hvictim : Reaches g rows start stop → seg ∈ victims := fun hmeet =>
      (hvictims seg).2 ⟨hseg, hid, start, stop, hinterval, (hreaches start stop).2 hmeet⟩
    refine ⟨fun t hstart hstop hgap => ?_, fun hempty hmeet => ?_⟩
    · obtain ⟨⟨first, hfirst', last, hlast', hspan⟩, hunwritten⟩ := hgap
      have hmeet := reaches_of_inSpan hbounds hstart hstop (inSpan_of_rows hbounds hfirst' hlast' hspan)
      exact hunwritten (hretires.contained seg (hvictim hmeet) t ⟨start, stop, hinterval, hstart, hstop⟩)
    · obtain ⟨-, -, t, ⟨start', stop', hother, hstart, hstop⟩, -⟩ := (hretires.exact seg).1 (hvictim hmeet)
      obtain ⟨rfl, rfl⟩ := hother.unique hinterval
      exact absurd (Int64.lt_of_le_of_lt hstart hstop) (Int64.not_lt.2 hempty)
  · intro hgaps
    have hcontained : ∀ seg ∈ victims, ∀ t, Covers chrono seg t → Written g rows t.toInt := by
      rintro seg hvictim t ⟨start, stop, hinterval, hstart, hstop⟩
      obtain ⟨hseg, hid, start', stop', hother, hmeet⟩ := (hvictims seg).1 hvictim
      obtain ⟨rfl, rfl⟩ := hother.unique hinterval
      obtain ⟨start'', stop'', hwithin, hin⟩ := hread seg hseg hid
      obtain ⟨rfl, rfl⟩ := hwithin.unique hinterval
      obtain ⟨hlow, hhigh⟩ := hin hmeet
      by_contra hunwritten
      have hspan := inSpan_of_scope h hscope (Int64.le_trans hlow hstart) (Int64.lt_of_lt_of_le hstop hhigh)
      exact (hgaps seg hseg hid _ _ hinterval).1 t hstart hstop ⟨⟨_, hfirst, _, hlast, hspan⟩, hunwritten⟩
    refine ⟨fun seg => ⟨fun hvictim => ?_, ?_⟩, hcontained⟩
    · obtain ⟨hseg, hid, start, stop, hinterval, hmeet⟩ := (hvictims seg).1 hvictim
      have hlt : start < stop := by
        by_contra hempty
        exact (hgaps seg hseg hid _ _ hinterval).2 (Int64.not_lt.1 hempty) ((hreaches _ _).1 hmeet)
      have hcovers : Covers chrono seg start := ⟨start, stop, hinterval, Int64.le_refl _, hlt⟩
      exact ⟨hseg, hid, start, hcovers, hcontained seg hvictim start hcovers⟩
    · rintro ⟨hseg, hid, t, ⟨start, stop, hinterval, hstart, hstop⟩, hwritten⟩
      exact (hvictims seg).2 ⟨hseg, hid, start, stop, hinterval,
        (hreaches start stop).2 (reaches_of_inSpan hbounds hstart hstop (inSpan_of_written hbounds hwritten))⟩

/-- The window of a replace fits if and only if no row is at the last instant, and
what it retires is of the buckets that it writes if and only if no segment covers a gap. -/
theorem replace_touches_written_buckets {segmentGranularity : Option Json} (hg : parseSegmentGranularity segmentGranularity = .ok g)
    (usedSegments : List SegmentMetadataRow) (dsName newSegmentId : String) :
    (∀ scope, replaceScope chrono g bounds.1 bounds.2 = .ok scope → (WindowFits g rows bounds scope ↔ .maxValue ∉ rows)) ∧
    ∀ victims, planReplaceVictims chrono usedSegments dsName segmentGranularity bounds newSegmentId = .ok victims →
      (RetiresWritten chrono g rows (usedSegments.filter (·.dataSource = dsName)) newSegmentId victims ↔
        GapsUncovered chrono g rows (usedSegments.filter (·.dataSource = dsName)) newSegmentId) := by
  refine ⟨fun scope hscope => windowFits_iff hbounds h hscope, fun victims hplan => ?_⟩
  obtain ⟨g', hg', hplan⟩ := bind_eq_ok.1 hplan
  obtain ⟨scope, hscope, hplan⟩ := bind_eq_ok.1 hplan
  obtain rfl := Except.ok.inj (hg'.symm.trans hg)
  exact retiresWritten_iff h hbounds hscope hplan

end

theorem dataBounds_pair : dataBounds [0, 172800000] = some (0, 172800000) := by
  have hsorted : [0, 172800000].mergeSort = ([0, 172800000] : List Int64) := mergeSort_of_pairwise (by decide)
  unfold dataBounds
  rw [hsorted]
  rfl

/-- A segment of one day. -/
def daySegment (id : String) (start : Int64) : SegmentMetadataRow :=
  ⟨id, "wiki", formatEpochMillisIso gregorian start, formatEpochMillisIso gregorian (start + 86400000)⟩

def secondDay : SegmentMetadataRow := daySegment "day2" 86400000

def thirdDay : SegmentMetadataRow := daySegment "day3" 172800000

theorem hasInterval_secondDay : HasInterval gregorian secondDay 86400000 172800000 :=
  ⟨parse_format lawful_gregorian (t := 86400000) (by decide), parse_format lawful_gregorian (t := 172800000) (by decide)⟩

theorem hasInterval_thirdDay : HasInterval gregorian thirdDay 172800000 259200000 :=
  ⟨parse_format lawful_gregorian (t := 172800000) (by decide), parse_format lawful_gregorian (t := 259200000) (by decide)⟩

/-- Rows of the first and the third day replace what is there of the third day. -/
theorem day_window_fits : WindowFits daily [0, 172800000] (0, 172800000) (0, 259200000) ∧
    planReplaceVictims gregorian [thirdDay] "wiki" none (0, 172800000) "new" = .ok [thirdDay] ∧
    RetiresWritten gregorian daily [0, 172800000] [thirdDay] "new" [thirdDay] := by
  obtain ⟨hfits, hretires⟩ := replace_touches_written_buckets lawful_gregorian dataBounds_pair (rfl : parseSegmentGranularity none = .ok daily)
    [thirdDay] "wiki" "new"
  have hplan : planReplaceVictims gregorian [thirdDay] "wiki" none (0, 172800000) "new" = .ok [thirdDay] := by
    unfold planReplaceVictims
    unfold planVictims
    rfl
  refine ⟨(hfits _ rfl).2 (by decide), hplan, (hretires _ hplan).2 fun seg hseg _ start stop hinterval => ?_⟩
  obtain rfl := mem_singleton.1 hseg
  obtain ⟨rfl, rfl⟩ := hinterval.unique hasInterval_thirdDay
  refine ⟨fun t hstart hstop hgap => hgap.2 ⟨172800000, by decide, fun b hb => ?_⟩, fun hle => absurd hle (by decide)⟩
  obtain rfl := Option.some.inj hb
  rw [Int64.le_iff_toInt_le] at hstart
  rw [Int64.lt_iff_toInt_lt] at hstop
  show ((172800000 : Int64).toInt - 0) / 86400000 = (t.toInt - 0) / 86400000
  have hlow : (172800000 : Int64).toInt = 172800000 := rfl
  have hhigh : (259200000 : Int64).toInt = 259200000 := rfl
  omega

/-- Rows of the first and the third day retire the second day. -/
theorem gap_is_retired :
    planReplaceVictims gregorian [secondDay] "wiki" none (0, 172800000) "new" = .ok [secondDay] ∧
    ¬ RetiresWritten gregorian daily [0, 172800000] [secondDay] "new" [secondDay] := by
  constructor
  · unfold planReplaceVictims
    rfl
  · intro hretires
    have hcovers : Covers gregorian secondDay 86400000 := ⟨_, _, hasInterval_secondDay, by decide, by decide⟩
    obtain ⟨row, hrow, hsame⟩ := hretires.contained secondDay (mem_singleton_self _) _ hcovers
    have hindex : (row.toInt - 0) / 86400000 = 1 := hsame _ rfl
    have hrows : ∀ row ∈ ([0, 172800000] : List Int64), (row.toInt - 0) / 86400000 ≠ 1 := by decide
    exact hrows row hrow hindex

end FerroDruid.Overlord
