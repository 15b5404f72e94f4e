import FerroDruid.Lib.Numeral
import Mathlib.Data.List.Sort
import Mathlib.Data.FinEnum
/-!
# Resume points of a shard

`ferrodruid-ingest-kinesis/src/frontier.rs`: sequence numbers of any length, the
spans that durable segments cover, and where a shard resumes. Numbers are sparse, so
a span carries the number consumed before it.
-/

namespace FerroDruid.Kinesis

open Lib

/-! ## Sequence numbers -/

inductive FrontierError where
  | invalidSequenceNumber (s : Utf8)
  deriving DecidableEq

/-- A decimal numeral without leading zeros. -/
structure SeqNum where
  digits : Bytes
  canonical : IsCanonical digits

namespace SeqNum

variable {a b : SeqNum}

@[ext] theorem ext (h : a.digits = b.digits) : a = b := by
  cases a
  cases b
  simp_all

instance : DecidableEq SeqNum := fun a b => decidable_of_iff (a.digits = b.digits) ⟨SeqNum.ext, congrArg digits⟩

def parse (s : Utf8) : Except FrontierError SeqNum :=
  if h : s.bytes ≠ [] ∧ ∀ b ∈ s.bytes, isDigit b = true then .ok ⟨Lib.canonical s.bytes, isCanonical_canonical h.2⟩
  else .error (.invalidSequenceNumber s)

def cmp (a b : SeqNum) : Ordering := compareNumerals a.digits b.digits

instance : LE SeqNum := ⟨fun a b => a.cmp b ≠ .gt⟩

instance : LT SeqNum := ⟨fun a b => a.cmp b = .lt⟩

instance (a b : SeqNum) : Decidable (a ≤ b) := inferInstanceAs (Decidable (_ ≠ _))

instance (a b : SeqNum) : Decidable (a < b) := inferInstanceAs (Decidable (_ = _))

/-- The number itself. -/
def value (a : SeqNum) : ℕ := numeralValue a.digits

theorem cmp_eq (a b : SeqNum) : a.cmp b = compare a.value b.value := compareNumerals_eq a.canonical b.canonical

theorem le_iff : a ≤ b ↔ a.value ≤ b.value := by
  show a.cmp b ≠ .gt ↔ _
  rw [cmp_eq, ne_eq, Nat.compare_eq_gt, not_lt]

theorem lt_iff : a < b ↔ a.value < b.value := by
  show a.cmp b = .lt ↔ _
  rw [cmp_eq, Nat.compare_eq_lt]

theorem value_injective : Function.Injective value := fun a b h => SeqNum.ext (numeralValue_inj a.canonical b.canonical h)

end SeqNum

/-! ## Spans -/

/-- The numbers from `start` to `last`, and the last number consumed before them;
none where consumption began. -/
structure SeqSpan where
  start : SeqNum
  last : SeqNum
  prevLast : Option SeqNum

/-- By `start` and then by `last`. -/
def spanBefore (a b : SeqSpan) : Bool := (a.start.cmp b.start).then (a.last.cmp b.last) ≠ .gt

/-- A span that overlaps the interval before it or continues it is merged into it. -/
def pushSpan (merged : List SeqSpan) (span : SeqSpan) : List SeqSpan :=
  match merged.getLast? with
  | some prev =>
    if span.start ≤ prev.last ∨ span.prevLast = some prev.last then
      if prev.last < span.last then merged.dropLast ++ [{ prev with last := span.last }] else merged
    else merged ++ [span]
  | none => merged ++ [span]

def foldSpans (spans : List SeqSpan) : List SeqSpan :=
  ((spans.filter fun span => span.start ≤ span.last).insertionSort fun a b => spanBefore a b).foldl pushSpan []

/-! ## Resuming -/

inductive StartPosition where
  | trimHorizon
  | latest
  | atSequenceNumber (n : SeqNum)
  | afterSequenceNumber (n : SeqNum)
  deriving DecidableEq

/-- The folded spans of the segments that were loaded again. -/
structure ShardResume where
  shardId : String
  loaded : List SeqSpan

namespace ShardResume

def new (shardId : String) (loaded : List SeqSpan) : ShardResume := ⟨shardId, foldSpans loaded⟩

/-- Whether the walk goes on from a point to a span; it begins where consumption began. -/
def chains (point : Option SeqNum) (span : SeqSpan) : Bool :=
  match point with
  | none => span.prevLast = none
  | some p => span.prevLast = some p ∨ span.start ≤ p

def advance (point : Option SeqNum) (span : SeqSpan) : Option SeqNum :=
  match point with
  | none => some span.last
  | some p => if p < span.last then some span.last else some p

/-- How far an unbroken chain of spans reaches. -/
def walk : Option SeqNum → List SeqSpan → Option SeqNum
  | point, [] => point
  | point, span :: spans => if chains point span then walk (advance point span) spans else point

def resumeStartPosition (r : ShardResume) : StartPosition :=
  match walk none r.loaded with
  | none => .trimHorizon
  | some p => .afterSequenceNumber p

end ShardResume

end FerroDruid.Kinesis
