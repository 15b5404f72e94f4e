import FerroDruid.Kinesis.Frontier
import FerroDruid.Lib.HashMap
import FerroDruid.Lib.Json
/-!
# The resume frontier of a stream

`fold_resume_frontier` of `ferrodruid-ingest-kinesis/src/frontier.rs`: the payloads
of the durable rows are read into what every shard resumes from. A row is foreign,
it condemns the whole frontier, it is evidence for its shards, or its spans may be
skipped past.
-/

namespace FerroDruid.Kinesis

open Lib List

def sequencesPayloadKey : Utf8 := ⟨ascii "kinesisSequences", Eq.refl true⟩

def kinesisStreamingKind : Utf8 := ⟨ascii "kinesis-streaming", Eq.refl true⟩

def streamPayloadKey : Utf8 := ⟨ascii "stream", Eq.refl true⟩

def streamCreationPayloadKey : Utf8 := ⟨ascii "streamCreationTimestampMillis", Eq.refl true⟩

def kindKey : Utf8 := ⟨ascii "kind", Eq.refl true⟩

def startKey : Utf8 := ⟨ascii "start", Eq.refl true⟩

def lastKey : Utf8 := ⟨ascii "last", Eq.refl true⟩

def prevLastKey : Utf8 := ⟨ascii "prevLast", Eq.refl true⟩

/-- `Value::get` of a text. -/
def field (value : Json) (key : Utf8) : Option Json :=
  match value with
  | .object fields => Json.get fields key
  | _ => none

/-- The entries of a map; a key has the value that is read for it. -/
def mapEntries (fields : List (Utf8 × Json)) : List (Utf8 × Json) :=
  ((fields.map fun f => (⟨f.1, f.2⟩ : Sigma fun _ : Utf8 => Json)).dedupKeys).map fun e => (e.1, e.2)

/-- The payload of a segment's row, and whether the segment was loaded again. -/
structure FrontierRowEvidence where
  payload : Json
  loaded : Bool

structure KinesisResumeFrontier where
  shards : HashMap Utf8 ShardResume
  streamRecreated : Bool
  checkpointCorrupt : Bool

def KinesisResumeFrontier.startPositionFor (f : KinesisResumeFrontier) (shardId : Utf8) (default : StartPosition) : StartPosition :=
  if f.streamRecreated ∨ f.checkpointCorrupt then .trimHorizon
  else ((f.shards.lookup shardId).map ShardResume.resumeStartPosition).getD default

/-! ## The loop -/

/-- What the loop has read so far. -/
structure FoldState where
  /-- A set. -/
  evidenced : List Utf8
  loadedSpans : HashMap Utf8 (List SeqSpan)
  streamRecreated : Bool
  checkpointCorrupt : Bool

def FoldState.new : FoldState := ⟨[], ∅, false, false⟩

def parseText (value : Json) : Option SeqNum := value.asStr.bind fun s => (SeqNum.parse s).toOption

/-- An absent or null link is an anchor, a malformed one is none. -/
def parsePrevLast (value : Option Json) : Option (Option SeqNum) :=
  match value with
  | none | some .null => some none
  | some v => (parseText v).map some

/-- One shard of a checkpoint. -/
def foldShard (advance : Bool) (s : FoldState) (entry : Utf8 × Json) : FoldState :=
  let parseField (key : Utf8) : Option SeqNum := (field entry.2 key).bind parseText
  let s := { s with evidenced := s.evidenced ++ [entry.1] }
  match parseField startKey, parseField lastKey with
  | some start, some last =>
    if advance then
      match parsePrevLast (field entry.2 prevLastKey) with
      | none => s
      | some prevLast =>
        { s with loadedSpans := s.loadedSpans.insert entry.1 ((s.loadedSpans.lookup entry.1).getD [] ++ [⟨start, last, prevLast⟩]) }
    else s
  | _, _ => s

/-- A row whose attribution can be neither read nor excluded. -/
def attributionCorrupt (stream : Utf8) (p : Json) : Bool :=
  let kindField := field p kindKey
  let streamField := field p streamPayloadKey
  let kindMatches : Bool := kindField.bind Json.asStr = some kinesisStreamingKind
  let streamMatches : Bool := streamField.bind Json.asStr = some stream
  let kindIsOther := (kindField.bind Json.asStr).any fun k => k ≠ kinesisStreamingKind
  let streamIsOther := (streamField.bind Json.asStr).any fun s => s ≠ stream
  let kindCorrupt := kindField.any fun v => v.asStr.isNone
  let streamCorrupt := streamField.any fun v => v.asStr.isNone
  let corrupt := kindCorrupt || streamCorrupt || (kindMatches && streamField.isNone) || (streamMatches && kindField.isNone)
  (field p sequencesPayloadKey).isSome && !kindIsOther && !streamIsOther && corrupt

def attributed (stream : Utf8) (p : Json) : Bool :=
  decide ((field p kindKey).bind Json.asStr = some kinesisStreamingKind) &&
    decide ((field p streamPayloadKey).bind Json.asStr = some stream)

def foldRow (stream : Utf8) (currentCreationMillis : Option Int64) (s : FoldState) (row : FrontierRowEvidence) : FoldState :=
  let p := row.payload
  if ¬ attributed stream p then
    if attributionCorrupt stream p then { s with checkpointCorrupt := true } else s
  else
    match field p sequencesPayloadKey with
    | none => s
    | some (.object (f :: fields)) =>
      let foldShards (advanceIdentityOk : Bool) : FoldState := (mapEntries (f :: fields)).foldl (foldShard (advanceIdentityOk && row.loaded)) s
      match field p streamCreationPayloadKey, currentCreationMillis with
      | some stamp, some current =>
        match stamp.asI64 with
        | some ts => if ts = current then foldShards true else { s with streamRecreated := true }
        | none => foldShards false
      | _, _ => foldShards false
    | some _ => { s with checkpointCorrupt := true }

/-- A text as Lean has it. -/
def shardText (shard : Utf8) : String := (String.fromUTF8? ⟨shard.bytes.toArray⟩).getD ""

def foldResumeFrontier (rows : List FrontierRowEvidence) (stream : Utf8) (currentCreationMillis : Option Int64) : KinesisResumeFrontier :=
  let s := rows.foldl (foldRow stream currentCreationMillis) .new
  { shards := s.evidenced.foldl (fun shards shard =>
      shards.insert shard (.new (shardText shard) ((s.loadedSpans.lookup shard).getD []))) ∅
    streamRecreated := s.streamRecreated
    checkpointCorrupt := s.checkpointCorrupt }

/-! ## What a row says -/

/-- A stamp that confirms the identity of the stream. -/
def stampedCurrent (current : Option Int64) (p : Json) : Prop :=
  ∃ ts, (field p streamCreationPayloadKey).bind Json.asI64 = some ts ∧ current = some ts

/-- A stamp of another generation of the stream. -/
def stampedOther (current : Option Int64) (p : Json) : Prop :=
  ∃ ts now, (field p streamCreationPayloadKey).bind Json.asI64 = some ts ∧ current = some now ∧ ts ≠ now

/-- How the loop takes a row. -/
inductive RowReading where
  | foreign
  | corrupt
  | recreated
  | checkpoint (advance : Bool) (entries : List (Utf8 × Json))

instance (current : Option Int64) (p : Json) : Decidable (stampedCurrent current p) :=
  decidable_of_iff (((field p streamCreationPayloadKey).bind Json.asI64).isSome ∧ (field p streamCreationPayloadKey).bind Json.asI64 = current) (by
    unfold stampedCurrent
    cases (field p streamCreationPayloadKey).bind Json.asI64 <;> simp [eq_comm])

instance (current : Option Int64) (p : Json) : Decidable (stampedOther current p) :=
  decidable_of_iff (((field p streamCreationPayloadKey).bind Json.asI64).any fun ts => current.any fun now => ts ≠ now) (by
    unfold stampedOther
    cases (field p streamCreationPayloadKey).bind Json.asI64 <;> cases current <;> simp)

def readRow (stream : Utf8) (current : Option Int64) (row : FrontierRowEvidence) : RowReading :=
  if attributed stream row.payload then
    match field row.payload sequencesPayloadKey with
    | none => .foreign
    | some (.object (f :: fields)) =>
      if stampedOther current row.payload then .recreated
      else .checkpoint (decide (stampedCurrent current row.payload) && row.loaded) (mapEntries (f :: fields))
    | some _ => .corrupt
  else if attributionCorrupt stream row.payload then .corrupt else .foreign

theorem foldRow_eq (stream : Utf8) (current : Option Int64) (s : FoldState) (row : FrontierRowEvidence) :
    foldRow stream current s row = match readRow stream current row with
      | .foreign => s
      | .corrupt => { s with checkpointCorrupt := true }
      | .recreated => { s with streamRecreated := true }
      | .checkpoint advance entries => entries.foldl (foldShard advance) s := by
  unfold foldRow readRow
  by_cases ha : attributed stream row.payload = true
  · rw [if_neg (not_not.2 ha), if_pos ha]
    cases hc : field row.payload sequencesPayloadKey with
    | none => rfl
    | some c =>
      cases c with
      | object fields =>
        cases fields with
        | nil => rfl
        | cons f fields =>
          dsimp only
          cases hs : field row.payload streamCreationPayloadKey with
          | none =>
            have hother : ¬ stampedOther current row.payload := by simp [stampedOther, hs]
            have hcurrent : ¬ stampedCurrent current row.payload := by simp [stampedCurrent, hs]
            rw [if_neg hother, decide_eq_false hcurrent]
          | some stamp =>
            cases current with
            | none =>
              have hother : ¬ stampedOther none row.payload := by simp [stampedOther]
              have hcurrent : ¬ stampedCurrent none row.payload := by simp [stampedCurrent]
              rw [if_neg hother, decide_eq_false hcurrent]
            | some now =>
              dsimp only
              cases ht : stamp.asI64 with
              | none =>
                have hother : ¬ stampedOther (some now) row.payload := by simp [stampedOther, hs, ht]
                have hcurrent : ¬ stampedCurrent (some now) row.payload := by simp [stampedCurrent, hs, ht]
                rw [if_neg hother, decide_eq_false hcurrent]
              | some ts =>
                by_cases h : ts = now
                · have hother : ¬ stampedOther (some now) row.payload := by simp [stampedOther, hs, ht, h]
                  have hcurrent : stampedCurrent (some now) row.payload := by simp [stampedCurrent, hs, ht, h]
                  rw [if_neg hother, decide_eq_true hcurrent]
                  exact if_pos h
                · have hother : stampedOther (some now) row.payload := by simp [stampedOther, hs, ht, h]
                  rw [if_pos hother]
                  exact if_neg h
      | _ => rfl
  · rw [if_pos ha, if_neg ha]
    split_ifs <;> rfl

/-- The span that an entry of a checkpoint has, when it is well-formed. -/
def readSpan (v : Json) : Option SeqSpan :=
  match (field v startKey).bind parseText, (field v lastKey).bind parseText, parsePrevLast (field v prevLastKey) with
  | some start, some last, some prevLast => some ⟨start, last, prevLast⟩
  | _, _, _ => none

/-- The spans that an entry adds to a shard's. -/
def entrySpans (advance : Bool) (shard : Utf8) (entry : Utf8 × Json) : List SeqSpan :=
  if advance = true ∧ entry.1 = shard then (readSpan entry.2).toList else []

namespace RowReading

/-- The row floors every shard. -/
def condemns : RowReading → Bool
  | .corrupt | .recreated => true
  | _ => false

def shards : RowReading → List Utf8
  | .checkpoint _ entries => entries.map (·.1)
  | _ => []

/-- What the row lets a shard skip past. -/
def spans (shard : Utf8) : RowReading → List SeqSpan
  | .checkpoint advance entries => entries.flatMap (entrySpans advance shard)
  | _ => []

end RowReading

def FoldState.condemned (s : FoldState) : Bool := s.streamRecreated || s.checkpointCorrupt

def FoldState.spans (s : FoldState) (shard : Utf8) : List SeqSpan := (s.loadedSpans.lookup shard).getD []

@[simp] theorem FoldState.spans_new (shard : Utf8) : FoldState.new.spans shard = [] := rfl

theorem foldShard_eq (advance : Bool) (s : FoldState) (entry : Utf8 × Json) :
    (foldShard advance s entry).evidenced = s.evidenced ++ [entry.1] ∧
      (foldShard advance s entry).streamRecreated = s.streamRecreated ∧
      (foldShard advance s entry).checkpointCorrupt = s.checkpointCorrupt ∧
      ∀ shard, (foldShard advance s entry).spans shard = s.spans shard ++ entrySpans advance shard entry := by
  unfold foldShard entrySpans readSpan FoldState.spans
  dsimp only
  cases (field entry.2 startKey).bind parseText with
  | none => simp
  | some start =>
    cases (field entry.2 lastKey).bind parseText with
    | none => simp
    | some last =>
      cases advance with
      | false => simp
      | true =>
        cases parsePrevLast (field entry.2 prevLastKey) with
        | none => simp
        | some prevLast =>
          refine ⟨rfl, rfl, rfl, fun shard => ?_⟩
          by_cases h : entry.1 = shard
          · subst h
            simp
          · simp [AList.lookup_insert_ne (Ne.symm h), h]

theorem foldShards_eq (advance : Bool) (entries : List (Utf8 × Json)) (s : FoldState) :
    (entries.foldl (foldShard advance) s).evidenced = s.evidenced ++ entries.map (·.1) ∧
      (entries.foldl (foldShard advance) s).streamRecreated = s.streamRecreated ∧
      (entries.foldl (foldShard advance) s).checkpointCorrupt = s.checkpointCorrupt ∧
      ∀ shard, (entries.foldl (foldShard advance) s).spans shard = s.spans shard ++ entries.flatMap (entrySpans advance shard) := by
  induction entries generalizing s with
  | nil => simp
  | cons entry entries ih =>
    obtain ⟨hevidenced, hrecreated, hcorrupt, hspans⟩ := foldShard_eq advance s entry
    obtain ⟨ihevidenced, ihrecreated, ihcorrupt, ihspans⟩ := ih (foldShard advance s entry)
    rw [foldl_cons]
    refine ⟨?_, ihrecreated.trans hrecreated, ihcorrupt.trans hcorrupt, fun shard => ?_⟩
    · rw [ihevidenced, hevidenced, append_assoc, map_cons, singleton_append]
    · rw [ihspans, hspans, append_assoc, flatMap_cons]

variable (stream : Utf8) (current : Option Int64)

theorem foldRow_spec (s : FoldState) (row : FrontierRowEvidence) :
    (foldRow stream current s row).condemned = (s.condemned || (readRow stream current row).condemns) ∧
      (foldRow stream current s row).evidenced = s.evidenced ++ (readRow stream current row).shards ∧
      ∀ shard, (foldRow stream current s row).spans shard = s.spans shard ++ (readRow stream current row).spans shard := by
  rw [foldRow_eq]
  cases readRow stream current row with
  | foreign => simp [RowReading.condemns, RowReading.shards, RowReading.spans]
  | corrupt => simp [RowReading.condemns, RowReading.shards, RowReading.spans, FoldState.condemned, FoldState.spans]
  | recreated => simp [RowReading.condemns, RowReading.shards, RowReading.spans, FoldState.condemned, FoldState.spans]
  | checkpoint advance entries =>
    obtain ⟨hevidenced, hrecreated, hcorrupt, hspans⟩ := foldShards_eq advance entries s
    refine ⟨?_, hevidenced, hspans⟩
    simp only [FoldState.condemned, hrecreated, hcorrupt, RowReading.condemns, Bool.or_false]

theorem foldRows_spec (rows : List FrontierRowEvidence) (s : FoldState) :
    (rows.foldl (foldRow stream current) s).condemned = (s.condemned || rows.any fun row => (readRow stream current row).condemns) ∧
      (rows.foldl (foldRow stream current) s).evidenced = s.evidenced ++ rows.flatMap (fun row => (readRow stream current row).shards) ∧
      ∀ shard, (rows.foldl (foldRow stream current) s).spans shard =
        s.spans shard ++ rows.flatMap (fun row => (readRow stream current row).spans shard) := by
  induction rows generalizing s with
  | nil => simp
  | cons row rows ih =>
    obtain ⟨hcondemned, hevidenced, hspans⟩ := foldRow_spec stream current s row
    obtain ⟨ihcondemned, ihevidenced, ihspans⟩ := ih (foldRow stream current s row)
    rw [foldl_cons]
    refine ⟨?_, ?_, fun shard => ?_⟩
    · rw [ihcondemned, hcondemned, any_cons, Bool.or_assoc]
    · rw [ihevidenced, hevidenced, append_assoc, flatMap_cons]
    · rw [ihspans, hspans, append_assoc, flatMap_cons]

/-- A row names a shard, or floors them all. -/
def rowCondemns (row : FrontierRowEvidence) : Prop := (readRow stream current row).condemns = true

def rowNames (shard : Utf8) (row : FrontierRowEvidence) : Prop := shard ∈ (readRow stream current row).shards

instance (row : FrontierRowEvidence) : Decidable (rowCondemns stream current row) := inferInstanceAs (Decidable (_ = true))

instance (shard : Utf8) (row : FrontierRowEvidence) : Decidable (rowNames stream current shard row) := inferInstanceAs (Decidable (_ ∈ _))

/-- The spans of a shard that may be skipped past, in the order of the rows. -/
def loadedSpans (rows : List FrontierRowEvidence) (shard : Utf8) : List SeqSpan :=
  rows.flatMap fun row => (readRow stream current row).spans shard

theorem lookup_evidenced (spans : Utf8 → List SeqSpan) (evidenced : List Utf8) (m : HashMap Utf8 ShardResume) (shard : Utf8) :
    (evidenced.foldl (fun m shard => AList.insert shard (ShardResume.new (shardText shard) (spans shard)) m) m).lookup shard =
      if shard ∈ evidenced then some (.new (shardText shard) (spans shard)) else m.lookup shard := by
  induction evidenced generalizing m with
  | nil => simp
  | cons e evidenced ih =>
    rw [foldl_cons, ih]
    by_cases h : shard = e
    · subst h
      simp
    · rw [AList.lookup_insert_ne h]
      simp [h]

/-- What a shard starts from. -/
theorem startPositionFor_fold (rows : List FrontierRowEvidence) (shard : Utf8) (default : StartPosition) :
    (foldResumeFrontier rows stream current).startPositionFor shard default =
      if ∃ row ∈ rows, rowCondemns stream current row then .trimHorizon
      else if ∃ row ∈ rows, rowNames stream current shard row then
        (ShardResume.new (shardText shard) (loadedSpans stream current rows shard)).resumeStartPosition
      else default := by
  obtain ⟨hcondemned, hevidenced, hspans⟩ := foldRows_spec stream current rows .new
  have hcondemns : (∃ row ∈ rows, rowCondemns stream current row) ↔
      (rows.foldl (foldRow stream current) .new).condemned = true := by
    rw [hcondemned]
    simp [rowCondemns, FoldState.condemned, FoldState.new]
  have hnames : (∃ row ∈ rows, rowNames stream current shard row) ↔ shard ∈ (rows.foldl (foldRow stream current) .new).evidenced := by
    rw [hevidenced]
    simp [rowNames, FoldState.new]
  have hloaded : loadedSpans stream current rows shard = (rows.foldl (foldRow stream current) .new).spans shard := by
    rw [hspans, FoldState.spans_new, nil_append, loadedSpans]
  unfold KinesisResumeFrontier.startPositionFor foldResumeFrontier
  dsimp only
  rw [show (fun (shards : HashMap Utf8 ShardResume) shard => shards.insert shard (ShardResume.new (shardText shard)
    (((rows.foldl (foldRow stream current) .new).loadedSpans.lookup shard).getD []))) =
    fun m shard => AList.insert shard (ShardResume.new (shardText shard) ((rows.foldl (foldRow stream current) .new).spans shard)) m from rfl,
    lookup_evidenced]
  simp only [hcondemns, hnames, hloaded, FoldState.condemned, Bool.or_eq_true, AList.lookup_empty]
  split_ifs <;> rfl

end FerroDruid.Kinesis
