import FerroDruid.Msq.Groups
/-!
# Spilling

What goes through a partition buffer comes back, in order, when the spill file can
be read.
-/

namespace FerroDruid.Msq

open Lib List

/-- Cells that JSON carries as they are. -/
def Value.Plain (v : Value) : Prop := ∀ x, v ≠ .double x

def PlainRows (rows : List Row) : Prop := ∀ row ∈ rows, ∀ cell ∈ row, Value.Plain cell

variable {text : JsonText}

/-- Cells that are read back as they were written. A float that is not finite is
written as null. -/
def Value.Survives (text : JsonText) : Value → Prop
  | .double x => x.isFinite = true ∧ text.floatBack x = x
  | _ => True

theorem Value.Plain.survives {v : Value} (h : v.Plain) : v.Survives text := by
  cases v with
  | double x => exact absurd rfl (h x)
  | null | long | str => trivial

/-! ## Frames -/

theorem Json.asF64_ofF64 (x : F64) : (Json.ofF64 x).asF64 = if x.isFinite = true then some x else none := by
  unfold Json.ofF64
  split_ifs <;> rfl

theorem Value.ofJson_toJson_iff {v : Value} : ofJson text v.toJson = some v ↔ v.Survives text := by
  have hfields : ∀ tag j, Json.get [(fieldT, Json.string tag), (fieldV, j)] fieldT = some (.string tag) ∧
      Json.get [(fieldT, Json.string tag), (fieldV, j)] fieldV = some j := fun tag j => by
    have hne : fieldT ≠ fieldV := by decide
    simp [Json.get, hne]
  cases v with
  | null =>
    have htag : Json.get [(fieldT, Json.string tagNull)] fieldT = some (.string tagNull) := by simp [Json.get]
    simp [toJson, ofJson, htag, Json.asStr, Survives]
  | long v =>
    obtain ⟨htag, hv⟩ := hfields tagLong (.ofI64 v)
    have hne : tagLong ≠ tagNull := by decide
    simp [toJson, ofJson, htag, hv, Json.asStr, hne, Survives]
  | double x =>
    obtain ⟨htag, hv⟩ := hfields tagDouble (.ofF64 x)
    have hnull : tagDouble ≠ tagNull := by decide
    have hlong : tagDouble ≠ tagLong := by decide
    by_cases hx : x.isFinite = true <;> simp [toJson, ofJson, htag, hv, Json.asStr, hnull, hlong, Json.asF64_ofF64, Survives, hx]
  | str s =>
    obtain ⟨htag, hv⟩ := hfields tagStr (.string s)
    have hnull : tagStr ≠ tagNull := by decide
    have hlong : tagStr ≠ tagLong := by decide
    have hdouble : tagStr ≠ tagDouble := by decide
    simp [toJson, ofJson, htag, hv, Json.asStr, hnull, hlong, hdouble, Survives]

/-- Rows whose cells are all read back as they were written. -/
def SurvivingRows (text : JsonText) (rows : List Row) : Prop := ∀ row ∈ rows, ∀ cell ∈ row, Value.Survives text cell

variable {rows : List Row}

theorem PlainRows.surviving (h : PlainRows rows) : SurvivingRows text rows := fun row hrow cell hcell =>
  (h row hrow cell hcell).survives

def cellsToJson (row : Row) : Json := .array (row.map Value.toJson)

def cellsOfJson (text : JsonText) (row : Json) : Option Row := row.asArray.bind fun cells => cells.mapM (Value.ofJson text)

theorem cellsOfJson_cellsToJson_iff {row : Row} : cellsOfJson text (cellsToJson row) = some row ↔ ∀ cell ∈ row, Value.Survives text cell := by
  rw [cellsToJson, cellsOfJson, Json.asArray, Option.bind_some, mapM_map_eq_some_iff]
  exact forall₂_congr fun cell _ => Value.ofJson_toJson_iff

theorem Frame.ofJson_writeTo (frame : Frame) : ofJson text frame.writeTo = ((frame.rows.map cellsToJson).mapM (cellsOfJson text)).map Frame.mk := by
  have hwritten : frame.writeTo = .object [(fieldRows, .array (frame.rows.map cellsToJson))] := rfl
  have hfield : Json.get [(fieldRows, Json.array (frame.rows.map cellsToJson))] fieldRows =
    some (.array (frame.rows.map cellsToJson)) := by simp [Json.get]
  rw [hwritten, ofJson, hfield]
  exact Option.map_eq_bind.symm

variable {frame : Frame}

theorem Frame.ofJson_writeTo_iff : ofJson text frame.writeTo = some frame ↔ SurvivingRows text frame.rows := by
  rw [ofJson_writeTo, SurvivingRows, ← forall₂_congr fun row _ => cellsOfJson_cellsToJson_iff, ← mapM_map_eq_some_iff]
  cases frame with
  | mk rows => simp

/-- Whether the file that a frame is written to can be read. -/
def Frame.Fits (text : JsonText) (frame : Frame) : Prop := text.length frame.writeTo ≤ MAX_SPILL_FRAME_BYTES

theorem Frame.readFrom_writeTo_iff : readFrom text frame.writeTo = .ok frame ↔ frame.Fits text ∧ SurvivingRows text frame.rows := by
  rw [← ofJson_writeTo_iff, readFrom]
  split_ifs with hlong
  · have hfits : ¬ frame.Fits text := Nat.not_le.2 hlong
    simp [hfits]
  · have hfits : frame.Fits text := Nat.not_lt.1 hlong
    cases hjson : ofJson text frame.writeTo <;> simp [hfits]

theorem Frame.readFrom_of_not_fits (hfits : ¬ frame.Fits text) : ∃ e, readFrom text frame.writeTo = .error e :=
  ⟨_, if_pos (Nat.lt_of_not_le hfits)⟩

/-! ## Buffers -/

/-- The shortest runs of rows that reach the threshold, after rows that do not. -/
def spilledFrames (threshold : ℕ) : List Row → List Row → List Frame
  | _, [] => []
  | mem, row :: rows =>
    if 0 < threshold ∧ threshold ≤ Frame.estimatedBytes ⟨mem ++ [row]⟩ then ⟨mem ++ [row]⟩ :: spilledFrames threshold [] rows
    else spilledFrames threshold (mem ++ [row]) rows

theorem foldl_push (rows : List Row) (buf : PartitionBuffer) :
    (rows.foldl PartitionBuffer.push buf).spillFile =
        buf.spillFile ++ (spilledFrames buf.spillThresholdBytes buf.mem.rows rows).map Frame.writeTo ∧
      ((spilledFrames buf.spillThresholdBytes buf.mem.rows rows).map Frame.rows).flatten ++ (rows.foldl PartitionBuffer.push buf).mem.rows =
        buf.mem.rows ++ rows := by
  induction rows generalizing buf with
  | nil => simp [spilledFrames]
  | cons row rows ih =>
    rw [foldl_cons, spilledFrames]
    by_cases hspill : 0 < buf.spillThresholdBytes ∧ buf.spillThresholdBytes ≤ Frame.estimatedBytes ⟨buf.mem.rows ++ [row]⟩
    · have hpush : buf.push row = { buf with
          mem := .empty
          spillFile := buf.spillFile ++ [Frame.writeTo ⟨buf.mem.rows ++ [row]⟩]
          spilledBytes := buf.spilledBytes + Frame.estimatedBytes ⟨buf.mem.rows ++ [row]⟩ } := by
        simp [PartitionBuffer.push, PartitionBuffer.flushMem, hspill]
      obtain ⟨hfile, hrows⟩ := ih (buf.push row)
      rw [if_pos hspill]
      rw [hpush] at hfile hrows ⊢
      simp only [Frame.empty, nil_append, append_assoc] at hfile hrows ⊢
      refine ⟨hfile, ?_⟩
      rw [map_cons, flatten_cons, append_assoc, hrows]
      simp
    · have hpush : buf.push row = { buf with mem := ⟨buf.mem.rows ++ [row]⟩ } := by simp [PartitionBuffer.push, hspill]
      obtain ⟨hfile, hrows⟩ := ih (buf.push row)
      rw [if_neg hspill]
      rw [hpush] at hfile hrows ⊢
      exact ⟨hfile, by simpa using hrows⟩

/-! ## What a drained buffer returns -/

/-- A frame that is read has its rows, one by one. -/
theorem Frame.length_of_readFrom {frame' : Frame} (h : readFrom text frame.writeTo = .ok frame') :
    frame'.rows.length = frame.rows.length := by
  unfold readFrom at h
  split_ifs at h
  rw [ofJson_writeTo] at h
  cases hrows : (frame.rows.map cellsToJson).mapM (cellsOfJson text) with
  | none => simp [hrows] at h
  | some rows =>
    have hlen := (mapM_eq_some.1 hrows).length_eq.symm
    rw [hrows] at h
    cases h
    rw [hlen, length_map]

/-- The frames read from a file are those written exactly if their rows together are. -/
theorem eq_of_readFrom {frames frames' : List Frame} (h : (frames.map Frame.writeTo).mapM (Frame.readFrom text) = .ok frames')
    (hrows : (frames'.map Frame.rows).flatten = (frames.map Frame.rows).flatten) : frames' = frames := by
  have hlengths : (frames'.map Frame.rows).map List.length = (frames.map Frame.rows).map List.length := by
    have hread := forall₂_map_left_iff.1 (mapM_eq_ok.1 h)
    clear h hrows
    induction hread with
    | nil => rfl
    | cons hframe _ ih =>
      simp only [map_cons, ih, Frame.length_of_readFrom hframe]
  have heach := eq_iff_flatten_eq.2 ⟨hrows, hlengths⟩
  refine map_injective_iff.2 (fun frame frame' h => ?_) heach
  cases frame
  cases frame'
  cases h
  rfl

/-- Rows whose spilled frames are all read back as they were written. -/
def Recovered (text : JsonText) (threshold : ℕ) (rows : List Row) : Prop :=
  ∀ frame ∈ spilledFrames threshold [] rows, frame.Fits text ∧ SurvivingRows text frame.rows

variable {threshold : ℕ}

theorem drain_pushed_iff :
    (rows.foldl PartitionBuffer.push (.new threshold)).drain text = .ok rows ↔ Recovered text threshold rows := by
  obtain ⟨hfile, hrows⟩ := foldl_push rows (.new threshold)
  constructor
  · intro h
    obtain ⟨frames, hframes, h⟩ := bind_eq_ok.1 h
    rw [hfile] at hframes
    have hdrained := Except.ok.inj h
    have hsame : frames = spilledFrames threshold [] rows :=
      eq_of_readFrom hframes (append_cancel_right (hdrained.trans hrows.symm))
    subst hsame
    have hread := forall₂_map_left_iff.1 (mapM_eq_ok.1 hframes)
    exact fun frame hframe => Frame.readFrom_writeTo_iff.1 (forall₂_same.1 hread frame hframe)
  · intro h
    have hframes : ((rows.foldl PartitionBuffer.push (.new threshold)).spillFile).mapM (Frame.readFrom text) =
      .ok (spilledFrames threshold [] rows) := by
      rw [hfile]
      refine mapM_eq_ok.2 (forall₂_map_left_iff.2 (forall₂_same.2 fun frame hframe => ?_))
      exact Frame.readFrom_writeTo_iff.2 (h frame hframe)
    rw [PartitionBuffer.drain, hframes, ok_bind]
    exact congrArg Except.ok hrows

theorem spilledFrames_zero (mem rows : List Row) : spilledFrames 0 mem rows = [] := by
  induction rows generalizing mem with
  | nil => rfl
  | cons row rows ih => rw [spilledFrames, if_neg (fun h => absurd h.1 (lt_irrefl 0)), ih]

/-- A buffer returns what was pushed exactly if every frame that it spilled can be read
and has only cells that survive. One that never spills returns it in any case. -/
theorem drain_push_iff (text : JsonText) (threshold : ℕ) (rows : List Row) :
    ((rows.foldl PartitionBuffer.push (.new threshold)).drain text = .ok rows ↔ Recovered text threshold rows) ∧
      (rows.foldl PartitionBuffer.push (.new 0)).drain text = .ok rows := by
  refine ⟨drain_pushed_iff, drain_pushed_iff.2 ?_⟩
  intro frame hframe
  rw [spilledFrames_zero] at hframe
  exact nomatch hframe

/-- A NaN is spilled as a null, which is no float. -/
theorem nan_lost_in_spill :
    ([[Value.double .nan]].foldl PartitionBuffer.push (.new 1)).drain ⟨fun _ => 36, id⟩ = .error .frameInvalid ∧
      ([[Value.double .nan]].foldl PartitionBuffer.push (.new 0)).drain ⟨fun _ => 36, id⟩ = .ok [[.double .nan]] := ⟨by decide, by decide⟩

/-! ## Plain rows -/

/-- Rows whose spilled frames can all be read. -/
def Readable (text : JsonText) (threshold : ℕ) (rows : List Row) : Prop := ∀ frame ∈ spilledFrames threshold [] rows, frame.Fits text

theorem plain_of_mem_spilledFrames {mem : List Row} (hmem : PlainRows mem) (hrows : PlainRows rows) :
    ∀ frame ∈ spilledFrames threshold mem rows, PlainRows frame.rows := by
  induction rows generalizing mem with
  | nil => exact fun frame h => nomatch h
  | cons row rows ih =>
    obtain ⟨hrow, hrows⟩ := forall_mem_cons.1 hrows
    have hnext : PlainRows (mem ++ [row]) := forall_mem_append.2 ⟨hmem, forall_mem_singleton.2 hrow⟩
    unfold spilledFrames
    split_ifs with hspill
    · exact forall_mem_cons.2 ⟨hnext, ih (forall_mem_nil _) hrows⟩
    · exact ih hnext hrows

/-- Spilled or not, the rows come back. -/
theorem bufferPartition_of_readable (hplain : PlainRows rows) (hread : Readable text threshold rows) :
    ∃ spilled, bufferPartition text threshold rows = .ok (rows, spilled) := by
  have hrecovered : Recovered text threshold rows := fun frame hframe =>
    ⟨hread frame hframe, (plain_of_mem_spilledFrames (forall_mem_nil _) hplain frame hframe).surviving⟩
  refine ⟨(rows.foldl PartitionBuffer.push (.new threshold)).spilledBytes, ?_⟩
  rw [bufferPartition, drain_pushed_iff.2 hrecovered, ok_bind]

theorem bufferPartition_of_not_readable (hread : ¬ Readable text threshold rows) :
    ∃ e, bufferPartition text threshold rows = .error e := by
  simp only [Readable, not_forall] at hread
  obtain ⟨frame, hframe, hfits⟩ := hread
  have hwritten : frame.writeTo ∈ (rows.foldl PartitionBuffer.push (.new threshold)).spillFile := by
    rw [(foldl_push rows (.new threshold)).1]
    exact mem_append_right _ (mem_map_of_mem hframe)
  obtain ⟨e, he⟩ := mapM_of_error hwritten (Frame.readFrom_of_not_fits hfits)
  exact ⟨e, by rw [bufferPartition, PartitionBuffer.drain, he]; rfl⟩

end FerroDruid.Msq
