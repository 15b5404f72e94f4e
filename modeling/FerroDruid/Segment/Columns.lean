import FerroDruid.Dict.FrontCoded
import FerroDruid.Lib.Cursor
/-!
# Column decoders

The private column blobs of `ferrodruid-segment/src/column.rs`. Each decoder
checks a length before it takes the bytes, so each is a local cursor, and the
decoders that end with the check for trailing bytes refuse a blob with anything
behind it. `decode_string_column` does not check.

Bitmaps and sketches are parameters. Sums of lengths are those of a 64-bit
machine, where none overflows.
-/

namespace FerroDruid.Segment

open Lib Lib.Cursor

inductive ColumnError where
  | segment (text : String)
  | dictionary (e : Dict.DictError)
  deriving DecidableEq, Repr

/-- What stands inside a column: `DruidBitmap`, `ThetaSketch` and `DruidHyperUnique`. -/
structure Payloads (B T H : Type) where
  /-- `deserialize_druid_bounded`, for a number of rows. -/
  bitmap : Bytes → ℕ → Except ColumnError B
  bitmapMax : B → Option ℕ
  bitmapLen : B → ℕ
  theta : Bytes → Except String T
  hyperUnique : Bytes → Except String H

def MAX_STRING_COLUMN_ROWS : ℕ := 64 * 1024 * 1024

def MAX_STRING_DICT_BYTES : ℕ := 256 * 1024 * 1024

def MAX_STRING_BITMAPS : ℕ := 16 * 1024 * 1024

def MAX_BITMAP_BYTES : ℕ := 64 * 1024 * 1024

def MAX_STRING_MULTI_ORDINALS : ℕ := 256 * 1024 * 1024

def MAX_NUMERIC_COLUMN_VALUES : ℕ := 256 * 1024 * 1024

def MAX_THETA_BLOB_BYTES : ℕ := 64 * 1024 * 1024

def MAX_HYPER_UNIQUE_BLOB_BYTES : ℕ := 4096

variable {B T H α : Type}

def beNat (raw : Bytes) : ℕ := leNat raw.reverse

def readBeU32 : Cursor ColumnError ℕ := do
  let raw ← take 4 fun _ _ => .segment "unexpected end of data reading u32"
  return beNat raw

/-! ## Numbers -/

/-- A count, and as many values of `width` bytes. -/
def decodeNumbers (column : String) (width : ℕ) (parse : Bytes → α) : Cursor ColumnError (List α) := do
  let header ← take 4 fun _ _ => .segment s!"{column} too short"
  let num := beNat header
  refuse (num > MAX_NUMERIC_COLUMN_VALUES)
    (.segment s!"{column}: declared length {num} exceeds cap {MAX_NUMERIC_COLUMN_VALUES}")
  let raw ← take (num * width) fun len pos =>
    .segment s!"{column} truncated: need {pos + num * width} bytes, have {len}"
  return (List.range num).map fun i => parse ((raw.drop (i * width)).take width)

def trailingValues (column : String) (extra : ℕ) : ColumnError :=
  .segment s!"{column}: {extra} trailing bytes after the declared values"

def decodeLongColumnPrefix : Cursor ColumnError (List Int64) :=
  decodeNumbers "long column" 8 fun raw => (UInt64.ofNat (beNat raw)).toInt64

def decodeLongColumn : Bytes → Except ColumnError (List Int64) :=
  exactly decodeLongColumnPrefix (trailingValues "long column")

/-- An `f32` is its bits. -/
def decodeFloatColumn : Bytes → Except ColumnError (List UInt32) :=
  exactly (decodeNumbers "float column" 4 fun raw => UInt32.ofNat (beNat raw)) (trailingValues "float column")

/-- An `f64` is its bits. -/
def decodeDoubleColumn : Bytes → Except ColumnError (List UInt64) :=
  exactly (decodeNumbers "double column" 8 fun raw => UInt64.ofNat (beNat raw)) (trailingValues "double column")

variable (p : Payloads B T H)

/-- Every row of the bitmap exists. -/
def inRange (bm : B) (num_rows : ℕ) (e : ℕ → ColumnError) : Cursor ColumnError Unit :=
  match p.bitmapMax bm with
  | some max_row => refuse (max_row ≥ num_rows) (e max_row)
  | none => pure ()

def longNullable : Cursor ColumnError (List Int64 × B) := do
  let values ← decodeLongColumnPrefix
  let bm_len ← readBeU32
  refuse (bm_len > MAX_BITMAP_BYTES)
    (.segment s!"nullable long column: null bitmap length {bm_len} exceeds cap {MAX_BITMAP_BYTES}")
  let raw ← take bm_len fun _ _ => .segment "nullable long column: null bitmap truncated"
  let nulls ← ofExcept (p.bitmap raw values.length)
  inRange p nulls values.length fun max_row =>
    .segment s!"nullable long column: null bitmap references row {max_row} which is out of range for column num_rows {values.length}"
  return (values, nulls)

def decodeLongColumnNullable : Bytes → Except ColumnError (List Int64 × B) :=
  exactly (longNullable p) fun extra => .segment s!"nullable long column: {extra} trailing bytes after the null bitmap"

/-! ## Sketches -/

def decodeSketch (column : String) (cap : ℕ) (deserialize : Bytes → Except String α) (row_idx : ℕ) :
    Cursor ColumnError α := do
  let blob_len ← readBeU32
  refuse (blob_len > cap) (.segment s!"{column}: row {row_idx} blob length {blob_len} exceeds cap {cap}")
  let raw ← take blob_len fun _ _ => .segment s!"{column}: row {row_idx} sketch blob truncated"
  ofExcept ((deserialize raw).mapError fun e => .segment s!"{column}: row {row_idx} sketch failed to decode: {e}")

def decodeSketches (column : String) (cap : ℕ) (deserialize : Bytes → Except String α) : Cursor ColumnError (List α) := do
  let num_rows ← readBeU32
  refuse (num_rows > MAX_NUMERIC_COLUMN_VALUES)
    (.segment s!"{column}: num_rows {num_rows} exceeds cap {MAX_NUMERIC_COLUMN_VALUES}")
  need (num_rows * 4) fun len pos =>
    .segment s!"{column}: declared num_rows {num_rows} exceeds remaining data {len - pos}"
  collect (decodeSketch column cap deserialize) num_rows 0

def trailingRows (column : String) (extra : ℕ) : ColumnError :=
  .segment s!"{column}: {extra} trailing bytes after the last row"

def decodeThetaColumn : Bytes → Except ColumnError (List T) :=
  exactly (decodeSketches "theta column" MAX_THETA_BLOB_BYTES p.theta) (trailingRows "theta column")

def decodeHyperUniqueColumn : Bytes → Except ColumnError (List H) :=
  exactly (decodeSketches "hyperUnique column" MAX_HYPER_UNIQUE_BLOB_BYTES p.hyperUnique)
    (trailingRows "hyperUnique column")

/-! ## Strings -/

structure StringColumnData (B : Type) where
  dictionary : List Utf8
  encoded_values : List ℕ
  bitmap_indexes : List B

structure StringMultiColumnData (B : Type) where
  dictionary : List Utf8
  row_offsets : List ℕ
  ordinals : List ℕ
  bitmap_indexes : List B

def decodeDictionary (column : String) : Cursor ColumnError (List Utf8) := do
  let dict_len ← readBeU32
  refuse (dict_len > MAX_STRING_DICT_BYTES)
    (.segment s!"{column}: dict_len {dict_len} exceeds cap {MAX_STRING_DICT_BYTES}")
  let raw ← take dict_len fun _ _ => .segment s!"{column}: dictionary data truncated"
  ofExcept ((Dict.deserialize raw).mapError .dictionary)

/-- Bitmaps, with the rows they claim in all as far as `bound`. -/
def decodeBitmaps (column : String) (num_rows bound : ℕ) (excess : ℕ → String) : ℕ → ℕ → ℕ → Cursor ColumnError (List B)
  | 0, _, _ => pure []
  | n + 1, bm_idx, total => do
    let bm_len ← readBeU32
    refuse (bm_len > MAX_BITMAP_BYTES)
      (.segment s!"{column}: bitmap length {bm_len} exceeds cap {MAX_BITMAP_BYTES}")
    let raw ← take bm_len fun _ _ => .segment s!"{column}: bitmap data truncated"
    let bm ← ofExcept (p.bitmap raw num_rows)
    inRange p bm num_rows fun max_row =>
      .segment s!"{column}: bitmap[{bm_idx}] references row {max_row} which is out of range for column num_rows {num_rows}"
    let total := min (total + p.bitmapLen bm) (2 ^ 64 - 1)
    refuse (total > bound) (.segment (excess total))
    let rest ← decodeBitmaps column num_rows bound excess n (bm_idx + 1) total
    return bm :: rest

/-- Every ordinal resolves inside the dictionary. -/
def checkOrdinals (column place : String) (dict_card : ℕ) : ℕ → List ℕ → Cursor ColumnError Unit
  | _, [] => pure ()
  | idx, ord :: ords => do
    refuse (ord ≥ dict_card)
      (.segment s!"{column}: ordinal at {place} {idx} = {ord} is out of bounds for dictionary cardinality {dict_card}")
    checkOrdinals column place dict_card (idx + 1) ords

def stringColumn : Cursor ColumnError (StringColumnData B) := do
  let num_rows ← readBeU32
  refuse (num_rows > MAX_STRING_COLUMN_ROWS)
    (.segment s!"string column: num_rows {num_rows} exceeds cap {MAX_STRING_COLUMN_ROWS}")
  need (num_rows * 4) fun len pos =>
    .segment s!"string column: declared num_rows {num_rows} exceeds remaining data {len - pos}"
  let encoded_values ← collect (fun _ => readBeU32) num_rows 0
  let dictionary ← decodeDictionary "string column"
  let num_bitmaps ← readBeU32
  refuse (num_bitmaps > MAX_STRING_BITMAPS)
    (.segment s!"string column: num_bitmaps {num_bitmaps} exceeds cap {MAX_STRING_BITMAPS}")
  let bitmap_indexes ← decodeBitmaps p "string column" num_rows num_rows
    (fun total =>
      s!"string column: bitmaps claim {total} total rows, exceeding the column's {num_rows} rows (bitmaps must partition the rows)")
    num_bitmaps 0 0
  let dict_card := dictionary.length
  checkOrdinals "string column" "row" dict_card 0 encoded_values
  refuse (bitmap_indexes.length ≠ dict_card ∧ bitmap_indexes.length ≠ dict_card + 1)
    (.segment (s!"string column: bitmap count {bitmap_indexes.length} does not match dictionary cardinality {dict_card} " ++
      "(one bitmap per dictionary entry, plus at most one trailing null-row bitmap, expected)"))
  return { dictionary, encoded_values, bitmap_indexes }

/-- The end of the blob is not looked at. -/
def decodeStringColumn : Bytes → Except ColumnError (StringColumnData B) := prefixOf (stringColumn p)

def stringMultiColumn : Cursor ColumnError (StringMultiColumnData B) := do
  let num_rows ← readBeU32
  refuse (num_rows > MAX_STRING_COLUMN_ROWS)
    (.segment s!"multi-value string column: num_rows {num_rows} exceeds cap {MAX_STRING_COLUMN_ROWS}")
  let offsets_len := num_rows + 1
  need (offsets_len * 4) fun len pos =>
    .segment s!"multi-value string column: declared num_rows {num_rows} exceeds remaining data {len - pos}"
  let row_offsets ← collect (fun _ => readBeU32) offsets_len 0
  refuse (row_offsets.head? ≠ some 0) (.segment "multi-value string column: row_offsets must start at 0")
  refuse (¬ row_offsets.Pairwise (· ≤ ·))
    (.segment "multi-value string column: row_offsets must be monotonic non-decreasing")
  let num_ordinals := row_offsets.getLast?.getD 0
  refuse (num_ordinals > MAX_STRING_MULTI_ORDINALS)
    (.segment s!"multi-value string column: ordinal count {num_ordinals} exceeds cap {MAX_STRING_MULTI_ORDINALS}")
  need (num_ordinals * 4) fun len pos =>
    .segment s!"multi-value string column: declared ordinal count {num_ordinals} exceeds remaining data {len - pos}"
  let ordinals ← collect (fun _ => readBeU32) num_ordinals 0
  let dictionary ← decodeDictionary "multi-value string column"
  let dict_card := dictionary.length
  checkOrdinals "multi-value string column" "element" dict_card 0 ordinals
  let num_bitmaps ← readBeU32
  refuse (num_bitmaps > MAX_STRING_BITMAPS)
    (.segment s!"multi-value string column: num_bitmaps {num_bitmaps} exceeds cap {MAX_STRING_BITMAPS}")
  refuse (num_bitmaps ≠ dict_card ∧ num_bitmaps ≠ dict_card + 1)
    (.segment (s!"multi-value string column: declared num_bitmaps {num_bitmaps} does not match dictionary cardinality " ++
      s!"{dict_card} (one bitmap per dictionary entry, plus at most one trailing null-row bitmap, expected)"))
  need (num_bitmaps * 4) fun len pos =>
    .segment s!"multi-value string column: declared num_bitmaps {num_bitmaps} exceeds remaining data {len - pos}"
  let bound := min (num_ordinals + num_rows) (2 ^ 64 - 1)
  let bitmap_indexes ← decodeBitmaps p "multi-value string column" num_rows bound
    (fun total =>
      s!"multi-value string column: bitmaps claim {total} total rows, exceeding the element+null bound {bound}")
    num_bitmaps 0 0
  return { dictionary, row_offsets, ordinals, bitmap_indexes }

def decodeStringMultiColumn : Bytes → Except ColumnError (StringMultiColumnData B) :=
  exactly (stringMultiColumn p) fun extra =>
    .segment s!"multi-value string column: {extra} trailing bytes after the bitmaps"

/-! ## Every decoder is local -/

theorem readBeU32_local : Local readBeU32 := bind_local (take_local _ _) fun raw => pure_local (beNat raw)

variable (column : String)

theorem decodeNumbers_local (width : ℕ) (parse : Bytes → α) :
    Local (decodeNumbers column width parse) := by
  refine bind_local (take_local _ _) fun header => ?_
  refine bind_local (refuse_local _ _) fun _ => ?_
  exact bind_local (take_local _ _) fun raw => pure_local _

theorem inRange_local (bm : B) (num_rows : ℕ) (e : ℕ → ColumnError) : Local (inRange p bm num_rows e) := by
  unfold inRange
  split
  · exact refuse_local _ _
  · exact pure_local ()

theorem longNullable_local : Local (longNullable p) := by
  refine bind_local (decodeNumbers_local _ _ _) fun values => ?_
  refine bind_local readBeU32_local fun bm_len => ?_
  refine bind_local (refuse_local _ _) fun _ => ?_
  refine bind_local (take_local _ _) fun raw => ?_
  refine bind_local (ofExcept_local _) fun nulls => ?_
  exact bind_local (inRange_local p nulls _ _) fun _ => pure_local _

theorem decodeSketches_local (cap : ℕ) (deserialize : Bytes → Except String α) :
    Local (decodeSketches column cap deserialize) := by
  have hsketch : ∀ row_idx, Local (decodeSketch column cap deserialize row_idx) := by
    intro row_idx
    refine bind_local readBeU32_local fun blob_len => ?_
    refine bind_local (refuse_local _ _) fun _ => ?_
    exact bind_local (take_local _ _) fun raw => ofExcept_local _
  refine bind_local readBeU32_local fun num_rows => ?_
  refine bind_local (refuse_local _ _) fun _ => ?_
  exact bind_local (need_local _ _) fun _ => collect_local hsketch num_rows 0

theorem decodeDictionary_local : Local (decodeDictionary column) := by
  refine bind_local readBeU32_local fun dict_len => ?_
  refine bind_local (refuse_local _ _) fun _ => ?_
  exact bind_local (take_local _ _) fun raw => ofExcept_local _

theorem decodeBitmaps_local (num_rows bound : ℕ) (excess : ℕ → String) (n bm_idx total : ℕ) :
    Local (decodeBitmaps p column num_rows bound excess n bm_idx total) := by
  induction n generalizing bm_idx total with
  | zero => exact pure_local []
  | succ n ih =>
    refine bind_local readBeU32_local fun bm_len => ?_
    refine bind_local (refuse_local _ _) fun _ => ?_
    refine bind_local (take_local _ _) fun raw => ?_
    refine bind_local (ofExcept_local _) fun bm => ?_
    refine bind_local (inRange_local p bm _ _) fun _ => ?_
    refine bind_local (refuse_local _ _) fun _ => ?_
    exact bind_local (ih _ _) fun rest => pure_local (bm :: rest)

theorem checkOrdinals_local (place : String) (dict_card idx : ℕ) (ords : List ℕ) :
    Local (checkOrdinals column place dict_card idx ords) := by
  induction ords generalizing idx with
  | nil => exact pure_local ()
  | cons ord ords ih => exact bind_local (refuse_local _ _) fun _ => ih (idx + 1)

theorem stringColumn_local : Local (stringColumn p) := by
  refine bind_local readBeU32_local fun num_rows => ?_
  refine bind_local (refuse_local _ _) fun _ => ?_
  refine bind_local (need_local _ _) fun _ => ?_
  refine bind_local (collect_local (fun _ => readBeU32_local) _ _) fun encoded_values => ?_
  refine bind_local (decodeDictionary_local _) fun dictionary => ?_
  refine bind_local readBeU32_local fun num_bitmaps => ?_
  refine bind_local (refuse_local _ _) fun _ => ?_
  refine bind_local (decodeBitmaps_local p _ _ _ _ _ _ _) fun bitmap_indexes => ?_
  refine bind_local (checkOrdinals_local _ _ _ _ _) fun _ => ?_
  exact bind_local (refuse_local _ _) fun _ => pure_local _

theorem stringMultiColumn_local : Local (stringMultiColumn p) := by
  refine bind_local readBeU32_local fun num_rows => ?_
  refine bind_local (refuse_local _ _) fun _ => ?_
  refine bind_local (need_local _ _) fun _ => ?_
  refine bind_local (collect_local (fun _ => readBeU32_local) _ _) fun row_offsets => ?_
  refine bind_local (refuse_local _ _) fun _ => ?_
  refine bind_local (refuse_local _ _) fun _ => ?_
  refine bind_local (refuse_local _ _) fun _ => ?_
  refine bind_local (need_local _ _) fun _ => ?_
  refine bind_local (collect_local (fun _ => readBeU32_local) _ _) fun ordinals => ?_
  refine bind_local (decodeDictionary_local _) fun dictionary => ?_
  refine bind_local (checkOrdinals_local _ _ _ _ _) fun _ => ?_
  refine bind_local readBeU32_local fun num_bitmaps => ?_
  refine bind_local (refuse_local _ _) fun _ => ?_
  refine bind_local (refuse_local _ _) fun _ => ?_
  refine bind_local (need_local _ _) fun _ => ?_
  exact bind_local (decodeBitmaps_local p _ _ _ _ _ _ _) fun bitmap_indexes => pure_local _

/-! ## Trailing bytes -/

inductive ColumnDecoder where
  | long
  | longNullable
  | float
  | double
  | theta
  | hyperUnique
  | string
  | stringMulti
  deriving DecidableEq, Repr

/-- The blob decodes. -/
def Accepts : ColumnDecoder → Bytes → Prop
  | .long, data => ∃ column, decodeLongColumn data = .ok column
  | .longNullable, data => ∃ column, decodeLongColumnNullable p data = .ok column
  | .float, data => ∃ column, decodeFloatColumn data = .ok column
  | .double, data => ∃ column, decodeDoubleColumn data = .ok column
  | .theta, data => ∃ column, decodeThetaColumn p data = .ok column
  | .hyperUnique, data => ∃ column, decodeHyperUniqueColumn p data = .ok column
  | .string, data => ∃ column, decodeStringColumn p data = .ok column
  | .stringMulti, data => ∃ column, decodeStringMultiColumn p data = .ok column

/-- A single-value string column decodes to the same with anything behind it. -/
theorem decodeStringColumn_append {data : Bytes} {column : StringColumnData B}
    (h : decodeStringColumn p data = .ok column) (more : Bytes) : decodeStringColumn p (data ++ more) = .ok column :=
  prefixOf_append (stringColumn_local p) h

/-- An accepted blob is refused with anything behind it, by every decoder but
that of single-value string columns. -/
theorem trailing_refused_iff (decoder : ColumnDecoder) {data more : Bytes} (h : Accepts p decoder data)
    (hmore : more ≠ []) : ¬ Accepts p decoder (data ++ more) ↔ decoder ≠ .string := by
  cases decoder with
  | long => exact iff_of_true (exactly_append (decodeNumbers_local _ _ _) h hmore) (by simp)
  | longNullable => exact iff_of_true (exactly_append (longNullable_local p) h hmore) (by simp)
  | float => exact iff_of_true (exactly_append (decodeNumbers_local _ _ _) h hmore) (by simp)
  | double => exact iff_of_true (exactly_append (decodeNumbers_local _ _ _) h hmore) (by simp)
  | theta => exact iff_of_true (exactly_append (decodeSketches_local _ _ _) h hmore) (by simp)
  | hyperUnique => exact iff_of_true (exactly_append (decodeSketches_local _ _ _) h hmore) (by simp)
  | stringMulti => exact iff_of_true (exactly_append (stringMultiColumn_local p) h hmore) (by simp)
  | string =>
    obtain ⟨column, hc⟩ := h
    exact iff_of_false (not_not.2 ⟨column, decodeStringColumn_append p hc more⟩) (by simp)

/-- No bitmap and no sketch decodes. -/
def noPayloads : Payloads Unit Unit Unit where
  bitmap := fun _ _ => .error (.segment "bitmap data is empty")
  bitmapMax := fun _ => none
  bitmapLen := fun _ => 0
  theta := fun _ => .error "data too short for Theta header"
  hyperUnique := fun _ => .error "data too short for Theta header"

/-- Two rows, 5 and -1. -/
def twoLongs : Bytes := [0, 0, 0, 2, 0, 0, 0, 0, 0, 0, 0, 5, 0xff, 0xff, 0xff, 0xff, 0xff, 0xff, 0xff, 0xff]

theorem trailing_refused_two_longs :
    decodeLongColumn twoLongs = .ok [5, -1] ∧ ¬ Accepts noPayloads .long (twoLongs ++ [0]) := by
  have h : decodeLongColumn twoLongs = .ok [5, -1] := by decide +kernel
  exact ⟨h, (trailing_refused_iff noPayloads .long ⟨_, h⟩ (by simp)).2 (by decide)⟩

/-- A string column without rows: an empty dictionary and no bitmaps. -/
def emptyStringColumn : Bytes :=
  [0, 0, 0, 0, 0, 0, 0, 12, 1, 0, 0, 0, 4, 0, 0, 0, 0, 0, 0, 0, 0, 0, 0, 0]

theorem string_trailing_accepted :
    Accepts noPayloads .string emptyStringColumn ∧ Accepts noPayloads .string (emptyStringColumn ++ [0xff]) := by
  have h : decodeStringColumn noPayloads emptyStringColumn = .ok ⟨[], [], []⟩ := rfl
  exact ⟨⟨_, h⟩, ⟨_, decodeStringColumn_append noPayloads h [0xff]⟩⟩

end FerroDruid.Segment
