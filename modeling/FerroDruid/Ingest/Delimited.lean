import FerroDruid.Ingest.Rollup
import FerroDruid.Lib.Delimited
/-!
# Delimited text

`parse_delimited` of `ferrodruid-ingest-batch/src/lib.rs`: the lines of a text cut
into cells, and a JSON value for each cell. A `&str` is the list of its characters.
-/

namespace FerroDruid.Ingest

open Lib List

abbrev Text := List Utf8Char

def quoteChar : Utf8Char := .ofAscii 0x22 (by decide)

def newline : Utf8Char := .ofAscii 0x0A (by decide)

def carriageReturn : Utf8Char := .ofAscii 0x0D (by decide)

/-- Ctrl-A. -/
def DEFAULT_LIST_DELIMITER : Text := [.ofAscii 0x01 (by decide)]

inductive Quoting where
  | rfc4180
  | none
  deriving DecidableEq

/-! ## Cells -/

def splitRfc4180Line (line : Text) (delimiter : Utf8Char) : List Text := splitQuoted quoteChar delimiter line

/-- A line without a quote is split as it is. -/
def splitLine (line : Text) (delimiter : Utf8Char) : Quoting → List Text
  | .none => line.splitOn delimiter
  | .rfc4180 => if quoteChar ∈ line then splitRfc4180Line line delimiter else line.splitOn delimiter

/-- `str::split` at a text: the piece so far, and how much of a match is left to
pass over. -/
def splitTextLoop (pattern : Text) : ℕ → Text → Text → List Text
  | _, cur, [] => [cur]
  | skip + 1, cur, _ :: rest => splitTextLoop pattern skip cur rest
  | 0, cur, c :: rest =>
    if pattern <+: c :: rest then cur :: splitTextLoop pattern (pattern.length - 1) [] rest
    else splitTextLoop pattern 0 (cur ++ [c]) rest

def splitText (pattern val : Text) : List Text := splitTextLoop pattern 0 [] val

/-- Several values, a number, or text. -/
def cellValue (listDelim val : Text) : Json :=
  if listDelim <:+: val then .array ((splitText listDelim val).map fun part => .string (Utf8Char.toUtf8 part))
  else
    match parseLong (Utf8Char.encode val) with
    | some n => .ofI64 n
    | none =>
      match parseF64 (Utf8Char.encode val) with
      | some x => if x.isFinite then .ofF64 x else .string (Utf8Char.toUtf8 val)
      | none => .string (Utf8Char.toUtf8 val)

/-! ## Lines -/

/-- `trim().is_empty()` -/
def isBlank (line : Text) : Bool := line.all fun c => c.bytes ∈ whitespace

/-- An empty list delimiter is none. -/
def effectiveListDelimiter : Option Text → Text
  | some (c :: cs) => c :: cs
  | _ => DEFAULT_LIST_DELIMITER

def rowObject (listDelim : Text) (columns : List Utf8) (fields : List Text) : Row :=
  HashMap.insertAll (columns.zip (fields.map (cellValue listDelim))) ∅

/-- The rows from a line on, or the text of the error. -/
def parseLines (columns : List Utf8) (delimiter : Utf8Char) (listDelim : Text) (skipRows : ℕ) (quoting : Quoting) :
    ℕ → List Text → Except String (List Row)
  | _, [] => .ok []
  | lineNum, line :: lines =>
    if lineNum < skipRows ∨ isBlank line then parseLines columns delimiter listDelim skipRows quoting (lineNum + 1) lines
    else
      let fields := splitLine line delimiter quoting
      if fields.length ≠ columns.length then
        .error ("delimited line " ++ toString (lineNum + 1) ++ " has " ++ toString fields.length ++ " fields, expected " ++ toString columns.length)
      else do
        let rows ← parseLines columns delimiter listDelim skipRows quoting (lineNum + 1) lines
        .ok (rowObject listDelim columns fields :: rows)

def parseDelimited (data : Text) (columns : List Utf8) (delimiter : Utf8Char) (listDelimiter : Option Text) (skipRows : ℕ) (quoting : Quoting) :
    Except String (List Row) :=
  parseLines columns delimiter (effectiveListDelimiter listDelimiter) skipRows quoting 0 (textLines newline carriageReturn data)

/-! ## Reading back -/

/-- The rows in RFC 4180 form, each line with its end. -/
def writeDocument (delimiter : Utf8Char) (crlf : Bool) (rows : List (List Text)) : Text :=
  rows.flatMap fun row => writeLine quoteChar delimiter row ++ endOfLine newline carriageReturn crlf

/-- Cells of one line, not all of them blank, and none with the list delimiter. -/
structure Writable (columns : List Utf8) (listDelim : Text) (row : List Text) : Prop where
  width : row.length = columns.length
  oneLine : ∀ cell ∈ row, newline ∉ cell ∧ carriageReturn ∉ cell
  single : ∀ cell ∈ row, ¬ listDelim <:+: cell
  notBlank : ∃ cell ∈ row, isBlank cell = false

/-- Neither a quote nor an end of line. -/
structure Separates (delimiter : Utf8Char) : Prop where
  quote : delimiter ≠ quoteChar
  newline : delimiter ≠ newline
  carriageReturn : delimiter ≠ carriageReturn

variable {columns : List Utf8} {delimiter : Utf8Char} {listDelim : Text}

/-- On a line without a quote the scan and the split agree. -/
theorem splitLine_rfc4180 (line : Text) (delimiter : Utf8Char) : splitLine line delimiter .rfc4180 = splitRfc4180Line line delimiter := by
  rw [splitLine, splitRfc4180Line]
  split_ifs with hquote
  · rfl
  · rw [splitQuoted_plain hquote]

variable {row : List Text}

theorem splitLine_writeLine (hdelimiter : Separates delimiter) (hne : row ≠ []) :
    splitLine (writeLine quoteChar delimiter row) delimiter .rfc4180 = row := by
  rw [splitLine_rfc4180]
  exact splitQuoted_writeLine hdelimiter.quote hne

theorem Writable.ne_nil (h : Writable columns listDelim row) : row ≠ [] := by
  obtain ⟨cell, hcell, -⟩ := h.notBlank
  exact ne_nil_of_mem hcell

theorem Writable.not_isBlank (h : Writable columns listDelim row) : isBlank (writeLine quoteChar delimiter row) = false := by
  obtain ⟨cell, hcell, hblank⟩ := h.notBlank
  rw [isBlank, all_eq_false] at hblank ⊢
  obtain ⟨c, hc, hspace⟩ := hblank
  exact ⟨c, mem_writeLine_of_mem hcell hc, hspace⟩

theorem Writable.clean (h : Writable columns listDelim row) (hdelimiter : Separates delimiter) :
    newline ∉ writeLine quoteChar delimiter row ∧ carriageReturn ∉ writeLine quoteChar delimiter row := by
  constructor
  · intro hmem
    rcases mem_writeLine hmem with heq | heq | ⟨cell, hcell, hc⟩
    · exact hdelimiter.newline heq.symm
    · exact absurd heq (by decide)
    · exact (h.oneLine cell hcell).1 hc
  · intro hmem
    rcases mem_writeLine hmem with heq | heq | ⟨cell, hcell, hc⟩
    · exact hdelimiter.carriageReturn heq.symm
    · exact absurd heq (by decide)
    · exact (h.oneLine cell hcell).2 hc

variable {rows : List (List Text)}

theorem parseLines_writeLines (hdelimiter : Separates delimiter) (h : ∀ row ∈ rows, Writable columns listDelim row) (lineNum : ℕ) :
    parseLines columns delimiter listDelim 0 .rfc4180 lineNum (rows.map (writeLine quoteChar delimiter)) =
      .ok (rows.map (rowObject listDelim columns)) := by
  induction rows generalizing lineNum with
  | nil => rfl
  | cons row rows ih =>
    obtain ⟨hrow, hrows⟩ := forall_mem_cons.1 h
    rw [map_cons, parseLines, hrow.not_isBlank, if_neg (by simp), splitLine_writeLine hdelimiter hrow.ne_nil,
      if_neg (not_not_intro hrow.width), ih hrows]
    rfl

/-- One row for each row that was written, in order. -/
theorem parseDelimited_writeDocument (hdelimiter : Separates delimiter) {listDelimiter : Option Text}
    (h : ∀ row ∈ rows, Writable columns (effectiveListDelimiter listDelimiter) row) (crlf : Bool) :
    parseDelimited (writeDocument delimiter crlf rows) columns delimiter listDelimiter 0 .rfc4180 =
      .ok (rows.map (rowObject (effectiveListDelimiter listDelimiter) columns)) := by
  have hlines : textLines newline carriageReturn (writeDocument delimiter crlf rows) = rows.map (writeLine quoteChar delimiter) := by
    rw [writeDocument, ← flatMap_map (writeLine quoteChar delimiter) (· ++ endOfLine newline carriageReturn crlf)]
    refine textLines_flatMap (by decide) crlf fun line hline => ?_
    obtain ⟨row, hrow, rfl⟩ := mem_map.1 hline
    exact (h row hrow).clean hdelimiter
  rw [parseDelimited, hlines, parseLines_writeLines hdelimiter h]

/-! ## Columns -/

/-- The number that a cell spells: a long, or else a finite float. -/
def spelled (cell : Text) : Option Json :=
  match parseLong (Utf8Char.encode cell) with
  | some n => some (.ofI64 n)
  | none => ((parseF64 (Utf8Char.encode cell)).filter (·.isFinite)).map .ofF64

/-- The value of a string dimension for a cell: its text, unless it spells a number. -/
def dimensionText (b : BatchIngester) (cell : Text) : Utf8 :=
  match spelled cell with
  | some number => b.jsonText number
  | none => Utf8Char.toUtf8 cell

variable {cell : Text}

theorem cellValue_of_single (h : ¬ listDelim <:+: cell) : cellValue listDelim cell = (spelled cell).getD (.string (Utf8Char.toUtf8 cell)) := by
  rw [cellValue, if_neg h, spelled]
  cases parseLong (Utf8Char.encode cell) with
  | some n => rfl
  | none =>
    cases parseF64 (Utf8Char.encode cell) with
    | none => rfl
    | some x => cases hx : x.isFinite <;> simp [Option.filter, hx]

/-- What is spelled is a number. -/
theorem spelled_number {value : Json} (h : spelled cell = some value) : ∃ n, value = .number n := by
  unfold spelled at h
  cases hlong : parseLong (Utf8Char.encode cell) with
  | some n =>
    rw [hlong] at h
    cases h
    exact ⟨_, rfl⟩
  | none =>
    rw [hlong] at h
    obtain ⟨x, hx, rfl⟩ := Option.map_eq_some_iff.1 h
    have hfinite : x.isFinite = true := (Option.filter_eq_some_iff.1 hx).2
    rw [Json.ofF64, dif_pos hfinite]
    exact ⟨_, rfl⟩

theorem isArray_cellValue (h : ¬ listDelim <:+: cell) : BatchIngester.isArray (some (cellValue listDelim cell)) = false := by
  rw [cellValue_of_single h]
  cases hspelled : spelled cell with
  | none => rfl
  | some value =>
    obtain ⟨n, rfl⟩ := spelled_number hspelled
    rfl

variable (b : BatchIngester)

theorem scalarText_cellValue (h : ¬ listDelim <:+: cell) :
    b.scalarText (some (cellValue listDelim cell)) = some (dimensionText b cell) := by
  rw [cellValue_of_single h, dimensionText]
  cases hspelled : spelled cell with
  | none => rfl
  | some value =>
    obtain ⟨n, rfl⟩ := spelled_number hspelled
    rfl

variable {name : Utf8}

/-- The cell under the last column of a name. -/
theorem lookup_rowObject {i : ℕ} (hname : columns[i]? = some name) (hlast : name ∉ columns.drop (i + 1))
    (hcell : row[i]? = some cell) : (rowObject listDelim columns row).lookup name = some (cellValue listDelim cell) := by
  have hentry : (columns.zip (row.map (cellValue listDelim)))[i]? = some (name, cellValue listDelim cell) := by
    rw [getElem?_zip_eq_some]
    exact ⟨hname, by rw [getElem?_map, hcell]; rfl⟩
  obtain ⟨hi, hget⟩ := List.getElem?_eq_some_iff.1 hentry
  have hsplit := take_append_drop i (columns.zip (row.map (cellValue listDelim)))
  rw [drop_eq_getElem_cons hi, hget] at hsplit
  rw [rowObject, ← hsplit, HashMap.insertAll_append, HashMap.insertAll, foldl_cons, ← HashMap.insertAll, HashMap.lookup_insertAll_of_notMem,
    AList.lookup_insert]
  intro hmem
  obtain ⟨⟨name', value⟩, hlater, rfl⟩ := mem_map.1 hmem
  rw [List.zip, drop_zipWith, ← List.zip] at hlater
  exact hlast (of_mem_zip hlater).1

theorem Writable.exists_cell (h : Writable columns listDelim row) {i : ℕ} (hname : columns[i]? = some name)
    (hlast : name ∉ columns.drop (i + 1)) :
    ∃ cell, row[i]? = some cell ∧ ¬ listDelim <:+: cell ∧ (rowObject listDelim columns row).lookup name = some (cellValue listDelim cell) := by
  obtain ⟨hi, -⟩ := List.getElem?_eq_some_iff.1 hname
  have hi : i < row.length := h.width ▸ hi
  have hcell : row[i]? = some row[i] := getElem?_eq_getElem hi
  exact ⟨_, hcell, h.single _ (getElem_mem _), lookup_rowObject hname hlast hcell⟩

/-- What a column of scalars holds for a row. -/
def columnText (b : BatchIngester) (name : Utf8) (obj : Row) : Option Utf8 :=
  match b.scalarText (obj.lookup name) with
  | some s => some s
  | none => if b.legacy then some BatchIngester.emptyText else none

theorem buildStringColumn_of_scalars {rows : List (Int64 × Row)}
    (h : ∀ row ∈ rows, BatchIngester.isArray (row.2.lookup name) = false) :
    b.buildStringColumn name rows = .ok (.string (rows.map fun row => columnText b name row.2)) := by
  have hnone : (rows.any fun row => BatchIngester.isArray (row.2.lookup name)) = false := any_eq_false.2 fun row hrow => by
    rw [h row hrow]
    exact Bool.false_ne_true
  rw [BatchIngester.buildStringColumn, hnone]
  rfl

/-- The column of a name, of rows read from text. -/
theorem buildStringColumn_rowObject (h : ∀ row ∈ rows, Writable columns listDelim row) {i : ℕ}
    (hname : columns[i]? = some name) (hlast : name ∉ columns.drop (i + 1)) {times : List Int64} (htimes : times.length = rows.length) :
    b.buildStringColumn name (times.zip (rows.map (rowObject listDelim columns))) =
      .ok (.string (rows.map fun row => (row[i]?).map (dimensionText b))) := by
  rw [buildStringColumn_of_scalars b]
  · have hsnd : (times.zip (rows.map (rowObject listDelim columns))).map Prod.snd = rows.map (rowObject listDelim columns) :=
      map_snd_zip (by rw [length_map, htimes])
    have hcolumn : (times.zip (rows.map (rowObject listDelim columns))).map (fun row => columnText b name row.2) =
        (rows.map (rowObject listDelim columns)).map (columnText b name) :=
      calc _ = ((times.zip (rows.map (rowObject listDelim columns))).map Prod.snd).map (columnText b name) := map_map.symm
        _ = _ := by rw [hsnd]
    rw [hcolumn, map_map]
    refine congrArg (fun values => Except.ok (ColumnData.string values)) (map_congr_left fun row hrow => ?_)
    obtain ⟨cell, hcell, hsingle, hlookup⟩ := (h row hrow).exists_cell hname hlast
    rw [Function.comp_apply, columnText, hlookup, scalarText_cellValue b hsingle, hcell]
    rfl
  · rintro ⟨time, obj⟩ hmem
    obtain ⟨row, hrow, rfl⟩ := mem_map.1 (of_mem_zip hmem).2
    obtain ⟨cell, -, hsingle, hlookup⟩ := (h row hrow).exists_cell hname hlast
    rw [hlookup, isArray_cellValue hsingle]

/-- Rows of cells written as lines and parsed are one row each, in order. A string
dimension holds the text of a cell, or of the number that the cell spells. Without
quotes the scan and the split agree. -/
theorem csv_readsBack (columns : List Utf8) (delimiter : Utf8Char) (listDelimiter : Option Text) (crlf : Bool) (rows : List (List Text))
    (hdelimiter : Separates delimiter) (h : ∀ row ∈ rows, Writable columns (effectiveListDelimiter listDelimiter) row) :
    (∃ objs, parseDelimited (writeDocument delimiter crlf rows) columns delimiter listDelimiter 0 .rfc4180 = .ok objs ∧ objs.length = rows.length ∧
      ∀ (b : BatchIngester) (times : List Int64), times.length = rows.length → ∀ i name, columns[i]? = some name → name ∉ columns.drop (i + 1) →
        b.buildStringColumn name (times.zip objs) = .ok (.string (rows.map fun row => (row[i]?).map (dimensionText b)))) ∧
    ∀ line : Text, quoteChar ∉ line → splitRfc4180Line line delimiter = line.splitOn delimiter := by
  refine ⟨⟨_, parseDelimited_writeDocument hdelimiter h crlf, length_map _, fun b times htimes i name hname hlast => ?_⟩, fun line hline => ?_⟩
  · exact buildStringColumn_rowObject b h hname hlast htimes
  · exact splitQuoted_plain hline

/-- Some ASCII text. -/
def asciiText (s : String) : Text := s.toList.map fun c => if h : UInt8.ofNat c.toNat < 0x80 then .ofAscii (UInt8.ofNat c.toNat) h else quoteChar

def comma : Utf8Char := .ofAscii 0x2C (by decide)

def cityName : Utf8 := ⟨ascii "city", by decide⟩

def codeName : Utf8 := ⟨ascii "code", by decide⟩

/-- At a city with a comma and a quote in it. -/
theorem csv_readsBack_city :
    ∃ objs, parseDelimited (writeDocument comma true [[asciiText "Paris, \"TX\"", asciiText "a7"]])
    [cityName, codeName] comma none 0 .rfc4180 = .ok objs ∧
      ∀ b : BatchIngester, b.buildStringColumn codeName ([0].zip objs) = .ok (.string [some (dimensionText b (asciiText "a7"))]) := by
  have hwritable : ∀ row ∈ [[asciiText "Paris, \"TX\"", asciiText "a7"]], Writable [cityName, codeName] (effectiveListDelimiter none) row := by
    intro row hrow
    rw [mem_singleton.1 hrow]
    exact ⟨rfl, by decide, by decide, by decide⟩
  obtain ⟨⟨objs, hobjs, -, hcolumn⟩, -⟩ := csv_readsBack [cityName, codeName] comma none true [[asciiText "Paris, \"TX\"", asciiText "a7"]]
    ⟨by decide, by decide, by decide⟩ hwritable
  exact ⟨objs, hobjs, fun b => hcolumn b [0] rfl 1 codeName rfl (by decide)⟩

/-- Every value is shown as the number 7. -/
def sevenIngester : BatchIngester where
  dimSchemas := [⟨codeName, .string⟩]
  metricsSpecs := []
  extractTimestamp _ := .ok 0
  chrono := ⟨fun _ => ⟨1970, 1, 1, 0, 0, 0, 0⟩, fun _ => 0⟩
  jsonText _ := ⟨ascii "7", by decide⟩
  legacy := false

/-- A code with zeros before it is kept as a number, and the text of that has none. -/
theorem padded_code_shortened :
    parseDelimited (writeDocument comma true [[asciiText "007"]]) [codeName] comma none 0 .rfc4180 = .ok [(∅ : Row).insert codeName (.ofI64 7)] ∧
      sevenIngester.buildStringColumn codeName [(0, (∅ : Row).insert codeName (.ofI64 7))] = .ok (.string [some ⟨ascii "7", by decide⟩]) ∧
      (⟨ascii "7", by decide⟩ : Utf8) ≠ Utf8Char.toUtf8 (asciiText "007") := ⟨by decide +kernel, rfl, by decide +kernel⟩

end FerroDruid.Ingest
