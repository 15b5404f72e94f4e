import FerroDruid.Lib.HashMap
import FerroDruid.Lib.Lines
import FerroDruid.Lib.Text
/-!
# Smoosh archives

`SmooshWriter::finish` of `ferrodruid-segment/src/writer.rs` and `SmooshReader`
of `ferrodruid-segment/src/smoosh.rs`. An archive is one chunk of concatenated
files and a text index of their names and offsets. Names are the bytes of their
UTF-8.
-/

namespace FerroDruid.Segment

open Lib

inductive SmooshError where
  | tooManyFiles (files : ℕ)
  | chunkTooLarge (size : ℕ)
  | emptyMeta
  | unsupportedHeader
  | badMaxChunkSize
  | badNumFiles
  | numFilesExceedsCap (numFiles : ℕ)
  | malformedEntry (line : Bytes)
  | badFileNumber
  | fileNumberExceedsCap (fileNumber : ℕ)
  | badStartOffset
  | badEndOffset
  | entryCountExceedsCap (declared : ℕ)
  | fileNotFound (name : Bytes)
  | chunkOutOfRange (fileNumber chunks : ℕ)
  | reversedOffsets (name : Bytes) (start stop : ℕ)
  | pastEndOfChunk (name : Bytes) (stop size : ℕ)
  deriving DecidableEq, Repr

def maxSmooshEntries : ℕ := 16384

def maxSmooshChunks : ℕ := 65536

def smooshMaxChunkSize : ℕ := 2147483647

def comma : UInt8 := 0x2C

def newline : UInt8 := 0x0A

/-! ## Writing -/

/-- Sum the lengths, failing on the running total. -/
def checkedChunkSize : ℕ → List ℕ → Except SmooshError ℕ
  | running, [] => .ok running
  | running, len :: lens =>
    if smooshMaxChunkSize < running + len then .error (.chunkTooLarge (running + len))
    else checkedChunkSize (running + len) lens

def metaHeader (numFiles : ℕ) : Bytes :=
  ascii "v1" ++ comma :: decimal smooshMaxChunkSize ++ comma :: decimal numFiles

def metaLine (name : Bytes) (start stop : ℕ) : Bytes :=
  name ++ comma :: decimal 0 ++ comma :: decimal start ++ comma :: decimal stop

/-- A line for each file, which starts where the one before it ended. -/
def metaEntries : ℕ → List (Bytes × Bytes) → List Bytes
  | _, [] => []
  | start, (name, data) :: files => metaLine name start (start + data.length) :: metaEntries (start + data.length) files

/-- `SmooshWriter::finish`: the index and the one chunk. -/
def finish (files : List (Bytes × Bytes)) : Except SmooshError (Bytes × List Bytes) := do
  if maxSmooshEntries < files.length then throw (.tooManyFiles files.length)
  let _ ← checkedChunkSize 0 (files.map (·.2.length))
  return ([newline].intercalate (metaHeader files.length :: metaEntries 0 files), [files.flatMap (·.2)])

/-! ## Reading -/

structure SmooshEntry where
  fileNumber : ℕ
  startOffset : ℕ
  endOffset : ℕ
  deriving DecidableEq, Repr

structure SmooshReader where
  entries : HashMap Bytes SmooshEntry
  chunks : List Bytes
  sidecars : HashMap Bytes Bytes

def number (bs : Bytes) (e : SmooshError) : Except SmooshError ℕ :=
  match parseUsize bs with
  | some n => .ok n
  | none => .error e

/-- One line, trimmed and not empty; fields past the fourth are not looked at. -/
def parseEntry (line : Bytes) : Except SmooshError (Bytes × SmooshEntry) :=
  match line.splitOn comma with
  | name :: fileNumber :: start :: stop :: _ => do
    let fileNumber ← number fileNumber .badFileNumber
    if maxSmooshChunks ≤ fileNumber then throw (.fileNumberExceedsCap fileNumber)
    let start ← number start .badStartOffset
    let stop ← number stop .badEndOffset
    return (name, ⟨fileNumber, start, stop⟩)
  | _ => throw (.malformedEntry line)

/-- The last entry of a name wins. -/
def parseEntries (declared : ℕ) : List Bytes → (maxChunk : ℕ) → HashMap Bytes SmooshEntry →
    Except SmooshError (ℕ × HashMap Bytes SmooshEntry)
  | [], maxChunk, entries => .ok (maxChunk, entries)
  | line :: rest, maxChunk, entries =>
    if trim line = [] then parseEntries declared rest maxChunk entries
    else do
      let (name, entry) ← parseEntry (trim line)
      let entries := entries.insert name entry
      if maxSmooshEntries < entries.keys.length then throw (.entryCountExceedsCap declared)
      parseEntries declared rest (max maxChunk (entry.fileNumber + 1)) entries

/-- The maximum chunk size, the number of chunks and the entries. -/
def parseMeta (text : Bytes) : Except SmooshError (ℕ × ℕ × HashMap Bytes SmooshEntry) :=
  match lines text with
  | [] => .error .emptyMeta
  | header :: rest =>
    match header.splitOn comma with
    | version :: maxSize :: numFiles :: _ => do
      if version ≠ ascii "v1" then throw .unsupportedHeader
      let maxSize ← number maxSize .badMaxChunkSize
      let numFiles ← number numFiles .badNumFiles
      if maxSmooshEntries < numFiles then throw (.numFilesExceedsCap numFiles)
      let (maxChunk, entries) ← parseEntries numFiles rest 0 ∅
      return (maxSize, if entries.keys.isEmpty then 0 else maxChunk, entries)
    | _ => .error .unsupportedHeader

def fromParts (text : Bytes) (chunks : List Bytes) : Except SmooshError SmooshReader := do
  let (_, _, entries) ← parseMeta text
  return ⟨entries, chunks, ∅⟩

namespace SmooshReader

def readFile (r : SmooshReader) (name : Bytes) : Except SmooshError Bytes :=
  match r.entries.lookup name with
  | none =>
    match r.sidecars.lookup name with
    | some bytes => .ok bytes
    | none => .error (.fileNotFound name)
  | some entry =>
    match r.chunks[entry.fileNumber]? with
    | none => .error (.chunkOutOfRange entry.fileNumber r.chunks.length)
    | some chunk =>
      if entry.endOffset < entry.startOffset then .error (.reversedOffsets name entry.startOffset entry.endOffset)
      else if chunk.length < entry.endOffset then .error (.pastEndOfChunk name entry.endOffset chunk.length)
      else .ok ((chunk.drop entry.startOffset).take (entry.endOffset - entry.startOffset))

end SmooshReader

end FerroDruid.Segment
