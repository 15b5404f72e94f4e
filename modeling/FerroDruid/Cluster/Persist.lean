import FerroDruid.Cluster.Manager
import FerroDruid.Lib.Lines
import Mathlib.Data.List.Destutter
import Mathlib.Data.List.Sort
/-!
# `PersistentRaftState`: journal, snapshot and meta on disk

The three files of `persist.rs` as bytes. `serde_json` is a `Codec` for each
record it writes; the disk itself does not fail, so the only errors are
records that do not parse. The temporary files of an atomic replace are never
read and are left out: a replace happens at its `rename`.
-/

namespace FerroDruid.Cluster

open FerroDruid.Lib

abbrev Bytes := List UInt8

/-- `serde_json` at one type: `to_vec`, and `from_slice` with its error text.
Bytes that are not UTF-8 count as a decode error. -/
structure Codec (α : Type) where
  to_vec : α → Bytes
  from_slice : Bytes → Except String α

structure PersistedMeta where
  current_term : Nat := 0
  voted_for : Option String := none
  last_index : Nat := 0
  deriving DecidableEq, Repr

structure PersistedEntry where
  index : Nat
  term : Nat
  command : ClusterCommand
  deriving DecidableEq, Repr

structure PersistedSnapshot where
  last_index : Nat
  term : Nat
  snapshot : ClusterSnapshot
  deriving DecidableEq

inductive PersistError where
  | Deserialize (path reason : String)
  deriving DecidableEq, Repr

def PersistError.text : PersistError → String
  | .Deserialize path reason => s!"deserialize from {path}: {reason}"

/-- The third-party code the crate calls. -/
structure Deps where
  chrono : Chrono
  meta_json : Codec PersistedMeta
  entry_json : Codec PersistedEntry
  envelope_json : Codec PersistedSnapshot
  snapshot_json : Codec ClusterSnapshot

/-- The files of the state directory; `none` is a file that does not exist. -/
structure Files where
  meta_json : Option Bytes := none
  snapshot_json : Option Bytes := none
  log_jsonl : Option Bytes := none
  deriving DecidableEq, Repr

/-- The directory, its files, and the meta record kept in memory. -/
structure PersistentRaftState where
  dir : String
  files : Files
  raft_meta : PersistedMeta
  deriving DecidableEq, Repr

def META_FILENAME : String := "meta.json"

def SNAPSHOT_FILENAME : String := "snapshot.json"

def JOURNAL_FILENAME : String := "log.jsonl"

namespace PersistentRaftState

variable (deps : Deps)

def path (dir filename : String) : String := s!"{dir}/{filename}"

def openOrCreate (dir : String) (files : Files) : Except PersistError PersistentRaftState :=
  let opened := { files with log_jsonl := some (files.log_jsonl.getD []) }
  match files.meta_json with
  | none => .ok { dir, files := opened, raft_meta := {} }
  | some bytes => match deps.meta_json.from_slice bytes with
    | .ok m => .ok { dir, files := opened, raft_meta := m }
    | .error e => .error (.Deserialize (path dir META_FILENAME) e)

/-! ## Reading -/

/-- `line.trim().is_empty()`. -/
def isBlank (l : Bytes) : Bool := l.all fun b => b = 32 || (9 ≤ b && b ≤ 13)

/-- The loop of `load_log_entries` from line `line_no` on. -/
def parseLines (dir : String) (cutoff : Nat) : Nat → List Bytes → Except PersistError (List PersistedEntry)
  | _, [] => .ok []
  | line_no, l :: ls =>
    if isBlank l then parseLines dir cutoff (line_no + 1) ls
    else match deps.entry_json.from_slice l with
      | .error e => .error (.Deserialize (path dir JOURNAL_FILENAME) s!"line {line_no}: {e}")
      | .ok entry => match parseLines dir cutoff (line_no + 1) ls with
        | .error e => .error e
        | .ok rest => .ok (if entry.index > cutoff then entry :: rest else rest)

/-- `Vec::dedup_by_key`: of neighbours with one index the first stays. -/
def dedupByIndex (es : List PersistedEntry) : List PersistedEntry :=
  es.destutter fun a b => a.index ≠ b.index

/-- `sort_by_key` is stable, and so is insertion: of equals the earlier stays
in front. -/
def sortByIndex (es : List PersistedEntry) : List PersistedEntry :=
  es.insertionSort fun a b => a.index ≤ b.index

def loadLogEntries (st : PersistentRaftState) (cutoff : Nat) : Except PersistError (List PersistedEntry) :=
  match st.files.log_jsonl with
  | none => .ok []
  | some bytes => match parseLines deps st.dir cutoff 0 (lines bytes) with
    | .error e => .error e
    | .ok out => .ok (dedupByIndex (sortByIndex out))

def loadSnapshot (st : PersistentRaftState) : Except PersistError (Option PersistedSnapshot) :=
  match st.files.snapshot_json with
  | none => .ok none
  | some bytes => match deps.envelope_json.from_slice bytes with
    | .ok s => .ok (some s)
    | .error e => .error (.Deserialize (path st.dir SNAPSHOT_FILENAME) e)

def replay (st : PersistentRaftState) :
    Except PersistError (Option PersistedSnapshot × List PersistedEntry × PersistedMeta) :=
  match loadSnapshot deps st with
  | .error e => .error e
  | .ok snapshot =>
    let cutoff := (snapshot.map (·.last_index)).getD 0
    match loadLogEntries deps st cutoff with
    | .error e => .error e
    | .ok entries => .ok (snapshot, entries, st.raft_meta)

/-! ## Writing -/

/-- A journal line. -/
def line (e : PersistedEntry) : Bytes := deps.entry_json.to_vec e ++ [10]

/-- `write_all` on the journal, opened for append. -/
def pushJournal (st : PersistentRaftState) (bytes : Bytes) : PersistentRaftState :=
  { st with files := { st.files with log_jsonl := some (st.files.log_jsonl.getD [] ++ bytes) } }

def replaceMeta (st : PersistentRaftState) (m : PersistedMeta) : PersistentRaftState :=
  { st with raft_meta := m, files := { st.files with meta_json := some (deps.meta_json.to_vec m) } }

def replaceSnapshot (st : PersistentRaftState) (s : PersistedSnapshot) : PersistentRaftState :=
  { st with files := { st.files with snapshot_json := some (deps.envelope_json.to_vec s) } }

def replaceJournal (st : PersistentRaftState) (es : List PersistedEntry) : PersistentRaftState :=
  { st with files := { st.files with log_jsonl := some (es.flatMap (line deps)) } }

def appendLogEntry (st : PersistentRaftState) (index term : Nat) (cmd : ClusterCommand) : PersistentRaftState :=
  let pushed := pushJournal st (line deps { index, term, command := cmd })
  replaceMeta deps pushed
    { current_term := max st.raft_meta.current_term term, voted_for := st.raft_meta.voted_for, last_index := index }

def compactJournal (st : PersistentRaftState) (cutoff : Nat) : Except PersistError PersistentRaftState :=
  match loadLogEntries deps st cutoff with
  | .error e => .error e
  | .ok entries => .ok (replaceJournal deps st entries)

/-- The snapshot is replaced first; a journal that does not parse stops the
install there. -/
def installSnapshot (st : PersistentRaftState) (snapshot : ClusterSnapshot) (last_index term : Nat) :
    Except PersistError Unit × PersistentRaftState :=
  let written := replaceSnapshot deps st { last_index, term, snapshot }
  match compactJournal deps written last_index with
  | .error e => (.error e, written)
  | .ok compacted =>
    let rolled : PersistedMeta :=
      { current_term := max st.raft_meta.current_term term
        voted_for := st.raft_meta.voted_for
        last_index := max st.raft_meta.last_index last_index }
    (.ok (), replaceMeta deps compacted rolled)

end PersistentRaftState

end FerroDruid.Cluster
