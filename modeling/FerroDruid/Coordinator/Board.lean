import FerroDruid.Coordinator.LoadRules
import FerroDruid.Lib.Saturating
import FerroDruid.Lib.Text
/-!
# Servers and assignments

`ServerRegistry` in `ferrodruid-coordinator/src/server.rs` and the maps of
`Coordinator` in `lib.rs`: the size of a server is tracked in the registry, the
segments that are on it in another map.
-/

namespace FerroDruid.Coordinator

open Lib List

/-! ## The registry -/

structure ServerInfo where
  name : String
  host : String
  port : UInt16
  tier : String
  maxSize : UInt64
  currentSize : UInt64
  deriving DecidableEq

namespace ServerInfo

def remaining (server : ServerInfo) : UInt64 := saturatingSub server.maxSize server.currentSize

def canHold (server : ServerInfo) (size : UInt64) : Bool := size ≤ server.remaining

theorem canHold_iff {server : ServerInfo} {size : UInt64} :
    server.canHold size = true ↔ size.toNat ≤ server.maxSize.toNat - server.currentSize.toNat := by
  simp [canHold, remaining, UInt64.le_iff_toNat_le]

end ServerInfo

/-- Every server is under its own name. -/
structure ServerRegistry where
  servers : HashMap String ServerInfo
  named : ∀ name server, servers.lookup name = some server → server.name = name

namespace ServerRegistry

def new : ServerRegistry := ⟨∅, nofun⟩

def register (reg : ServerRegistry) (server : ServerInfo) : ServerRegistry where
  servers := reg.servers.insert server.name server
  named name s h := by
    by_cases hname : name = server.name
    · subst hname
      rw [AList.lookup_insert] at h
      rw [← Option.some.inj h]
    · rw [AList.lookup_insert_ne hname] at h
      exact reg.named name s h

/-- A change of a server that keeps its name. -/
def alter (reg : ServerRegistry) (name : String) (f : ServerInfo → ServerInfo) (hf : ∀ s, (f s).name = s.name) :
    ServerRegistry where
  servers := reg.servers.modify name f
  named name' s h := by
    rw [HashMap.lookup_modify] at h
    split_ifs at h with hname
    · obtain ⟨s', hs', rfl⟩ := Option.map_eq_some_iff.1 h
      rw [hf, reg.named name s' hs', hname]
    · exact reg.named name' s h

def update (reg : ServerRegistry) (name : String) (tier : Option String) (maxSize : Option UInt64) : ServerRegistry :=
  reg.alter name (fun srv => { srv with tier := tier.getD srv.tier, maxSize := maxSize.getD srv.maxSize }) fun _ => rfl

def remove (reg : ServerRegistry) (name : String) : ServerRegistry where
  servers := reg.servers.erase name
  named name' s h := by
    by_cases hname : name' = name
    · rw [hname, AList.lookup_erase] at h
      cases h
    · rw [AList.lookup_erase_ne hname] at h
      exact reg.named name' s h

def get (reg : ServerRegistry) (name : String) : Option ServerInfo := reg.servers.lookup name

/-- Sorted by name. -/
def list (reg : ServerRegistry) : List ServerInfo := reg.servers.values.insertionSort fun a b => a.name ≤ b.name

def addSize (reg : ServerRegistry) (name : String) (size : UInt64) : ServerRegistry :=
  reg.alter name (fun srv => { srv with currentSize := saturatingAdd srv.currentSize size }) fun _ => rfl

def subSize (reg : ServerRegistry) (name : String) (size : UInt64) : ServerRegistry :=
  reg.alter name (fun srv => { srv with currentSize := saturatingSub srv.currentSize size }) fun _ => rfl

variable {reg : ServerRegistry}

theorem mem_list {server : ServerInfo} : server ∈ reg.list ↔ reg.get server.name = some server := by
  rw [list, mem_insertionSort, HashMap.mem_values]
  constructor
  · rintro ⟨name, h⟩
    rwa [reg.named name server h]
  · exact fun h => ⟨_, h⟩

theorem nodup_names (reg : ServerRegistry) : (reg.list.map (·.name)).Nodup := by
  have hkeys : reg.servers.values.map (·.name) = reg.servers.keys := by
    rw [HashMap.values, map_map, AList.keys, List.keys]
    refine map_congr_left fun e he => ?_
    exact reg.named e.1 e.2 (AList.mem_lookup_iff.2 he)
  rw [list, ((perm_insertionSort _ _).map _).nodup_iff, hkeys]
  exact reg.servers.keys_nodup

theorem get_register (server : ServerInfo) (name : String) :
    (reg.register server).get name = if name = server.name then some server else reg.get name := by
  unfold get register
  split_ifs with h
  · rw [h, AList.lookup_insert]
  · rw [AList.lookup_insert_ne h]

theorem get_alter {f : ServerInfo → ServerInfo} {hf : ∀ s, (f s).name = s.name} (name name' : String) :
    (reg.alter name f hf).get name' = if name' = name then (reg.get name).map f else reg.get name' :=
  HashMap.lookup_modify _ _ _ _

theorem get_remove (name name' : String) : (reg.remove name).get name' = if name' = name then none else reg.get name' := by
  unfold get remove
  split_ifs with h
  · rw [h, AList.lookup_erase]
  · rw [AList.lookup_erase_ne h]

end ServerRegistry

/-! ## Assignments -/

structure SegmentAssignment where
  segmentId : String
  dataSource : String
  interval : Interval
  tier : String
  sizeBytes : UInt64
  deriving DecidableEq

inductive SegmentLoadAction where
  | load (server segmentId : String)
  | drop (server segmentId : String)
  deriving DecidableEq

/-- What the two locks guard. -/
structure Board where
  assignments : HashMap String (List SegmentAssignment)
  registry : ServerRegistry

namespace Board

/-- The assignments of a server; one without an entry has none. -/
def on (b : Board) (name : String) : List SegmentAssignment := b.assignments.getD name []

/-- Whether a server has a segment. -/
def holds (b : Board) (name segmentId : String) : Bool := (b.on name).any fun a => a.segmentId = segmentId

/-- The servers that have a segment, in the order of the map. -/
def holders (b : Board) (segmentId : String) : List String := b.assignments.keys.filter (b.holds · segmentId)

/-- An assignment more, and its size. -/
def place (b : Board) (name : String) (a : SegmentAssignment) : Board where
  assignments := if name ∈ b.assignments then b.assignments.modify name (· ++ [a]) else b.assignments.insert name [a]
  registry := b.registry.addSize name a.sizeBytes

/-- Without an assignment of a server, and its size. -/
def unplace (b : Board) (name : String) (rest : List SegmentAssignment) (a : SegmentAssignment) : Board where
  assignments := b.assignments.modify name fun _ => rest
  registry := b.registry.subSize name a.sizeBytes

theorem on_place (b : Board) (name : String) (a : SegmentAssignment) (name' : String) :
    (b.place name a).on name' = if name' = name then b.on name ++ [a] else b.on name' := by
  unfold on place HashMap.getD
  by_cases hmem : name ∈ b.assignments
  · rw [if_pos hmem, HashMap.lookup_modify]
    split_ifs with hname
    · obtain ⟨v, hv⟩ := Option.isSome_iff_exists.1 (AList.lookup_isSome.2 hmem)
      simp [hv]
    · rfl
  · rw [if_neg hmem]
    split_ifs with hname
    · rw [hname, AList.lookup_insert, AList.lookup_eq_none.2 hmem]
      rfl
    · rw [AList.lookup_insert_ne hname]

theorem on_unplace {b : Board} {name : String} (rest : List SegmentAssignment) (a : SegmentAssignment) (hne : b.on name ≠ [])
    (name' : String) : (b.unplace name rest a).on name' = if name' = name then rest else b.on name' := by
  unfold on unplace HashMap.getD at *
  rw [HashMap.lookup_modify]
  split_ifs with hname
  · cases hv : b.assignments.lookup name with
    | none =>
      rw [hv] at hne
      exact absurd rfl hne
    | some v => rfl
  · rfl

theorem mem_holders {b : Board} {segmentId name : String} : name ∈ b.holders segmentId ↔ b.holds name segmentId = true := by
  unfold holders
  rw [mem_filter, and_iff_right_iff_imp]
  intro h
  by_contra hmem
  rw [← AList.mem_keys, ← AList.lookup_eq_none] at hmem
  simp [holds, on, HashMap.getD, hmem] at h

end Board

/-! ## Rows of the metadata store -/

/-- What a balancing cycle reads of a row. -/
structure SegmentMetadataRow where
  id : String
  dataSource : String
  start : String
  stop : String
  payload : Json

def defaultSegmentSizeBytes : UInt64 := 1

def sizeKey : Utf8 := ⟨ascii "size", by decide +kernel⟩

/-- An integer or the text of one, else the default. -/
def segmentSizeBytes (segment : SegmentMetadataRow) : UInt64 :=
  match segment.payload with
  | .object fields =>
    match Json.get fields sizeKey with
    | some (.number n) => ((Json.number n).asU64.map .ofNat).getD defaultSegmentSizeBytes
    | some (.string s) => ((parseUsize (trim s.bytes)).map .ofNat).getD defaultSegmentSizeBytes
    | _ => defaultSegmentSizeBytes
  | _ => defaultSegmentSizeBytes

/-- A bound that does not parse counts as the epoch, or as the start. -/
def segmentInterval (chrono : Chrono) (seg : SegmentMetadataRow) : Interval :=
  let start := (chrono.parseUtc seg.start).getD 0
  ⟨start, (chrono.parseUtc seg.stop).getD start⟩

/-- What the store answers in a cycle. -/
structure MetadataStore where
  getAllDataSources : Except DruidError (List String)
  getUsedSegments : String → Except DruidError (List SegmentMetadataRow)
  getRules : String → Except DruidError (List Json)

def MetadataStore.loadUsedSegments (store : MetadataStore) : Except DruidError (List SegmentMetadataRow) := do
  let dataSources ← store.getAllDataSources
  let rows ← dataSources.mapM store.getUsedSegments
  .ok rows.flatten

/-- A chain for each data source of the segments. -/
def MetadataStore.loadRulesFor (store : MetadataStore) (fromValue : Json → Except String LoadRule)
    (segments : List SegmentMetadataRow) : Except DruidError (HashMap String (List LoadRule)) :=
  (segments.map (·.dataSource)).dedup.foldlM (fun out ds => do
    let raw ← store.getRules ds
    let parsed ← parseRules fromValue raw
    .ok (out.insert ds parsed)) ∅

/-- The id of a segment is the key of its row. -/
def MetadataStore.Keyed (store : MetadataStore) : Prop :=
  ∀ segments, store.loadUsedSegments = .ok segments → (segments.map (·.id)).Nodup

end FerroDruid.Coordinator
