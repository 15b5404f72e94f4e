import FerroDruid.Historical.Ledger
import FerroDruid.Lib.Bytes
import FerroDruid.Lib.Run
import Mathlib.Algebra.BigOperators.Group.Finset.Basic
/-!
# The ledger is the sum of what is loaded

Each call works out the bytes that it removes and adds before it changes the maps.
They are those of the change, with one exception: a segment with a wrong
`time_sorted` flag whose reference is shared is copied when it is installed, after
it was measured, and a copy has no spare capacity.
-/

namespace FerroDruid.Historical

open Lib List

variable {B T H : Type} {node : Node B T H} {h : Heap B T H}

/-- The bytes of everything that is loaded or mapped. -/
def Heap.charged (node : Node B T H) (h : Heap B T H) : ℕ :=
  h.segments.weight (fun s => (storedBytes node s).toNat) + h.segmentDatasources.weight fun s => (storedDatasourceBytes s).toNat

/-- The ledger is exact and in its limit, and no mapping is without its segment. -/
structure Balanced (node : Node B T H) (h : Heap B T H) : Prop where
  exact : h.currentCacheBytes.toNat = h.charged node
  bounded : h.currentCacheBytes.toNat ≤ node.maxCacheBytes.toNat
  mapped : ∀ id, id ∈ h.segmentDatasources → id ∈ h.segments

/-- No segment is spilled. -/
def AllResident (h : Heap B T H) : Prop := ∀ id loaded, h.segments.lookup id = some loaded → ∃ data, loaded.value.residency = .resident data

/-! ## Deltas -/

/-- The limit is below the top of the type, or the sizes are. -/
def Fits (node : Node B T H) (h : Heap B T H) (added : ℕ) : Prop :=
  node.maxCacheBytes.toNat < 2 ^ 64 - 1 ∨ h.charged node + added < 2 ^ 64

theorem ensureCacheLimit_ok {observed maximum : UInt64} {u : Unit} : ensureCacheLimit observed maximum = .ok u ↔ observed ≤ maximum := by
  unfold ensureCacheLimit
  split_ifs with hlt
  · simp [hlt]
  · simpa using hlt

/-- A delta that passes the limit is exact. -/
theorem cacheBytesAfterDelta_exact {current removed added maximum : UInt64} {r a : ℕ} (hremoved : Clipped removed r)
    (hadded : Clipped added a) (hle : r ≤ current.toNat) (hlimit : cacheBytesAfterDelta current removed added ≤ maximum)
    (hfits : maximum.toNat < 2 ^ 64 - 1 ∨ current.toNat + a < 2 ^ 64) :
    (cacheBytesAfterDelta current removed added).toNat + r = current.toNat + a := by
  have hcurrent := current.toNat_lt
  rw [UInt64.le_iff_toNat_le] at hlimit
  unfold cacheBytesAfterDelta Clipped at *
  rw [toNat_saturatingAdd, toNat_saturatingSub] at *
  omega

/-! ## Maps -/

section

variable {α : Type} {m : HashMap String (Stored α)} {w : Stored α → ℕ}

theorem weight_erase_of_none {id : String} (hfresh : m.lookup id = none) : HashMap.weight w (m.erase id) = m.weight w := by
  have := HashMap.weight_erase w m id
  rwa [hfresh, Option.map_none, Option.getD_none, Nat.add_zero] at this

theorem weight_erase_of_some {id : String} {s : Stored α} (hs : m.lookup id = some s) : HashMap.weight w (m.erase id) + w s = m.weight w := by
  have := HashMap.weight_erase w m id
  rwa [hs] at this

theorem weight_insertStored_fresh {key : Text} (value : α) (hfresh : m.lookup key.text = none) :
    (insertStored m key value).weight w = m.weight w + w ⟨key.capacity, value⟩ := by
  rw [insertStored, hfresh, HashMap.weight_insert, weight_erase_of_none hfresh, Nat.add_comm]
  rfl

theorem weight_insertStored {key : Text} {old : Stored α} (value : α) (hold : m.lookup key.text = some old) :
    (insertStored m key value).weight w + w old = m.weight w + w ⟨old.keyCapacity, value⟩ := by
  have := weight_erase_of_some (w := w) hold
  rw [insertStored, hold, HashMap.weight_insert]
  simp only [Option.map_some, Option.getD_some]
  omega

theorem mem_insertStored {key : Text} {value : α} {id : String} : id ∈ insertStored m key value ↔ id = key.text ∨ id ∈ m :=
  AList.mem_insert _

end

/-! ## Installed segments -/

/-- An entry weighs what was measured, unless a copy of it weighs something else. -/
def Recounted (p : Platform B T H) (data : Arc (SegmentData B T H)) : Prop :=
  data.shared = true → data.value.timeSorted ≠ derivedTimeSorted data.value →
    estimateSegmentBytes p (data.value.clone p) = estimateSegmentBytes p data.value

theorem resident_estimatedBytes {p : Platform B T H} {data : Arc (SegmentData B T H)} (hdata : Recounted p data) :
    (SegmentEntry.resident p data).estimatedBytes = estimateSegmentBytes p data.value := by
  unfold SegmentEntry.resident Arc.makeMut
  simp only
  split_ifs with hflag hshared
  · rw [estimateSegmentBytes_timeSorted]
    exact hdata hshared hflag
  · rfl
  · rfl

theorem resident_schema (p : Platform B T H) (data : Arc (SegmentData B T H)) :
    (SegmentEntry.resident p data).schema = CachedSchema.fromSegment p data.value := by
  unfold SegmentEntry.resident Arc.makeMut
  simp only
  split_ifs with hflag hshared
  · rw [fromSegment_timeSorted, fromSegment_clone]
  · rfl
  · rfl

theorem resident_residency (p : Platform B T H) (data : Arc (SegmentData B T H)) :
    ∃ d, (SegmentEntry.resident p data).residency = .resident d := ⟨_, rfl⟩

theorem allResident_insert {key : Text} {data : Arc (SegmentData B T H)} (hres : AllResident h) (next : UInt64)
    (datasources : HashMap String (Stored Text)) :
    AllResident ⟨insertStored h.segments key (.resident node.platform data), datasources, next⟩ := by
  intro id loaded hloaded
  by_cases hid : id = key.text
  · subst hid
    simp only [insertStored, AList.lookup_insert, Option.some.injEq] at hloaded
    subst hloaded
    exact resident_residency _ _
  · simp only [insertStored, AList.lookup_insert_ne hid] at hloaded
    exact hres id loaded hloaded

/-! ## Calls on one segment -/

/-- A call that fails its check leaves the heap, another one changes it. -/
theorem commit_keeps {P : Heap B T H → Prop} {checked : Except DruidError UInt64} {change : UInt64 → Heap B T H} (hsame : P h)
    (hchange : ∀ next, checked = .ok next → P (change next)) : P (h.commit checked change).1 := by
  cases checked with
  | error e => exact hsame
  | ok next => exact hchange next rfl

/-- What a load adds to a heap. -/
def loadBytes (node : Node B T H) (segmentId : String) (segment : SegmentData B T H) : UInt64 :=
  storedBytes node ⟨(Text.ofStr segmentId).capacity, .resident node.platform (.new segment)⟩

def mappingBytes (segmentId datasource : String) : UInt64 :=
  datasourceEntryBytes (Text.ofStr segmentId).capacity (.ofStr datasource)

/-- Every mapping has its segment. -/
def Mapped (h : Heap B T H) : Prop := ∀ id, id ∈ h.segmentDatasources → id ∈ h.segments

theorem lookup_datasource_of_unloaded (hmapped : Mapped h) {id : String} (hid : h.segments.lookup id = none) :
    h.segmentDatasources.lookup id = none := by
  rw [AList.lookup_eq_none] at hid ⊢
  exact fun hmem => hid (hmapped id hmem)

theorem tryAdmit_ok {removed added next : UInt64} (hroom : h.tryAdmit node removed added = .ok next) :
    next = cacheBytesAfterDelta h.currentCacheBytes removed added ∧ next ≤ node.maxCacheBytes := by
  obtain ⟨_, hlimit, hnext⟩ := bind_eq_ok.1 hroom
  cases hnext
  exact ⟨rfl, ensureCacheLimit_ok.1 hlimit⟩

theorem ensureNotLoaded_ok {id why : String} {u : Unit} (hok : h.ensureNotLoaded id why = .ok u) : h.segments.lookup id = none := by
  unfold Heap.ensureNotLoaded at hok
  split_ifs at hok with hloaded
  simpa using hloaded

/-- What is loaded besides stays, and the ledger grows by what is added. -/
theorem balanced_insert (hb : Balanced node h) {id : String} (hfresh : h.segments.lookup id = none) {data : Arc (SegmentData B T H)}
    {datasources : HashMap String (Stored Text)} {next : UInt64}
    (hmapped : ∀ i, i ∈ datasources → i = id ∨ i ∈ h.segmentDatasources)
    (hexact : next.toNat + h.segmentDatasources.weight (fun s => (storedDatasourceBytes s).toNat) = h.currentCacheBytes.toNat +
      (storedBytes node ⟨(Text.ofStr id).capacity, .resident node.platform data⟩).toNat +
      datasources.weight (fun s => (storedDatasourceBytes s).toNat)) (hbounded : next ≤ node.maxCacheBytes) :
    Balanced node ⟨insertStored h.segments (.ofStr id) (.resident node.platform data), datasources, next⟩ where
  exact := by
    have hcharged := hb.exact
    unfold Heap.charged at *
    dsimp only
    rw [weight_insertStored_fresh _ hfresh]
    omega
  bounded := UInt64.le_iff_toNat_le.1 hbounded
  mapped := fun i hi => mem_insertStored.2 ((hmapped i hi).imp_right (hb.mapped i))

theorem weight_mapping {id : String} (hfresh : h.segmentDatasources.lookup id = none) (datasource : String) :
    (insertStored h.segmentDatasources (.ofStr id) (.ofStr datasource)).weight (fun s => (storedDatasourceBytes s).toNat) =
      h.segmentDatasources.weight (fun s => (storedDatasourceBytes s).toNat) + (mappingBytes id datasource).toNat :=
  weight_insertStored_fresh _ hfresh

theorem balanced_loadSegment (hb : Balanced node h) {segmentId : String} {segment : SegmentData B T H}
    (hfits : Fits node h (loadBytes node segmentId segment).toNat) : Balanced node (h.loadSegment node segmentId segment).1 := by
  unfold Heap.loadSegment
  refine commit_keeps hb fun next hchecked => ?_
  obtain ⟨_, -, hchecked⟩ := bind_eq_ok.1 hchecked
  obtain ⟨_, hloaded, hroom⟩ := bind_eq_ok.1 hchecked
  obtain ⟨rfl, hlimit⟩ := tryAdmit_ok hroom
  have hexact := cacheBytesAfterDelta_exact (clipped_toNat 0) (clipped_toNat (loadBytes node segmentId segment)) (Nat.zero_le _)
    hlimit (hb.exact ▸ hfits)
  refine balanced_insert hb (ensureNotLoaded_ok hloaded) (fun i hi => .inr hi) ?_ hlimit
  exact congrArg (· + h.segmentDatasources.weight fun s => (storedDatasourceBytes s).toNat) hexact

theorem balanced_loadSegmentWithDatasource (hb : Balanced node h) {segmentId datasource : String} {segment : SegmentData B T H}
    (hfits : Fits node h ((loadBytes node segmentId segment).toNat + (mappingBytes segmentId datasource).toNat)) :
    Balanced node (h.loadSegmentWithDatasource node segmentId datasource segment).1 := by
  unfold Heap.loadSegmentWithDatasource
  refine commit_keeps hb fun next hchecked => ?_
  obtain ⟨_, -, hchecked⟩ := bind_eq_ok.1 hchecked
  obtain ⟨_, hloaded, hroom⟩ := bind_eq_ok.1 hchecked
  obtain ⟨rfl, hlimit⟩ := tryAdmit_ok hroom
  have hadded := (clipped_toNat (loadBytes node segmentId segment)).add (clipped_toNat (mappingBytes segmentId datasource))
  have hexact := cacheBytesAfterDelta_exact (clipped_toNat 0) hadded (Nat.zero_le _) hlimit (hb.exact ▸ hfits)
  have hmapping := weight_mapping (lookup_datasource_of_unloaded hb.mapped (ensureNotLoaded_ok hloaded)) datasource
  refine balanced_insert hb (ensureNotLoaded_ok hloaded) (fun i => mem_insertStored.1) ?_ hlimit
  calc _ = (h.currentCacheBytes.toNat + ((loadBytes node segmentId segment).toNat + (mappingBytes segmentId datasource).toNat)) +
        h.segmentDatasources.weight (fun s => (storedDatasourceBytes s).toNat) := congrArg (· + _) hexact
    _ = _ := by
      unfold loadBytes
      omega

/-- The bytes that a mapping gets, under the key that is there. -/
def remappedBytes (h : Heap B T H) (segmentId datasource : String) : UInt64 :=
  datasourceEntryBytes (((h.segmentDatasources.lookup segmentId).map (·.keyCapacity)).getD (Text.ofStr segmentId).capacity)
    (.ofStr datasource)

theorem balanced_setSegmentDatasource (hb : Balanced node h) {segmentId datasource : String}
    (hfits : Fits node h (remappedBytes h segmentId datasource).toNat) :
    Balanced node (h.setSegmentDatasource node segmentId datasource).1 := by
  unfold Heap.setSegmentDatasource
  refine commit_keeps hb fun next hchecked => ?_
  cases hloaded : h.segments.lookup segmentId with
  | none => simp [hloaded] at hchecked
  | some loaded =>
    have hmem : segmentId ∈ h.segments := by
      rw [← AList.lookup_isSome, hloaded]
      rfl
    have hmapped : ∀ i, i ∈ insertStored h.segmentDatasources (.ofStr segmentId) (.ofStr datasource) → i ∈ h.segments := fun i hi => by
      rcases mem_insertStored.1 hi with rfl | hi
      · exact hmem
      · exact hb.mapped i hi
    rw [hloaded] at hchecked
    simp only at hchecked
    split at hchecked
    · cases hchecked
    obtain ⟨_, -, hroom⟩ := bind_eq_ok.1 hchecked
    have hcharged := hb.exact
    unfold Heap.charged at hcharged
    unfold remappedBytes at hfits
    cases hold : h.segmentDatasources.lookup segmentId with
    | none =>
      rw [hold] at hroom hfits
      obtain ⟨rfl, hlimit⟩ := tryAdmit_ok hroom
      have hexact := cacheBytesAfterDelta_exact (clipped_toNat 0) (clipped_toNat (mappingBytes segmentId datasource)) (Nat.zero_le _)
        hlimit (hb.exact ▸ hfits)
      refine ⟨?_, UInt64.le_iff_toNat_le.1 hlimit, hmapped⟩
      unfold Heap.charged
      rw [weight_mapping hold, ← Nat.add_assoc, ← hcharged]
      exact hexact
    | some old =>
      rw [hold] at hroom hfits
      obtain ⟨rfl, hlimit⟩ := tryAdmit_ok hroom
      have hle : (storedDatasourceBytes old).toNat ≤ h.currentCacheBytes.toNat := by
        have := weight_erase_of_some (w := fun s => (storedDatasourceBytes s).toNat) hold
        omega
      have hexact := cacheBytesAfterDelta_exact (clipped_toNat (storedDatasourceBytes old))
        (clipped_toNat (datasourceEntryBytes old.keyCapacity (.ofStr datasource))) hle hlimit (hb.exact ▸ hfits)
      have hmapping : (insertStored h.segmentDatasources (.ofStr segmentId) (.ofStr datasource)).weight
            (fun s => (storedDatasourceBytes s).toNat) + (storedDatasourceBytes old).toNat =
          h.segmentDatasources.weight (fun s => (storedDatasourceBytes s).toNat) +
            (datasourceEntryBytes old.keyCapacity (.ofStr datasource)).toNat := weight_insertStored _ hold
      refine ⟨?_, UInt64.le_iff_toNat_le.1 hlimit, hmapped⟩
      unfold Heap.charged
      dsimp only
      omega

/-! ## Dropped segments -/

/-- What a loaded id is charged for. -/
def Heap.weightOf (node : Node B T H) (h : Heap B T H) (id : String) : ℕ :=
  match h.segments.lookup id with
  | none => 0
  | some loaded =>
    (storedBytes node loaded).toNat + ((h.segmentDatasources.lookup id).map fun s => (storedDatasourceBytes s).toNat).getD 0

theorem clipped_loadedBytes {id : String} {loaded : Stored (SegmentEntry B T H)} (hloaded : h.segments.lookup id = some loaded)
    {x : UInt64} {m : ℕ} (hx : Clipped x m) : Clipped (h.loadedBytes node id x loaded) (m + h.weightOf node id) := by
  have hseg := hx.add (clipped_toNat (storedBytes node loaded))
  unfold Heap.loadedBytes Heap.weightOf
  rw [hloaded]
  cases hds : h.segmentDatasources.lookup id with
  | none => exact hseg
  | some ds =>
    rw [← Nat.add_assoc]
    exact hseg.add (clipped_toNat (storedDatasourceBytes ds))

/-- What is left is charged for the rest. -/
theorem charged_erase (hmapped : Mapped h) (id : String) (next : UInt64) :
    (⟨h.segments.erase id, h.segmentDatasources.erase id, next⟩ : Heap B T H).charged node + h.weightOf node id = h.charged node := by
  have hsegments := HashMap.weight_erase (fun s => (storedBytes node s).toNat) h.segments id
  have hdatasources := HashMap.weight_erase (fun s => (storedDatasourceBytes s).toNat) h.segmentDatasources id
  unfold Heap.charged Heap.weightOf
  cases hloaded : h.segments.lookup id with
  | none =>
    rw [hloaded] at hsegments
    rw [lookup_datasource_of_unloaded hmapped hloaded] at hdatasources
    simp only [Option.map_none, Option.getD_none] at *
    omega
  | some loaded =>
    rw [hloaded] at hsegments
    simp only [Option.map_some, Option.getD_some] at *
    omega

theorem mapped_erase (hmapped : Mapped h) (id : String) (next : UInt64) :
    Mapped (⟨h.segments.erase id, h.segmentDatasources.erase id, next⟩ : Heap B T H) := by
  intro i hi
  rw [AList.mem_erase] at hi ⊢
  exact ⟨hi.1, hmapped i hi.2⟩

theorem balanced_dropSegment (hb : Balanced node h) (segmentId : String) : Balanced node (h.dropSegment node segmentId).1 := by
  unfold Heap.dropSegment
  refine commit_keeps hb fun next hchecked => ?_
  cases hloaded : h.segments.lookup segmentId with
  | none => simp [hloaded] at hchecked
  | some loaded =>
    rw [hloaded] at hchecked
    obtain ⟨rfl, hlimit⟩ := tryAdmit_ok hchecked
    have hcharged := @charged_erase B T H node h hb.mapped segmentId (cacheBytesAfterDelta h.currentCacheBytes
      (h.loadedBytes node segmentId 0 loaded) 0)
    have hremoved : Clipped (h.loadedBytes node segmentId 0 loaded) (h.weightOf node segmentId) := by
      have := @clipped_loadedBytes B T H node h _ _ hloaded 0 0 (clipped_toNat 0)
      rwa [Nat.zero_add] at this
    have hcurrent := h.currentCacheBytes.toNat_lt
    have hexact := cacheBytesAfterDelta_exact hremoved (clipped_toNat 0) (by have := hb.exact; omega) hlimit (.inr (by simpa using hcurrent))
    refine ⟨?_, UInt64.le_iff_toNat_le.1 hlimit, mapped_erase hb.mapped segmentId _⟩
    have hzero : (0 : UInt64).toNat = 0 := rfl
    have := hb.exact
    dsimp only
    omega

/-! ## Swapped segments -/

theorem checkCollisions_ok {dropIds : List Text} {seen : List String} {add : List (PreparedSwapEntry B T H)} {u : Unit}
    (hok : h.checkCollisions dropIds seen add = .ok u) :
    (add.map (·.id.text)).Nodup ∧ (∀ entry ∈ add, entry.id.text ∉ seen) ∧
      ∀ entry ∈ add, h.segments.lookup entry.id.text = none ∨ entry.id.text ∈ dropIds.map (·.text) := by
  induction add generalizing seen with
  | nil => exact ⟨nodup_nil, nofun, nofun⟩
  | cons entry add ih =>
    unfold Heap.checkCollisions at hok
    split_ifs at hok with hseen hloaded
    obtain ⟨hnodup, hnew, hfree⟩ := ih hok
    rw [forall_mem_cons, forall_mem_cons, map_cons, nodup_cons]
    refine ⟨⟨fun hmem => ?_, hnodup⟩, ⟨hseen, fun e he hmem => hnew e he (mem_cons_of_mem _ hmem)⟩, ?_, hfree⟩
    · obtain ⟨e, he, hid⟩ := mem_map.1 hmem
      exact hnew e he (hid ▸ mem_cons_self)
    · rw [not_and_or, not_not] at hloaded
      exact hloaded.imp_left fun hnone => by simpa using hnone

/-- What the dropped ids are charged for, each once. -/
theorem clipped_removedBytes (dropIds : List Text) :
    Clipped (h.removedBytes node dropIds) (∑ id ∈ (dropIds.map (·.text)).toFinset, h.weightOf node id) := by
  have hsum : ∑ id ∈ (dropIds.map (·.text)).toFinset, h.weightOf node id =
      ((dropIds.map (·.text)).dedup.map (h.weightOf node)).sum := rfl
  rw [hsum, ← Nat.zero_add (List.sum _)]
  refine Clipped.foldl (fun id _ x m hx => ?_) (clipped_toNat 0)
  cases hloaded : h.segments.lookup id with
  | none =>
    simp only [Heap.weightOf, hloaded, Nat.add_zero]
    exact hx
  | some loaded => exact clipped_loadedBytes hloaded hx

/-- What an entry is measured to add. -/
def preparedBytes (node : Node B T H) (entry : PreparedSwapEntry B T H) : ℕ :=
  (segmentEntryBytes node.platform entry.id.capacity entry.estimatedBytes
    ((CachedSchema.fromSegment node.platform entry.data.value).schemaHeapBytes node.platform)).toNat +
    (entry.datasource.map fun ds => (datasourceEntryBytes ds.1.capacity ds.2).toNat).getD 0

/-- No entry meets a mapping, so entries only add. -/
theorem entryDelta_fresh (hmapped : Mapped h) {dropIds : List Text} {entry : PreparedSwapEntry B T H}
    (hfree : h.segments.lookup entry.id.text = none ∨ entry.id.text ∈ dropIds.map (·.text)) {removed x : UInt64} {m : ℕ}
    (hx : Clipped x m) :
    ∃ y, h.entryDelta node dropIds (removed, x) entry = (removed, y) ∧ Clipped y (m + preparedBytes node entry) := by
  have hnone : (if entry.id.text ∈ dropIds.map (·.text) ∧ (h.segments.lookup entry.id.text).isSome then none
      else h.segmentDatasources.lookup entry.id.text) = none := by
    split_ifs with hremoved
    · rfl
    · refine lookup_datasource_of_unloaded hmapped (hfree.elim id fun hdrop => ?_)
      simpa using fun hloaded => hremoved ⟨hdrop, hloaded⟩
  have hseg := hx.add (clipped_toNat (segmentEntryBytes node.platform entry.id.capacity entry.estimatedBytes
    ((CachedSchema.fromSegment node.platform entry.data.value).schemaHeapBytes node.platform)))
  unfold Heap.entryDelta preparedBytes
  simp only [hnone]
  cases entry.datasource with
  | none => exact ⟨_, rfl, hseg⟩
  | some ds =>
    refine ⟨_, rfl, ?_⟩
    rw [← Nat.add_assoc]
    exact hseg.add (clipped_toNat _)

theorem foldl_entryDelta (hmapped : Mapped h) {dropIds : List Text} {add : List (PreparedSwapEntry B T H)}
    (hfree : ∀ entry ∈ add, h.segments.lookup entry.id.text = none ∨ entry.id.text ∈ dropIds.map (·.text)) {removed x : UInt64} {m : ℕ}
    (hx : Clipped x m) :
    ∃ y, add.foldl (h.entryDelta node dropIds) (removed, x) = (removed, y) ∧ Clipped y (m + (add.map (preparedBytes node)).sum) := by
  induction add generalizing x m with
  | nil => exact ⟨x, rfl, hx⟩
  | cons entry add ih =>
    rw [forall_mem_cons] at hfree
    obtain ⟨y, heq, hy⟩ := @entryDelta_fresh B T H node h hmapped _ _ hfree.1 removed _ _ hx
    rw [foldl_cons, heq, map_cons, sum_cons, ← Nat.add_assoc]
    exact ih hfree.2 hy

/-- What stays is charged for what was not dropped. -/
theorem removeAll_spec (dropIds : List Text) (removed : List (RemovedEntry B T H)) (hmapped : Mapped h) (hres : AllResident h) :
    ∃ h' removed', Heap.removeAll dropIds removed h = (h', .ok removed') ∧ Mapped h' ∧ AllResident h' ∧
      h'.charged node + ∑ id ∈ (dropIds.map (·.text)).toFinset, h.weightOf node id = h.charged node ∧
      ∀ i, h'.segments.lookup i = if i ∈ dropIds.map (·.text) then none else h.segments.lookup i := by
  induction dropIds generalizing h removed with
  | nil => exact ⟨h, removed, rfl, hmapped, hres, by simp, fun i => by simp⟩
  | cons id dropIds ih =>
    unfold Heap.removeAll
    cases hloaded : h.segments.lookup id.text with
    | none =>
      obtain ⟨h', removed', heq, hmapped', hres', hsum, hlookup⟩ := ih removed hmapped hres
      refine ⟨h', removed', heq, hmapped', hres', ?_, fun i => ?_⟩
      · have hzero : h.weightOf node id.text = 0 := by simp [Heap.weightOf, hloaded]
        rw [map_cons, toFinset_cons, Finset.sum_insert_of_eq_zero_if_notMem fun _ => hzero]
        exact hsum
      · rw [hlookup i, map_cons]
        by_cases hi : i = id.text
        · subst hi
          simp [hloaded]
        · simp [hi]
    | some loaded =>
      obtain ⟨data, hdata⟩ := hres id.text loaded hloaded
      simp only [hdata]
      set h1 : Heap B T H := ⟨h.segments.erase id.text, h.segmentDatasources.erase id.text, h.currentCacheBytes⟩ with hh1
      have hlookup1 : ∀ i, h1.segments.lookup i = if i = id.text then none else h.segments.lookup i := by
        intro i
        by_cases hi : i = id.text
        · rw [if_pos hi, hi]
          exact AList.lookup_erase _ _
        · rw [if_neg hi]
          exact AList.lookup_erase_ne hi
      have hres1 : AllResident h1 := fun i l hl => by
        rw [hlookup1] at hl
        split_ifs at hl
        exact hres i l hl
      obtain ⟨h', removed', heq, hmapped', hres', hsum, hlookup⟩ := ih (h := h1)
        (removed ++ [⟨id.clone, data, (h.segmentDatasources.lookup id.text).map (·.value)⟩]) (mapped_erase hmapped id.text _) hres1
      refine ⟨h', removed', heq, hmapped', hres', ?_, fun i => ?_⟩
      · -- the others are charged for the same, and this one no more
        have hcharged : h1.charged node + h.weightOf node id.text = h.charged node := charged_erase hmapped _ _
        have hothers : ∀ i, i ≠ id.text → h1.weightOf node i = h.weightOf node i := fun i hi => by
          have hds : h1.segmentDatasources.lookup i = h.segmentDatasources.lookup i := AList.lookup_erase_ne hi
          unfold Heap.weightOf
          rw [hlookup1, if_neg hi, hds]
        have hthis : h1.weightOf node id.text = 0 := by simp [Heap.weightOf, hlookup1]
        have hsplit : ∑ i ∈ insert id.text (dropIds.map (·.text)).toFinset, h.weightOf node i =
            h.weightOf node id.text + ∑ i ∈ (dropIds.map (·.text)).toFinset, h1.weightOf node i := by
          rw [← Finset.insert_erase (Finset.mem_insert_self id.text (dropIds.map (·.text)).toFinset),
            Finset.sum_insert (Finset.notMem_erase _ _)]
          rw [Finset.erase_insert_eq_erase, ← Finset.sum_erase (dropIds.map (·.text)).toFinset hthis]
          exact congrArg _ (Finset.sum_congr rfl fun i hi => (hothers i (Finset.ne_of_mem_erase hi)).symm)
        rw [map_cons, toFinset_cons, hsplit]
        omega
      · rw [hlookup i, hlookup1, map_cons]
        by_cases hi : i = id.text <;> simp [hi]

/-- An entry as the swap prepared it, that weighs what was measured. -/
structure Prepared (p : Platform B T H) (entry : PreparedSwapEntry B T H) : Prop where
  measured : entry.estimatedBytes = estimateSegmentBytes p entry.data.value
  key : ∀ ds ∈ entry.datasource, ds.1.text = entry.id.text
  recounted : Recounted p entry.data

theorem addEntry_charged (hmapped : Mapped h) {entry : PreparedSwapEntry B T H} (hentry : Prepared node.platform entry)
    (hfresh : h.segments.lookup entry.id.text = none) :
    (h.addEntry node entry).charged node = h.charged node + preparedBytes node entry := by
  have hds := lookup_datasource_of_unloaded hmapped hfresh
  have hsegments : (insertStored h.segments entry.id (.resident node.platform entry.data)).weight (fun s => (storedBytes node s).toNat) =
      h.segments.weight (fun s => (storedBytes node s).toNat) + (segmentEntryBytes node.platform entry.id.capacity entry.estimatedBytes
        ((CachedSchema.fromSegment node.platform entry.data.value).schemaHeapBytes node.platform)).toNat := by
    rw [weight_insertStored_fresh _ hfresh]
    dsimp only [storedBytes]
    rw [resident_estimatedBytes hentry.recounted, resident_schema, hentry.measured]
  unfold Heap.charged Heap.addEntry preparedBytes
  cases hdatasource : entry.datasource with
  | none =>
    simp only [Option.map_none, Option.getD_none]
    rw [weight_erase_of_none hds]
    omega
  | some ds =>
    have hkey := hentry.key ds hdatasource
    rw [← hkey] at hds
    simp only [Option.map_some, Option.getD_some]
    rw [weight_insertStored_fresh _ hds]
    dsimp only [storedDatasourceBytes]
    omega

theorem addEntry_mapped (hmapped : Mapped h) {entry : PreparedSwapEntry B T H} (hentry : Prepared node.platform entry) :
    Mapped (h.addEntry node entry) := by
  intro i hi
  unfold Heap.addEntry at hi ⊢
  rw [mem_insertStored]
  cases hdatasource : entry.datasource with
  | none =>
    simp only [hdatasource, AList.mem_erase] at hi
    exact .inr (hmapped i hi.2)
  | some ds =>
    simp only [hdatasource, mem_insertStored] at hi
    exact hi.imp (fun heq => heq.trans (hentry.key ds hdatasource)) (hmapped i)

/-- The entries of a swap are charged for what was measured. -/
theorem foldl_addEntry {add : List (PreparedSwapEntry B T H)} (hmapped : Mapped h) (hadd : ∀ entry ∈ add, Prepared node.platform entry)
    (hnodup : (add.map (·.id.text)).Nodup) (hfresh : ∀ entry ∈ add, h.segments.lookup entry.id.text = none) :
    (add.foldl (Heap.addEntry node) h).charged node = h.charged node + (add.map (preparedBytes node)).sum ∧
      Mapped (add.foldl (Heap.addEntry node) h) := by
  induction add generalizing h with
  | nil => exact ⟨rfl, hmapped⟩
  | cons entry add ih =>
    rw [forall_mem_cons] at hadd hfresh
    obtain ⟨hnotin, hnodup⟩ := nodup_cons.1 hnodup
    have hrest : ∀ e ∈ add, (h.addEntry node entry).segments.lookup e.id.text = none := fun e he => by
      have hne : e.id.text ≠ entry.id.text := fun heq => hnotin (mem_map.2 ⟨e, he, heq⟩)
      refine Eq.trans ?_ (hfresh.2 e he)
      exact AList.lookup_insert_ne hne
    obtain ⟨hcharged, hm⟩ := ih (addEntry_mapped hmapped hadd.1) hadd.2 hnodup hrest
    refine ⟨?_, hm⟩
    rw [foldl_cons, hcharged, addEntry_charged hmapped hadd.1 hfresh.1, map_cons, sum_cons]
    omega

theorem allResident_addEntry (hres : AllResident h) (entry : PreparedSwapEntry B T H) : AllResident (h.addEntry node entry) :=
  allResident_insert hres _ _

theorem allResident_foldl_addEntry (hres : AllResident h) (add : List (PreparedSwapEntry B T H)) :
    AllResident (add.foldl (Heap.addEntry node) h) := by
  induction add generalizing h with
  | nil => exact hres
  | cons entry add ih => exact ih (allResident_addEntry hres entry)

theorem checkReplace_ok {dropIds : List Text} {add : List (SegmentSwapEntry B T H)} {r : UInt64 × List (PreparedSwapEntry B T H)}
    (hok : h.checkReplace node dropIds add = .ok r) :
    r.2 = add.map (Heap.prepare node) ∧ (∃ u, h.checkCollisions dropIds [] (add.map (Heap.prepare node)) = .ok u) ∧
      h.tryAdmit node ((add.map (Heap.prepare node)).foldl (h.entryDelta node dropIds) (h.removedBytes node dropIds, 0)).1
        ((add.map (Heap.prepare node)).foldl (h.entryDelta node dropIds) (h.removedBytes node dropIds, 0)).2 = .ok r.1 := by
  obtain ⟨_, -, hok⟩ := bind_eq_ok.1 hok
  obtain ⟨u, hcollisions, hok⟩ := bind_eq_ok.1 hok
  obtain ⟨next, hroom, hok⟩ := bind_eq_ok.1 hok
  cases hok
  exact ⟨rfl, ⟨u, hcollisions⟩, hroom⟩

/-- A swap adds what its entries are measured to. -/
def swapBytes (node : Node B T H) (add : List (SegmentSwapEntry B T H)) : ℕ :=
  ((add.map (Heap.prepare node)).map (preparedBytes node)).sum

theorem prepared_prepare {entry : SegmentSwapEntry B T H} (hentry : Recounted node.platform entry.data) :
    Prepared node.platform (Heap.prepare node entry) where
  measured := rfl
  key ds hds := by
    obtain ⟨datasource, -, rfl⟩ := Option.mem_map.1 hds
    rfl
  recounted := hentry

/-- A swap fails without a change, or it drops and installs what it counted. -/
theorem replaceSegments_cases (dropIds : List Text) (add : List (SegmentSwapEntry B T H)) (hmapped : Mapped h) (hres : AllResident h) :
    (∃ e, h.replaceSegments node dropIds add = (h, .error e)) ∨
      ∃ next h' removed, h.checkReplace node dropIds add = .ok (next, add.map (Heap.prepare node)) ∧
        Heap.removeAll dropIds [] h = (h', .ok removed) ∧ h.replaceSegments node dropIds add =
          ({ (add.map (Heap.prepare node)).foldl (Heap.addEntry node) h' with currentCacheBytes := next }, .ok removed) := by
  unfold Heap.replaceSegments
  cases hcheck : h.checkReplace node dropIds add with
  | error e => exact .inl ⟨e, rfl⟩
  | ok r =>
    obtain ⟨next, prepared⟩ := r
    obtain ⟨hprepared, -⟩ := checkReplace_ok hcheck
    obtain rfl : prepared = add.map (Heap.prepare node) := hprepared
    obtain ⟨h', removed, hremove, -⟩ := @removeAll_spec B T H node h dropIds [] hmapped hres
    simp only [hremove]
    exact .inr ⟨next, h', removed, rfl, rfl, rfl⟩

theorem balanced_replaceSegments (hb : Balanced node h) (hres : AllResident h) {dropIds : List Text} {add : List (SegmentSwapEntry B T H)}
    (hadd : ∀ entry ∈ add, Recounted node.platform entry.data) (hfits : Fits node h (swapBytes node add)) :
    Balanced node (h.replaceSegments node dropIds add).1 ∧ AllResident (h.replaceSegments node dropIds add).1 := by
  rcases @replaceSegments_cases B T H node h dropIds add hb.mapped hres with ⟨e, heq⟩ | ⟨next, h', removed, hcheck, hremove, heq⟩
  · rw [heq]
    exact ⟨hb, hres⟩
  rw [heq]
  obtain ⟨-, ⟨u, hcollisions⟩, hroom⟩ := checkReplace_ok hcheck
  obtain ⟨hnodup, -, hfree⟩ := checkCollisions_ok hcollisions
  obtain ⟨h'', removed', hremove', hmapped', hres', hsum, hlookup⟩ := @removeAll_spec B T H node h dropIds [] hb.mapped hres
  rw [hremove] at hremove'
  cases hremove'
  -- the deltas are what is dropped and what is measured
  obtain ⟨added, hfold, hadded⟩ := @foldl_entryDelta B T H node h hb.mapped _ _ hfree (h.removedBytes node dropIds) _ _ (clipped_toNat 0)
  rw [hfold] at hroom
  obtain ⟨rfl, hlimit⟩ := tryAdmit_ok hroom
  have hzero : (0 : UInt64).toNat = 0 := rfl
  rw [hzero, Nat.zero_add] at hadded
  have hexact := cacheBytesAfterDelta_exact (@clipped_removedBytes B T H node h dropIds) hadded (by have := hb.exact; omega) hlimit
    (hb.exact ▸ hfits)
  -- and so is the change
  have hfresh : ∀ entry ∈ add.map (Heap.prepare node), h'.segments.lookup entry.id.text = none := fun entry hentry => by
    rw [hlookup]
    split_ifs with hdrop
    · rfl
    · exact (hfree entry hentry).resolve_right hdrop
  have hprepared : ∀ entry ∈ add.map (Heap.prepare node), Prepared node.platform entry := fun entry hentry => by
    obtain ⟨e, he, rfl⟩ := mem_map.1 hentry
    exact prepared_prepare (hadd e he)
  obtain ⟨hcharged, hmapped⟩ := foldl_addEntry hmapped' hprepared hnodup hfresh
  refine ⟨⟨?_, UInt64.le_iff_toNat_le.1 hlimit, hmapped⟩, allResident_foldl_addEntry hres' _⟩
  have hcurrent := hb.exact
  have hstate : ∀ (g : Heap B T H) (next : UInt64), ({ g with currentCacheBytes := next } : Heap B T H).charged node = g.charged node :=
    fun _ _ => rfl
  rw [hstate, hcharged]
  dsimp only
  omega

/-! ## Runs -/

/-- The sizes fit, and what a swap copies weighs what it measured. -/
def Careful (node : Node B T H) (h : Heap B T H) : Call B T H → Prop
  | .loadSegment segmentId segment => Fits node h (loadBytes node segmentId segment).toNat
  | .loadSegmentWithDatasource segmentId datasource segment =>
    Fits node h ((loadBytes node segmentId segment).toNat + (mappingBytes segmentId datasource).toNat)
  | .setSegmentDatasource segmentId datasource => Fits node h (remappedBytes h segmentId datasource).toNat
  | .dropSegment _ => True
  | .replaceSegments _ add => (∀ entry ∈ add, Recounted node.platform entry.data) ∧ Fits node h (swapBytes node add)

theorem allResident_call (hb : Balanced node h) (hres : AllResident h) (c : Call B T H) (hc : Careful node h c) :
    AllResident (call node h c).1 := by
  have herase : ∀ (id : String) (datasources : HashMap String (Stored Text)) (next : UInt64),
      AllResident (⟨h.segments.erase id, datasources, next⟩ : Heap B T H) := fun id datasources next i loaded hloaded => by
    by_cases hi : i = id
    · subst hi
      rw [AList.lookup_erase] at hloaded
      cases hloaded
    · exact hres i loaded ((AList.lookup_erase_ne hi).symm.trans hloaded)
  cases c with
  | loadSegment segmentId segment => exact commit_keeps hres fun next _ => allResident_insert hres _ _
  | loadSegmentWithDatasource segmentId datasource segment => exact commit_keeps hres fun next _ => allResident_insert hres _ _
  | setSegmentDatasource segmentId datasource => exact commit_keeps hres fun next _ => hres
  | dropSegment segmentId => exact commit_keeps hres fun next _ => herase _ _ _
  | replaceSegments dropIds add => exact (balanced_replaceSegments hb hres hc.1 hc.2).2

theorem balanced_call (hb : Balanced node h) (hres : AllResident h) (c : Call B T H) (hc : Careful node h c) :
    Balanced node (call node h c).1 := by
  cases c with
  | loadSegment segmentId segment => exact balanced_loadSegment hb hc
  | loadSegmentWithDatasource segmentId datasource segment => exact balanced_loadSegmentWithDatasource hb hc
  | setSegmentDatasource segmentId datasource => exact balanced_setSegmentDatasource hb hc
  | dropSegment segmentId => exact balanced_dropSegment hb segmentId
  | replaceSegments dropIds add => exact (balanced_replaceSegments hb hres hc.1 hc.2).1

/-- A call that fails changes nothing. -/
theorem call_failed (hb : Balanced node h) (hres : AllResident h) (c : Call B T H) {e : DruidError} (he : (call node h c).2 = .error e) :
    (call node h c).1 = h := by
  have hcommit : ∀ (checked : Except DruidError UInt64) (change : UInt64 → Heap B T H), (h.commit checked change).2 = .error e →
      (h.commit checked change).1 = h := fun checked change hfailed => by
    cases checked with
    | error e' => rfl
    | ok next => cases hfailed
  cases c with
  | loadSegment segmentId segment => exact hcommit _ _ he
  | loadSegmentWithDatasource segmentId datasource segment => exact hcommit _ _ he
  | setSegmentDatasource segmentId datasource => exact hcommit _ _ he
  | dropSegment segmentId => exact hcommit _ _ he
  | replaceSegments dropIds add =>
    unfold call at he ⊢
    simp only at he ⊢
    rcases @replaceSegments_cases B T H node h dropIds add hb.mapped hres with ⟨e', heq⟩ | ⟨next, h', removed, -, -, heq⟩ <;>
      rw [heq] at he ⊢
    cases he

theorem balanced_new : Balanced node (Heap.new : Heap B T H) where
  exact := rfl
  bounded := Nat.zero_le _
  mapped := fun id hid => absurd hid (AList.notMem_empty id)

/-- After any run of careful calls the ledger is exact, in its limit and without
a mapping too many, and a call that fails changes nothing. -/
theorem ledger_exact {calls : List (Call B T H)} (hcalls : Guarded (fun h c => (call node h c).1) (Careful node) .new calls) :
    Balanced node (calls.foldl (fun h c => (call node h c).1) .new) ∧
      ∀ c e, (call node (calls.foldl (fun h c => (call node h c).1) .new) c).2 = .error e →
        (call node (calls.foldl (fun h c => (call node h c).1) .new) c).1 = calls.foldl (fun h c => (call node h c).1) .new := by
  have hinv := hcalls.inv (fun h => Balanced node h ∧ AllResident h)
    (fun h c hc hI => ⟨balanced_call hI.1 hI.2 c hc, allResident_call hI.1 hI.2 c hc⟩) ⟨balanced_new, fun id loaded hloaded => by cases hloaded⟩
  exact ⟨hinv.1, fun c e => call_failed hinv.1 hinv.2 c⟩

/-! ## A node that leaks -/

/-- A node of a megabyte, with the sizes of a 64-bit platform. -/
def smallNode : Node Unit Unit Unit where
  platform :=
    { sizeOfSegmentData := 128, sizeOfSegmentEntry := 256, sizeOfColumnSlot := 112, sizeOfTypedColumn := 48, sizeOfString := 24
      sizeOfBitmap := 24, sizeOfThetaSketch := 48, sizeOfHyperUnique := 24, bitmapHeapBytes := fun _ => 0, cloneBitmap := id
      retained := fun _ => 0, cloneThetaSketch := id, cloneHyperUnique := id, collected := UInt64.ofNat }
  maxCacheBytes := 1048576
  strictNullGeneration := false
  legacyConsistentColumns _ := []

/-- Two rows out of order, in a column with room for two more. -/
def unsortedSegment (timeSorted : Bool) : SegmentData Unit Unit Unit where
  numRows := 2
  dimensions := ⟨[], 0⟩
  metrics := ⟨[], 0⟩
  columns := ⟨[(.ofStr "__time", .long ⟨[2, 1], 4⟩)], 3, by simp⟩
  timeSorted := timeSorted

theorem ledger_exact_small :
    Guarded (fun h c => (call smallNode h c).1) (Careful smallNode) .new
        [.loadSegmentWithDatasource "s" "wiki" (unsortedSegment true),
          .replaceSegments [.ofStr "s"] [⟨.ofStr "s", ⟨unsortedSegment true, false⟩, none⟩]] ∧
      Balanced smallNode ([Call.loadSegmentWithDatasource "s" "wiki" (unsortedSegment true),
        .replaceSegments [.ofStr "s"] [⟨.ofStr "s", ⟨unsortedSegment true, false⟩, none⟩]].foldl
          (fun h c => (call smallNode h c).1) .new) := by
  have hlimit : ∀ h : Heap Unit Unit Unit, ∀ n, Fits smallNode h n := fun h n => .inl (by decide +kernel)
  have hcalls : Guarded (fun h c => (call smallNode h c).1) (Careful smallNode) .new
      [.loadSegmentWithDatasource "s" "wiki" (unsortedSegment true),
        .replaceSegments [.ofStr "s"] [⟨.ofStr "s", ⟨unsortedSegment true, false⟩, none⟩]] :=
    ⟨hlimit _ _, ⟨by simp [Recounted], hlimit _ _⟩, trivial⟩
  exact ⟨hcalls, (ledger_exact hcalls).1⟩

/-- A caller keeps a reference to the segment, so the swap measures the column
with the room for two more and installs a copy without it. -/
theorem leaky_not_balanced :
    ¬ Balanced smallNode (call smallNode .new (.replaceSegments [] [⟨.ofStr "s", ⟨unsortedSegment true, true⟩, none⟩])).1 := by
  intro hb
  have hleak : (call smallNode .new (.replaceSegments [] [⟨.ofStr "s", ⟨unsortedSegment true, true⟩, none⟩])).1.currentCacheBytes.toNat =
      (call smallNode .new (.replaceSegments [] [⟨.ofStr "s", ⟨unsortedSegment true, true⟩, none⟩])).1.charged smallNode + 16 := by
    decide +kernel
  have := hb.exact
  omega

end FerroDruid.Historical
