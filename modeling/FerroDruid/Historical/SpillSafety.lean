import FerroDruid.Historical.LedgerSafety
import FerroDruid.Historical.Spill
import Mathlib.Data.UInt
/-!
# What is pinned in spill mode

Over any run the two maps of the LRU stay in bijection, the counter is the sum
of what is pinned and stays in the budget, only loaded segments are pinned, and
only the least recently used ones go to make room.
-/

namespace FerroDruid.Historical

open Lib List

section

variable {B T H I : Type} {node : SpillNode B T H I} {s s' : Spill B T H I} {uses : List String} {id : String}

/-- What is pinned, against the segments that were used so far. -/
structure Spill.Kept (node : SpillNode B T H I) (s : Spill B T H I) (uses : List String) : Prop where
  consistent : s.lru.Consistent s.residentBytes
  bounded : s.residentBytes ≤ node.maxCacheBytes
  loaded : ∀ id n, s.lru.nodes.lookup id = some n →
    ∃ entry, s.segments.lookup id = some entry ∧ n.bytes = entry.estimatedBytes ∧ entry.decoded = some n.data
  recent : s.lru.recency.Sublist uses.dedup

/-! ## Calls that leave the LRU alone -/

/-- Only the disk and the counters differ. -/
structure Framed (s s' : Spill B T H I) : Prop where
  segments : s'.segments = s.segments
  segmentDatasources : s'.segmentDatasources = s.segmentDatasources
  lru : s'.lru = s.lru
  residentBytes : s'.residentBytes = s.residentBytes
  held : s'.held = s.held

theorem Framed.refl (s : Spill B T H I) : Framed s s := ⟨rfl, rfl, rfl, rfl, rfl⟩

theorem Framed.trans {s'' : Spill B T H I} (h : Framed s s') (h' : Framed s' s'') : Framed s s'' :=
  ⟨h'.1.trans h.1, h'.2.trans h.2, h'.3.trans h.3, h'.4.trans h.4, h'.5.trans h.5⟩

theorem Framed.kept (h : Framed s s') (hk : s.Kept node uses) : s'.Kept node uses where
  consistent := by rw [h.lru, h.residentBytes]; exact hk.consistent
  bounded := by rw [h.residentBytes]; exact hk.bounded
  loaded := by rw [h.lru, h.segments]; exact hk.loaded
  recent := by rw [h.lru]; exact hk.recent

theorem framed_removeSpillDirs (s : Spill B T H I) (dirs : List SpillDir) : Framed s (s.removeSpillDirs dirs) := by
  induction dirs generalizing s with
  | nil => exact .refl s
  | cons dir dirs ih =>
    have hdir : Framed s (s.removeSpillDir dir) := ⟨rfl, rfl, rfl, rfl, rfl⟩
    exact hdir.trans (ih _)

theorem framed_spillWrite (s : Spill B T H I) (segmentId : String) (segment : SpillSegment B T H) :
    Framed s (s.spillWrite node segmentId segment).1 := by
  unfold Spill.spillWrite
  dsimp only
  split <;> exact ⟨rfl, rfl, rfl, rfl, rfl⟩

theorem framed_spillAll (add : List (SpillSwapEntry B T H)) (prepared : List (PreparedSpill B T H)) (s : Spill B T H I) :
    Framed s (Spill.spillAll node add prepared s).1 := by
  induction add generalizing prepared s with
  | nil => exact .refl s
  | cons entry add ih =>
    have hwrite : Framed s (s.spillWrite node entry.id entry.data).1 := framed_spillWrite s entry.id entry.data
    unfold Spill.spillAll
    split <;> rename_i heq <;> rw [heq] at hwrite
    · exact hwrite.trans (framed_removeSpillDirs _ _)
    · exact hwrite.trans (ih _ _)

theorem framed_takeResidentOrDecode (s : Spill B T H I) (entry : SpillEntry B T H) (segId : String) :
    Framed s (s.takeResidentOrDecode node entry segId).1 := by
  unfold Spill.takeResidentOrDecode
  split
  · exact .refl s
  · split <;> exact ⟨rfl, rfl, rfl, rfl, rfl⟩

theorem framed_decodeVictims (dropIds : List String) (decoded : HashMap String (SpillSegment B T H)) (s : Spill B T H I) :
    Framed s (Spill.decodeVictims node dropIds decoded s).1 := by
  induction dropIds generalizing decoded s with
  | nil => exact .refl s
  | cons id dropIds ih =>
    unfold Spill.decodeVictims
    split
    · exact ih _ _
    · rename_i entry hentry
      have htake : Framed s (s.takeResidentOrDecode node entry id).1 := framed_takeResidentOrDecode s entry id
      split <;> rename_i heq <;> rw [heq] at htake
      · exact htake.trans (ih _ _)
      · exact htake

/-- A segment that is loaded is not pinned yet. -/
theorem Spill.Kept.load (h : s.Kept node uses) (hfresh : s.segments.lookup id = none) (entry : SpillEntry B T H)
    (datasources : HashMap String String) :
    Spill.Kept node { s with segments := s.segments.insert id entry, segmentDatasources := datasources } uses where
  consistent := h.consistent
  bounded := h.bounded
  loaded := fun i n hn => by
    obtain ⟨entry', hentry', hrest⟩ := h.loaded i n hn
    have hne : i ≠ id := fun heq => by
      rw [heq, hfresh] at hentry'
      cases hentry'
    exact ⟨entry', (AList.lookup_insert_ne hne).trans hentry', hrest⟩
  recent := h.recent

theorem kept_loadSpilled (h : s.Kept node uses) (segmentId : String) (datasource : Option String) (segment : SpillSegment B T H) :
    (s.loadSpilled node segmentId datasource segment).1.Kept node uses ∧
      (s.loadSpilled node segmentId datasource segment).1.lru = s.lru := by
  have hwrite : Framed s (s.spillWrite node segmentId segment).1 := framed_spillWrite s segmentId segment
  unfold Spill.loadSpilled
  split
  · exact ⟨h, rfl⟩
  split <;> rename_i heq <;> rw [heq] at hwrite
  · exact ⟨hwrite.kept h, hwrite.lru⟩
  split_ifs with hloaded
  · have hremoved := fun dir => hwrite.trans (framed_removeSpillDirs _ [dir])
    exact ⟨(hremoved _).kept h, (hremoved _).lru⟩
  · exact ⟨(hwrite.kept h).load (Option.not_isSome_iff_eq_none.1 hloaded) _ _, hwrite.lru⟩

/-! ## Uses -/

/-- The counter and the ticks do not wrap when the segment is used. -/
def Countable (node : SpillNode B T H I) (s : Spill B T H I) (id : String) : Prop :=
  ∀ entry ∈ s.segments.lookup id, entry.estimatedBytes ≤ node.maxCacheBytes →
    s.lru.nextTick.toNat + 1 < 2 ^ 64 ∧
      (node.maxCacheBytes.toNat + 1 < 2 ^ 64 ∨ id ∈ s.lru.recency ∨ s.residentBytes.toNat + entry.estimatedBytes.toNat < 2 ^ 64)

instance (node : SpillNode B T H I) (s : Spill B T H I) (id : String) : Decidable (Countable node s id) :=
  inferInstanceAs (Decidable (∀ entry ∈ s.segments.lookup id, entry.estimatedBytes ≤ node.maxCacheBytes → _))

/-- The pinned segments after one of them is used. -/
def used (node : SpillNode B T H I) (s : Spill B T H I) (entry : SpillEntry B T H) (id : String) : List String :=
  useKey s.lru.bytesOf node.maxCacheBytes.toNat entry.estimatedBytes.toNat id s.lru.recency

variable {entry : SpillEntry B T H}

theorem kept_admitSegment (h : s.Kept node uses) (hentry : s.segments.lookup id = some entry)
    (hcount : Countable node s id) {data : Decode (SpillSegment B T H)} (hdata : entry.decoded = some data) :
    (s.admitSegment node entry id data).Kept node (uses ++ [id]) ∧ (s.admitSegment node entry id data).lru.recency = used node s entry id := by
  have hpinned : id ∈ s.lru.recency ↔ (s.lru.nodes.lookup id).isSome := h.consistent.linked.mem_recency
  have hrecent := sublist_useKey (w := s.lru.bytesOf) h.recent node.maxCacheBytes.toNat entry.estimatedBytes.toNat id
  unfold used Spill.admitSegment
  unfold useKey at hrecent ⊢
  by_cases hnode : (s.lru.nodes.lookup id).isSome
  · -- it is pinned: the touch keeps every node's data and bytes
    have htouch : s.lru.admitSegment id data entry.estimatedBytes s.residentBytes node.maxCacheBytes = (s.lru.touch id, s.residentBytes) :=
      if_pos hnode
    have hmem := hpinned.2 hnode
    rw [if_pos hmem] at hrecent ⊢
    rw [htouch]
    obtain ⟨n, hn⟩ := Option.isSome_iff_exists.1 hnode
    obtain ⟨entry', hentry', hbytes, -⟩ := h.loaded id n hn
    rw [hentry] at hentry'
    cases hentry'
    have hlight : entry.estimatedBytes ≤ node.maxCacheBytes := by
      refine Std.le_trans (UInt64.le_iff_toNat_le.2 ?_) h.bounded
      have hweight := HashMap.weight_erase (·.bytes.toNat) s.lru.nodes id
      rw [hn, Option.map_some, Option.getD_some, ← h.consistent.exact, hbytes] at hweight
      omega
    obtain ⟨hc, hrecency, hnodes⟩ := ResidentLru.consistent_touch h.consistent (hcount entry hentry hlight).1 hnode
    refine ⟨⟨hc, h.bounded, fun i n' hi => ?_, hrecency ▸ hrecent⟩, hrecency⟩
    have hsame := hnodes i
    rw [hi] at hsame
    obtain ⟨n'', hn'', heq⟩ := Option.map_eq_some_iff.1 hsame.symm
    obtain ⟨entry', hentry', hbytes', hdecoded'⟩ := h.loaded i n'' hn''
    obtain ⟨hd, hb⟩ := Prod.mk.inj heq
    exact ⟨entry', hentry', hb ▸ hbytes', hd ▸ hdecoded'⟩
  · have hmem : id ∉ s.lru.recency := fun hmem => hnode (hpinned.1 hmem)
    rw [if_neg hmem] at hrecent ⊢
    by_cases hheavy : node.maxCacheBytes.toNat < entry.estimatedBytes.toNat
    · have hsame : s.lru.admitSegment id data entry.estimatedBytes s.residentBytes node.maxCacheBytes = (s.lru, s.residentBytes) :=
        (if_neg hnode).trans (if_pos (UInt64.lt_iff_toNat_lt.2 hheavy))
      rw [if_pos hheavy] at hrecent ⊢
      rw [hsame]
      exact ⟨⟨h.consistent, h.bounded, h.loaded, hrecent⟩, rfl⟩
    · rw [if_neg hheavy] at hrecent ⊢
      have hle : entry.estimatedBytes ≤ node.maxCacheBytes := UInt64.le_iff_toNat_le.2 (Nat.not_lt.1 hheavy)
      obtain ⟨htick, hroom⟩ := hcount entry hentry hle
      obtain ⟨hc, hbounded, hrecency, hnodes⟩ := ResidentLru.consistent_admit h.consistent (Option.not_isSome_iff_eq_none.1 hnode)
        htick data hle (hroom.imp_right fun hroom => hroom.resolve_left hmem)
      refine ⟨⟨hc, hbounded, fun i n hi => ?_, hrecency ▸ hrecent⟩, hrecency⟩
      rcases hnodes i n hi with ⟨rfl, rfl⟩ | hold
      · exact ⟨entry, hentry, rfl, hdata⟩
      · exact h.loaded i n hold

/-- A decode that is pinned lives. -/
theorem upgrade_of_pinned {n : LruNode (SpillSegment B T H)} (hn : s.lru.nodes.lookup id = some n)
    (hdecoded : entry.decoded = some n.data) : s.upgrade entry = some n.data := by
  unfold Spill.upgrade
  rw [hdecoded, Option.filter_some, if_pos]
  unfold Spill.alive
  rw [Bool.or_eq_true, any_eq_true]
  exact .inl ⟨n, HashMap.mem_values.2 ⟨id, hn⟩, by simp⟩

theorem kept_materialize (h : s.Kept node uses) (hentry : s.segments.lookup id = some entry)
    (hcount : Countable node s id) :
    (∃ e, s.materialize node entry id = (s, .error e)) ∨
      ∃ s' data, s.materialize node entry id = (s', .ok data) ∧ s'.Kept node (uses ++ [id]) ∧ s'.lru.recency = used node s entry id := by
  unfold Spill.materialize
  cases hupgrade : s.upgrade entry with
  | some data =>
    have hdata : entry.decoded = some data := (Option.filter_eq_some_iff.1 hupgrade).1
    exact .inr ⟨_, data, rfl, kept_admitSegment h hentry hcount hdata⟩
  | none =>
    cases s.decode node entry id with
    | error e => exact .inl ⟨e, rfl⟩
    | ok data =>
      -- a first decode: nothing was pinned for the segment
      have hfresh : s.lru.nodes.lookup id = none := by
        cases hn : s.lru.nodes.lookup id with
        | none => rfl
        | some n =>
          obtain ⟨entry', hentry', -, hdecoded⟩ := h.loaded id n hn
          rw [hentry] at hentry'
          cases hentry'
          rw [upgrade_of_pinned hn hdecoded] at hupgrade
          cases hupgrade
      have hnew : Spill.Kept node
          { s with segments := s.segments.insert id { entry with decoded := some data }, decodeCount := s.decodeCount + 1 } uses :=
        { consistent := h.consistent
          bounded := h.bounded
          recent := h.recent
          loaded := fun i n hi => by
            have hne : i ≠ id := fun heq => by
              rw [heq, hfresh] at hi
              cases hi
            obtain ⟨entry', hentry', hrest⟩ := h.loaded i n hi
            exact ⟨entry', (AList.lookup_insert_ne hne).trans hentry', hrest⟩ }
      refine .inr ⟨_, data, rfl, kept_admitSegment hnew (AList.lookup_insert _) ?_ rfl⟩
      intro entry' hentry' hlight
      rw [AList.lookup_insert] at hentry'
      cases hentry'
      exact hcount entry hentry hlight

/-! ## Drops -/

theorem kept_removeEntry (h : s.Kept node uses) (id : String) :
    (s.removeEntry id).Kept node uses ∧ (s.removeEntry id).lru.recency = s.lru.recency.erase id := by
  obtain ⟨hc, hrecency, hnodes⟩ := ResidentLru.consistent_remove h.consistent id
  unfold Spill.removeEntry Spill.lruRemove
  refine ⟨⟨hc, ?_, fun i n hi => ?_, ?_⟩, hrecency⟩
  · refine Std.le_trans (UInt64.le_iff_toNat_le.2 ?_) h.bounded
    have hweight := HashMap.weight_erase (·.bytes.toNat) s.lru.nodes id
    have hexact := hc.exact
    rw [hnodes] at hexact
    rw [hexact, h.consistent.exact, ← hweight]
    exact Nat.le_add_right _ _
  · dsimp only at hi
    rw [hnodes] at hi
    have hne : i ≠ id := fun heq => by
      rw [heq, AList.lookup_erase] at hi
      cases hi
    rw [AList.lookup_erase_ne hne] at hi
    obtain ⟨entry, hentry, hrest⟩ := h.loaded i n hi
    exact ⟨entry, (AList.lookup_erase_ne hne).trans hentry, hrest⟩
  · dsimp only
    rw [hrecency]
    exact erase_sublist.trans h.recent

theorem kept_removeVictims (decoded : HashMap String (SpillSegment B T H)) (dropIds : List String)
    (removed : List (SpillSwapEntry B T H)) (victimDirs : List SpillDir) (h : s.Kept node uses) :
    (Spill.removeVictims decoded dropIds removed victimDirs s).1.Kept node uses ∧
      (Spill.removeVictims decoded dropIds removed victimDirs s).1.lru.recency = s.lru.recency.filter (fun id => id ∉ dropIds) ∧
      ∀ id, (Spill.removeVictims decoded dropIds removed victimDirs s).1.segments.lookup id =
        if id ∈ dropIds then none else s.segments.lookup id := by
  induction dropIds generalizing removed victimDirs s with
  | nil => exact ⟨h, by simp [Spill.removeVictims], fun id => rfl⟩
  | cons d dropIds ih =>
    unfold Spill.removeVictims
    cases hd : s.segments.lookup d with
    | none =>
      obtain ⟨hk, hrecency, hsegments⟩ := ih removed victimDirs h
      have hout : d ∉ s.lru.recency := fun hmem => by
        obtain ⟨n, hn⟩ := Option.isSome_iff_exists.1 (h.consistent.linked.mem_recency.1 hmem)
        obtain ⟨entry, hentry, -⟩ := h.loaded d n hn
        rw [hd] at hentry
        cases hentry
      refine ⟨hk, hrecency.trans (filter_congr fun i hi => ?_), fun i => ?_⟩
      · have hne : i ≠ d := fun heq => hout (heq ▸ hi)
        simp [hne]
      · refine (hsegments i).trans ?_
        by_cases hne : i = d
        · subst hne
          simp [hd]
        · simp [hne]
    | some entry =>
      obtain ⟨hk, hrecency⟩ := kept_removeEntry h d
      obtain ⟨hk', hrecency', hsegments⟩ := ih _ (victimDirs ++ [entry.dir]) hk
      refine ⟨hk', hrecency'.trans ?_, fun i => (hsegments i).trans ?_⟩
      · rw [hrecency, h.consistent.linked.nodup.erase_eq_filter, filter_filter]
        refine filter_congr fun i _ => ?_
        by_cases hne : i = d <;> simp [hne]
      · change (if i ∈ dropIds then none else (s.segments.erase d).lookup i) = _
        by_cases hne : i = d
        · subst hne
          simp
        · rw [AList.lookup_erase_ne hne]
          simp [hne]

theorem checkSpillCollisions_ok {dropIds seen : List String} {prepared : List (PreparedSpill B T H)}
    (h : s.checkSpillCollisions dropIds seen prepared = .ok ()) :
    (prepared.map (·.id)).Nodup ∧ (∀ prep ∈ prepared, prep.id ∉ seen) ∧
      ∀ prep ∈ prepared, s.segments.lookup prep.id = none ∨ prep.id ∈ dropIds := by
  induction prepared generalizing seen with
  | nil => exact ⟨.nil, by simp, by simp⟩
  | cons prep prepared ih =>
    unfold Spill.checkSpillCollisions at h
    split_ifs at h with hseen hloaded
    obtain ⟨hnodup, hfresh, hfree⟩ := ih h
    refine ⟨nodup_cons.2 ⟨fun hmem => ?_, hnodup⟩, ?_, ?_⟩
    · obtain ⟨prep', hprep', heq⟩ := mem_map.1 hmem
      exact hfresh prep' hprep' (heq ▸ mem_cons_self ..)
    · exact forall_mem_cons.2 ⟨hseen, fun prep' hprep' hmem => hfresh prep' hprep' (mem_cons_of_mem _ hmem)⟩
    · refine forall_mem_cons.2 ⟨?_, hfree⟩
      by_cases hdrop : prep.id ∈ dropIds
      · exact .inr hdrop
      · exact .inl (Option.not_isSome_iff_eq_none.1 fun hsome => hloaded ⟨hsome, hdrop⟩)

theorem kept_foldl_addPrepared {prepared : List (PreparedSpill B T H)} (h : s.Kept node uses)
    (hnodup : (prepared.map (·.id)).Nodup) (hfresh : ∀ prep ∈ prepared, s.segments.lookup prep.id = none) :
    (prepared.foldl Spill.addPrepared s).Kept node uses ∧ (prepared.foldl Spill.addPrepared s).lru = s.lru := by
  induction prepared generalizing s with
  | nil => exact ⟨h, rfl⟩
  | cons prep prepared ih =>
    obtain ⟨hprep, hnodup⟩ := nodup_cons.1 hnodup
    obtain ⟨hfirst, hrest⟩ := forall_mem_cons.1 hfresh
    have hkept : (s.addPrepared prep).Kept node uses := h.load hfirst ⟨prep.dir, none, prep.estimatedBytes⟩ _
    refine ih (s := s.addPrepared prep) hkept hnodup fun prep' hprep' => ?_
    have hne : prep'.id ≠ prep.id := fun heq => hprep (mem_map.2 ⟨prep', hprep', heq⟩)
    exact (AList.lookup_insert_ne hne).trans (hrest prep' hprep')

/-- A swap unpins what it drops, and a swap that fails unpins nothing. -/
theorem kept_replaceSegments (h : s.Kept node uses) (dropIds : List String) (add : List (SpillSwapEntry B T H)) :
    (s.replaceSegments node dropIds add).1.Kept node uses ∧
      ((s.replaceSegments node dropIds add).1.lru.recency = s.lru.recency.filter (fun id => id ∉ dropIds) ∨
        (s.replaceSegments node dropIds add).1.lru.recency = s.lru.recency) := by
  unfold Spill.replaceSegments
  split
  · exact ⟨h, .inr rfl⟩
  have hspill : Framed s (Spill.spillAll node add [] s).1 := framed_spillAll add [] s
  split <;> rename_i heq <;> rw [heq] at hspill
  · exact ⟨hspill.kept h, .inr (congrArg _ hspill.lru)⟩
  rename_i s₁ prepared
  have hfailed : ∀ {s₂ : Spill B T H I}, Framed s₁ s₂ → ∀ dirs,
      (s₂.removeSpillDirs dirs).Kept node uses ∧ (s₂.removeSpillDirs dirs).lru.recency = s.lru.recency := fun hframed dirs => by
    have hall := (hspill.trans hframed).trans (framed_removeSpillDirs _ dirs)
    exact ⟨hall.kept h, congrArg _ hall.lru⟩
  unfold Spill.swapPrepared
  split
  · exact ⟨(hfailed (.refl _) _).1, .inr (hfailed (.refl _) _).2⟩
  rename_i hcollisions
  have hdecode : Framed s₁ (if prepared = [] then (s₁, .ok ∅) else Spill.decodeVictims node dropIds ∅ s₁).1 := by
    split_ifs
    · exact .refl _
    · exact framed_decodeVictims _ _ _
  split <;> rename_i heq' <;> rw [heq'] at hdecode
  · exact ⟨(hfailed hdecode _).1, .inr (hfailed hdecode _).2⟩
  rename_i s₂ decoded
  have hkept := (hspill.trans hdecode).kept h
  obtain ⟨hremoved, hrecency, hsegments⟩ := kept_removeVictims decoded dropIds [] [] hkept
  obtain ⟨hnodup, -, hfree⟩ := checkSpillCollisions_ok hcollisions
  obtain ⟨hadded, hlru⟩ := kept_foldl_addPrepared hremoved hnodup fun prep hprep => by
    rw [hsegments]
    split_ifs with hdrop
    · rfl
    · rw [hdecode.segments]
      exact (hfree prep hprep).resolve_right hdrop
  have hdirs := fun dirs => framed_removeSpillDirs (prepared.foldl Spill.addPrepared (Spill.removeVictims decoded dropIds [] [] s₂).1) dirs
  refine ⟨(hdirs _).kept hadded, .inl ?_⟩
  rw [(hdirs _).lru, hlru, hrecency, (hspill.trans hdecode).lru]

/-! ## Runs -/

/-- A segment that is loaded and can be decoded. -/
def usable (node : SpillNode B T H I) (s : Spill B T H I) (id : String) : Option (String × SpillEntry B T H) :=
  match s.segments.lookup id with
  | none => none
  | some entry =>
    match s.materialize node entry id with
    | (_, .ok _) => some (id, entry)
    | (_, .error _) => none

/-- The segment that a call uses. -/
def usedBy (node : SpillNode B T H I) (s : Spill B T H I) : SpillCall B T H I → Option (String × SpillEntry B T H)
  | .getSegment segmentId | .setSegmentDatasource segmentId _ => usable node s segmentId
  | _ => none

def droppedBy : SpillCall B T H I → List String
  | .dropSegment segmentId => [segmentId]
  | .replaceSegments dropIds _ => dropIds
  | _ => []

def CountableCall (node : SpillNode B T H I) (s : Spill B T H I) : SpillCall B T H I → Prop
  | .getSegment segmentId | .setSegmentDatasource segmentId _ => Countable node s segmentId
  | _ => True

instance (node : SpillNode B T H I) (s : Spill B T H I) (c : SpillCall B T H I) : Decidable (CountableCall node s c) := by
  cases c <;> unfold CountableCall <;> infer_instance

/-- A call, with the use that it makes noted. -/
def notedCall (node : SpillNode B T H I) (t : Spill B T H I × List String) (c : SpillCall B T H I) : Spill B T H I × List String :=
  (spillCall node t.1 c, t.2 ++ ((usedBy node t.1 c).map (·.1)).toList)

/-- What a call does to the pinned segments, from the least recently used one: a used
one comes last, and what was not pinned makes room from the front, no more than it
needs; a call that uses none only unpins what it drops. -/
def Turn (node : SpillNode B T H I) (s : Spill B T H I) (c : SpillCall B T H I) (after : List String) : Prop :=
  match usedBy node s c with
  | none => after = s.lru.recency.filter (fun id => id ∉ droppedBy c) ∨ after = s.lru.recency
  | some (id, entry) =>
    if id ∈ s.lru.recency then after = s.lru.recency.erase id ++ [id]
    else if node.maxCacheBytes < entry.estimatedBytes then after = s.lru.recency
    else ∃ evicted kept, s.lru.recency = evicted ++ kept ∧ after = kept ++ [id] ∧
      (kept.map s.lru.bytesOf).sum + entry.estimatedBytes.toNat ≤ node.maxCacheBytes.toNat ∧
      ∀ front victim, evicted = front ++ [victim] →
        node.maxCacheBytes.toNat < ((victim :: kept).map s.lru.bytesOf).sum + entry.estimatedBytes.toNat

variable {c : SpillCall B T H I}

theorem turn_used (h : usedBy node s c = some (id, entry)) : Turn node s c (used node s entry id) := by
  unfold Turn used useKey
  rw [h]
  dsimp only
  by_cases hpinned : id ∈ s.lru.recency
  · rw [if_pos hpinned, if_pos hpinned]
  rw [if_neg hpinned, if_neg hpinned]
  by_cases hheavy : node.maxCacheBytes < entry.estimatedBytes
  · rw [if_pos hheavy, if_pos (UInt64.lt_iff_toNat_lt.1 hheavy)]
  have hle := Nat.not_lt.1 fun hlt => hheavy (UInt64.lt_iff_toNat_lt.2 hlt)
  rw [if_neg hheavy, if_neg (Nat.not_lt.2 hle)]
  obtain ⟨evicted, hsplit⟩ : fitting s.lru.bytesOf (node.maxCacheBytes.toNat - entry.estimatedBytes.toNat) s.lru.recency <:+ s.lru.recency :=
    fitting_suffix s.lru.recency
  refine ⟨evicted, _, hsplit.symm, rfl, ?_, fun front victim hfront => ?_⟩
  · have hsum : ((fitting s.lru.bytesOf (node.maxCacheBytes.toNat - entry.estimatedBytes.toNat) s.lru.recency).map s.lru.bytesOf).sum ≤ _ :=
      sum_fitting_le s.lru.recency
    omega
  · have hdropped : s.lru.recency = front ++ victim :: fitting s.lru.bytesOf (node.maxCacheBytes.toNat - entry.estimatedBytes.toNat) s.lru.recency :=
      hsplit.symm.trans (by rw [hfront, append_assoc]; rfl)
    have hlast := lt_sum_of_dropped hdropped
    omega

/-- A call that uses no segment. -/
theorem turn_unused (h : usedBy node s c = none) (hk : (spillCall node s c).Kept node uses)
    (hrecency : (spillCall node s c).lru.recency = s.lru.recency.filter (fun id => id ∉ droppedBy c) ∨
      (spillCall node s c).lru.recency = s.lru.recency) :
    (notedCall node (s, uses) c).1.Kept node (notedCall node (s, uses) c).2 ∧ Turn node s c (spillCall node s c).lru.recency := by
  unfold notedCall Turn
  rw [h]
  dsimp only [Option.map_none, Option.toList_none]
  rw [append_nil]
  exact ⟨hk, hrecency⟩

section

variable (h : s.Kept node uses)

include h

/-- A call that uses a segment, if it can be used, and changes nothing else of the cache. -/
theorem turn_usable (hc : Countable node s id) (hused : usedBy node s c = usable node s id)
    (hnone : s.segments.lookup id = none → spillCall node s c = s)
    (hsome : ∀ entry, s.segments.lookup id = some entry → ∃ held segmentDatasources,
      spillCall node s c = { (s.materialize node entry id).1 with held, segmentDatasources }) :
    (notedCall node (s, uses) c).1.Kept node (notedCall node (s, uses) c).2 ∧ Turn node s c (spillCall node s c).lru.recency := by
  unfold usable at hused
  cases hentry : s.segments.lookup id with
  | none =>
    rw [hentry] at hused
    refine turn_unused hused ?_ (.inr ?_) <;> rw [hnone hentry]
    exact h
  | some entry =>
    rw [hentry] at hused
    dsimp only at hused
    obtain ⟨held, segmentDatasources, hcall⟩ := hsome entry hentry
    rcases kept_materialize h hentry hc with ⟨e, heq⟩ | ⟨s', data, heq, hk, hrecency⟩ <;> rw [heq] at hused hcall
    · refine turn_unused hused ?_ (.inr (by rw [hcall]))
      rw [hcall]
      exact ⟨h.consistent, h.bounded, h.loaded, h.recent⟩
    · refine ⟨?_, ?_⟩
      · unfold notedCall
        rw [hcall, hused]
        exact ⟨hk.consistent, hk.bounded, hk.loaded, hk.recent⟩
      · rw [hcall]
        rw [hrecency]
        exact turn_used hused

theorem kept_loadSegment (segmentId : String) (segment : SpillSegment B T H) :
    (s.loadSegment node segmentId segment).1.Kept node uses ∧ (s.loadSegment node segmentId segment).1.lru = s.lru := by
  unfold Spill.loadSegment
  split
  · exact ⟨h, rfl⟩
  · exact kept_loadSpilled h segmentId none segment

theorem kept_loadSegmentWithDatasource (segmentId datasource : String) (segment : SpillSegment B T H) :
    (s.loadSegmentWithDatasource node segmentId datasource segment).1.Kept node uses ∧
      (s.loadSegmentWithDatasource node segmentId datasource segment).1.lru = s.lru := by
  unfold Spill.loadSegmentWithDatasource
  split
  · exact ⟨h, rfl⟩
  · exact kept_loadSpilled h segmentId (some datasource) segment

theorem kept_dropSegment (segmentId : String) : (s.dropSegment segmentId).1.Kept node uses ∧
      ((s.dropSegment segmentId).1.lru.recency = s.lru.recency.filter (fun id => id ∉ [segmentId]) ∨
        (s.dropSegment segmentId).1.lru.recency = s.lru.recency) := by
  unfold Spill.dropSegment
  split
  · exact ⟨h, .inr rfl⟩
  · obtain ⟨hk, hrecency⟩ := kept_removeEntry h segmentId
    refine ⟨(framed_removeSpillDirs _ [_]).kept hk, .inl (hrecency.trans ?_)⟩
    rw [h.consistent.linked.nodup.erase_eq_filter]
    refine filter_congr fun i _ => ?_
    by_cases hne : i = segmentId <;> simp [hne]

theorem kept_call (c : SpillCall B T H I) (hc : CountableCall node s c) :
    (notedCall node (s, uses) c).1.Kept node (notedCall node (s, uses) c).2 ∧ Turn node s c (spillCall node s c).lru.recency := by
  cases c with
  | loadSegment segmentId segment =>
    obtain ⟨hk, hlru⟩ := kept_loadSegment h segmentId segment
    exact turn_unused rfl hk (.inr (congrArg _ hlru))
  | loadSegmentWithDatasource segmentId datasource segment =>
    obtain ⟨hk, hlru⟩ := kept_loadSegmentWithDatasource h segmentId datasource segment
    exact turn_unused rfl hk (.inr (congrArg _ hlru))
  | dropSegment segmentId =>
    obtain ⟨hk, hrecency⟩ := kept_dropSegment h segmentId
    exact turn_unused rfl hk hrecency
  | replaceSegments dropIds add =>
    obtain ⟨hk, hrecency⟩ := kept_replaceSegments h dropIds add
    exact turn_unused rfl hk hrecency
  | release address => exact turn_unused rfl ⟨h.consistent, h.bounded, h.loaded, h.recent⟩ (.inr rfl)
  | disk disk => exact turn_unused rfl ⟨h.consistent, h.bounded, h.loaded, h.recent⟩ (.inr rfl)
  | getSegment segmentId =>
    refine turn_usable h hc rfl (fun hnone => ?_) fun entry hentry => ?_
    · change (s.getSegment node segmentId).1 = s
      unfold Spill.getSegment
      rw [hnone]
    · change ∃ held segmentDatasources, (s.getSegment node segmentId).1 = _
      unfold Spill.getSegment
      rw [hentry]
      exact ⟨_, _, rfl⟩
  | setSegmentDatasource segmentId datasource =>
    refine turn_usable h hc rfl (fun hnone => ?_) fun entry hentry => ?_
    · change (s.setSegmentDatasource node segmentId datasource).1 = s
      unfold Spill.setSegmentDatasource
      rw [hnone]
    · change ∃ held segmentDatasources, (s.setSegmentDatasource node segmentId datasource).1 = _
      unfold Spill.setSegmentDatasource
      rw [hentry]
      dsimp only
      split <;> rename_i heq <;> rw [heq]
      · exact ⟨_, _, rfl⟩
      · split <;> exact ⟨_, _, rfl⟩

end

theorem kept_new : (Spill.new : Spill B T H I).Kept node [] where
  consistent := ResidentLru.consistent_new
  bounded := UInt64.le_iff_toNat_le.2 (Nat.zero_le _)
  loaded := nofun
  recent := List.Sublist.refl _

/-- In every state of a run whose uses do not wrap the counters, the maps of the LRU
are in bijection, the counter is the sum of what is pinned and in the budget, what
is pinned is loaded and not too heavy, and it is in the order of its last use; and
the next call moves it as an LRU does. -/
theorem resident_lru_kept {calls : List (SpillCall B T H I)}
    (hcalls : Guarded (notedCall node) (fun t c => CountableCall node t.1 c) (.new, []) calls) :
    let t := calls.foldl (notedCall node) (.new, [])
    t.1.lru.Linked ∧
      t.1.residentBytes.toNat = t.1.lru.nodes.weight (·.bytes.toNat) ∧
      t.1.residentBytes ≤ node.maxCacheBytes ∧
      (∀ id n, t.1.lru.nodes.lookup id = some n → n.bytes ≤ node.maxCacheBytes ∧
        ∃ entry, t.1.segments.lookup id = some entry ∧ n.bytes = entry.estimatedBytes) ∧
      t.1.lru.recency.Sublist t.2.dedup ∧
      ∀ c, CountableCall node t.1 c → Turn node t.1 c (spillCall node t.1 c).lru.recency := by
  have hinv := hcalls.inv (fun t => t.1.Kept node t.2) (fun t c hc ht => (kept_call ht c hc).1) kept_new
  intro t
  refine ⟨hinv.consistent.linked, hinv.consistent.exact, hinv.bounded, fun id n hn => ⟨?_, ?_⟩, hinv.recent,
    fun c hc => (kept_call hinv c hc).2⟩
  · refine Std.le_trans (UInt64.le_iff_toNat_le.2 ?_) hinv.bounded
    have hweight := HashMap.weight_erase (·.bytes.toNat) t.1.lru.nodes id
    rw [hn, Option.map_some, Option.getD_some] at hweight
    rw [hinv.consistent.exact]
    exact Nat.le.intro ((Nat.add_comm _ _).trans hweight)
  · obtain ⟨entry, hentry, hbytes, -⟩ := hinv.loaded id n hn
    exact ⟨entry, hentry, hbytes⟩

end

/-! ## Runs of four segments -/

/-- A disk that gives back what was written, in vectors without room. -/
def spillingNode (maxCacheBytes : UInt64) : SpillNode Unit Unit Unit (SpillSegment Unit Unit Unit) where
  toNode := { smallNode with maxCacheBytes }
  spillInstanceDir := "spill"
  writeSegment segment := .ok segment
  openSegment
    | none => .error (.segment "no such directory")
    | some image => .ok { image with toSegmentData := image.toSegmentData.clone smallNode.platform }

/-- One row, in a column of some capacity. -/
def rowSegment (capacity : UInt64) : SpillSegment Unit Unit Unit where
  numRows := 1
  dimensions := ⟨[], 0⟩
  metrics := ⟨[], 0⟩
  columns := ⟨[(.ofStr "__time", .long ⟨[0], capacity⟩)], 3, by simp⟩
  timeSorted := true
  interval := ⟨0, 0⟩

def fourUses (capacity : UInt64) : List (SpillCall Unit Unit Unit (SpillSegment Unit Unit Unit)) :=
  ["a", "b", "c", "d"].map (fun id => .loadSegment id (rowSegment capacity)) ++ ["a", "b", "c", "d"].map .getSegment

/-- A segment weighs 722 bytes, so three of them fit. -/
theorem resident_lru_kept_three :
    Guarded (notedCall (spillingNode 2200)) (fun t c => CountableCall (spillingNode 2200) t.1 c) (.new, []) (fourUses 1) ∧
      ((fourUses 1).foldl (notedCall (spillingNode 2200)) (.new, [])).1.residentBytes ≤ 2200 := by
  have hcalls : Guarded (notedCall (spillingNode 2200)) (fun t c => CountableCall (spillingNode 2200) t.1 c) (.new, []) (fourUses 1) := by
    decide +kernel
  exact ⟨hcalls, (resident_lru_kept hcalls).2.2.1⟩

example : ((fourUses 1).foldl (notedCall (spillingNode 2200)) (.new, [])).1.lru.recency = ["b", "c", "d"] := by decide +kernel

/-- Four times 2^62 bytes and more are pinned in a budget of 2^64 - 1: the saturating
test never asks for room, and the counter wraps. -/
theorem pinned_bytes_wrap :
    ((fourUses (2 ^ 59)).foldl (notedCall (spillingNode (2 ^ 64 - 1))) (.new, [])).1.residentBytes.toNat ≠
      ((fourUses (2 ^ 59)).foldl (notedCall (spillingNode (2 ^ 64 - 1))) (.new, [])).1.lru.nodes.weight (·.bytes.toNat) := by
  decide +kernel

end FerroDruid.Historical
