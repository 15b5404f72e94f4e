import FerroDruid.Lib.HashMap
import FerroDruid.Lib.OrderedMap
import FerroDruid.Lib.Recency
import FerroDruid.Lib.Saturating
/-!
# The memory-budgeted LRU of decoded segments

`ResidentLru` of `ferrodruid-historical/src/lib.rs`, with the counter of the
pinned bytes, which is an atomic of its own.
-/

namespace FerroDruid.Historical

open Lib List

/-- A decoded segment on the heap; the address tells two decodes apart. -/
structure Decode (S : Type) where
  address : ℕ
  value : S

structure LruNode (S : Type) where
  data : Decode S
  tick : UInt64
  bytes : UInt64

structure ResidentLru (S : Type) where
  nodes : HashMap String (LruNode S)
  order : OrderedMap UInt64 String
  nextTick : UInt64

namespace ResidentLru

variable {S : Type}

def new : ResidentLru S := ⟨∅, .empty, 0⟩

def touch (lru : ResidentLru S) (id : String) : ResidentLru S :=
  match lru.nodes.lookup id with
  | none => lru
  | some node =>
    { nodes := lru.nodes.insert id { node with tick := lru.nextTick }
      order := (lru.order.erase node.tick).insert lru.nextTick id
      nextTick := lru.nextTick + 1 }

/-- The loop of `admitSegment`; every round takes an entry of the order. -/
def makeRoom (bytes budget : UInt64) : ℕ → ResidentLru S × UInt64 → ResidentLru S × UInt64
  | 0, s => s
  | rounds + 1, (lru, residentBytes) =>
    if budget < saturatingAdd residentBytes bytes then
      match lru.order.first with
      | none => (lru, residentBytes)
      | some (victimTick, _) =>
        match lru.order.get victimTick with
        | none => (lru, residentBytes)
        | some victimId =>
          let order := lru.order.erase victimTick
          match lru.nodes.lookup victimId with
          | none => makeRoom bytes budget rounds ({ lru with order }, residentBytes)
          | some victim => makeRoom bytes budget rounds ({ lru with nodes := lru.nodes.erase victimId, order }, residentBytes - victim.bytes)
    else (lru, residentBytes)

def admitSegment (lru : ResidentLru S) (id : String) (data : Decode S) (bytes residentBytes budget : UInt64) : ResidentLru S × UInt64 :=
  if (lru.nodes.lookup id).isSome then (lru.touch id, residentBytes)
  else if budget < bytes then (lru, residentBytes)
  else
    let (lru, residentBytes) := makeRoom bytes budget lru.order.entries.length (lru, residentBytes)
    ({ nodes := lru.nodes.insert id ⟨data, lru.nextTick, bytes⟩
       order := lru.order.insert lru.nextTick id
       nextTick := lru.nextTick + 1 },
      residentBytes + bytes)

def remove (lru : ResidentLru S) (id : String) (residentBytes : UInt64) : ResidentLru S × UInt64 :=
  match lru.nodes.lookup id with
  | none => (lru, residentBytes)
  | some node => ({ lru with nodes := lru.nodes.erase id, order := lru.order.erase node.tick }, residentBytes - node.bytes)

/-! ## What holds of the two maps and the counter -/

/-- The pinned ids, from the least recently used one. -/
def recency (lru : ResidentLru S) : List String := lru.order.entries.map (·.2)

def bytesOf (lru : ResidentLru S) (id : String) : ℕ := ((lru.nodes.lookup id).map (·.bytes.toNat)).getD 0

/-- The order and the nodes are in bijection. -/
structure Linked (lru : ResidentLru S) : Prop where
  node : ∀ tick id, lru.order.get tick = some id → ∃ node, lru.nodes.lookup id = some node ∧ node.tick = tick
  order : ∀ id node, lru.nodes.lookup id = some node → lru.order.get node.tick = some id

/-- Bijection, ticks of the past, and a counter of what is pinned. -/
structure Consistent (lru : ResidentLru S) (residentBytes : UInt64) : Prop where
  linked : lru.Linked
  past : ∀ e ∈ lru.order.entries, e.1 < lru.nextTick
  exact : residentBytes.toNat = lru.nodes.weight (·.bytes.toNat)

theorem consistent_new : (new : ResidentLru S).Consistent 0 where
  linked := ⟨nofun, nofun⟩
  past := fun e he => by cases he
  exact := rfl

variable {lru : ResidentLru S} {residentBytes : UInt64} {id : String}

theorem Linked.mem_recency (h : lru.Linked) : id ∈ lru.recency ↔ (lru.nodes.lookup id).isSome := by
  constructor
  · intro hid
    obtain ⟨⟨tick, _⟩, he, rfl⟩ := mem_map.1 hid
    obtain ⟨node, hnode, -⟩ := h.node tick _ ((OrderedMap.get_eq_some_iff _).2 he)
    rw [hnode]
    rfl
  · intro hid
    obtain ⟨node, hnode⟩ := Option.isSome_iff_exists.1 hid
    exact mem_map.2 ⟨_, (OrderedMap.get_eq_some_iff _).1 (h.order id node hnode), rfl⟩

/-- Every id has one tick. -/
theorem Linked.tick_unique (h : lru.Linked) {tick tick' : UInt64} (he : (tick, id) ∈ lru.order.entries)
    (he' : (tick', id) ∈ lru.order.entries) : tick = tick' := by
  obtain ⟨node, hnode, rfl⟩ := h.node tick id ((OrderedMap.get_eq_some_iff _).2 he)
  obtain ⟨node', hnode', rfl⟩ := h.node tick' id ((OrderedMap.get_eq_some_iff _).2 he')
  rw [hnode] at hnode'
  cases hnode'
  rfl

theorem Linked.nodup (h : lru.Linked) : lru.recency.Nodup := by
  have hsorted : lru.order.entries.Nodup := lru.order.sorted.imp fun {a b} hlt heq => by
    subst heq
    exact Std.lt_irrefl hlt
  refine List.Nodup.map_on (fun e he e' he' hid => ?_) hsorted
  obtain ⟨tick, i⟩ := e
  obtain ⟨tick', i'⟩ := e'
  cases (hid : i = i')
  rw [h.tick_unique he he']

/-- Without an entry and its node. -/
theorem recency_erase (h : lru.Linked) {tick : UInt64} (he : (tick, id) ∈ lru.order.entries) :
    (lru.order.erase tick).entries.map (·.2) = lru.recency.erase id := by
  rw [h.nodup.erase_eq_filter]
  unfold recency OrderedMap.erase
  rw [filter_map]
  refine congrArg _ (filter_congr fun e he' => ?_)
  obtain ⟨tick', id'⟩ := e
  by_cases hid : id' = id
  · subst hid
    simp [h.tick_unique he' he]
  · have htick : tick' ≠ tick := fun htick => hid (lru.order.value_unique (htick ▸ he') he)
    simp [htick, hid]

/-- What is pinned weighs what the listed ids do. -/
theorem Linked.weight_eq (h : lru.Linked) : lru.nodes.weight (·.bytes.toNat) = (lru.recency.map lru.bytesOf).sum := by
  have hperm : lru.recency.Perm lru.nodes.keys :=
    (perm_ext_iff_of_nodup h.nodup (AList.keys_nodup _)).2 fun id => by
      rw [h.mem_recency, ← AList.mem_keys, ← AList.lookup_isSome]
  rw [(hperm.map lru.bytesOf).sum_eq]
  have hvalues : ∀ e ∈ lru.nodes.entries, lru.bytesOf e.1 = e.2.bytes.toNat := fun e he => by
    unfold bytesOf
    rw [(AList.mem_lookup_iff (s := lru.nodes)).2 he]
    rfl
  unfold HashMap.weight HashMap.values AList.keys List.keys
  rw [map_map, map_map]
  exact congrArg _ (map_congr_left fun e he => (hvalues e he).symm)

/-! ## Every operation keeps it -/

/-- A node leaves with its entry and its bytes. -/
theorem Consistent.unpin (h : lru.Consistent residentBytes) {node : LruNode S} (hnode : lru.nodes.lookup id = some node) :
    ({ lru with nodes := lru.nodes.erase id, order := lru.order.erase node.tick } : ResidentLru S).Consistent (residentBytes - node.bytes) ∧
      ({ lru with nodes := lru.nodes.erase id, order := lru.order.erase node.tick } : ResidentLru S).recency = lru.recency.erase id := by
  have hentry := (OrderedMap.get_eq_some_iff _).1 (h.linked.order id node hnode)
  have hmem : ∀ e : UInt64 × String, e ∈ (lru.order.erase node.tick).entries ↔ e ∈ lru.order.entries ∧ e.1 ≠ node.tick := fun e => by
    simp [OrderedMap.erase]
  refine ⟨⟨⟨fun tick i hget => ?_, fun i node' hi => ?_⟩, fun e he => h.past e ((hmem e).1 he).1, ?_⟩, recency_erase h.linked hentry⟩
  · obtain ⟨he, hne⟩ := (hmem _).1 ((OrderedMap.get_eq_some_iff _).1 hget)
    obtain ⟨node', hnode', htick⟩ := h.linked.node tick i ((OrderedMap.get_eq_some_iff _).2 he)
    have hi : i ≠ id := fun hi => hne (h.linked.tick_unique (hi ▸ he) hentry)
    exact ⟨node', (AList.lookup_erase_ne hi).trans hnode', htick⟩
  · have hne : i ≠ id := fun heq => by
      subst heq
      rw [AList.lookup_erase] at hi
      cases hi
    rw [AList.lookup_erase_ne hne] at hi
    have hentry' := (OrderedMap.get_eq_some_iff _).1 (h.linked.order i node' hi)
    refine (OrderedMap.get_eq_some_iff _).2 ((hmem _).2 ⟨hentry', fun htick => hne ?_⟩)
    exact lru.order.value_unique (htick ▸ hentry') hentry
  · have hweight := HashMap.weight_erase (·.bytes.toNat) lru.nodes id
    rw [hnode, Option.map_some, Option.getD_some] at hweight
    have hexact := h.exact
    have hle : node.bytes ≤ residentBytes := UInt64.le_iff_toNat_le.2 (by omega)
    rw [UInt64.toNat_sub_of_le _ _ hle]
    dsimp only
    omega

theorem consistent_remove (h : lru.Consistent residentBytes) (id : String) :
    (lru.remove id residentBytes).1.Consistent (lru.remove id residentBytes).2 ∧
      (lru.remove id residentBytes).1.recency = lru.recency.erase id ∧ (lru.remove id residentBytes).1.nodes = lru.nodes.erase id := by
  unfold remove
  cases hnode : lru.nodes.lookup id with
  | none =>
    have hid : id ∉ lru.recency := by rw [h.linked.mem_recency, hnode]; simp
    have herase : lru.nodes.erase id = lru.nodes := AList.ext (kerase_of_notMem_keys (AList.lookup_eq_none.1 hnode))
    exact ⟨h, (erase_of_not_mem hid).symm, herase.symm⟩
  | some node => exact ⟨(h.unpin hnode).1, (h.unpin hnode).2, rfl⟩

variable {bytes : UInt64}

/-- A new tick comes last. -/
theorem Consistent.pin (h : lru.Consistent residentBytes) (hfresh : lru.nodes.lookup id = none)
    (hticks : lru.nextTick.toNat + 1 < 2 ^ 64) (data : Decode S) (hbytes : residentBytes.toNat + bytes.toNat < 2 ^ 64) :
    (⟨lru.nodes.insert id ⟨data, lru.nextTick, bytes⟩, lru.order.insert lru.nextTick id, lru.nextTick + 1⟩ : ResidentLru S).Consistent
        (residentBytes + bytes) ∧
      (⟨lru.nodes.insert id ⟨data, lru.nextTick, bytes⟩, lru.order.insert lru.nextTick id, lru.nextTick + 1⟩ : ResidentLru S).recency =
        lru.recency ++ [id] := by
  have hentries := lru.order.insert_last id h.past
  have hnext : lru.nextTick < lru.nextTick + 1 := by
    rw [UInt64.lt_iff_toNat_lt, UInt64.toNat_add]
    change _ < (lru.nextTick.toNat + 1) % 2 ^ 64
    omega
  have hmem : ∀ tick i, (lru.order.insert lru.nextTick id).get tick = some i ↔
      lru.order.get tick = some i ∨ tick = lru.nextTick ∧ i = id := fun tick i => by
    rw [OrderedMap.get_eq_some_iff, hentries, OrderedMap.get_eq_some_iff]
    simp
  refine ⟨⟨⟨fun tick i hget => ?_, fun i node hi => ?_⟩, fun e he => ?_, ?_⟩, ?_⟩
  · rcases (hmem tick i).1 hget with hget | ⟨rfl, rfl⟩
    · obtain ⟨node, hnode, htick⟩ := h.linked.node tick i hget
      have hne : i ≠ id := fun heq => by
        subst heq
        rw [hfresh] at hnode
        cases hnode
      exact ⟨node, (AList.lookup_insert_ne hne).trans hnode, htick⟩
    · exact ⟨_, AList.lookup_insert _, rfl⟩
  · by_cases hid : i = id
    · subst hid
      rw [AList.lookup_insert] at hi
      cases hi
      exact (hmem _ _).2 (.inr ⟨rfl, rfl⟩)
    · rw [AList.lookup_insert_ne hid] at hi
      exact (hmem _ _).2 (.inl (h.linked.order i node hi))
  · rw [hentries] at he
    rcases mem_append.1 he with he | he
    · exact Std.lt_trans (h.past e he) hnext
    · rw [mem_singleton.1 he]
      exact hnext
  · have hweight := HashMap.weight_insert (·.bytes.toNat) lru.nodes id ⟨data, lru.nextTick, bytes⟩
    have herase := HashMap.weight_erase (·.bytes.toNat) lru.nodes id
    rw [hfresh] at herase
    have hexact := h.exact
    rw [hweight, UInt64.toNat_add, Nat.mod_eq_of_lt hbytes]
    rw [Option.map_none, Option.getD_none] at herase
    dsimp only
    omega
  · unfold recency
    rw [hentries, map_append]
    rfl

/-- A touch takes the entry out and puts it last. -/
theorem consistent_touch (h : lru.Consistent residentBytes) (hticks : lru.nextTick.toNat + 1 < 2 ^ 64)
    (hid : (lru.nodes.lookup id).isSome) :
    (lru.touch id).Consistent residentBytes ∧ (lru.touch id).recency = lru.recency.erase id ++ [id] ∧
      ∀ i, ((lru.touch id).nodes.lookup i).map (fun node => (node.data, node.bytes)) =
        (lru.nodes.lookup i).map fun node => (node.data, node.bytes) := by
  obtain ⟨node, hnode⟩ := Option.isSome_iff_exists.1 hid
  obtain ⟨hout, hrecency⟩ := h.unpin hnode
  have hweight := HashMap.weight_erase (·.bytes.toNat) lru.nodes id
  rw [hnode, Option.map_some, Option.getD_some, ← h.exact] at hweight
  have hle : node.bytes ≤ residentBytes := UInt64.le_iff_toNat_le.2 (by omega)
  have hsum : (residentBytes - node.bytes).toNat + node.bytes.toNat = residentBytes.toNat := by
    rw [UInt64.toNat_sub_of_le _ _ hle]
    omega
  have hback : residentBytes - node.bytes + node.bytes = residentBytes := UInt64.sub_add_cancel _ _
  obtain ⟨hin, hlast⟩ := hout.pin (AList.lookup_erase ..) hticks node.data (hsum ▸ residentBytes.toNat_lt)
  have hinsert : (lru.nodes.erase id).insert id ⟨node.data, lru.nextTick, node.bytes⟩ =
      lru.nodes.insert id ⟨node.data, lru.nextTick, node.bytes⟩ := 
    AList.ext (congrArg (List.cons _) (kerase_of_notMem_keys (notMem_keys_kerase id lru.nodes.nodupKeys)))
  unfold touch
  rw [hnode]
  rw [hinsert] at hin hlast
  rw [hback] at hin
  refine ⟨hin, hlast.trans (congrArg (· ++ [id]) hrecency), fun i => ?_⟩
  by_cases hi : i = id
  · subst hi
    rw [AList.lookup_insert, hnode]
    rfl
  · rw [AList.lookup_insert_ne hi]

/-- The room a node needs is made from the front, and no more of it. -/
theorem makeRoom_spec {budget : UInt64} (hbytes : bytes ≤ budget) {rounds : ℕ} (h : lru.Consistent residentBytes)
    (hrounds : lru.order.entries.length ≤ rounds)
    (hfits : budget.toNat + 1 < 2 ^ 64 ∨ residentBytes.toNat + bytes.toNat < 2 ^ 64) :
    (makeRoom bytes budget rounds (lru, residentBytes)).1.Consistent (makeRoom bytes budget rounds (lru, residentBytes)).2 ∧
      (makeRoom bytes budget rounds (lru, residentBytes)).1.nextTick = lru.nextTick ∧
      (makeRoom bytes budget rounds (lru, residentBytes)).1.recency = fitting lru.bytesOf (budget.toNat - bytes.toNat) lru.recency ∧
      ∀ i node, (makeRoom bytes budget rounds (lru, residentBytes)).1.nodes.lookup i = some node → lru.nodes.lookup i = some node := by
  have hle := UInt64.le_iff_toNat_le.1 hbytes
  have hweight : ∀ {lru : ResidentLru S} {r : UInt64}, lru.Consistent r → (lru.recency.map lru.bytesOf).sum = r.toNat := fun h =>
    h.linked.weight_eq.symm.trans h.exact.symm
  induction rounds generalizing lru residentBytes with
  | zero =>
    have hnil : lru.recency = [] := map_eq_nil_iff.2 (eq_nil_of_length_eq_zero (by omega))
    exact ⟨h, rfl, by rw [makeRoom, hnil]; rfl, fun _ _ hi => hi⟩
  | succ rounds ih =>
    have hover : budget < saturatingAdd residentBytes bytes ↔ budget.toNat < residentBytes.toNat + bytes.toNat := by
      rw [UInt64.lt_iff_toNat_lt, toNat_saturatingAdd]
      omega
    unfold makeRoom
    by_cases hroom : budget < saturatingAdd residentBytes bytes
    · rw [if_pos hroom]
      rw [hover] at hroom
      cases hentries : lru.order.entries with
      | nil =>
        have hnil : lru.recency = [] := map_eq_nil_iff.2 hentries
        have hzero := hweight h
        rw [hnil, map_nil, sum_nil] at hzero
        omega
      | cons e es =>
        obtain ⟨tick, victim⟩ := e
        have hfirst : lru.order.first = some (tick, victim) := by rw [OrderedMap.first, hentries]; rfl
        have hentry : (tick, victim) ∈ lru.order.entries := hentries ▸ mem_cons_self ..
        have hget := (OrderedMap.get_eq_some_iff lru.order).2 hentry
        obtain ⟨node, hnode, rfl⟩ := h.linked.node tick victim hget
        obtain ⟨hout, hrecency⟩ := h.unpin hnode
        have hcons : lru.recency = victim :: es.map (·.2) := by rw [recency, hentries]; rfl
        have hnodup := hcons ▸ h.linked.nodup
        rw [hcons, erase_cons_head] at hrecency
        have hsum := HashMap.weight_erase (·.bytes.toNat) lru.nodes victim
        rw [hnode, Option.map_some, Option.getD_some, ← h.exact] at hsum
        have hless : (residentBytes - node.bytes).toNat ≤ residentBytes.toNat := by
          rw [hout.exact]
          dsimp only
          omega
        have hshorter : (lru.order.erase node.tick).entries.length ≤ rounds := by
          have hlen := congrArg List.length hrecency
          rw [recency, length_map, length_map] at hlen
          rw [hentries, length_cons] at hrounds
          dsimp only at hlen
          omega
        obtain ⟨hc, hnext, hfit, hnodes⟩ := ih hout hshorter (hfits.imp_right fun hfits => by omega)
        simp only [hfirst, hget, hnode]
        refine ⟨hc, hnext, ?_, fun i node' hi => ?_⟩
        · -- the front does not fit, and the others weigh what they did
          have hall := hweight h
          rw [hcons] at hall
          rw [hfit, hrecency, hcons, fitting, if_neg (by omega)]
          refine fitting_congr fun i hi => ?_
          have hne : i ≠ victim := fun heq => (nodup_cons.1 hnodup).1 (heq ▸ hi)
          unfold bytesOf
          rw [AList.lookup_erase_ne hne]
        · have hi := hnodes i node' hi
          have hne : i ≠ victim := fun heq => by
            subst heq
            rw [AList.lookup_erase] at hi
            cases hi
          rwa [AList.lookup_erase_ne hne] at hi
    · rw [if_neg hroom]
      rw [hover] at hroom
      exact ⟨h, rfl, (fitting_of_le (by rw [hweight h]; omega)).symm, fun _ _ hi => hi⟩

/-- What `admitSegment` does of a segment that is not pinned. -/
theorem consistent_admit (h : lru.Consistent residentBytes) (hfresh : lru.nodes.lookup id = none)
    (hticks : lru.nextTick.toNat + 1 < 2 ^ 64) (data : Decode S) {budget : UInt64} (hbytes : bytes ≤ budget)
    (hfits : budget.toNat + 1 < 2 ^ 64 ∨ residentBytes.toNat + bytes.toNat < 2 ^ 64) :
    (lru.admitSegment id data bytes residentBytes budget).1.Consistent (lru.admitSegment id data bytes residentBytes budget).2 ∧
      (lru.admitSegment id data bytes residentBytes budget).2 ≤ budget ∧
      (lru.admitSegment id data bytes residentBytes budget).1.recency =
        fitting lru.bytesOf (budget.toNat - bytes.toNat) lru.recency ++ [id] ∧
      ∀ i node, (lru.admitSegment id data bytes residentBytes budget).1.nodes.lookup i = some node →
        i = id ∧ node = ⟨data, lru.nextTick, bytes⟩ ∨ lru.nodes.lookup i = some node := by
  obtain ⟨hc, hnext, hrecency, hnodes⟩ := makeRoom_spec hbytes h (Nat.le_refl _) hfits
  have hnew : lru.admitSegment id data bytes residentBytes budget =
      let s := makeRoom bytes budget lru.order.entries.length (lru, residentBytes)
      (⟨s.1.nodes.insert id ⟨data, s.1.nextTick, bytes⟩, s.1.order.insert s.1.nextTick id, s.1.nextTick + 1⟩, s.2 + bytes) := by
    unfold admitSegment
    rw [hfresh, if_neg (by simp), if_neg (Std.not_lt.2 hbytes)]
  rw [hnew]
  generalize makeRoom bytes budget lru.order.entries.length (lru, residentBytes) = s at hc hnext hrecency hnodes
  have hout : s.1.nodes.lookup id = none := by
    cases hid : s.1.nodes.lookup id with
    | none => rfl
    | some node => rw [hnodes id node hid] at hfresh; cases hfresh
  -- what stays weighs as before, so it leaves room
  have hroom : s.2.toNat + bytes.toNat ≤ budget.toNat := by
    have hle := UInt64.le_iff_toNat_le.1 hbytes
    have hsum : ((fitting lru.bytesOf (budget.toNat - bytes.toNat) lru.recency).map lru.bytesOf).sum ≤ budget.toNat - bytes.toNat :=
      sum_fitting_le lru.recency
    rw [← hrecency, map_congr_left (g := s.1.bytesOf) fun i hi => ?_, ← hc.linked.weight_eq, ← hc.exact] at hsum
    · omega
    · obtain ⟨node, hnode⟩ := Option.isSome_iff_exists.1 (hc.linked.mem_recency.1 hi)
      unfold bytesOf
      rw [hnode, hnodes i node hnode]
  have hlt := hroom.trans_lt budget.toNat_lt
  obtain ⟨hin, hlast⟩ := hc.pin hout (by rwa [hnext]) data hlt
  refine ⟨hin, ?_, hrecency ▸ hlast, fun i node hi => ?_⟩
  · rw [UInt64.le_iff_toNat_le, UInt64.toNat_add, Nat.mod_eq_of_lt hlt]
    exact hroom
  · by_cases hne : i = id
    · subst hne
      rw [AList.lookup_insert] at hi
      cases hi
      exact .inl ⟨rfl, by rw [hnext]⟩
    · rw [AList.lookup_insert_ne hne] at hi
      exact .inr (hnodes i node hi)

end ResidentLru

end FerroDruid.Historical
