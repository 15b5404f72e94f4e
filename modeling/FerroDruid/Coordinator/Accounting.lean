import FerroDruid.Coordinator.Moves
import FerroDruid.Lib.Run
/-!
# Sizes and assignments

The tracked size of a server is what is assigned to it, as long as no
registration of a known server brings another size with it. What is loaded then
fits, as long as nothing of size zero is loaded on a server that is past its
size already.
-/

namespace FerroDruid.Coordinator

open Lib List

/-! ## Calls -/

/-- What a caller does. The time and what the store answers are the
environment's. -/
inductive Call where
  | registerServer (server : ServerInfo)
  | updateServer (name : String) (tier : Option String) (maxSize : Option UInt64)
  | removeServer (name : String)
  | runBalance (now : ℤ) (store : MetadataStore) (availableServers : List ServerInfo)
  | runBalanceRegistered (now : ℤ) (store : MetadataStore)
  | rebalance

section

variable (chrono : Chrono) (cost : CostModel) (fromValue : Json → Except String LoadRule) (maxSegmentsToMove : ℕ)

def call (b : Board) : Call → Board
  | .registerServer server => registerServer server b
  | .updateServer name tier maxSize => updateServer name tier maxSize b
  | .removeServer name => removeServer name b
  | .runBalance now store availableServers => (runBalance chrono cost fromValue now store availableServers b).1
  | .runBalanceRegistered now store => (runBalanceRegistered chrono cost fromValue now store b).1
  | .rebalance => (rebalance cost maxSegmentsToMove b).board

/-- The actions a call returns, with the boards they left. -/
def emitted (b : Board) : Call → List (SegmentLoadAction × Board)
  | .runBalance now store availableServers => ((runBalance chrono cost fromValue now store availableServers b).2.toOption).getD []
  | .runBalanceRegistered now store => ((runBalanceRegistered chrono cost fromValue now store b).2.toOption).getD []
  | .rebalance => (rebalance cost maxSegmentsToMove b).history
  | _ => []

end

/-- `Coordinator::new`. -/
def Board.empty : Board := ⟨∅, .new⟩

/-! ## What the books say -/

/-- The bytes that are assigned to a server. -/
def Board.assignedBytes (b : Board) (name : String) : ℕ := ((b.on name).map (·.sizeBytes.toNat)).sum

structure Accounted (b : Board) : Prop where
  size : ∀ name server, b.registry.get name = some server → server.currentSize.toNat = b.assignedBytes name
  once : ∀ name, ((b.on name).map (·.segmentId)).Nodup
  registered : ∀ name, b.on name ≠ [] → (b.registry.get name).isSome = true

/-- No server has a segment twice, and a server that has one is registered. -/
structure Placed (b : Board) : Prop where
  once : ∀ name, ((b.on name).map (·.segmentId)).Nodup
  registered : ∀ name, b.on name ≠ [] → (b.registry.get name).isSome = true

variable {b : Board}

theorem Accounted.placed (hb : Accounted b) : Placed b := ⟨hb.once, hb.registered⟩

/-- A load leaves its target within its size. -/
def LoadFits (e : SegmentLoadAction) (b : Board) : Prop :=
  ∀ name id, e = .load name id → ∃ server, b.registry.get name = some server ∧ b.assignedBytes name ≤ server.maxSize.toNat

/-- No server is past its size. -/
def NotOverfull (b : Board) : Prop := ∀ name server, b.registry.get name = some server → server.currentSize ≤ server.maxSize

variable {server : ServerInfo}

theorem canHold_lt {size : UInt64} (h : server.canHold size = true) :
    server.currentSize.toNat + size.toNat < 2 ^ 64 := by
  have := server.maxSize.toNat_lt
  have := server.currentSize.toNat_lt
  rw [ServerInfo.canHold_iff] at h
  omega

variable {a : SegmentAssignment}

theorem get_place {name : String} (h : b.registry.get name = some server)
    (name' : String) : (b.place name a).registry.get name' =
      if name' = name then some { server with currentSize := saturatingAdd server.currentSize a.sizeBytes } else b.registry.get name' := by
  rw [Board.place, ServerRegistry.addSize, ServerRegistry.get_alter, h]
  rfl

theorem get_unplace {name : String} {rest : List SegmentAssignment} (name' : String) :
    (b.unplace name rest a).registry.get name' = if name' = name then
      (b.registry.get name).map fun server => { server with currentSize := saturatingSub server.currentSize a.sizeBytes }
    else b.registry.get name' := by
  rw [Board.unplace, ServerRegistry.subSize, ServerRegistry.get_alter]

theorem assignedBytes_place (b : Board) (name : String) (a : SegmentAssignment) (name' : String) :
    (b.place name a).assignedBytes name' =
      if name' = name then b.assignedBytes name + a.sizeBytes.toNat else b.assignedBytes name' := by
  unfold Board.assignedBytes
  rw [Board.on_place]
  split_ifs <;> simp

theorem assignedBytes_unplace {name : String} {kept rest : List SegmentAssignment}
    (hon : b.on name = kept ++ a :: rest) (name' : String) : (b.unplace name (kept ++ rest) a).assignedBytes name' =
      if name' = name then b.assignedBytes name - a.sizeBytes.toNat else b.assignedBytes name' := by
  unfold Board.assignedBytes
  rw [Board.on_unplace _ _ (by simp [hon])]
  split_ifs
  · simp only [hon, map_append, map_cons, sum_append, sum_cons]
    omega
  · rfl

variable {b' : Board} {e : SegmentLoadAction}

theorem placed_of_moves (h : Moves b e b') (hb : Placed b) : Placed b' := by
  cases h with
  | @load name server a known fits fresh tiered =>
    refine ⟨fun name' => ?_, fun name' hne => ?_⟩
    · rw [Board.on_place]
      split_ifs with hname
      · rw [map_append, nodup_append]
        refine ⟨hb.once name, by simp, fun id hid id' hid' heq => ?_⟩
        obtain ⟨x, hx, rfl⟩ := mem_map.1 hid
        rw [map_singleton, mem_singleton] at hid'
        rw [Board.holds, any_eq_false] at fresh
        exact fresh x hx (by simp [heq, hid'])
      · exact hb.once name'
    · rw [get_place known]
      rw [Board.on_place] at hne
      split_ifs at hne ⊢
      · rfl
      · exact hb.registered name' hne
  | @drop name a kept rest on first =>
    have hne : b.on name ≠ [] := by simp [on]
    refine ⟨fun name' => ?_, fun name' hne' => ?_⟩
    · have honce := hb.once name
      rw [Board.on_unplace _ _ hne]
      split_ifs
      · rw [on] at honce
        exact honce.sublist (((sublist_cons_self a rest).append_left kept).map _)
      · exact hb.once name'
    · rw [get_unplace]
      rw [Board.on_unplace _ _ hne] at hne'
      split_ifs at hne' ⊢
      · rw [Option.isSome_map]
        exact hb.registered name hne
      · exact hb.registered name' hne'

/-- The moves keep the books. -/
theorem accounted_of_moves (h : Moves b e b') (hb : Accounted b) : Accounted b' := by
  obtain ⟨honce, hregistered⟩ := placed_of_moves h hb.placed
  refine ⟨fun name' server' hget => ?_, honce, hregistered⟩
  cases h with
  | @load name server a known fits fresh tiered =>
    have hlt := canHold_lt fits
    rw [get_place known] at hget
    rw [assignedBytes_place]
    split_ifs at hget ⊢ with hname
    · rw [← Option.some.inj hget, toNat_saturatingAdd, ← hb.size name server known]
      omega
    · exact hb.size name' server' hget
  | @drop name a kept rest on first =>
    rw [get_unplace] at hget
    rw [assignedBytes_unplace on]
    split_ifs at hget ⊢ with hname
    · obtain ⟨server, hserver, rfl⟩ := Option.map_eq_some_iff.1 hget
      rw [toNat_saturatingSub, hb.size name server hserver]
    · exact hb.size name' server' hget

/-- What is placed has a size, unless no server is past its size. -/
def RoomFor (Z : UInt64 → Prop) (b : Board) : Prop := NotOverfull b ∨ ∀ size, Z size → size ≠ 0

theorem notOverfull_of_moves (h : Moves b e b') (hb : NotOverfull b) : NotOverfull b' := by
  intro name' server' hget
  cases h with
  | @load name server a known fits fresh tiered =>
    rw [get_place known] at hget
    split_ifs at hget
    · have hle := hb name server known
      rw [UInt64.le_iff_toNat_le] at hle
      rw [ServerInfo.canHold_iff] at fits
      rw [← Option.some.inj hget, UInt64.le_iff_toNat_le]
      show (saturatingAdd server.currentSize a.sizeBytes).toNat ≤ server.maxSize.toNat
      rw [toNat_saturatingAdd]
      omega
    · exact hb name' server' hget
  | @drop name a kept rest on first =>
    rw [get_unplace] at hget
    split_ifs at hget
    · obtain ⟨server, hserver, rfl⟩ := Option.map_eq_some_iff.1 hget
      have hle := hb name server hserver
      rw [UInt64.le_iff_toNat_le] at hle ⊢
      show (saturatingSub server.currentSize a.sizeBytes).toNat ≤ server.maxSize.toNat
      rw [toNat_saturatingSub]
      omega
    · exact hb name' server' hget

variable {Z : UInt64 → Prop}

/-- A load of what has a size, or on a server within its size, fits. -/
theorem loadFits_of_moves (h : Moves b e b') (hsized : LoadsSized Z b e b') (hb : Accounted b)
    (hroom : RoomFor Z b) : LoadFits e b' := by
  intro name id he
  cases h with
  | @load n server a known fits fresh tiered =>
    cases he
    refine ⟨_, (get_place known name).trans (if_pos rfl), ?_⟩
    obtain ⟨a', hplace, ha'⟩ := hsized _ _ rfl
    have hbytes : (b.place name a).assignedBytes name = (b.place name a').assignedBytes name := by rw [hplace]
    rw [assignedBytes_place, assignedBytes_place, if_pos rfl, if_pos rfl] at hbytes
    rw [assignedBytes_place, if_pos rfl, ← hb.size name server known]
    show server.currentSize.toNat + a.sizeBytes.toNat ≤ server.maxSize.toNat
    rw [ServerInfo.canHold_iff] at fits
    rcases hroom with hfull | hsize
    · have hle := UInt64.le_iff_toNat_le.1 (hfull name server known)
      omega
    · have hpos : a'.sizeBytes.toNat ≠ 0 := fun hzero => hsize _ ha' (UInt64.toNat_inj.1 hzero)
      omega
  | drop on first => cases he

/-- Along a history of moves the books are kept, and every load fits. -/
theorem accounted_of_grows {c c' : Cycle} (h : Grows (LoadsSized Z) c c') (hc : Accounted c.board) :
    Accounted c'.board ∧ (c.history = [] → RoomFor Z c.board → ∀ e ∈ c'.history, LoadFits e.1 e.2) := by
  obtain ⟨hs, hhist, htrace⟩ := h
  have hkept : ∀ b e b', Moves b e b' ∧ LoadsSized Z b e b' → Accounted b → Accounted b' := fun _ _ _ h => accounted_of_moves h.1
  refine ⟨(htrace.inv hkept hc).1, fun hnil hroom => ?_⟩
  rw [hhist, hnil, nil_append]
  refine htrace.forall_mem (I := fun b => Accounted b ∧ RoomFor Z b) (fun b e b' hstep hI => ?_) ⟨hc, hroom⟩
  refine ⟨⟨accounted_of_moves hstep.1 hI.1, hI.2.imp_left (notOverfull_of_moves hstep.1)⟩, ?_⟩
  exact loadFits_of_moves hstep.1 hstep.2 hI.1 hI.2

/-! ## Careful callers -/

/-- The sizes of the used segments. -/
def UsedSize (store : MetadataStore) (size : UInt64) : Prop :=
  ∃ segments, store.loadUsedSegments = .ok segments ∧ ∃ seg ∈ segments, segmentSizeBytes seg = size

/-- The sizes of what is assigned. -/
def AssignedSize (b : Board) (size : UInt64) : Prop := ∃ name, ∃ a ∈ b.on name, a.sizeBytes = size

/-- A known server is registered again with the size that is tracked for it, a
new one with none; and segments of size zero are not around while a server is
past its size. -/
def Careful (b : Board) : Call → Prop
  | .registerServer server =>
    match b.registry.get server.name with
    | some known => server.currentSize = known.currentSize
    | none => server.currentSize = 0
  | .updateServer _ _ _ => True
  | .removeServer _ => True
  | .runBalance _ store availableServers =>
    (∀ s ∈ availableServers, b.registry.get s.name = none → s.currentSize = 0) ∧
      RoomFor (UsedSize store) (registerNew availableServers b)
  | .runBalanceRegistered _ store => RoomFor (UsedSize store) b
  | .rebalance => RoomFor (AssignedSize b) b

theorem placed_registerServer (server : ServerInfo) (hb : Placed b) : Placed (registerServer server b) := by
  refine ⟨hb.once, fun name hne => ?_⟩
  rw [registerServer, ServerRegistry.get_register]
  split_ifs
  · rfl
  · exact hb.registered name hne

theorem accounted_registerServer (hb : Accounted b) (h : match b.registry.get server.name with
      | some known => server.currentSize = known.currentSize
      | none => server.currentSize = 0) : Accounted (registerServer server b) := by
  obtain ⟨honce, hregistered⟩ := placed_registerServer server hb.placed
  refine ⟨fun name s hget => ?_, honce, hregistered⟩
  rw [registerServer, ServerRegistry.get_register] at hget
  split_ifs at hget with hname
  · rw [← Option.some.inj hget, hname]
    cases hknown : b.registry.get server.name with
    | some known =>
      rw [hknown] at h
      rw [h]
      exact hb.size _ known hknown
    | none =>
      rw [hknown] at h
      have hon : b.on server.name = [] := by
        by_contra hne
        have := hb.registered _ hne
        rw [hknown] at this
        cases this
      rw [h]
      show 0 = b.assignedBytes server.name
      rw [Board.assignedBytes, hon]
      rfl
  · exact hb.size name s hget

variable (name : String)

theorem placed_updateServer (tier : Option String) (maxSize : Option UInt64) (hb : Placed b) :
    Placed (updateServer name tier maxSize b) := by
  refine ⟨hb.once, fun name' hne => ?_⟩
  have := hb.registered name' hne
  rw [updateServer, ServerRegistry.update, ServerRegistry.get_alter]
  split_ifs with hname
  · rw [Option.isSome_map, ← hname]
    exact this
  · exact this

theorem accounted_updateServer (tier : Option String) (maxSize : Option UInt64) (hb : Accounted b) :
    Accounted (updateServer name tier maxSize b) := by
  obtain ⟨honce, hregistered⟩ := placed_updateServer name tier maxSize hb.placed
  refine ⟨fun name' s hget => ?_, honce, hregistered⟩
  rw [updateServer, ServerRegistry.update, ServerRegistry.get_alter] at hget
  split_ifs at hget with hname
  · obtain ⟨server, hserver, rfl⟩ := Option.map_eq_some_iff.1 hget
    rw [hname]
    exact hb.size name server hserver
  · exact hb.size name' s hget

theorem on_removeServer (b : Board) (name name' : String) (hb : Placed b) :
    (removeServer name b).on name' = if name' = name then [] else b.on name' := by
  unfold removeServer Board.on HashMap.getD
  split_ifs with hknown hname hname
  · rw [hname, AList.lookup_erase]
    rfl
  · rw [AList.lookup_erase_ne hname]
  · -- a server that is not known has no assignments
    by_contra hne
    rw [hname] at hne
    exact hknown (hb.registered name hne)
  · rfl

theorem placed_removeServer (hb : Placed b) : Placed (removeServer name b) := by
  refine ⟨fun name' => ?_, fun name' hne => ?_⟩
  · rw [on_removeServer b name name' hb]
    split_ifs
    · exact nodup_nil
    · exact hb.once name'
  · rw [on_removeServer b name name' hb] at hne
    split_ifs at hne with hname
    · exact absurd rfl hne
    · show ((b.registry.remove name).get name').isSome = true
      rw [ServerRegistry.get_remove, if_neg hname]
      exact hb.registered name' hne

theorem accounted_removeServer (hb : Accounted b) : Accounted (removeServer name b) := by
  obtain ⟨honce, hregistered⟩ := placed_removeServer name hb.placed
  refine ⟨fun name' s hget => ?_, honce, hregistered⟩
  have hget' : (b.registry.remove name).get name' = some s := hget
  rw [ServerRegistry.get_remove] at hget'
  split_ifs at hget' with hname
  rw [Board.assignedBytes, on_removeServer b name name' hb.placed, if_neg hname]
  exact hb.size name' s hget'

theorem registerNew_cons (s : ServerInfo) (ss : List ServerInfo) (b : Board) :
    registerNew (s :: ss) b = registerNew ss (if b.registry.get s.name = none then registerServer s b else b) := by
  unfold registerNew registerServer
  split_ifs with h h' h' <;> simp_all

theorem registerNew_inv {I : Board → Prop} (hstep : ∀ s b, b.registry.get s.name = none → I b → I (registerServer s b))
    (servers : List ServerInfo) (hb : I b) : I (registerNew servers b) := by
  induction servers generalizing b with
  | nil => exact hb
  | cons s ss ih =>
    rw [registerNew_cons]
    split_ifs with hnew
    · exact ih (hstep s b hnew hb)
    · exact ih hb

theorem accounted_registerNew {servers : List ServerInfo} (hb : Accounted b)
    (h : ∀ s ∈ servers, b.registry.get s.name = none → s.currentSize = 0) : Accounted (registerNew servers b) := by
  induction servers generalizing b with
  | nil => exact hb
  | cons s ss ih =>
    rw [forall_mem_cons] at h
    rw [registerNew_cons]
    split_ifs with hnew
    · have hone : Accounted (registerServer s b) := accounted_registerServer hb (by rw [hnew]; exact h.1 hnew)
      refine ih hone fun s' hs' hnone => h.2 s' hs' ?_
      rw [registerServer, ServerRegistry.get_register] at hnone
      split_ifs at hnone
      exact hnone
    · exact ih hb h.2

section

variable {chrono : Chrono} {cost : CostModel} {fromValue : Json → Except String LoadRule} {maxSegmentsToMove : ℕ}
  {b : Board}

/-- What the moves keep, a cycle keeps, also one that fails. -/
theorem runBalanceRegistered_inv {I : Board → Prop} (hstep : ∀ b e b', Moves b e b' → I b → I b') (now :
    ℤ) (store : MetadataStore) (hb : I b) : I (runBalanceRegistered chrono cost fromValue now store b).1 := by
  rcases @runBalanceRegistered_grows chrono cost fromValue now store b with ⟨e, he⟩ | hnil | ⟨segments, rules, -, -, c, -, hgrows, heq⟩
  · rw [he]
    exact hb
  · rw [hnil]
    exact hb
  · obtain ⟨hs, -, htrace⟩ := hgrows
    rw [heq]
    exact (htrace.inv (fun b e b' h => hstep b e b' h.1) hb).1

theorem rebalance_inv {I : Board → Prop} (hstep : ∀ b e b', Moves b e b' → I b → I b') (hb : I b) :
    I (rebalance cost maxSegmentsToMove b).board := by
  have hsized : AllSized (fun _ => True) b := fun _ _ _ => trivial
  obtain ⟨hs, -, htrace⟩ := @rebalance_grows b _ cost maxSegmentsToMove hsized
  exact (htrace.inv (fun b e b' h => hstep b e b' h.1) hb).1

theorem placed_call (i : Call) (hb : Placed b) : Placed (call chrono cost fromValue maxSegmentsToMove b i) := by
  have hstep : ∀ b e b', Moves b e b' → Placed b → Placed b' := fun _ _ _ => placed_of_moves
  cases i with
  | registerServer server => exact placed_registerServer server hb
  | updateServer name tier maxSize => exact placed_updateServer name tier maxSize hb
  | removeServer name => exact placed_removeServer name hb
  | runBalance now store servers =>
    exact runBalanceRegistered_inv hstep now store (registerNew_inv (fun s _ _ => placed_registerServer s) servers hb)
  | runBalanceRegistered now store => exact runBalanceRegistered_inv hstep now store hb
  | rebalance => exact rebalance_inv hstep hb

theorem placed_empty : Placed .empty := ⟨fun _ => nodup_nil, fun _ hne => absurd rfl hne⟩

theorem placed_run (calls : List Call) : Placed (calls.foldl (call chrono cost fromValue maxSegmentsToMove) .empty) :=
  List.foldlRecOn calls _ placed_empty fun _ hb i _ => placed_call i hb

theorem loadsSized_of_cycleMoves {store : MetadataStore} {segments : List SegmentMetadataRow}
    (hsegments : store.loadUsedSegments = .ok segments) {b' : Board} {e : SegmentLoadAction} (h : CycleMoves segments b e b') :
    LoadsSized (UsedSize store) b e b' := by
  intro name id he
  rcases h with ⟨seg, hseg, ⟨n, a, he', hb, -, hsize⟩ | ⟨n, he'⟩⟩ | ⟨n, i, -, he'⟩ <;> rw [he'] at he <;> cases he
  exact ⟨a, hb, segments, hsegments, seg, hseg, hsize.symm⟩

theorem accounted_runBalanceRegistered (now : ℤ) (store : MetadataStore) (hb : Accounted b) :
    Accounted (runBalanceRegistered chrono cost fromValue now store b).1 ∧
      (RoomFor (UsedSize store) b →
        ∀ e ∈ ((runBalanceRegistered chrono cost fromValue now store b).2.toOption).getD [], LoadFits e.1 e.2) := by
  rcases @runBalanceRegistered_grows chrono cost fromValue now store b with ⟨e, he⟩ | hnil | ⟨segments, rules, hsegments, -, c, -, hgrows, heq⟩
  · rw [he]
    exact ⟨hb, fun _ => nofun⟩
  · rw [hnil]
    exact ⟨hb, fun _ => nofun⟩
  · have hsized := hgrows.imp fun _ _ _ _ h => loadsSized_of_cycleMoves hsegments h
    obtain ⟨hend, hfits⟩ := accounted_of_grows hsized hb
    rw [heq]
    refine ⟨hend, fun hroom => ?_⟩
    cases (placeSegments chrono cost now rules segments (dropAllUnused segments ⟨b, []⟩)).2 with
    | error e => exact nofun
    | ok _ => exact hfits rfl hroom

/-- A careful call keeps the books, and what it loads fits. -/
theorem accounted_call {i : Call} (hb : Accounted b) (h : Careful b i) :
    Accounted (call chrono cost fromValue maxSegmentsToMove b i) ∧
      ∀ e ∈ emitted chrono cost fromValue maxSegmentsToMove b i, LoadFits e.1 e.2 := by
  cases i with
  | registerServer server => exact ⟨accounted_registerServer hb h, nofun⟩
  | updateServer name tier maxSize => exact ⟨accounted_updateServer name tier maxSize hb, nofun⟩
  | removeServer name => exact ⟨accounted_removeServer name hb, nofun⟩
  | runBalance now store servers =>
    obtain ⟨hend, hfits⟩ := accounted_runBalanceRegistered now store (accounted_registerNew hb h.1)
    exact ⟨hend, hfits h.2⟩
  | runBalanceRegistered now store =>
    obtain ⟨hend, hfits⟩ := accounted_runBalanceRegistered now store hb
    exact ⟨hend, hfits h⟩
  | rebalance =>
    have hsized : AllSized (AssignedSize b) b := fun name a ha => ⟨name, a, ha, rfl⟩
    obtain ⟨hend, hfits⟩ := accounted_of_grows (@rebalance_grows b _ cost maxSegmentsToMove hsized) hb
    exact ⟨hend, hfits rfl h⟩

theorem accounted_empty : Accounted .empty := by
  refine ⟨fun name server h => ?_, placed_empty.once, placed_empty.registered⟩
  cases h

/-- In a run of careful calls the books are kept in every state, and every load
fits its target when it is emitted. -/
theorem books_kept {calls : List Call} (h : Guarded (call chrono cost fromValue maxSegmentsToMove) Careful .empty calls) :
    Accounted (calls.foldl (call chrono cost fromValue maxSegmentsToMove) .empty) ∧
      Guarded (call chrono cost fromValue maxSegmentsToMove)
        (fun b i => ∀ e ∈ emitted chrono cost fromValue maxSegmentsToMove b i, LoadFits e.1 e.2) .empty calls :=
  ⟨h.inv Accounted (fun _ _ hi hb => (accounted_call hb hi).1) accounted_empty,
    h.guard Accounted (fun _ _ hi hb => accounted_call hb hi) accounted_empty⟩

end

/-! ## One server -/

section

/-- A store with one used segment of a size, which every rule loads. -/
def oneSegment (size : ℤ) (h : -2 ^ 63 ≤ size ∧ size < 2 ^ 64) : MetadataStore where
  getAllDataSources := .ok ["wiki"]
  getUsedSegments _ := .ok [⟨"seg_0", "wiki", "", "", .object [(sizeKey, .number (.int size h))]⟩]
  getRules _ := .ok [.null]

def noChrono : Chrono := ⟨fun _ => none, fun _ => none, fun _ => none, fun _ => none, fun _ _ => none⟩

def flatCost : CostModel := ⟨fun _ _ _ => .ofInt 0, fun _ _ => .ofInt 0, .ofInt 0⟩

def hist1 (currentSize : UInt64) : ServerInfo := ⟨"hist-1", "127.0.0.1", 8083, "_default_tier", 1000, currentSize⟩

/-- A server that comes back with its books at zero still has its segment. -/
theorem registered_again_unaccounted :
    ¬ Accounted ([.registerServer (hist1 0), .runBalanceRegistered 0 (oneSegment 100 (by decide)), .registerServer (hist1 0)].foldl
      (call noChrono flatCost (fun _ => .ok (.loadForever ∅)) 5) .empty) := by
  intro h
  have hsize := h.size "hist-1" (hist1 0) (by decide +kernel)
  exact absurd hsize (by decide +kernel)

theorem books_kept_registered_again :
    Accounted ([.registerServer (hist1 0), .runBalanceRegistered 0 (oneSegment 100 (by decide)), .registerServer (hist1 100)].foldl
      (call noChrono flatCost (fun _ => .ok (.loadForever ∅)) 5) .empty) := by
  refine (@books_kept noChrono flatCost (fun _ => .ok (.loadForever ∅)) 5
    [.registerServer (hist1 0), .runBalanceRegistered 0 (oneSegment 100 (by decide)), .registerServer (hist1 100)]
    ⟨rfl, .inr fun size hsize => ?_, ?_, trivial⟩).1
  · obtain ⟨segments, hsegments, seg, hseg, rfl⟩ := hsize
    cases hsegments
    rw [mem_singleton.1 hseg]
    decide +kernel
  · have hknown : ((call noChrono flatCost (fun _ => .ok (.loadForever ∅)) 5
        (call noChrono flatCost (fun _ => .ok (.loadForever ∅)) 5 .empty (.registerServer (hist1 0)))
        (.runBalanceRegistered 0 (oneSegment 100 (by decide)))).registry.get (hist1 100).name) = some (hist1 100) := by decide +kernel
    simp only [Careful, hknown]

end

end FerroDruid.Coordinator
