import FerroDruid.Lib.HashMap
/-!
# The cluster's data

The commands of the replicated state machine, what it answers, and the
snapshot a leader ships to a joining node, as `ferrodruid-cluster/src/lib.rs`
declares them. An instant (`DateTime<Utc>`) is an integer in chronological
order; a port is a natural number.
-/

namespace FerroDruid.Cluster

open FerroDruid.Lib

abbrev NodeId := String

/-- `chrono::DateTime<Utc>`. -/
abbrev DateTime := Int

inductive NodeRole where
  | Master
  | Query
  | Data
  | AllInOne
  deriving DecidableEq, Repr

structure NodeInfo where
  id : NodeId
  host : String
  port : Nat
  role : NodeRole
  deriving DecidableEq, Repr

structure ServiceEntry where
  service_type : String
  host : String
  port : Nat
  node_id : NodeId
  deriving DecidableEq, Repr

structure SegmentAnnouncement where
  segment_id : String
  server_name : String
  data_source : String
  tier : String
  deriving DecidableEq, Repr

inductive SegmentAction where
  | Load
  | Drop
  deriving DecidableEq, Repr

inductive ClusterCommand where
  | ElectLeader (role : String) (node_id : NodeId)
  | RegisterService (entry : ServiceEntry)
  | DeregisterService (node_id : NodeId) (service_type : String)
  | AnnounceSegment (announcement : SegmentAnnouncement)
  | RemoveSegment (segment_id server_name : String)
  | EnqueueSegmentAction (server_name segment_id : String) (action : SegmentAction)
  | AcquireTaskLock (task_id data_source interval_start interval_end : String)
  | ReleaseTaskLock (task_id : String)
  deriving DecidableEq, Repr

inductive CommandResult where
  | Ok
  | LeaderElected (node_id : NodeId)
  | LockAcquired (lock_id : String)
  | LockDenied (reason : String)
  | NotFound
  deriving DecidableEq, Repr

structure TaskLock where
  task_id : String
  data_source : String
  interval_start : String
  interval_end : String
  acquired_at : DateTime
  lock_id : String
  deriving DecidableEq, Repr

structure QueuedSegmentAction where
  segment_id : String
  action : SegmentAction
  queued_at : DateTime
  deriving DecidableEq, Repr

/-- Lock poisoning needs a panic while the lock is held and is left out. -/
inductive ClusterError where
  | CommandFailed (reason : String)
  | QueueFull (scope : String) (cap current : Nat)
  deriving DecidableEq, Repr

structure ClusterSnapshot where
  services : HashMap String (List ServiceEntry)
  segments : HashMap String (List SegmentAnnouncement)
  task_locks : HashMap String TaskLock
  leader : Option NodeInfo
  segment_queue : HashMap String (List QueuedSegmentAction)
  deriving DecidableEq

/-! ## `ClusterManager`: the replicated state machine

`apply` runs one command. What it draws from outside the state (the wall
clock, a fresh UUID, the iteration order of the lock table) is an `ApplyEnv`;
the third-party date parser is a `Chrono`. -/

/-- The two `chrono` parsers `parse_interval_bound` calls: RFC 3339, and
`%Y-%m-%d` taken at midnight UTC. -/
structure Chrono where
  parse_from_rfc3339 : String → Option DateTime
  parse_date : String → Option DateTime

/-- What one `apply` call draws from its surroundings. -/
structure ApplyEnv where
  utc_now : DateTime
  uuid : String
  /-- The order in which the lock table's values are iterated. -/
  order : List TaskLock → List TaskLock
  order_perm : ∀ l, (order l).Perm l

structure ClusterManager where
  node_info : NodeInfo
  peers : List NodeInfo
  leader : Option NodeInfo
  services : HashMap String (List ServiceEntry)
  segment_announcements : HashMap String (List SegmentAnnouncement)
  task_locks : HashMap String TaskLock
  segment_queue : HashMap String (List QueuedSegmentAction)

def MAX_SEGMENT_QUEUE_PER_SERVER : Nat := 65536

def MAX_SEGMENT_QUEUE_TOTAL : Nat := 1048576

/-! ## Host and port -/

/-- `char::is_whitespace` (Unicode `White_Space`). -/
def isWhitespace (c : Char) : Bool :=
  let n := c.toNat
  (9 ≤ n && n ≤ 13) || n = 32 || n = 0x85 || n = 0xA0 || n = 0x1680 || (0x2000 ≤ n && n ≤ 0x200A) ||
    n = 0x2028 || n = 0x2029 || n = 0x202F || n = 0x205F || n = 0x3000

def trim (s : List Char) : List Char :=
  ((s.dropWhile isWhitespace).reverse.dropWhile isWhitespace).reverse

/-- `str::parse::<u16>`: an optional `+`, then ASCII digits, below 2^16. -/
def parseU16 (s : List Char) : Option Nat :=
  let digits := if s.head? = some '+' then s.tail else s
  if digits = [] ∨ ¬ digits.all Char.isDigit then none
  else
    let n := digits.foldl (fun acc c => acc * 10 + (c.toNat - '0'.toNat)) 0
    if n < 65536 then some n else none

/-- `rfind(':')`: what stands before and after the last colon. -/
def rsplitColon (s : List Char) : Option (List Char × List Char) :=
  if ':' ∈ s then
    some ((s.reverse.dropWhile (· ≠ ':')).tail.reverse, (s.reverse.takeWhile (· ≠ ':')).reverse)
  else none

def parseHostPort (addr : String) : String × Nat :=
  let trimmed := trim addr.toList
  match trimmed with
  | '[' :: rest =>
    if ']' ∈ rest then
      let host := rest.takeWhile (· ≠ ']')
      let port := match (rest.dropWhile (· ≠ ']')).tail with
        | ':' :: port => (parseU16 port).getD 8888
        | _ => 8888
      (String.ofList host, port)
    else parseBare trimmed
  | _ => parseBare trimmed
where
  /-- Without brackets: two or more colons are a bare IPv6 address. -/
  parseBare (trimmed : List Char) : String × Nat :=
    if trimmed.count ':' ≥ 2 then (String.ofList trimmed, 8888)
    else match rsplitColon trimmed with
      | some (host, port) => (String.ofList host, (parseU16 port).getD 8888)
      | none => (String.ofList trimmed, 8888)

/-! ## Construction, snapshot and restore -/

def newSingleNode (node : NodeInfo) : ClusterManager where
  node_info := node
  peers := []
  leader := some node
  services := ∅
  segment_announcements := ∅
  task_locks := ∅
  segment_queue := ∅

/-- Peers are named `peer-0`, `peer-1`, ... by their place in the list. -/
def newMultiNode (node : NodeInfo) (peers : List String) : ClusterManager :=
  { newSingleNode node with
    peers := peers.zipIdx.map fun (addr, i) =>
      { id := s!"peer-{i}", host := (parseHostPort addr).1, port := (parseHostPort addr).2, role := .AllInOne } }

def snapshot (m : ClusterManager) : ClusterSnapshot where
  services := m.services
  segments := m.segment_announcements
  task_locks := m.task_locks
  leader := m.leader
  segment_queue := m.segment_queue

def restore (m : ClusterManager) (s : ClusterSnapshot) : ClusterManager :=
  { m with
    leader := s.leader
    services := s.services
    segment_announcements := s.segments
    task_locks := s.task_locks
    segment_queue := s.segment_queue }

/-! ## Task locks -/

def parseIntervalBound (chrono : Chrono) (s : String) : Option DateTime :=
  match chrono.parse_from_rfc3339 s with
  | some dt => some dt
  | none => chrono.parse_date s

def intervalsOverlap (chrono : Chrono) (start_a end_a start_b end_b : String) : Bool :=
  match parseIntervalBound chrono start_a, parseIntervalBound chrono end_a,
    parseIntervalBound chrono start_b, parseIntervalBound chrono end_b with
  | some a_start, some a_end, some b_start, some b_end =>
    if a_start ≥ a_end ∨ b_start ≥ b_end then true
    else decide (a_start < b_end ∧ b_start < a_end)
  -- An unparseable bound counts as overlapping.
  | _, _, _, _ => true

/-- The test of the conflict loop: `existing` stands in the way of the request. -/
def conflicts (chrono : Chrono) (data_source interval_start interval_end : String) (existing : TaskLock) : Bool :=
  decide (existing.data_source = data_source) &&
    intervalsOverlap chrono existing.interval_start existing.interval_end interval_start interval_end

def applyAcquireLock (chrono : Chrono) (env : ApplyEnv) (m : ClusterManager)
    (task_id data_source interval_start interval_end : String) : CommandResult × ClusterManager :=
  match (env.order m.task_locks.values).find? (conflicts chrono data_source interval_start interval_end) with
  | some existing =>
    (.LockDenied s!"overlapping lock held by task '{existing.task_id}' on data_source '{data_source}'", m)
  | none =>
    let task_lock : TaskLock :=
      { task_id, data_source, interval_start, interval_end, acquired_at := env.utc_now, lock_id := env.uuid }
    (.LockAcquired env.uuid, { m with task_locks := AList.insert task_id task_lock m.task_locks })

/-! ## Commands -/

/-- The leader record `ElectLeader` publishes for `node_id`. -/
def resolveLeader (m : ClusterManager) (node_id : NodeId) : NodeInfo :=
  if node_id = m.node_info.id then { m.node_info with id := node_id }
  else match m.peers.find? (fun p => p.id = node_id) with
    | some peer => peer
    | none => { m.node_info with id := node_id }

def registerService (m : ClusterManager) (entry : ServiceEntry) : ClusterManager :=
  let entries := (m.services.getD entry.service_type []).filter (fun e => e.node_id ≠ entry.node_id)
  { m with services := AList.insert entry.service_type (entries ++ [entry]) m.services }

def deregisterService (m : ClusterManager) (node_id : NodeId) (service_type : String) : ClusterManager :=
  match m.services.lookup service_type with
  | some entries =>
    { m with services := AList.insert service_type (entries.filter fun e => e.node_id ≠ node_id) m.services }
  | none => m

def announceSegment (m : ClusterManager) (a : SegmentAnnouncement) : ClusterManager :=
  let entries := (m.segment_announcements.getD a.data_source []).filter
    (fun b => b.segment_id ≠ a.segment_id ∨ b.server_name ≠ a.server_name)
  { m with segment_announcements := AList.insert a.data_source (entries ++ [a]) m.segment_announcements }

def removeSegmentAnnouncement (m : ClusterManager) (segment_id server_name : String) : ClusterManager :=
  let keep := fun a : SegmentAnnouncement => decide (a.segment_id ≠ segment_id ∨ a.server_name ≠ server_name)
  { m with segment_announcements := m.segment_announcements.mapValues (·.filter keep) }

/-- The queue is coalesced before the caps are checked, and stays so when the
command is refused. -/
def enqueueSegmentAction (env : ApplyEnv) (m : ClusterManager) (server_name segment_id : String)
    (action : SegmentAction) : Except ClusterError CommandResult × ClusterManager :=
  let before := m.segment_queue.getD server_name []
  let actions := before.filter (fun a => a.segment_id ≠ segment_id)
  let coalesced := decide (actions.length < before.length)
  let queue := AList.insert server_name actions m.segment_queue
  let new_per_server := actions.length + 1
  if new_per_server > MAX_SEGMENT_QUEUE_PER_SERVER then
    (.error (.QueueFull s!"per-server {server_name}" MAX_SEGMENT_QUEUE_PER_SERVER new_per_server),
      { m with segment_queue := queue })
  else
    let new_global := ((HashMap.values queue).map List.length).sum + (if coalesced then 0 else 1)
    if new_global > MAX_SEGMENT_QUEUE_TOTAL then
      (.error (.QueueFull "global" MAX_SEGMENT_QUEUE_TOTAL new_global), { m with segment_queue := queue })
    else
      let pushed := actions ++ [{ segment_id, action, queued_at := env.utc_now }]
      (.ok .Ok, { m with segment_queue := AList.insert server_name pushed queue })

def apply (chrono : Chrono) (env : ApplyEnv) (m : ClusterManager) :
    ClusterCommand → Except ClusterError CommandResult × ClusterManager
  | .ElectLeader _ node_id => (.ok (.LeaderElected node_id), { m with leader := some (resolveLeader m node_id) })
  | .RegisterService entry => (.ok .Ok, registerService m entry)
  | .DeregisterService node_id service_type => (.ok .Ok, deregisterService m node_id service_type)
  | .AnnounceSegment announcement => (.ok .Ok, announceSegment m announcement)
  | .RemoveSegment segment_id server_name => (.ok .Ok, removeSegmentAnnouncement m segment_id server_name)
  | .EnqueueSegmentAction server_name segment_id action => enqueueSegmentAction env m server_name segment_id action
  | .AcquireTaskLock task_id data_source interval_start interval_end =>
    let (r, m') := applyAcquireLock chrono env m task_id data_source interval_start interval_end
    (.ok r, m')
  | .ReleaseTaskLock task_id =>
    if task_id ∈ m.task_locks then (.ok .Ok, { m with task_locks := m.task_locks.erase task_id })
    else (.ok .NotFound, m)

variable (chrono : Chrono)

/-! ## What a command leaves alone -/

variable (env : ApplyEnv) (m : ClusterManager)

theorem enqueueSegmentAction_frame (sv sg : String) (act : SegmentAction) :
    ∃ q, (enqueueSegmentAction env m sv sg act).2 = { m with segment_queue := q } := by
  simp only [enqueueSegmentAction]
  split_ifs <;> exact ⟨_, rfl⟩

variable (c : ClusterCommand)

theorem apply_identity :
    (apply chrono env m c).2.node_info = m.node_info ∧ (apply chrono env m c).2.peers = m.peers := by
  cases c with
  | DeregisterService n t => simp only [apply, deregisterService]; split <;> exact ⟨rfl, rfl⟩
  | EnqueueSegmentAction sv sg act =>
    obtain ⟨q, hq⟩ := enqueueSegmentAction_frame env m sv sg act
    simp only [apply, hq, and_self]
  | AcquireTaskLock t d a b => simp only [apply, applyAcquireLock]; split <;> exact ⟨rfl, rfl⟩
  | ReleaseTaskLock t => simp only [apply]; split <;> exact ⟨rfl, rfl⟩
  | _ => exact ⟨rfl, rfl⟩

/-- Only `ElectLeader` writes the leader record. -/
theorem apply_leader : (apply chrono env m c).2.leader = match c with
      | .ElectLeader _ n => some (resolveLeader m n)
      | _ => m.leader := by
  cases c with
  | DeregisterService n t => simp only [apply, deregisterService]; split <;> rfl
  | EnqueueSegmentAction sv sg act =>
    obtain ⟨q, hq⟩ := enqueueSegmentAction_frame env m sv sg act
    simp only [apply, hq]
  | AcquireTaskLock t d a b => simp only [apply, applyAcquireLock]; split <;> rfl
  | ReleaseTaskLock t => simp only [apply]; split <;> rfl
  | _ => rfl

/-- Only the two lock commands touch the lock table. -/
theorem apply_task_locks
    (ha : ∀ t d a b, c ≠ .AcquireTaskLock t d a b) (hr : ∀ t, c ≠ .ReleaseTaskLock t) :
    (apply chrono env m c).2.task_locks = m.task_locks := by
  cases c with
  | AcquireTaskLock t d a b => exact absurd rfl (ha t d a b)
  | ReleaseTaskLock t => exact absurd rfl (hr t)
  | DeregisterService n t => simp only [apply, deregisterService]; split <;> rfl
  | EnqueueSegmentAction sv sg act =>
    obtain ⟨q, hq⟩ := enqueueSegmentAction_frame env m sv sg act
    simp only [apply, hq]
  | _ => rfl

/-! ## What the lock commands do to the table -/

/-- The lock an `AcquireTaskLock` asks for. -/
def requested (env : ApplyEnv) (task_id data_source interval_start interval_end : String) : TaskLock :=
  { task_id, data_source, interval_start, interval_end, acquired_at := env.utc_now, lock_id := env.uuid }

/-- The answer to an acquisition that a lock of `task_id` stands against. -/
def denial (data_source task_id : String) : CommandResult :=
  .LockDenied s!"overlapping lock held by task '{task_id}' on data_source '{data_source}'"

/-- No conflict in the table: the lock is granted and replaces the task's own. -/
theorem acquire_granted {env : ApplyEnv} {m : ClusterManager} {t d a b : String}
    (h : ∀ l ∈ m.task_locks.values, conflicts chrono d a b l = false) :
    apply chrono env m (.AcquireTaskLock t d a b) = (.ok (.LockAcquired env.uuid),
      { m with task_locks := AList.insert t (requested env t d a b) m.task_locks }) := by
  have hn : (env.order m.task_locks.values).find? (conflicts chrono d a b) = none := by
    rw [List.find?_eq_none]
    intro l hl
    simpa using h l ((env.order_perm _).subset hl)
  simp only [apply, applyAcquireLock, hn]
  rfl

/-- A conflict in the table: the request is denied, the denial names a lock
that stands against it, and nothing changes. -/
theorem acquire_denied (t d a b : String) (h : ∃ l ∈ m.task_locks.values, conflicts chrono d a b l) :
    ∃ l ∈ m.task_locks.values, conflicts chrono d a b l ∧
      apply chrono env m (.AcquireTaskLock t d a b) = (.ok (denial d l.task_id), m) := by
  obtain ⟨l, hl, hc⟩ := h
  cases hf : (env.order m.task_locks.values).find? (conflicts chrono d a b) with
  | none => exact absurd hc (List.find?_eq_none.1 hf l ((env.order_perm _).mem_iff.2 hl))
  | some e =>
    refine ⟨e, (env.order_perm _).mem_iff.1 (List.mem_of_find?_eq_some hf), List.find?_some hf, ?_⟩
    simp only [apply, applyAcquireLock, hf]
    rfl

theorem release_task_locks (t k : String) :
    (apply chrono env m (.ReleaseTaskLock t)).2.task_locks.lookup k =
      if k = t then none else m.task_locks.lookup k := by
  simp only [apply]
  split
  · split
    · next h => subst h; exact AList.lookup_erase k _
    · next h => exact AList.lookup_erase_ne h
  · next hm =>
    split
    · next h => subst h; exact AList.lookup_eq_none.2 hm
    · rfl

end FerroDruid.Cluster
