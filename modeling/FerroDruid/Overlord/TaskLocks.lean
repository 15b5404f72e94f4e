import FerroDruid.Lib.Run
import FerroDruid.Overlord.ReplaceScope
/-!
# Task locks and stored intervals

`TaskLock` of `ferrodruid-overlord/src/task.rs` and how `lib.rs` stores locks and
segments: a lock is granted against the locks read back from the store, and a
replace is planned against the segments read back from it.

Every read fails if one row cannot be read, and a row cannot be read when its
interval leaves the years 0 to 9999.
-/

namespace FerroDruid.Overlord

open Lib Calendar List

/-! ## Locks -/

structure Interval where
  startMillis : Int64
  stopMillis : Int64
  valid : startMillis < stopMillis
  deriving DecidableEq

def Interval.overlaps (a b : Interval) : Bool := a.startMillis < b.stopMillis ∧ b.startMillis < a.stopMillis

inductive LockType where
  | shared
  | exclusive
  deriving DecidableEq

def LockType.asStr : LockType → String
  | shared => "SHARED"
  | exclusive => "EXCLUSIVE"

structure TaskLock where
  id : String
  taskId : String
  dataSource : String
  interval : Interval
  lockType : LockType
  priority : Int64
  revoked : Bool
  deriving DecidableEq

def TaskLock.conflictsWith (a b : TaskLock) : Bool :=
  !a.revoked && !b.revoked && a.dataSource = b.dataSource && a.interval.overlaps b.interval && (a.lockType = .exclusive || b.lockType = .exclusive)

inductive LockDecision where
  | granted
  | preempt (ids : List String)
  | blocked

/-- The loop over the held locks, with those to preempt so far. -/
def evaluateLocks (request : TaskLock) : List TaskLock → List String → LockDecision
  | [], toPreempt => if toPreempt = [] then .granted else .preempt toPreempt
  | held :: rest, toPreempt =>
    if held.taskId = request.taskId ∨ request.conflictsWith held = false then evaluateLocks request rest toPreempt
    else if request.priority ≤ held.priority then .blocked
    else evaluateLocks request rest (toPreempt ++ [held.id])

def evaluateLockRequest (request : TaskLock) (existing : List TaskLock) : LockDecision := evaluateLocks request existing []

/-! ## Rows -/

/-- A stored lock, without the payload that no code reads. -/
structure TaskLockRow where
  id : String
  taskId : String
  dataSource : String
  intervalStart : Bytes
  intervalStop : Bytes
  lockType : String
  priority : Int64
  revoked : Bool

inductive LockRowError where
  | intervalStart (error : Bytes)
  | intervalStop (error : Bytes)
  | lockType (other : String)
  | interval (start stop : Int64)

variable (chrono : Chrono)

def lockToLockRow (lock : TaskLock) : TaskLockRow where
  id := lock.id
  taskId := lock.taskId
  dataSource := lock.dataSource
  intervalStart := formatEpochMillisIso chrono lock.interval.startMillis
  intervalStop := formatEpochMillisIso chrono lock.interval.stopMillis
  lockType := lock.lockType.asStr
  priority := lock.priority
  revoked := lock.revoked

def LockType.parse (s : String) : Except LockRowError LockType :=
  if s = "SHARED" then .ok shared else if s = "EXCLUSIVE" then .ok exclusive else .error (.lockType s)

def lockRowToLock (row : TaskLockRow) : Except LockRowError TaskLock := do
  let start ← (chrono.parseRfc3339 row.intervalStart).mapError .intervalStart
  let stop ← (chrono.parseRfc3339 row.intervalStop).mapError .intervalStop
  let lockType ← LockType.parse row.lockType
  if h : start < stop then
    .ok ⟨row.id, row.taskId, row.dataSource, ⟨start, stop, h⟩, lockType, row.priority, row.revoked⟩
  else .error (.interval start stop)

/-! ## The store -/

/-- The locks, and the used segments. -/
structure MetadataStore where
  locks : List TaskLockRow
  usedSegments : List SegmentMetadataRow
  nextRowid : ℕ

namespace MetadataStore

def init : MetadataStore := ⟨[], [], 1⟩

/-- Without the revoked ones. -/
def getLocksForDatasource (store : MetadataStore) (dataSource : String) : List TaskLockRow :=
  store.locks.filter fun row => row.dataSource = dataSource ∧ row.revoked = false

/-- The id of a row is its number. -/
def insertTaskLock (store : MetadataStore) (row : TaskLockRow) : MetadataStore :=
  { store with locks := store.locks ++ [{ row with id := toString store.nextRowid }], nextRowid := store.nextRowid + 1 }

def revokeLock (store : MetadataStore) (id : String) : MetadataStore :=
  { store with locks := store.locks.map fun row => if row.id = id then { row with revoked := true } else row }

end MetadataStore

/-- Whether a lock is granted, and the store then. -/
def decideLock (store : MetadataStore) (req : TaskLock) : LockDecision → Bool × MetadataStore
  | .blocked => (false, store)
  | .preempt ids => (true, (ids.foldl MetadataStore.revokeLock store).insertTaskLock (lockToLockRow chrono req))
  | .granted => (true, store.insertTaskLock (lockToLockRow chrono req))

/-- `try_acquire_lock`, on a store that does not fail. -/
def tryAcquireLock (store : MetadataStore) (req : TaskLock) : Except LockRowError (Bool × MetadataStore) := do
  let existing ← (store.getLocksForDatasource req.dataSource).mapM (lockRowToLock chrono)
  .ok (decideLock chrono store req (evaluateLockRequest req existing))

/-! ## Runs -/

/-- `i64::saturating_add(1)` -/
def saturatingSucc (t : Int64) : Int64 := if t = .maxValue then t else t + 1

/-- What changes the locks and the used segments. A segment covers the times of
its rows; what a replace retires, or an operator, is not used any more. -/
inductive StoreRequest where
  | acquire (req : TaskLock)
  | release (taskId : String)
  | publish (dataSource id : String) (minTs maxTs : Int64)
  | retire (ids : List String)

def storeStep (store : MetadataStore) : StoreRequest → MetadataStore
  | .acquire req =>
    match tryAcquireLock chrono store req with
    | .ok (_, store') => store'
    | .error _ => store
  | .release taskId => { store with locks := store.locks.filter (·.taskId ≠ taskId) }
  | .publish dataSource id minTs maxTs =>
    { store with
      usedSegments := store.usedSegments ++ [⟨id, dataSource, formatEpochMillisIso chrono minTs, formatEpochMillisIso chrono (saturatingSucc maxTs)⟩] }
  | .retire ids => { store with usedSegments := store.usedSegments.filter (·.id ∉ ids) }

/-- What a request stores stays in the years 0 to 9999. -/
def StoresCommonYears (_ : MetadataStore) : StoreRequest → Prop
  | .acquire req => InCommonYears req.interval.startMillis ∧ InCommonYears req.interval.stopMillis
  | .publish _ _ minTs maxTs => InCommonYears minTs ∧ InCommonYears (saturatingSucc maxTs)
  | _ => True

/-- No later call fails on a stored interval. -/
structure ReadsBack (chrono : Chrono) (store : MetadataStore) : Prop where
  locks : ∀ req, ∃ result, tryAcquireLock chrono store req = .ok result
  segments : ∀ dsName granularity bounds newId, Readable (planReplaceVictims chrono store.usedSegments dsName granularity bounds newId)

/-! ## Reading back -/

section

variable {chrono : Chrono} (h : LawfulChrono chrono)

/-- A row of a lock whose interval can be read. -/
def Stored (chrono : Chrono) (row : TaskLockRow) : Prop :=
  ∃ (interval : Interval) (lockType : LockType), InCommonYears interval.startMillis ∧ InCommonYears interval.stopMillis ∧
    row.intervalStart = formatEpochMillisIso chrono interval.startMillis ∧ row.intervalStop = formatEpochMillisIso chrono interval.stopMillis ∧
    row.lockType = lockType.asStr

theorem LockType.parse_asStr (lockType : LockType) : LockType.parse lockType.asStr = .ok lockType := by cases lockType <;> rfl

include h

theorem rfc3339_format_iff (t : Int64) : chrono.parseRfc3339 (formatEpochMillisIso chrono t) = .ok t ↔ InCommonYears t := by
  refine ⟨fun hread => (parse_format_iff h t).1 ?_, rfc3339_format h⟩
  unfold parseIntervalBoundMillis
  rw [hread]

theorem lockRowToLock_of_stored {row : TaskLockRow} (hrow : Stored chrono row) : ∃ lock, lockRowToLock chrono row = .ok lock := by
  obtain ⟨interval, lockType, hstart, hstop, htextStart, htextStop, htype⟩ := hrow
  refine ⟨⟨row.id, row.taskId, row.dataSource, interval, lockType, row.priority, row.revoked⟩, ?_⟩
  unfold lockRowToLock
  rw [htextStart, htextStop, htype, rfc3339_format h hstart, rfc3339_format h hstop, LockType.parse_asStr]
  exact dif_pos interval.valid

/-- A lock is read back if and only if its interval is in the years 0 to 9999. -/
theorem lockRowToLock_lockToLockRow_iff (lock : TaskLock) :
    lockRowToLock chrono (lockToLockRow chrono lock) = .ok lock ↔ InCommonYears lock.interval.startMillis ∧ InCommonYears lock.interval.stopMillis := by
  rw [← rfc3339_format_iff h, ← rfc3339_format_iff h]
  unfold lockRowToLock
  constructor
  · intro hread
    obtain ⟨start, hstart, hread⟩ := bind_eq_ok.1 hread
    obtain ⟨stop, hstop, hread⟩ := bind_eq_ok.1 hread
    obtain ⟨lockType, -, hread⟩ := bind_eq_ok.1 hread
    rw [mapError_eq_ok] at hstart hstop
    by_cases hlt : start < stop
    · rw [dif_pos hlt, Except.ok.injEq] at hread
      have hsame : start = lock.interval.startMillis := congrArg (fun l => l.interval.startMillis) hread
      have hsame' : stop = lock.interval.stopMillis := congrArg (fun l => l.interval.stopMillis) hread
      exact ⟨hstart.trans (congrArg _ hsame), hstop.trans (congrArg _ hsame')⟩
    · rw [dif_neg hlt] at hread
      cases hread
  · rintro ⟨hstart, hstop⟩
    unfold lockToLockRow
    rw [hstart, hstop, LockType.parse_asStr]
    exact dif_pos lock.interval.valid

omit h in
theorem readable_planVictims {used : List SegmentMetadataRow} (hused : ∀ seg ∈ used, ∃ start stop,
    parseIntervalBoundMillis chrono seg.start = .ok start ∧ parseIntervalBoundMillis chrono seg.stop = .ok stop) (scope :
      Int64 × Int64) (newId : String) :
    Readable (planVictims chrono scope newId used) := by
  induction used with
  | nil => exact .ok _
  | cons seg used ih =>
    obtain ⟨⟨start, stop, hstart, hstop⟩, hrest⟩ := forall_mem_cons.1 hused
    specialize ih hrest
    unfold planVictims
    rw [hstart, hstop]
    dsimp only
    split_ifs
    · exact ih
    · exact ih
    · exact .error id
    · cases hvictims : planVictims chrono scope newId used with
      | ok victims => exact .ok _
      | error e => exact .error (ih e hvictims)

/-- All that is stored has an interval that can be read. -/
structure StoreReads (chrono : Chrono) (store : MetadataStore) : Prop where
  locks : ∀ row ∈ store.locks, Stored chrono row
  segments : ∀ seg ∈ store.usedSegments, ∃ start stop, parseIntervalBoundMillis chrono seg.start = .ok start ∧
    parseIntervalBoundMillis chrono seg.stop = .ok stop

omit h in
theorem StoreReads.insert {store : MetadataStore} (hstore : StoreReads chrono store) {req : TaskLock} (hstart : InCommonYears req.interval.startMillis)
    (hstop : InCommonYears req.interval.stopMillis) : StoreReads chrono (store.insertTaskLock (lockToLockRow chrono req)) where
  locks row hrow := by
    rcases mem_append.1 hrow with hold | hnew
    · exact hstore.locks row hold
    · rw [mem_singleton.1 hnew]
      exact ⟨req.interval, req.lockType, hstart, hstop, rfl, rfl, rfl⟩
  segments := hstore.segments

omit h in
theorem StoreReads.revoke {store : MetadataStore} (hstore : StoreReads chrono store) (ids : List String) :
    StoreReads chrono (ids.foldl MetadataStore.revokeLock store) := by
  induction ids generalizing store with
  | nil => exact hstore
  | cons id ids ih =>
    refine ih ⟨fun row hrow => ?_, hstore.segments⟩
    obtain ⟨old, hold, rfl⟩ := mem_map.1 hrow
    -- a revoked row has the interval it had
    split_ifs
    · exact hstore.locks old hold
    · exact hstore.locks old hold

theorem StoreReads.step {store : MetadataStore} (hstore : StoreReads chrono store) {request : StoreRequest}
    (hcommon : StoresCommonYears store request) : StoreReads chrono (storeStep chrono store request) := by
  cases request with
  | acquire req =>
    have hdecide : ∀ decision, StoreReads chrono (decideLock chrono store req decision).2 := by
      intro decision
      cases decision with
      | blocked => exact hstore
      | preempt ids => exact (hstore.revoke ids).insert hcommon.1 hcommon.2
      | granted => exact hstore.insert hcommon.1 hcommon.2
    simp only [storeStep]
    cases hresult : tryAcquireLock chrono store req with
    | error e => exact hstore
    | ok result =>
      obtain ⟨existing, -, hgrant⟩ := bind_eq_ok.1 hresult
      rw [← Except.ok.inj hgrant]
      exact hdecide _
  | release taskId => exact ⟨fun row hrow => hstore.locks row (mem_of_mem_filter hrow), hstore.segments⟩
  | publish dataSource id minTs maxTs =>
    refine ⟨hstore.locks, fun seg hseg => ?_⟩
    rcases mem_append.1 hseg with hold | hnew
    · exact hstore.segments seg hold
    · rw [mem_singleton.1 hnew]
      exact ⟨minTs, saturatingSucc maxTs, parse_format h hcommon.1, parse_format h hcommon.2⟩
  | retire ids => exact ⟨hstore.locks, fun seg hseg => hstore.segments seg (mem_of_mem_filter hseg)⟩

theorem StoreReads.readsBack {store : MetadataStore} (hstore : StoreReads chrono store) : ReadsBack chrono store where
  locks req := by
    have hrows : ∀ row ∈ store.getLocksForDatasource req.dataSource, ∃ lock, lockRowToLock chrono row = .ok lock :=
      fun row hrow => lockRowToLock_of_stored h (hstore.locks row (mem_of_mem_filter hrow))
    obtain ⟨existing, hexisting⟩ := exists_mapM_of_forall hrows
    exact ⟨_, bind_eq_ok.2 ⟨existing, hexisting, rfl⟩⟩
  segments dsName granularity bounds newId :=
    (readable_parseSegmentGranularity granularity).bind fun g => (readable_replaceScope chrono g _ _).bind fun scope =>
      readable_planVictims (fun seg hseg => hstore.segments seg (mem_of_mem_filter hseg)) scope newId

/-- Bounds, and so locks, are read back if and only if they are in the years 0 to
9999; while only such bounds are stored, no later call fails on one. -/
theorem stored_intervals_read_back :
    (∀ t, parseIntervalBoundMillis chrono (formatEpochMillisIso chrono t) = .ok t ↔ InCommonYears t) ∧
    (∀ lock, lockRowToLock chrono (lockToLockRow chrono lock) = .ok lock ↔
      InCommonYears lock.interval.startMillis ∧ InCommonYears lock.interval.stopMillis) ∧
    ∀ requests, Guarded (storeStep chrono) StoresCommonYears .init requests → ReadsBack chrono (requests.foldl (storeStep chrono) .init) := by
  refine ⟨parse_format_iff h, lockRowToLock_lockToLockRow_iff h, fun requests hrequests => ?_⟩
  have hinit : StoreReads chrono .init := ⟨nofun, nofun⟩
  exact (hrequests.inv (StoreReads chrono) (fun _ _ hcommon hstore => hstore.step h hcommon) hinit).readsBack h

end

/-- The first day of 1970, locked for a task. -/
def firstDayLock : TaskLock := ⟨"lock", "task", "wiki", ⟨0, 86400000, by decide⟩, .exclusive, 50, false⟩

/-- A day is locked, written and released. -/
theorem gregorian_intervals_read_back :
    parseIntervalBoundMillis gregorian (formatEpochMillisIso gregorian 86400000) = .ok 86400000 ∧
    lockRowToLock gregorian (lockToLockRow gregorian firstDayLock) = .ok firstDayLock ∧
    ReadsBack gregorian ([.acquire firstDayLock, .publish "wiki" "day" 0 86399999, .release "task"].foldl (storeStep gregorian) .init) := by
  obtain ⟨hbound, hlock, hrun⟩ := stored_intervals_read_back lawful_gregorian
  exact ⟨(hbound _).2 (by decide), (hlock _).2 ⟨by decide, by decide⟩, hrun _ ⟨⟨by decide, by decide⟩, ⟨by decide, by decide⟩, trivial, trivial⟩⟩

/-- A segment with a row of the year 10000 makes every replace after it fail. -/
theorem year_10000_is_not_read_back :
    parseIntervalBoundMillis gregorian (formatEpochMillisIso gregorian 253402300800000) ≠ .ok 253402300800000 ∧
    ¬ ReadsBack gregorian (storeStep gregorian .init (.publish "wiki" "far" 253402300800000 253402300800000)) := by
  have hfar : ¬ InCommonYears 253402300800000 := by decide
  have herror := parse_format_eq_error lawful_gregorian hfar
  refine ⟨fun hread => ?_, fun hreads => ?_⟩
  · rw [herror] at hread
    cases hread
  · have hplan : planReplaceVictims gregorian [⟨"far", "wiki", formatEpochMillisIso gregorian 253402300800000,
        formatEpochMillisIso gregorian (saturatingSucc 253402300800000)⟩] "wiki" none (0, 0) "new" =
        .error (.segmentStart "far" (formatEpochMillisIso gregorian 253402300800000) (notABound (formatEpochMillisIso gregorian 253402300800000))) := by
      show planVictims gregorian (0, 86400000) "new" [⟨"far", "wiki", formatEpochMillisIso gregorian 253402300800000, _⟩] = _
      unfold planVictims
      rw [if_neg (by decide), herror]
    exact hreads.segments "wiki" none (0, 0) "new" _ hplan trivial

end FerroDruid.Overlord
