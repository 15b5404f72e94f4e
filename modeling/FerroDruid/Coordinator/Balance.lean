import FerroDruid.Coordinator.Board
/-!
# Balancing

`Coordinator` in `ferrodruid-coordinator/src/lib.rs`: a balancing cycle places
what has too few replicas and drops what is unused, dropped or has too many, and
a rebalance moves segments to cheaper servers. The costs are floats; their
arithmetic is a parameter.

The actions of a cycle are kept with the board that each of them left behind.
Nothing in the code reads the boards.
-/

namespace FerroDruid.Coordinator

open Lib

/-- The arithmetic of `balancer.rs`. -/
structure CostModel where
  placementCost : Interval → List Interval → F64 → F64
  /-- A quotient of two sizes as floats, at most one. -/
  ratio : UInt64 → UInt64 → F64
  improvementEpsilon : F64

namespace CostModel

variable (cost : CostModel)

def ratioOf (current max : UInt64) : F64 := if max = 0 then .ofInt 1 else cost.ratio current max

def fillRatio (server : ServerInfo) : F64 := cost.ratioOf server.currentSize server.maxSize

def fillRatioWithout (server : ServerInfo) (size : UInt64) : F64 :=
  cost.ratioOf (saturatingSub server.currentSize size) server.maxSize

def fillRatioWith (server : ServerInfo) (size : UInt64) : F64 :=
  cost.ratioOf (saturatingAdd server.currentSize size) server.maxSize

end CostModel

namespace Board

def intervalsOn (b : Board) (server : String) : List Interval := (b.on server).map (·.interval)

def intervalsOnExcluding (b : Board) (server excludeId : String) : List Interval :=
  ((b.on server).filter fun a => a.segmentId ≠ excludeId).map (·.interval)

def countTierReplicas (b : Board) (segmentId tier : String) : ℕ :=
  (b.holders segmentId).countP fun name => (b.registry.get name).map (·.tier) = some tier

end Board

structure Cycle where
  board : Board
  history : List (SegmentLoadAction × Board)

namespace Cycle

def load (c : Cycle) (name : String) (a : SegmentAssignment) : Cycle :=
  let b := c.board.place name a
  ⟨b, c.history ++ [(.load name a.segmentId, b)]⟩

/-- The assignment that goes, and those of its server that stay. -/
def drop (c : Cycle) (name : String) (rest : List SegmentAssignment) (a : SegmentAssignment) : Cycle :=
  let b := c.board.unplace name rest a
  ⟨b, c.history ++ [(.drop name a.segmentId, b)]⟩

def removeAssignment (c : Cycle) (server segmentId : String) : Cycle :=
  match (c.board.on server).find? (·.segmentId = segmentId) with
  | none => c
  | some a => c.drop server ((c.board.on server).eraseP (·.segmentId = segmentId)) a

/-- A server's list is drained; what is used is kept. -/
def dropUnused (used : String → Bool) (name : String) : List SegmentAssignment → List SegmentAssignment → Cycle → Cycle
  | _, [], c => c
  | kept, a :: rest, c =>
    if used a.segmentId then dropUnused used name (kept ++ [a]) rest c
    else dropUnused used name kept rest (c.drop name (kept ++ rest) a)

def dropSegmentEverywhere (c : Cycle) (segmentId : String) : Cycle :=
  (c.board.holders segmentId).foldl (fun c name => c.removeAssignment name segmentId) c

/-- The drops of holders whose tier is not wanted. -/
def pruneOtherTiers (c : Cycle) (segmentId : String) (wanted : List String) : Cycle :=
  let offTier := (c.board.holders segmentId).filter fun name => !(c.board.registry.get name).any fun s => s.tier ∈ wanted
  offTier.foldl (fun c name => c.removeAssignment name segmentId) c

end Cycle

/-! ## Picking a server -/

/-- The cheapest of the candidates that are not skipped and have room; the first
by name of equally cheap ones. -/
def cheapest (b : Board) (candidates : List ServerInfo) (skip : String → Bool) (size : UInt64)
    (costOn : String → ServerInfo → F64) : Option (String × F64) :=
  candidates.foldl (fun best cand =>
    if skip cand.name then best
    else
      match b.registry.get cand.name with
      | none => best
      | some live =>
        if !live.canHold size then best
        else
          let cost := costOn cand.name live
          match best with
          | none => some (cand.name, cost)
          | some (bn, bc) => if cost.lt bc || (cost.beq bc && cand.name < bn) then some (cand.name, cost) else best) none

section

variable (chrono : Chrono) (cost : CostModel)

def pickBestServer (b : Board) (interval : Interval) (size : UInt64) (candidates : List ServerInfo) (exclude : String → Bool) :
    Option String :=
  (cheapest b candidates exclude size fun name live => cost.placementCost interval (b.intervalsOn name) (cost.fillRatio live)).map
    (·.1)

/-- Placements on servers that have no copy yet, as many as are missing. -/
def addReplicas (seg : SegmentMetadataRow) (interval : Interval) (size : UInt64) (candidates : List ServerInfo) : ℕ → Cycle → Cycle
  | 0, c => c
  | missing + 1, c =>
    match pickBestServer cost c.board interval size candidates (c.board.holds · seg.id) with
    | none => c
    | some name =>
      let tier := ((c.board.registry.get name).map (·.tier)).getD "_default_tier"
      addReplicas seg interval size candidates missing (c.load name ⟨seg.id, seg.dataSource, interval, tier, size⟩)

/-- Surplus copies go from the fullest server first, if they may go. -/
def ensureReplicas (seg : SegmentMetadataRow) (interval : Interval) (size : UInt64) (candidates : List ServerInfo) (target : ℕ)
    (allowSurplusDrop : Bool) (c : Cycle) : Cycle :=
  let holders := (candidates.map (·.name)).filter (c.board.holds · seg.id)
  if target < holders.length then
    if !allowSurplusDrop then c
    else
      let filled (name : String) := ((c.board.registry.get name).map (·.currentSize)).getD 0
      let sorted := holders.insertionSort fun a b => filled b ≤ filled a
      (sorted.take (holders.length - target)).foldl (fun c name => c.removeAssignment name seg.id) c
  else addReplicas cost seg interval size candidates (target - holders.length) c

/-! ## A cycle -/

def tierServers (c : Cycle) (tier : String) : List ServerInfo := c.board.registry.list.filter fun s => s.tier = tier

/-- `ensure_replicas` for every tier in turn. -/
def ensureTiers (seg : SegmentMetadataRow) (allowSurplusDrop : Bool) (desired : List (String × ℕ)) (c : Cycle) : Cycle :=
  desired.foldl (fun c entry => ensureReplicas cost seg (segmentInterval chrono seg) (segmentSizeBytes seg) (tierServers c entry.1) entry.2
    allowSurplusDrop c) c

/-- The tiers with a positive count. -/
def desiredTiers (tierReplicants : HashMap String ℕ) : List (String × ℕ) :=
  (tierReplicants.entries.filter fun e => 0 < e.2).map fun e => (e.1, e.2)

def allSatisfied (b : Board) (segmentId : String) (desired : List (String × ℕ)) : Bool :=
  desired.all fun entry => entry.2 ≤ b.countTierReplicas segmentId entry.1

/-- Copies are loaded in every tier first; only when each tier has its count are
surplus copies dropped. -/
def placeSegment (seg : SegmentMetadataRow) (c : Cycle) : DesiredPlacement → Cycle
  | .drop => c.dropSegmentEverywhere seg.id
  | .broadcast =>
    let all := c.board.registry.list
    ensureReplicas cost seg (segmentInterval chrono seg) (segmentSizeBytes seg) all all.length true c
  | .load tierReplicants =>
    let desired := desiredTiers tierReplicants
    if desired = [] then c.dropSegmentEverywhere seg.id
    else
      let c := ensureTiers chrono cost seg false desired c
      if allSatisfied c.board seg.id desired then
        (ensureTiers chrono cost seg true desired c).pruneOtherTiers seg.id (desired.map (·.1))
      else c

/-- The placement of a segment by its data source's rules. -/
def placementOf (now : ℤ) (rulesByDs : HashMap String (List LoadRule)) (seg : SegmentMetadataRow) :
    Except (Failure DruidError) DesiredPlacement :=
  desiredPlacement chrono (rulesByDs.getD seg.dataSource []) (segmentInterval chrono seg) now

/-- One segment after another; a rule that fails ends the cycle where it is. -/
def placeSegments (now : ℤ) (rulesByDs : HashMap String (List LoadRule)) :
    List SegmentMetadataRow → Cycle → Cycle × Except (Failure DruidError) Unit
  | [], c => (c, .ok ())
  | seg :: segs, c =>
    match placementOf chrono now rulesByDs seg with
    | .error e => (c, .error e)
    | .ok placement => placeSegments now rulesByDs segs (placeSegment chrono cost seg c placement)

/-- The assignments whose segment is not used, server by server. -/
def dropAllUnused (segments : List SegmentMetadataRow) (c : Cycle) : Cycle :=
  let used (id : String) : Bool := id ∈ segments.map (·.id)
  (c.board.registry.list.map (·.name)).foldl (fun c name => c.dropUnused used name [] (c.board.on name)) c

/-- The board afterwards, and the actions or the error. -/
def runBalanceRegistered (fromValue : Json → Except String LoadRule) (now : ℤ) (store : MetadataStore) (b : Board) :
    Board × Except (Failure DruidError) (List (SegmentLoadAction × Board)) :=
  if b.registry.list = [] then (b, .ok [])
  else
    match store.loadUsedSegments with
    | .error e => (b, .error (.error e))
    | .ok segments =>
      match store.loadRulesFor fromValue segments with
      | .error e => (b, .error (.error e))
      | .ok rulesByDs =>
        match placeSegments chrono cost now rulesByDs segments (dropAllUnused segments ⟨b, []⟩) with
        | (c, .ok ()) => (c.board, .ok c.history)
        | (c, .error e) => (c.board, .error e)

/-- Servers of the snapshot that are not known are registered as they are. -/
def registerNew (availableServers : List ServerInfo) (b : Board) : Board :=
  { b with registry := availableServers.foldl (fun reg s => if (reg.get s.name).isNone then reg.register s else reg) b.registry }

def runBalance (fromValue : Json → Except String LoadRule) (now : ℤ) (store : MetadataStore) (availableServers : List ServerInfo)
    (b : Board) : Board × Except (Failure DruidError) (List (SegmentLoadAction × Board)) :=
  runBalanceRegistered chrono cost fromValue now store (registerNew availableServers b)

end

/-! ## Rebalancing -/

section

variable (cost : CostModel)

/-- One segment of a source, and the moves that are left. -/
def rebalanceSegment (src : ServerInfo) (st : Cycle × ℕ) (a : SegmentAssignment) : Cycle × ℕ :=
  let b := st.1.board
  if st.2 = 0 then st
  else
    let destCandidates := b.registry.list.filter fun s => s.tier = a.tier ∧ s.name ≠ src.name
    let fill := ((b.registry.get src.name).map (cost.fillRatioWithout · a.sizeBytes)).getD (.ofInt 1)
    let srcCost := cost.placementCost a.interval (b.intervalsOnExcluding src.name a.segmentId) fill
    match cheapest b destCandidates (b.holds · a.segmentId) a.sizeBytes fun name live =>
      cost.placementCost a.interval (b.intervalsOn name) (cost.fillRatioWith live a.sizeBytes) with
    | none => st
    | some (dest, destCost) =>
      if (destCost.add cost.improvementEpsilon).lt srcCost then
        let tier := ((b.registry.get dest).map (·.tier)).getD a.tier
        -- the copy is loaded before the other one is dropped
        ((st.1.load dest { a with tier := tier }).removeAssignment src.name a.segmentId, st.2 - 1)
      else st

def rebalanceServer (st : Cycle × ℕ) (src : ServerInfo) : Cycle × ℕ :=
  if st.2 = 0 then st else (st.1.board.on src.name).foldl (rebalanceSegment cost src) st

/-- From the fullest server on, up to a number of moves. -/
def rebalance (maxSegmentsToMove : ℕ) (b : Board) : Cycle :=
  if maxSegmentsToMove = 0 then ⟨b, []⟩
  else
    let servers := b.registry.list.insertionSort fun x y => ¬ (cost.fillRatio x).lt (cost.fillRatio y)
    (servers.foldl (rebalanceServer cost) (⟨b, []⟩, maxSegmentsToMove)).1

end

/-! ## The coordinator -/

/-- What is done to the servers apart from balancing. -/
def registerServer (server : ServerInfo) (b : Board) : Board := { b with registry := b.registry.register server }

def updateServer (name : String) (tier : Option String) (maxSize : Option UInt64) (b : Board) : Board :=
  { b with registry := b.registry.update name tier maxSize }

/-- The segments of a server that was known are forgotten with it. -/
def removeServer (name : String) (b : Board) : Board where
  assignments := if (b.registry.get name).isSome then b.assignments.erase name else b.assignments
  registry := b.registry.remove name

end FerroDruid.Coordinator
