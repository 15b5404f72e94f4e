import FerroDruid.Lib.Replay
import FerroDruid.Msq.Dataflow
import FerroDruid.Msq.Pipeline
import Mathlib.Logic.Function.Basic
/-!
# A query over a fleet of workers

`ferrodruid-msq/src/coordinator.rs` and `worker.rs`. The rows of a stage are dealt out
as slices, and a slice is asked of one worker after another until one answers it.
Requests and replies may be lost or late; a worker answers a slice that it has answered
before from its cache.
-/

namespace FerroDruid.Msq

open Lib List

/-! ## Workers -/

inductive WireProcessor where
  | passthrough
  | aggregate (groupBy : List Utf8) (aggs : List AggFn) (isPartial : Bool)

structure ExecuteSlice where
  taskId : Utf8
  stageNo : ℕ
  workerId : ℕ
  totalWorkers : ℕ
  idempotencyToken : Bytes
  processor : WireProcessor
  inputSignature : RowSignature
  inputRows : List Row
  outputShuffle : ShuffleSpec

structure StageOutput where
  taskId : Utf8
  stageNo : ℕ
  workerId : ℕ
  partitions : List (ℕ × List Row)
  signature : RowSignature
  counters : WorkerCounters

inductive WorkerError where
  | groupKeyMissing (g : Utf8)
  | engine (e : DruidError)

abbrev SliceKey := Utf8 × ℕ × ℕ × Bytes

abbrev SliceCache := HashMap SliceKey StageOutput

def aggregateOutputSignature (groupBy : List Utf8) (aggs : List AggFn) : RowSignature := ⟨groupBy ++ aggs.map AggFn.column⟩

namespace ExecuteSlice

variable (slice : ExecuteSlice)

def key : SliceKey := (slice.taskId, slice.stageNo, slice.workerId, slice.idempotencyToken)

def process : Except WorkerError (List Row × RowSignature) :=
  match slice.processor with
  | .passthrough => .ok (slice.inputRows, slice.inputSignature)
  | .aggregate groupBy aggs isPartial =>
    match groupBy.find? fun g => (slice.inputSignature.indexOf g).isNone with
    | some g => .error (.groupKeyMissing g)
    | none => do
      let outRows ← (if isPartial then aggregateRows slice.inputRows slice.inputSignature groupBy aggs
        else mergePartials [slice.inputRows] groupBy.length aggs).mapError .engine
      .ok (outRows, aggregateOutputSignature groupBy aggs)

/-- `process_slice` without the cache; empty partitions are left out. -/
def run : Except WorkerError StageOutput := do
  let (outRows, outSig) ← slice.process
  let partitioned ← (partitionRows outRows outSig slice.outputShuffle).mapError .engine
  let partitions := (partitioned.zipIdx.filter (·.1 ≠ [])).map fun part => (part.2, part.1)
  .ok ⟨slice.taskId, slice.stageNo, slice.workerId, partitions, outSig,
    ⟨slice.workerId, slice.inputRows.length, (partitions.map (·.2.length)).sum, 0⟩⟩

end ExecuteSlice

def processSlice : SliceCache → ExecuteSlice → SliceCache × Except WorkerError StageOutput := serve ExecuteSlice.key ExecuteSlice.run

/-! ## The coordinator -/

inductive CallError where
  | lost
  | reported (e : WorkerError)

inductive RunError where
  | query (e : MsqError)
  | noWorkers
  | slice (e : CallError)
  | merge (e : DruidError)

/-- The partitions in the order of their numbers, each in the order of the workers; the
sort is stable. -/
def stitch (outs : List StageOutput) : List Row := ((outs.flatMap (·.partitions)).insertionSort (·.1 ≤ ·.1)).flatMap (·.2)

abbrev SignedRows := RowSignature × List Row

def stageOutcome (stage : StageDefinition) (outs : List StageOutput) : SignedRows :=
  ((outs.head?.map (·.signature)).getD stage.signature, stitch outs)

def idempotencyToken (taskId : Utf8) (stageNo workerId : ℕ) : Bytes :=
  ascii "idem-" ++ taskId.bytes ++ ascii "-s" ++ decimal stageNo ++ ascii "-w" ++ decimal workerId

/-- The rows of one worker, in a round robin. -/
def partitionInputForWorkers (rows : List Row) (nWorkers w : ℕ) : List Row := (rows.zipIdx.filter (·.2 % nWorkers = w)).map (·.1)

def Processor.toWire : Processor → WireProcessor
  | .scan _ | .shuffle => .passthrough
  | .aggregate groupBy aggs => .aggregate groupBy aggs true

/-- A fleet and what it is to run; the wire carries plain cells as they are. -/
structure Job (Addr : Type) where
  taskId : Utf8
  qdef : QueryDefinition
  input : List Row
  plain : PlainRows input
  addrs : List Addr
  maxRetries : ℕ

abbrev Outputs := List (Option SignedRows)

namespace Job

variable {Addr : Type} (job : Job Addr)

def maxAttempts : ℕ := min (max job.maxRetries 1) job.addrs.length

/-- Stages without an output are passed over. -/
def stageInput (outputs : Outputs) (stage : StageDefinition) : SignedRows :=
  if stage.inputs = [] then (stage.signature, job.input)
  else
    let upstream := stage.inputs.filterMap fun dep => outputs.getD dep none
    ((upstream.head?.map (·.1)).getD stage.signature, upstream.flatMap (·.2))

def sliceFor (outputs : Outputs) (stageNo : ℕ) (stage : StageDefinition) (w : ℕ) : ExecuteSlice :=
  let input := job.stageInput outputs stage
  ⟨job.taskId, stageNo, w, job.addrs.length, idempotencyToken job.taskId stageNo w, stage.processor.toWire, input.1,
    partitionInputForWorkers input.2 job.addrs.length w, stage.shuffle⟩

def slices (outputs : Outputs) (stageNo : ℕ) (stage : StageDefinition) : List ExecuteSlice :=
  (List.range job.addrs.length).map (job.sliceFor outputs stageNo stage)

def order : Except RunError (List ℕ) := do
  job.qdef.validate.mapError .query
  if job.addrs.isEmpty then .error .noWorkers else job.qdef.topologicalOrder.mapError .query

/-- The partial rows of a final aggregate are merged. -/
def conclusion (outputs : Outputs) : Except RunError SignedRows :=
  match job.qdef.stages[job.qdef.finalStage]? with
  | none => .error (.query .invalidQuery)
  | some stage =>
    let final := (outputs.getD job.qdef.finalStage none).getD (stage.signature, [])
    match stage.processor with
    | .aggregate groupBy aggs => ((mergePartials [final.2] groupBy.length aggs).mapError .merge).map (final.1, ·)
    | _ => .ok final

/-! ### Without faults -/

def faultFreeStages : List ℕ → Outputs → Except RunError Outputs
  | [], outputs => .ok outputs
  | stageNo :: todo, outputs =>
    match job.qdef.stages[stageNo]? with
    | none => .error (.query .invalidQuery)
    | some stage => do
      let outs ← ((job.slices outputs stageNo stage).mapM ExecuteSlice.run).mapError fun e => .slice (.reported e)
      faultFreeStages todo (outputs.set stageNo (some (stageOutcome stage outs)))

def noOutputs : Outputs := List.replicate job.qdef.stages.length none

/-- Every slice is run once, by no worker in particular. -/
def faultFree : Except RunError SignedRows := do
  let order ← job.order
  let outputs ← job.faultFreeStages order job.noOutputs
  job.conclusion outputs

end Job

/-! ## Runs -/

inductive SlotState where
  | calling (attempt : ℕ)
  | returned (out : StageOutput) (attempts : ℕ)
  | failed (e : CallError)

/-- The stage under way: its slices and how far each is. -/
structure Dispatch where
  stageNo : ℕ
  stage : StageDefinition
  slots : List (ExecuteSlice × SlotState)

/-- The caches of the workers, what was sent to and fro, and the coordinator. -/
structure FleetState (Addr : Type) where
  caches : Addr → SliceCache
  requests : List (Addr × ExecuteSlice × ℕ)
  replies : List (ExecuteSlice × ℕ × Except WorkerError StageOutput)
  outputs : Outputs
  todo : List ℕ
  current : Option Dispatch
  retryCount : ℕ
  result : Option (Except RunError SignedRows)

/-- A request may be served whether or not its reply is heard, at any time, and more
than once. -/
inductive FleetEvent where
  | dispatch
  | serve (request : ℕ)
  | hear (reply : ℕ)
  | lose (w : ℕ)
  | collect
  | conclude

/-- The slices are waited for in their order. -/
def joinSlots : List (ExecuteSlice × SlotState) → Option (Except CallError (List (StageOutput × ℕ)))
  | [] => some (.ok [])
  | (_, .calling _) :: _ => none
  | (_, .failed e) :: _ => some (.error e)
  | (_, .returned out attempts) :: slots => (joinSlots slots).map (·.map ((out, attempts) :: ·))

namespace Job

variable {Addr : Type} [DecidableEq Addr] (job : Job Addr)

/-- The worker that an attempt goes to. -/
def requestsOf (slice : ExecuteSlice) (attempt : ℕ) : List (Addr × ExecuteSlice × ℕ) :=
  (job.addrs[(slice.workerId + attempt) % job.addrs.length]?).toList.map fun addr => (addr, slice, attempt)

def failAttempt (s : FleetState Addr) (d : Dispatch) (w : ℕ) (slice : ExecuteSlice) (attempt : ℕ) (e : CallError) : FleetState Addr :=
  if attempt + 1 < job.maxAttempts then
    { s with
      requests := s.requests ++ job.requestsOf slice (attempt + 1)
      current := some { d with slots := d.slots.set w (slice, .calling (attempt + 1)) } }
  else { s with current := some { d with slots := d.slots.set w (slice, .failed e) } }

def step (s : FleetState Addr) : FleetEvent → FleetState Addr
  | .dispatch =>
    match s.result, s.current, s.todo with
    | none, none, stageNo :: todo =>
      match job.qdef.stages[stageNo]? with
      | none => { s with result := some (.error (.query .invalidQuery)) }
      | some stage =>
        let slices := job.slices s.outputs stageNo stage
        { s with
          todo := todo
          requests := s.requests ++ slices.flatMap (job.requestsOf · 0)
          current := some ⟨stageNo, stage, slices.map (·, .calling 0)⟩ }
    | _, _, _ => s
  | .serve request =>
    match s.requests[request]? with
    | none => s
    | some (addr, slice, attempt) =>
      let answer := processSlice (s.caches addr) slice
      { s with
        caches := Function.update s.caches addr answer.1
        replies := s.replies ++ [(slice, attempt, answer.2)] }
  | .hear reply =>
    match s.current with
    | none => s
    | some d =>
      match s.replies[reply]? with
      | none => s
      | some (slice, attempt, answer) =>
        match d.slots[slice.workerId]? with
        | some (asked, .calling k) =>
          if slice.stageNo = d.stageNo ∧ attempt = k then
            match answer with
            | .ok out => { s with current := some { d with slots := d.slots.set slice.workerId (asked, .returned out (k + 1)) } }
            | .error e => job.failAttempt s d slice.workerId asked k (.reported e)
          else s
        | _ => s
  | .lose w =>
    match s.current with
    | some d =>
      match d.slots[w]? with
      | some (asked, .calling k) => job.failAttempt s d w asked k .lost
      | _ => s
    | none => s
  | .collect =>
    match s.current with
    | some d =>
      match joinSlots d.slots with
      | none => s
      | some (.error e) => { s with result := some (.error (.slice e)) }
      | some (.ok outs) =>
        { s with
          outputs := s.outputs.set d.stageNo (some (stageOutcome d.stage (outs.map (·.1))))
          retryCount := s.retryCount + (outs.map (·.2 - 1)).sum
          current := none }
    | none => s
  | .conclude =>
    match s.result, s.current, s.todo with
    | none, none, [] => { s with result := some (job.conclusion s.outputs) }
    | _, _, _ => s

def start (caches : Addr → SliceCache) : FleetState Addr :=
  let refusal := match job.order with
    | .ok _ => none
    | .error e => some (.error e)
  ⟨caches, [], [], job.noOutputs, job.order.toOption.getD [], none, 0, refusal⟩

def run (caches : Addr → SliceCache) (events : List FleetEvent) : FleetState Addr := events.foldl job.step (job.start caches)

end Job

/-! ## Faults do not show -/

section

variable {Addr : Type} {job : Job Addr} {order : List ℕ} {made : ExecuteSlice → Prop} {s : FleetState Addr}

/-- The stages that have no output yet. -/
def FleetState.left (s : FleetState Addr) : List ℕ := (s.current.map (·.stageNo)).toList ++ s.todo

/-- What was returned for a slice is what it comes to. -/
def Answered (slice : ExecuteSlice) : SlotState → Prop
  | .returned out _ => slice.run = .ok out
  | _ => True

/-- Where a run is, given the slices that were made: what is under way answers them,
and a run without faults that went on from here would come out as one from the start. -/
structure Consistent (job : Job Addr) (order : List ℕ) (made : ExecuteSlice → Prop) (s : FleetState Addr) : Prop where
  accepted : s.result = none → job.order = .ok order
  requested : ∀ request ∈ s.requests, made request.2.1
  replied : ∀ reply ∈ s.replies, made reply.1 ∧ reply.2.2 = reply.1.run
  remembers : ∀ addr, Remembers ExecuteSlice.key ExecuteSlice.run (·.1 = job.taskId) made (s.caches addr)
  keyed : ∀ slice, made slice → slice.taskId = job.taskId ∧ slice.stageNo ∉ s.todo
  distinct : ∀ slice slice', made slice → made slice' → slice.stageNo = slice'.stageNo → slice.workerId = slice'.workerId → slice = slice'
  current : ∀ d, s.current = some d → job.qdef.stages[d.stageNo]? = some d.stage ∧ d.slots.map (·.1) = job.slices s.outputs d.stageNo d.stage ∧
    ∀ slot ∈ d.slots, made slot.1 ∧ Answered slot.1 slot.2
  nodup : s.todo.Nodup
  left : job.faultFreeStages s.left s.outputs = job.faultFreeStages order job.noOutputs
  concluded : ∀ r, s.result = some (.ok r) → job.faultFree = .ok r

theorem map_fst_set {α β : Type} {xs : List (α × β)} {i : ℕ} {a : α} {b b' : β} (h : xs[i]? = some (a, b)) :
    (xs.set i (a, b')).map (·.1) = xs.map (·.1) := by
  apply ext_getElem?
  intro j
  rw [map_set, getElem?_set, getElem?_map]
  split_ifs with hij hlt
  · subst hij
    rw [h]
    rfl
  · subst hij
    rw [length_map] at hlt
    rw [getElem?_eq_none (not_lt.1 hlt)]
    rfl
  · rfl

/-- A slot changes, and more may be asked about its slice. -/
theorem Consistent.slot (h : Consistent job order made s) {d : Dispatch} (hd : s.current = some d) {w : ℕ}
    {asked : ExecuteSlice} {old state : SlotState}
    (hslot : d.slots[w]? = some (asked, old)) (hstate : Answered asked state)
    {extra : List (Addr × ExecuteSlice × ℕ)} (hextra : ∀ request ∈ extra, request.2.1 = asked) :
    Consistent job order made { s with requests := s.requests ++ extra, current := some { d with slots := d.slots.set w (asked, state) } } := by
  obtain ⟨hstage, hslices, hslots⟩ := h.current d hd
  have hasked := (hslots _ (mem_of_getElem? hslot)).1
  exact { h with
    requested := fun request hrequest => by
      rcases mem_append.1 hrequest with hrequest | hrequest
      · exact h.requested request hrequest
      · rw [hextra request hrequest]
        exact hasked
    current := fun d' hd' => by
      obtain rfl := Option.some.inj hd'
      refine ⟨hstage, (map_fst_set hslot).trans hslices, fun slot hin => ?_⟩
      rcases mem_or_eq_of_mem_set hin with hin | rfl
      · exact hslots slot hin
      · exact ⟨hasked, hstate⟩
    left := by
      have hleft := h.left
      rw [FleetState.left, hd] at hleft
      exact hleft }

theorem mem_requestsOf {slice : ExecuteSlice} {attempt : ℕ} : ∀ request ∈ job.requestsOf slice attempt, request.2.1 = slice := by
  intro request hrequest
  obtain ⟨addr, -, rfl⟩ := mem_map.1 hrequest
  rfl

theorem Consistent.failAttempt (h : Consistent job order made s) {d : Dispatch} (hd : s.current = some d) {w k : ℕ} {asked : ExecuteSlice}
    (hslot : d.slots[w]? = some (asked, .calling k)) (e : CallError) : Consistent job order made (job.failAttempt s d w asked k e) := by
  unfold Job.failAttempt
  split_ifs
  · refine h.slot hd hslot ?_ mem_requestsOf
    trivial
  · have hslot' := @Consistent.slot _ _ _ _ _ h d hd _ _ _ (.failed e) hslot trivial [] (forall_mem_nil _)
    rwa [append_nil] at hslot'

theorem run_of_joinSlots {slots : List (ExecuteSlice × SlotState)} {outs : List (StageOutput × ℕ)} (h : joinSlots slots = some (.ok outs))
    (hslots : ∀ slot ∈ slots, Answered slot.1 slot.2) :
    (slots.map (·.1)).mapM ExecuteSlice.run = .ok (outs.map (·.1)) := by
  induction slots generalizing outs with
  | nil =>
    obtain rfl := Except.ok.inj (Option.some.inj h)
    rfl
  | cons slot slots ih =>
    obtain ⟨slice, state⟩ := slot
    cases state with
    | calling k => cases h
    | failed e => cases h
    | returned out attempts =>
      obtain ⟨joined, hjoined, h⟩ := Option.map_eq_some_iff.1 h
      cases joined with
      | error e => cases h
      | ok outs' =>
        obtain rfl := Except.ok.inj h
        rw [mapM_eq_ok, map_cons, map_cons]
        exact .cons (hslots _ mem_cons_self) (mapM_eq_ok.1 (ih hjoined fun slot hin => hslots slot (mem_cons_of_mem _ hin)))

theorem order_nodup (h : job.order = .ok order) : order.Nodup := by
  obtain ⟨⟨⟩, hvalid, h⟩ := bind_eq_ok.1 h
  split_ifs at h
  obtain ⟨order', horder, hperm, -⟩ := QueryDefinition.topologicalOrder_of_validate (mapError_eq_ok.1 hvalid)
  rw [horder] at h
  obtain rfl := Except.ok.inj h
  exact hperm.nodup_iff.2 nodup_range

/-- The workers have not heard of the task. -/
def Fresh (job : Job Addr) (caches : Addr → SliceCache) : Prop := ∀ addr (key : SliceKey), key.1 = job.taskId → (caches addr).lookup key = none

variable [DecidableEq Addr]

section

variable (h : Consistent job order made s)

include h

/-- The slices of the next stage are new. -/
theorem Consistent.dispatch : ∃ made, Consistent job order made (job.step s .dispatch) := by
  simp only [Job.step]
  split
  · rename_i stageNo todo hresult hcurrent htodo
    obtain ⟨hnotin, hnodup⟩ := nodup_cons.1 (htodo ▸ h.nodup)
    have hleft := h.left
    rw [FleetState.left, hcurrent, htodo] at hleft
    split
    · exact ⟨made, { h with
        accepted := fun hnone => by cases hnone
        concluded := fun r hr => by cases Option.some.inj hr }⟩
    · rename_i stage hstage
      have hnew : ∀ slice ∈ job.slices s.outputs stageNo stage, slice = job.sliceFor s.outputs stageNo stage slice.workerId := by
        intro slice hslice
        obtain ⟨w, -, rfl⟩ := mem_map.1 hslice
        rfl
      have hnumber : ∀ slice ∈ job.slices s.outputs stageNo stage, slice.taskId = job.taskId ∧ slice.stageNo = stageNo := by
        intro slice hslice
        rw [hnew slice hslice]
        exact ⟨rfl, rfl⟩
      -- what was made is of a stage that is no longer to do
      have hold : ∀ slice, made slice → slice.stageNo ≠ stageNo := by
        rintro slice hmade rfl
        exact (h.keyed slice hmade).2 (by rw [htodo]; exact mem_cons_self)
      refine ⟨fun slice => made slice ∨ slice ∈ job.slices s.outputs stageNo stage, { h with
        requested := fun request hrequest => ?_
        replied := fun reply hreply => ⟨.inl (h.replied reply hreply).1, (h.replied reply hreply).2⟩
        remembers := fun addr => (h.remembers addr).mono fun slice => .inl
        keyed := fun slice hslice => ?_
        distinct := fun slice slice' hslice hslice' hstageNo hworker => ?_
        current := fun d hd => ?_
        nodup := hnodup
        left := hleft }⟩
      · rcases mem_append.1 hrequest with hrequest | hrequest
        · exact .inl (h.requested request hrequest)
        · obtain ⟨slice, hslice, hrequest⟩ := mem_flatMap.1 hrequest
          rw [mem_requestsOf request hrequest]
          exact .inr hslice
      · rcases hslice with hslice | hslice
        · obtain ⟨htask, hout⟩ := h.keyed slice hslice
          exact ⟨htask, fun hin => hout (by rw [htodo]; exact mem_cons_of_mem _ hin)⟩
        · rw [(hnumber slice hslice).2]
          exact ⟨(hnumber slice hslice).1, hnotin⟩
      · rcases hslice with hslice | hslice <;> rcases hslice' with hslice' | hslice'
        · exact h.distinct slice slice' hslice hslice' hstageNo hworker
        · exact absurd (hstageNo.trans (hnumber slice' hslice').2) (hold slice hslice)
        · exact absurd (hstageNo.symm.trans (hnumber slice hslice).2) (hold slice' hslice')
        · rw [hnew slice hslice, hnew slice' hslice', hworker]
      · obtain rfl := Option.some.inj hd
        refine ⟨hstage, by rw [map_map]; exact map_id _, fun slot hslot => ?_⟩
        obtain ⟨slice, hslice, rfl⟩ := mem_map.1 hslot
        exact ⟨.inr hslice, trivial⟩
  · exact ⟨made, h⟩

/-- A worker answers as if it had no cache. -/
theorem Consistent.serve (request : ℕ) : Consistent job order made (job.step s (.serve request)) := by
  simp only [Job.step]
  split
  · exact h
  · rename_i addr slice attempt hrequest
    have hmade : made slice := h.requested _ (mem_of_getElem? hrequest)
    have hone : ∀ slice slice', made slice → made slice' → slice.key = slice'.key → slice = slice' := by
      intro slice slice' hslice hslice' hkey
      simp only [ExecuteSlice.key, Prod.mk.injEq] at hkey
      exact h.distinct slice slice' hslice hslice' hkey.2.1 hkey.2.2.1
    exact { h with
      replied := fun reply hreply => by
        rcases mem_append.1 hreply with hreply | hreply
        · exact h.replied reply hreply
        · obtain rfl := mem_singleton.1 hreply
          exact ⟨hmade, (h.remembers addr).serve_snd hone hmade (h.keyed slice hmade).1⟩
      remembers := fun addr' => by
        by_cases haddr : addr' = addr
        · subst haddr
          simpa only [Function.update_self, processSlice] using (h.remembers addr').serve_fst hmade
        · simpa only [Function.update_of_ne haddr] using h.remembers addr' }

/-- A reply that is heard is the answer to the slice of the slot. -/
theorem Consistent.hear (reply : ℕ) : Consistent job order made (job.step s (.hear reply)) := by
  simp only [Job.step]
  split
  · exact h
  · rename_i d hd
    split
    · exact h
    · rename_i slice attempt answer hreply
      split
      · rename_i asked k hslot
        split_ifs with hsame
        · obtain ⟨hmade, hanswer⟩ := h.replied _ (mem_of_getElem? hreply)
          obtain ⟨-, hslices, hslots⟩ := h.current d hd
          -- the slot has the number of the worker
          have hasked : asked = job.sliceFor s.outputs d.stageNo d.stage slice.workerId := by
            have hget := congrArg (fun slices => slices[slice.workerId]?) hslices
            simp only [getElem?_map, hslot, Option.map_some, Job.slices] at hget
            obtain ⟨w, hw, heq⟩ := Option.map_eq_some_iff.1 hget.symm
            rw [(List.getElem?_eq_some_iff.1 hw).2.symm.trans (getElem_range _)] at heq
            exact heq.symm
          have heq : slice = asked := by
            apply h.distinct slice asked hmade (hslots _ (mem_of_getElem? hslot)).1
            · rw [hsame.1, hasked]
              rfl
            · rw [hasked]
              rfl
          subst heq
          cases answer with
          | ok out =>
            have hnext := @Consistent.slot _ _ _ _ _ h d hd _ _ _ (.returned out (k + 1)) hslot hanswer.symm [] (forall_mem_nil _)
            rwa [append_nil] at hnext
          | error e => exact h.failAttempt hd hslot (.reported e)
        · exact h
      · exact h

theorem Consistent.lose (w : ℕ) : Consistent job order made (job.step s (.lose w)) := by
  simp only [Job.step]
  split
  · rename_i d hd
    split
    · rename_i asked k hslot
      exact h.failAttempt hd hslot .lost
    · exact h
  · exact h

/-- What the slices came to is what they come to without faults. -/
theorem Consistent.collect : Consistent job order made (job.step s .collect) := by
  simp only [Job.step]
  split
  · rename_i d hd
    obtain ⟨hstage, hslices, hslots⟩ := h.current d hd
    have hleft := h.left
    rw [FleetState.left, hd] at hleft
    split
    · exact h
    · exact { h with
        accepted := fun hnone => by cases hnone
        concluded := fun r hr => by cases Option.some.inj hr }
    · rename_i outs hjoin
      have houts := run_of_joinSlots hjoin fun slot hin => (hslots slot hin).2
      rw [hslices] at houts
      exact { h with
        current := fun d hd => by cases hd
        left := by
          rw [← hleft]
          simp only [Option.map_some, Option.toList_some, singleton_append, Job.faultFreeStages, hstage, houts]
          rfl }
  · exact h

theorem Consistent.conclude : Consistent job order made (job.step s .conclude) := by
  simp only [Job.step]
  split
  · rename_i hresult hcurrent htodo
    have hleft := h.left
    rw [FleetState.left, hcurrent, htodo] at hleft
    exact { h with
      accepted := fun hnone => by cases hnone
      concluded := fun r hr => by
        rw [Job.faultFree, h.accepted hresult, ok_bind, ← hleft]
        exact Option.some.inj hr }
  · exact h

theorem Consistent.step (event : FleetEvent) : ∃ made, Consistent job order made (job.step s event) := by
  cases event with
  | dispatch => exact h.dispatch
  | serve request => exact ⟨made, h.serve request⟩
  | hear reply => exact ⟨made, h.hear reply⟩
  | lose w => exact ⟨made, h.lose w⟩
  | collect => exact ⟨made, h.collect⟩
  | conclude => exact ⟨made, h.conclude⟩

theorem Consistent.run (events : List FleetEvent) : ∃ made, Consistent job order made (events.foldl job.step s) := by
  induction events generalizing made s with
  | nil => exact ⟨made, h⟩
  | cons event events ih =>
    obtain ⟨made', h'⟩ := h.step event
    exact ih h'

end

theorem faultFree_of_run {caches : Addr → SliceCache} (hfresh : Fresh job caches) {events : List FleetEvent} {r : SignedRows}
    (h : (job.run caches events).result = some (.ok r)) : job.faultFree = .ok r := by
  have hstart : Consistent job (job.order.toOption.getD []) (fun _ => False) (job.start caches) := {
    accepted := fun hnone => by
      unfold Job.start at hnone
      cases horder : job.order with
      | ok order => rfl
      | error e => simp only [horder, reduceCtorEq] at hnone
    requested := forall_mem_nil _
    replied := forall_mem_nil _
    remembers := fun addr key answer hkey hanswer => by
      rw [Job.start, hfresh addr key hkey] at hanswer
      cases hanswer
    keyed := fun _ => False.elim
    distinct := fun _ _ => False.elim
    current := fun d hd => by cases hd
    nodup := by
      unfold Job.start
      cases horder : job.order with
      | ok order => exact order_nodup horder
      | error e => exact nodup_nil
    left := rfl
    concluded := fun r hr => by
      unfold Job.start at hr
      cases horder : job.order <;> simp [horder] at hr }
  obtain ⟨made, hmade⟩ := hstart.run events
  exact hmade.concluded r h

/-- Whatever is lost, late or run twice, and whatever order things happen in, a run that
comes out comes out as a run without faults. -/
theorem runs_agree {caches caches' : Addr → SliceCache} (hfresh : Fresh job caches) (hfresh' : Fresh job caches') {events events' : List FleetEvent}
    {r r' : SignedRows} (h : (job.run caches events).result = some (.ok r)) (h' : (job.run caches' events').result = some (.ok r')) :
    r = r' ∧ job.faultFree = .ok r := by
  have hfault := faultFree_of_run hfresh h
  exact ⟨Except.ok.inj (hfault.symm.trans (faultFree_of_run hfresh' h')), hfault⟩

end

/-! ## Planned queries -/

def StageOutput.rows (output : StageOutput) : List Row := output.partitions.flatMap (·.2)

section

variable {sig : RowSignature} {rows out : List Row} {slice : ExecuteSlice} {output : StageOutput}
  {outs : List StageOutput} {stage : StageDefinition} {n : ℕ}

/-- A round robin deals out the rows. -/
theorem flatten_partitionInput (rows : List Row) (hn : 0 < n) : ((List.range n).map (partitionInputForWorkers rows n)).flatten.Perm rows := by
  have hperm := (@flatten_buckets_perm _ (fun r : Row × ℕ => r.2 % n) n rows.zipIdx fun r _ => Nat.mod_lt _ hn).map Prod.fst
  rwa [map_flatten, map_map, zipIdx_map_fst] at hperm

/-- The partitions are put together, none left out. -/
theorem stitch_perm (outs : List StageOutput) : (stitch outs).Perm (outs.flatMap (·.rows)) := by
  have hsorted := perm_insertionSort (fun a b : ℕ × List Row => a.1 ≤ b.1) (outs.flatMap (·.partitions))
  exact (hsorted.flatMap_right _).trans (List.Perm.of_eq flatMap_assoc)

theorem stitch_of_one (h : ∀ entry ∈ outs.flatMap (·.partitions), entry.1 = 0) : stitch outs = outs.flatMap (·.rows) := by
  rw [stitch, List.Pairwise.insertionSort_eq]
  · exact flatMap_assoc
  · exact pairwise_of_forall_mem_list fun a ha b hb => by rw [h a ha, h b hb]

/-- A slice puts out the partitions of what it processes. -/
theorem run_ok (h : slice.run = .ok output) : ∃ processed partitioned, slice.process = .ok (processed, output.signature) ∧
    partitionRows processed output.signature slice.outputShuffle = .ok partitioned ∧ output.rows = partitioned.flatten ∧
    ∀ entry ∈ output.partitions, entry.1 < partitioned.length := by
  obtain ⟨⟨processed, outSig⟩, hprocess, h⟩ := bind_eq_ok.1 h
  obtain ⟨partitioned, hpartitioned, h⟩ := bind_eq_ok.1 h
  obtain rfl := Except.ok.inj h
  refine ⟨processed, partitioned, hprocess, mapError_eq_ok.1 hpartitioned, ?_, ?_⟩
  · have hfilter := filter_map (p := (decide <| · ≠ [])) (f := Prod.fst) (l := partitioned.zipIdx)
    rw [zipIdx_map_fst] at hfilter
    rw [StageOutput.rows, flatMap_map, flatMap_def]
    exact (congrArg List.flatten hfilter).symm.trans flatten_filter_ne_nil
  · intro entry hentry
    obtain ⟨part, hpart, rfl⟩ := mem_map.1 hentry
    exact (mem_zipIdx_iff_getElem?.1 (mem_filter.1 hpart).1 |> List.getElem?_eq_some_iff.1).1

variable {Addr : Type} {job : Job Addr} {outputs : Outputs} {stageNo : ℕ}

theorem stageOutcome_fst {f : ℕ → Except WorkerError StageOutput} (hn : 0 < n) (h : (List.range n).mapM f = .ok outs)
    (hslice : ∀ w output, f w = .ok output → output.signature = sig) : (stageOutcome stage outs).1 = sig := by
  have hlength := (mapM_eq_ok.1 h).length_eq
  rw [length_range] at hlength
  cases outs with
  | nil => exact absurd hlength hn.ne'
  | cons output outs =>
    obtain ⟨w, -, hw⟩ := exists_of_mapM h output mem_cons_self
    exact hslice w output hw

theorem perm_flatMap_rows {f : ℕ → Except WorkerError StageOutput} {ws : List ℕ} {g : ℕ → List Row} (h : ws.mapM f = .ok outs)
    (hslice : ∀ w output, f w = .ok output → output.rows.Perm (g w)) : (outs.flatMap (·.rows)).Perm (ws.flatMap g) := by
  have hall := mapM_eq_ok.1 h
  clear h
  induction hall with
  | nil => exact List.Perm.refl _
  | cons hw _ ih => exact (hslice _ _ hw).append ih

/-- A stage that passes rows on puts all of them out. -/
theorem stageOutcome_passed (hn : 0 < job.addrs.length) (h : (job.slices outputs stageNo stage).mapM ExecuteSlice.run = .ok outs)
    (hinput : job.stageInput outputs stage = (sig, rows)) (hstage : stage.processor.toWire = .passthrough)
    (hshuffle : stage.shuffle = .none ∨ ∃ key partitions, stage.shuffle = .hash key partitions) :
    (stageOutcome stage outs).1 = sig ∧ (stageOutcome stage outs).2.Perm rows := by
  rw [Job.slices, mapM_map] at h
  have hslice : ∀ w output, (job.sliceFor outputs stageNo stage w).run = .ok output →
      output.signature = sig ∧ output.rows.Perm (partitionInputForWorkers rows job.addrs.length w) := by
    intro w output hw
    obtain ⟨processed, partitioned, hprocess, hpartitioned, hflat, -⟩ := run_ok hw
    simp only [ExecuteSlice.process, Job.sliceFor, hstage, hinput] at hprocess hpartitioned
    obtain ⟨rfl, hsig⟩ := Prod.mk.inj (Except.ok.inj hprocess)
    exact ⟨hsig.symm, hflat ▸ flatten_partitionRows hshuffle hpartitioned⟩
  refine ⟨stageOutcome_fst hn h fun w output hw => (hslice w output hw).1, (stitch_perm outs).trans ?_⟩
  exact (perm_flatMap_rows h fun w output hw => (hslice w output hw).2).trans (flatten_partitionInput rows hn)

/-- An aggregate stage puts out the groups of the slices, which merge into the groups of all rows. -/
theorem stageOutcome_aggregated (hn : 0 < job.addrs.length) (h : (job.slices outputs stageNo stage).mapM ExecuteSlice.run = .ok outs)
    (hinput : job.stageInput outputs stage = (sig, rows)) (haligned : ∀ row ∈ rows, row.length = sig.columns.length)
    {groupBy : List Utf8} {aggs : List AggFn} (hstage : stage.processor = .aggregate groupBy aggs) (hshuffle : stage.shuffle = .none) :
    (stageOutcome stage outs).1 = aggregateOutputSignature groupBy aggs ∧ Resolved sig groupBy aggs ∧
      ∃ rows', rows'.Perm rows ∧ mergePartials [(stageOutcome stage outs).2] groupBy.length aggs = .ok (engineRows sig groupBy aggs rows') := by
  rw [Job.slices, mapM_map] at h
  have hslice : ∀ w output, (job.sliceFor outputs stageNo stage w).run = .ok output → output.signature = aggregateOutputSignature groupBy aggs ∧
      Resolved sig groupBy aggs ∧ (∀ entry ∈ output.partitions, entry.1 = 0) ∧
      groupRows (groupBy.map (columnIdx sig)) aggs (aggs.map (fieldIdx sig)) (partitionInputForWorkers rows job.addrs.length w) = output.rows := by
    intro w output hw
    obtain ⟨processed, partitioned, hprocess, hpartitioned, hflat, hids⟩ := run_ok hw
    simp only [ExecuteSlice.process, Job.sliceFor, hstage, Processor.toWire, hinput, if_true] at hprocess
    split at hprocess
    · cases hprocess
    · obtain ⟨aggregated, haggregated, hprocess⟩ := bind_eq_ok.1 hprocess
      obtain ⟨rfl, hsig⟩ := Prod.mk.inj (Except.ok.inj hprocess)
      have hresolved : Resolved sig groupBy aggs := by
        by_contra hmissing
        obtain ⟨e, he⟩ := aggregateRows_of_not_resolved hmissing (partitionInputForWorkers rows job.addrs.length w)
        rw [he] at haggregated
        cases haggregated
      rw [aggregateRows_eq (resolveGroup_of_resolved hresolved) (resolveFields_of_resolved hresolved)] at haggregated
      obtain rfl := Except.ok.inj haggregated
      rw [show (job.sliceFor outputs stageNo stage w).outputShuffle = .none from hshuffle] at hpartitioned
      obtain rfl := Except.ok.inj hpartitioned
      exact ⟨hsig.symm, hresolved, fun entry hentry => Nat.lt_one_iff.1 (hids entry hentry), by rw [hflat, flatten_singleton]⟩
  obtain ⟨first, hfirst⟩ := forall_of_mapM h 0 (mem_range.2 hn)
  have hresolved := (hslice 0 first hfirst).2.1
  refine ⟨stageOutcome_fst hn h fun w output hw => (hslice w output hw).1, hresolved, _, flatten_partitionInput rows hn, ?_⟩
  -- there is one partition, so the rows of the workers follow one another
  have hstitch : stitch outs = outs.flatMap (·.rows) := stitch_of_one fun entry hentry => by
    obtain ⟨output, houtput, hentry⟩ := mem_flatMap.1 hentry
    obtain ⟨w, -, hw⟩ := exists_of_mapM h output houtput
    exact (hslice w output hw).2.2.1 entry hentry
  have hpartials : [stitch outs].flatten = ((List.range job.addrs.length).map (partitionInputForWorkers rows job.addrs.length)).flatMap
      (groupRows (groupBy.map (columnIdx sig)) aggs (aggs.map (fieldIdx sig))) := by
    rw [flatten_singleton, hstitch, flatMap_map, flatMap_def, flatMap_def]
    exact congrArg List.flatten (map_eq_map_of_mapM h fun w output hw => (hslice w output hw).2.2.2).symm
  have hmerged := mergePartials_groupRows (length_map ..) (fun part hpart row hrow =>
    hasKey_of_resolved hresolved (haligned row ((flatten_partitionInput rows hn).subset (mem_flatten.2 ⟨part, hpart, hrow⟩)))) hpartials
  rwa [length_map] at hmerged

theorem stageInput_of_one {dep : ℕ} {input : SignedRows} (hinputs : stage.inputs = [dep]) (h : outputs.getD dep none = some input) :
    job.stageInput outputs stage = input := by
  rw [Job.stageInput, hinputs, if_neg (cons_ne_nil _ _)]
  simp only [filterMap_cons, h, filterMap_nil, head?_cons, Option.map_some, Option.getD_some, flatMap_singleton]

variable {plan : ExecutionPlan} {table : InputTable}

theorem engineOutput_of_faultFree (hq : plan.toQueryDefinition table.signature = .ok job.qdef) (hrows : job.input = table.rows)
    (h : job.faultFree = .ok (sig, out)) : EngineOutput plan table sig out := by
  obtain ⟨taskId, qdef, input, plain, addrs, maxRetries⟩ := job
  obtain rfl : input = table.rows := hrows
  obtain ⟨order, horder, h⟩ := bind_eq_ok.1 h
  obtain ⟨-, -, horder⟩ := bind_eq_ok.1 horder
  split_ifs at horder with hempty
  have hn : 0 < addrs.length := by simpa [length_pos_iff] using hempty
  obtain ⟨outputs, houtputs, h⟩ := bind_eq_ok.1 h
  refine engineOutput_of_stages hq (fun hq => ?_) fun dimensions aggs hq => ?_
  · obtain rfl := hq
    obtain rfl : [0, 1] = order := Except.ok.inj horder
    obtain ⟨scanned, hscanned, houtputs⟩ := bind_eq_ok.1 houtputs
    obtain ⟨shuffled, hshuffled, houtputs⟩ := bind_eq_ok.1 houtputs
    obtain rfl := Except.ok.inj houtputs
    have hscan := stageOutcome_passed hn (mapError_eq_ok.1 hscanned) rfl rfl (.inl rfl)
    have hshuffle := stageOutcome_passed hn (mapError_eq_ok.1 hshuffled) (stageInput_of_one rfl rfl) rfl (.inl rfl)
    obtain ⟨rfl, rfl⟩ := Prod.mk.inj (Except.ok.inj h)
    exact ⟨hshuffle.1.trans hscan.1, hshuffle.2.trans hscan.2⟩
  · obtain rfl := hq
    obtain rfl : [0, 1, 2] = order := Except.ok.inj horder
    obtain ⟨scanned, hscanned, houtputs⟩ := bind_eq_ok.1 houtputs
    obtain ⟨shuffled, hshuffled, houtputs⟩ := bind_eq_ok.1 houtputs
    obtain ⟨grouped, hgrouped, houtputs⟩ := bind_eq_ok.1 houtputs
    obtain rfl := Except.ok.inj houtputs
    have hscan := stageOutcome_passed hn (mapError_eq_ok.1 hscanned) rfl rfl (.inl rfl)
    have hshuffle := stageOutcome_passed hn (mapError_eq_ok.1 hshuffled) (stageInput_of_one rfl rfl) rfl (.inr ⟨_, _, rfl⟩)
    have hperm := hshuffle.2.trans hscan.2
    obtain ⟨hsig, hresolved, rows, hrows, hmerged⟩ := stageOutcome_aggregated hn (mapError_eq_ok.1 hgrouped)
      ((stageInput_of_one rfl rfl).trans (Prod.ext (hshuffle.1.trans hscan.1) rfl)) (fun row hrow => table.aligned row (hperm.subset hrow)) rfl rfl
    have hconclusion : ((mergePartials [(stageOutcome _ grouped).2] _ aggs).mapError RunError.merge).map
      ((stageOutcome _ grouped).1, ·) = .ok (sig, out) := h
    rw [hmerged] at hconclusion
    obtain ⟨rfl, rfl⟩ := Prod.mk.inj (Except.ok.inj hconclusion)
    exact ⟨hsig, hresolved, rows, hrows.trans hperm, rfl⟩

/-- A planned query over a fleet comes out as the plan says, whatever is lost, late or run
twice, and so as it does without a fleet. -/
theorem run_spec [DecidableEq Addr] {caches : Addr → SliceCache} (hfresh : Fresh job caches)
    (hq : plan.toQueryDefinition table.signature = .ok job.qdef)
    (hrows : job.input = table.rows) {events : List FleetEvent} (h : (job.run caches events).result = some (.ok (sig, out))) :
    EngineOutput plan table sig out ∧ (plan.Faithful table → ∀ text config sig' out', job.qdef.run text config table.rows = .ok (sig', out') →
      sig = sig' ∧ out.Perm out') := by
  have hout := engineOutput_of_faultFree hq hrows (faultFree_of_run hfresh h)
  exact ⟨hout, fun hfaithful text config sig' out' hlocal => hout.agree (engineOutput_of_run (hrows ▸ job.plain) hq hlocal) hfaithful⟩

/-- Two rows and two workers. -/
def twoWorkers : Job Bool where
  taskId := columnA
  qdef := ⟨[⟨0, [], .scan [columnA, columnB], ⟨[columnA, columnB]⟩, .none⟩, ⟨1, [0], .shuffle, ⟨[columnA, columnB]⟩, .none⟩], 1⟩
  input := fewRows.rows
  plain := plain_fewRows
  addrs := [false, true]
  maxRetries := 3

/-- The first answer is late: the other worker has been asked by then. -/
def lateAnswer : List FleetEvent :=
  [.dispatch, .serve 0, .lose 0, .serve 1, .hear 1, .hear 0, .serve 2, .hear 2, .collect, .dispatch,
    .serve 3, .serve 4, .hear 4, .hear 3, .collect, .conclude]

def noFault : List FleetEvent :=
  [.dispatch, .serve 0, .serve 1, .hear 0, .hear 1, .collect, .dispatch, .serve 2, .serve 3, .hear 2, .hear 3, .collect, .conclude]

theorem runs_agree_late : ∃ r r', (twoWorkers.run (fun _ => ∅) lateAnswer).result = some (.ok r) ∧
    (twoWorkers.run (fun _ => ∅) noFault).result = some (.ok r') ∧ r = r' ∧ twoWorkers.faultFree = .ok r := by
  obtain ⟨r, h⟩ : ∃ r, (twoWorkers.run (fun _ => ∅) lateAnswer).result = some (.ok r) := ⟨_, rfl⟩
  obtain ⟨r', h'⟩ : ∃ r, (twoWorkers.run (fun _ => ∅) noFault).result = some (.ok r) := ⟨_, rfl⟩
  exact ⟨r, r', h, h', runs_agree (fun _ _ _ => rfl) (fun _ _ _ => rfl) h h'⟩

/-- Rows are counted, and `b` is added, for each `a`. -/
def groupPlan : ExecutionPlan :=
  ⟨[⟨0, .scan columnA.bytes none, []⟩, ⟨1, .shuffle [columnA] 4, [0]⟩,
    ⟨2, .aggregate [columnA] [⟨.count, columnA, none⟩, ⟨.sum, columnB, some columnB⟩], [1]⟩], 2, []⟩

def groupJob : Job Bool where
  taskId := columnA
  qdef := ⟨[⟨0, [], .scan [columnA, columnB], ⟨[columnA, columnB]⟩, .none⟩, ⟨1, [0], .shuffle, ⟨[columnA, columnB]⟩, .hash [columnA] 4⟩,
    ⟨2, [1], .aggregate [columnA] [.count, .longSum columnB], ⟨[columnA, AggFn.count.column, (AggFn.longSum columnB).column]⟩, .none⟩], 2⟩
  input := fewRows.rows
  plain := plain_fewRows
  addrs := [false, true]
  maxRetries := 3

def lateGroup : List FleetEvent :=
  [.dispatch, .serve 0, .lose 0, .serve 1, .hear 1, .hear 0, .serve 2, .hear 2, .collect, .dispatch, .serve 3, .serve 4, .hear 4, .hear 3, .collect,
    .dispatch, .serve 5, .serve 6, .hear 6, .hear 5, .collect, .conclude]

theorem faithful_groupPlan : groupPlan.Faithful fewRows := by
  intro dimensions specs aggs hplan haggs
  obtain ⟨rfl, rfl⟩ := Prod.ext_iff.1 (Option.some.inj hplan)
  obtain rfl : [.count, .longSum columnB] = aggs := Except.ok.inj haggs
  exact ⟨by decide, fun field hfield => by simp at hfield, fun field hfield => by simp at hfield⟩

theorem run_spec_late : ∃ sig out sig' out', (groupJob.run (fun _ => ∅) lateGroup).result = some (.ok (sig, out)) ∧
    EngineOutput groupPlan fewRows sig out ∧
    groupJob.qdef.run noText ⟨2, 0⟩ fewRows.rows = .ok (sig', out') ∧ sig = sig' ∧ out.Perm out' := by
  obtain ⟨sig, out, h⟩ : ∃ sig out, (groupJob.run (fun _ => ∅) lateGroup).result = some (.ok (sig, out)) := ⟨_, _, rfl⟩
  obtain ⟨hout, hlocal⟩ := @run_spec _ _ _ _ groupPlan fewRows _ _ (fun _ _ _ => rfl) rfl rfl _ h
  exact ⟨sig, out, _, _, h, hout, rfl, hlocal faithful_groupPlan noText ⟨2, 0⟩ _ _ rfl⟩

end

end FerroDruid.Msq
