import FerroDruid.Kafka.IndexTask
/-!
# Saved checkpoints and returned segments

A checkpoint tells every later run of the task that the records below it need
not be read again. So each of them has to be in a segment of a report that a
run returned. A run returns its report only at its end, and saves checkpoints
before it: a run that fails after its first checkpoint takes the segments it
has built, and the rows it has buffered, with it.
-/

namespace FerroDruid.Kafka.IndexTask

open Lib List

variable {V : Type} (task : IndexTask V)

/-! ## What a checkpoint promises -/

/-- The row is in a segment of a returned report. -/
def Returned (s : TaskHistory V) (row : ParsedRow V) : Prop :=
  ∃ report ∈ s.returned, ∃ segment ∈ report.segments, row ∈ segment

/-- Every well-formed record of the range below `n` satisfies `P`. -/
def CoveredTo (P : ParsedRow V → Prop) (tp : TopicPartition) (range : OffsetRange) (n : ℤ) : Prop :=
  ∀ rec ∈ task.log tp, range.contains rec.offset = true → rec.offset < n →
    ∀ value, task.parseRecord rec.payload = .ok value → P ⟨tp, rec.offset, value⟩

/-- Every well-formed record of the assigned ranges below the checkpoint. -/
def Covered (P : ParsedRow V → Prop) (cp : Checkpoint) : Prop :=
  ∀ tp range, task.assignment.lookup tp = some range → ∀ n, cp.nextOffset tp = some n → task.CoveredTo P tp range n

/-- Between runs, every checkpoint ever saved is covered by returned reports. -/
def AtLeastOnce (s : TaskHistory V) : Prop :=
  s.running = none → ∀ cp ∈ s.saved, task.Covered (Returned s) cp

variable {task} {P Q : ParsedRow V → Prop}

theorem CoveredTo.imp {tp : TopicPartition} {range : OffsetRange} {n : ℤ} (h : task.CoveredTo P tp range n)
    (hPQ : ∀ row, P row → Q row) : task.CoveredTo Q tp range n :=
  fun rec hr hc hn value hv => hPQ _ (h rec hr hc hn value hv)

theorem Covered.imp {cp : Checkpoint} (h : task.Covered P cp) (hPQ : ∀ row, P row → Q row) : task.Covered Q cp :=
  fun tp range ht n hn => (h tp range ht n hn).imp hPQ

theorem Covered.record {cp : Checkpoint} {tp : TopicPartition} {n : ℤ} (h : task.Covered P cp)
    (hn : ∀ range, task.assignment.lookup tp = some range → task.CoveredTo P tp range n) :
    task.Covered P (cp.record tp n) := by
  intro q range hq m hm
  rcases cp.nextOffset_record tp q n m hm with hm | ⟨rfl, rfl⟩
  · exact h q range hq m hm
  · exact hn range hq

/-! ## The run in progress -/

/-- The row is in the buffer, or in a segment of the report to come. -/
def Held (run : TaskRun V) (row : ParsedRow V) : Prop :=
  row ∈ run.buffer ∨ ∃ segment ∈ run.report.segments, row ∈ segment

/-- The batch is what the log holds next, and nothing before the offset is
missing. -/
structure CursorOk (task : IndexTask V) (P : ParsedRow V → Prop) (c : Cursor) : Prop where
  assigned : task.assignment.lookup c.tp = some c.range
  covered : task.CoveredTo P c.tp c.range c.offset
  batch : ∃ rest, (task.log c.tp).filter (c.offset ≤ ·.offset) = c.batch ++ rest

/-- Nothing that was passed over in the run is missing from `P`. -/
structure RunOk (task : IndexTask V) (P : ParsedRow V → Prop) (run : TaskRun V) : Prop where
  assigned : ∀ e ∈ run.remaining, task.assignment.lookup e.1 = some e.2
  cursor : ∀ c, run.cursor = some c → task.CursorOk P c
  checkpoint : task.Covered P run.checkpoint
  counted : run.rowsSinceCheckpoint ≤ run.report.rowsConsumed

/-- The records at or after the one that is next. -/
theorem filter_next {l rest : List SourceRecord} {rec : SourceRecord} {offset : ℤ}
    (hl : l.Pairwise (·.offset < ·.offset)) (h : l.filter (offset ≤ ·.offset) = rec :: rest) :
    l.filter (rec.offset + 1 ≤ ·.offset) = rest ∧ offset ≤ rec.offset ∧
      ∀ r ∈ l, offset ≤ r.offset → r = rec ∨ rec.offset < r.offset := by
  have hsorted : (rec :: rest).Pairwise (·.offset < ·.offset) := h ▸ hl.filter _
  have hrest := (pairwise_cons.1 hsorted).1
  have hmem : ∀ r, r ∈ l ∧ offset ≤ r.offset ↔ r ∈ rec :: rest := by
    intro r
    rw [← h, mem_filter, decide_eq_true_eq]
  have hrec := (hmem rec).2 mem_cons_self
  refine ⟨?_, hrec.2, fun r hr ho => ?_⟩
  · have hsub : l.filter (rec.offset + 1 ≤ ·.offset) =
        (l.filter (offset ≤ ·.offset)).filter (rec.offset + 1 ≤ ·.offset) := by
      rw [filter_filter]
      refine filter_congr fun r _ => ?_
      rw [← Bool.decide_and, decide_eq_decide]
      omega
    have hself : ¬ decide (rec.offset + 1 ≤ rec.offset) = true := by
      rw [decide_eq_true_eq]
      omega
    rw [hsub, h, filter_cons_of_neg (p := fun r : SourceRecord => decide (rec.offset + 1 ≤ r.offset)) hself]
    refine filter_eq_self.2 fun r hr => ?_
    have := hrest r hr
    rw [decide_eq_true_eq]
    omega
  · rcases mem_cons.1 ((hmem r).1 ⟨hr, ho⟩) with hr | hr
    · exact .inl hr
    · exact .inr (hrest r hr)

/-! ## One step of a run -/

section Step

variable {B : ParsedRow V → Prop} {run run' : TaskRun V} {io : TaskIo}

/-- A row is returned already, or the run holds it. -/
def Safe (B : ParsedRow V → Prop) (run : TaskRun V) (row : ParsedRow V) : Prop := B row ∨ Held run row

/-- What one step may do to a run, given what was returned before it. A
checkpoint is saved only after `checkpoint_every_rows` rows. -/
def StepOk (task : IndexTask V) (B : ParsedRow V → Prop) (run : TaskRun V) : Outcome V → Prop
  | .running run' saved =>
    task.RunOk (Safe B run') run' ∧ (∀ row, Held run row → Held run' row) ∧
      run.report.rowsConsumed ≤ run'.report.rowsConsumed ∧
      ∀ cp ∈ saved, task.Covered (Safe B run') cp ∧ 0 < task.checkpointEveryRows ∧
        task.checkpointEveryRows ≤ run'.report.rowsConsumed
  | .failed _ => True
  | .finished report cp =>
    task.Covered (fun row => B row ∨ ∃ segment ∈ report.segments, row ∈ segment) cp ∧
      ∀ row, Held run row → ∃ segment ∈ report.segments, row ∈ segment

theorem RunOk.imp (h : task.RunOk P run) (hPQ : ∀ row, P row → Q row) : task.RunOk Q run where
  assigned := h.assigned
  cursor := fun c hc => ⟨(h.cursor c hc).assigned, (h.cursor c hc).covered.imp hPQ, (h.cursor c hc).batch⟩
  checkpoint := h.checkpoint.imp hPQ
  counted := h.counted

/-- A flush moves rows from the buffer into the report. -/
theorem flush_eq_some (h : flush io run = some run') :
    (∀ row, Held run' row ↔ Held run row) ∧ run'.remaining = run.remaining ∧ run'.cursor = run.cursor ∧
      run'.checkpoint = run.checkpoint ∧ run'.rowsSinceCheckpoint = run.rowsSinceCheckpoint ∧
      run'.report.rowsConsumed = run.report.rowsConsumed ∧ run'.buffer = [] := by
  unfold flush at h
  split_ifs at h with he hb
  · cases h
    exact ⟨fun _ => Iff.rfl, rfl, rfl, rfl, rfl, rfl, List.isEmpty_iff.1 he⟩
  · cases h
    refine ⟨fun row => ?_, rfl, rfl, rfl, rfl, rfl, rfl⟩
    simp only [Held, not_mem_nil, mem_append, mem_singleton, false_or]
    constructor
    · rintro ⟨segment, hs | rfl, hr⟩
      · exact .inr ⟨segment, hs, hr⟩
      · exact .inl hr
    · rintro (hr | ⟨segment, hs, hr⟩)
      · exact ⟨run.buffer, .inr rfl, hr⟩
      · exact ⟨segment, .inl hs, hr⟩

theorem RunOk.flush (h : task.RunOk (Safe B run) run) (hf : flush io run = some run') :
    task.RunOk (Safe B run') run' := by
  obtain ⟨hheld, hrem, hcur, hcp, hsince, hrows, -⟩ := flush_eq_some hf
  have h' := h.imp (Q := Safe B run') fun row => Or.imp_right (hheld row).2
  exact
    { assigned := hrem ▸ h'.assigned
      cursor := hcur ▸ h'.cursor
      checkpoint := hcp ▸ h'.checkpoint
      counted := by rw [hsince, hrows]; exact h'.counted }

/-- After a record that is held, or that was skipped. -/
theorem settleRecord_ok {before : TaskRun V} (h : task.RunOk (Safe B run) run)
    (hheld : ∀ row, Held before row → Held run row) (hrows : before.report.rowsConsumed ≤ run.report.rowsConsumed) :
    task.StepOk B before (task.settleRecord io run) := by
  unfold settleRecord
  -- The flush, when one is due, changes nothing that counts here.
  have hflushed : ∀ run', (if run.buffer.length ≥ task.maxRowsPerSegment then IndexTask.flush io run else some run) = some run' →
      task.RunOk (Safe B run') run' ∧ (∀ row, Held before row → Held run' row) ∧
        before.report.rowsConsumed ≤ run'.report.rowsConsumed := by
    intro run' hrun'
    split_ifs at hrun'
    · obtain ⟨hiff, -, -, -, -, hr, -⟩ := flush_eq_some hrun'
      exact ⟨h.flush hrun', fun row hrow => (hiff row).2 (hheld row hrow), hr ▸ hrows⟩
    · cases hrun'
      exact ⟨h, hheld, hrows⟩
  split
  · trivial
  · rename_i run' hrun'
    obtain ⟨hok, hkeep, hle⟩ := hflushed run' hrun'
    split_ifs with hdue hsaved
    · have hcount := hok.counted
      refine ⟨⟨hok.assigned, hok.cursor, hok.checkpoint, Nat.zero_le _⟩, hkeep, hle, ?_⟩
      rintro cp ⟨⟩
      exact ⟨hok.checkpoint, hdue.1, hdue.2.trans hcount⟩
    · trivial
    · exact ⟨hok, hkeep, hle, nofun⟩

/-- The next record of the batch: below the window it is passed over, beyond it
the partition ends, and inside it is held or not well formed. -/
theorem consume_ok {c : Cursor} {rec : SourceRecord} {rest : List SourceRecord} (h : task.RunOk (Safe B run) run)
    (hc : run.cursor = some c) (hb : c.batch = rec :: rest) : task.StepOk B run (task.consume io run c rec rest) := by
  obtain ⟨hassigned, hcovered, more, hbatch⟩ := h.cursor c hc
  rw [hb, cons_append] at hbatch
  obtain ⟨hnext, hle, hleast⟩ := filter_next (task.ascending c.tp) hbatch
  -- What is below the next offset: what was below the old one, and the record.
  have hadvance : ∀ {P : ParsedRow V → Prop}, (∀ row, Safe B run row → P row) →
      (c.range.contains rec.offset = true → ∀ value, task.parseRecord rec.payload = .ok value → P ⟨c.tp, rec.offset, value⟩) →
      task.CoveredTo P c.tp c.range (rec.offset + 1) := by
    intro P hP hrec r hr hin hlt value hv
    by_cases hold : r.offset < c.offset
    · exact hP _ (hcovered r hr hin hold value hv)
    · rcases hleast r hr (not_lt.1 hold) with rfl | hgt
      · exact hrec hin value hv
      · omega
  have hcursor : ∀ {P : ParsedRow V → Prop}, task.CoveredTo P c.tp c.range (rec.offset + 1) →
      task.CursorOk P { c with offset := rec.offset + 1, batch := rest } := fun hcov => ⟨hassigned, hcov, more, hnext⟩
  have hrecord : ∀ {P : ParsedRow V → Prop} {n : ℤ}, (∀ row, Safe B run row → P row) → task.CoveredTo P c.tp c.range n →
      task.Covered P (run.checkpoint.record c.tp n) := by
    intro P n hP hcov
    refine (h.checkpoint.imp hP).record fun range hr => ?_
    cases hassigned.symm.trans hr
    exact hcov
  unfold consume
  split_ifs with hlow hout
  · have hnot : c.range.contains rec.offset = false := by simp [OffsetRange.contains, hlow]
    refine ⟨⟨h.assigned, ?_, h.checkpoint, h.counted⟩, fun _ => id, le_rfl, nofun⟩
    rintro c' ⟨⟩
    exact hcursor (hadvance (fun _ => id) fun hin => by rw [hnot] at hin; cases hin)
  · split
    · rename_i e he
      refine ⟨⟨h.assigned, nofun, hrecord (fun _ => id) ?_, h.counted⟩, fun _ => id, le_rfl, nofun⟩
      -- The record is beyond the end, and so is everything after it.
      have hend : e ≤ rec.offset := by simpa [OffsetRange.contains, hlow, he] using hout
      intro r hr hin hlt value hv
      refine hcovered r hr hin ?_ value hv
      by_contra hge
      rcases hleast r hr (not_lt.1 hge) with rfl | hgt <;> omega
    · exact ⟨⟨h.assigned, nofun, h.checkpoint, h.counted⟩, fun _ => id, le_rfl, nofun⟩
  · split
    · rename_i value hv
      have hmono : ∀ row, Safe B run row → Safe B (advancePast (push run ⟨c.tp, rec.offset, value⟩) c rec rest) row :=
        fun row => Or.imp_right (Or.imp_left (mem_append_left _))
      have hcov : task.CoveredTo (Safe B (advancePast (push run ⟨c.tp, rec.offset, value⟩) c rec rest)) c.tp c.range
          (rec.offset + 1) := by
        refine hadvance hmono fun _ value' hv' => ?_
        cases hv.symm.trans hv'
        exact .inr (.inl (mem_append_right _ mem_cons_self))
      refine settleRecord_ok ⟨h.assigned, ?_, hrecord hmono hcov, Nat.succ_le_succ h.counted⟩
        (fun row hrow => hrow.imp_left (mem_append_left _)) (Nat.le_succ _)
      rintro c' ⟨⟩
      exact hcursor hcov
    · rename_i bad hv
      split
      · trivial
      · have hcov : task.CoveredTo (Safe B run) c.tp c.range (rec.offset + 1) :=
          hadvance (fun _ => id) fun _ value hv' => by cases hv.symm.trans hv'
        refine settleRecord_ok ⟨h.assigned, ?_, hrecord (fun _ => id) hcov, h.counted⟩ (fun _ => id) le_rfl
        rintro c' ⟨⟩
        exact hcursor hcov

theorem finish_ok (h : task.RunOk (Safe B run) run) : task.StepOk B run (finish io run) := by
  unfold finish
  split
  · trivial
  · rename_i run' hrun'
    obtain ⟨hheld, -, -, -, -, -, hempty⟩ := flush_eq_some hrun'
    have hsegments : ∀ row, Held run' row → ∃ segment ∈ run'.report.segments, row ∈ segment := by
      rintro row (hr | hr)
      · rw [hempty] at hr
        cases hr
      · exact hr
    split_ifs
    · exact ⟨(h.flush hrun').checkpoint.imp fun row => Or.imp_right (hsegments row),
        fun row hrow => hsegments row ((hheld row).2 hrow)⟩
    · trivial

theorem resumeOffset_covered {tp : TopicPartition} {range : OffsetRange} {cp : Checkpoint} (h : task.Covered P cp)
    (ht : task.assignment.lookup tp = some range) : task.CoveredTo P tp range (resumeOffset tp range cp) := by
  intro rec hr hin hlt value hv
  have hstart : range.start ≤ rec.offset := by
    by_contra hlow
    simp [OffsetRange.contains, not_le.1 hlow] at hin
  unfold resumeOffset at hlt
  split at hlt
  · rename_i n hn
    exact h tp range ht n hn rec hr hin (by omega) value hv
  · omega

theorem advance_ok (h : task.RunOk (Safe B run) run) : task.StepOk B run (task.advance io run) := by
  have hleave : task.StepOk B run (.running { run with cursor := none } none) :=
    ⟨⟨h.assigned, nofun, h.checkpoint, h.counted⟩, fun _ => id, le_rfl, nofun⟩
  unfold advance
  split
  · rename_i c hc
    split
    · rename_i rec rest hb
      exact consume_ok h hc hb
    · split_ifs
      · exact hleave
      · split
        · trivial
        · rename_i n hn
          split_ifs
          · exact hleave
          · refine ⟨⟨h.assigned, ?_, h.checkpoint, h.counted⟩, fun _ => id, le_rfl, nofun⟩
            rintro c' ⟨⟩
            exact ⟨(h.cursor c hc).assigned, (h.cursor c hc).covered, _, (take_append_drop _ _).symm⟩
  · split
    · rename_i tp range rest hrem
      split
      · trivial
      · have ht := h.assigned (tp, range) (hrem ▸ mem_cons_self)
        refine ⟨⟨fun e he => h.assigned e (hrem ▸ mem_cons_of_mem _ he), ?_, h.checkpoint, h.counted⟩,
          fun _ => id, le_rfl, nofun⟩
        rintro c' ⟨⟩
        exact ⟨ht, resumeOffset_covered h.checkpoint ht, _, rfl⟩
    · exact finish_ok h

theorem start_ok {loaded : Option Checkpoint} (h : ∀ cp ∈ loaded, task.Covered B cp) :
    task.RunOk (Safe B (task.start loaded)) (task.start loaded) where
  assigned := by
    intro e he
    obtain ⟨e', he', rfl⟩ := mem_map.1 he
    exact AList.mem_lookup_iff.2 he'
  cursor := nofun
  checkpoint := by
    cases loaded with
    | none => exact fun tp range _ n hn => by cases hn
    | some cp => exact (h cp rfl).imp fun _ => .inl
  counted := le_rfl

end Step

/-! ## Every sequence of runs -/

/-- The invariant: a saved checkpoint is covered by what was returned and what
the run in progress holds, and before the run's first checkpoint by what was
returned alone. -/
structure Inv (task : IndexTask V) (s : TaskHistory V) : Prop where
  stored : ∀ cp ∈ s.stored, cp ∈ s.saved
  idle : task.AtLeastOnce s
  running : ∀ run, s.running = some run →
    task.RunOk (Safe (Returned s) run) run ∧ (∀ cp ∈ s.saved, task.Covered (Safe (Returned s) run) cp) ∧
      (task.checkpointEveryRows = 0 ∨ run.report.rowsConsumed < task.checkpointEveryRows →
        ∀ cp ∈ s.saved, task.Covered (Returned s) cp)

/-- A run that has consumed `checkpoint_every_rows` well-formed records does not
fail. -/
def NoLateFailure (task : IndexTask V) (s : TaskHistory V) : TaskInput → Prop
  | .run _ => True
  | .next io =>
    ∀ run ∈ s.running, (task.advance io run).isFailed = true →
      task.checkpointEveryRows = 0 ∨ run.report.rowsConsumed < task.checkpointEveryRows

theorem step_inv {s : TaskHistory V} {i : TaskInput} (hi : task.NoLateFailure s i) (h : task.Inv s) :
    task.Inv (task.step s i) := by
  cases i with
  | run loaded =>
    unfold step
    dsimp only
    split
    · exact h
    · rename_i hnone
      split_ifs
      · have hsaved := h.idle hnone
        refine ⟨h.stored, nofun, ?_⟩
        rintro run ⟨⟩
        exact ⟨start_ok fun cp hcp => hsaved cp (h.stored cp hcp), fun cp hcp => (hsaved cp hcp).imp fun _ => .inl,
          fun _ => hsaved⟩
      · exact h
  | next io =>
    unfold step
    dsimp only
    split
    · exact h
    · rename_i run hrun
      obtain ⟨hok, hsaved, hearly⟩ := h.running run hrun
      have hstep := @advance_ok V task _ run io hok
      have hlate := hi run hrun
      generalize task.advance io run = outcome at hstep hlate ⊢
      cases outcome with
      | running run' saved =>
        obtain ⟨hok', hheld, hrows, hdue⟩ := hstep
        have hmono : ∀ row, Safe (Returned s) run row → Safe (Returned s) run' row := fun row => Or.imp_right (hheld row)
        cases saved with
        | none =>
          refine ⟨h.stored, nofun, ?_⟩
          rintro r ⟨⟩
          exact ⟨hok', fun cp hcp => (hsaved cp hcp).imp hmono, fun hlt => hearly (by omega)⟩
        | some cp =>
          obtain ⟨hcov, hpos, hge⟩ := hdue cp rfl
          refine ⟨?_, nofun, ?_⟩
          · rintro cp' ⟨⟩
            exact mem_append_right _ mem_cons_self
          · rintro r ⟨⟩
            refine ⟨hok', fun cp' hcp' => ?_, fun hlt => by omega⟩
            rcases mem_append.1 hcp' with hcp' | hcp'
            · exact (hsaved cp' hcp').imp hmono
            · exact mem_singleton.1 hcp' ▸ hcov
      | failed e =>
        exact ⟨h.stored, fun _ => hearly (hlate rfl), nofun⟩
      | finished report cp =>
        obtain ⟨hcov, hheld⟩ := hstep
        have hreturned : ∀ row, Returned s row ∨ (∃ segment ∈ report.segments, row ∈ segment) →
            ∃ r ∈ s.returned ++ [report], ∃ segment ∈ r.segments, row ∈ segment := by
          rintro row (⟨r, hr, hrow⟩ | hrow)
          · exact ⟨r, mem_append_left _ hr, hrow⟩
          · exact ⟨report, mem_append_right _ mem_cons_self, hrow⟩
        refine ⟨?_, ?_, nofun⟩
        · rintro cp' ⟨⟩
          exact mem_append_right _ mem_cons_self
        · intro _ cp' hcp'
          rcases mem_append.1 hcp' with hcp' | hcp'
          · exact (hsaved cp' hcp').imp fun row hrow => hreturned row (hrow.imp_right (hheld row))
          · exact mem_singleton.1 hcp' ▸ hcov.imp hreturned

/-- In every sequence of runs of a task in which no run fails after it has
consumed `checkpoint_every_rows` well-formed records, every well-formed assigned
record below a checkpoint that was ever saved is in a returned report. -/
theorem at_least_once (task : IndexTask V) (is : List TaskInput)
    (h : Guarded task.step task.NoLateFailure .empty is) :
    ∀ js, js <+: is → task.AtLeastOnce (js.foldl task.step .empty) := by
  intro js hjs
  refine Inv.idle ?_
  exact (h.shorten hjs).inv task.Inv (fun s i => step_inv) ⟨nofun, fun _ => nofun, nofun⟩

instance (s : TaskHistory V) : ∀ i, Decidable (task.NoLateFailure s i)
  | .run _ => .isTrue trivial
  | .next _ => inferInstanceAs (Decidable (∀ run ∈ s.running, _ → _))

/-! ## Two tasks -/

def partitionZero : TopicPartition := ⟨"topic", 0⟩

/-- Three records, of which the last is `last`, and a checkpoint every two rows.
The parser knows the empty object only. -/
def threeRecords (last : List UInt8) : IndexTask Unit where
  maxRowsPerSegment := 5000000
  checkpointEveryRows := 2
  assignment := AList.insert partitionZero ⟨0, some 3⟩ ∅
  badRecordPolicy := .fail
  fromSlice := fun bytes => if bytes = [0x7b, 0x7d] then .ok () else .error "expected value"
  log := fun tp =>
    if tp = partitionZero then
      [⟨tp, 0, [0x7b, 0x7d]⟩, ⟨tp, 1, [0x7b, 0x7d]⟩, ⟨tp, 2, last⟩]
    else []
  ascending := by
    intro tp
    split_ifs
    · simp
    · simp

def goodIo : TaskIo := ⟨some 3, some 256, true, true⟩

/-- A run that cannot reach the source, then one that completes. -/
def retriedRun : List TaskInput :=
  [.run true, .next { goodIo with high := none }, .run true, .next goodIo, .next goodIo, .next goodIo, .next goodIo,
    .next goodIo, .next goodIo, .next goodIo]

theorem at_least_once_retried :
    (retriedRun.foldl (threeRecords [0x7b, 0x7d]).step .empty).returned.map (·.rowsConsumed) = [3] ∧
      ∀ js, js <+: retriedRun →
        (threeRecords [0x7b, 0x7d]).AtLeastOnce (js.foldl (threeRecords [0x7b, 0x7d]).step .empty) :=
  ⟨by decide +kernel, at_least_once _ retriedRun (by decide +kernel)⟩

/-- The third record is malformed, after a checkpoint at two rows. -/
def lateFailure : List TaskInput := [.run true, .next goodIo, .next goodIo, .next goodIo, .next goodIo, .next goodIo]

/-- The saved checkpoint is 2, and no report was ever returned. -/
theorem late_failure_loses :
    ¬ (threeRecords [0x78]).AtLeastOnce (lateFailure.foldl (threeRecords [0x78]).step .empty) := by
  intro h
  have hcov := h rfl ⟨AList.insert partitionZero 2 ∅⟩ (mem_of_getElem? (i := 0) rfl) partitionZero ⟨0, some 3⟩ rfl 2 rfl
  obtain ⟨report, hr, -⟩ := hcov ⟨partitionZero, 0, [0x7b, 0x7d]⟩ (by decide) (by decide) (by decide) () rfl
  cases hr

end FerroDruid.Kafka.IndexTask
