import FerroDruid.Lib.Precedence
import FerroDruid.Msq.Execute
import Mathlib.Algebra.BigOperators.Fin
/-!
# A stage graph as equations

The order in which `topological_order` takes the stages comes from counters of the
inputs that a stage still waits for. It exists if no stage feeds itself, and running
the stages in it solves one equation for each stage.
-/

namespace FerroDruid.Msq.QueryDefinition

open Lib Relation List

variable {q : QueryDefinition} {placed ready indegree : List ℕ}

def inputsOf (q : QueryDefinition) (i : ℕ) : List ℕ := (q.stages[i]?.map (·.inputs)).getD []

/-- One stage is an input of the other. -/
def Feeds (q : QueryDefinition) (dep i : ℕ) : Prop := dep ∈ q.inputsOf i

/-- Every stage has the number of its place. -/
def Numbered (q : QueryDefinition) : Prop := ∀ (i : ℕ) (stage : StageDefinition), q.stages[i]? = some stage → stage.stageNumber = i

variable {i : ℕ}

theorem inputsOf_eq {stage : StageDefinition} (h : q.stages[i]? = some stage) : q.inputsOf i = stage.inputs := by
  simp [inputsOf, h]

theorem Feeds.lt {dep : ℕ} (h : q.Feeds dep i) : i < q.stages.length := by
  by_contra hi
  rw [Feeds, inputsOf, getElem?_eq_none (not_lt.1 hi)] at h
  cases h

theorem Numbered.map_stages (hnum : q.Numbered) {β : Type} (f : ℕ → List ℕ → β) :
    (q.stages.map fun st => f st.stageNumber st.inputs) = (List.range q.stages.length).map fun i => f i (q.inputsOf i) := by
  apply ext_getElem
  · simp
  · intro i hi hi'
    rw [length_map] at hi
    have hget := getElem?_eq_getElem hi
    rw [getElem_map, getElem_map, getElem_range, hnum i _ hget, inputsOf_eq hget]

theorem sum_single {n : ℕ} (f : ℕ → ℕ) (hf : n ≤ i → f i = 0) : ((List.range n).map fun j => if j = i then f j else 0).sum = f i := by
  rw [← sum_toFinset _ nodup_range, toFinset_range, Finset.sum_ite_eq']
  split_ifs with hi
  · rfl
  · rw [hf (by simpa using hi)]

theorem inputsOf_eq_nil (hi : q.stages.length ≤ i) : q.inputsOf i = [] := by
  rw [inputsOf, getElem?_eq_none hi]
  rfl

theorem Numbered.count_successors (hnum : q.Numbered) (dep i : ℕ) : (q.successors dep).count i = (q.inputsOf i).count dep := by
  have hstages := hnum.map_stages fun j inputs => (inputs.filter (· = dep)).map fun _ => j
  rw [successors, flatMap_def, hstages, count_flatten, List.map_map, ← sum_single (n := q.stages.length) (i := i) fun j => (q.inputsOf j).count dep]
  · apply congrArg List.sum
    apply map_congr_left
    intro j _
    rw [Function.comp_apply, map_const', count_replicate, List.count, countP_eq_length_filter]
    simp only [beq_iff_eq]
    rfl
  · intro hi
    rw [inputsOf_eq_nil hi, count_nil]

theorem Numbered.getD_indegrees (hnum : q.Numbered) (i : ℕ) : q.indegrees.getD i 0 = (q.inputsOf i).length := by
  rcases lt_or_ge i q.stages.length with hi | hi
  · have hstages := hnum.map_stages fun j inputs => if j = i then inputs.length else 0
    rw [indegrees, getD_eq_getElem?_getD, getElem?_map, getElem?_range hi, Option.map_some, Option.getD_some, hstages]
    exact sum_single (fun j => (q.inputsOf j).length) fun h => absurd hi (not_lt.2 h)
  · rw [inputsOf_eq_nil hi, getD_eq_default _ _ (by simpa [indegrees] using hi), length_nil]

theorem perm_insertSorted (v : List ℕ) (x : ℕ) : (insertSorted v x).Perm (x :: v) := by
  exact perm_middle.trans (List.Perm.of_eq (by rw [takeWhile_append_dropWhile]))

theorem perm_foldl_insertSorted (xs v : List ℕ) : (xs.foldl insertSorted v).Perm (xs ++ v) := by
  induction xs generalizing v with
  | nil => exact List.Perm.refl _
  | cons x xs ih =>
    exact (ih _).trans (((perm_insertSorted v x).append_left xs).trans perm_middle)

/-- A successor is ready once it has been released as often as it waits. -/
theorem foldl_release (succs : List ℕ) (st : List ℕ × List ℕ) (hle : ∀ i, succs.count i ≤ st.1.getD i 0) :
    (∀ i, (succs.foldl release st).1.getD i 0 + succs.count i = st.1.getD i 0) ∧
      ∀ i, (succs.foldl release st).2.count i = st.2.count i + if 0 < succs.count i ∧ succs.count i = st.1.getD i 0 then 1 else 0 := by
  induction succs generalizing st with
  | nil => simp
  | cons succ succs ih =>
    have hpos : 0 < st.1.getD succ 0 := lt_of_lt_of_le (by simp) (hle succ)
    have hdegree : ∀ i, (release st succ).1.getD i 0 + (if succ = i then 1 else 0) = st.1.getD i 0 := by
      intro i
      simp only [release, getD_eq_getElem?_getD, getElem?_modify] at hpos ⊢
      split_ifs with hi
      · subst hi
        cases h : st.1[succ]? with
        | none => simp [h] at hpos
        | some d =>
          simp [h] at hpos ⊢
          omega
      · simp
    have hready : ∀ i, (release st succ).2.count i = st.2.count i + if succ = i ∧ st.1.getD i 0 = 1 then 1 else 0 := by
      intro i
      have hsucc := hdegree succ
      rw [if_pos rfl] at hsucc
      simp only [release] at hsucc ⊢
      by_cases hi : succ = i
      · subst hi
        split_ifs
        · rw [count_append, count_singleton_self]
        · omega
        · omega
        · rfl
      · have hout : List.count i [succ] = 0 := by simpa [count_singleton] using hi
        rw [if_neg (fun h : succ = i ∧ _ => hi h.1), apply_ite (List.count i), count_append, hout, Nat.add_zero, ite_self]
    have hcons : ∀ i, (succ :: succs).count i = succs.count i + if succ = i then 1 else 0 := by
      intro i
      rw [count_cons]
      simp only [beq_iff_eq]
    obtain ⟨hdegrees, hcounts⟩ := ih (release st succ) (by
      intro i
      have hi := hle i
      rw [hcons] at hi
      have := hdegree i
      omega)
    rw [foldl_cons]
    constructor
    · intro i
      have := hdegrees i
      have := hdegree i
      rw [hcons]
      omega
    · intro i
      rw [hcounts i, hready i, hcons]
      have hi := hdegree i
      by_cases h : succ = i
      · subst h
        have hsucc := hle succ
        rw [hcons, if_pos rfl] at hsucc
        rw [if_pos rfl] at hi
        split_ifs <;> omega
      · simp only [h, if_false, false_and, Nat.add_zero] at hi ⊢
        rw [hi]

/-- What the counters are while the stages are taken. -/
structure Taking (q : QueryDefinition) (placed ready indegree : List ℕ) : Prop where
  nodup : (placed ++ ready).Nodup
  bounded : ∀ i ∈ placed ++ ready, i < q.stages.length
  waits : ∀ i, indegree.getD i 0 = (q.inputsOf i).countP (· ∉ placed)
  free : ∀ i < q.stages.length, i ∉ placed → (i ∈ ready ↔ indegree.getD i 0 = 0)
  respects : Respects q.Feeds placed

theorem Numbered.taking (hnum : q.Numbered) : Taking q [] ((List.range q.stages.length).filter fun i => q.indegrees.getD i 0 = 0) q.indegrees where
  nodup := nodup_range.filter _
  bounded := fun i hi => mem_range.1 (mem_filter.1 hi).1
  waits := fun i => by
    rw [hnum.getD_indegrees, eq_comm, countP_eq_length]
    simp
  free := fun i hi _ => by simp [hi]
  respects := respects_nil

theorem countP_concat (inputs placed : List ℕ) {next : ℕ} (hnext : next ∉ placed) :
    inputs.countP (· ∉ placed ++ [next]) + inputs.count next = inputs.countP (· ∉ placed) := by
  induction inputs with
  | nil => rfl
  | cons dep inputs ih =>
    simp only [countP_cons, count_cons, mem_append, mem_singleton] at ih ⊢
    by_cases hdep : dep = next
    · subst hdep
      simp [hnext] at ih ⊢
      omega
    · simp [hdep] at ih ⊢
      omega

/-- Taking the next stage that is ready, and releasing the ones it feeds. -/
theorem Taking.step (hnum : q.Numbered) {next : ℕ} (h : Taking q placed (next :: ready) indegree) :
    Taking q (placed ++ [next]) (((q.successors next).foldl release (indegree, [])).2.foldl insertSorted ready)
      ((q.successors next).foldl release (indegree, [])).1 := by
  have hnext : next ∉ placed := fun hin => (nodup_append.1 h.nodup).2.2 next hin next mem_cons_self rfl
  have hready : ∀ i ∈ next :: ready, indegree.getD i 0 = 0 := by
    intro i hi
    refine (h.free i (h.bounded i (mem_append_right _ hi)) ?_).1 hi
    exact fun hin => (nodup_append.1 h.nodup).2.2 i hin i hi rfl
  have hplaced : ∀ i ∈ placed, indegree.getD i 0 = 0 := by
    intro i hi
    rw [h.waits, countP_eq_zero]
    intro dep hdep
    simpa using h.respects.mem (show q.Feeds dep i from hdep) hi
  have hcount : ∀ i, (q.inputsOf i).countP (· ∉ placed ++ [next]) + (q.successors next).count i = indegree.getD i 0 := by
    intro i
    rw [hnum.count_successors, h.waits, countP_concat _ _ hnext]
  obtain ⟨hdegrees, hcounts⟩ := foldl_release (q.successors next) (indegree, []) fun i => Nat.le.intro ((Nat.add_comm _ _).trans (hcount i))
  dsimp only at hdegrees hcounts
  set out := (q.successors next).foldl release (indegree, []) with hout
  have hmem : ∀ i, i ∈ out.2 ↔ 0 < (q.successors next).count i ∧ (q.successors next).count i = indegree.getD i 0 := by
    intro i
    rw [← count_pos_iff, hcounts i, count_nil]
    split_ifs with hi
    · exact ⟨fun _ => hi, fun _ => Nat.one_pos⟩
    · exact ⟨fun h => absurd h (Nat.lt_irrefl 0), fun h => absurd h hi⟩
  have hperm := perm_foldl_insertSorted out.2 ready
  have hnodup : out.2.Nodup := by
    rw [nodup_iff_count_le_one]
    intro i
    rw [hcounts i, count_nil]
    split_ifs <;> omega
  -- so what is newly ready was neither taken nor ready
  have hfresh : ∀ i ∈ out.2, 0 < indegree.getD i 0 := by
    intro i hi
    obtain ⟨hpos, heq⟩ := (hmem i).1 hi
    omega
  have hall : (placed ++ [next] ++ out.2.foldl insertSorted ready).Perm (out.2 ++ (placed ++ next :: ready)) := by
    rw [append_assoc, singleton_append]
    calc List.Perm _ (placed ++ next :: (out.2 ++ ready)) := (hperm.cons next).append_left placed
      List.Perm _ (placed ++ (out.2 ++ next :: ready)) := perm_middle.symm.append_left placed
      List.Perm _ _ := perm_append_comm_assoc _ _ _
  exact {
    nodup := by
      rw [hall.nodup_iff, nodup_append]
      refine ⟨hnodup, h.nodup, ?_⟩
      rintro i hi j hj rfl
      have := hfresh i hi
      rcases mem_append.1 hj with hj | hj
      · rw [hplaced i hj] at this
        omega
      · rw [hready i hj] at this
        omega
    bounded := fun i hi => by
      rcases mem_append.1 (hall.subset hi) with hi | hi
      · have hpos := ((hmem i).1 hi).1
        rw [hnum.count_successors, count_pos_iff] at hpos
        exact Feeds.lt hpos
      · exact h.bounded i hi
    waits := fun i => by
      have := hdegrees i
      have := hcount i
      omega
    free := fun i hi hin => by
      rw [hperm.mem_iff, mem_append, hmem i]
      have := hdegrees i
      have hfree := h.free i hi (fun h => hin (mem_append_left _ h))
      rw [mem_cons, or_iff_right (fun h => hin (by simp [h]))] at hfree
      rw [hfree]
      omega
    respects := by
      apply h.respects.concat
      intro dep hdep
      have hzero := hready next mem_cons_self
      rw [h.waits, countP_eq_zero] at hzero
      simpa using hzero dep hdep
  }

theorem Numbered.kahn_spec (hnum : q.Numbered) {fuel : ℕ} (hfuel : placed.length + fuel = q.stages.length) (h : Taking q placed ready indegree) :
    ∃ left, Taking q (placed ++ q.kahn fuel ready indegree) [] left := by
  induction fuel generalizing placed ready indegree with
  | zero =>
    have hle : (placed ++ ready).length ≤ q.stages.length := by
      rw [← length_range (n := q.stages.length)]
      exact h.nodup.length_le_of_subset fun i hi => mem_range.2 (h.bounded i hi)
    have hnil : ready = [] := eq_nil_of_length_eq_zero (by rw [length_append] at hle; omega)
    subst hnil
    exact ⟨indegree, by simpa [kahn] using h⟩
  | succ fuel ih =>
    cases ready with
    | nil => exact ⟨indegree, by simpa [kahn] using h⟩
    | cons next ready =>
      obtain ⟨left, hleft⟩ := ih (by rw [length_append, length_singleton]; omega) (h.step hnum)
      rw [append_assoc] at hleft
      exact ⟨left, hleft⟩

/-- What is taken cannot be continued, and it is the order if it has every stage. -/
theorem Numbered.taken (hnum : q.Numbered) : ∃ order : List ℕ, order.Subperm (List.range q.stages.length) ∧ Respects q.Feeds order ∧
    (∀ i ∈ List.range q.stages.length, i ∉ order → ∃ dep, q.Feeds dep i ∧ dep ∉ order) ∧
    ∀ order', q.topologicalOrder = .ok order' ↔
      (∀ dep i, q.Feeds dep i → dep < q.stages.length) ∧ List.range q.stages.length ⊆ order ∧ order' = order := by
  obtain ⟨left, hleft⟩ := hnum.kahn_spec (Nat.zero_add q.stages.length) hnum.taking
  set order := q.kahn q.stages.length ((List.range q.stages.length).filter fun i => q.indegrees.getD i 0 = 0) q.indegrees with horder
  have hnodup : order.Nodup := by simpa using hleft.nodup
  have hbounded : order ⊆ List.range q.stages.length := fun i hi => mem_range.2 (hleft.bounded i (by simpa using hi))
  have hsubperm : order.Subperm (List.range q.stages.length) := hnodup.subperm hbounded
  have hlength : order.length = q.stages.length ↔ List.range q.stages.length ⊆ order := by
    constructor
    · intro h
      exact (hsubperm.perm_of_length_le (by rw [length_range, h])).symm.subset
    · intro h
      have hge := nodup_range.length_le_of_subset h
      have hle := hsubperm.length_le
      rw [length_range] at hge hle
      omega
  have hrange : (q.stages.any fun st => st.inputs.any (q.stages.length ≤ ·)) = false ↔ ∀ dep i, q.Feeds dep i → dep < q.stages.length := by
    rw [any_eq_false]
    constructor
    · intro h dep i hfeeds
      have hget := getElem?_eq_getElem (Feeds.lt hfeeds)
      rw [Feeds, inputsOf_eq hget] at hfeeds
      have hin := h _ (mem_of_getElem? hget)
      simp only [any_eq_true, decide_eq_true_eq, not_exists, not_and, not_le] at hin
      exact hin dep hfeeds
    · intro h stage hstage
      obtain ⟨i, hget⟩ := getElem?_of_mem hstage
      simp only [any_eq_true, decide_eq_true_eq, not_exists, not_and, not_le]
      intro dep hdep
      exact h dep i (by rwa [Feeds, inputsOf_eq hget])
  refine ⟨order, hsubperm, hleft.respects, ?_, ?_⟩
  · -- a stage that is left out waits for one that is left out
    intro i hi hin
    have hwaits := (hleft.free i (mem_range.1 hi) hin).not.1 not_mem_nil
    rw [hleft.waits, ← ne_eq, ← Nat.pos_iff_ne_zero, countP_pos_iff] at hwaits
    obtain ⟨dep, hdep, hout⟩ := hwaits
    exact ⟨dep, hdep, by simpa using hout⟩
  · intro order'
    rw [← hrange, ← hlength]
    simp only [topologicalOrder, ← horder]
    split_ifs with hany hlen
    · simp [hany]
    · simp [hlen]
    · simp [hany, not_not.1 hlen, eq_comm]

theorem Numbered.order_spec (hnum : q.Numbered) {order : List ℕ} (h : q.topologicalOrder = .ok order) :
    order.Perm (List.range q.stages.length) ∧ Respects q.Feeds order := by
  obtain ⟨taken, hsubperm, hrespects, -, hok⟩ := hnum.taken
  obtain ⟨-, hall, rfl⟩ := (hok order).1 h
  exact ⟨hsubperm.perm_of_length_le (nodup_range.length_le_of_subset hall), hrespects⟩

theorem Numbered.exists_order_iff (hnum : q.Numbered) : (∃ order, q.topologicalOrder = .ok order) ↔
    (∀ dep i, q.Feeds dep i → dep < q.stages.length) ∧ ∀ i < q.stages.length, ¬ TransGen q.Feeds i i := by
  obtain ⟨taken, -, hrespects, hstuck, hok⟩ := hnum.taken
  have hcomplete (hfeeds : ∀ dep i, q.Feeds dep i → dep < q.stages.length) :=
    hrespects.complete_iff (fun a b hab _ => mem_range.2 (hfeeds a b hab)) hstuck
  simp only [hok]
  constructor
  · rintro ⟨order, hfeeds, hall, -⟩
    exact ⟨hfeeds, fun i hi => (hcomplete hfeeds).1 hall i (mem_range.2 hi)⟩
  · rintro ⟨hfeeds, hacyclic⟩
    exact ⟨taken, hfeeds, (hcomplete hfeeds).2 fun i hi => hacyclic i (mem_range.1 hi), rfl⟩

/-- The stages have an order exactly if their inputs are stages and none feeds itself;
it takes every stage once, after the stages that feed it. -/
theorem topologicalOrder_ok_iff (hnum : q.Numbered) :
    (∀ order, q.topologicalOrder = .ok order → order.Perm (List.range q.stages.length) ∧ Respects q.Feeds order) ∧
      ((∃ order, q.topologicalOrder = .ok order) ↔
        (∀ dep i, q.Feeds dep i → dep < q.stages.length) ∧ ∀ i < q.stages.length, ¬ TransGen q.Feeds i i) :=
  ⟨fun _ => hnum.order_spec, hnum.exists_order_iff⟩

/-- Three stages, of which the first is fed by the last. -/
def backwards : QueryDefinition :=
  ⟨[⟨0, [2], .shuffle, ⟨[]⟩, .none⟩, ⟨1, [], .shuffle, ⟨[]⟩, .none⟩, ⟨2, [1], .shuffle, ⟨[]⟩, .none⟩], 0⟩

theorem topologicalOrder_ok_iff_backwards : backwards.topologicalOrder = .ok [1, 2, 0] ∧ [1, 2, 0].Perm (List.range 3) ∧
    Respects backwards.Feeds [1, 2, 0] := by
  have hnum : backwards.Numbered := by
    intro i stage hget
    rcases i with _ | _ | _ | i
    · obtain rfl := Option.some.inj hget
      rfl
    · obtain rfl := Option.some.inj hget
      rfl
    · obtain rfl := Option.some.inj hget
      rfl
    · cases hget
  exact ⟨rfl, (topologicalOrder_ok_iff hnum).1 [1, 2, 0] rfl⟩

/-! ## Running the stages -/

variable {text : JsonText} {config : EngineConfig} {input : List Row} {order : List ℕ} {outputs out : List (Option (List Row))} {rows : ℕ → List Row}

/-- The rows that flow into a stage if the stages put out the rows given. -/
def inflow (input : List Row) (rows : ℕ → List Row) (stage : StageDefinition) : List Row :=
  if stage.inputs = [] then input else (stage.inputs.map rows).flatten

/-- Every stage turns what its inputs put out into what it puts out. -/
def Solves (q : QueryDefinition) (text : JsonText) (config : EngineConfig) (input : List Row) (rows : ℕ → List Row) : Prop :=
  ∀ i (stage : StageDefinition), q.stages[i]? = some stage → q.runStage text config stage (inflow input rows stage) = .ok (rows i)

theorem inflow_congr {rows' : ℕ → List Row} {stage : StageDefinition} (h : ∀ dep ∈ stage.inputs, rows dep = rows' dep) :
    inflow input rows stage = inflow input rows' stage := by
  rw [inflow, inflow, map_congr_left h]

variable {stageNo : ℕ}

theorem Respects.earlier {stage : StageDefinition} (h : Respects q.Feeds (placed ++ stageNo :: order)) (hget : q.stages[stageNo]? = some stage) :
    ∀ dep ∈ stage.inputs, dep ∈ placed := by
  intro dep hdep
  exact h placed stageNo order rfl dep (by rwa [Feeds, inputsOf_eq hget])

def rowsOf (outputs : List (Option (List Row))) (i : ℕ) : List Row := (outputs.getD i none).getD []

theorem rowsOf_set_ne (h : stageNo ≠ i) (ran : Option (List Row)) : rowsOf (outputs.set stageNo ran) i = rowsOf outputs i := by
  rw [rowsOf, rowsOf, getD_eq_getElem?_getD, getD_eq_getElem?_getD, getElem?_set_ne h]

theorem rowsOf_set_self (h : stageNo < outputs.length) (ran : List Row) : rowsOf (outputs.set stageNo (some ran)) stageNo = ran := by
  rw [rowsOf, getD_eq_getElem?_getD, getElem?_set_self h]
  rfl

/-- No stage changes what another put out. -/
theorem runStages_keep (h : q.runStages text config input order outputs = .ok out) (hi : i ∉ order) : rowsOf out i = rowsOf outputs i := by
  induction order generalizing outputs with
  | nil => rw [Except.ok.inj h]
  | cons stageNo order ih =>
    rw [mem_cons, not_or] at hi
    rw [runStages] at h
    split at h
    · cases h
    · obtain ⟨ran, -, h⟩ := bind_eq_ok.1 h
      rw [ih h hi.2, rowsOf_set_ne (Ne.symm hi.1)]

/-- The stages that are left put out some rows exactly if these solve their equations,
given that the stages before them put out theirs. -/
theorem runStages_iff (hrespects : Respects q.Feeds (placed ++ order)) (hnodup : order.Nodup) (hlt : ∀ i ∈ order, i < outputs.length)
    (hlength : outputs.length = q.stages.length) (hrows : ∀ i ∈ placed, rowsOf outputs i = rows i) :
    (∃ out, q.runStages text config input order outputs = .ok out ∧ ∀ i ∈ order, rowsOf out i = rows i) ↔
      ∀ i ∈ order, ∀ stage, q.stages[i]? = some stage → q.runStage text config stage (inflow input rows stage) = .ok (rows i) := by
  induction order generalizing placed outputs with
  | nil => exact ⟨fun _ => forall_mem_nil _, fun _ => ⟨outputs, rfl, forall_mem_nil _⟩⟩
  | cons stageNo order ih =>
    have hstage := hlt stageNo mem_cons_self
    have hget := getElem?_eq_getElem (hlength ▸ hstage)
    have hinflow := @inflow_congr input _ _ _ fun dep hdep => hrows dep (Respects.earlier hrespects hget dep hdep)
    have hassoc : placed ++ stageNo :: order = placed ++ [stageNo] ++ order := by rw [append_assoc, singleton_append]
    have hnext := @ih (placed ++ [stageNo]) (outputs.set stageNo (some (rows stageNo))) (hassoc ▸ hrespects) (nodup_cons.1 hnodup).2
      (fun i hi => by rw [length_set]; exact hlt i (mem_cons_of_mem _ hi)) (by rw [length_set, hlength]) (by
        intro i hi
        by_cases heq : stageNo = i
        · subst heq
          exact rowsOf_set_self hstage _
        · rw [rowsOf_set_ne heq]
          exact hrows i ((mem_append.1 hi).resolve_right fun hin => heq (mem_singleton.1 hin).symm))
    rw [forall_mem_cons, runStages, hget]
    constructor
    · rintro ⟨out, h, hout⟩
      obtain ⟨ran, hran, h⟩ := bind_eq_ok.1 h
      -- what the stage put out is still there at the end
      have heq : ran = rows stageNo := by
        rw [← hout stageNo mem_cons_self, runStages_keep h (nodup_cons.1 hnodup).1, rowsOf_set_self hstage]
      subst heq
      refine ⟨fun stage hstage' => ?_, hnext.1 ⟨out, h, fun i hi => hout i (mem_cons_of_mem _ hi)⟩⟩
      obtain rfl := Option.some.inj hstage'
      rw [← hinflow]
      exact hran
    · rintro ⟨hfirst, hrest⟩
      obtain ⟨out, h, hout⟩ := hnext.2 hrest
      refine ⟨out, bind_eq_ok.2 ⟨rows stageNo, ?_, h⟩, forall_mem_cons.2 ⟨?_, hout⟩⟩
      · rw [← hfirst _ rfl, ← hinflow]
        rfl
      · rw [runStages_keep h (nodup_cons.1 hnodup).1, rowsOf_set_self hstage]

theorem numbered_of_validate (h : q.validate = .ok ()) : q.Numbered ∧ (∀ dep i, q.Feeds dep i → dep < i) ∧ q.finalStage < q.stages.length := by
  unfold validate at h
  split_ifs at h with hfinal hall
  rw [all_eq_true] at hall
  have hplace : ∀ i (stage : StageDefinition), q.stages[i]? = some stage → stage.stageNumber = i ∧ ∀ dep ∈ stage.inputs, dep < i := by
    intro i stage hget
    have hstage := hall (stage, i) (mem_zipIdx_iff_getElem?.2 hget)
    simp only [Bool.and_eq_true, decide_eq_true_eq, all_eq_true] at hstage
    exact hstage.1
  refine ⟨fun i stage hget => (hplace i stage hget).1, fun dep i hfeeds => ?_, by omega⟩
  have hget := getElem?_eq_getElem (Feeds.lt hfeeds)
  rw [Feeds, inputsOf_eq hget] at hfeeds
  exact (hplace i _ hget).2 dep hfeeds

theorem Feeds.trans_lt {dep : ℕ} (hearlier : ∀ dep i, q.Feeds dep i → dep < i) (h : TransGen q.Feeds dep i) : dep < i := by
  induction h with
  | single h => exact hearlier _ _ h
  | tail _ h ih => exact ih.trans (hearlier _ _ h)

/-- What `validate` accepts has an order, and it takes every stage once. -/
theorem topologicalOrder_of_validate (h : q.validate = .ok ()) :
    ∃ order, q.topologicalOrder = .ok order ∧ order.Perm (List.range q.stages.length) ∧ Respects q.Feeds order := by
  obtain ⟨hnum, hearlier, -⟩ := numbered_of_validate h
  obtain ⟨order, horder⟩ := hnum.exists_order_iff.2
    ⟨fun dep i hfeeds => (hearlier dep i hfeeds).trans hfeeds.lt, fun i _ hcycle => lt_irrefl i (Feeds.trans_lt hearlier hcycle)⟩
  exact ⟨order, horder, hnum.order_spec horder⟩

/-- A run puts out what a solution of the equations has for the final stage. -/
theorem run_ok_iff {sig : RowSignature} {final : List Row} : q.run text config input = .ok (sig, final) ↔
    q.validate = .ok () ∧ ∃ rows, q.Solves text config input rows ∧ rows q.finalStage = final ∧
      ∃ stage, q.stages[q.finalStage]? = some stage ∧ stage.signature = sig := by
  by_cases hvalid : q.validate = .ok ()
  swap
  · refine iff_of_false (fun h => ?_) fun h => hvalid h.1
    obtain ⟨⟨⟩, h, -⟩ := bind_eq_ok.1 h
    exact hvalid h
  obtain ⟨order, horder, hperm, hrespects⟩ := topologicalOrder_of_validate hvalid
  have hmem : ∀ i, i ∈ order ↔ i < q.stages.length := fun i => hperm.mem_iff.trans mem_range
  have hfinal := (numbered_of_validate hvalid).2.2
  have hiff (rows : ℕ → List Row) := @runStages_iff q [] text config input order (List.replicate q.stages.length none) rows hrespects
    (hperm.nodup_iff.2 nodup_range) (fun i hi => by rw [length_replicate]; exact (hmem i).1 hi) length_replicate (forall_mem_nil _)
  have hsolves : ∀ rows, q.Solves text config input rows ↔ ∀ i ∈ order, ∀ stage, q.stages[i]? = some stage →
      q.runStage text config stage (inflow input rows stage) = .ok (rows i) := fun rows =>
    ⟨fun h i _ => h i, fun h i stage hget => h i ((hmem i).2 (List.getElem?_eq_some_iff.1 hget).1) stage hget⟩
  have hget := getElem?_eq_getElem hfinal
  simp only [run, hvalid, ok_bind, horder, hget, hsolves, ← hiff, true_and, Option.some.injEq, exists_eq_left']
  constructor
  · intro h
    obtain ⟨out, hout, h⟩ := bind_eq_ok.1 h
    obtain ⟨rfl, rfl⟩ := Prod.ext_iff.1 (Except.ok.inj h)
    exact ⟨rowsOf out, ⟨out, hout, fun _ _ => rfl⟩, rfl, rfl⟩
  · rintro ⟨rows, ⟨out, hout, hrows⟩, rfl, rfl⟩
    rw [hout, ok_bind, ← hrows _ ((hmem _).2 hfinal)]
    rfl

end FerroDruid.Msq.QueryDefinition
