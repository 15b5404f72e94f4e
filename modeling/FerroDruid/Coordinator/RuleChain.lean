import FerroDruid.Coordinator.LoadRules
/-!
# What a rule chain is documented to do

The first rule whose condition a segment meets says what happens to it. The code
does something else in two places: an instant before the time library's range is
a panic, and a drop by period drops what starts after now, however young it is.
-/

namespace FerroDruid.Coordinator

open Lib List

/-- Instants go from `first` to `last`; a difference that is none of them
panics. -/
structure Chrono.Range (chrono : Chrono) (first last : ℤ) : Prop where
  sub : ∀ t d, chrono.sub t d = if first ≤ t - d ∧ t - d ≤ last then some (t - d) else none

namespace LoadRule

/-- What happens to a segment that meets the condition. -/
def action : LoadRule → RuleAction
  | loadForever tiers | loadByInterval _ tiers | loadByPeriod _ _ tiers => loadAction tiers
  | dropForever | dropByInterval _ | dropByPeriod _ _ => .drop
  | broadcastForever | broadcastByInterval _ | broadcastByPeriod _ _ => .broadcast

section

variable (chrono : Chrono) (segment : Interval) (now : ℤ)

/-- The documented condition; a malformed interval or period has none. -/
def condition : LoadRule → Except LoadRuleError Bool
  | loadForever _ | dropForever | broadcastForever => .ok true
  | loadByInterval interval _ | dropByInterval interval | broadcastByInterval interval => do
    let rule ← parseInterval chrono interval
    .ok (segment.start < rule.stop ∧ rule.start < segment.stop)
  | loadByPeriod period includeFuture _ | broadcastByPeriod period includeFuture => do
    let dur ← parsePeriod chrono period
    .ok (now - dur < segment.stop ∧ (includeFuture.getD true = false → segment.start ≤ now))
  | dropByPeriod period _ => do
    let dur ← parsePeriod chrono period
    .ok (segment.stop ≤ now - dur)

def holds (rule : LoadRule) : Bool := rule.condition chrono segment now matches .ok true

def malformed (rule : LoadRule) : Bool := rule.condition chrono segment now matches .error _

/-- The period before now begins at an instant. -/
def InRange (first last : ℤ) : LoadRule → Prop
  | loadByPeriod period _ _ | dropByPeriod period _ | broadcastByPeriod period _ =>
    ∀ dur, parsePeriod chrono period = .ok dur → first ≤ now - dur ∧ now - dur ≤ last
  | _ => True

/-- A drop by period that does not include the future, and a segment in it. -/
def DropsFuture : LoadRule → Prop
  | dropByPeriod _ includeFuture => includeFuture.getD false = false ∧ now < segment.start
  | _ => False

instance (rule : LoadRule) : Decidable (rule.DropsFuture segment now) := by
  cases rule <;> unfold DropsFuture <;> infer_instance

end

end LoadRule

section

variable (chrono : Chrono) (segment : Interval) (now : ℤ)

/-- The action of the first rule whose condition holds; without one the segment
is dropped. -/
def documentedAction (rules : List LoadRule) : RuleAction :=
  ((rules.find? (·.holds chrono segment now)).map (·.action)).getD .drop

/-- The documented action, or an error where no rule before a malformed one
holds. -/
def AsDocumented (rules : List LoadRule) : Except (Failure LoadRuleError) RuleAction → Prop
  | .ok action => action = documentedAction chrono segment now rules
  | .error (.error _) => ∃ rule ∈ rules.takeWhile (!·.holds chrono segment now), rule.malformed chrono segment now = true
  | .error .panicked => False

/-- Up to the rule that decides every period begins at an instant, and a future
segment that a rule drops is one to drop. -/
def Harmless (first last : ℤ) : List LoadRule → Prop
  | [] => True
  | rule :: rules => rule.malformed chrono segment now = true ∨ rule.InRange chrono now first last ∧
      (rule.holds chrono segment now = true ∨
        if rule.DropsFuture segment now then documentedAction chrono segment now rules = .drop else Harmless first last rules)

end

section

variable {chrono : Chrono} {first last : ℤ} {segment : Interval} {now : ℤ}

theorem segmentInPeriod_iff {cutoff : ℤ} {includeFuture : Bool} :
    segmentInPeriod segment cutoff now includeFuture = true ↔
      cutoff < segment.stop ∧ (includeFuture = false → segment.start ≤ now) := by
  unfold segmentInPeriod
  split_ifs with hold hfuture
  · simp [hold]
  · simp only [Bool.not_eq_true'] at hfuture
    simp [hfuture.1, hfuture.2]
  · simp only [Bool.not_eq_true', not_and, not_lt] at hfuture
    simpa using ⟨not_le.1 hold, hfuture⟩

variable {rule : LoadRule}

/-- A malformed interval or period is the rule's error. -/
theorem appliesToSegment_of_error {e : LoadRuleError} (h : rule.condition chrono segment now = .error e) :
    rule.appliesToSegment chrono segment now = .error (.error e) := by
  cases rule with
  | loadForever | dropForever | broadcastForever => cases h
  | loadByInterval interval | dropByInterval interval | broadcastByInterval interval =>
    simp only [LoadRule.appliesToSegment, inInterval]
    simp only [LoadRule.condition] at h
    cases hparse : parseInterval chrono interval <;> rw [hparse] at h <;> cases h
    rfl
  | loadByPeriod period | dropByPeriod period | broadcastByPeriod period =>
    simp only [LoadRule.appliesToSegment, inPeriod]
    simp only [LoadRule.condition] at h
    cases hparse : parsePeriod chrono period <;> rw [hparse] at h <;> cases h
    rfl

theorem appliesToSegment_of_outOfRange (hchrono : chrono.Range first last)
    (h : ¬ rule.InRange chrono now first last) : rule.appliesToSegment chrono segment now = .error .panicked := by
  cases rule with
  | loadForever | dropForever | broadcastForever | loadByInterval | dropByInterval | broadcastByInterval => exact absurd trivial h
  | loadByPeriod period | dropByPeriod period | broadcastByPeriod period =>
    simp only [LoadRule.InRange, not_forall] at h
    obtain ⟨dur, hparse, hout⟩ := h
    have hpanics : ∀ includeFuture, inPeriod chrono period segment now includeFuture = .error .panicked := fun includeFuture => by
      unfold inPeriod
      rw [hparse]
      simp only [hchrono.sub]
      rw [if_neg fun hin => hout hin]
    simp only [LoadRule.appliesToSegment]
    rw [hpanics]
    rfl

/-- In range a rule applies where its condition holds, and a drop by period in
the future too. -/
theorem appliesToSegment_of_inRange (hchrono : chrono.Range first last) (h : rule.InRange chrono now first last)
    {c : Bool} (hc : rule.condition chrono segment now = .ok c) :
    rule.appliesToSegment chrono segment now =
      .ok (if c = true ∨ rule.DropsFuture segment now then rule.action else .noMatch) := by
  have hperiod : ∀ period dur includeFuture, parsePeriod chrono period = .ok dur → first ≤ now - dur ∧ now - dur ≤ last →
      inPeriod chrono period segment now includeFuture = .ok (segmentInPeriod segment (now - dur) now includeFuture) := by
    intro period dur includeFuture hparse hin
    unfold inPeriod
    rw [hparse]
    simp only [hchrono.sub]
    rw [if_pos hin]
  cases rule with
  | loadForever | dropForever | broadcastForever =>
    cases hc
    simp [LoadRule.appliesToSegment, LoadRule.action]
  | loadByInterval interval | dropByInterval interval | broadcastByInterval interval =>
    simp only [LoadRule.appliesToSegment, inInterval]
    simp only [LoadRule.condition] at hc
    cases hparse : parseInterval chrono interval <;> rw [hparse] at hc <;> cases hc
    simp [intervalsOverlap, LoadRule.DropsFuture, LoadRule.action]
  | loadByPeriod period | broadcastByPeriod period =>
    simp only [LoadRule.appliesToSegment]
    simp only [LoadRule.condition] at hc
    cases hparse : parsePeriod chrono period <;> rw [hparse] at hc <;> cases hc
    rw [hperiod period _ _ hparse (h _ hparse)]
    refine congrArg Except.ok (if_congr ?_ rfl rfl)
    rw [segmentInPeriod_iff, decide_eq_true_eq]
    exact (or_iff_left id).symm
  | dropByPeriod period includeFuture =>
    simp only [LoadRule.appliesToSegment]
    simp only [LoadRule.condition] at hc
    cases hparse : parsePeriod chrono period <;> rw [hparse] at hc <;> cases hc
    rw [hperiod period _ _ hparse (h _ hparse)]
    refine congrArg Except.ok (if_congr ?_ rfl rfl)
    rw [Bool.not_eq_true', ← Bool.not_eq_true, segmentInPeriod_iff, decide_eq_true_eq, LoadRule.DropsFuture, not_and_or, not_lt]
    exact or_congr_right (by rw [Classical.not_imp, not_le])

theorem action_ne_noMatch (rule : LoadRule) : rule.action ≠ .noMatch := by
  have hload : ∀ tiers, loadAction tiers ≠ .noMatch := fun tiers => by
    unfold loadAction
    split_ifs <;> exact nofun
  cases rule with
  | loadForever tiers | loadByInterval _ tiers | loadByPeriod _ _ tiers => exact hload tiers
  | _ => exact nofun

/-- Rules that do not apply are passed over. -/
theorem evaluateRules_cons {rules : List LoadRule} {action : RuleAction}
    (h : rule.appliesToSegment chrono segment now = .ok action) :
    (action = .noMatch → evaluateRules chrono segment now (rule :: rules) = evaluateRules chrono segment now rules) ∧
      (action ≠ .noMatch → evaluateRules chrono segment now (rule :: rules) = .ok action) := by
  rw [evaluateRules, h]
  cases action with
  | noMatch => exact ⟨fun _ => rfl, fun hne => absurd rfl hne⟩
  | _ => exact ⟨nofun, fun _ => rfl⟩

/-- What a rule's condition is, in three cases. -/
theorem condition_cases (rule : LoadRule) :
    (∃ e, rule.condition chrono segment now = .error e ∧ rule.malformed chrono segment now = true) ∨
      ∃ c, rule.condition chrono segment now = .ok c ∧ rule.malformed chrono segment now = false ∧
        rule.holds chrono segment now = c := by
  unfold LoadRule.malformed LoadRule.holds
  cases hcondition : rule.condition chrono segment now with
  | error e => exact .inl ⟨e, rfl, rfl⟩
  | ok c => exact .inr ⟨c, rfl, rfl, by cases c <;> rfl⟩

theorem documentedAction_cons (rule : LoadRule) (rules : List LoadRule) :
    documentedAction chrono segment now (rule :: rules) =
      if rule.holds chrono segment now = true then rule.action else documentedAction chrono segment now rules := by
  unfold documentedAction
  rw [find?_cons]
  cases rule.holds chrono segment now <;> rfl

/-- A rule that does not hold and is not malformed is none of the documentation's
concern. -/
theorem asDocumented_cons (hholds : rule.holds chrono segment now = false)
    (hmalformed : rule.malformed chrono segment now = false) (rules : List LoadRule) (result : Except (Failure LoadRuleError) RuleAction) :
    AsDocumented chrono segment now (rule :: rules) result ↔ AsDocumented chrono segment now rules result := by
  cases result with
  | ok action =>
    unfold AsDocumented
    rw [documentedAction_cons, hholds]
    rfl
  | error failure =>
    cases failure with
    | error e =>
      simp only [AsDocumented]
      rw [takeWhile_cons, hholds, Bool.not_false, if_pos rfl, exists_mem_cons_iff, hmalformed]
      simp
    | panicked => rfl

/-- The rules do what is documented exactly when they are harmless. -/
theorem evaluateRules_asDocumented_iff (hchrono : chrono.Range first last) (rules : List LoadRule) :
    AsDocumented chrono segment now rules (evaluateRules chrono segment now rules) ↔
      Harmless chrono segment now first last rules := by
  induction rules with
  | nil => exact iff_of_true rfl trivial
  | cons rule rules ih =>
    unfold Harmless
    rcases @condition_cases chrono segment now rule with ⟨e, hcondition, hmalformed⟩ | ⟨c, hcondition, hmalformed, hholds⟩
    · -- the evaluation stops with the error of the rule
      have hnot : rule.holds chrono segment now = false := by rw [LoadRule.holds, hcondition]
      have hresult : evaluateRules chrono segment now (rule :: rules) = .error (.error e) := by
        rw [evaluateRules, appliesToSegment_of_error hcondition]
        rfl
      rw [hresult]
      refine iff_of_true ⟨rule, ?_, hmalformed⟩ (.inl hmalformed)
      rw [takeWhile_cons, hnot]
      exact mem_cons_self
    rw [hmalformed, hholds, or_iff_right Bool.false_ne_true]
    by_cases hrange : rule.InRange chrono now first last
    swap
    · have hresult : evaluateRules chrono segment now (rule :: rules) = .error .panicked := by
        rw [evaluateRules, appliesToSegment_of_outOfRange hchrono hrange]
        rfl
      rw [hresult]
      exact iff_of_false id fun h => hrange h.1
    rw [and_iff_right hrange]
    have happlies := appliesToSegment_of_inRange hchrono hrange hcondition
    obtain ⟨hpass, hstop⟩ := @evaluateRules_cons chrono segment now rule rules _ happlies
    cases c with
    | true =>
      rw [if_pos (.inl rfl)] at hstop
      rw [hstop (action_ne_noMatch rule)]
      refine iff_of_true ?_ (.inl rfl)
      rw [AsDocumented, documentedAction_cons, if_pos hholds]
    | false =>
      rw [or_iff_right Bool.false_ne_true]
      by_cases hfuture : rule.DropsFuture segment now
      · -- the rule drops a segment that is not old
        have hdrop : rule.action = .drop := by
          cases rule with
          | dropByPeriod => rfl
          | _ => exact hfuture.elim
        rw [if_pos (.inr hfuture)] at hstop
        rw [hstop (action_ne_noMatch rule), if_pos hfuture, AsDocumented, documentedAction_cons, hholds, hdrop]
        exact eq_comm
      · rw [if_neg (by simp [hfuture])] at hpass
        rw [hpass rfl, if_neg hfuture, asDocumented_cons hholds hmalformed]
        exact ih

end

/-! ## A long period, and a segment to come -/

/-- Instants in seconds, from the year -262143 to the year 262142. -/
def secondsChrono : Chrono where
  parseUtc _ := none
  parseDate _ := none
  tryHours n := if |n * 3600| ≤ 9223372036854775 then some (n * 3600) else none
  tryDays n := if |n * 86400| ≤ 9223372036854775 then some (n * 86400) else none
  sub t d := if -8334601228800 ≤ t - d ∧ t - d ≤ 8210266876799 then some (t - d) else none

/-- The last day of 2025, in seconds. -/
def endOf2025 : ℤ := 1767139200

/-- A load of a period that begins before every instant panics, and the segment
of the next day is dropped as old. -/
theorem evaluateRules_not_asDocumented :
    ¬ AsDocumented secondsChrono ⟨endOf2025 - 86400, endOf2025⟩ endOf2025 [.loadByPeriod "P300000Y" none ∅]
      (evaluateRules secondsChrono ⟨endOf2025 - 86400, endOf2025⟩ endOf2025 [.loadByPeriod "P300000Y" none ∅]) ∧
    ¬ AsDocumented secondsChrono ⟨endOf2025 + 86400, endOf2025 + 172800⟩ endOf2025 [.dropByPeriod "P90D" none, .loadForever ∅]
      (evaluateRules secondsChrono ⟨endOf2025 + 86400, endOf2025 + 172800⟩ endOf2025 [.dropByPeriod "P90D" none, .loadForever ∅]) := by
  constructor
  · exact id
  · exact nofun

theorem evaluateRules_asDocumented_old :
    AsDocumented secondsChrono ⟨0, 86400⟩ endOf2025 [.dropByPeriod "P90D" none, .loadForever ∅]
      (evaluateRules secondsChrono ⟨0, 86400⟩ endOf2025 [.dropByPeriod "P90D" none, .loadForever ∅]) := by
  have hchrono : secondsChrono.Range (-8334601228800) 8210266876799 := ⟨fun _ _ => rfl⟩
  refine (evaluateRules_asDocumented_iff hchrono [.dropByPeriod "P90D" none, .loadForever ∅]).2 (.inr ⟨?_, .inl (by decide +kernel)⟩)
  intro dur hdur
  cases hdur
  decide

end FerroDruid.Coordinator
