import FerroDruid.Lib.HashMap
import FerroDruid.Lib.Json
import Mathlib.Data.List.Sort
/-!
# Load rules

`ferrodruid-loadrules/src/lib.rs` and `ferrodruid-coordinator/src/rules.rs`: the
first rule of a chain that applies to a segment says where it goes. A rule with
a malformed interval or period fails when it is evaluated, not when the chain is
read.

Instants and durations are those of the time library, in its unit; its parsers
and its checked arithmetic are parameters.
-/

namespace FerroDruid.Coordinator

open Lib

/-- From `start`, up to `stop` and without it. -/
structure Interval where
  start : ℤ
  stop : ℤ
  deriving DecidableEq

/-- What is used of the time library. -/
structure Chrono where
  parseUtc : String → Option ℤ
  /-- A date, at midnight. -/
  parseDate : String → Option ℤ
  tryHours : ℤ → Option ℤ
  tryDays : ℤ → Option ℤ
  /-- A duration before an instant; out of range it panics. -/
  sub : ℤ → ℤ → Option ℤ

inductive DruidError where
  | metadata (text : String)
  | config (text : String)
  deriving DecidableEq

/-- How a computation ends without a result: with an error or in a panic. -/
inductive Failure (ε : Type) where
  | error (e : ε)
  | panicked
  deriving DecidableEq

structure LoadRuleError where
  invalid : String
  deriving DecidableEq

def LoadRuleError.display (e : LoadRuleError) : String := "invalid load rule: " ++ e.invalid

inductive LoadRule where
  | loadForever (tierReplicants : HashMap String ℕ)
  | loadByInterval (interval : String) (tierReplicants : HashMap String ℕ)
  | loadByPeriod (period : String) (includeFuture : Option Bool) (tierReplicants : HashMap String ℕ)
  | dropForever
  | dropByInterval (interval : String)
  | dropByPeriod (period : String) (includeFuture : Option Bool)
  | broadcastForever
  | broadcastByInterval (interval : String)
  | broadcastByPeriod (period : String) (includeFuture : Option Bool)

/-- The counts of a load are in the order of the tiers' names. -/
inductive RuleAction where
  | load (tierReplicants : HashMap String ℕ)
  | drop
  | broadcast
  | noMatch

/-! ## Text -/

/-- The characters that `char::is_whitespace` holds for. -/
def isWhitespace (c : Char) : Bool :=
  c.toNat ∈ [0x09, 0x0A, 0x0B, 0x0C, 0x0D, 0x20, 0x85, 0xA0, 0x1680, 0x2000, 0x2001, 0x2002, 0x2003, 0x2004, 0x2005, 0x2006,
    0x2007, 0x2008, 0x2009, 0x200A, 0x2028, 0x2029, 0x202F, 0x205F, 0x3000]

def trimChars (cs : List Char) : List Char := ((cs.dropWhile isWhitespace).reverse.dropWhile isWhitespace).reverse

/-- `i64::from_str`. -/
def parseI64 (cs : List Char) : Option ℤ :=
  let negative := cs.head? = some '-'
  let digits := if cs.head? = some '-' ∨ cs.head? = some '+' then cs.tail else cs
  if digits = [] ∨ ¬ digits.all Char.isDigit then none
  else
    let n : ℤ := (digits.foldl (fun n c => 10 * n + (c.toNat - 0x30)) 0 : ℕ)
    let v := if negative then -n else n
    if -2 ^ 63 ≤ v ∧ v < 2 ^ 63 then some v else none

def checkedMul (a b : ℤ) : Option ℤ := if -2 ^ 63 ≤ a * b ∧ a * b < 2 ^ 63 then some (a * b) else none

def stripPrefix (c : Char) : List Char → Option (List Char)
  | [] => none
  | d :: cs => if d = c then some cs else none

def stripSuffix (c : Char) (cs : List Char) : Option (List Char) :=
  if cs.getLast? = some c then some cs.dropLast else none

section

variable (chrono : Chrono)

def parseIntervalBound (s : String) : Except String ℤ :=
  let s := String.ofList (trimChars s.toList)
  match chrono.parseUtc s with
  | some dt => .ok dt
  | none =>
    match chrono.parseDate s with
    | some date => .ok date
    | none => .error ("not an RFC3339 timestamp or YYYY-MM-DD date: " ++ s)

def parseInterval (s : String) : Except LoadRuleError Interval :=
  let first := String.ofList (s.toList.takeWhile (· ≠ '/'))
  match s.toList.dropWhile (· ≠ '/') with
  | [] => .error ⟨"expected ISO interval 'start/end', got: " ++ s⟩
  | _ :: second =>
    let second := String.ofList second
    match parseIntervalBound chrono first with
    | .error e => .error ⟨"invalid interval start '" ++ first ++ "': " ++ e⟩
    | .ok start =>
      match parseIntervalBound chrono second with
      | .error e => .error ⟨"invalid interval end '" ++ second ++ "': " ++ e⟩
      | .ok stop => if stop ≤ start then .error ⟨"interval start must be before end: " ++ s⟩ else .ok ⟨start, stop⟩

/-- A number of a unit before a suffix; a duration past the range is an error. -/
def parseCount (s digits : List Char) (unit : String) (duration : ℤ → Option ℤ) : Except LoadRuleError ℤ :=
  match parseI64 digits with
  | none => .error ⟨"invalid " ++ unit ++ " in period: " ++ String.ofList s⟩
  | some n =>
    match duration n with
    | none => .error ⟨"period out of range: " ++ String.ofList s⟩
    | some d => .ok d

/-- `PT<n>H`, `P<n>D`, `P<n>M` of 30 days and `P<n>Y` of 365. -/
def parsePeriod (s : String) : Except LoadRuleError ℤ :=
  let s := trimChars s.toList
  match stripPrefix 'P' s with
  | none => .error ⟨"period must start with 'P': " ++ String.ofList s⟩
  | some rest =>
    match (stripPrefix 'T' rest).bind (stripSuffix 'H') with
    | some h => parseCount s h "hours" chrono.tryHours
    | none =>
      match stripSuffix 'D' rest with
      | some d => parseCount s d "days" chrono.tryDays
      | none =>
        match stripSuffix 'M' rest with
        | some m => parseCount s m "months" fun n => (checkedMul n 30).bind chrono.tryDays
        | none =>
          match stripSuffix 'Y' rest with
          | some y => parseCount s y "years" fun n => (checkedMul n 365).bind chrono.tryDays
          | none => .error ⟨"unsupported period format: " ++ String.ofList s⟩

end

/-! ## Evaluation -/

def intervalsOverlap (a b : Interval) : Bool := a.start < b.stop ∧ b.start < a.stop

def segmentInPeriod (segment : Interval) (cutoff now : ℤ) (includeFuture : Bool) : Bool :=
  if segment.stop ≤ cutoff then false
  else if !includeFuture ∧ now < segment.start then false
  else true

/-- A map in the order of its keys. -/
def sortedByKey (m : HashMap String ℕ) : HashMap String ℕ where
  entries := m.entries.insertionSort fun a b => a.1 ≤ b.1
  nodupKeys := List.perm_nodupKeys (List.perm_insertionSort _ _) |>.2 m.nodupKeys

/-- An empty map stands for one replica in the default tier. -/
def loadAction (tierReplicants : HashMap String ℕ) : RuleAction :=
  if tierReplicants.entries = [] then .load (AList.singleton "_default_tier" 1) else .load (sortedByKey tierReplicants)

section

variable (chrono : Chrono)

/-- The action of a rule whose interval overlaps the segment's. -/
def inInterval (interval : String) (segment : Interval) (action : RuleAction) : Except (Failure LoadRuleError) RuleAction :=
  match parseInterval chrono interval with
  | .error e => .error (.error e)
  | .ok rule => .ok (if intervalsOverlap segment rule then action else .noMatch)

/-- Whether the segment is in the period up to now. -/
def inPeriod (period : String) (segment : Interval) (now : ℤ) (includeFuture : Bool) : Except (Failure LoadRuleError) Bool :=
  match parsePeriod chrono period with
  | .error e => .error (.error e)
  | .ok dur =>
    match chrono.sub now dur with
    | none => .error .panicked
    | some cutoff => .ok (segmentInPeriod segment cutoff now includeFuture)

def LoadRule.appliesToSegment (segment : Interval) (now : ℤ) : LoadRule → Except (Failure LoadRuleError) RuleAction
  | loadForever tiers => .ok (loadAction tiers)
  | loadByInterval interval tiers => inInterval chrono interval segment (loadAction tiers)
  | loadByPeriod period includeFuture tiers => do
    let inside ← inPeriod chrono period segment now (includeFuture.getD true)
    .ok (if inside then loadAction tiers else .noMatch)
  | dropForever => .ok .drop
  | dropByInterval interval => inInterval chrono interval segment .drop
  | dropByPeriod period includeFuture => do
    -- what is dropped is outside of the period
    let inside ← inPeriod chrono period segment now (includeFuture.getD false)
    .ok (if !inside then .drop else .noMatch)
  | broadcastForever => .ok .broadcast
  | broadcastByInterval interval => inInterval chrono interval segment .broadcast
  | broadcastByPeriod period includeFuture => do
    let inside ← inPeriod chrono period segment now (includeFuture.getD true)
    .ok (if inside then .broadcast else .noMatch)

/-- The first rule that matches; nothing is loaded when none does. -/
def evaluateRules (segment : Interval) (now : ℤ) : List LoadRule → Except (Failure LoadRuleError) RuleAction
  | [] => .ok .drop
  | rule :: rules => do
    match ← rule.appliesToSegment chrono segment now with
    | .noMatch => evaluateRules segment now rules
    | action => .ok action

inductive DesiredPlacement where
  | load (tierReplicants : HashMap String ℕ)
  | broadcast
  | drop

/-- `parse_rules`, with the derived deserializer of one rule. -/
def parseRules (fromValue : Json → Except String LoadRule) (raw : List Json) : Except DruidError (List LoadRule) :=
  raw.zipIdx.mapM fun (value, i) =>
    match fromValue value with
    | .ok rule => .ok rule
    | .error e => .error (.config ("invalid load rule at index " ++ toString i ++ ": " ++ e))

def desiredPlacement (rules : List LoadRule) (segment : Interval) (now : ℤ) : Except (Failure DruidError) DesiredPlacement :=
  match evaluateRules chrono segment now rules with
  | .error (.error e) => .error (.error (.config ("rule evaluation failed: " ++ e.display)))
  | .error .panicked => .error .panicked
  | .ok (.load tiers) => .ok (.load tiers)
  | .ok .broadcast => .ok .broadcast
  | .ok .drop => .ok .drop
  | .ok .noMatch => .ok .drop

end

end FerroDruid.Coordinator
