import Mathlib.Algebra.BigOperators.Group.List.Basic
import Mathlib.Algebra.Order.Group.Nat
import Mathlib.Data.List.Count
import Mathlib.Data.List.Forall2
import Mathlib.Data.List.ReduceOption
/-!
# Odometers

A cursor with a position in each of several lists goes through all tuples of
their elements, the last position fastest, until it is back at the beginning.
The tuples that are still ahead of a cursor tell what a loop over it does.
-/

namespace FerroDruid.Lib

open List

variable {α : Type}

/-- Tuples of one element of each list; `List.sections` in another order. -/
def tuples : List (List α) → List (List α)
  | [] => [[]]
  | keys :: rest => keys.flatMap fun k => (tuples rest).map (k :: ·)

namespace Odometer

/-- The tuple at a cursor. -/
def select : List (List α) → List ℕ → Option (List α)
  | keys :: rest, c :: cs =>
    match keys[c]?, select rest cs with
    | some k, some tuple => some (k :: tuple)
    | _, _ => none
  | [], [] => some []
  | _, _ => none

/-- The last position goes on; one that is through starts again, and the one
before it goes on. The flag is set when all have started again. -/
def advance : List (List α) → List ℕ → List ℕ × Bool
  | keys :: rest, c :: cs =>
    match advance rest cs with
    | (cs, false) => (c :: cs, false)
    | (cs, true) => if c + 1 < keys.length then ((c + 1) :: cs, false) else (0 :: cs, true)
  | _, _ => ([], true)

variable {σ ε : Type} (visit : σ → List α → Except ε σ)

/-- Visit the tuple at the cursor and advance, until the flag is set. -/
def run (keys : List (List α)) : ℕ → List ℕ → σ → Option (Except ε σ)
  | 0, _, _ => none
  | fuel + 1, cursor, s =>
    match select keys cursor with
    | none => none
    | some tuple =>
      match visit s tuple with
      | .error e => some (.error e)
      | .ok s =>
        match advance keys cursor with
        | (_, true) => some (.ok s)
        | (cursor, false) => run keys fuel cursor s

def start (keys : List (List α)) : List ℕ := keys.map fun _ => 0

/-! ## What is ahead of a cursor -/

/-- The tuples from a cursor on. -/
def ahead : List (List α) → List ℕ → List (List α)
  | keys :: rest, c :: cs =>
    (keys[c]?.toList.flatMap fun k => (ahead rest cs).map (k :: ·)) ++ (keys.drop (c + 1)).flatMap fun k => (tuples rest).map (k :: ·)
  | [], [] => [[]]
  | _, _ => []

/-- Every position is one of its list. -/
def InRange (keys : List (List α)) (cursor : List ℕ) : Prop := List.Forall₂ (fun ks c => c < ks.length) keys cursor

variable {keys : List (List α)}

theorem ahead_start (h : ∀ ks ∈ keys, ks ≠ []) : ahead keys (start keys) = tuples keys := by
  induction keys with
  | nil => rfl
  | cons ks rest ih =>
    have hrest := ih fun ks' hks' => h ks' (mem_cons_of_mem _ hks')
    cases ks with
    | nil => exact absurd rfl (h [] (mem_cons_self ..))
    | cons k ks =>
      have hahead : ahead ((k :: ks) :: rest) (start ((k :: ks) :: rest)) =
          (ahead rest (start rest)).map (k :: ·) ++ ks.flatMap fun k => (tuples rest).map (k :: ·) := by
        simp [ahead, start]
      rw [hahead, hrest, tuples, flatMap_cons]

theorem inRange_start (h : ∀ ks ∈ keys, ks ≠ []) : InRange keys (start keys) := by
  induction keys with
  | nil => exact .nil
  | cons ks rest ih =>
    refine .cons (length_pos_iff.2 (h ks (mem_cons_self ..))) (ih fun ks' hks' => h ks' (mem_cons_of_mem _ hks'))

/-- One turn: the tuple at the cursor is the first of those ahead, and an
odometer that is through is back at the beginning. -/
theorem turn {cursor : List ℕ} (h : InRange keys cursor) : ∃ tuple, select keys cursor = some tuple ∧
      ((∃ next, advance keys cursor = (next, false) ∧ InRange keys next ∧ ahead keys cursor = tuple :: ahead keys next) ∨
        advance keys cursor = (start keys, true) ∧ ahead keys cursor = [tuple]) := by
  induction h with
  | nil => exact ⟨[], rfl, .inr ⟨rfl, rfl⟩⟩
  | @cons ks c rest cs hc hrest ih =>
    obtain ⟨tuple, hselect, ih⟩ := ih
    have hk := getElem?_eq_getElem hc
    refine ⟨ks[c] :: tuple, by simp only [select, hk, hselect], ?_⟩
    rcases ih with ⟨next, hadvance, hnext, hahead⟩ | ⟨hadvance, hahead⟩
    · refine .inl ⟨c :: next, by simp only [advance, hadvance], .cons hc hnext, ?_⟩
      simp [ahead, hk, hahead]
    · have hnonempty : ∀ ks' ∈ rest, ks' ≠ [] := by
        intro ks' hks'
        obtain ⟨i, hi, rfl⟩ := mem_iff_getElem.1 hks'
        have hlt := List.Forall₂.get hrest hi (hrest.length_eq ▸ hi)
        exact length_pos_iff.1 (Nat.zero_lt_of_lt hlt)
      by_cases hmore : c + 1 < ks.length
      · refine .inl ⟨(c + 1) :: start rest, by simp only [advance, hadvance, if_pos hmore], .cons hmore (inRange_start hnonempty), ?_⟩
        have hlater : ahead (ks :: rest) ((c + 1) :: start rest) = (ks.drop (c + 1)).flatMap fun k => (tuples rest).map (k :: ·) := by
          rw [drop_eq_getElem_cons hmore, flatMap_cons, ahead, getElem?_eq_getElem hmore, ahead_start hnonempty]
          simp
        rw [hlater, ahead, hk, hahead]
        simp
      · refine .inr ⟨by simp only [advance, hadvance, if_neg hmore]; rfl, ?_⟩
        have hdrop : ks.drop (c + 1) = [] := drop_eq_nil_of_le (not_lt.1 hmore)
        simp [ahead, hk, hahead, hdrop]

/-- With fuel for all tuples ahead, the loop visits each of them once, in order. -/
theorem run_of_inRange {fuel : ℕ} {cursor : List ℕ} (h : InRange keys cursor)
    (hfuel : (ahead keys cursor).length ≤ fuel) (s : σ) : run visit keys fuel cursor s = some ((ahead keys cursor).foldlM visit s) := by
  induction fuel generalizing cursor s with
  | zero =>
    obtain ⟨tuple, -, ⟨next, -, -, hahead⟩ | ⟨-, hahead⟩⟩ := turn h <;> simp [hahead] at hfuel
  | succ fuel ih =>
    obtain ⟨tuple, hselect, hturn⟩ := turn h
    simp only [run, hselect]
    rcases hturn with ⟨next, hadvance, hnext, hahead⟩ | ⟨hadvance, hahead⟩
    · rw [hahead, length_cons, Nat.add_le_add_iff_right] at hfuel
      rw [hahead, hadvance, foldlM_cons]
      cases hvisit : visit s tuple with
      | error e => rfl
      | ok s' => exact ih hnext hfuel s'
    · rw [hahead, hadvance, foldlM_cons]
      cases visit s tuple <;> rfl

/-- Started with no list empty, the loop visits all tuples and ends. -/
theorem run_start (h : ∀ ks ∈ keys, ks ≠ []) {fuel : ℕ} (hfuel : (tuples keys).length ≤ fuel) (s : σ) :
    run visit keys fuel (start keys) s = some ((tuples keys).foldlM visit s) := by
  have hahead : (ahead keys (start keys)).length ≤ fuel := by rwa [ahead_start h]
  have hrun := run_of_inRange visit (inRange_start h) hahead s
  rwa [ahead_start h] at hrun

end Odometer

/-! ## Counting tuples -/

theorem mem_tuples {keys : List (List α)} {tuple : List α} : tuple ∈ tuples keys ↔ List.Forall₂ (fun k ks => k ∈ ks) tuple keys := by
  induction keys generalizing tuple with
  | nil => simp [tuples]
  | cons ks rest ih =>
    simp only [tuples, mem_flatMap, mem_map, ih]
    constructor
    · rintro ⟨k, hk, tail, htail, rfl⟩
      exact .cons hk htail
    · rintro (_ | ⟨hk, htail⟩)
      exact ⟨_, hk, _, htail, rfl⟩

/-- There is no tuple over a list without elements. -/
theorem tuples_eq_nil {keys : List (List α)} (h : [] ∈ keys) : tuples keys = [] := by
  induction keys with
  | nil => cases h
  | cons ks rest ih =>
    rcases mem_cons.1 h with rfl | hrest
    · rfl
    · simp [tuples, ih hrest]

theorem mem_tuples_map {δ : Type} {dims : List δ} {choice : δ → α} {keys : δ → List α} :
    dims.map choice ∈ tuples (dims.map keys) ↔ ∀ d ∈ dims, choice d ∈ keys d := by
  rw [mem_tuples, forall₂_map_left_iff, forall₂_map_right_iff, forall₂_same]

section

variable [BEq α] [LawfulBEq α]

/-- A tuple's first place is chosen independently of the others. -/
theorem count_tuples_cons (ks : List α) (rest : List (List α)) (k : α) (tuple : List α) :
    (tuples (ks :: rest)).count (k :: tuple) = ks.count k * (tuples rest).count tuple := by
  rw [tuples]
  induction ks with
  | nil => simp
  | cons k' ks ih =>
    rw [flatMap_cons, count_append, ih, count_cons]
    by_cases hk : k' = k
    · subst hk
      rw [count_map_of_injective _ _ (cons_injective), if_pos (beq_self_eq_true _), Nat.add_mul, Nat.one_mul, Nat.add_comm]
    · have hnone : ((tuples rest).map (k' :: ·)).count (k :: tuple) = 0 := by
        refine count_eq_zero.2 fun hmem => ?_
        obtain ⟨tail, -, htail⟩ := mem_map.1 hmem
        exact hk (List.cons.inj htail).1
      rw [hnone, if_neg (by simpa using hk), Nat.zero_add, Nat.add_zero]

theorem count_tuples_cons_nil (ks : List α) (rest : List (List α)) : (tuples (ks :: rest)).count [] = 0 := by
  refine count_eq_zero.2 fun hmem => ?_
  cases mem_tuples.1 hmem

theorem count_some_eq (ks : List (Option α)) (k : α) : ks.count (some k) = ks.reduceOption.count k := by
  induction ks with
  | nil => rfl
  | cons k' ks ih =>
    cases k' with
    | none => rw [count_cons, ih, reduceOption_cons_of_none, if_neg (by simp), Nat.add_zero]
    | some k' =>
      rw [count_cons, ih, reduceOption_cons_of_some, count_cons]
      exact congrArg _ (if_congr (by simp) rfl rfl)

/-- Tuples with a value in every place are the tuples of the values. -/
theorem count_tuples_some (keys : List (List (Option α))) (tuple : List α) :
    (tuples keys).count (tuple.map some) = (tuples (keys.map List.reduceOption)).count tuple := by
  induction keys generalizing tuple with
  | nil => cases tuple <;> simp [tuples]
  | cons ks rest ih =>
    cases tuple with
    | nil => rw [map_nil, map_cons, count_tuples_cons_nil, count_tuples_cons_nil]
    | cons k tuple => rw [map_cons, map_cons, count_tuples_cons, count_tuples_cons, count_some_eq, ih]

end

end FerroDruid.Lib
