import Mathlib.Data.List.Basic
import Mathlib.Order.Nat
/-!
# Binary search

Where a list that is partitioned by a test changes sides, found by halving. The
search keeps a window: everything before it passes the test and nothing after
it does.
-/

namespace FerroDruid.Lib

variable {α : Type} {p : α → Bool} {xs : List α}

/-- What passes comes first. -/
def Partitioned (p : α → Bool) (xs : List α) : Prop := xs.Pairwise fun a b => p b → p a

def passesAt (p : α → Bool) (xs : List α) (i : ℕ) : Bool := xs[i]?.any p

/-- One element is left of the `size` elements from `base` on. -/
def bisectLoop (p : α → Bool) (xs : List α) (base size : ℕ) : ℕ :=
  if 1 < size then
    bisectLoop p xs (if passesAt p xs (base + size / 2) then base + size / 2 else base) (size - size / 2)
  else base
  termination_by size

/-- The number of elements that pass, in a list that is partitioned. -/
def bisect (p : α → Bool) (xs : List α) : ℕ :=
  if xs.isEmpty then 0
  else
    let base := bisectLoop p xs 0 xs.length
    if passesAt p xs base then base + 1 else base

@[simp] theorem passesAt_of_getElem? {i : ℕ} {a : α} (ha : xs[i]? = some a) : passesAt p xs i = p a := by
  rw [passesAt, ha, Option.any_some]

/-- Passing at an index is inherited by the ones before. -/
theorem Partitioned.passesAt_of_le (h : Partitioned p xs) {i j : ℕ} (hij : i ≤ j) (hj : passesAt p xs j = true) : passesAt p xs i = true := by
  rcases hij.eq_or_lt with rfl | hlt
  · exact hj
  obtain ⟨b, hb, hpb⟩ := (Option.any_eq_true ..).1 hj
  obtain ⟨hlen, rfl⟩ := List.getElem?_eq_some_iff.1 hb
  rw [passesAt_of_getElem? (List.getElem?_eq_getElem (hlt.trans hlen))]
  exact List.pairwise_iff_getElem.1 h i j _ hlen hlt hpb

/-- The `size` elements from `base` on are in question. -/
structure Window (p : α → Bool) (xs : List α) (base size : ℕ) : Prop where
  nonempty : 0 < size
  inside : base + size ≤ xs.length
  before : ∀ i < base, passesAt p xs i = true
  after : ∀ i, base + size ≤ i → passesAt p xs i = false

theorem Window.all (hxs : xs ≠ []) : Window p xs 0 xs.length where
  nonempty := List.length_pos_of_ne_nil hxs
  inside := by omega
  before := by simp
  after i hi := by rw [passesAt, List.getElem?_eq_none (by omega)]; rfl

/-- Halving keeps what is known about both sides. -/
theorem Window.halve (h : Partitioned p xs) {base size : ℕ} (hw : Window p xs base size) (hsize : 1 < size) :
    Window p xs (if passesAt p xs (base + size / 2) then base + size / 2 else base) (size - size / 2) := by
  have hinside := hw.inside
  split_ifs with hmid
  · exact {
      nonempty := by omega
      inside := by omega
      before := fun i hi => h.passesAt_of_le hi.le hmid
      after := fun i hi => hw.after i (by omega) }
  · refine ⟨by omega, by omega, hw.before, fun i hi => ?_⟩
    -- The window ends at the middle or one after it.
    refine Bool.eq_false_iff.2 fun hpasses => hmid ?_
    exact h.passesAt_of_le (by omega) hpasses

theorem Window.bisectLoop (h : Partitioned p xs) {base size : ℕ} (hw : Window p xs base size) : Window p xs (bisectLoop p xs base size) 1 := by
  induction base, size using bisectLoop.induct p xs with
  | case1 base size hsize ih =>
    rw [Lib.bisectLoop, if_pos hsize]
    exact ih (hw.halve h hsize)
  | case2 base size hsize =>
    obtain rfl : size = 1 := by have hpos := hw.nonempty; omega
    rwa [Lib.bisectLoop, if_neg hsize]

/-- Everything before the point passes and nothing from it on does. -/
theorem lt_bisect_iff (h : Partitioned p xs) (i : ℕ) : i < bisect p xs ↔ passesAt p xs i = true := by
  rcases eq_or_ne xs [] with rfl | hxs
  · simp [bisect, passesAt]
  have hw := (Window.all hxs).bisectLoop h
  simp only [bisect, List.isEmpty_iff, hxs, if_false]
  split_ifs with hbase
  · constructor
    · intro hi
      exact h.passesAt_of_le (Nat.lt_succ_iff.1 hi) hbase
    · intro hi
      by_contra hnot
      rw [hw.after i (by omega)] at hi
      contradiction
  · constructor
    · exact hw.before i
    · intro hi
      by_contra hnot
      exact hbase (h.passesAt_of_le (not_lt.1 hnot) hi)

theorem bisect_le_length (h : Partitioned p xs) : bisect p xs ≤ xs.length := by
  refine le_of_not_gt fun hlt => ?_
  have hpasses := (lt_bisect_iff h _).1 hlt
  rw [passesAt, List.getElem?_eq_none le_rfl] at hpasses
  contradiction

example : bisect (fun n : ℕ => n < 5) [1, 3, 4, 4, 8] = 4 := by simp [bisect, bisectLoop, passesAt]

end FerroDruid.Lib
