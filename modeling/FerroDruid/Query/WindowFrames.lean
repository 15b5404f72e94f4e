import FerroDruid.Query.Window
/-!
# What a frame of rows means

A function over a frame reads the rows that the frame contains, as they were, or
is null. A frame that ends before the first row may take that row all the same
(`TakesFirst`), and a frame of one row at an end of the partition may lose it
(`Misses`); the value functions look at one bound only, and a row read after its
own turn may have been overwritten.
-/

namespace FerroDruid.Query

open Lib List

/-! ## Frames -/

/-- The position of a bound, which may be outside of the partition. -/
def WindowFrameBound.at (bound : WindowFrameBound) (i n : ℕ) : ℤ :=
  match bound with
  | .unboundedPreceding => 0
  | .preceding k => i - k.toNat
  | .currentRow => i
  | .following k => i + k.toNat
  | .unboundedFollowing => n - 1

/-- Whether the frame of the row at position `i` contains the one at `p`. -/
def WindowFrame.Contains (frame : WindowFrame) (i n p : ℕ) : Prop := frame.start.at i n ≤ p ∧ (p : ℤ) ≤ frame.stop.at i n

instance (frame : WindowFrame) (i n p : ℕ) : Decidable (frame.Contains i n p) := inferInstanceAs (Decidable (_ ∧ _))

/-- The positions in a frame. -/
def WindowFrame.positions (frame : WindowFrame) (i n : ℕ) : List ℕ := (List.range n).filter fun p => frame.Contains i n p

/-- Where the frame starts and ends, kept within the partition at one end, and where
it is over. -/
def WindowFrame.first (frame : WindowFrame) (i n : ℕ) : ℕ := (frame.start.at i n).toNat

def WindowFrame.last (frame : WindowFrame) (i n : ℕ) : ℕ := min (n - 1) (frame.stop.at i n).toNat

def WindowFrame.over (frame : WindowFrame) (i n : ℕ) : ℕ := min n (frame.stop.at i n + 1).toNat

/-- The frame starts no later than the first row and ends before it. -/
def WindowFrame.TakesFirst (frame : WindowFrame) (i n : ℕ) : Prop :=
  match frame.stop with
  | .preceding k => i < k.toNat ∧ frame.start ≠ .unboundedFollowing ∧ frame.start.at i n ≤ 0
  | _ => False

/-- The frame has the row at `p` only: the first one, where it is bounded by the
start of the partition from above, or the last one, where it is by the end from below. -/
def WindowFrame.Misses (frame : WindowFrame) (i n p : ℕ) : Prop :=
  (frame.stop = .unboundedPreceding ∧ frame.start.at i n ≤ 0 ∧ p = 0) ∨
    (frame.start = .unboundedFollowing ∧ (n : ℤ) - 1 ≤ frame.stop.at i n ∧ p + 1 = n)

/-- The rows that are read. -/
def WindowFrame.Reads (frame : WindowFrame) (i n p : ℕ) : Prop :=
  (frame.TakesFirst i n ∧ p = 0) ∨ (p < n ∧ frame.Contains i n p ∧ ¬ frame.Misses i n p)

theorem mem_positions {frame : WindowFrame} {i n p : ℕ} : p ∈ frame.positions i n ↔ p < n ∧ frame.Contains i n p := by
  simp [WindowFrame.positions]

theorem positions_eq (frame : WindowFrame) (i n : ℕ) :
    frame.positions i n = List.range' (frame.first i n) (frame.over i n - frame.first i n) := by
  apply List.Pairwise.eq_of_mem_iff (r := (· < ·))
  · exact List.Pairwise.filter _ pairwise_lt_range
  · exact pairwise_lt_range' 1
  · intro p
    rw [mem_positions, mem_range'_1]
    unfold WindowFrame.Contains WindowFrame.first WindowFrame.over
    omega

theorem head?_positions (frame : WindowFrame) (i n : ℕ) :
    (frame.positions i n).head? = if frame.positions i n = [] then none else some (frame.first i n) := by
  simp only [positions_eq, head?_range', range'_eq_nil_iff]

theorem getLast?_positions (frame : WindowFrame) (i n : ℕ) :
    (frame.positions i n).getLast? = if frame.positions i n = [] then none else some (frame.last i n) := by
  simp only [positions_eq, getLast?_range', range'_eq_nil_iff]
  unfold WindowFrame.last WindowFrame.over
  split_ifs
  · rfl
  · rw [Option.some.injEq]
    omega

/-- Where the code starts. -/
theorem frameBounds_start (frame : WindowFrame) {i n : ℕ} (hi : i < n) (hn : n < 2 ^ 63) :
    (frameBounds (some frame) i n).1 = if frame.start = .unboundedFollowing then n else min (frame.first i n) n := by
  obtain ⟨start, stop⟩ := frame
  unfold WindowFrame.first
  cases start <;> simp only [frameBounds, WindowFrameBound.at, saturatingAdd, usizeMax, reduceCtorEq, if_true, if_false] <;> omega

/-- Where the code ends. -/
theorem frameBounds_stop (frame : WindowFrame) {i n : ℕ} (hi : i < n) (hn : n < 2 ^ 63) :
    (frameBounds (some frame) i n).2 = if frame.stop = .unboundedPreceding then 0 else frame.last i n + 1 := by
  obtain ⟨start, stop⟩ := frame
  unfold WindowFrame.last
  cases stop <;> simp only [frameBounds, WindowFrameBound.at, saturatingAdd, usizeMax, reduceCtorEq, if_true, if_false] <;> omega

/-! ## Best cells -/

def numbers (cells : List Json) : List JsonNumber := cells.filterMap Json.plainNumber

/-- A number that is exactly the best of some, all of which are numbers or null; or
null if all are. -/
def IsBest (noWorse : ℤ → ℤ → Prop) (cells : List Json) (v : Json) : Prop :=
  ((∀ cell ∈ cells, isNull cell = true) ∧ v = .null) ∨
    ((∀ cell ∈ cells, isNull cell = true ∨ cell.plainNumber ≠ none) ∧
      ∃ n ∈ numbers cells, (∀ k ∈ numbers cells, noWorse n.units k.units) ∧ ∃ m, v = .number m ∧ m.units = n.units)

def allIntegers (cells : List Json) : Bool := cells.all fun v => isNull v || v.isI64

/-- What is left of a number that goes through a float, to an integer if all cells
are integers of 64 bits. -/
def throughFloat (allInt : Bool) (n : JsonNumber) : ℤ := if allInt then F64.unitsOne * n.toFloat.toI64.toInt else n.toFloat.exact

/-- The best number is not changed by the float it goes through. -/
def Survives (noWorse : ℤ → ℤ → Prop) (cells : List Json) : Prop :=
  ∀ n ∈ numbers cells, (∀ k ∈ numbers cells, noWorse n.units k.units) → throughFloat (allIntegers cells) n = n.units

/-- A float with the integers as they compare. -/
structure Compares (test : F64 → F64 → Bool) (noWorse : ℤ → ℤ → Prop) : Prop where
  test_iff : ∀ x y : F64, x.isFinite = true → y.isFinite = true → (test x y = true ↔ noWorse x.exact y.exact)
  refl : ∀ u, noWorse u u
  total : ∀ u v, noWorse u v ∨ noWorse v u
  trans : ∀ u v w, noWorse u v → noWorse v w → noWorse u w
  antisymm : ∀ u v, noWorse u v → noWorse v u → u = v
  rounded : ∀ u v, noWorse u v → noWorse (F64.rounded u) (F64.rounded v)

theorem le_iff_exact {x y : F64} (hx : x.isFinite = true) (hy : y.isFinite = true) : x.le y = true ↔ x.exact ≤ y.exact := by
  have hlt := F64.lt_iff_exact hy hx
  have hnot : x.le y = !y.lt x := by
    cases x <;> cases y <;> simp [F64.isFinite] at hx hy
    unfold F64.le F64.lt F64.rank
    simp only [← decide_not, not_lt]
  rw [hnot, Bool.not_eq_true', ← Bool.not_eq_true, hlt, not_lt]

theorem compares_min : Compares F64.le (· ≤ ·) where
  test_iff _ _ := le_iff_exact
  refl := le_refl
  total := le_total
  trans _ _ _ := le_trans
  antisymm _ _ := le_antisymm
  rounded _ _ := F64.rounded_mono

theorem compares_max : Compares (fun b n => F64.le n b) (fun u v => v ≤ u) where
  test_iff _ _ hx hy := le_iff_exact hy hx
  refl := le_refl
  total u v := le_total v u
  trans _ _ _ huv hvw := le_trans hvw huv
  antisymm _ _ huv hvu := le_antisymm hvu huv
  rounded _ _ := F64.rounded_mono

section

variable {test : F64 → F64 → Bool} {noWorse : ℤ → ℤ → Prop} (hcmp : Compares test noWorse) {cells : List Json}

theorem numbers_of_null (h : ∀ cell ∈ cells, isNull cell = true) : numbers cells = [] := by
  refine filterMap_eq_nil_iff.2 fun cell hcell => ?_
  have hnull := h cell hcell
  cases cell <;> first | rfl | cases hnull

/-- What the fold knows after some cells. -/
structure BestSoFar (noWorse : ℤ → ℤ → Prop) (cells : List Json) (acc : Option F64 × Bool) : Prop where
  allInt : acc.2 = allIntegers cells
  none_iff : acc.1 = none ↔ numbers cells = []
  best : ∀ x, acc.1 = some x → (∃ n ∈ numbers cells, x = n.toFloat) ∧ ∀ k ∈ numbers cells, noWorse x.exact k.toFloat.exact

include hcmp

theorem BestSoFar.step {acc : Option F64 × Bool} (h : BestSoFar noWorse cells acc) (v : Json) :
    BestSoFar noWorse (cells ++ [v]) (reduceStep test acc v) := by
  have hnumbers : numbers (cells ++ [v]) = numbers cells ++ v.plainNumber.toList := by
    rw [numbers, filterMap_append, ← numbers]
    cases v <;> rfl
  have hints : allIntegers (cells ++ [v]) = (allIntegers cells && (isNull v || v.isI64)) := by simp [allIntegers]
  unfold reduceStep
  by_cases hnull : isNull v = true
  · have hplain : v.plainNumber = none := by cases v <;> first | rfl | cases hnull
    rw [if_pos hnull]
    refine ⟨?_, ?_, ?_⟩
    · rw [hints, hnull, h.allInt]
      simp
    · simpa [hnumbers, hplain] using h.none_iff
    · simpa [hnumbers, hplain] using h.best
  rw [if_neg hnull]
  simp only [Json.asF64_eq]
  cases hplain : v.plainNumber with
  | none =>
    refine ⟨?_, ?_, ?_⟩
    · simp [hints, hnull, h.allInt]
    · simpa [hnumbers, hplain] using h.none_iff
    · simpa [hnumbers, hplain] using h.best
  | some n =>
    refine ⟨by simp [hints, hnull, h.allInt], ?_, ?_⟩
    · rw [hnumbers, hplain]
      cases acc.1 <;> simp
    · intro x hx
      rw [hnumbers, hplain]
      simp only [Option.toList_some, mem_append, mem_singleton]
      cases hacc : acc.1 with
      | none =>
        rw [hacc] at hx
        obtain rfl := Option.some.inj hx
        have hempty := h.none_iff.1 hacc
        refine ⟨⟨n, .inr rfl, rfl⟩, ?_⟩
        rintro k (hk | rfl)
        · rw [hempty] at hk
          cases hk
        · exact hcmp.refl _
      | some b =>
        obtain ⟨⟨m, hm, rfl⟩, hbest⟩ := h.best b hacc
        have hiff := hcmp.test_iff _ _ m.isFinite_toFloat n.isFinite_toFloat
        rw [hacc] at hx
        obtain rfl := Option.some.inj hx
        split_ifs with htest
        · refine ⟨⟨m, .inl hm, rfl⟩, ?_⟩
          rintro k (hk | rfl)
          · exact hbest k hk
          · exact hiff.1 htest
        · have hworse := (hcmp.total _ _).resolve_left fun hno => htest (hiff.2 hno)
          refine ⟨⟨n, .inr rfl, rfl⟩, ?_⟩
          rintro k (hk | rfl)
          · exact hcmp.trans _ _ _ hworse (hbest k hk)
          · exact hcmp.refl _

theorem bestSoFar_foldl (cells : List Json) : BestSoFar noWorse cells (cells.foldl (reduceStep test) (none, true)) := by
  induction cells using List.reverseRecOn with
  | nil => exact ⟨rfl, by simp [numbers], by simp⟩
  | append_singleton cells v ih =>
    rw [foldl_append]
    exact ih.step hcmp v

theorem exists_best {ns : List JsonNumber} (h : ns ≠ []) : ∃ n ∈ ns, ∀ k ∈ ns, noWorse n.units k.units := by
  induction ns with
  | nil => exact absurd rfl h
  | cons a ns ih =>
    rcases ns.eq_nil_or_concat with rfl | ⟨_, _, hne⟩
    · exact ⟨a, mem_cons_self .., by simpa using hcmp.refl _⟩
    · obtain ⟨n, hn, hbest⟩ := ih (by simp [hne])
      rcases hcmp.total a.units n.units with hle | hle
      · refine ⟨a, mem_cons_self .., ?_⟩
        rintro k (_ | ⟨_, hk⟩)
        · exact hcmp.refl _
        · exact hcmp.trans _ _ _ hle (hbest k hk)
      · refine ⟨n, mem_cons_of_mem _ hn, ?_⟩
        rintro k (_ | ⟨_, hk⟩)
        · exact hle
        · exact hbest k hk

/-- The result is the best number as it comes through the float. -/
theorem reduceBest_of_best {n : JsonNumber} (hn : n ∈ numbers cells) (hbest : ∀ k ∈ numbers cells, noWorse n.units k.units) :
    ∃ m, reduceBest test cells = .number m ∧ m.units = throughFloat (allIntegers cells) n := by
  have h := bestSoFar_foldl hcmp cells
  unfold reduceBest
  cases hacc : cells.foldl (reduceStep test) (none, true) with
  | mk best allInt =>
    rw [hacc] at h
    cases best with
    | none =>
      rw [h.none_iff.1 rfl] at hn
      cases hn
    | some x =>
      obtain ⟨⟨n', hn', rfl⟩, hfloat⟩ := h.best x rfl
      have hexact : n'.toFloat.exact = n.toFloat.exact := by
        apply hcmp.antisymm _ _ (hfloat n hn)
        rw [JsonNumber.exact_toFloat, JsonNumber.exact_toFloat]
        exact hcmp.rounded _ _ (hbest n' hn')
      have hint : allInt = allIntegers cells := h.allInt
      subst hint
      by_cases hall : allIntegers cells = true
      · -- the best cell is an integer, whose float is whole
        have htrunc : n'.toFloat.trunc = n'.toFloat := by
          obtain ⟨v, hv, hplain⟩ := mem_filterMap.1 hn'
          have hv' := all_eq_true.1 hall v hv
          cases v with
          | number number =>
            obtain rfl := Option.some.inj hplain
            cases number with
            | int k range => exact F64.trunc_ofInt_large (by omega)
            | float x finite => cases hv'
          | _ => cases hplain
        have hsame := F64.toI64_of_exact n'.isFinite_toFloat n.isFinite_toFloat hexact
        simp only [hall, htrunc, and_self, if_true, hsame]
        exact ⟨_, rfl, rfl⟩
      · rw [Bool.not_eq_true] at hall
        simp only [hall, Bool.false_eq_true, false_and, if_false, jsonFloat, Json.ofF64, n'.isFinite_toFloat, dite_true]
        exact ⟨_, rfl, hexact⟩

theorem reduceBest_of_nil (h : numbers cells = []) : reduceBest test cells = .null := by
  have hnone := (bestSoFar_foldl hcmp cells).none_iff.2 h
  unfold reduceBest
  cases hacc : cells.foldl (reduceStep test) (none, true) with
  | mk best allInt =>
    rw [hacc] at hnone
    obtain rfl : best = none := hnone
    rfl

theorem isBest_reduceBest (cells : List Json) :
    IsBest noWorse cells (reduceBest test cells) ↔
      (∀ cell ∈ cells, isNull cell = true ∨ cell.plainNumber ≠ none) ∧ Survives noWorse cells := by
  constructor
  · rintro (⟨hnull, -⟩ | ⟨hplain, n, hn, hbest, m, hm, hunits⟩)
    · refine ⟨fun cell hcell => .inl (hnull cell hcell), fun n hn => ?_⟩
      rw [numbers_of_null hnull] at hn
      cases hn
    · refine ⟨hplain, fun n' hn' hbest' => ?_⟩
      obtain ⟨m', hm', hunits'⟩ := reduceBest_of_best hcmp hn' hbest'
      rw [hm] at hm'
      cases hm'
      rw [← hunits', hunits]
      exact hcmp.antisymm _ _ (hbest n' hn') (hbest' n hn)
  · rintro ⟨hplain, hsurvives⟩
    by_cases hnil : numbers cells = []
    · refine .inl ⟨fun cell hcell => ?_, reduceBest_of_nil hcmp hnil⟩
      exact (hplain cell hcell).resolve_right fun hne => hne (filterMap_eq_nil_iff.1 hnil cell hcell)
    · obtain ⟨n, hn, hbest⟩ := exists_best hcmp hnil
      obtain ⟨m, hm, hunits⟩ := reduceBest_of_best hcmp hn hbest
      exact .inr ⟨hplain, n, hn, hbest, m, hm, hunits.trans (hsurvives n hn hbest)⟩

theorem reduceBest_eq_null : reduceBest test cells = .null ↔ numbers cells = [] := by
  constructor
  · intro hnull
    by_contra hne
    obtain ⟨n, hn, hbest⟩ := exists_best hcmp hne
    obtain ⟨m, hm, -⟩ := reduceBest_of_best hcmp hn hbest
    rw [hm] at hnull
    cases hnull
  · exact reduceBest_of_nil hcmp

end

/-! ## What is read and what is meant -/

/-- The positions that the aggregates read. -/
def WindowFrame.read (frame : WindowFrame) (i n : ℕ) : List ℕ :=
  (List.range n).filter fun p => (frameBounds (some frame) i n).1 ≤ p ∧ p < (frameBounds (some frame) i n).2

theorem frameBounds_le (frame : WindowFrame) {i n : ℕ} (hi : i < n) (hn : n < 2 ^ 63) : (frameBounds (some frame) i n).2 ≤ n := by
  rw [frameBounds_stop frame hi hn, WindowFrame.last]
  split_ifs <;> omega

theorem read_eq (frame : WindowFrame) {i n : ℕ} (hi : i < n) (hn : n < 2 ^ 63) :
    frame.read i n = List.range' (frameBounds (some frame) i n).1 ((frameBounds (some frame) i n).2 - (frameBounds (some frame) i n).1) := by
  have hle := frameBounds_le frame hi hn
  apply List.Pairwise.eq_of_mem_iff (r := (· < ·))
  · exact List.Pairwise.filter _ pairwise_lt_range
  · exact pairwise_lt_range' 1
  · intro p
    simp only [WindowFrame.read, mem_filter, mem_range, decide_eq_true_eq, mem_range'_1]
    omega

theorem mem_read {frame : WindowFrame} {i n p : ℕ} (hi : i < n) (hn : n < 2 ^ 63) : p ∈ frame.read i n ↔ frame.Reads i n p := by
  obtain ⟨start, stop⟩ := frame
  simp only [WindowFrame.read, mem_filter, mem_range, decide_eq_true_eq, WindowFrame.Reads, WindowFrame.TakesFirst,
    WindowFrame.Misses, WindowFrame.Contains]
  cases start <;> cases stop <;>
    simp only [frameBounds, WindowFrameBound.at, saturatingAdd, usizeMax, reduceCtorEq, ne_eq, not_false_eq_true, not_true_eq_false, true_and,
      false_and, false_or, or_false, and_true, and_false] <;>
    omega

theorem positions_of_takesFirst {frame : WindowFrame} {i n : ℕ} (h : frame.TakesFirst i n) : frame.positions i n = [] := by
  refine filter_eq_nil_iff.2 fun p _ => ?_
  unfold WindowFrame.TakesFirst at h
  split at h
  · next k hstop =>
    rw [decide_eq_true_eq]
    rintro ⟨-, hle⟩
    rw [hstop, WindowFrameBound.at] at hle
    omega
  · exact h.elim

theorem positions_of_misses {frame : WindowFrame} {i n q : ℕ} (hi : i < n) (h : frame.Misses i n q) : frame.positions i n = [q] := by
  apply List.Pairwise.eq_of_mem_iff (r := (· < ·))
  · exact List.Pairwise.filter _ pairwise_lt_range
  · exact pairwise_singleton ..
  · intro p
    rw [mem_positions, mem_singleton]
    unfold WindowFrame.Contains
    rcases h with ⟨hstop, hle, rfl⟩ | ⟨hstart, hle, hq⟩
    · rw [hstop, WindowFrameBound.at]
      omega
    · rw [hstart, WindowFrameBound.at]
      omega

theorem not_takesFirst_of_misses {frame : WindowFrame} {i n q : ℕ} (h : frame.Misses i n q) : ¬ frame.TakesFirst i n := by
  unfold WindowFrame.TakesFirst
  split
  · next k hstop =>
    rintro ⟨-, hstart, -⟩
    rcases h with ⟨hstop', -⟩ | ⟨hstart', -⟩
    · rw [hstop] at hstop'
      cases hstop'
    · exact hstart hstart'
  · exact id

/-- What is read is what is meant, but for one row. -/
theorem read_cases (frame : WindowFrame) {i n : ℕ} (hi : i < n) (hn : n < 2 ^ 63) :
    (frame.read i n = frame.positions i n ∧ ¬ frame.TakesFirst i n ∧ ∀ p, ¬ frame.Misses i n p) ∨
      (frame.read i n = [0] ∧ frame.positions i n = [] ∧ frame.TakesFirst i n ∧ ∀ p, ¬ frame.Misses i n p) ∨
      ∃ q, frame.read i n = [] ∧ frame.positions i n = [q] ∧ ¬ frame.TakesFirst i n ∧ ∀ p, frame.Misses i n p ↔ p = q := by
  have hsorted : (frame.read i n).Pairwise (· < ·) := List.Pairwise.filter _ pairwise_lt_range
  by_cases htakes : frame.TakesFirst i n
  · have hempty := positions_of_takesFirst htakes
    refine .inr (.inl ⟨?_, hempty, htakes, fun p hp => not_takesFirst_of_misses hp htakes⟩)
    apply List.Pairwise.eq_of_mem_iff hsorted (pairwise_singleton ..)
    intro p
    have hnone : ¬ (p < n ∧ frame.Contains i n p) := by
      rw [← mem_positions, hempty]
      exact not_mem_nil
    rw [mem_read hi hn, WindowFrame.Reads, mem_singleton]
    exact ⟨fun h => h.elim (·.2) fun h => absurd ⟨h.1, h.2.1⟩ hnone, fun h => .inl ⟨htakes, h⟩⟩
  by_cases hmisses : ∃ q, frame.Misses i n q
  · obtain ⟨q, hq⟩ := hmisses
    have hone := positions_of_misses hi hq
    have honly : ∀ p, frame.Misses i n p ↔ p = q := fun p =>
      ⟨fun hp => by simpa [hone] using (positions_of_misses hi hp).symm, fun hp => hp ▸ hq⟩
    refine .inr (.inr ⟨q, eq_nil_iff_forall_not_mem.2 fun p hp => ?_, hone, htakes, honly⟩)
    rcases (mem_read hi hn).1 hp with ⟨h, -⟩ | ⟨hp, hin, hno⟩
    · exact htakes h
    · have hmem := mem_positions.2 ⟨hp, hin⟩
      rw [hone, mem_singleton] at hmem
      exact hno ((honly p).2 hmem)
  · refine .inl ⟨?_, htakes, not_exists.1 hmisses⟩
    apply List.Pairwise.eq_of_mem_iff hsorted (List.Pairwise.filter _ pairwise_lt_range)
    intro p
    rw [mem_read hi hn, ← WindowFrame.positions, mem_positions, WindowFrame.Reads]
    simp [htakes, not_exists.1 hmisses p]

/-- The position whose cell a value function is to return. -/
def WindowFunctionKind.meantAt (function : WindowFunctionKind) (frame : WindowFrame) (i n : ℕ) : Option ℕ :=
  match function with
  | .firstValue _ => (frame.positions i n).head?
  | .lastValue _ => (frame.positions i n).getLast?
  | .nthValue _ nth => if nth.toNat = 0 then none else (frame.positions i n)[nth.toNat - 1]?
  | _ => none

/-- The position whose cell the code returns. -/
def WindowFunctionKind.readAt (function : WindowFunctionKind) (frame : WindowFrame) (i n : ℕ) : Option ℕ :=
  let (start, stop) := frameBounds (some frame) i n
  match function with
  | .firstValue _ => if start < n then some start else none
  | .lastValue _ => if 0 < stop ∧ stop ≤ n then some (stop - 1) else none
  | .nthValue _ nth =>
    if nth.toNat ≠ 0 ∧ saturatingAdd start (nth.toNat - 1) < stop ∧ saturatingAdd start (nth.toNat - 1) < n then
      some (saturatingAdd start (nth.toNat - 1))
    else none
  | _ => none

variable {c : String}

theorem readAt_first {frame : WindowFrame} {i n : ℕ} (hi : i < n) (hn : n < 2 ^ 63) :
    (WindowFunctionKind.firstValue c).readAt frame i n =
      if frame.start = .unboundedFollowing ∨ n ≤ frame.first i n then none else some (frame.first i n) := by
  have hstart := frameBounds_start frame hi hn
  unfold WindowFunctionKind.readAt
  dsimp only
  rw [hstart]
  by_cases hunbounded : frame.start = .unboundedFollowing
  · simp [hunbounded]
  by_cases hlt : n ≤ frame.first i n
  · simp [hunbounded, hlt]
  · simp [hunbounded, hlt, Nat.min_eq_left (Nat.le_of_not_le hlt), Nat.lt_of_not_le hlt]

theorem readAt_last {frame : WindowFrame} {i n : ℕ} (hi : i < n) (hn : n < 2 ^ 63) :
    (WindowFunctionKind.lastValue c).readAt frame i n = if frame.stop = .unboundedPreceding then none else some (frame.last i n) := by
  have hle := frameBounds_le frame hi hn
  have hstop := frameBounds_stop frame hi hn
  unfold WindowFunctionKind.readAt
  dsimp only
  rw [hstop] at hle ⊢
  by_cases hunbounded : frame.stop = .unboundedPreceding
  · simp [hunbounded]
  · rw [if_neg hunbounded] at hle
    simp [hunbounded, hle]

theorem readAt_nth {nth : UInt64} {frame : WindowFrame} {i n : ℕ} (hi : i < n) (hn : n < 2 ^ 63) :
    (WindowFunctionKind.nthValue c nth).readAt frame i n = if nth.toNat = 0 then none else (frame.read i n)[nth.toNat - 1]? := by
  have hle := frameBounds_le frame hi hn
  rw [read_eq frame hi hn]
  unfold WindowFunctionKind.readAt saturatingAdd usizeMax
  generalize frameBounds (some frame) i n = bounds at *
  obtain ⟨start, stop⟩ := bounds
  dsimp only at hle ⊢
  by_cases hzero : nth.toNat = 0
  · simp [hzero]
  by_cases hin : nth.toNat - 1 < stop - start
  · rw [if_pos (by omega), if_neg hzero, getElem?_range' hin, Option.some.injEq]
    omega
  · rw [if_neg (by omega), if_neg hzero, getElem?_eq_none (by rw [length_range']; omega)]

/-! ## Values -/

section

variable (cell : ℕ → String → Json)

def cellOr (p : Option ℕ) (column : String) : Json := (p.map fun p => cell p column).getD .null

/-- The value of a function over the frame of the row at position `i`. -/
def IsFrameValue (function : WindowFunctionKind) (frame : WindowFrame) (i n : ℕ) (v : Json) : Prop :=
  match function with
  | .count none => v = jsonInt (Int64.ofNat (frame.positions i n).length)
  | .count (some c) => v = jsonInt (Int64.ofNat ((frame.positions i n).countP fun p => !isNull (cell p c)))
  | .min c => IsBest (· ≤ ·) ((frame.positions i n).map fun p => cell p c) v
  | .max c => IsBest (fun u v => v ≤ u) ((frame.positions i n).map fun p => cell p c) v
  | .firstValue c | .lastValue c | .nthValue c _ => v = cellOr cell (function.meantAt frame i n) c
  | _ => False

/-- What the loop computes from the cells as they were. -/
def loopValue (function : WindowFunctionKind) (frame : WindowFrame) (i n : ℕ) : Json :=
  match function with
  | .count none => jsonInt (Int64.ofNat (frame.read i n).length)
  | .count (some c) => jsonInt (Int64.ofNat ((frame.read i n).countP fun p => !isNull (cell p c)))
  | .min c => reduceBest F64.le ((frame.read i n).map fun p => cell p c)
  | .max c => reduceBest (fun b n => F64.le n b) ((frame.read i n).map fun p => cell p c)
  | .firstValue c | .lastValue c | .nthValue c _ => cellOr cell (function.readAt frame i n) c
  | _ => .null

def WindowFunctionKind.IsFramed : WindowFunctionKind → Prop
  | .count _ | .min _ | .max _ | .firstValue _ | .lastValue _ | .nthValue _ _ => True
  | _ => False

/-- All cells of the frame are numbers or null and the best number survives; a row
that is taken without being meant has no number, and one that is missed is null. -/
def BestKept (noWorse : ℤ → ℤ → Prop) (c : String) (frame : WindowFrame) (i n : ℕ) : Prop :=
  (frame.TakesFirst i n → (cell 0 c).plainNumber = none) ∧ (∀ p, frame.Misses i n p → isNull (cell p c) = true) ∧
    (∀ p ∈ frame.positions i n, isNull (cell p c) = true ∨ (cell p c).plainNumber ≠ none) ∧
    Survives noWorse ((frame.positions i n).map fun p => cell p c)

/-- A row that is taken without being meant, or missed, does not count for the
function; where a value function looks at one bound only, a row of the frame is
there or the cell is null. -/
def Kept (function : WindowFunctionKind) (frame : WindowFrame) (i n : ℕ) : Prop :=
  match function with
  | .count none => ¬ frame.TakesFirst i n ∧ ∀ p, ¬ frame.Misses i n p
  | .count (some c) => (frame.TakesFirst i n → isNull (cell 0 c) = true) ∧ ∀ p, frame.Misses i n p → isNull (cell p c) = true
  | .min c => BestKept cell (· ≤ ·) c frame i n
  | .max c => BestKept cell (fun u v => v ≤ u) c frame i n
  | .firstValue c =>
    cell (frame.first i n) c = .null ∨ n ≤ frame.first i n ∨
      (frame.start = .unboundedFollowing ↔ frame.positions i n = [])
  | .lastValue c => cell (frame.last i n) c = .null ∨ (frame.stop = .unboundedPreceding ↔ frame.positions i n = [])
  | .nthValue c nth =>
    nth.toNat = 1 → (frame.TakesFirst i n → cell 0 c = .null) ∧ ∀ p, frame.Misses i n p → cell p c = .null
  | _ => True

variable {cell} {frame : WindowFrame} {i n : ℕ}

theorem isBest_iff {test : F64 → F64 → Bool} {noWorse : ℤ → ℤ → Prop} (hcmp : Compares test noWorse) (hi : i < n) (hn : n < 2 ^ 63) (c : String) :
    IsBest noWorse ((frame.positions i n).map fun p => cell p c) (reduceBest test ((frame.read i n).map fun p => cell p c)) ↔
      BestKept cell noWorse c frame i n := by
  unfold BestKept
  rcases read_cases frame hi hn with ⟨heq, htakes, hmisses⟩ | ⟨hread, hmeant, htakes, hmisses⟩ | ⟨q, hread, hmeant, htakes, hmisses⟩
  · rw [heq, isBest_reduceBest hcmp]
    simp [htakes, hmisses]
  · -- the first row is read, and none is meant
    have hnull : reduceBest test [cell 0 c] = .null ↔ numbers [cell 0 c] = [] := reduceBest_eq_null hcmp
    have hone : numbers [cell 0 c] = [] ↔ (cell 0 c).plainNumber = none := by simp [numbers, filterMap_eq_nil_iff]
    rw [hread, hmeant]
    simp only [map_cons, map_nil, IsBest, hnull, hone]
    simp [htakes, hmisses, numbers, Survives]
  · -- a row is meant, and none is read
    have hnull : reduceBest test [] = .null := rfl
    rw [hread, hmeant]
    simp only [map_nil, map_cons, hnull, IsBest, hmisses]
    constructor
    · rintro (⟨hall, -⟩ | ⟨-, _, _, _, _, hm, _⟩)
      · have hq : isNull (cell q c) = true := by simpa using hall
        have hnone : numbers [cell q c] = [] := numbers_of_null (by simpa using hq)
        exact ⟨fun h => absurd h htakes, fun p hp => hp ▸ hq, by simp [hq], fun k hk => by rw [hnone] at hk; cases hk⟩
      · cases hm
    · rintro ⟨-, hq, -⟩
      exact .inl ⟨by simpa using hq q rfl, trivial⟩

/-- The value of the loop is the one that is meant when the rows are kept. -/
theorem isFrameValue_loopValue {function : WindowFunctionKind} (hframed : function.IsFramed) (hi : i < n) (hn : n < 2 ^ 63) :
    IsFrameValue cell function frame i n (loopValue cell function frame i n) ↔ Kept cell function frame i n := by
  have hzero : jsonInt (Int64.ofNat 1) ≠ jsonInt (Int64.ofNat 0) := by
    decide
  cases function with
  | count column =>
    cases column with
    | none =>
      unfold IsFrameValue loopValue Kept
      rcases read_cases frame hi hn with ⟨heq, htakes, hmisses⟩ | ⟨hread, hmeant, htakes, hmisses⟩ | ⟨q, hread, hmeant, htakes, hmisses⟩
      · simp [heq, htakes, hmisses]
      · simpa [hread, hmeant, htakes] using hzero
      · simpa [hread, hmeant, hmisses] using hzero.symm
    | some c =>
      unfold IsFrameValue loopValue Kept
      rcases read_cases frame hi hn with ⟨heq, htakes, hmisses⟩ | ⟨hread, hmeant, htakes, hmisses⟩ | ⟨q, hread, hmeant, htakes, hmisses⟩
      · simp [heq, htakes, hmisses]
      · cases hnull : isNull (cell 0 c) with
        | true => simp [hread, hmeant, hnull, htakes, hmisses]
        | false => simpa [hread, hmeant, hnull, htakes, hmisses] using hzero
      · cases hnull : isNull (cell q c) with
        | true => simp [hread, hmeant, hnull, htakes, hmisses]
        | false => simpa [hread, hmeant, hnull, htakes, hmisses] using hzero.symm
  | min c => exact isBest_iff compares_min hi hn c
  | max c => exact isBest_iff compares_max hi hn c
  | firstValue c =>
    unfold IsFrameValue loopValue Kept
    simp only [readAt_first hi hn, WindowFunctionKind.meantAt, head?_positions]
    by_cases hunbounded : frame.start = .unboundedFollowing
    · have hfirst : ¬ n ≤ frame.first i n := by
        rw [WindowFrame.first, hunbounded, WindowFrameBound.at]
        omega
      by_cases hempty : frame.positions i n = [] <;> simp [hunbounded, hempty, hfirst, cellOr, eq_comm]
    · by_cases hempty : frame.positions i n = [] <;> by_cases hle : n ≤ frame.first i n
      · simp [hunbounded, hempty, hle, cellOr]
      · simp [hunbounded, hempty, hle, cellOr]
      · exact absurd (positions_eq frame i n ▸ by simp [WindowFrame.over]; omega) hempty
      · simp [hunbounded, hempty, hle, cellOr]
  | lastValue c =>
    unfold IsFrameValue loopValue Kept
    simp only [readAt_last hi hn, WindowFunctionKind.meantAt, getLast?_positions]
    by_cases hunbounded : frame.stop = .unboundedPreceding <;> by_cases hempty : frame.positions i n = [] <;>
      simp [hunbounded, hempty, cellOr, eq_comm]
  | nthValue c nth =>
    unfold IsFrameValue loopValue Kept
    simp only [readAt_nth hi hn, WindowFunctionKind.meantAt]
    rcases read_cases frame hi hn with ⟨heq, htakes, hmisses⟩ | ⟨hread, hmeant, htakes, hmisses⟩ | ⟨q, hread, hmeant, htakes, hmisses⟩
    · simp [heq, htakes, hmisses]
    · rcases hnth : nth.toNat with _ | _ | k <;> simp [hread, hmeant, htakes, hmisses, cellOr]
    · rcases hnth : nth.toNat with _ | _ | k <;> simp [hread, hmeant, htakes, hmisses, cellOr, eq_comm]
  | _ => exact hframed.elim

end

/-! ## The loop -/

/-- The row at position `i` reads no row that was written before it. -/
def Untouched (name : String) (function : WindowFunctionKind) (frame : WindowFrame) (i n : ℕ) : Prop :=
  match function with
  | .count (some c) | .min c | .max c => name ≠ c ∨ ∀ p, frame.Reads i n p → i ≤ p
  | .firstValue c => name ≠ c ∨ frame.start = .unboundedFollowing ∨ i ≤ frame.first i n
  | .lastValue c => name ≠ c ∨ frame.stop = .unboundedPreceding ∨ i ≤ frame.last i n
  | .nthValue c nth => name ≠ c ∨ ∀ p, frame.Reads i n p → p + 1 = frame.first i n + nth.toNat → i ≤ p
  | _ => True

/-- The slice of the rows in the bounds. -/
def frameSlice (indices : List ℕ) (bounds : ℕ × ℕ) : List ℕ :=
  if bounds.1 < bounds.2 then (indices.drop bounds.1).take (bounds.2 - bounds.1) else []

theorem map_frameSlice {β : Type} {indices : List ℕ} (frame : WindowFrame) {i : ℕ} (hi : i < indices.length) (hn : indices.length < 2 ^ 63) (g : ℕ → β)
    (d : β) :
    (frameSlice indices (frameBounds (some frame) i indices.length)).map g =
      (frame.read i indices.length).map fun p => ((indices[p]?).map g).getD d := by
  have hle := frameBounds_le frame hi hn
  rw [read_eq frame hi hn]
  generalize frameBounds (some frame) i indices.length = bounds at *
  obtain ⟨start, stop⟩ := bounds
  unfold frameSlice
  split_ifs with hlt
  · apply ext_getElem
    · simp only [length_map, length_take, length_drop, length_range']
      omega
    · intro j h1 h2
      simp only [length_map, length_range'] at h2
      have hj : start + j < indices.length := by omega
      simp [getElem?_eq_getElem hj]
  · rw [show stop - start = 0 by omega]
    rfl

variable {indices : List ℕ} {rows : Rows} {frame : WindowFrame} {i : ℕ}

theorem reduceCount_slice (hi : i < indices.length) (hn : indices.length < 2 ^ 63) (column : Option String) :
    reduceCount rows (frameSlice indices (frameBounds (some frame) i indices.length)) column =
      loopValue (cellAt rows indices) (.count column) frame i indices.length := by
  cases column with
  | none =>
    have hlen := congrArg List.length (map_frameSlice frame hi hn id 0)
    rw [length_map, length_map] at hlen
    rw [reduceCount, loopValue, hlen]
  | some c =>
    have hmap := congrArg (List.countP fun v => !isNull v) (map_frameSlice frame hi hn (fun idx => rows.cell idx c) .null)
    rw [countP_map, countP_map] at hmap
    exact congrArg (fun k => jsonInt (Int64.ofNat k)) hmap

theorem reduceBest_slice (test : F64 → F64 → Bool) (hi : i < indices.length) (hn : indices.length < 2 ^ 63) (c : String) :
    reduceBest test ((frameSlice indices (frameBounds (some frame) i indices.length)).map fun idx => rows.cell idx c) =
      reduceBest test ((frame.read i indices.length).map fun p => cellAt rows indices p c) := by
  rw [map_frameSlice frame hi hn (fun idx => rows.cell idx c) .null]
  rfl

/-- The loop over cells that are as they were. -/
theorem loopValue_filled {name : String} {outs : ℕ → Json} {acc : Rows} {function : WindowFunctionKind} {n : ℕ} (hi : i < n) (hn : n < 2 ^ 63)
    (hnodup : indices.Nodup) (hfilled : ColumnFilled name indices outs i rows acc) (huntouched : Untouched name function frame i n) :
    loopValue (cellAt acc indices) function frame i n = loopValue (cellAt rows indices) function frame i n := by
  have hlist : ∀ c, (name ≠ c ∨ ∀ p, frame.Reads i n p → i ≤ p) → ∀ p ∈ frame.read i n, cellAt acc indices p c = cellAt rows indices p c :=
    fun c hc p hp => hfilled.cellAt_kept hnodup (hc.imp_right fun h => h p ((mem_read hi hn).1 hp))
  have hone : ∀ c, (name ≠ c ∨ ∀ p, function.readAt frame i n = some p → i ≤ p) →
      cellOr (cellAt acc indices) (function.readAt frame i n) c = cellOr (cellAt rows indices) (function.readAt frame i n) c := by
    intro c hc
    cases hread : function.readAt frame i n with
    | none => rfl
    | some p => exact hfilled.cellAt_kept hnodup (hc.imp_right fun h => h p hread)
  cases function with
  | count column =>
    cases column with
    | none => rfl
    | some c =>
      have hcount := countP_congr (p := fun p => !isNull (cellAt acc indices p c)) (q := fun p => !isNull (cellAt rows indices p c))
        fun p hp => by rw [hlist c huntouched p hp]
      rw [loopValue, hcount]
      rfl
  | min c =>
    rw [loopValue, map_congr_left (hlist c huntouched)]
    rfl
  | max c =>
    rw [loopValue, map_congr_left (hlist c huntouched)]
    rfl
  | firstValue c =>
    refine hone c (huntouched.imp_right fun h p hread => ?_)
    rw [readAt_first hi hn] at hread
    obtain ⟨hbounded, hp⟩ := Option.ite_none_left_eq_some.1 hread
    rw [← Option.some.inj hp]
    exact h.resolve_left fun hunbounded => hbounded (.inl hunbounded)
  | lastValue c =>
    refine hone c (huntouched.imp_right fun h p hread => ?_)
    rw [readAt_last hi hn] at hread
    obtain ⟨hbounded, hp⟩ := Option.ite_none_left_eq_some.1 hread
    rw [← Option.some.inj hp]
    exact h.resolve_left hbounded
  | nthValue c nth =>
    refine hone c (huntouched.imp_right fun h p hread => ?_)
    rw [readAt_nth hi hn] at hread
    obtain ⟨hzero, hp⟩ := Option.ite_none_left_eq_some.1 hread
    refine h p ((mem_read hi hn).1 (mem_of_getElem? hp)) ?_
    -- what is read starts where the frame does
    have hstart := frameBounds_start frame hi hn
    have hle := frameBounds_le frame hi hn
    rw [read_eq frame hi hn] at hp
    obtain ⟨hlt, hp⟩ := List.getElem?_eq_some_iff.1 hp
    rw [length_range'] at hlt
    rw [getElem_range'] at hp
    split_ifs at hstart <;> omega
  | _ => rfl

/-- The rows of a partition, in order. -/
structure IsPartition (rows : Rows) (indices : List ℕ) : Prop where
  nodup : indices.Nodup
  range : ∀ idx ∈ indices, idx < rows.length
  short : indices.length < 2 ^ 63

/-- No row before the first is asked for, where that panics. -/
def NoPanic (overflowChecks : Bool) (spec : WindowSpec) (indices : List ℕ) : Prop :=
  ∀ c nth, spec.function = .nthValue c nth → nth.toNat = 0 → overflowChecks = false ∨ indices = []

variable (overflowChecks : Bool) (spec : WindowSpec)

/-- The loop writes what it computes from the cells as they were. -/
theorem computePartition_filled (hframe : spec.frame = some frame) (hframed : spec.function.IsFramed) (hpart : IsPartition rows indices)
    (huntouched : ∀ i < indices.length, Untouched spec.outputName spec.function frame i indices.length)
    (hpanic : NoPanic overflowChecks spec indices) :
    ∃ rows', computePartition overflowChecks spec indices rows = some rows' ∧
      ColumnFilled spec.outputName indices (fun i =>
        loopValue (cellAt rows indices) spec.function frame i indices.length) indices.length rows rows' := by
  have hloop : ∀ value : ℕ → Rows → Option Json,
      (∀ i < indices.length, ∀ acc, value i acc = some (loopValue (cellAt acc indices) spec.function frame i indices.length)) →
      ∃ rows', eachRow spec.outputName value indices rows = some rows' ∧
        ColumnFilled spec.outputName indices (fun i =>
          loopValue (cellAt rows indices) spec.function frame i indices.length) indices.length rows rows' := by
    intro value hvalue
    refine eachRow_filled hpart.nodup hpart.range fun i hi acc hfilled => ?_
    rw [hvalue i hi acc, loopValue_filled hi hpart.short hpart.nodup hfilled (huntouched i hi)]
  unfold computePartition applyAggregateFrame
  rw [hframe]
  cases hfunction : spec.function with
  | count column =>
    rw [hfunction] at hloop
    exact hloop _ fun i hi acc => congrArg some (reduceCount_slice hi hpart.short column)
  | min c =>
    rw [hfunction] at hloop
    exact hloop _ fun i hi acc => congrArg some (reduceBest_slice F64.le hi hpart.short c)
  | max c =>
    rw [hfunction] at hloop
    exact hloop _ fun i hi acc => congrArg some (reduceBest_slice (fun b n => F64.le n b) hi hpart.short c)
  | firstValue c =>
    rw [hfunction] at hloop
    refine hloop _ fun i hi acc => ?_
    simp only [loopValue, cellOr, WindowFunctionKind.readAt]
    split_ifs <;> rfl
  | lastValue c =>
    rw [hfunction] at hloop
    refine hloop _ fun i hi acc => ?_
    simp only [loopValue, cellOr, WindowFunctionKind.readAt]
    split_ifs <;> rfl
  | nthValue c nth =>
    rw [hfunction] at hloop
    refine hloop _ fun i hi acc => ?_
    simp only [loopValue, cellOr, WindowFunctionKind.readAt]
    by_cases hzero : nth.toNat = 0
    · -- without a check the number wraps, past all rows
      have hchecks : overflowChecks = false := (hpanic c nth hfunction hzero).resolve_right (ne_nil_of_length_pos (by omega))
      have hsub : usizeSub overflowChecks nth.toNat 1 = some usizeMax := by
        rw [hzero, hchecks]
        rfl
      have hpast : ¬ saturatingAdd (frameBounds (some frame) i indices.length).1 usizeMax < indices.length := by
        have := hpart.short
        unfold saturatingAdd usizeMax
        omega
      rw [hsub, Option.map_some, if_neg (fun h => hpast h.2), if_neg (fun h => h.1 hzero)]
      rfl
    · have hsub : usizeSub overflowChecks nth.toNat 1 = some (nth.toNat - 1) := if_pos (by omega)
      rw [hsub, Option.map_some]
      by_cases hin : saturatingAdd (frameBounds (some frame) i indices.length).1 (nth.toNat - 1) < (frameBounds (some frame) i indices.length).2 ∧
          saturatingAdd (frameBounds (some frame) i indices.length).1 (nth.toNat - 1) < indices.length
      · rw [if_pos hin, if_pos ⟨hzero, hin⟩]
        rfl
      · rw [if_neg hin, if_neg (fun h => hin h.2)]
        rfl
  | _ =>
    rw [hfunction] at hframed
    exact hframed.elim

/-- The output column of a partition has the values of its frames, as the rows were. -/
def FramesRight (overflowChecks : Bool) (spec : WindowSpec) (frame : WindowFrame) (rows : Rows) (indices : List ℕ) : Prop :=
  ∃ rows', computePartition overflowChecks spec indices rows = some rows' ∧
    ∀ i < indices.length, IsFrameValue (cellAt rows indices) spec.function frame i indices.length (cellAt rows' indices i spec.outputName)

/-- Frames mean what SQL says when no overwritten row is read and the bounds keep
the rows; apart from overwritten rows, only then. -/
theorem frames_right (overflowChecks : Bool) (spec : WindowSpec) {frame : WindowFrame} {rows : Rows}
    {indices : List ℕ} (hframe : spec.frame = some frame)
    (hframed : spec.function.IsFramed) (hpart : IsPartition rows indices) :
    ((NoPanic overflowChecks spec indices ∧ ∀ i < indices.length,
        Untouched spec.outputName spec.function frame i indices.length ∧ Kept (cellAt rows indices) spec.function frame i indices.length) →
      FramesRight overflowChecks spec frame rows indices) ∧
    ((∀ i < indices.length, Untouched spec.outputName spec.function frame i indices.length) →
      FramesRight overflowChecks spec frame rows indices →
        NoPanic overflowChecks spec indices ∧ ∀ i < indices.length, Kept (cellAt rows indices) spec.function frame i indices.length) := by
  constructor
  · rintro ⟨hpanic, hkept⟩
    obtain ⟨rows', hrows', hfilled⟩ := computePartition_filled overflowChecks spec hframe hframed hpart (fun i hi => (hkept i hi).1) hpanic
    refine ⟨rows', hrows', fun i hi => ?_⟩
    rw [hfilled.cellAt hi]
    exact (isFrameValue_loopValue hframed hi hpart.short).2 (hkept i hi).2
  · rintro huntouched ⟨rows', hrows', hvalues⟩
    have hpanic : NoPanic overflowChecks spec indices := by
      intro c nth hfunction hzero
      by_contra hnot
      rw [not_or, Bool.not_eq_false] at hnot
      have hnone : computePartition overflowChecks spec indices rows = none := by
        unfold computePartition
        rw [hfunction]
        refine eachRow_none hnot.2 ?_
        simp only [hzero, hnot.1]
        rfl
      rw [hnone] at hrows'
      cases hrows'
    obtain ⟨rows'', hrows'', hfilled⟩ := computePartition_filled overflowChecks spec hframe hframed hpart huntouched hpanic
    rw [hrows'] at hrows''
    obtain rfl := Option.some.inj hrows''
    refine ⟨hpanic, fun i hi => ?_⟩
    have hvalue := hvalues i hi
    rw [hfilled.cellAt hi] at hvalue
    exact (isFrameValue_loopValue hframed hi hpart.short).1 hvalue

/-- `COUNT(*) OVER (ROWS BETWEEN start AND stop) AS c`. -/
def countSpec (start stop : WindowFrameBound) : WindowSpec where
  outputName := "c"
  function := .count none
  partitionBy := []
  orderBy := []
  frame := some ⟨start, stop⟩

theorem isPartition_three : IsPartition [JsonMap.empty, JsonMap.empty, JsonMap.empty] [0, 1, 2] := ⟨by decide, by decide, by decide⟩

theorem frames_right_sliding : FramesRight true (countSpec (.preceding 1) .currentRow) ⟨.preceding 1, .currentRow⟩
    [JsonMap.empty, JsonMap.empty, JsonMap.empty] [0, 1, 2] := by
  refine (frames_right true (countSpec _ _) rfl trivial isPartition_three).1 ⟨nofun, fun i hi => ⟨trivial, id, fun p => ?_⟩⟩
  rintro (⟨hstop, -⟩ | ⟨hstart, -⟩)
  · cases hstop
  · cases hstart

/-- Before the first row there is nothing to count, and one row is counted. -/
theorem row_counted : ¬ FramesRight true (countSpec .unboundedPreceding (.preceding 2)) ⟨.unboundedPreceding, .preceding 2⟩
    [JsonMap.empty, JsonMap.empty, JsonMap.empty] [0, 1, 2] := by
  rintro ⟨rows', hrows', hvalues⟩
  obtain ⟨rows'', hrows'', hfilled⟩ := computePartition_filled true (countSpec .unboundedPreceding (.preceding 2)) rfl trivial
    isPartition_three (fun _ _ => trivial) nofun
  rw [hrows'] at hrows''
  obtain rfl := Option.some.inj hrows''
  have hvalue := hvalues 0 (by decide)
  rw [hfilled.cellAt (i := 0) (by decide)] at hvalue
  have hkept := (@isFrameValue_loopValue _ _ _ _ (.count none) trivial (by decide) (by decide)).1 hvalue
  exact hkept.1 ⟨by decide, by decide, by decide⟩

end FerroDruid.Query
