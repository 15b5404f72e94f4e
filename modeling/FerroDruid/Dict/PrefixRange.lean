import FerroDruid.Dict.FrontCoded
import FerroDruid.Lib.Bisect
/-!
# Prefix ranges

`find_prefix_range` of a dictionary: two binary searches, one at the prefix and
one at the least byte sequence above everything that starts with it. Bytes are
compared and not characters, so that sequence need not be text.
-/

namespace FerroDruid.Dict

open Lib List

/-! ## The successor of a prefix -/

/-- The loop, on the bytes from the last one. -/
def successorLoop : Bytes → Option Bytes
  | [] => none
  | last :: rest => if last < 0xFF then some ((last + 1) :: rest).reverse else successorLoop rest

/-- `prefix_successor` -/
def prefixSuccessor (pre : Bytes) : Option Bytes := successorLoop pre.reverse

theorem successorLoop_append (bytes : Bytes) (b : UInt8) :
    successorLoop (bytes ++ [b]) =
      match successorLoop bytes with
      | some succ => some (b :: succ)
      | none => if b < 0xFF then some [b + 1] else none := by
  induction bytes with
  | nil => rfl
  | cons last rest ih =>
    rw [cons_append, successorLoop, successorLoop, ih]
    by_cases hlast : last < 0xFF
    · simp [hlast]
    · simp [hlast]

/-- From the first byte on: it changes only if the rest has no successor. -/
theorem prefixSuccessor_cons (b : UInt8) (pre : Bytes) :
    prefixSuccessor (b :: pre) =
      match prefixSuccessor pre with
      | some succ => some (b :: succ)
      | none => if b < 0xFF then some [b + 1] else none := by
  rw [prefixSuccessor, reverse_cons, successorLoop_append, prefixSuccessor]

/-- Below the successor, when there is one. -/
def BelowSuccessor (pre bytes : Bytes) : Prop := ∀ succ, prefixSuccessor pre = some succ → bytes < succ

theorem lt_add_one_iff {b c : UInt8} (hc : c < 0xFF) : b < c + 1 ↔ b < c ∨ b = c := by
  have hnat : c.toNat < 255 := hc
  rw [UInt8.lt_iff_toNat_lt, UInt8.lt_iff_toNat_lt, ← UInt8.toNat_inj, UInt8.toNat_add, UInt8.toNat_one, Nat.mod_eq_of_lt (by omega)]
  omega

theorem lt_or_eq_of_not_lt {c : UInt8} (hc : ¬ c < 0xFF) (b : UInt8) : b < c ∨ b = c := by
  have hnat : ¬ c.toNat < 255 := hc
  have hb := b.toNat_lt
  rw [UInt8.lt_iff_toNat_lt, ← UInt8.toNat_inj]
  omega

/-- Below the successor is what comes before the prefix and what starts with
it. -/
theorem belowSuccessor_iff (pre bytes : Bytes) : BelowSuccessor pre bytes ↔ bytes < pre ∨ pre <+: bytes := by
  unfold BelowSuccessor
  induction pre generalizing bytes with
  | nil => simp [prefixSuccessor, successorLoop]
  | cons b pre ih =>
    rw [prefixSuccessor_cons]
    cases bytes with
    | nil =>
      cases prefixSuccessor pre with
      | some succ => simp
      | none => simp
    | cons c bytes =>
      have hbytes := ih bytes
      have hcases : (c :: bytes < b :: pre ∨ b :: pre <+: c :: bytes) ↔ c < b ∨ c = b ∧ (bytes < pre ∨ pre <+: bytes) := by
        rw [cons_lt_cons_iff, cons_prefix_cons, and_or_left, or_assoc, eq_comm (a := b)]
      rw [hcases, ← hbytes]
      cases prefixSuccessor pre with
      | some succ => simp [cons_lt_cons_iff]
      | none =>
        by_cases hb : b < 0xFF
        · simp [hb, cons_lt_cons_iff, lt_add_one_iff hb]
        · simpa [hb] using lt_or_eq_of_not_lt hb c

theorem not_lt_of_startsWith {pre bytes : Bytes} (h : pre <+: bytes) : ¬ bytes < pre := by
  obtain ⟨rest, rfl⟩ := h
  induction pre with
  | nil => exact not_lt_nil _
  | cons b pre ih =>
    rw [cons_append, cons_lt_cons_iff]
    rintro (hlt | ⟨_, hlt⟩)
    · exact UInt8.lt_irrefl b hlt
    · exact ih hlt

/-- What starts with the prefix lies between it and the successor. -/
theorem startsWith_iff (pre bytes : Bytes) : pre <+: bytes ↔ ¬ bytes < pre ∧ BelowSuccessor pre bytes := by
  rw [belowSuccessor_iff]
  constructor
  · intro h
    exact ⟨not_lt_of_startsWith h, .inr h⟩
  · rintro ⟨hnot, hlt | h⟩
    · exact absurd hlt hnot
    · exact h

/-! ## The range -/

/-- `std::ops::Range` -/
structure Range where
  start : ℕ
  stop : ℕ
  deriving DecidableEq, Repr

def Range.Contains (range : Range) (i : ℕ) : Prop := range.start ≤ i ∧ i < range.stop

/-- `find_prefix_range` -/
def findPrefixRange (values : List Utf8) (pre : Utf8) : Range :=
  let lo := bisect (fun v => v.bytes < pre.bytes) values
  let hi :=
    match prefixSuccessor pre.bytes with
    | some succ => bisect (fun v => v.bytes < succ) values
    | none => values.length
  ⟨lo, hi⟩

/-- What `from_sorted` asks of its caller; an entry may stand twice. -/
def ByteSorted (values : List Utf8) : Prop := values.Pairwise fun s t => s.bytes ≤ t.bytes

instance : DecidablePred ByteSorted := fun values => inferInstanceAs (Decidable (values.Pairwise _))

theorem ByteSorted.partitioned {values : List Utf8} (h : ByteSorted values) (bound : Bytes) : Partitioned (fun v => v.bytes < bound) values := by
  refine List.Pairwise.imp ?_ h
  intro s t hst ht
  rw [decide_eq_true_eq] at ht ⊢
  exact List.lt_of_le_of_lt hst ht

variable {values : List Utf8} {i : ℕ} {v : Utf8}

theorem findPrefixRange_start_le_iff (h : ByteSorted values) (pre : Utf8) (hv : values[i]? = some v) :
    (findPrefixRange values pre).start ≤ i ↔ ¬ v.bytes < pre.bytes := by
  rw [← not_lt]
  show ¬ i < bisect _ values ↔ _
  rw [lt_bisect_iff (h.partitioned pre.bytes), passesAt_of_getElem? hv, decide_eq_true_eq]

theorem lt_findPrefixRange_stop_iff (h : ByteSorted values) (pre : Utf8) (hv : values[i]? = some v) :
    i < (findPrefixRange values pre).stop ↔ BelowSuccessor pre.bytes v.bytes := by
  unfold findPrefixRange BelowSuccessor
  cases prefixSuccessor pre.bytes with
  | some succ => simp [lt_bisect_iff (h.partitioned succ), hv]
  | none => simpa using (List.getElem?_eq_some_iff.1 hv).1

theorem findPrefixRange_stop_le (h : ByteSorted values) (pre : Utf8) : (findPrefixRange values pre).stop ≤ values.length := by
  unfold findPrefixRange
  cases prefixSuccessor pre.bytes with
  | some succ => exact bisect_le_length (h.partitioned succ)
  | none => exact le_rfl

/-- What comes before the prefix is below the successor too. -/
theorem findPrefixRange_start_le_stop (h : ByteSorted values) (pre : Utf8) :
    (findPrefixRange values pre).start ≤ (findPrefixRange values pre).stop := by
  refine le_of_not_gt fun hlt => ?_
  have hlen : (findPrefixRange values pre).stop < values.length := hlt.trans_le (bisect_le_length (h.partitioned pre.bytes))
  have hv := getElem?_eq_getElem hlen
  have hbefore : values[(findPrefixRange values pre).stop].bytes < pre.bytes := by
    by_contra hnot
    exact absurd ((findPrefixRange_start_le_iff h pre hv).2 hnot) (not_le.2 hlt)
  have hbelow := (belowSuccessor_iff pre.bytes _).2 (.inl hbefore)
  exact lt_irrefl _ ((lt_findPrefixRange_stop_iff h pre hv).2 hbelow)

/-- The range holds the ordinals of the entries that start with the prefix and
no others. -/
theorem findPrefixRange_exact (hsorted : ByteSorted values) (pre : Utf8) :
    (findPrefixRange values pre).start ≤ (findPrefixRange values pre).stop ∧
      (findPrefixRange values pre).stop ≤ values.length ∧
      ∀ i v, values[i]? = some v → ((findPrefixRange values pre).Contains i ↔ pre.bytes <+: v.bytes) := by
  refine ⟨findPrefixRange_start_le_stop hsorted pre, findPrefixRange_stop_le hsorted pre, ?_⟩
  intro i v hv
  rw [startsWith_iff, Range.Contains, findPrefixRange_start_le_iff hsorted pre hv, lt_findPrefixRange_stop_iff hsorted pre hv]

/-- What comes after `é` is a character; what comes after U+07FF is no text. -/
def boundaries : List Utf8 := [⟨[0x65], by decide⟩, ⟨[0xC3, 0xA9], by decide⟩, ⟨[0xC3, 0xA9, 0x61], by decide⟩, ⟨[0xDF, 0xBF], by decide⟩]

theorem findPrefixRange_boundaries :
    findPrefixRange boundaries ⟨[0xDF, 0xBF], by decide⟩ = ⟨3, 4⟩ ∧ validUtf8 [0xDF, 0xC0] = false ∧
      ∀ i v, boundaries[i]? = some v → ((findPrefixRange boundaries ⟨[0xDF, 0xBF], by decide⟩).Contains i ↔ [0xDF, 0xBF] <+: v.bytes) :=
  ⟨by simp [findPrefixRange, boundaries, bisect, bisectLoop, passesAt]; decide, by decide, (findPrefixRange_exact (by decide) _).2.2⟩

end FerroDruid.Dict
