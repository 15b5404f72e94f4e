import FerroDruid.Segment.Columns
import FerroDruid.Lib.InvertedIndex
import FerroDruid.Lib.TreeMap
import Mathlib.Data.Finset.Sort
/-!
# String columns

`StringColumnData::from_nullable_values` and `StringMultiColumnData::from_rows`
of `ferrodruid-segment/src/column.rs`. Both are an inverted index over the rows:
a dictionary in byte order, a bitmap for every entry, and one more for the rows
that are null, if there are any.

A row number is cast to `u32`, as are an ordinal and an offset.
-/

namespace FerroDruid.Segment

open Lib List

/-- `DruidBitmap`, a set of `u32`. -/
abbrev DruidBitmap : Type := Finset ℕ

/-- `as u32` -/
def asU32 (n : ℕ) : ℕ := n % 2 ^ 32

theorem asU32_of_lt {n : ℕ} (h : n < 2 ^ 32) : asU32 n = n := Nat.mod_eq_of_lt h

def emptyText : Utf8 := ⟨[], Eq.refl true⟩

/-! ## Dictionaries -/

def utf8Before (s t : Utf8) : Prop := textBefore s.bytes t.bytes = true

instance : DecidableRel utf8Before := fun s t => inferInstanceAs (Decidable (textBefore s.bytes t.bytes = true))

instance : Std.Total utf8Before where
  total _ _ := Std.Total.total (r := fun a b => textBefore a b = true) _ _

instance : IsTrans Utf8 utf8Before where
  trans _ _ _ hst htu := IsTrans.trans (r := fun a b => textBefore a b = true) _ _ _ hst htu

instance : Std.Antisymm utf8Before where
  antisymm _ _ hst hts := Utf8.ext (antisymm (r := fun a b => textBefore a b = true) hst hts)

/-- A `BTreeSet` of texts as it is read. -/
def inByteOrder (unique : Finset Utf8) : List Utf8 := unique.sort utf8Before

/-- Later texts come after earlier ones and differ from them. -/
def Increasing (dictionary : List Utf8) : Prop := dictionary.Pairwise fun s t => utf8Before s t ∧ s ≠ t

theorem Increasing.nodup {dictionary : List Utf8} (h : Increasing dictionary) : dictionary.Nodup :=
  List.Pairwise.imp (fun hst => hst.2) h

theorem increasing_inByteOrder (unique : Finset Utf8) : Increasing (inByteOrder unique) :=
  (Finset.pairwise_sort unique utf8Before).and (Finset.sort_nodup unique utf8Before)

variable {s : Utf8}

@[simp] theorem mem_inByteOrder {unique : Finset Utf8} : s ∈ inByteOrder unique ↔ s ∈ unique :=
  Finset.mem_sort utf8Before

/-- `ordinal_of`, on a text of the dictionary. -/
def ordinalOf (sorted : List Utf8) (s : Utf8) : ℕ := asU32 (sorted.idxOf s)

/-- Ordinals of a dictionary of at most 2^32 entries are the places of its texts. -/
theorem ordinalOf_eq {sorted : List Utf8} (hlen : sorted.length ≤ 2 ^ 32) (hs : s ∈ sorted) :
    ordinalOf sorted s = sorted.idxOf s :=
  asU32_of_lt ((idxOf_lt_length_iff.2 hs).trans_le hlen)

theorem ordinalOf_lt {sorted : List Utf8} (hlen : sorted.length ≤ 2 ^ 32) (hs : s ∈ sorted) :
    ordinalOf sorted s < sorted.length := by
  rw [ordinalOf_eq hlen hs]
  exact idxOf_lt_length_iff.2 hs

theorem getElem?_ordinalOf {sorted : List Utf8} (hlen : sorted.length ≤ 2 ^ 32) (hs : s ∈ sorted) :
    sorted[ordinalOf sorted s]? = some s := by
  rw [ordinalOf_eq hlen hs, getElem?_idxOf_of_mem hs]

theorem ordinalOf_eq_iff {sorted : List Utf8} (hsorted : Increasing sorted) (hlen : sorted.length ≤ 2 ^ 32) {k : ℕ} {t : Utf8}
    (hk : sorted[k]? = some t) (hs : s ∈ sorted) : ordinalOf sorted s = k ↔ s = t := by
  rw [ordinalOf_eq hlen hs]
  exact idxOf_eq_iff hsorted.nodup hk hs

/-! ## What a column's bitmaps say -/

/-- The bitmaps of a dictionary over rows of which `Holds` tells the texts: one
for every entry, and one more if a row is null. -/
structure Indexes (Holds : ℕ → Utf8 → Prop) (IsNull : ℕ → Prop) (dictionary : List Utf8) (bitmap_indexes : List DruidBitmap) : Prop where
  increasing : Increasing dictionary
  bitmap : ∀ (k : ℕ) (s : Utf8), dictionary[k]? = some s → ∃ bm : DruidBitmap, bitmap_indexes[k]? = some bm ∧ ∀ row, row ∈ bm ↔ Holds row s
  trailing : (∃ row, IsNull row) → bitmap_indexes.length = dictionary.length + 1 ∧
    ∃ bm : DruidBitmap, bitmap_indexes[dictionary.length]? = some bm ∧ ∀ row, row ∈ bm ↔ IsNull row
  plain : (¬ ∃ row, IsNull row) → bitmap_indexes.length = dictionary.length

/-- The extra bitmap is there when it is needed. -/
def withNulls (has_null : Bool) (bitmaps : List DruidBitmap) (null_bitmap : DruidBitmap) : List DruidBitmap :=
  if has_null then bitmaps ++ [null_bitmap] else bitmaps

theorem indexes_of_postings {Holds : ℕ → Utf8 → Prop} {IsNull : ℕ → Prop} {dictionary : List Utf8} {postings : List (ℕ × ℕ)}
    {has_null : Bool} {null_bitmap : DruidBitmap} (hincreasing : Increasing dictionary)
    (hpostings : ∀ (k : ℕ) (s : Utf8), dictionary[k]? = some s → ∀ row, (k, row) ∈ postings ↔ Holds row s)
    (hhas : has_null = true ↔ ∃ row, IsNull row) (hnull : ∀ row, row ∈ null_bitmap ↔ IsNull row) :
    Indexes Holds IsNull dictionary (withNulls has_null (postings.foldl post (List.replicate dictionary.length ∅)) null_bitmap) where
  increasing := hincreasing
  bitmap := by
    intro k s hk
    have hlt : k < dictionary.length := (List.getElem?_eq_some_iff.1 hk).1
    obtain ⟨bm, hbm, hmem⟩ := mem_foldl_post_empty postings hlt
    refine ⟨bm, ?_, fun row => (hmem row).trans (hpostings k s hk row)⟩
    unfold withNulls
    split
    · rw [getElem?_append_left (by simpa using hlt), hbm]
    · exact hbm
  trailing := by
    intro h
    rw [withNulls, if_pos (hhas.2 h)]
    exact ⟨by simp, null_bitmap, by simp, hnull⟩
  plain := by
    intro h
    rw [withNulls, if_neg fun hh => h (hhas.1 hh)]
    simp

namespace Indexes

variable {Holds : ℕ → Utf8 → Prop} {IsNull : ℕ → Prop} {dictionary : List Utf8} {bitmap_indexes : List DruidBitmap}

/-- A row is in the bitmap of what it holds and, null, in the last one. -/
theorem mem_iff (h : Indexes Holds IsNull dictionary bitmap_indexes) {k row : ℕ} :
    (∃ bm : DruidBitmap, bitmap_indexes[k]? = some bm ∧ row ∈ bm) ↔
      (∃ s, dictionary[k]? = some s ∧ Holds row s) ∨ k = dictionary.length ∧ IsNull row := by
  by_cases hk : k < dictionary.length
  · have hentry := getElem?_eq_getElem hk
    obtain ⟨bm, hbm, hmem⟩ := h.bitmap k _ hentry
    constructor
    · rintro ⟨bm', hbm', hrow⟩
      obtain rfl : bm = bm' := Option.some.inj (hbm.symm.trans hbm')
      exact .inl ⟨_, hentry, (hmem row).1 hrow⟩
    · rintro (⟨s, hs, hrow⟩ | ⟨rfl, -⟩)
      · obtain rfl := Option.some.inj (hentry.symm.trans hs)
        exact ⟨bm, hbm, (hmem row).2 hrow⟩
      · exact absurd hk (lt_irrefl _)
  · have hnone : dictionary[k]? = none := getElem?_eq_none (not_lt.1 hk)
    by_cases hnull : ∃ row, IsNull row
    · obtain ⟨hlen, bm, hbm, hmem⟩ := h.trailing hnull
      constructor
      · rintro ⟨bm', hbm', hrow⟩
        have hlt : k < bitmap_indexes.length := (List.getElem?_eq_some_iff.1 hbm').1
        obtain rfl : k = dictionary.length := by omega
        obtain rfl : bm = bm' := Option.some.inj (hbm.symm.trans hbm')
        exact .inr ⟨rfl, (hmem row).1 hrow⟩
      · rintro (⟨s, hs, -⟩ | ⟨rfl, hrow⟩)
        · rw [hnone] at hs; cases hs
        · exact ⟨bm, hbm, (hmem row).2 hrow⟩
    · have hlen := h.plain hnull
      constructor
      · rintro ⟨bm, hbm, -⟩
        have hlt : k < bitmap_indexes.length := (List.getElem?_eq_some_iff.1 hbm).1
        omega
      · rintro (⟨s, hs, -⟩ | ⟨-, hrow⟩)
        · rw [hnone] at hs; cases hs
        · exact absurd ⟨row, hrow⟩ hnull

end Indexes

/-- `null_rows` -/
def trailingBitmap (dictionary : List Utf8) (bitmap_indexes : List DruidBitmap) : Option DruidBitmap :=
  if bitmap_indexes.length = dictionary.length + 1 then bitmap_indexes.getLast? else none

/-- The last bitmap is told from the others by their number. -/
theorem Indexes.trailingBitmap_spec {Holds : ℕ → Utf8 → Prop} {IsNull : ℕ → Prop} {dictionary : List Utf8}
    {bitmap_indexes : List DruidBitmap} (h : Indexes Holds IsNull dictionary bitmap_indexes) :
    ((trailingBitmap dictionary bitmap_indexes).isSome = true ↔ ∃ row, IsNull row) ∧
      ∀ bm, trailingBitmap dictionary bitmap_indexes = some bm → ∀ row, row ∈ bm ↔ IsNull row := by
  unfold trailingBitmap
  by_cases hnull : ∃ row, IsNull row
  · obtain ⟨hlen, bm, hbm, hmem⟩ := h.trailing hnull
    have hlast : bitmap_indexes.getLast? = some bm := by
      rw [getLast?_eq_getElem?, hlen, Nat.add_sub_cancel, hbm]
    rw [if_pos hlen, hlast]
    refine ⟨by simpa using hnull, fun bm' hbm' => ?_⟩
    obtain rfl := Option.some.inj hbm'
    exact hmem
  · have hlen := h.plain hnull
    rw [if_neg (by omega)]
    exact ⟨by simpa using hnull, by simp⟩

/-! ## Single values -/

namespace StringColumnData

/-- What the first pass has seen. -/
structure Seen where
  has_null : Bool := false
  unique : Finset Utf8 := ∅

def Seen.value (seen : Seen) : Option Utf8 → Seen
  | some s => { seen with unique := insert s seen.unique }
  | none => { seen with has_null := true }

/-- What the second pass has written. -/
structure Written where
  bitmaps : List DruidBitmap
  null_bitmap : DruidBitmap := ∅
  encoded_values : List ℕ := []

def Written.value (sorted : List Utf8) (null_ord : ℕ) (w : Written) : Option Utf8 × ℕ → Written
  | (some s, row_idx) =>
    let ord := ordinalOf sorted s
    { w with encoded_values := w.encoded_values ++ [ord], bitmaps := post w.bitmaps (ord, asU32 row_idx) }
  | (none, row_idx) =>
    { w with encoded_values := w.encoded_values ++ [null_ord], null_bitmap := insert (asU32 row_idx) w.null_bitmap }

def seen (values : List (Option Utf8)) : Seen := values.foldl Seen.value {}

/-- Null rows point at `""`, which is then an entry. -/
def sortedOf (values : List (Option Utf8)) : List Utf8 :=
  inByteOrder (if (seen values).has_null then insert emptyText (seen values).unique else (seen values).unique)

def nullOrd (values : List (Option Utf8)) : ℕ := if (seen values).has_null then ordinalOf (sortedOf values) emptyText else 0

def written (values : List (Option Utf8)) : Written :=
  values.zipIdx.foldl (Written.value (sortedOf values) (nullOrd values)) { bitmaps := List.replicate (sortedOf values).length ∅ }

def fromNullableValues (values : List (Option Utf8)) : StringColumnData DruidBitmap where
  dictionary := sortedOf values
  encoded_values := (written values).encoded_values
  bitmap_indexes := withNulls (seen values).has_null (written values).bitmaps (written values).null_bitmap

def nullRows (column : StringColumnData DruidBitmap) : Option DruidBitmap :=
  trailingBitmap column.dictionary column.bitmap_indexes

/-- A row number that is no `u32` is in no bitmap. -/
def isNullRow (column : StringColumnData DruidBitmap) (row_idx : ℕ) : Bool :=
  match column.nullRows with
  | some bm => row_idx < 2 ^ 32 ∧ row_idx ∈ bm
  | none => false

/-- The rows read back: the ordinals, but for rows that are null. -/
def decode (column : StringColumnData DruidBitmap) : List (Option Utf8) :=
  column.encoded_values.zipIdx.map fun (ord, row_idx) => if column.isNullRow row_idx then none else column.dictionary[ord]?

/-! ### The first pass -/

theorem foldl_seen (values : List (Option Utf8)) (seen : Seen) :
    ((values.foldl Seen.value seen).has_null = true ↔ seen.has_null = true ∨ none ∈ values) ∧
      ∀ s, s ∈ (values.foldl Seen.value seen).unique ↔ s ∈ seen.unique ∨ some s ∈ values := by
  induction values generalizing seen with
  | nil => simp
  | cons value values ih =>
    obtain ⟨hnull, hmem⟩ := ih (seen.value value)
    rw [foldl_cons, hnull]
    refine ⟨?_, fun s => ?_⟩
    · cases value <;> simp [Seen.value]
    · rw [hmem]
      cases value with
      | none => simp [Seen.value]
      | some t =>
        simp only [Seen.value, Finset.mem_insert, mem_cons, Option.some.injEq]
        tauto

variable (values : List (Option Utf8))

theorem has_null_iff : (seen values).has_null = true ↔ none ∈ values := by
  simpa [seen] using (foldl_seen values {}).1

variable {s : Utf8}

theorem mem_unique : s ∈ (seen values).unique ↔ some s ∈ values := by
  simpa [seen] using (foldl_seen values {}).2 s

theorem mem_sortedOf : s ∈ sortedOf values ↔ some s ∈ values ∨ none ∈ values ∧ s = emptyText := by
  unfold sortedOf
  split_ifs with hnull <;> rw [has_null_iff] at hnull
  · simp [mem_unique, hnull, or_comm]
  · simp [mem_unique, hnull]

theorem increasing_sortedOf : Increasing (sortedOf values) := increasing_inByteOrder _

/-- What a row's ordinal stands for. -/
def placed (value : Option Utf8) : Utf8 := value.getD emptyText

variable {values}

theorem placed_mem_sortedOf {value : Option Utf8} (h : value ∈ values) : placed value ∈ sortedOf values := by
  rw [mem_sortedOf]
  cases value with
  | none => exact .inr ⟨h, rfl⟩
  | some s => exact .inl h

variable (values)

/-- There are no more entries than rows. -/
theorem length_sortedOf_le : (sortedOf values).length ≤ values.length := by
  have hsub : sortedOf values ⊆ values.map placed := by
    intro s hs
    rcases (mem_sortedOf values).1 hs with h | ⟨h, rfl⟩
    · exact mem_map.2 ⟨some s, h, rfl⟩
    · exact mem_map.2 ⟨none, h, rfl⟩
  have hle := (subperm_of_subset (increasing_sortedOf values).nodup hsub).length_le
  rwa [length_map] at hle

/-! ### The second pass -/

def posting (sorted : List Utf8) : Option Utf8 × ℕ → Option (ℕ × ℕ)
  | (some s, row_idx) => some (ordinalOf sorted s, asU32 row_idx)
  | (none, _) => none

theorem foldl_written (sorted : List Utf8) (null_ord : ℕ) (rows : List (Option Utf8 × ℕ)) (w : Written) :
    (rows.foldl (Written.value sorted null_ord) w).bitmaps = (rows.filterMap (posting sorted)).foldl post w.bitmaps ∧
      (rows.foldl (Written.value sorted null_ord) w).encoded_values =
        w.encoded_values ++ rows.map (fun row => row.1.elim null_ord (ordinalOf sorted)) ∧
      ∀ row, row ∈ (rows.foldl (Written.value sorted null_ord) w).null_bitmap ↔
        row ∈ w.null_bitmap ∨ ∃ row_idx, (none, row_idx) ∈ rows ∧ asU32 row_idx = row := by
  induction rows generalizing w with
  | nil => simp
  | cons row rows ih =>
    obtain ⟨value, row_idx⟩ := row
    obtain ⟨hbitmaps, hencoded, hnull⟩ := ih (w.value sorted null_ord (value, row_idx))
    rw [foldl_cons, hbitmaps, hencoded]
    cases value with
    | none =>
      refine ⟨rfl, by simp [Written.value], fun r => ?_⟩
      rw [hnull]
      simp only [Written.value, Finset.mem_insert, mem_cons, Prod.mk.injEq, true_and]
      constructor
      · rintro ((rfl | h) | ⟨i, hi, hr⟩)
        · exact .inr ⟨row_idx, .inl rfl, rfl⟩
        · exact .inl h
        · exact .inr ⟨i, .inr hi, hr⟩
      · rintro (h | ⟨i, rfl | hi, hr⟩)
        · exact .inl (.inr h)
        · exact .inl (.inl hr.symm)
        · exact .inr ⟨i, hi, hr⟩
    | some s =>
      refine ⟨rfl, by simp [Written.value], fun r => ?_⟩
      rw [hnull]
      simp [Written.value]

theorem encoded_values_eq :
    (written values).encoded_values = values.map fun value => ordinalOf (sortedOf values) (placed value) := by
  have hencoded := (foldl_written (sortedOf values) (nullOrd values) values.zipIdx
    { bitmaps := List.replicate (sortedOf values).length ∅ }).2.1
  refine hencoded.trans ?_
  refine ext_getElem? fun i => ?_
  rw [nil_append, getElem?_map, getElem?_map, getElem?_zipIdx, Option.map_map]
  refine Option.map_congr fun value hvalue => ?_
  cases value with
  | some s => rfl
  | none =>
    have hnull : (seen values).has_null = true := (has_null_iff values).2 (mem_of_getElem? hvalue)
    exact if_pos hnull

variable {values}

section

variable (hlen : values.length ≤ 2 ^ 32)

include hlen

/-- Rows up to the 2^32nd are numbered. -/
theorem asU32_row {row : ℕ} {value : Option Utf8} (h : values[row]? = some value) : asU32 row = row :=
  asU32_of_lt ((List.getElem?_eq_some_iff.1 h).1.trans_le hlen)

theorem mem_null_bitmap (row : ℕ) : row ∈ (written values).null_bitmap ↔ values[row]? = some none := by
  have hnull := (foldl_written (sortedOf values) (nullOrd values) values.zipIdx
    { bitmaps := List.replicate (sortedOf values).length ∅ }).2.2 row
  refine hnull.trans ⟨?_, fun h => .inr ⟨row, mk_mem_zipIdx_iff_getElem?.2 h, asU32_row hlen h⟩⟩
  rintro (h | ⟨i, hi, rfl⟩)
  · simp at h
  · have hi := mk_mem_zipIdx_iff_getElem?.1 hi
    rwa [asU32_row hlen hi]

theorem mem_postings {k : ℕ} (hk : (sortedOf values)[k]? = some s) (row : ℕ) :
    (k, row) ∈ values.zipIdx.filterMap (posting (sortedOf values)) ↔ values[row]? = some (some s) := by
  have hdict : (sortedOf values).length ≤ 2 ^ 32 := (length_sortedOf_le values).trans hlen
  have hord : ∀ t, some t ∈ values → (ordinalOf (sortedOf values) t = k ↔ t = s) := fun t ht =>
    ordinalOf_eq_iff (increasing_sortedOf values) hdict hk (placed_mem_sortedOf ht)
  rw [mem_filterMap]
  constructor
  · rintro ⟨⟨value, i⟩, hi, hposting⟩
    have hi := mk_mem_zipIdx_iff_getElem?.1 hi
    cases value with
    | none => cases hposting
    | some t =>
      obtain ⟨rfl, rfl⟩ := Prod.mk.inj (Option.some.inj hposting)
      rw [asU32_row hlen hi, hi, (hord t (mem_of_getElem? hi)).1 rfl]
  · intro h
    refine ⟨(some s, row), mk_mem_zipIdx_iff_getElem?.2 h, ?_⟩
    rw [posting, (hord s (mem_of_getElem? h)).2 rfl, asU32_row hlen h]

theorem indexes : Indexes (fun row s => values[row]? = some (some s)) (fun row => values[row]? = some none)
      (fromNullableValues values).dictionary (fromNullableValues values).bitmap_indexes := by
  have hbitmaps := (foldl_written (sortedOf values) (nullOrd values) values.zipIdx
    { bitmaps := List.replicate (sortedOf values).length ∅ }).1
  have hhas : (seen values).has_null = true ↔ ∃ row : ℕ, values[row]? = some none :=
    (has_null_iff values).trans mem_iff_getElem?
  have h := indexes_of_postings (increasing_sortedOf values) (fun k s hk row => mem_postings hlen hk row) hhas
    (mem_null_bitmap hlen)
  rwa [← hbitmaps] at h

end

/-- No row behind the 2^32nd passes the null check. -/
theorem isNullRow_of_wide (column : StringColumnData DruidBitmap) {row_idx : ℕ} (h : 2 ^ 32 ≤ row_idx) :
    column.isNullRow row_idx = false := by
  unfold isNullRow
  split
  · exact decide_eq_false fun hrow => absurd hrow.1 (not_lt.2 h)
  · rfl

theorem isNullRow_iff (hlen : values.length ≤ 2 ^ 32) (row : ℕ) :
    (fromNullableValues values).isNullRow row = true ↔ values[row]? = some none := by
  obtain ⟨hsome, hmem⟩ := (indexes hlen).trailingBitmap_spec
  unfold isNullRow nullRows
  cases hbm : trailingBitmap (fromNullableValues values).dictionary (fromNullableValues values).bitmap_indexes with
  | none =>
    rw [hbm] at hsome
    simp only [Option.isSome_none, Bool.false_eq_true, false_iff, not_exists] at hsome ⊢
    exact hsome row
  | some bm =>
    simp only [decide_eq_true_eq, hmem bm hbm row]
    exact ⟨fun h => h.2, fun h => ⟨(List.getElem?_eq_some_iff.1 h).1.trans_le hlen, h⟩⟩

theorem decode_eq (hlen : values.length ≤ 2 ^ 32) : (fromNullableValues values).decode = values := by
  have hdict : (sortedOf values).length ≤ 2 ^ 32 := (length_sortedOf_le values).trans hlen
  have hencoded : (fromNullableValues values).encoded_values = _ := encoded_values_eq values
  refine ext_getElem? fun row => ?_
  rw [decode, hencoded, getElem?_map, getElem?_zipIdx, getElem?_map, Option.map_map, Option.map_map]
  cases hvalue : values[row]? with
  | none => rfl
  | some value =>
    simp only [Option.map_some, Function.comp_apply, Option.some.injEq, Nat.zero_add]
    cases value with
    | none => rw [if_pos ((isNullRow_iff hlen row).2 hvalue)]
    | some s =>
      have hnot : ¬ (fromNullableValues values).isNullRow row = true := fun h => by
        have h := (isNullRow_iff hlen row).1 h
        rw [hvalue] at h
        cases h
      rw [if_neg hnot]
      exact getElem?_ordinalOf hdict (placed_mem_sortedOf (mem_of_getElem? hvalue))

/-- A column stands for its rows. -/
structure Represents (values : List (Option Utf8)) (column : StringColumnData DruidBitmap) : Prop
    extends Indexes (fun row s => values[row]? = some (some s)) (fun row => values[row]? = some none)
      column.dictionary column.bitmap_indexes where
  mem_dictionary : ∀ s, s ∈ column.dictionary ↔ some s ∈ values ∨ none ∈ values ∧ s = emptyText
  one_ordinal_each : column.encoded_values.length = values.length
  ordinal_lt : ∀ ord ∈ column.encoded_values, ord < column.dictionary.length
  partition : ∀ row < values.length, ∃! k : ℕ, ∃ bm : DruidBitmap, column.bitmap_indexes[k]? = some bm ∧ row ∈ bm
  has_nullRows : column.nullRows.isSome = true ↔ none ∈ values
  mem_nullRows : ∀ bm, column.nullRows = some bm → ∀ row : ℕ, row ∈ bm ↔ values[row]? = some none
  isNullRow_iff : ∀ row : ℕ, column.isNullRow row = true ↔ values[row]? = some none
  decode_eq : column.decode = values

theorem represents (hlen : values.length ≤ 2 ^ 32) : Represents values (fromNullableValues values) where
  toIndexes := indexes hlen
  mem_dictionary := fun s => mem_sortedOf values
  one_ordinal_each := (congrArg List.length (encoded_values_eq values)).trans (length_map _)
  ordinal_lt := by
    intro ord hord
    rw [show (fromNullableValues values).encoded_values = _ from encoded_values_eq values, mem_map] at hord
    obtain ⟨value, hvalue, rfl⟩ := hord
    exact ordinalOf_lt ((length_sortedOf_le values).trans hlen) (placed_mem_sortedOf hvalue)
  partition := by
    intro row hrow
    have hvalue := getElem?_eq_getElem hrow
    -- the row's value tells its bitmap
    simp only [(indexes hlen).mem_iff, hvalue, Option.some.injEq]
    cases hv : values[row] with
    | none => exact ⟨_, .inr ⟨rfl, rfl⟩, by simp⟩
    | some s =>
      have hs : s ∈ sortedOf values := placed_mem_sortedOf (mem_of_getElem? (hvalue.trans (congrArg some hv)))
      refine ⟨_, .inl ⟨s, getElem?_idxOf_of_mem hs, rfl⟩, fun k hk => ?_⟩
      obtain ⟨t, ht, hst⟩ | ⟨-, h⟩ := hk
      · obtain rfl := Option.some.inj hst
        exact ((idxOf_eq_iff (increasing_sortedOf values).nodup ht hs).2 rfl).symm
      · cases h
  has_nullRows := (indexes hlen).trailingBitmap_spec.1.trans mem_iff_getElem?.symm
  mem_nullRows := (indexes hlen).trailingBitmap_spec.2
  isNullRow_iff := StringColumnData.isNullRow_iff hlen
  decode_eq := StringColumnData.decode_eq hlen

end StringColumnData

/-! ## Several values -/

namespace StringMultiColumnData

structure Seen where
  has_empty : Bool := false
  unique : Finset Utf8 := ∅

def Seen.row (seen : Seen) (row : List Utf8) : Seen where
  has_empty := if row.isEmpty then true else seen.has_empty
  unique := row.foldl (fun unique v => insert v unique) seen.unique

structure Written where
  bitmaps : List DruidBitmap
  null_bitmap : DruidBitmap := ∅
  ordinals : List ℕ := []
  row_offsets : List ℕ := [0]

def Written.element (sorted : List Utf8) (row_idx : ℕ) (w : Written) (v : Utf8) : Written :=
  let ord := ordinalOf sorted v
  { w with ordinals := w.ordinals ++ [ord], bitmaps := post w.bitmaps (ord, asU32 row_idx) }

def Written.row (sorted : List Utf8) (w : Written) (row : List Utf8 × ℕ) : Written :=
  let w := if row.1.isEmpty then { w with null_bitmap := insert (asU32 row.2) w.null_bitmap } else w
  let w := row.1.foldl (Written.element sorted row.2) w
  { w with row_offsets := w.row_offsets ++ [asU32 w.ordinals.length] }

def seen (rows : List (List Utf8)) : Seen := rows.foldl Seen.row {}

def sortedOf (rows : List (List Utf8)) : List Utf8 := inByteOrder (seen rows).unique

def written (sorted : List Utf8) (rows : List (List Utf8)) : Written :=
  rows.zipIdx.foldl (Written.row sorted) { bitmaps := List.replicate sorted.length ∅ }

def fromRows (rows : List (List Utf8)) : StringMultiColumnData DruidBitmap where
  dictionary := sortedOf rows
  row_offsets := (written (sortedOf rows) rows).row_offsets
  ordinals := (written (sortedOf rows) rows).ordinals
  bitmap_indexes := withNulls (seen rows).has_empty (written (sortedOf rows) rows).bitmaps (written (sortedOf rows) rows).null_bitmap

def numRows (column : StringMultiColumnData DruidBitmap) : ℕ := column.row_offsets.length - 1

def rowOrdinals (column : StringMultiColumnData DruidBitmap) (row_idx : ℕ) : Option (List ℕ) := do
  let start ← column.row_offsets[row_idx]?
  let stop ← column.row_offsets[row_idx + 1]?
  if start ≤ stop ∧ stop ≤ column.ordinals.length then some ((column.ordinals.drop start).take (stop - start)) else none

def rowValues (column : StringMultiColumnData DruidBitmap) (row_idx : ℕ) : List Utf8 :=
  ((column.rowOrdinals row_idx).map fun ords => ords.filterMap fun ord => column.dictionary[ord]?).getD []

def isNullRow (column : StringMultiColumnData DruidBitmap) (row_idx : ℕ) : Bool :=
  (column.rowOrdinals row_idx).any List.isEmpty

def nullRows (column : StringMultiColumnData DruidBitmap) : Option DruidBitmap :=
  trailingBitmap column.dictionary column.bitmap_indexes

/-! ### The first pass -/

theorem mem_foldl_insert (row : List Utf8) (unique : Finset Utf8) (s : Utf8) :
    s ∈ row.foldl (fun unique v => insert v unique) unique ↔ s ∈ unique ∨ s ∈ row := by
  induction row generalizing unique with
  | nil => simp
  | cons v row ih =>
    rw [foldl_cons, ih, Finset.mem_insert, mem_cons]
    tauto

theorem foldl_seen (rows : List (List Utf8)) (seen : Seen) :
    ((rows.foldl Seen.row seen).has_empty = true ↔ seen.has_empty = true ∨ [] ∈ rows) ∧
      ∀ s, s ∈ (rows.foldl Seen.row seen).unique ↔ s ∈ seen.unique ∨ s ∈ rows.flatten := by
  induction rows generalizing seen with
  | nil => simp
  | cons row rows ih =>
    obtain ⟨hempty, hmem⟩ := ih (seen.row row)
    rw [foldl_cons, hempty]
    refine ⟨?_, fun s => ?_⟩
    · cases row <;> simp [Seen.row]
    · rw [hmem, Seen.row, mem_foldl_insert, flatten_cons, mem_append, or_assoc]

variable (rows : List (List Utf8))

theorem has_empty_iff : (seen rows).has_empty = true ↔ [] ∈ rows := by
  simpa [seen] using (foldl_seen rows {}).1

variable {s : Utf8}

theorem mem_sortedOf : s ∈ sortedOf rows ↔ s ∈ rows.flatten := by
  have hmem := (foldl_seen rows {}).2 s
  rw [sortedOf, mem_inByteOrder, seen, hmem]
  simp

theorem increasing_sortedOf : Increasing (sortedOf rows) := increasing_inByteOrder _

/-- There are no more entries than elements. -/
theorem length_sortedOf_le : (sortedOf rows).length ≤ rows.flatten.length :=
  (subperm_of_subset (increasing_sortedOf rows).nodup fun _ hs => (mem_sortedOf rows).1 hs).length_le

/-! ### The second pass -/

variable (sorted : List Utf8)

def postingsOf (row : List Utf8 × ℕ) : List (ℕ × ℕ) := row.1.map fun v => (ordinalOf sorted v, asU32 row.2)

theorem foldl_element (row : List Utf8) (row_idx : ℕ) (w : Written) :
    row.foldl (Written.element sorted row_idx) w =
      { w with
        ordinals := w.ordinals ++ row.map (ordinalOf sorted)
        bitmaps := (postingsOf sorted (row, row_idx)).foldl post w.bitmaps } := by
  induction row generalizing w with
  | nil => simp [postingsOf]
  | cons v row ih =>
    rw [foldl_cons, ih]
    simp [Written.element, postingsOf]

/-- A row adds its ordinals, and an offset behind them. -/
theorem row_eq (w : Written) (row : List Utf8 × ℕ) :
    w.row sorted row =
      { bitmaps := (postingsOf sorted row).foldl post w.bitmaps
        null_bitmap := if row.1.isEmpty then insert (asU32 row.2) w.null_bitmap else w.null_bitmap
        ordinals := w.ordinals ++ row.1.map (ordinalOf sorted)
        row_offsets := w.row_offsets ++ [asU32 (w.ordinals.length + row.1.length)] } := by
  unfold Written.row
  simp only [foldl_element]
  split <;> simp

theorem written_concat (row : List Utf8) :
    written sorted (rows ++ [row]) = (written sorted rows).row sorted (row, rows.length) := by
  simp [written, zipIdx_append]

theorem ordinals_written : (written sorted rows).ordinals = rows.flatten.map (ordinalOf sorted) := by
  induction rows using List.reverseRecOn with
  | nil => rfl
  | append_singleton rows row ih => simp [written_concat, row_eq, ih]

theorem bitmaps_written :
    (written sorted rows).bitmaps = (rows.zipIdx.flatMap (postingsOf sorted)).foldl post (List.replicate sorted.length ∅) := by
  induction rows using List.reverseRecOn with
  | nil => rfl
  | append_singleton rows row ih => simp [written_concat, row_eq, ih, zipIdx_append]

/-- Where a row starts. -/
def offsetOf (row_idx : ℕ) : ℕ := (rows.take row_idx).flatten.length

theorem row_offsets_written :
    (written sorted rows).row_offsets = (List.range (rows.length + 1)).map fun row_idx => asU32 (offsetOf rows row_idx) := by
  induction rows using List.reverseRecOn with
  | nil => rfl
  | append_singleton rows row ih =>
    have hold : ∀ row_idx ∈ List.range (rows.length + 1), offsetOf (rows ++ [row]) row_idx = offsetOf rows row_idx := by
      intro row_idx hrow
      have hle : row_idx ≤ rows.length := Nat.lt_succ_iff.1 (mem_range.1 hrow)
      rw [offsetOf, take_append_of_le_length hle, offsetOf]
    have hlast : offsetOf (rows ++ [row]) (rows.length + 1) = (written sorted rows).ordinals.length + row.length := by
      rw [ordinals_written, offsetOf, take_of_length_le (by simp), flatten_append, length_append, length_map]
      simp
    have hmap : (List.range (rows.length + 1)).map (fun row_idx => asU32 (offsetOf (rows ++ [row]) row_idx)) =
        (List.range (rows.length + 1)).map fun row_idx => asU32 (offsetOf rows row_idx) :=
      map_congr_left fun row_idx hrow => by rw [hold row_idx hrow]
    rw [length_append, length_singleton, range_succ (n := rows.length + 1), map_append, map_singleton, hlast,
      hmap, written_concat, row_eq, ih]

theorem null_bitmap_written (row : ℕ) :
    row ∈ (written sorted rows).null_bitmap ↔ ∃ row_idx, ([], row_idx) ∈ rows.zipIdx ∧ asU32 row_idx = row := by
  induction rows using List.reverseRecOn with
  | nil => simp [written]
  | append_singleton rows last ih =>
    rw [written_concat, row_eq, zipIdx_append]
    cases last with
    | nil =>
      simp only [isEmpty_nil, if_true, Finset.mem_insert, ih, mem_append, zipIdx_singleton, mem_singleton,
        Prod.mk.injEq, true_and, Nat.zero_add]
      constructor
      · rintro (rfl | ⟨i, hi, hrow⟩)
        · exact ⟨_, .inr rfl, rfl⟩
        · exact ⟨i, .inl hi, hrow⟩
      · rintro ⟨i, hi | rfl, rfl⟩
        · exact .inr ⟨i, hi, rfl⟩
        · exact .inl rfl
    | cons v last => simp [ih]

/-! ### What a column says -/

variable {rows} {row : List Utf8}

theorem asU32_row (hlen : rows.length ≤ 2 ^ 32) {row_idx : ℕ} (h : rows[row_idx]? = some row) :
    asU32 row_idx = row_idx :=
  asU32_of_lt ((List.getElem?_eq_some_iff.1 h).1.trans_le hlen)

theorem mem_sortedOf_of_row {row_idx : ℕ} (h : rows[row_idx]? = some row) (hs : s ∈ row) :
    s ∈ sortedOf rows :=
  (mem_sortedOf rows).2 (mem_flatten.2 ⟨row, mem_of_getElem? h, hs⟩)

theorem mem_null_bitmap (hlen : rows.length ≤ 2 ^ 32) (row : ℕ) :
    row ∈ (written (sortedOf rows) rows).null_bitmap ↔ rows[row]? = some [] := by
  rw [null_bitmap_written]
  constructor
  · rintro ⟨i, hi, rfl⟩
    have hi := mk_mem_zipIdx_iff_getElem?.1 hi
    rwa [asU32_row hlen hi]
  · intro h
    exact ⟨row, mk_mem_zipIdx_iff_getElem?.2 h, asU32_row hlen h⟩

theorem mem_postings (hlen : rows.length ≤ 2 ^ 32) (htotal : rows.flatten.length < 2 ^ 32) {k : ℕ}
    (hk : (sortedOf rows)[k]? = some s) (row : ℕ) :
    (k, row) ∈ rows.zipIdx.flatMap (postingsOf (sortedOf rows)) ↔ ∃ vs, rows[row]? = some vs ∧ s ∈ vs := by
  have hdict : (sortedOf rows).length ≤ 2 ^ 32 := (length_sortedOf_le rows).trans htotal.le
  have hord : ∀ t ∈ sortedOf rows, (ordinalOf (sortedOf rows) t = k ↔ t = s) := fun t ht =>
    ordinalOf_eq_iff (increasing_sortedOf rows) hdict hk ht
  rw [mem_flatMap]
  constructor
  · rintro ⟨⟨vs, i⟩, hi, hposting⟩
    have hi := mk_mem_zipIdx_iff_getElem?.1 hi
    obtain ⟨t, ht, hkt⟩ := mem_map.1 hposting
    obtain ⟨rfl, rfl⟩ := Prod.mk.inj hkt
    obtain rfl := (hord t (mem_sortedOf_of_row hi ht)).1 rfl
    exact ⟨vs, (asU32_row hlen hi).symm ▸ hi, ht⟩
  · rintro ⟨vs, hvs, hs⟩
    refine ⟨(vs, row), mk_mem_zipIdx_iff_getElem?.2 hvs, mem_map.2 ⟨s, hs, ?_⟩⟩
    rw [(hord s (mem_sortedOf_of_row hvs hs)).2 rfl, asU32_row hlen hvs]

theorem indexes (hlen : rows.length ≤ 2 ^ 32) (htotal : rows.flatten.length < 2 ^ 32) :
    Indexes (fun row s => ∃ vs, rows[row]? = some vs ∧ s ∈ vs) (fun row => rows[row]? = some [])
      (fromRows rows).dictionary (fromRows rows).bitmap_indexes := by
  have hhas : (seen rows).has_empty = true ↔ ∃ row : ℕ, rows[row]? = some [] := (has_empty_iff rows).trans mem_iff_getElem?
  have h := indexes_of_postings (increasing_sortedOf rows) (fun k s hk row => mem_postings hlen htotal hk row) hhas (mem_null_bitmap hlen)
  rwa [← bitmaps_written] at h

/-! ### Rows -/

theorem offsetOf_succ {row_idx : ℕ} (h : rows[row_idx]? = some row) :
    offsetOf rows (row_idx + 1) = offsetOf rows row_idx + row.length := by
  rw [offsetOf, take_add_one, h]
  simp [offsetOf]

theorem offsetOf_le (row_idx : ℕ) : offsetOf rows row_idx ≤ rows.flatten.length := by
  conv_rhs => rw [← take_append_drop row_idx rows, flatten_append, length_append]
  exact Nat.le_add_right _ _

theorem ordinals_fromRows : (fromRows rows).ordinals = rows.flatten.map (ordinalOf (sortedOf rows)) :=
  ordinals_written rows (sortedOf rows)

theorem row_offsets_fromRows (htotal : rows.flatten.length < 2 ^ 32) :
    (fromRows rows).row_offsets = (List.range (rows.length + 1)).map (offsetOf rows) :=
  (row_offsets_written rows (sortedOf rows)).trans
    (map_congr_left fun row_idx _ => asU32_of_lt ((offsetOf_le row_idx).trans_lt htotal))

theorem getElem?_row_offsets (htotal : rows.flatten.length < 2 ^ 32) (row_idx : ℕ) :
    (fromRows rows).row_offsets[row_idx]? = if row_idx ≤ rows.length then some (offsetOf rows row_idx) else none := by
  rw [row_offsets_fromRows htotal, getElem?_map]
  split_ifs with hrow
  · rw [getElem?_range (by omega), Option.map_some]
  · rw [getElem?_eq_none (by simp; omega), Option.map_none]

/-- The part of a row. -/
theorem slice_flatten {row_idx : ℕ} (h : rows[row_idx]? = some row) :
    (rows.flatten.drop (offsetOf rows row_idx)).take row.length = row := by
  obtain ⟨hlt, rfl⟩ := List.getElem?_eq_some_iff.1 h
  have hsplit : rows.flatten = (rows.take row_idx).flatten ++ (rows[row_idx] ++ (rows.drop (row_idx + 1)).flatten) := by
    conv_lhs => rw [← take_append_drop row_idx rows, drop_eq_getElem_cons hlt, flatten_append, flatten_cons]
  rw [hsplit, offsetOf, drop_left, take_left]

theorem rowOrdinals_eq (htotal : rows.flatten.length < 2 ^ 32) (row_idx : ℕ) :
    (fromRows rows).rowOrdinals row_idx = rows[row_idx]?.map (List.map (ordinalOf (sortedOf rows))) := by
  unfold rowOrdinals
  rw [getElem?_row_offsets htotal, getElem?_row_offsets htotal]
  cases hrow : rows[row_idx]? with
  | none =>
    have hge : rows.length ≤ row_idx := List.getElem?_eq_none_iff.1 hrow
    rw [if_neg (by omega : ¬ row_idx + 1 ≤ rows.length)]
    split_ifs <;> rfl
  | some row =>
    have hlt : row_idx < rows.length := (List.getElem?_eq_some_iff.1 hrow).1
    have hend : offsetOf rows (row_idx + 1) ≤ rows.flatten.length := offsetOf_le (row_idx + 1)
    rw [offsetOf_succ hrow] at hend ⊢
    rw [if_pos hlt.le, if_pos (Nat.succ_le_of_lt hlt)]
    simp only [Option.bind_eq_bind, Option.bind_some]
    rw [ordinals_fromRows, if_pos ⟨Nat.le_add_right _ _, by rwa [length_map]⟩, Nat.add_sub_cancel_left, ← map_drop, ← map_take, slice_flatten hrow]
    rfl

theorem rowValues_eq (htotal : rows.flatten.length < 2 ^ 32) (row_idx : ℕ) :
    (fromRows rows).rowValues row_idx = rows[row_idx]?.getD [] := by
  have hdict : (sortedOf rows).length ≤ 2 ^ 32 := (length_sortedOf_le rows).trans htotal.le
  rw [rowValues, rowOrdinals_eq htotal]
  cases hrow : rows[row_idx]? with
  | none => rfl
  | some row =>
    have hread : ∀ v ∈ row, (fromRows rows).dictionary[ordinalOf (sortedOf rows) v]? = some v := fun v hv =>
      getElem?_ordinalOf hdict (mem_sortedOf_of_row hrow hv)
    simp only [Option.map_some, Option.getD_some, filterMap_map]
    exact (filterMap_congr hread).trans filterMap_some

theorem isNullRow_iff (htotal : rows.flatten.length < 2 ^ 32) (row_idx : ℕ) :
    (fromRows rows).isNullRow row_idx = true ↔ rows[row_idx]? = some [] := by
  rw [isNullRow, rowOrdinals_eq htotal]
  cases rows[row_idx]? <;> simp

/-- A column stands for its rows. -/
structure Represents (rows : List (List Utf8)) (column : StringMultiColumnData DruidBitmap) : Prop
    extends Indexes (fun row s => ∃ vs, rows[row]? = some vs ∧ s ∈ vs) (fun row => rows[row]? = some [])
      column.dictionary column.bitmap_indexes where
  mem_dictionary : ∀ s, s ∈ column.dictionary ↔ s ∈ rows.flatten
  ordinal_lt : ∀ ord ∈ column.ordinals, ord < column.dictionary.length
  first_offset : column.row_offsets.head? = some 0
  last_offset : column.row_offsets.getLast? = some column.ordinals.length
  offsets_monotone : column.row_offsets.Pairwise (· ≤ ·)
  numRows_eq : column.numRows = rows.length
  has_nullRows : column.nullRows.isSome = true ↔ [] ∈ rows
  mem_nullRows : ∀ bm, column.nullRows = some bm → ∀ row : ℕ, row ∈ bm ↔ rows[row]? = some []
  isNullRow_iff : ∀ row : ℕ, column.isNullRow row = true ↔ rows[row]? = some []
  rowValues_eq : ∀ row : ℕ, column.rowValues row = rows[row]?.getD []

theorem offsetOf_mono {i j : ℕ} (h : i ≤ j) : offsetOf rows i ≤ offsetOf rows j := by
  have htake : rows.take i = (rows.take j).take i := by rw [take_take, min_eq_left h]
  rw [offsetOf, htake]
  have hle : offsetOf (rows.take j) i ≤ (rows.take j).flatten.length := offsetOf_le i
  exact hle

theorem represents (hlen : rows.length ≤ 2 ^ 32) (htotal : rows.flatten.length < 2 ^ 32) : Represents rows (fromRows rows) where
  toIndexes := indexes hlen htotal
  mem_dictionary := fun s => mem_sortedOf rows
  ordinal_lt := by
    intro ord hord
    rw [ordinals_fromRows, mem_map] at hord
    obtain ⟨v, hv, rfl⟩ := hord
    exact ordinalOf_lt ((length_sortedOf_le rows).trans htotal.le) ((mem_sortedOf rows).2 hv)
  first_offset := by
    rw [row_offsets_fromRows htotal, range_succ_eq_map]
    rfl
  last_offset := by
    rw [row_offsets_fromRows htotal, ordinals_fromRows, range_succ, length_map]
    simp [offsetOf]
  offsets_monotone := by
    rw [row_offsets_fromRows htotal, pairwise_map]
    exact pairwise_le_range.imp offsetOf_mono
  numRows_eq := by simp [numRows, row_offsets_fromRows htotal]
  has_nullRows := (indexes hlen htotal).trailingBitmap_spec.1.trans mem_iff_getElem?.symm
  mem_nullRows := (indexes hlen htotal).trailingBitmap_spec.2
  isNullRow_iff := StringMultiColumnData.isNullRow_iff htotal
  rowValues_eq := StringMultiColumnData.rowValues_eq htotal

end StringMultiColumnData

/-! ## Both -/

/-- A column built from rows stands for them, if their numbers and those of
their elements are `u32`s. -/
theorem stringColumns_represent (values : List (Option Utf8)) (rows : List (List Utf8)) (hvalues : values.length ≤ 2 ^ 32)
    (hrows : rows.length ≤ 2 ^ 32) (htotal : rows.flatten.length < 2 ^ 32) :
    StringColumnData.Represents values (.fromNullableValues values) ∧ StringMultiColumnData.Represents rows (.fromRows rows) :=
  ⟨StringColumnData.represents hvalues, StringMultiColumnData.represents hrows htotal⟩

theorem stringColumns_represent_mixed :
    StringColumnData.Represents [none, some emptyText, none] (.fromNullableValues [none, some emptyText, none]) ∧
      StringMultiColumnData.Represents [[], [emptyText, emptyText]] (.fromRows [[], [emptyText, emptyText]]) :=
  stringColumns_represent _ _ (by decide) (by decide) (by decide)

/-- The row behind 2^32 others is null and passes no null check. -/
theorem stringColumns_wide :
    ¬ ∀ values : List (Option Utf8), StringColumnData.Represents values (.fromNullableValues values) := by
  intro h
  obtain ⟨n, hn⟩ : ∃ n, n = 2 ^ 32 := ⟨_, rfl⟩
  have hnone : (List.replicate n (some emptyText) ++ [none])[n]? = some none := by
    rw [getElem?_append_right (by rw [length_replicate]), length_replicate, Nat.sub_self]
    rfl
  have hnull := ((h (List.replicate n (some emptyText) ++ [none])).isNullRow_iff n).2 hnone
  rw [StringColumnData.isNullRow_of_wide _ hn.ge] at hnull
  cases hnull

end FerroDruid.Segment
