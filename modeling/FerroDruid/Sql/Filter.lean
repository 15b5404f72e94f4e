import FerroDruid.Lib.FloatText
import FerroDruid.Lib.TreeMap
/-!
# Filters

`FilterSpec::matches` of `ferrodruid-query/src/filter.rs` over rows of strings,
integers and nulls, for the filters that a SQL condition becomes. `legacy` is the
process-wide null mode.
-/

namespace FerroDruid.Sql

open Lib

/-! ## Cells -/

inductive Cell where
  | null
  | int (n : Int64)
  | str (s : Utf8)
  deriving DecidableEq

namespace Cell

def isInt : Cell → Bool
  | int _ => true
  | _ => false

/-- `value_to_string`: a null is empty text. -/
def valueToString : Cell → Bytes
  | null => []
  | int n => decimalInt n.toInt
  | str s => s.bytes

end Cell

def emptyText : Utf8 := ⟨[], Eq.refl true⟩

abbrev RowMap := HashMap Utf8 Cell

/-- Equal as values, or else as texts; in the legacy mode numbers only as values. -/
def valuesEqual (legacy : Bool) (a b : Cell) : Bool :=
  if a = b then true else if legacy && a.isInt && b.isInt then false else a.valueToString = b.valueToString

/-! ## Patterns -/

/-- The characters of a text: a byte that continues a character is not the first. -/
def chars : Bytes → List Bytes
  | [] => []
  | b :: bs =>
    match bs, chars bs with
    | b' :: _, c :: cs => if isContinuation b' then (b :: c) :: cs else [b] :: c :: cs
    | _, cs => [b] :: cs

/-- What a part of a pattern takes. -/
inductive LikeItem where
  | many
  | one
  | char (c : Bytes)
  deriving DecidableEq

/-- What an anchored pattern matches, when a wildcard takes the characters of `dot`. -/
def wildMatch (dot : Bytes → Bool) : List LikeItem → List Bytes → Bool
  | [], s => s.isEmpty
  | .many :: items, s => manyMatch (wildMatch dot items) s
  | .one :: items, s =>
    match s with
    | [] => false
    | c :: s => dot c && wildMatch dot items s
  | .char x :: items, s =>
    match s with
    | [] => false
    | c :: s => c = x && wildMatch dot items s
where
  /-- Any number of characters, then the rest. -/
  manyMatch (rest : List Bytes → Bool) : List Bytes → Bool
    | [] => rest []
    | c :: s => rest (c :: s) || (dot c && manyMatch rest s)

/-- What a pattern matches it matches when its wildcards take more. -/
theorem wildMatch_mono {dot dot' : Bytes → Bool} (hdot : ∀ c, dot c = true → dot' c = true) :
    ∀ (items : List LikeItem) (text : List Bytes), wildMatch dot items text = true → wildMatch dot' items text = true
  | [], _, h => h
  | .many :: items, text, h => by
    rw [wildMatch] at h ⊢
    induction text with
    | nil => exact wildMatch_mono hdot items [] h
    | cons c text ih =>
      simp only [wildMatch.manyMatch, Bool.or_eq_true, Bool.and_eq_true] at h ⊢
      rcases h with h | ⟨hc, h⟩
      · exact .inl (wildMatch_mono hdot items _ h)
      · exact .inr ⟨hdot c hc, ih h⟩
  | .one :: items, text, h => by
    cases text with
    | nil => cases h
    | cons c text =>
      simp only [wildMatch, Bool.and_eq_true] at h ⊢
      exact ⟨hdot c h.1, wildMatch_mono hdot items text h.2⟩
  | .char x :: items, text, h => by
    cases text with
    | nil => cases h
    | cons c text =>
      simp only [wildMatch, Bool.and_eq_true] at h ⊢
      exact ⟨h.1, wildMatch_mono hdot items text h.2⟩

/-- The parts of a pattern; a character after the escape stands for itself. -/
def likeToRegex (escape : Option Bytes) : List Bytes → List LikeItem
  | [] => []
  | [c] => if some c = escape then [] else [likeItem c]
  | c :: next :: cs => if some c = escape then .char next :: likeToRegex escape cs else likeItem c :: likeToRegex escape (next :: cs)
where
  likeItem (c : Bytes) : LikeItem := if c = [0x25] then .many else if c = [0x5F] then .one else .char c

/-- The regex crate, on the patterns that `like_to_regex` writes: it may refuse one
for its size, and its dot takes every character but a line feed. -/
structure RegexCrate where
  new : List LikeItem → Option (Bytes → Bool)
  is_match : ∀ items re, new items = some re → ∀ text, re text = wildMatch (· ≠ [0x0A]) items (chars text)

/-! ## Filters -/

inductive FilterSpec where
  | selector (dimension : Utf8) (value : Option Cell)
  | in_ (dimension : Utf8) (values : List Cell)
  | bound (dimension : Utf8) (lower upper : Option Bytes) (lowerStrict upperStrict : Option Bool) (ordering : Option Bytes)
  | like (dimension : Utf8) (pattern : Utf8) (escape : Option Utf8)
  | and (fields : List FilterSpec)
  | or (fields : List FilterSpec)
  | not (field : FilterSpec)
  | null (column : Utf8)

def numeric : Bytes := ascii "numeric"

/-- Whether a text, read as a number, is within bounds read as numbers. -/
def numericWithin (rowStr : Bytes) (lower upper : Option Bytes) (lowerStrict upperStrict : Bool) : Bool :=
  match parseF64 rowStr with
  | none => false
  | some rv =>
    (match lower with
      | none => true
      | some lo =>
        match parseF64 lo with
        | none => false
        | some lo => if lowerStrict then !rv.le lo else !rv.lt lo) &&
    (match upper with
      | none => true
      | some hi =>
        match parseF64 hi with
        | none => false
        | some hi => if upperStrict then !hi.le rv else !hi.lt rv)

def textWithin (rowStr : Bytes) (lower upper : Option Bytes) (lowerStrict upperStrict : Bool) : Bool :=
  (match lower with
    | none => true
    | some lo => if lowerStrict then !textBefore rowStr lo else textBefore lo rowStr) &&
  (match upper with
    | none => true
    | some hi => if upperStrict then !textBefore hi rowStr else textBefore rowStr hi)

/-- The text of a cell for the filters on texts; a null has none. -/
def rowValueStrings : Option Cell → Option Bytes
  | none | some .null => none
  | some v => some v.valueToString

namespace FilterSpec

mutual

def isMatch (legacy : Bool) (regex : RegexCrate) (row : RowMap) : FilterSpec → Bool
  | selector dimension value =>
    let value := if value.any (fun v => legacy && v = .str emptyText) then none else value
    match row.lookup dimension, value with
    | none, none | some .null, none => true
    | none, some fv | some .null, some fv => fv = .null
    | some _, none => false
    | some rv, some fv => valuesEqual legacy rv fv
  | in_ dimension values =>
    match row.lookup dimension with
    | none | some .null => values.any fun v => v = .null || (legacy && v = .str emptyText)
    | some rv => values.any (valuesEqual legacy rv)
  | bound dimension lower upper lowerStrict upperStrict ordering =>
    match rowValueStrings (row.lookup dimension) with
    | none => false
    | some rowStr =>
      if ordering = some numeric then numericWithin rowStr lower upper (lowerStrict.getD false) (upperStrict.getD false)
      else textWithin rowStr lower upper (lowerStrict.getD false) (upperStrict.getD false)
  | like dimension pattern escape =>
    match rowValueStrings (row.lookup dimension) with
    | none => false
    | some rowStr =>
      match regex.new (likeToRegex (escape.bind fun e => (chars e.bytes).head?) (chars pattern.bytes)) with
      | some re => re rowStr
      | none => false
  | and fields => allMatch legacy regex row fields
  | or fields => anyMatch legacy regex row fields
  | not field => !field.isMatch legacy regex row
  | null column =>
    match row.lookup column with
    | none | some .null => true
    | _ => false

def allMatch (legacy : Bool) (regex : RegexCrate) (row : RowMap) : List FilterSpec → Bool
  | [] => true
  | f :: fs => f.isMatch legacy regex row && allMatch legacy regex row fs

def anyMatch (legacy : Bool) (regex : RegexCrate) (row : RowMap) : List FilterSpec → Bool
  | [] => false
  | f :: fs => f.isMatch legacy regex row || anyMatch legacy regex row fs

end

attribute [simp] isMatch allMatch anyMatch

end FilterSpec

end FerroDruid.Sql
