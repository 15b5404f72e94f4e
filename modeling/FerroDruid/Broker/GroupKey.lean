import FerroDruid.Lib.Framing
import FerroDruid.Lib.Text
import FerroDruid.Query.Segment
/-!
# Keys of merged groups

`group_key` of `ferrodruid-broker/src/lib.rs`: the timestamp and the dimensions
of a row of a group by become one string, frame by frame. How `serde_json`
displays a value that is not a string, an integer or a boolean is a parameter.
-/

namespace FerroDruid.Broker

open Lib Query List

/-- What the key is made of: `event` is the row's map. -/
structure GroupByResult where
  timestamp : Utf8
  event : JsonMap

/-- A length in decimal, a colon and the text. -/
def frame (part : Bytes) : Bytes := decimal part.length ++ [0x3A] ++ part

def pushKeyFrame (key part : Bytes) : Bytes := key ++ frame part

/-- A type tag and the text of the value. -/
def canonicalDimEncoding (display : Json → Utf8) : Option Json → Bytes
  | none | some .null => ascii "null:"
  | some (.string s) => ascii "s:" ++ s.bytes
  | some (.number (.int n _)) => ascii "n:" ++ decimalInt n
  | some (.number x) => ascii "n:" ++ (display (.number x)).bytes
  | some (.bool b) => ascii "b:" ++ ascii (if b then "true" else "false")
  | some other => ascii "j:" ++ (display other).bytes

def groupKey (display : Json → Utf8) (result : GroupByResult) (dimensions : List DimensionSpec) : Bytes :=
  dimensions.foldl (fun key dim => pushKeyFrame key (canonicalDimEncoding display (result.event dim.outputName)))
    (pushKeyFrame [] result.timestamp.bytes)

/-! ## Frames -/

theorem selfDelimiting_frame : SelfDelimiting frame := by
  refine SelfDelimiting.lengthPrefixed (.terminated decimal_injective fun n hcolon => ?_)
  exact absurd (isDigit_of_mem_decimal hcolon) (by decide)

variable (display : Json → Utf8)

/-- A key is the frames of its parts. -/
theorem groupKey_eq (result : GroupByResult) (dimensions : List DimensionSpec) :
    groupKey display result dimensions = (result.timestamp.bytes ::
      dimensions.map fun dim => canonicalDimEncoding display (result.event dim.outputName)).flatMap frame := by
  have hfold : ∀ (dims : List DimensionSpec) (key : Bytes),
      dims.foldl (fun key dim => pushKeyFrame key (canonicalDimEncoding display (result.event dim.outputName))) key =
        key ++ (dims.map fun dim => canonicalDimEncoding display (result.event dim.outputName)).flatMap frame := by
    intro dims
    induction dims with
    | nil => simp
    | cons dim dims ih =>
      intro key
      rw [foldl_cons, ih, map_cons, flatMap_cons, pushKeyFrame, append_assoc]
  rw [groupKey, hfold, flatMap_cons]
  rfl

/-! ## Cells -/

/-- A cell of the map; an absent one is null. -/
def cell (result : GroupByResult) (dim : DimensionSpec) : Json := (result.event dim.outputName).getD .null

/-- Null, a boolean, an integer or a string. -/
def Scalar : Json → Prop
  | .null | .bool _ | .number (.int _ _) | .string _ => True
  | _ => False

theorem canonicalDimEncoding_cell (result : GroupByResult) (dim : DimensionSpec) :
    canonicalDimEncoding display (result.event dim.outputName) = canonicalDimEncoding display (some (cell result dim)) := by
  unfold cell
  cases result.event dim.outputName <;> rfl

/-- Encodings of different scalars differ, whatever is in them. -/
theorem canonicalDimEncoding_inj {x y : Json} (hx : Scalar x) (hy : Scalar y)
    (h : canonicalDimEncoding display (some x) = canonicalDimEncoding display (some y)) : x = y := by
  have hnull : ascii "null:" = [0x6E, 0x75, 0x6C, 0x6C, 0x3A] := by decide
  have hstring : ascii "s:" = [0x73, 0x3A] := by decide
  have hnumber : ascii "n:" = [0x6E, 0x3A] := by decide
  have hbool : ascii "b:" = [0x62, 0x3A] := by decide
  cases x with
  | null =>
    cases y with
    | null => rfl
    | bool b => simp [canonicalDimEncoding, hnull, hbool] at h
    | number n => cases n <;> simp [canonicalDimEncoding, hnull, hnumber] at h
    | string s => simp [canonicalDimEncoding, hnull, hstring] at h
    | array | object => exact hy.elim
  | bool b =>
    cases y with
    | null => simp [canonicalDimEncoding, hnull, hbool] at h
    | bool b' =>
      have htext := append_cancel_left h
      cases b <;> cases b' <;> first | rfl | exact absurd htext (by decide)
    | number n => cases n <;> simp [canonicalDimEncoding, hbool, hnumber] at h
    | string s => simp [canonicalDimEncoding, hbool, hstring] at h
    | array | object => exact hy.elim
  | number n =>
    cases n with
    | float => exact hx.elim
    | int n hn =>
      cases y with
      | null => simp [canonicalDimEncoding, hnull, hnumber] at h
      | bool b => simp [canonicalDimEncoding, hbool, hnumber] at h
      | number m =>
        cases m with
        | float => exact hy.elim
        | int m hm =>
          obtain rfl := decimalInt_injective (append_cancel_left h)
          rfl
      | string s => simp [canonicalDimEncoding, hnumber, hstring] at h
      | array | object => exact hy.elim
  | string s =>
    cases y with
    | null => simp [canonicalDimEncoding, hnull, hstring] at h
    | bool b => simp [canonicalDimEncoding, hbool, hstring] at h
    | number n => cases n <;> simp [canonicalDimEncoding, hnumber, hstring] at h
    | string t =>
      obtain rfl := Utf8.ext (append_cancel_left h)
      rfl
    | array | object => exact hy.elim
  | array | object => exact hx.elim

/-- Two keys are equal just when the timestamps and all dimensions are. -/
theorem groupKey_eq_iff (display : Json → Utf8) (dimensions : List DimensionSpec) {a b : GroupByResult}
    (ha : ∀ dim ∈ dimensions, Scalar (cell a dim)) (hb : ∀ dim ∈ dimensions, Scalar (cell b dim)) :
    groupKey display a dimensions = groupKey display b dimensions ↔
      a.timestamp = b.timestamp ∧ ∀ dim ∈ dimensions, cell a dim = cell b dim := by
  rw [groupKey_eq, groupKey_eq]
  constructor
  · intro h
    have hparts := selfDelimiting_frame.flatMap_inj (by simp) h
    obtain ⟨htimestamp, hdims⟩ := List.cons.inj hparts
    refine ⟨Utf8.ext htimestamp, fun dim hdim => canonicalDimEncoding_inj display (ha dim hdim) (hb dim hdim) ?_⟩
    rw [← canonicalDimEncoding_cell, ← canonicalDimEncoding_cell]
    exact map_inj_left.1 hdims dim hdim
  · rintro ⟨htimestamp, hcells⟩
    rw [htimestamp]
    refine congrArg (fun parts => (b.timestamp.bytes :: parts).flatMap frame) (map_congr_left fun dim hdim => ?_)
    rw [canonicalDimEncoding_cell, canonicalDimEncoding_cell display b, hcells dim hdim]

/-! ## Values that look like frames -/

def twoDims : List DimensionSpec := [.default "d1" "d1" .string, .default "d2" "d2" .string]

/-- A row of two dimensions. -/
def tuple (d1 d2 : Json) : GroupByResult := ⟨⟨[], Eq.refl true⟩, (JsonMap.empty.insert "d1" d1).insert "d2" d2⟩

def textValue (bs : Bytes) (h : ∀ b ∈ bs, b < 0x80) : Json := .string (.ofAscii bs h)

/-- Strings are not displayed. -/
def noDisplay (_ : Json) : Utf8 := ⟨[], Eq.refl true⟩

/-- A separator and a tag within a value end nothing. -/
theorem groupKey_ne_forged :
    groupKey noDisplay (tuple (textValue (ascii "x|d2=s:y") (by decide)) (textValue (ascii "z") (by decide))) twoDims ≠
      groupKey noDisplay (tuple (textValue (ascii "x") (by decide)) (textValue (ascii "y|d2=s:z") (by decide))) twoDims := by
  have hscalar : ∀ d1 d2 h1 h2, ∀ dim ∈ twoDims, Scalar (cell (tuple (textValue d1 h1) (textValue d2 h2)) dim) := by
    intro d1 d2 h1 h2 dim hdim
    rcases mem_pair.1 hdim with rfl | rfl <;> trivial
  intro h
  have hcells := ((groupKey_eq_iff noDisplay twoDims (hscalar _ _ _ _) (hscalar _ _ _ _)).1 h).2
  exact absurd (hcells (.default "d1" "d1" .string) mem_cons_self) (by decide)

end FerroDruid.Broker
