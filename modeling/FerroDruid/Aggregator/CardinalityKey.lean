import FerroDruid.Lib.HashMap
import FerroDruid.Lib.Json
import FerroDruid.Lib.Text
/-!
# Keys of the exact cardinality

`value_to_key`, `clip_to_key_cap` and the keys of a row in
`ferrodruid-aggregator/src/cardinality.rs`. A key longer than the bound is
replaced by its digest; all others are kept, so two things that are counted
apart have two keys as long as no two of the replaced keys share a digest.

The digest and the text of a JSON value are parameters.
-/

namespace FerroDruid.Aggregator

open Lib List

/-! ## The code -/

def maxCardinalityKeyBytes : ℕ := 4096

/-- What a SHA-256 is. -/
abbrev Digest := { bs : Bytes // bs.length = 32 }

def hexDigit (n : ℕ) : UInt8 := if n < 10 then UInt8.ofNat (0x30 + n) else UInt8.ofNat (0x61 + (n - 10))

def hex (bs : Bytes) : Bytes := bs.flatMap fun b => [hexDigit (b.toNat / 16), hexDigit (b.toNat % 16)]

theorem ascii_hexDigit (n : ℕ) (h : n < 16) : hexDigit n < 0x80 := by
  have : ∀ n < 16, hexDigit n < 0x80 := by decide
  exact this n h

theorem ascii_hex (bs : Bytes) : ∀ b ∈ hex bs, b < 0x80 := by
  intro b hb
  obtain ⟨c, -, hb⟩ := mem_flatMap.1 hb
  have := c.toNat_lt
  simp only [mem_cons, not_mem_nil, or_false] at hb
  rcases hb with rfl | rfl
  · exact ascii_hexDigit _ (by omega)
  · exact ascii_hexDigit _ (by omega)

def hexText (bs : Bytes) : Utf8 := .ofAscii (hex bs) (ascii_hex bs)

theorem ascii_decimal (n : ℕ) : ∀ b ∈ decimal n, b < 0x80 := by
  intro b hb
  have hdigit := isDigit_of_mem_decimal hb
  simp only [isDigit, Bool.and_eq_true, decide_eq_true_eq] at hdigit
  exact UInt8.lt_of_le_of_lt hdigit.2 (by decide)

def decimalText (n : ℕ) : Utf8 := .ofAscii (decimal n) (ascii_decimal n)

/-- `…sha256:`. -/
def shaPrefix : Utf8 := ⟨[0xE2, 0x80, 0xA6] ++ ascii "sha256:", by decide +kernel⟩

def shaKey (digest : Digest) : Utf8 := shaPrefix ++ hexText digest.1

section

variable (sha : Bytes → Digest) (text : Json → Utf8)

def clipToKeyCap (raw : Utf8) : Utf8 :=
  if raw.bytes.length ≤ maxCardinalityKeyBytes then raw else shaKey (sha raw.bytes)

def shaKeyOf (tag bytes : Utf8) : Utf8 := shaKey (sha (tag.bytes ++ bytes.bytes))

def nullKey : Utf8 := ⟨ascii "__null__", by decide +kernel⟩

def stringTag : Utf8 := ⟨ascii "s:", by decide +kernel⟩

def numberTag : Utf8 := ⟨ascii "n:", by decide +kernel⟩

def boolTag : Utf8 := ⟨ascii "b:", by decide +kernel⟩

def otherTag : Utf8 := ⟨ascii "j:", by decide +kernel⟩

def boolText : Bool → Utf8
  | true => ⟨ascii "true", by decide +kernel⟩
  | false => ⟨ascii "false", by decide +kernel⟩

/-- A long string is hashed without the tagged copy being built first. -/
def valueToKey : Option Json → Utf8
  | none => nullKey
  | some .null => nullKey
  | some (.string s) =>
    if maxCardinalityKeyBytes < s.bytes.length then shaKeyOf sha stringTag s else clipToKeyCap sha (stringTag ++ s)
  | some (.number n) => clipToKeyCap sha (numberTag ++ text (.number n))
  | some (.bool b) => clipToKeyCap sha (boolTag ++ boolText b)
  | some other => clipToKeyCap sha (otherTag ++ text other)

/-- `f`, the index in hex, and a colon. -/
def fieldTag (idx : ℕ) : Utf8 := ⟨ascii "f", by decide +kernel⟩ ++ hexText (beBytes 4 idx) ++ ⟨ascii ":", by decide +kernel⟩

def taggedKey (idx : ℕ) (raw : Utf8) : Utf8 := clipToKeyCap sha (fieldTag idx ++ raw)

/-- Each part with its length before it. -/
def composite : List Utf8 → Utf8
  | [] => ⟨[], Eq.refl true⟩
  | part :: parts =>
    decimalText part.bytes.length ++ ⟨ascii ":", by decide +kernel⟩ ++ part ++ ⟨[0], Eq.refl true⟩ ++ composite parts

/-- An index past the range of `u32` counts as the last one. -/
def fieldIndex (idx : ℕ) : ℕ := min idx (2 ^ 32 - 1)

/-- The keys that a row adds. -/
def rowKeys (byRow : Bool) (row : List (Option Json)) : List Utf8 :=
  if byRow then
    if row = [] then [] else [clipToKeyCap sha (composite (row.map (valueToKey sha text)))]
  else row.zipIdx.map fun cell => taggedKey sha (fieldIndex cell.2) (valueToKey sha text cell.1)

end

/-! ## What is counted -/

/-- A value of a field, or the values of a row. -/
inductive Counted where
  | field (idx : ℕ) (value : Json)
  | tuple (values : List Json)
  deriving DecidableEq

/-- A missing value is a null. -/
def cellValue (v : Option Json) : Json := v.getD .null

/-- What a row has to be counted. -/
def rowCounted (byRow : Bool) (row : List (Option Json)) : List Counted :=
  if byRow then if row = [] then [] else [.tuple (row.map cellValue)]
  else row.zipIdx.map fun cell => .field (fieldIndex cell.2) (cellValue cell.1)

/-- The different things in the rows. -/
def distinct (byRow : Bool) (rows : List (List (Option Json))) : Finset Counted := (rows.flatMap (rowCounted byRow)).toFinset

/-! ## Two things have two keys -/

section

variable {sha : Bytes → Digest} {text : Json → Utf8}

theorem append_sep_inj {α : Type} {a : α} {xs ys ts us : List α} (hx : a ∉ xs) (hy : a ∉ ys) (h : xs ++ a :: ts = ys ++ a :: us) :
    xs = ys ∧ ts = us := by
  induction xs generalizing ys with
  | nil =>
    cases ys with
    | nil => exact ⟨rfl, (List.cons.inj h).2⟩
    | cons y ys => exact absurd (List.cons.inj h).1 (fun heq => hy (heq ▸ mem_cons_self))
  | cons x xs ih =>
    rw [mem_cons, not_or] at hx
    cases ys with
    | nil => exact absurd (List.cons.inj h).1.symm hx.1
    | cons y ys =>
      rw [mem_cons, not_or] at hy
      obtain ⟨rfl, hrest⟩ := List.cons.inj h
      obtain ⟨rfl, rfl⟩ := ih hx.2 hy.2 hrest
      exact ⟨rfl, rfl⟩

theorem decimal_inj {n m : ℕ} (h : decimal n = decimal m) : n = m := by
  have := congrArg (fun bs => bs.foldl (fun n b => 10 * n + (b.toNat - 0x30)) 0) h
  simpa only [foldl_decimal] using this

theorem hexDigit_inj {n m : ℕ} (hn : n < 16) (hm : m < 16) (h : hexDigit n = hexDigit m) : n = m := by
  have : ∀ n < 16, ∀ m < 16, hexDigit n = hexDigit m → n = m := by decide
  exact this n hn m hm h

theorem hex_inj {bs cs : Bytes} (h : hex bs = hex cs) : bs = cs := by
  induction bs generalizing cs with
  | nil =>
    cases cs with
    | nil => rfl
    | cons c cs => cases h
  | cons b bs ih =>
    cases cs with
    | nil => cases h
    | cons c cs =>
      simp only [hex, flatMap_cons, cons_append, nil_append, List.cons.injEq] at h
      obtain ⟨hhigh, hlow, hrest⟩ := h
      have hb := b.toNat_lt
      have hc := c.toNat_lt
      have h1 := hexDigit_inj (by omega) (by omega) hhigh
      have h2 := hexDigit_inj (by omega) (by omega) hlow
      have hbc : b = c := UInt8.toNat_inj.1 (by omega)
      rw [hbc, ih hrest]

theorem length_hex (bs : Bytes) : (hex bs).length = 2 * bs.length := by
  induction bs with
  | nil => rfl
  | cons b bs ih =>
    rw [hex, flatMap_cons, length_append, ← hex, ih, length_cons]
    simp only [length_cons, length_nil]
    omega

theorem shaKey_inj {d e : Digest} (h : shaKey d = shaKey e) : d = e := by
  have hbytes := congrArg Utf8.bytes h
  exact Subtype.ext (hex_inj (append_cancel_left hbytes))

/-- The key of a digest begins with a byte that no other key begins with. -/
theorem head_shaKey (d : Digest) : (shaKey d).bytes.head? = some 0xE2 := rfl

theorem clip_inj {a b : Utf8} (ha : a.bytes.head? ≠ some 0xE2) (hb : b.bytes.head? ≠ some 0xE2)
    (hsha : maxCardinalityKeyBytes < a.bytes.length → maxCardinalityKeyBytes < b.bytes.length → sha a.bytes = sha b.bytes → a = b)
    (h : clipToKeyCap sha a = clipToKeyCap sha b) : a = b := by
  unfold clipToKeyCap at h
  split_ifs at h with hshort hshort' hshort'
  · exact h
  · exact absurd (h ▸ head_shaKey _) ha
  · exact absurd (h ▸ head_shaKey _) hb
  · exact hsha (by omega) (by omega) (shaKey_inj h)

/-- The key of a value before it is clipped. -/
def canon (text : Json → Utf8) : Json → Utf8
  | .null => nullKey
  | .string s => stringTag ++ s
  | .number n => numberTag ++ text (.number n)
  | .bool b => boolTag ++ boolText b
  | .array items => otherTag ++ text (.array items)
  | .object fields => otherTag ++ text (.object fields)

theorem valueToKey_eq (v : Option Json) : valueToKey sha text v = clipToKeyCap sha (canon text (cellValue v)) := by
  have hnull : nullKey = clipToKeyCap sha nullKey := by
    rw [clipToKeyCap, if_pos (by decide +kernel)]
  unfold valueToKey cellValue
  split
  · exact hnull
  · exact hnull
  · rename_i s
    split_ifs with hlong
    · have hlong' : ¬ (stringTag ++ s).bytes.length ≤ maxCardinalityKeyBytes := by
        rw [Utf8.bytes_append, length_append]
        omega
      rw [Option.getD_some, canon, clipToKeyCap, if_neg hlong']
      rfl
    · rfl
  · rfl
  · rfl
  · rename_i other h1 h2 h3 h4
    cases other with
    | null => exact absurd rfl h1
    | bool b => exact absurd rfl (h4 b)
    | number n => exact absurd rfl (h3 n)
    | string s => exact absurd rfl (h2 s)
    | array items => rfl
    | object fields => rfl

/-- The byte that tells what kind of value a key is of. -/
def kindByte : Json → UInt8
  | .null => 0x5F
  | .string _ => 0x73
  | .number _ => 0x6E
  | .bool _ => 0x62
  | .array _ => 0x6A
  | .object _ => 0x6A

theorem head_canon (v : Json) : (canon text v).bytes.head? = some (kindByte v) := by
  cases v <;> rfl

theorem canon_inj {v w : Json} (htext : text v = text w → v = w) (h : canon text v = canon text w) : v = w := by
  have hhead : (canon text v).bytes.head? = some (kindByte v) := head_canon v
  rw [h, head_canon] at hhead
  have hcancel : ∀ {tag x y : Utf8}, tag ++ x = tag ++ y → x = y :=
    fun h => Utf8.ext (append_cancel_left (congrArg Utf8.bytes h))
  cases v <;> cases w <;> simp only [kindByte] at hhead <;> first | exact absurd hhead (by decide) | skip
  · rfl
  · rename_i b c
    have hbool : boolText b = boolText c := hcancel h
    cases b <;> cases c <;> first | rfl | exact absurd hbool (by decide +kernel)
  · exact htext (hcancel h)
  · rw [hcancel h]
  · exact htext (hcancel h)
  · exact htext (hcancel h)
  · exact htext (hcancel h)
  · exact htext (hcancel h)

theorem fieldTag_bytes (idx : ℕ) : (fieldTag idx).bytes = 0x66 :: (hex (beBytes 4 idx) ++ [0x3A]) := rfl

theorem fieldTag_append_inj {i j : ℕ} (hi : i < 2 ^ 32) (hj : j < 2 ^ 32) {a b : Utf8} (h : fieldTag i ++ a = fieldTag j ++ b) :
    i = j ∧ a = b := by
  have hbytes := congrArg Utf8.bytes h
  have hlen : (fieldTag i).bytes.length = (fieldTag j).bytes.length := by
    simp only [fieldTag_bytes, length_cons, length_append, length_hex, length_beBytes]
  obtain ⟨htag, hrest⟩ := append_inj hbytes hlen
  rw [fieldTag_bytes, fieldTag_bytes, List.cons.injEq] at htag
  have hbe : beBytes 4 i = beBytes 4 j := hex_inj (append_cancel_right htag.2)
  have hread : ∀ n, beAt (beBytes 4 n) 4 0 = n % 256 ^ 4 := fun n => beAt_of_at prefix_rfl
  have hij := hread i
  rw [hbe, hread j] at hij
  exact ⟨by omega, Utf8.ext hrest⟩

theorem composite_bytes_cons (part : Utf8) (parts : List Utf8) : (composite (part :: parts)).bytes =
    decimal part.bytes.length ++ 0x3A :: (part.bytes ++ 0 :: (composite parts).bytes) := by
  show (((decimal part.bytes.length ++ [0x3A]) ++ part.bytes) ++ [0]) ++ (composite parts).bytes = _
  simp

theorem composite_inj {xs ys : List Utf8} (h : composite xs = composite ys) : xs = ys := by
  have hcolon : ∀ n, (0x3A : UInt8) ∉ decimal n := fun n hn => absurd (isDigit_of_mem_decimal hn) (by decide)
  induction xs generalizing ys with
  | nil =>
    cases ys with
    | nil => rfl
    | cons y ys =>
      have hlen := congrArg (List.length ∘ Utf8.bytes) h
      simp [composite] at hlen
  | cons x xs ih =>
    cases ys with
    | nil =>
      have hlen := congrArg (List.length ∘ Utf8.bytes) h
      simp [composite] at hlen
    | cons y ys =>
      have hbytes := congrArg Utf8.bytes h
      rw [composite_bytes_cons, composite_bytes_cons] at hbytes
      obtain ⟨hlen, hrest⟩ := append_sep_inj (hcolon _) (hcolon _) hbytes
      obtain ⟨hxy, hrest⟩ := append_inj hrest (decimal_inj hlen)
      rw [Utf8.ext hxy, ih (Utf8.ext (List.cons.inj hrest).2)]

theorem head_composite {parts : List Utf8} (h : parts ≠ []) : (composite parts).bytes.head? ≠ some 0xE2 := by
  cases parts with
  | nil => exact absurd rfl h
  | cons part parts =>
    rw [composite_bytes_cons, head?_append_of_ne_nil _ (decimal_ne_nil _)]
    intro hhead
    exact absurd (isDigit_of_mem_decimal (mem_of_head? hhead)) (by decide)

/-! ## The keys of all rows -/

/-- What a key of the code stands for. -/
def keyOf (sha : Bytes → Digest) (text : Json → Utf8) : Counted → Utf8
  | .field idx value => taggedKey sha idx (clipToKeyCap sha (canon text value))
  | .tuple values => clipToKeyCap sha (composite (values.map fun v => clipToKeyCap sha (canon text v)))

theorem rowKeys_eq (byRow : Bool) (row : List (Option Json)) :
    rowKeys sha text byRow row = (rowCounted byRow row).map (keyOf sha text) := by
  unfold rowKeys rowCounted
  split_ifs
  · rfl
  · have hvalue : valueToKey sha text = fun v => clipToKeyCap sha (canon text (cellValue v)) := funext valueToKey_eq
    simp only [map_cons, map_nil, keyOf, map_map, Function.comp_def, hvalue]
  · simp only [map_map, Function.comp_def, keyOf, valueToKey_eq]

/-- The texts that are hashed for a row, if they are long. -/
def rowTexts (sha : Bytes → Digest) (text : Json → Utf8) (byRow : Bool) (row : List (Option Json)) : List Utf8 :=
  row.map (fun v => canon text (cellValue v)) ++
    if byRow then [composite (row.map (valueToKey sha text))]
    else row.zipIdx.map fun cell => fieldTag (fieldIndex cell.2) ++ valueToKey sha text cell.1

/-- No two values of the rows have one text, and no two of the long texts that
are hashed for the rows have one digest. -/
structure Distinguished (sha : Bytes → Digest) (text : Json → Utf8) (byRow : Bool) (rows : List (List (Option Json))) : Prop where
  texts : ∀ v ∈ rows.flatten, ∀ w ∈ rows.flatten, text (cellValue v) = text (cellValue w) → cellValue v = cellValue w
  digests : ∀ a ∈ rows.flatMap (rowTexts sha text byRow), ∀ b ∈ rows.flatMap (rowTexts sha text byRow),
    maxCardinalityKeyBytes < a.bytes.length → maxCardinalityKeyBytes < b.bytes.length → sha a.bytes = sha b.bytes → a = b

variable {byRow : Bool} {rows : List (List (Option Json))} {row : List (Option Json)}

theorem mem_rowTexts_canon {v : Option Json} (hrow : row ∈ rows) (hv : v ∈ row) :
    canon text (cellValue v) ∈ rows.flatMap (rowTexts sha text byRow) :=
  mem_flatMap.2 ⟨row, hrow, mem_append_left _ (mem_map_of_mem hv)⟩

variable {row' : List (Option Json)}

/-- Two values with one key are one value. -/
theorem valueToKey_inj (h : Distinguished sha text byRow rows) {v w : Option Json} (hrow : row ∈ rows)
    (hrow' : row' ∈ rows) (hv : v ∈ row) (hw : w ∈ row') (heq : valueToKey sha text v = valueToKey sha text w) :
    cellValue v = cellValue w := by
  have hhead : ∀ u, (canon text u).bytes.head? ≠ some 0xE2 := by
    intro u
    rw [head_canon]
    cases u <;> simp [kindByte]
  rw [valueToKey_eq, valueToKey_eq] at heq
  have hcanon := clip_inj (hhead _) (hhead _) (h.digests _ (mem_rowTexts_canon hrow hv) _ (mem_rowTexts_canon hrow' hw)) heq
  exact canon_inj (h.texts v (mem_flatten.2 ⟨row, hrow, hv⟩) w (mem_flatten.2 ⟨row', hrow', hw⟩)) hcanon

theorem fieldIndex_lt (idx : ℕ) : fieldIndex idx < 2 ^ 32 := by
  unfold fieldIndex
  omega

theorem taggedKey_inj (hbyRow : byRow = false) (h : Distinguished sha text byRow rows)
    {v w : Option Json × ℕ} (hrow : row ∈ rows) (hrow' : row' ∈ rows) (hv : v ∈ row.zipIdx) (hw : w ∈ row'.zipIdx)
    (heq : taggedKey sha (fieldIndex v.2) (valueToKey sha text v.1) = taggedKey sha (fieldIndex w.2) (valueToKey sha text w.1)) :
    fieldIndex v.2 = fieldIndex w.2 ∧ cellValue v.1 = cellValue w.1 := by
  have hmem : ∀ {row : List (Option Json)} {v : Option Json × ℕ}, row ∈ rows → v ∈ row.zipIdx →
      fieldTag (fieldIndex v.2) ++ valueToKey sha text v.1 ∈ rows.flatMap (rowTexts sha text byRow) := by
    intro row v hrow hv
    refine mem_flatMap.2 ⟨row, hrow, mem_append_right _ ?_⟩
    rw [hbyRow]
    exact mem_map.2 ⟨v, hv, rfl⟩
  have hhead : ∀ idx (raw : Utf8), (fieldTag idx ++ raw).bytes.head? ≠ some 0xE2 := fun idx raw => by
    exact (by decide : some (0x66 : UInt8) ≠ some 0xE2)
  have htag := clip_inj (hhead _ _) (hhead _ _) (h.digests _ (hmem hrow hv) _ (hmem hrow' hw)) heq
  obtain ⟨hidx, hkey⟩ := fieldTag_append_inj (fieldIndex_lt _) (fieldIndex_lt _) htag
  exact ⟨hidx, valueToKey_inj h hrow hrow' (fst_mem_of_mem_zipIdx hv) (fst_mem_of_mem_zipIdx hw) hkey⟩

theorem tuple_inj (hbyRow : byRow = true) (h : Distinguished sha text byRow rows) (hrow : row ∈ rows)
    (hrow' : row' ∈ rows) (hne : row ≠ []) (hne' : row' ≠ [])
    (heq : clipToKeyCap sha (composite (row.map (valueToKey sha text))) = clipToKeyCap sha (composite (row'.map (valueToKey sha text)))) :
    row.map cellValue = row'.map cellValue := by
  have hmem : ∀ {row : List (Option Json)}, row ∈ rows →
      composite (row.map (valueToKey sha text)) ∈ rows.flatMap (rowTexts sha text byRow) := by
    intro row hrow
    refine mem_flatMap.2 ⟨row, hrow, mem_append_right _ ?_⟩
    rw [hbyRow]
    exact mem_singleton_self _
  have hparts := composite_inj (clip_inj (head_composite (by simpa using hne)) (head_composite (by simpa using hne'))
    (h.digests _ (hmem hrow) _ (hmem hrow')) heq)
  -- the parts are equal one by one
  have hall : ∀ (vs ws : List (Option Json)), (∀ v ∈ vs, v ∈ row) → (∀ w ∈ ws, w ∈ row') →
      vs.map (valueToKey sha text) = ws.map (valueToKey sha text) → vs.map cellValue = ws.map cellValue := by
    intro vs
    induction vs with
    | nil =>
      intro ws _ _ hmap
      rw [map_nil, eq_comm, map_eq_nil_iff] at hmap
      rw [hmap]
    | cons v vs ih =>
      intro ws hvs hws hmap
      cases ws with
      | nil => cases hmap
      | cons w ws =>
        obtain ⟨hv, hvs⟩ := forall_mem_cons.1 hvs
        obtain ⟨hw, hws⟩ := forall_mem_cons.1 hws
        obtain ⟨hkey, hmap⟩ := List.cons.inj hmap
        rw [map_cons, map_cons, valueToKey_inj h hrow hrow' hv hw hkey, ih ws hvs hws hmap]
  exact hall row row' (fun _ => id) (fun _ => id) hparts

/-- The keys of rows. -/
def keys (sha : Bytes → Digest) (text : Json → Utf8) (byRow : Bool) (rows : List (List (Option Json))) : Finset Utf8 :=
  (rows.flatMap (rowKeys sha text byRow)).toFinset

/-- There are as many keys as different things in the rows. -/
theorem card_keys (h : Distinguished sha text byRow rows) : (keys sha text byRow rows).card = (distinct byRow rows).card := by
  have himage : keys sha text byRow rows = (distinct byRow rows).image (keyOf sha text) := by
    ext k
    simp only [keys, distinct, rowKeys_eq, mem_toFinset, mem_flatMap, mem_map, Finset.mem_image]
    grind
  rw [himage]
  refine Finset.card_image_of_injOn fun x hx y hy heq => ?_
  simp only [distinct, Finset.mem_coe, mem_toFinset, mem_flatMap] at hx hy
  obtain ⟨row, hrow, hx⟩ := hx
  obtain ⟨row', hrow', hy⟩ := hy
  unfold rowCounted at hx hy
  cases hbyRow : byRow with
  | true =>
    split_ifs at hx with hne
    · cases hx
    split_ifs at hy with hne'
    · cases hy
    rw [mem_singleton] at hx hy
    subst hx hy
    have hkey : ∀ row : List (Option Json), keyOf sha text (.tuple (row.map cellValue)) =
        clipToKeyCap sha (composite (row.map (valueToKey sha text))) := fun row => by
      simp only [keyOf, map_map, Function.comp_def, funext valueToKey_eq]
    rw [hkey, hkey] at heq
    exact congrArg Counted.tuple (tuple_inj hbyRow h hrow hrow' hne hne' heq)
  | false =>
    simp only [hbyRow, Bool.false_eq_true, if_false, mem_map] at hx hy
    obtain ⟨v, hv, rfl⟩ := hx
    obtain ⟨w, hw, rfl⟩ := hy
    simp only [keyOf, ← valueToKey_eq] at heq
    obtain ⟨hidx, hvalue⟩ := taggedKey_inj hbyRow h hrow hrow' hv hw heq
    rw [hidx, hvalue]

end

end FerroDruid.Aggregator
