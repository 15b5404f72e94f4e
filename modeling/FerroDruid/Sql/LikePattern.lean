import FerroDruid.Lib.Wildcard
import FerroDruid.Sql.Filter
/-!
# LIKE patterns as regular expressions

`like_to_regex` writes the text of a regular expression, which the regex crate
reads. The texts it writes are read back as the parts of the pattern, whatever
characters of the regex syntax the pattern holds.
-/

namespace FerroDruid.Sql

open Lib List

/-! ## The text -/

def backslash : Bytes := [0x5C]

def dot : Bytes := [0x2E]

def star : Bytes := [0x2A]

def caret : Bytes := [0x5E]

def dollar : Bytes := [0x24]

/-- The characters that `regex::escape` escapes. -/
def metaCharacters : List Bytes :=
  [backslash, dot, [0x2B], star, [0x3F], [0x28], [0x29], [0x7C], [0x5B], [0x5D], [0x7B], [0x7D], caret, dollar, [0x23], [0x26], [0x2D], [0x7E]]

def regexEscape (c : Bytes) : List Bytes := if c ∈ metaCharacters then [backslash, c] else [c]

/-- `like_to_regex`, as the characters it pushes. -/
def likeRegexText (escape : Option Bytes) (pattern : List Bytes) : List Bytes := caret :: (body pattern ++ [dollar])
where
  body : List Bytes → List Bytes
    | [] => []
    | [c] => if some c = escape then [] else push c
    | c :: next :: cs => if some c = escape then regexEscape next ++ body cs else push c ++ body (next :: cs)
  push (c : Bytes) : List Bytes := if c = [0x25] then [dot, star] else if c = [0x5F] then [dot] else regexEscape c

def itemText : LikeItem → List Bytes
  | .many => [dot, star]
  | .one => [dot]
  | .char c => regexEscape c

def regexText (items : List LikeItem) : List Bytes := caret :: (items.flatMap itemText ++ [dollar])

theorem push_eq (c : Bytes) : likeRegexText.push c = itemText (likeToRegex.likeItem c) := by
  unfold likeRegexText.push likeToRegex.likeItem
  split_ifs <;> rfl

theorem likeRegexText_eq (escape : Option Bytes) (pattern : List Bytes) : likeRegexText escape pattern = regexText (likeToRegex escape pattern) := by
  have hbody : likeRegexText.body escape pattern = (likeToRegex escape pattern).flatMap itemText := by
    fun_induction likeToRegex escape pattern with
    | case1 => rfl
    | case2 c h => simp [likeRegexText.body, h]
    | case3 c h => simp [likeRegexText.body, h, push_eq]
    | case4 c next cs h ih => simp [likeRegexText.body, h, ih, itemText]
    | case5 c next cs h ih => simp [likeRegexText.body, h, ih, push_eq]
  rw [likeRegexText, regexText, hbody]

/-! ## The regex syntax -/

/-- What follows repeats the part before it. -/
def repeats (text : List Bytes) : Bool := text.head?.any fun c => c ∈ [star, [0x2B], [0x3F], [0x7B]]

/-- The documented reading of an expression of literals, escaped literals and dots,
alone or starred, up to the end of the text. -/
def readItems : List Bytes → Option (List LikeItem)
  | [] => none
  | [c] => if c = dollar then some [] else none
  | c :: d :: rest =>
    if c = dot ∧ d = star then if repeats rest then none else (readItems rest).map (.many :: ·)
    else if c = backslash then if d ∉ metaCharacters || repeats rest then none else (readItems rest).map (.char d :: ·)
    else if repeats (d :: rest) then none
    else if c = dot then (readItems (d :: rest)).map (.one :: ·)
    else if c ∈ metaCharacters then none
    else (readItems (d :: rest)).map (.char c :: ·)

def readRegex : List Bytes → Option (List LikeItem)
  | c :: text => if c = caret then readItems text else none
  | [] => none

variable (items : List LikeItem)

/-- What is written before a pattern's end is not taken for a repetition. -/
theorem repeats_text : repeats (items.flatMap itemText ++ [dollar]) = false := by
  cases items with
  | nil => rfl
  | cons item items =>
    cases item with
    | many => rfl
    | one => rfl
    | char c =>
      rw [flatMap_cons, itemText, regexEscape]
      split_ifs with hmeta
      · rfl
      · have hnot : c ∉ [star, [0x2B], [0x3F], [0x7B]] := by
          intro hmem
          apply hmeta
          revert hmem
          simp [metaCharacters]
          tauto
        simpa [repeats] using hnot

theorem readItems_text : readItems (items.flatMap itemText ++ [dollar]) = some items := by
  induction items with
  | nil => rfl
  | cons item items ih =>
    have hrepeats := repeats_text items
    rw [flatMap_cons, append_assoc]
    obtain ⟨d, rest, htext⟩ : ∃ d rest, items.flatMap itemText ++ [dollar] = d :: rest := exists_cons_of_ne_nil (by simp)
    rw [htext] at ih hrepeats ⊢
    have hstar : d ≠ star := by
      rintro rfl
      exact absurd hrepeats (by simp [repeats])
    cases item with
    | many => simp [itemText, readItems, hrepeats, ih]
    | one => simp [itemText, readItems, hrepeats, ih, hstar, dot, backslash]
    | char c =>
      rw [itemText, regexEscape]
      split_ifs with hmeta
      · have hslash : backslash ≠ dot := by decide
        simp [readItems, hrepeats, ih, hmeta, hslash]
      · have hdot : c ≠ dot := ne_of_mem_of_not_mem (by decide) hmeta |>.symm
        have hslash : c ≠ backslash := ne_of_mem_of_not_mem (by decide) hmeta |>.symm
        simp [readItems, hrepeats, ih, hmeta, hdot, hslash]

theorem readRegex_regexText : readRegex (regexText items) = some items := readItems_text items

/-- The regex crate: it may refuse an expression for its size, and one that it takes
matches what its reading says; a dot takes every character but a line feed. -/
structure RegexEngine where
  new : List Bytes → Option (Bytes → Bool)
  is_match : ∀ text items re, readRegex text = some items → new text = some re → ∀ s, re s = wildMatch (· ≠ [0x0A]) items (chars s)

/-- On the texts of patterns. -/
def RegexEngine.crate (engine : RegexEngine) : RegexCrate where
  new items := engine.new (regexText items)
  is_match items re h := engine.is_match _ items re (readRegex_regexText items) h

/-! ## What a pattern means -/

def toWild : LikeItem → WildItem Bytes
  | .many => .many
  | .one => .one
  | .char c => .char c

/-- The parts of a pattern in SQL. An escape character that escapes none is any other
character. -/
def sqlItems (escape : Option Bytes) : List Bytes → List (WildItem Bytes)
  | [] => []
  | [c] => [if some c = escape then .char c else part c]
  | c :: next :: cs => if some c = escape then .char next :: sqlItems escape cs else part c :: sqlItems escape (next :: cs)
where
  part (c : Bytes) : WildItem Bytes := if c = [0x25] then .many else if c = [0x5F] then .one else .char c

/-- The whole text is of the pattern. -/
def SqlLike (escape : Option Bytes) (pattern : List Bytes) (s : Utf8) : Prop := WildMatch (sqlItems escape pattern) (chars s.bytes)

/-- The pattern ends with an escape character that escapes none. -/
def dangling (escape : Option Bytes) : List Bytes → Bool
  | [] => false
  | [c] => some c = escape
  | c :: next :: cs => if some c = escape then dangling escape cs else dangling escape (next :: cs)

theorem part_eq (c : Bytes) : sqlItems.part c = toWild (likeToRegex.likeItem c) := by
  unfold sqlItems.part likeToRegex.likeItem
  split_ifs <;> rfl

theorem sqlItems_cons {escape : Option Bytes} {c : Bytes} (hc : some c ≠ escape) (cs : List Bytes) :
    sqlItems escape (c :: cs) = toWild (likeToRegex.likeItem c) :: sqlItems escape cs := by
  cases cs with
  | nil => simp [sqlItems, hc, part_eq]
  | cons next cs => rw [sqlItems, if_neg hc, part_eq]

/-- The pattern less an escape character that escapes none. -/
def undangled (escape : Option Bytes) (pattern : List Bytes) : List Bytes :=
  if dangling escape pattern then pattern.dropLast else pattern

/-- The expression is that of the pattern without it. -/
theorem likeToRegex_map (escape : Option Bytes) (pattern : List Bytes) :
    (likeToRegex escape pattern).map toWild = sqlItems escape (undangled escape pattern) := by
  fun_induction likeToRegex escape pattern with
  | case1 => rfl
  | case2 c hc => simp [undangled, dangling, hc, sqlItems]
  | case3 c hc => simp [undangled, dangling, hc, sqlItems, part_eq]
  | case4 c next cs hc ih =>
    rw [map_cons, ih, undangled, undangled, dangling, if_pos hc]
    split_ifs with hdangling
    · cases cs with
      | nil => cases hdangling
      | cons d cs => rw [dropLast_cons_cons, dropLast_cons_cons, sqlItems, if_pos hc]; rfl
    · rw [sqlItems, if_pos hc]
      rfl
  | case5 c next cs hc ih =>
    rw [map_cons, ih, undangled, undangled, dangling, if_neg hc, ← sqlItems_cons hc]
    split_ifs <;> rfl

/-- In SQL it stands behind the other parts. -/
theorem sqlItems_dangling {escape : Option Bytes} {pattern : List Bytes} (h : dangling escape pattern = true) :
    ∃ e, sqlItems escape pattern = sqlItems escape pattern.dropLast ++ [.char e] := by
  fun_induction dangling escape pattern with
  | case1 => cases h
  | case2 c => exact ⟨c, by rw [sqlItems, if_pos (of_decide_eq_true h)]; rfl⟩
  | case3 c next cs hc ih =>
    obtain ⟨e, he⟩ := ih h
    refine ⟨e, ?_⟩
    cases cs with
    | nil => cases h
    | cons d cs => rw [dropLast_cons_cons, dropLast_cons_cons, sqlItems, if_pos hc, he, sqlItems, if_pos hc]; rfl
  | case4 c next cs hc ih =>
    obtain ⟨e, he⟩ := ih h
    exact ⟨e, by rw [dropLast_cons_cons, sqlItems_cons hc, sqlItems_cons hc, he]; rfl⟩

/-- A line feed is of no wildcard exactly if the pattern writes each that the text has. -/
theorem wildMatch_lines_iff (text : List Bytes) : wildMatch (· ≠ [0x0A]) items text = true ↔
      WildMatch (items.map toWild) text ∧ text.count [0x0A] = (items.map toWild).count (.char [0x0A]) := by
  induction items generalizing text with
  | nil => cases text <;> simp [wildMatch, WildMatch.nil_iff]
  | cons item items ih =>
    cases item with
    | many =>
      rw [map_cons, toWild, count_cons_of_ne (by simp : (.many : WildItem Bytes) ≠ .char [0x0A]), wildMatch]
      induction text with
      | nil => simpa [wildMatch.manyMatch, WildMatch.many_iff] using ih []
      | cons c text ihtext =>
        rw [wildMatch.manyMatch, Bool.or_eq_true, Bool.and_eq_true, ih, ihtext]
        constructor
        · rintro (⟨h, hcount⟩ | ⟨hc, h, hcount⟩)
          · exact ⟨.many [] h, hcount⟩
          · exact ⟨@WildMatch.many_of_drop _ _ (c :: text) 1 h, by rw [count_cons_of_ne (of_decide_eq_true hc), hcount]⟩
        · rintro ⟨h, hcount⟩
          obtain ⟨k, h⟩ := WildMatch.many_iff.1 h
          cases k with
          | zero => exact .inl ⟨h, hcount⟩
          | succ k =>
            -- what is left holds all line feeds that the pattern writes
            rw [drop_succ_cons] at h
            have hleast := h.count_le [0x0A]
            have hless : (text.drop k).count [0x0A] ≤ text.count [0x0A] := (drop_sublist _ _).count_le _
            refine .inr ⟨decide_eq_true ?_, WildMatch.many_iff.2 ⟨k, h⟩, ?_⟩
            · rintro rfl
              rw [count_cons_self] at hcount
              omega
            · have hgrow := count_le_count_cons (a := [0x0A]) (b := c) (l := text)
              omega
    | one =>
      cases text with
      | nil => exact iff_of_false Bool.false_ne_true fun h => by cases h.1
      | cons c text =>
        rw [map_cons, toWild, WildMatch.one_cons_iff, count_cons_of_ne (by simp : (.one : WildItem Bytes) ≠ .char [0x0A]), wildMatch,
          Bool.and_eq_true, ih, decide_eq_true_iff]
        by_cases hc : c = [0x0A]
        · subst hc
          rw [count_cons_self]
          refine iff_of_false (fun h => h.1 rfl) ?_
          rintro ⟨h, hcount⟩
          have hleast := h.count_le [0x0A]
          omega
        · rw [count_cons_of_ne hc]
          exact and_iff_right hc
    | char x =>
      cases text with
      | nil => exact iff_of_false Bool.false_ne_true fun h => by cases h.1
      | cons c text =>
        rw [map_cons, toWild, WildMatch.char_cons_iff, wildMatch, Bool.and_eq_true, ih, decide_eq_true_iff, @eq_comm _ c x, and_assoc]
        refine and_congr_right fun hc => and_congr_right fun _ => ?_
        subst hc
        simp [count_cons]

/-! ## When the filter means the pattern -/

def firstChar (escape : Option Utf8) : Option Bytes := escape.bind fun e => (chars e.bytes).head?

/-- The regex crate takes the expression. -/
def Fits (engine : RegexEngine) (escape : Option Bytes) (pattern : List Bytes) : Prop :=
  (engine.new (likeRegexText escape pattern)).isSome = true

/-- The text has the line feeds that the pattern writes, and no more. -/
def SameLines (escape : Option Bytes) (pattern : List Bytes) (s : Utf8) : Prop :=
  (chars s.bytes).count [0x0A] = (sqlItems escape pattern).count (.char [0x0A])

/-- A text of the pattern has no line feed for a wildcard. Before an escape character
that escapes none, the rest of the pattern has a `%` and ends as the text does, or
the text is of neither. -/
def Spared (engine : RegexEngine) (escape : Option Bytes) (pattern : List Bytes) (s : Utf8) : Prop :=
  if dangling escape pattern then
    (SqlLike escape pattern s →
      Fits engine escape pattern ∧ SameLines escape pattern.dropLast s ∧ WildMatch.EndsLike (sqlItems escape pattern.dropLast) (chars s.bytes)) ∧
    (¬ SqlLike escape pattern s → SqlLike escape pattern.dropLast s →
      ¬ (Fits engine escape pattern ∧ SameLines escape pattern.dropLast s))
  else SqlLike escape pattern s → Fits engine escape pattern ∧ SameLines escape pattern s

variable {legacy : Bool} {engine : RegexEngine} {row : RowMap} {dimension pattern : Utf8} {escape : Option Utf8} {s : Utf8}

theorem isMatch_like_iff (hrow : row.lookup dimension = some (.str s)) :
    (FilterSpec.like dimension pattern escape).isMatch legacy engine.crate row = true ↔
      Fits engine (firstChar escape) (chars pattern.bytes) ∧
        SqlLike (firstChar escape) (undangled (firstChar escape) (chars pattern.bytes)) s ∧
        SameLines (firstChar escape) (undangled (firstChar escape) (chars pattern.bytes)) s := by
  have hnew : engine.crate.new (likeToRegex (firstChar escape) (chars pattern.bytes)) =
      engine.new (likeRegexText (firstChar escape) (chars pattern.bytes)) := congrArg engine.new (likeRegexText_eq _ _).symm
  have hmatch := engine.crate.is_match (likeToRegex (firstChar escape) (chars pattern.bytes))
  rw [FilterSpec.isMatch, hrow, SqlLike, SameLines, ← likeToRegex_map, ← wildMatch_lines_iff]
  have hfirst : (escape.bind fun e => (chars e.bytes).head?) = firstChar escape := rfl
  simp only [rowValueStrings, Cell.valueToString, hfirst, Fits, ← hnew]
  cases hre : engine.crate.new (likeToRegex (firstChar escape) (chars pattern.bytes)) with
  | none => simp
  | some re => simp [hmatch re hre]

/-- A text that ends with the dangling escape character is of the rest if it ends so. -/
theorem sqlLike_dropLast_iff {escape : Option Bytes} {pattern : List Bytes} (hdangling : dangling escape pattern = true)
    (h : SqlLike escape pattern s) :
    SqlLike escape pattern.dropLast s ↔ WildMatch.EndsLike (sqlItems escape pattern.dropLast) (chars s.bytes) := by
  obtain ⟨e, he⟩ := sqlItems_dangling hdangling
  rw [SqlLike, he] at h
  obtain ⟨v, w, hs, hv, hw⟩ := WildMatch.append_iff.1 h
  cases hw with
  | char _ hw =>
    cases hw
    rw [SqlLike, hs]
    exact hv.concat_iff

theorem like_iff_spared (hrow : row.lookup dimension = some (.str s)) :
    ((FilterSpec.like dimension pattern escape).isMatch legacy engine.crate row = true ↔
        SqlLike (firstChar escape) (chars pattern.bytes) s) ↔
      Spared engine (firstChar escape) (chars pattern.bytes) s := by
  rw [isMatch_like_iff hrow, Spared, undangled]
  split_ifs with hdangling
  · by_cases hlike : SqlLike (firstChar escape) (chars pattern.bytes) s
    · rw [sqlLike_dropLast_iff hdangling hlike]
      tauto
    · tauto
  · tauto

/-- A regex crate that takes every expression it can read. -/
def plainEngine : RegexEngine where
  new text := (readRegex text).map fun items s => wildMatch (· ≠ [0x0A]) items (chars s)
  is_match text items re hread hnew s := by
    rw [hread] at hnew
    cases hnew
    rfl

def word : Utf8 := ⟨ascii "word", by decide⟩

def wordRow (s : Utf8) : RowMap := (∅ : RowMap).insert word (.str s)

def anyText : Utf8 := ⟨[0x25], by decide⟩

def anyOne : Utf8 := ⟨[0x5F], by decide⟩

def lineFeed : Utf8 := ⟨[0x0A], by decide⟩

theorem like_iff_spared_anyText :
    ((FilterSpec.like word anyText none).isMatch false plainEngine.crate (wordRow anyOne) = true ↔
        SqlLike (firstChar none) (chars anyText.bytes) anyOne) ↔
      Spared plainEngine (firstChar none) (chars anyText.bytes) anyOne :=
  like_iff_spared (AList.lookup_insert _)

/-- A line feed is one character. -/
theorem like_misses_line_feed :
    (FilterSpec.like word anyOne none).isMatch false plainEngine.crate (wordRow lineFeed) = false ∧
      SqlLike (firstChar none) (chars anyOne.bytes) lineFeed :=
  ⟨by decide +kernel, .one _ .nil⟩

end FerroDruid.Sql
