import FerroDruid.Sql.Planner
/-!
# WHERE and its nulls

What a condition means in SQL, as a formula over comparisons that may be unknown,
and when the filter it becomes keeps the rows for which it is true. The filter
evaluates the same formula with comparisons that are never unknown.
-/

namespace FerroDruid.Sql

open Lib

/-! ## Comparisons -/

inductive RangeOp where
  | lt
  | ltEq
  | gt
  | gtEq
  deriving DecidableEq

namespace RangeOp

def strict : RangeOp → Bool
  | lt | gt => true
  | ltEq | gtEq => false

def holdsInt (op : RangeOp) (a b : ℤ) : Bool :=
  match op with
  | lt => a < b
  | ltEq => a ≤ b
  | gt => b < a
  | gtEq => b ≤ a

/-- In the order of the texts. -/
def holdsText (op : RangeOp) (a b : Bytes) : Bool :=
  match op with
  | lt => !textBefore b a
  | ltEq => textBefore a b
  | gt => !textBefore a b
  | gtEq => textBefore b a

/-- Between texts read as floats; false if one is not a float. -/
def holdsNumeric (op : RangeOp) (a b : Bytes) : Bool :=
  match op with
  | lt => numericWithin a none (some b) false true
  | ltEq => numericWithin a none (some b) false false
  | gt => numericWithin a (some b) none true false
  | gtEq => numericWithin a (some b) none false false

end RangeOp

/-- A pattern whose wildcards take all characters. -/
def sqlLike (pattern : Utf8) (text : Bytes) : Bool := wildMatch (fun _ => true) (likeToRegex none (chars pattern.bytes)) (chars text)

/-- A pattern whose wildcards take all characters but a line feed. -/
def lineLike (pattern : Utf8) (text : Bytes) : Bool := wildMatch (· ≠ [0x0A]) (likeToRegex none (chars pattern.bytes)) (chars text)

/-- A comparison of a cell in a row with what the condition says; an equation stands
alone or in a list. -/
inductive Comparison where
  | eq (listed : Bool) (v c : Cell)
  | range (op : RangeOp) (v c : Cell)
  | like (v : Cell) (pattern : Utf8)
  | isNull (v : Cell)

/-- Equal texts, but a null equals a null only. In the legacy mode empty text is a
null, and alone it is equal to nothing else. -/
def sameText (legacy listed : Bool) (v c : Cell) : Bool :=
  if v = .null then c = .null || (legacy && c = .str emptyText)
  else if legacy && !listed && c = .str emptyText then false
  else v.valueToString = c.valueToString

namespace Comparison

/-- SQL's comparison: unknown with a null, or between a string and a number. -/
def truth : Comparison → Truth
  | eq _ (.int a) (.int b) => .ofBool (a = b)
  | eq _ (.str s) (.str t) => .ofBool (s = t)
  | eq _ _ _ => .unknown
  | range op (.int a) (.int b) => .ofBool (op.holdsInt a.toInt b.toInt)
  | range op (.str s) (.str t) => .ofBool (op.holdsText s.bytes t.bytes)
  | range _ _ _ => .unknown
  | like (.str s) pattern => .ofBool (sqlLike pattern s.bytes)
  | like _ _ => .unknown
  | isNull v => .ofBool (v = .null)

/-- What the filter makes of it. -/
def test (legacy : Bool) (regex : RegexCrate) : Comparison → Bool
  | eq listed v c => sameText legacy listed v c
  | range op v c => v ≠ .null && op.holdsNumeric v.valueToString c.valueToString
  | like v pattern => v ≠ .null && (regex.new (likeToRegex none (chars pattern.bytes))).any fun re => re v.valueToString
  | isNull v => v = .null

/-- When the filter is right about the truth of a comparison, or (for the polarity
`false`) about its falsity. -/
def Exact (legacy : Bool) (regex : RegexCrate) : Bool → Comparison → Prop
  | _, eq _ (.int _) (.int _) => True
  | _, eq listed (.str s) (.str t) => legacy = true → listed = false → s = t → s ≠ emptyText
  | polarity, eq listed v c => sameText legacy listed v c = !polarity
  -- integers that are one float compare as equal
  | _, range op (.int a) (.int b) => F64.ofInt a.toInt = F64.ofInt b.toInt → (op.strict = false ↔ op.holdsInt a.toInt b.toInt = true)
  -- strings compare as the floats they spell
  | _, range op (.str s) (.str t) => op.holdsNumeric s.bytes t.bytes = op.holdsText s.bytes t.bytes
  | polarity, range _ .null _ => polarity = true
  | polarity, range op v c => op.holdsNumeric v.valueToString c.valueToString = !polarity
  -- wildcards stop at a line feed, and the pattern may be too large
  | _, like (.str s) pattern =>
    sqlLike pattern s.bytes = true → (regex.new (likeToRegex none (chars pattern.bytes))).isSome = true ∧ lineLike pattern s.bytes = true
  | polarity, like .null _ => polarity = true
  | polarity, like (.int n) pattern =>
    ((regex.new (likeToRegex none (chars pattern.bytes))).isSome && lineLike pattern (decimalInt n.toInt)) = !polarity
  | _, isNull _ => True

end Comparison

/-! ## Conditions -/

def columnValue (row : RowMap) : SqlExpr → Cell
  | .column name => (row.lookup name).getD .null
  | _ => .null

def constant : SqlExpr → Cell
  | .literal lit => literalCell lit
  | _ => .null

def patternText : SqlExpr → Utf8
  | .literal (.string s) => s
  | _ => emptyText

def notIf (negated : Bool) (f : Formula Comparison) : Formula Comparison := if negated then .not f else f

/-- A condition on a row: BETWEEN is two comparisons, and IN any of many. -/
def condition (row : RowMap) : SqlExpr → Formula Comparison
  | .binaryOp left op right =>
    match op with
    | .eq => .atom (.eq false (columnValue row left) (constant right))
    | .notEq => .not (.atom (.eq false (columnValue row left) (constant right)))
    | .lt => .atom (.range .lt (columnValue row left) (constant right))
    | .ltEq => .atom (.range .ltEq (columnValue row left) (constant right))
    | .gt => .atom (.range .gt (columnValue row left) (constant right))
    | .gtEq => .atom (.range .gtEq (columnValue row left) (constant right))
    | _ => .never
  | .and left right => .and (condition row left) (condition row right)
  | .or left right => .or (condition row left) (condition row right)
  | .not inner => .not (condition row inner)
  | .isNull inner => .atom (.isNull (columnValue row inner))
  | .isNotNull inner => .not (.atom (.isNull (columnValue row inner)))
  | .between inner low high negated =>
    notIf negated (.and (.atom (.range .gtEq (columnValue row inner) (constant low))) (.atom (.range .ltEq (columnValue row inner) (constant high))))
  | .inList inner list negated => notIf negated (.any (list.map fun item => .atom (.eq true (columnValue row inner) (constant item))))
  | .like inner pattern negated => notIf negated (.atom (.like (columnValue row inner) (patternText pattern)))
  | _ => .never

/-- The value of a condition in SQL. -/
def sqlTruth (row : RowMap) (e : SqlExpr) : Truth := (condition row e).kleene Comparison.truth

/-! ## The filter evaluates the condition -/

variable {legacy : Bool} {regex : RegexCrate} {row : RowMap}

theorem exprToColumnName_ok {e : SqlExpr} {dim : Utf8} (h : exprToColumnName e = .ok dim) : columnValue row e = (row.lookup dim).getD .null := by
  cases e <;> cases h
  rfl

theorem exprToJsonValue_ok {e : SqlExpr} {val : Cell} (h : exprToJsonValue e = .ok val) : constant e = val := by
  cases e <;> cases h
  rfl

theorem sameText_int (listed : Bool) (a b : Int64) : sameText legacy listed (.int a) (.int b) = decide (a = b) := by
  simp only [sameText, reduceCtorEq, if_false, decide_false, Bool.and_false, Bool.false_eq_true, Cell.valueToString]
  exact decide_eq_decide.2 ⟨fun h => Int64.toInt_inj.1 (decimalInt_injective h), fun h => h ▸ rfl⟩

/-- Equal values have equal texts, and in the legacy mode equal texts of integers are
equal values. -/
theorem valuesEqual_eq (v c : Cell) : valuesEqual legacy v c = decide (v.valueToString = c.valueToString) := by
  unfold valuesEqual
  split_ifs with heq hint
  · simp [heq]
  · cases v <;> cases c <;> simp [Cell.isInt] at hint
    exact (decide_eq_false fun h => heq (congrArg Cell.int (Int64.toInt_inj.1 (decimalInt_injective h)))).symm
  · rfl

variable (dim : Utf8)

theorem isMatch_selector (val : Cell) :
    (FilterSpec.selector dim (some val)).isMatch legacy regex row = sameText legacy false ((row.lookup dim).getD .null) val := by
  rw [FilterSpec.isMatch]
  unfold sameText
  by_cases hempty : legacy = true ∧ val = .str emptyText
  · obtain ⟨rfl, rfl⟩ := hempty
    cases row.lookup dim with
    | none => rfl
    | some v => cases v <;> rfl
  · have hval : (some val).any (fun v => legacy && v = .str emptyText) = false := by simpa using hempty
    have hval' : (legacy && decide (val = .str emptyText)) = false := by simpa using hempty
    simp only [hval, hval', Bool.false_eq_true, if_false, Bool.not_false, Bool.and_true, Bool.or_false]
    cases row.lookup dim with
    | none => rfl
    | some v => cases v <;> simp [valuesEqual_eq]

theorem isMatch_in (values : List Cell) :
    (FilterSpec.in_ dim values).isMatch legacy regex row = values.any (sameText legacy true ((row.lookup dim).getD .null)) := by
  have hnull : sameText legacy true .null = fun v => decide (v = .null) || (legacy && decide (v = .str emptyText)) := rfl
  have hvalue : ∀ v, v ≠ .null → sameText legacy true v = valuesEqual legacy v := fun v hv => by
    funext c
    rw [valuesEqual_eq, sameText, if_neg hv]
    simp
  rw [FilterSpec.isMatch]
  cases row.lookup dim with
  | none => simp [hnull]
  | some v =>
    cases v with
    | null => simp [hnull]
    | int n => simp [hvalue (.int n) nofun]
    | str s => simp [hvalue (.str s) nofun]

theorem isMatch_bound (lower upper : Option Bytes) (lowerStrict upperStrict : Option Bool) :
    (FilterSpec.bound dim lower upper lowerStrict upperStrict (some numeric)).isMatch legacy regex row =
      ((row.lookup dim).getD .null ≠ .null &&
        numericWithin ((row.lookup dim).getD .null).valueToString lower upper (lowerStrict.getD false) (upperStrict.getD false)) := by
  rw [FilterSpec.isMatch]
  cases row.lookup dim with
  | none => rfl
  | some v => cases v <;> simp [rowValueStrings]

theorem isMatch_like (pattern : Utf8) :
    (FilterSpec.like dim pattern none).isMatch legacy regex row = (Comparison.like ((row.lookup dim).getD .null) pattern).test legacy regex := by
  rw [FilterSpec.isMatch]
  unfold Comparison.test
  cases row.lookup dim with
  | none => rfl
  | some v => cases v <;> simp [rowValueStrings] <;> cases regex.new (likeToRegex none (chars pattern.bytes)) <;> rfl

theorem isMatch_null (column : Utf8) : (FilterSpec.null column).isMatch legacy regex row = decide ((row.lookup column).getD .null = .null) := by
  rw [FilterSpec.isMatch]
  cases row.lookup column with
  | none => rfl
  | some v => cases v <;> rfl

theorem isMatch_negateIf (negated : Bool) (filter : FilterSpec) (f : Formula Comparison)
    (h : filter.isMatch legacy regex row = f.eval (Comparison.test legacy regex)) :
    (negateIf negated filter).isMatch legacy regex row = (notIf negated f).eval (Comparison.test legacy regex) := by
  unfold negateIf notIf
  split_ifs
  · rw [FilterSpec.isMatch, h, Formula.eval]
  · exact h

/-- Both bounds of a range are two comparisons. -/
theorem numericWithin_both (a lo hi : Bytes) :
    numericWithin a (some lo) (some hi) false false = (numericWithin a (some lo) none false false && numericWithin a none (some hi) false false) := by
  unfold numericWithin
  cases parseF64 a <;> simp

variable {spec : FilterSpec}

theorem convertFilter_binaryOp {left right : SqlExpr} {op : BinaryOperator} (h : convertFilter (.binaryOp left op right) = .ok spec) :
    spec.isMatch legacy regex row = (condition row (.binaryOp left op right)).eval (Comparison.test legacy regex) := by
  cases op
  case plus | minus | multiply | divide => cases h
  all_goals
    obtain ⟨dim, hdim, h⟩ := bind_eq_ok.1 h
    obtain ⟨val, hval, h⟩ := bind_eq_ok.1 h
    cases h
    simp only [condition, exprToColumnName_ok hdim, exprToJsonValue_ok hval, Formula.eval]
  case eq => exact isMatch_selector dim val
  case notEq => rw [FilterSpec.isMatch, isMatch_selector]; rfl
  all_goals exact isMatch_bound ..

theorem constants_of_mapM {list : List SqlExpr} {values : List Cell} (h : list.mapM exprToJsonValue = .ok values) : list.map constant = values := by
  have hforall := mapM_eq_ok.1 h
  clear h
  induction hforall with
  | nil => rfl
  | cons hx _ ih => rw [List.map_cons, exprToJsonValue_ok hx, ih]

variable {inner : SqlExpr} {negated : Bool}

theorem convertFilter_inList {list : List SqlExpr}
    (h : convertFilter (.inList inner list negated) = .ok spec) :
    spec.isMatch legacy regex row = (condition row (.inList inner list negated)).eval (Comparison.test legacy regex) := by
  obtain ⟨dim, hdim, h⟩ := bind_eq_ok.1 h
  obtain ⟨values, hvalues, h⟩ := bind_eq_ok.1 h
  cases h
  refine isMatch_negateIf negated _ _ ?_
  have hconstants := constants_of_mapM hvalues
  rw [isMatch_in, ← hconstants, exprToColumnName_ok hdim, Formula.eval_any, List.any_map, List.any_map]
  rfl

theorem convertFilter_between {low high : SqlExpr}
    (h : convertFilter (.between inner low high negated) = .ok spec) :
    spec.isMatch legacy regex row = (condition row (.between inner low high negated)).eval (Comparison.test legacy regex) := by
  obtain ⟨dim, hdim, h⟩ := bind_eq_ok.1 h
  obtain ⟨lo, hlo, h⟩ := bind_eq_ok.1 h
  obtain ⟨hi, hhi, h⟩ := bind_eq_ok.1 h
  cases h
  refine isMatch_negateIf negated _ _ ?_
  rw [isMatch_bound, exprToColumnName_ok hdim, exprToJsonValue_ok hlo, exprToJsonValue_ok hhi]
  simp only [Option.getD_some, numericWithin_both, Formula.eval, Comparison.test, RangeOp.holdsNumeric]
  cases decide ((row.lookup dim).getD .null ≠ .null) <;> simp

theorem convertFilter_like {pattern : SqlExpr} (h : convertFilter (.like inner pattern negated) = .ok spec) :
    spec.isMatch legacy regex row = (condition row (.like inner pattern negated)).eval (Comparison.test legacy regex) := by
  obtain ⟨dim, hdim, h⟩ := bind_eq_ok.1 h
  split at h
  · rename_i s
    cases h
    refine isMatch_negateIf negated _ _ ?_
    rw [isMatch_like, exprToColumnName_ok hdim]
    rfl
  · cases h

/-- The filter of a condition evaluates it, with tests that know no third value. -/
theorem isMatch_convertFilter : ∀ (e : SqlExpr) (spec : FilterSpec), convertFilter e = .ok spec →
    spec.isMatch legacy regex row = (condition row e).eval (Comparison.test legacy regex)
  | .binaryOp .., _, h => convertFilter_binaryOp h
  | .and left right, spec, h => by
    rw [convertFilter] at h
    obtain ⟨l, hl, h⟩ := bind_eq_ok.1 h
    obtain ⟨r, hr, h⟩ := bind_eq_ok.1 h
    cases h
    simp only [FilterSpec.isMatch, FilterSpec.allMatch, Bool.and_true, condition, Formula.eval, isMatch_convertFilter left l hl,
      isMatch_convertFilter right r hr]
  | .or left right, spec, h => by
    rw [convertFilter] at h
    obtain ⟨l, hl, h⟩ := bind_eq_ok.1 h
    obtain ⟨r, hr, h⟩ := bind_eq_ok.1 h
    cases h
    simp only [FilterSpec.isMatch, FilterSpec.anyMatch, Bool.or_false, condition, Formula.eval, isMatch_convertFilter left l hl,
      isMatch_convertFilter right r hr]
  | .not inner, spec, h => by
    rw [convertFilter] at h
    obtain ⟨f, hf, h⟩ := bind_eq_ok.1 h
    cases h
    simp only [FilterSpec.isMatch, condition, Formula.eval, isMatch_convertFilter inner f hf]
  | .isNull inner, spec, h => by
    rw [convertFilter] at h
    obtain ⟨dim, hdim, h⟩ := bind_eq_ok.1 h
    cases h
    rw [isMatch_null, condition, exprToColumnName_ok hdim]
    rfl
  | .isNotNull inner, spec, h => by
    rw [convertFilter] at h
    obtain ⟨dim, hdim, h⟩ := bind_eq_ok.1 h
    cases h
    rw [FilterSpec.isMatch, isMatch_null, condition, exprToColumnName_ok hdim]
    rfl
  | .between .., _, h => convertFilter_between h
  | .inList .., _, h => convertFilter_inList h
  | .like .., _, h => convertFilter_like h
  | .column _, _, h | .literal _, _, h | .aggregate .., _, h | .positional _, _, h | .star, _, h | .other _, _, h => by
    unfold convertFilter at h
    cases h

/-! ## Comparisons, one by one -/

/-- What is found is the truth, and the falsity, of a comparison when it should be. -/
def Right (found : Bool) (truth : Truth) (exact : Bool → Prop) : Prop :=
  ((found = true ↔ truth = .yes) ↔ exact true) ∧ ((found = false ↔ truth = .no) ↔ exact false)

theorem right_ofBool {found b : Bool} {exact : Bool → Prop} (h : ∀ polarity, exact polarity ↔ found = b) : Right found (.ofBool b) exact := by
  refine ⟨?_, ?_⟩ <;> rw [h] <;> cases found <;> cases b <;> simp

theorem right_unknown {found : Bool} {exact : Bool → Prop} (h : ∀ polarity, exact polarity ↔ found = !polarity) : Right found .unknown exact := by
  refine ⟨?_, ?_⟩ <;> rw [h] <;> cases found <;> simp

theorem right_eq (listed : Bool) (v c : Cell) :
    Right ((Comparison.eq listed v c).test legacy regex) (Comparison.eq listed v c).truth fun polarity =>
      (Comparison.eq listed v c).Exact legacy regex polarity := by
  cases v with
  | null => exact right_unknown fun _ => Iff.rfl
  | int a =>
    cases c with
    | int b => exact right_ofBool fun _ => iff_of_true trivial (sameText_int listed a b)
    | null | str _ => exact right_unknown fun _ => Iff.rfl
  | str s =>
    cases c with
    | null | int _ => exact right_unknown fun _ => Iff.rfl
    | str t =>
      refine right_ofBool fun _ => ?_
      simp only [Comparison.Exact, Comparison.test, sameText, reduceCtorEq, if_false, Cell.valueToString]
      by_cases hst : s = t
      · subst hst
        by_cases hempty : s = emptyText <;> cases legacy <;> cases listed <;> simp [hempty]
      · have hbytes : s.bytes ≠ t.bytes := fun h => hst (Utf8.ext h)
        simp [hst, hbytes]

theorem natAbs_toInt (n : Int64) : n.toInt.natAbs < 2 ^ 64 := by
  have hlow := n.le_toInt
  have hhigh := n.toInt_lt
  omega

/-- Integers compare as the floats they become, so those that become one float as equal. -/
theorem holdsNumeric_int (op : RangeOp) (a b : Int64) :
    op.holdsNumeric (decimalInt a.toInt) (decimalInt b.toInt) =
      if F64.ofInt a.toInt = F64.ofInt b.toInt then !op.strict else op.holdsInt a.toInt b.toInt := by
  have hlt := F64.lt_ofInt_iff (natAbs_toInt a) (natAbs_toInt b)
  have hgt := F64.lt_ofInt_iff (natAbs_toInt b) (natAbs_toInt a)
  have hle := F64.le_ofInt (natAbs_toInt a) (natAbs_toInt b)
  have hge := F64.le_ofInt (natAbs_toInt b) (natAbs_toInt a)
  rw [Bool.eq_iff_iff]
  cases op <;> simp only [RangeOp.holdsNumeric, numericWithin, parseF64_decimalInt, hle, hge, Bool.false_eq_true, if_false, if_true,
    Bool.true_and, Bool.and_true, Bool.not_not, Bool.not_eq_true', Bool.eq_false_iff, Ne, hlt, hgt]
  all_goals
    split_ifs with heq
    · simp [heq, RangeOp.strict]
    · simp [Ne.symm heq, heq, RangeOp.holdsInt]

theorem right_range (op : RangeOp) (v c : Cell) :
    Right ((Comparison.range op v c).test legacy regex) (Comparison.range op v c).truth fun polarity =>
      (Comparison.range op v c).Exact legacy regex polarity := by
  cases v with
  | null =>
    refine right_unknown fun polarity => ?_
    cases polarity <;> cases c <;> simp [Comparison.Exact, Comparison.test]
  | int a =>
    cases c with
    | int b =>
      refine right_ofBool fun _ => ?_
      simp only [Comparison.Exact, Comparison.test, Cell.valueToString, holdsNumeric_int]
      split_ifs with heq <;> cases op.strict <;> cases op.holdsInt a.toInt b.toInt <;> simp [heq]
    | null | str _ =>
      refine right_unknown fun _ => ?_
      simp [Comparison.Exact, Comparison.test]
  | str s =>
    cases c with
    | str t =>
      refine right_ofBool fun _ => ?_
      simp [Comparison.Exact, Comparison.test, Cell.valueToString]
    | null | int _ =>
      refine right_unknown fun _ => ?_
      simp [Comparison.Exact, Comparison.test]

/-! ### Patterns -/

theorem sqlLike_of_lineLike {pattern : Utf8} {text : Bytes} (h : lineLike pattern text = true) : sqlLike pattern text = true :=
  wildMatch_mono (fun _ _ => rfl) _ _ h

/-- A pattern that the regex crate takes matches as it does within a line. -/
theorem any_new (pattern : Utf8) (text : Bytes) :
    ((regex.new (likeToRegex none (chars pattern.bytes))).any fun re => re text) =
      ((regex.new (likeToRegex none (chars pattern.bytes))).isSome && lineLike pattern text) := by
  cases hnew : regex.new (likeToRegex none (chars pattern.bytes)) with
  | none => rfl
  | some re =>
    exact regex.is_match _ re hnew text

theorem right_like (v : Cell) (pattern : Utf8) :
    Right ((Comparison.like v pattern).test legacy regex) (Comparison.like v pattern).truth fun polarity =>
      (Comparison.like v pattern).Exact legacy regex polarity := by
  cases v with
  | null =>
    refine right_unknown fun polarity => ?_
    cases polarity <;> simp [Comparison.Exact, Comparison.test]
  | int n =>
    refine right_unknown fun _ => ?_
    simp only [Comparison.Exact, Comparison.test, any_new, Cell.valueToString]
    simp
  | str s =>
    refine right_ofBool fun _ => ?_
    simp only [Comparison.Exact, Comparison.test, any_new, Cell.valueToString]
    have hline := @sqlLike_of_lineLike pattern s.bytes
    cases hsql : sqlLike pattern s.bytes
    · have hno : lineLike pattern s.bytes = false := by simpa [hsql] using hline
      simp [hno]
    · simp

/-- A comparison is right exactly when it says so. -/
theorem right_test : ∀ c : Comparison, Right (c.test legacy regex) c.truth fun polarity => c.Exact legacy regex polarity
  | .eq listed v c => right_eq listed v c
  | .range op v c => right_range op v c
  | .like v pattern => right_like v pattern
  | .isNull _ => right_ofBool fun _ => iff_of_true trivial rfl

/-! ## The filter and the condition -/

/-- A row that the filter keeps is one for which the condition is true, and the other
way round, exactly when the comparisons are right as far as they matter: each for its
truth, or below a negation for its falsity, unless another one settles it. -/
theorem where_exact_iff (legacy : Bool) (regex : RegexCrate) (row : RowMap) (e : SqlExpr) (spec : FilterSpec) (h : convertFilter e = .ok spec) :
    (spec.isMatch legacy regex row = true ↔ sqlTruth row e = .yes) ↔
      (condition row e).Exact (fun polarity c => c.Exact legacy regex polarity) Comparison.truth true := by
  rw [isMatch_convertFilter e spec h]
  exact (Formula.right_iff (fun c => (right_test c).1) (fun c => (right_test c).2) (condition row e)).1

def lineRegex : RegexCrate where
  new items := some fun text => wildMatch (· ≠ [0x0A]) items (chars text)
  is_match _ _ h text := by cases h; rfl

def nameText : Utf8 := ⟨ascii "name", by decide⟩

def numberText : Utf8 := ⟨ascii "number", by decide⟩

def abcText : Utf8 := ⟨ascii "abc", by decide⟩

def mText : Utf8 := ⟨ascii "m", by decide⟩

/-- A row with a name and no number. -/
def namedRow : RowMap := (∅ : RowMap).insert nameText (.str abcText)

/-- `NOT (number = 5) AND name = 'm'` is right about a row of another name, whatever its
number. -/
theorem where_exact_iff_named :
    (FilterSpec.and [.not (.selector numberText (some (.int 5))), .selector nameText (some (.str mText))]).isMatch false lineRegex namedRow = true ↔
      sqlTruth namedRow (.and (.not (.binaryOp (.column numberText) .eq (.literal (.integer 5))))
        (.binaryOp (.column nameText) .eq (.literal (.string mText)))) = .yes :=
  (where_exact_iff false lineRegex namedRow _ _ rfl).2 (.inr (.inr (.inl ⟨nofun, by decide +kernel⟩)))

/-- `number <> 5` keeps a row without a number, and `name < 'm'` not one whose name is
`abc`. -/
theorem where_diverges :
    (∃ spec, convertFilter (.binaryOp (.column numberText) .notEq (.literal (.integer 5))) = .ok spec ∧
      spec.isMatch false lineRegex namedRow = true ∧
      sqlTruth namedRow (.binaryOp (.column numberText) .notEq (.literal (.integer 5))) = .unknown) ∧
    (∃ spec, convertFilter (.binaryOp (.column nameText) .lt (.literal (.string mText))) = .ok spec ∧
      spec.isMatch false lineRegex namedRow = false ∧
      sqlTruth namedRow (.binaryOp (.column nameText) .lt (.literal (.string mText))) = .yes) := by
  refine ⟨⟨_, rfl, ?_, ?_⟩, ⟨_, rfl, ?_, ?_⟩⟩ <;> decide +kernel

end FerroDruid.Sql
