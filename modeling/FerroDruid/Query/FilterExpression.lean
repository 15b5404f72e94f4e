import FerroDruid.Query.Expression
/-!
# Expression filters

`filter.rs`: the language of expression filters, which is evaluated as it is parsed.
-/

namespace FerroDruid.Query.FilterExpression

open Lib
open Expression (Text IsAscii Op Value Row encode isAsciiWhitespace isNumberChar twoCharOp oneCharOp keyword compareNumbers compareTexts)

/-- `char::is_whitespace` -/
def isWhitespace (c : Char) : Bool := String.utf8EncodeChar c ∈ whitespace

/-- White space is neither a letter nor a number. -/
structure Runtime extends Expression.Runtime where
  /-- `f64::to_string` -/
  floatText : F64 → Text
  space_alphanumeric : ∀ c, isWhitespace c = true → toRuntime.isAlphanumeric c = false

/-! ## Tokens -/

inductive ExprToken where
  | ident (name : Text)
  | number (n : F64)
  | stringLit (s : Text)
  | op (op : Op)
  | lParen
  | rParen
  deriving DecidableEq

def startsNumber (c : Char) (rest : Text) : Bool := c.isDigit || (c = '-' && rest.head?.any Char.isDigit)

def Runtime.isIdentChar (rt : Runtime) (c : Char) : Bool := rt.isAlphanumeric c || c = '_'

/-- What begins with a character: a token, or nothing, and what follows it. A number that does not parse ends it all. -/
def nextToken (rt : Runtime) (c : Char) (rest : Text) : Option (Option ExprToken × Text) :=
  if c = '(' then some (some .lParen, rest)
  else if c = ')' then some (some .rParen, rest)
  else if c = '\'' then
    -- the end of the text closes a literal as a quote does
    some (some (.stringLit (rest.takeWhile (· ≠ '\''))), (rest.dropWhile (· ≠ '\'')).tail)
  else
    match rest.head?.bind (twoCharOp c) with
    | some op => some (some (.op op), rest.tail)
    | none =>
      match oneCharOp c with
      | some op => some (some (.op op), rest)
      | none =>
        if startsNumber c rest then
          (parseF64 (encode (c :: rest.takeWhile isNumberChar))).map fun n => (some (.number n), rest.dropWhile isNumberChar)
        else if rt.isIdentChar c then some (some (.ident (c :: rest.takeWhile rt.isIdentChar)), rest.dropWhile rt.isIdentChar)
        else some (none, rest)

/-- The tokens of a text, as many of them as there is fuel. -/
def tokenizeLoop (rt : Runtime) : ℕ → Text → Option (List ExprToken)
  | _, [] => some []
  | 0, _ :: _ => none
  | fuel + 1, c :: rest =>
    if isAsciiWhitespace c then tokenizeLoop rt fuel rest
    else do
      let (token, rest) ← nextToken rt c rest
      let tokens ← tokenizeLoop rt fuel rest
      some (token.toList ++ tokens)

def tokenizeExpr (rt : Runtime) (input : Text) : Option (List ExprToken) := tokenizeLoop rt input.length input

/-! ## Values -/

/-- The value of a column, if the row has it. -/
def ofColumn (rt : Runtime) : Option Json → Value
  | none | some .null => .null
  | some (.number n) => .num ((Json.number n).asF64.getD (.ofInt 0))
  | some (.string s) => .str (rt.chars s)
  | some (.bool b) => .bool b
  | some other => .str (rt.display other)

def resolveIdent (rt : Runtime) (row : Row) (name : Text) : Value := (keyword name).getD (ofColumn rt (row name))

def resolveValue (rt : Runtime) (row : Row) : List ExprToken → Option (Value × List ExprToken)
  | .number n :: ts => some (.num n, ts)
  | .stringLit s :: ts => some (.str s, ts)
  | .ident name :: ts => some (resolveIdent rt row name, ts)
  | _ => none

def exprValueToString (rt : Runtime) : Value → Text
  | .num n => rt.floatText n
  | .str s => s
  | .bool b => if b then "true".toList else "false".toList
  | .null => []

def compareValues (rt : Runtime) (lhs : Value) (op : Op) (rhs : Value) : Bool :=
  if lhs.isNull || rhs.isNull then
    match op with
    | .eq => lhs.isNull && rhs.isNull
    | .ne => !(lhs.isNull && rhs.isNull)
    | _ => false
  else
    match lhs.asF64, rhs.asF64 with
    | some l, some r => compareNumbers l r op
    | _, _ => compareTexts (exprValueToString rt lhs) (exprValueToString rt rhs) op

/-! ## The parser -/

/-- The value of what it parses, and the tokens that are left. -/
abbrev Parser := List ExprToken → Option (Bool × List ExprToken)

/-- `while *pos < tokens.len()`, as often as there is fuel. -/
def chainLoop (op : Op) (combine : Bool → Bool → Bool) (operand : Parser) : ℕ → Bool → Parser
  | fuel, result, ts =>
    if ts.head? = some (.op op) then
      match fuel with
      | 0 => none
      | fuel + 1 => do
        let (rhs, ts) ← operand ts.tail
        chainLoop op combine operand fuel (combine result rhs) ts
    else some (result, ts)

def parseChain (op : Op) (combine : Bool → Bool → Bool) (operand : Parser) (fuel : ℕ) : Parser := fun ts => do
  let (result, ts) ← operand ts
  chainLoop op combine operand fuel result ts

def comparisons : List Op := [.eq, .ne, .gt, .lt, .ge, .le]

def parsePrimary (rt : Runtime) (row : Row) (parseOr : Parser) : Parser
  | [] => none
  | .lParen :: ts => do
    let (result, ts) ← parseOr ts
    -- a parenthesis that is not closed is let pass
    if ts.head? = some .rParen then some (result, ts.tail) else some (result, ts)
  | ts => do
    let (lhs, ts) ← resolveValue rt row ts
    match ts with
    | .op op :: rest =>
      if op ∈ comparisons then do
        let (rhs, rest) ← resolveValue rt row rest
        some (compareValues rt lhs op rhs, rest)
      else some (lhs.isTruthy, ts)
    | _ => some (lhs.isTruthy, ts)

def parseNot (rt : Runtime) (row : Row) (parseOr : Parser) : Parser := fun ts =>
  if ts.head? = some (.op .not) then do
    let (val, ts) ← parsePrimary rt row parseOr ts.tail
    some (!val, ts)
  else parsePrimary rt row parseOr ts

def parseAnd (rt : Runtime) (row : Row) (parseOr : Parser) (fuel : ℕ) : Parser := parseChain .and and (parseNot rt row parseOr) fuel

/-- Parentheses nest as deep as there is fuel. -/
def parseOr (rt : Runtime) (row : Row) : ℕ → Parser
  | 0 => fun _ => none
  | fuel + 1 => parseChain .or or (parseAnd rt row (parseOr rt row fuel) fuel) fuel

/-! ## Validation and evaluation -/

inductive DruidError where
  | query (message : Text)

/-- The value at a row, or none where the evaluation fails closed. -/
def attempt (rt : Runtime) (expr : Text) (row : Row) : Option Bool :=
  if expr.all isWhitespace then some true
  else do
    let tokens ← tokenizeExpr rt expr
    match parseOr rt row (tokens.length + 1) tokens with
    | some (v, []) => some v
    | _ => none

def evaluateExpression (rt : Runtime) (expr : Text) (row : Row) : Bool := (attempt rt expr row).getD false

/-- The row of no columns. -/
def emptyRow : Row := fun _ => none

def validateExpression (rt : Runtime) (expr : Text) : Except DruidError Unit :=
  if expr.all isWhitespace then .ok ()
  else
    match tokenizeExpr rt expr with
    | none => .error (.query ("malformed expression filter: `".toList ++ expr ++ "`".toList))
    | some tokens =>
      match parseOr rt emptyRow (tokens.length + 1) tokens with
      | some (_, []) => .ok ()
      | _ => .error (.query ("malformed or unsupported expression filter: `".toList ++ expr ++ "`".toList))

theorem validateExpression_eq_ok {rt : Runtime} {expr : Text} : validateExpression rt expr = .ok () ↔ ∃ b, attempt rt expr emptyRow = some b := by
  unfold validateExpression attempt
  split_ifs with hblank
  · simp
  · cases tokenizeExpr rt expr with
    | none => simp
    | some tokens =>
      simp only [Option.bind_eq_bind, Option.bind_some]
      split
      · simp
      · simp

end FerroDruid.Query.FilterExpression
