import FerroDruid.Lib.FloatProduct
import FerroDruid.Lib.Json
/-!
# Expressions

`expr.rs`: the expressions of virtual columns, from text to tokens, to a tree, to the
value at a row. Unicode's tables, the characters of a JSON string and the text of a JSON
value are parameters.
-/

namespace FerroDruid.Query.Expression

open Lib

abbrev Text := List Char

abbrev IsAscii (c : Char) : Prop := c.toNat < 128

/-- What is taken from the standard library and from `serde_json`. -/
structure Runtime where
  isAlphabetic : Char → Bool
  isNumeric : Char → Bool
  toLowercase : Text → Text
  toUppercase : Text → Text
  chars : Utf8 → Text
  /-- `Value::to_string` -/
  display : Json → Text
  alphabetic_ascii : ∀ c, IsAscii c → isAlphabetic c = c.isAlpha
  numeric_ascii : ∀ c, IsAscii c → isNumeric c = c.isDigit
  lowercase_ascii : ∀ s, (∀ c ∈ s, IsAscii c) → toLowercase s = s.map Char.toLower

def Runtime.isAlphanumeric (rt : Runtime) (c : Char) : Bool := rt.isAlphabetic c || rt.isNumeric c

def encode (s : Text) : Bytes := s.flatMap String.utf8EncodeChar

/-! ## Values -/

inductive Value where
  | num (x : F64)
  | str (s : Text)
  | bool (b : Bool)
  | null

namespace Value

variable (rt : Runtime)

def ofJson : Json → Value
  | .null => null
  | .bool b => bool b
  | .number n => match (Json.number n).asF64 with
    | some x => num x
    | none => null
  | .string s => str (rt.chars s)
  | other => str (rt.display other)

/-- The number as JSON: an integer when it is one within 64 bits. -/
def numToJson (n : F64) : Json :=
  if n.isFinite && n.trunc.beq n && (F64.ofInt (-2 ^ 63)).le n && n.le (.ofInt (2 ^ 63 - 1)) then .ofI64 n.toI64 else .ofF64 n

/-- Text spells a number, or is none. -/
def asF64 : Value → Option F64
  | num n => some n
  | bool b => some (.ofInt (if b then 1 else 0))
  | str s => parseF64 (encode s)
  | null => none

def asStr : Value → Text
  | str s => s
  | num n => rt.display (numToJson n)
  | bool b => if b then "true".toList else "false".toList
  | null => []

def isTruthy : Value → Bool
  | bool b => b
  | num n => !n.beq (.ofInt 0)
  | str s => !s.isEmpty
  | null => false

def isNull : Value → Bool
  | null => true
  | _ => false

end Value

/-! ## Tokens -/

inductive Op where
  | add | sub | mul | div | rem
  | eq | ne | gt | lt | ge | le
  | and | or | not
  deriving DecidableEq

def Op.symbol : Op → Text
  | .add => "+".toList
  | .sub => "-".toList
  | .mul => "*".toList
  | .div => "/".toList
  | .rem => "%".toList
  | .eq => "==".toList
  | .ne => "!=".toList
  | .gt => ">".toList
  | .lt => "<".toList
  | .ge => ">=".toList
  | .le => "<=".toList
  | .and => "&&".toList
  | .or => "||".toList
  | .not => "!".toList

inductive Token where
  | num (n : F64)
  | str (s : Text)
  | ident (name : Text)
  | op (op : Op)
  | lparen
  | rparen
  | comma
  deriving DecidableEq

structure ExprError where
  text : Text

def isAsciiWhitespace (c : Char) : Bool := c = ' ' ∨ c = '\t' ∨ c = '\n' ∨ c = '\r' ∨ c = '\x0C'

/-- Up to the closing quote; a backslash takes what follows as it is. -/
def scanString (quote : Char) : Text → Text → Option (Text × Text)
  | _, [] => none
  | s, '\\' :: c :: rest => scanString quote (s ++ [c]) rest
  | s, c :: rest => if c = quote then some (s, rest) else scanString quote (s ++ [c]) rest

/-- The operators of two characters. -/
def twoCharOp : Char → Char → Option Op
  | '=', '=' => some .eq
  | '!', '=' => some .ne
  | '>', '=' => some .ge
  | '<', '=' => some .le
  | '&', '&' => some .and
  | '|', '|' => some .or
  | _, _ => none

def arithmeticOp : Char → Option Op
  | '+' => some .add
  | '-' => some .sub
  | '*' => some .mul
  | '/' => some .div
  | '%' => some .rem
  | _ => none

def oneCharOp : Char → Option Op
  | '<' => some .lt
  | '>' => some .gt
  | '!' => some .not
  | _ => none

def isOpChar (c : Char) : Bool := c ∈ ['=', '!', '<', '>', '&', '|']

def isNumberChar (c : Char) : Bool := c.isDigit || c = '.'

def startsNumber (c : Char) (rest : Text) : Bool := c.isDigit || (c = '.' && rest.head?.any Char.isDigit)

def Runtime.isIdentStart (rt : Runtime) (c : Char) : Bool := rt.isAlphabetic c || c = '_'

def Runtime.isIdentChar (rt : Runtime) (c : Char) : Bool := rt.isAlphanumeric c || c = '_'

/-- The token that begins with a character, and what follows it. -/
def nextToken (rt : Runtime) (input : Text) (c : Char) (rest : Text) : Except ExprError (Token × Text) :=
  if c = '(' then .ok (.lparen, rest)
  else if c = ')' then .ok (.rparen, rest)
  else if c = ',' then .ok (.comma, rest)
  else if c = '\'' ∨ c = '"' then
    match scanString c [] rest with
    | some (s, rest) => .ok (.str s, rest)
    | none => .error ⟨"unterminated string literal: ".toList ++ input⟩
  else
    match arithmeticOp c with
    | some op => .ok (.op op, rest)
    | none =>
      if isOpChar c then
        match rest.head?.bind (twoCharOp c) with
        | some op => .ok (.op op, rest.tail)
        | none =>
          match oneCharOp c with
          | some op => .ok (.op op, rest)
          | none => .error ⟨"unexpected operator char '".toList ++ c :: "' in: ".toList ++ input⟩
      else if startsNumber c rest then
        let num := (c :: rest).takeWhile isNumberChar
        match parseF64 (encode num) with
        | some n => .ok (.num n, (c :: rest).dropWhile isNumberChar)
        | none => .error ⟨"bad numeric literal '".toList ++ num ++ "'".toList⟩
      else if rt.isIdentStart c then .ok (.ident ((c :: rest).takeWhile rt.isIdentChar), (c :: rest).dropWhile rt.isIdentChar)
      else .error ⟨"unexpected character '".toList ++ c :: "' in: ".toList ++ input⟩

/-- The tokens of a text, as many of them as there is fuel. -/
def tokenizeLoop (rt : Runtime) (input : Text) : ℕ → Text → Except ExprError (List Token)
  | _, [] => .ok []
  | 0, _ :: _ => .error ⟨[]⟩
  | fuel + 1, c :: rest =>
    if isAsciiWhitespace c then tokenizeLoop rt input fuel rest
    else do
      let (token, rest) ← nextToken rt input c rest
      let tokens ← tokenizeLoop rt input fuel rest
      .ok (token :: tokens)

def tokenize (rt : Runtime) (input : Text) : Except ExprError (List Token) := tokenizeLoop rt input input.length input

/-! ## Trees -/

inductive Expr where
  | literal (v : Value)
  | column (name : Text)
  | unary (op : Op) (operand : Expr)
  | binary (op : Op) (lhs rhs : Expr)
  | call (name : Text) (args : List Expr)

/-! ## The parser -/

/-- A parser of the tokens that are left. -/
abbrev Parser (α : Type) := List Token → Except ExprError (α × List Token)

def eatOp (ops : List Op) : List Token → Option (Op × List Token)
  | .op op :: rest => if op ∈ ops then some (op, rest) else none
  | _ => none

/-- `while let Some(op) = self.eat_op(ops)`, as often as there is fuel. -/
def binaryLoop (ops : List Op) (operand : Parser Expr) : ℕ → Expr → Parser Expr
  | fuel, lhs, ts =>
    match eatOp ops ts with
    | none => .ok (lhs, ts)
    | some (op, ts) =>
      match fuel with
      | 0 => .error ⟨[]⟩
      | fuel + 1 => do
        let (rhs, ts) ← operand ts
        binaryLoop ops operand fuel (.binary op lhs rhs) ts

def parseBinary (ops : List Op) (operand : Parser Expr) : Parser Expr := fun ts => do
  let (lhs, ts) ← operand ts
  binaryLoop ops operand ts.length lhs ts

/-- The further arguments of a call. -/
def argsLoop (parseOr : Parser Expr) : ℕ → Parser (List Expr)
  | fuel, .comma :: ts =>
    match fuel with
    | 0 => .error ⟨[]⟩
    | fuel + 1 => do
      let (arg, ts) ← parseOr ts
      let (args, ts) ← argsLoop parseOr fuel ts
      .ok (arg :: args, ts)
  | _, ts => .ok ([], ts)

def parseArgs (parseOr : Parser Expr) : Parser (List Expr)
  | .rparen :: ts => .ok ([], .rparen :: ts)
  | ts => do
    let (arg, ts) ← parseOr ts
    let (args, ts) ← argsLoop parseOr ts.length ts
    .ok (arg :: args, ts)

def keyword (name : Text) : Option Value :=
  if name = "null".toList then some .null
  else if name = "true".toList then some (.bool true)
  else if name = "false".toList then some (.bool false)
  else none

/-- The tokens that begin no expression, as they are shown. -/
def debugToken : Token → Text
  | .op op => "Op(\"".toList ++ op.symbol ++ "\")".toList
  | .rparen => "RParen".toList
  | .comma => "Comma".toList
  | _ => []

def closing (message : String) : Parser Unit
  | .rparen :: ts => .ok ((), ts)
  | _ => .error ⟨message.toList⟩

def parsePrimary (rt : Runtime) (parseOr : Parser Expr) : Parser Expr
  | [] => .error ⟨"unexpected end of expression".toList⟩
  | .num n :: ts => .ok (.literal (.num n), ts)
  | .str s :: ts => .ok (.literal (.str s), ts)
  | .lparen :: ts => do
    let (e, ts) ← parseOr ts
    let (_, ts) ← closing "missing closing parenthesis" ts
    .ok (e, ts)
  | .ident name :: ts =>
    match keyword name with
    | some v => .ok (.literal v, ts)
    | none =>
      match ts with
      | .lparen :: ts => do
        let (args, ts) ← parseArgs parseOr ts
        let (_, ts) ← closing "missing ')' in function call" ts
        .ok (.call (rt.toLowercase name) args, ts)
      | ts => .ok (.column name, ts)
  | other :: _ => .error ⟨"unexpected token ".toList ++ debugToken other⟩

def parseUnary (rt : Runtime) (parseOr : Parser Expr) : Parser Expr
  | .op op :: ts =>
    if op ∈ [.sub, .not] then do
      let (operand, ts) ← parseUnary rt parseOr ts
      .ok (.unary op operand, ts)
    else parsePrimary rt parseOr (.op op :: ts)
  | ts => parsePrimary rt parseOr ts

def parseMul (rt : Runtime) (parseOr : Parser Expr) : Parser Expr := parseBinary [.mul, .div, .rem] (parseUnary rt parseOr)

def parseAdd (rt : Runtime) (parseOr : Parser Expr) : Parser Expr := parseBinary [.add, .sub] (parseMul rt parseOr)

def parseCmp (rt : Runtime) (parseOr : Parser Expr) : Parser Expr := fun ts => do
  let (lhs, ts) ← parseAdd rt parseOr ts
  match eatOp [.eq, .ne, .gt, .lt, .ge, .le] ts with
  | some (op, ts) => do
    let (rhs, ts) ← parseAdd rt parseOr ts
    .ok (.binary op lhs rhs, ts)
  | none => .ok (lhs, ts)

def parseAnd (rt : Runtime) (parseOr : Parser Expr) : Parser Expr := parseBinary [.and] (parseCmp rt parseOr)

/-- Parentheses nest as deep as there is fuel. -/
def parseOr (rt : Runtime) : ℕ → Parser Expr
  | 0 => fun _ => .error ⟨[]⟩
  | fuel + 1 => parseBinary [.or] (parseAnd rt (parseOr rt fuel))

/-! ## Compiling -/

def functions : List Text :=
  ["strlen".toList, "substring".toList, "concat".toList, "lower".toList, "upper".toList, "abs".toList, "coalesce".toList, "case".toList]

mutual

def validateFunctions : Expr → Except ExprError Unit
  | .literal _ | .column _ => .ok ()
  | .unary _ operand => validateFunctions operand
  | .binary _ lhs rhs => do
    validateFunctions lhs
    validateFunctions rhs
  | .call name args =>
    if name ∉ functions then .error ⟨"unknown function '".toList ++ name ++ "'".toList⟩
    else validateArgs args

def validateArgs : List Expr → Except ExprError Unit
  | [] => .ok ()
  | arg :: args => do
    validateFunctions arg
    validateArgs args

end

def compile (rt : Runtime) (input : Text) : Except ExprError Expr := do
  let tokens ← tokenize rt input
  if tokens = [] then .error ⟨"empty expression".toList⟩
  else
    let (expr, rest) ← parseOr rt (tokens.length + 1) tokens
    if rest ≠ [] then .error ⟨"trailing tokens after expression: ".toList ++ input⟩
    else do
      validateFunctions expr
      .ok expr

/-! ## Evaluation -/

abbrev Row := Text → Option Json

def compareNumbers (a b : F64) : Op → Bool
  | .eq => (a.sub b).abs.lt (.epsilon false)
  | .ne => (F64.epsilon false).le (a.sub b).abs
  | .gt => b.lt a
  | .lt => a.lt b
  | .ge => b.le a
  | .le => a.le b
  | _ => false

def compareTexts (a b : Text) : Op → Bool
  | .eq => a = b
  | .ne => a ≠ b
  | .gt => b < a
  | .lt => a < b
  | .ge => ¬ a < b
  | .le => ¬ b < a
  | _ => false

def compare (rt : Runtime) (l : Value) (op : Op) (r : Value) : Bool :=
  if l.isNull || r.isNull then
    match op with
    | .eq => l.isNull && r.isNull
    | .ne => !(l.isNull && r.isNull)
    | _ => false
  else
    match l.asF64, r.asF64 with
    | some a, some b => compareNumbers a b op
    | _, _ => compareTexts (l.asStr rt) (r.asStr rt) op

def arithmetic (l r : Value) (op : F64 → F64 → Value) : Value :=
  match l.asF64, r.asF64 with
  | some a, some b => op a b
  | _, _ => .null

/-- By zero there is none. -/
def nonZero (op : F64 → F64 → F64) (a b : F64) : Value := if b.beq (.ofInt 0) then .null else .num (op a b)

/-- The operators that read both sides. -/
def strictBinary (rt : Runtime) (op : Op) (l r : Value) : Value :=
  match op with
  | .add =>
    if l.isNull || r.isNull then .null
    else
      match l.asF64, r.asF64 with
      | some a, some b => .num (a.add b)
      | _, _ => .str (l.asStr rt ++ r.asStr rt)
  | .sub => arithmetic l r fun a b => .num (a.sub b)
  | .mul => arithmetic l r fun a b => .num (a.mul b)
  | .div => arithmetic l r (nonZero F64.div)
  | .rem => arithmetic l r (nonZero F64.rem)
  | .eq | .ne | .gt | .lt | .ge | .le => .bool (compare rt l op r)
  | _ => .null

/-- `as usize`: what is not positive is zero. -/
def toUsize : F64 → ℕ
  | .finite false m => min (F64.units m / F64.unitsOne) (2 ^ 64 - 1)
  | .infinite false => 2 ^ 64 - 1
  | _ => 0

def substring (rt : Runtime) (args : List Value) : Value :=
  match args.head? with
  | none => .null
  | some v =>
    let chars := v.asStr rt
    let idx := ((args[1]?.bind Value.asF64).map F64.toI64).getD 0
    let start := (max 0 (min idx.toInt chars.length)).toNat
    let stop := match args[2]?.bind Value.asF64 with
      | some len => min (start + toUsize len) chars.length
      | none => chars.length
    .str ((chars.take stop).drop start)

/-- A condition and its value, and again; a last one alone is the value otherwise. -/
def searchedCase : List Value → Value
  | cond :: value :: rest => if cond.isTruthy then value else searchedCase rest
  | [last] => last
  | [] => .null

def evalCall (rt : Runtime) (name : Text) (args : List Value) : Value :=
  if name = "strlen".toList then
    match args.head? with
    | some v => .num (.ofInt (v.asStr rt).length)
    | none => .null
  else if name = "lower".toList then
    match args.head? with
    | some v => .str (rt.toLowercase (v.asStr rt))
    | none => .null
  else if name = "upper".toList then
    match args.head? with
    | some v => .str (rt.toUppercase (v.asStr rt))
    | none => .null
  else if name = "abs".toList then
    match args.head?.bind Value.asF64 with
    | some n => .num n.abs
    | none => .null
  else if name = "concat".toList then .str (args.flatMap fun v => v.asStr rt)
  else if name = "coalesce".toList then (args.find? fun v => !v.isNull).getD .null
  else if name = "substring".toList then substring rt args
  else if name = "case".toList then searchedCase args
  else .null

mutual

def eval (rt : Runtime) (row : Row) : Expr → Value
  | .literal v => v
  | .column name =>
    match row name with
    | some value => .ofJson rt value
    | none => .null
  | .unary op operand =>
    let v := eval rt row operand
    match op with
    | .sub =>
      match v.asF64 with
      | some n => .num n.neg
      | none => .null
    | .not => .bool (!v.isTruthy)
    | _ => .null
  | .binary op lhs rhs =>
    match op with
    | .and => .bool ((eval rt row lhs).isTruthy && (eval rt row rhs).isTruthy)
    | .or => .bool ((eval rt row lhs).isTruthy || (eval rt row rhs).isTruthy)
    | op => strictBinary rt op (eval rt row lhs) (eval rt row rhs)
  | .call name args => evalCall rt name (evalArgs rt row args)

def evalArgs (rt : Runtime) (row : Row) : List Expr → List Value
  | [] => []
  | arg :: args => eval rt row arg :: evalArgs rt row args

end

end FerroDruid.Query.Expression
