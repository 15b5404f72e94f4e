import FerroDruid.Query.ExpressionGrammar
/-!
# Printing expressions

A tree as text, with parentheses where its place in the grammar asks for them and nowhere
else. The text compiles to the tree.
-/

namespace FerroDruid.Query.Expression

open Lib List

/-! ## Phrases -/

def Expr.level : Expr → Level
  | .literal _ | .column _ | .call _ _ => .primary
  | .unary _ _ => .unary
  | .binary op _ _ => op.level

/-- A chain grows to the left; a comparison does not grow. -/
def Level.leftOperand (l : Level) : Level := if l.chains then l else l.operand

/-- In parentheses if the tree is looser than its place. -/
def parenthesize (l : Level) (e : Expr) (ts : List Token) : List Token := if e.level.rank < l.rank then .lparen :: (ts ++ [.rparen]) else ts

mutual

def phrase : Expr → List Token
  | .literal (.num n) => [.num n]
  | .literal (.str s) => [.str s]
  | .literal (.bool b) => [.ident (if b then "true".toList else "false".toList)]
  | .literal .null => [.ident "null".toList]
  | .column name => [.ident name]
  | .unary op e => .op op :: parenthesize .unary e (phrase e)
  | .binary op lhs rhs => parenthesize op.level.leftOperand lhs (phrase lhs) ++ .op op :: parenthesize op.level.operand rhs (phrase rhs)
  | .call name [] => [.ident name, .lparen, .rparen]
  | .call name (arg :: args) => .ident name :: .lparen :: (phrase arg ++ morePhrases args ++ [.rparen])

def morePhrases : List Expr → List Token
  | [] => []
  | arg :: args => .comma :: (phrase arg ++ morePhrases args)

end

/-! ## Text -/

variable (rt : Runtime) (spell : F64 → Text)

def escapeText (s : Text) : Text := s.flatMap fun c => if c = '\'' ∨ c = '\\' then ['\\', c] else [c]

def tokenText : Token → Text
  | .num n => spell n
  | .str s => '\'' :: (escapeText s ++ ['\''])
  | .ident name => name
  | .op op => op.symbol
  | .lparen => ['(']
  | .rparen => [')']
  | .comma => [',']

/-- The tokens with a space after each. -/
def render (ts : List Token) : Text := ts.flatMap fun t => tokenText spell t ++ [' ']

def print (e : Expr) : Text := render spell (phrase e)

/-! ## Trees that have a text -/

mutual

/-- Operators stand where the grammar has them, names are names, and numbers are spelled. -/
def Expr.Formed : Expr → Prop
  | .literal (.num n) => Lexeme rt (spell n) (.num n)
  | .literal _ => True
  | .column name => Lexeme rt name (.ident name) ∧ keyword name = none
  | .unary op e => op ∈ Level.unary.operators ∧ e.Formed
  | .binary op lhs rhs => op ≠ .not ∧ lhs.Formed ∧ rhs.Formed
  | .call name args => name ∈ functions ∧ FormedArgs args

def FormedArgs : List Expr → Prop
  | [] => True
  | arg :: args => arg.Formed ∧ FormedArgs args

end

variable {rt spell}

/-! ## The text has the tokens -/

theorem quoted_escapeText (s : Text) : Quoted '\'' (escapeText s) s := by
  induction s with
  | nil => exact .nil
  | cons c s ih =>
    rw [escapeText, flatMap_cons]
    split_ifs with hc
    · exact .escape c ih
    · rw [not_or] at hc
      exact .char hc.1 hc.2 ih

/-- A space makes no token longer. -/
theorem breaks_space (t : Token) (rest : Text) : Breaks rt t (' ' :: rest) := by
  have hident : rt.isIdentChar ' ' = false := by
    rw [Runtime.isIdentChar, Runtime.isAlphanumeric, rt.alphabetic_ascii _ (by decide), rt.numeric_ascii _ (by decide)]
    rfl
  cases t with
  | num n =>
    rintro c ⟨⟩
    rfl
  | ident name =>
    rintro c ⟨⟩
    exact hident
  | op op => cases op <;> simp [Breaks]
  | _ => trivial

theorem lexes_render {ts : List Token} (h : ∀ t ∈ ts, Lexeme rt (tokenText spell t) t) : Lexes rt (render spell ts) ts := by
  induction ts with
  | nil => exact .nil
  | cons t ts ih =>
    rw [render, flatMap_cons, append_assoc, singleton_append]
    exact .token (h t mem_cons_self) (breaks_space t _) (.space rfl (ih fun u hu => h u (mem_cons_of_mem t hu)))

theorem lexeme_str (s : Text) : Lexeme rt (tokenText spell (.str s)) (.str s) := .str (.inl rfl) (quoted_escapeText s)

theorem lexeme_ident_ascii {c : Char} {cs : Text} (hstart : IsAscii c ∧ c.isAlpha = true) (hchars : ∀ d ∈ cs, IsAscii d ∧ d.isAlpha = true) :
    Lexeme rt (c :: cs) (.ident (c :: cs)) := by
  have hstart' : rt.isIdentStart c = true := by rw [Runtime.isIdentStart, rt.alphabetic_ascii c hstart.1, hstart.2, Bool.true_or]
  refine .ident hstart' fun d hd => ?_
  obtain ⟨hascii, halpha⟩ := hchars d hd
  rw [Runtime.isIdentChar, Runtime.isAlphanumeric, rt.alphabetic_ascii d hascii, halpha, Bool.true_or, Bool.true_or]

variable {name : Text}

/-- The names the language itself has. -/
theorem lexeme_reserved (h : name ∈ "null".toList :: "true".toList :: "false".toList :: functions) :
    Lexeme rt (tokenText spell (.ident name)) (.ident name) := by
  have hall : ∀ name ∈ "null".toList :: "true".toList :: "false".toList :: functions, name ≠ [] ∧ ∀ c ∈ name, IsAscii c ∧ c.isAlpha = true := by decide
  obtain ⟨hne, hchars⟩ := hall name h
  cases name with
  | nil => exact absurd rfl hne
  | cons c cs => exact lexeme_ident_ascii (hchars c mem_cons_self) fun d hd => hchars d (mem_cons_of_mem c hd)

theorem mem_parenthesize {l : Level} {e : Expr} {ts : List Token} {t : Token} (h : t ∈ parenthesize l e ts) : t = .lparen ∨ t = .rparen ∨ t ∈ ts := by
  unfold parenthesize at h
  split_ifs at h
  · simpa [or_comm, or_left_comm] using h
  · exact .inr (.inr h)

theorem lexeme_parenthesize {l : Level} {e : Expr} {ts : List Token} (hts : ∀ t ∈ ts, Lexeme rt (tokenText spell t) t) :
    ∀ t ∈ parenthesize l e ts, Lexeme rt (tokenText spell t) t := by
  intro t ht
  rcases mem_parenthesize ht with rfl | rfl | ht
  · exact .lparen
  · exact .rparen
  · exact hts t ht

mutual

theorem lexeme_phrase : ∀ e : Expr, e.Formed rt spell → ∀ t ∈ phrase e, Lexeme rt (tokenText spell t) t
  | .literal (.num n), h, t, ht => by
    rw [phrase, mem_singleton] at ht
    exact ht ▸ h
  | .literal (.str s), _, t, ht => by
    rw [phrase, mem_singleton] at ht
    exact ht ▸ lexeme_str s
  | .literal (.bool b), _, t, ht => by
    rw [phrase, mem_singleton] at ht
    rw [ht]
    cases b with
    | true => exact lexeme_reserved (.tail _ (.head _))
    | false => exact lexeme_reserved (.tail _ (.tail _ (.head _)))
  | .literal .null, _, t, ht => by
    rw [phrase, mem_singleton] at ht
    exact ht ▸ lexeme_reserved (.head _)
  | .column name, h, t, ht => by
    rw [phrase, mem_singleton] at ht
    exact ht ▸ h.1
  | .unary op e, h, t, ht => by
    rw [phrase, mem_cons] at ht
    rcases ht with rfl | ht
    · exact .op op
    · exact lexeme_parenthesize (lexeme_phrase e h.2) t ht
  | .binary op lhs rhs, h, t, ht => by
    rw [phrase, mem_append, mem_cons] at ht
    rcases ht with ht | rfl | ht
    · exact lexeme_parenthesize (lexeme_phrase lhs h.2.1) t ht
    · exact .op op
    · exact lexeme_parenthesize (lexeme_phrase rhs h.2.2) t ht
  | .call name [], h, t, ht => by
    simp only [phrase, mem_cons, not_mem_nil, or_false] at ht
    rcases ht with rfl | rfl | rfl
    · exact lexeme_reserved (.tail _ (.tail _ (.tail _ h.1)))
    · exact .lparen
    · exact .rparen
  | .call name (arg :: args), h, t, ht => by
    simp only [phrase, mem_cons, mem_append, not_mem_nil, or_false] at ht
    rcases ht with rfl | rfl | (ht | ht) | rfl
    · exact lexeme_reserved (.tail _ (.tail _ (.tail _ h.1)))
    · exact .lparen
    · exact lexeme_phrase arg h.2.1 t ht
    · exact lexeme_morePhrases args h.2.2 t ht
    · exact .rparen

theorem lexeme_morePhrases : ∀ es : List Expr, FormedArgs rt spell es → ∀ t ∈ morePhrases es, Lexeme rt (tokenText spell t) t
  | [], _, t, ht => absurd ht not_mem_nil
  | arg :: args, h, t, ht => by
    rw [morePhrases, mem_cons, mem_append] at ht
    rcases ht with rfl | ht | ht
    · exact .comma
    · exact lexeme_phrase arg h.1 t ht
    · exact lexeme_morePhrases args h.2 t ht

end

/-! ## The tokens are a phrase -/

variable {l : Level} {e : Expr} {ts us : List Token}

theorem derives_operand (h : Derives rt (.level l.operand e) ts) : Derives rt (.level l e) ts := by
  have hchain : l.chains = true → Derives rt (.level l e) ts := by
    intro hl
    have hphrase := Derives.chain hl h .tailNil
    rwa [append_nil] at hphrase
  cases l with
  | or => exact hchain rfl
  | and => exact hchain rfl
  | cmp => exact .cmpOne h
  | add => exact hchain rfl
  | mul => exact hchain rfl
  | unary => exact .unaryOne h
  | primary => exact h

/-- A phrase is one of every looser level too. -/
theorem derives_mono {l' : Level} (h : Derives rt (.level l' e) ts) (hle : l.rank ≤ l'.rank) : Derives rt (.level l e) ts := by
  obtain ⟨k, hk⟩ := Nat.exists_eq_add_of_le hle
  induction k generalizing l with
  | zero =>
    have heq : l' = l := by cases l <;> cases l' <;> first | rfl | cases hk
    rwa [← heq]
  | succ k ih =>
    have hstep : l'.rank = l.operand.rank + k := by
      have htop : l'.rank ≤ 6 := by cases l' <;> decide
      cases l <;> simp only [Level.rank, Level.operand] at hk htop ⊢ <;> omega
    exact derives_operand (ih (hstep ▸ Nat.le_add_right _ _) hstep)

theorem derives_parenthesize (h : Derives rt (.level e.level e) ts) (l : Level) : Derives rt (.level l e) (parenthesize l e ts) := by
  unfold parenthesize
  split_ifs with hlt
  · exact derives_mono (.paren (derives_mono h (Nat.zero_le _))) (by cases l <;> decide)
  · exact derives_mono h (not_lt.1 hlt)

variable {op : Op} {rhs : Expr}

/-- A chain takes one more operand at its end. -/
theorem derives_tail_snoc {p : Phrase} (h : Derives rt p ts) (hop : op ∈ l.operators)
    (hrhs : Derives rt (.level l.operand rhs) us) :
    ∀ lhs, p = .tail l lhs e → Derives rt (.tail l lhs (.binary op e rhs)) (ts ++ .op op :: us) := by
  induction h with
  | tailNil =>
    rintro lhs ⟨⟩
    have hphrase : Derives rt (.tail l e (.binary op e rhs)) (.op op :: (us ++ [])) := .tailCons hop hrhs .tailNil
    rwa [append_nil] at hphrase
  | tailCons hop' hrhs' htail ihrhs ihtail =>
    rintro lhs ⟨⟩
    have hphrase := Derives.tailCons hop' hrhs' (ihtail _ rfl)
    rwa [← append_assoc] at hphrase
  | _ => rintro lhs ⟨⟩

theorem derives_chain_snoc (hl : l.chains = true) (hop : op ∈ l.operators) (h : Derives rt (.level l e) ts)
    (hrhs : Derives rt (.level l.operand rhs) us) : Derives rt (.level l (.binary op e rhs)) (ts ++ .op op :: us) := by
  have hsplit : ∃ lhs vs ws, ts = vs ++ ws ∧ Derives rt (.level l.operand lhs) vs ∧ Derives rt (.tail l lhs e) ws := by
    cases h with
    | chain hl' hlhs htail => exact ⟨_, _, _, rfl, hlhs, htail⟩
    | _ => cases hl
  obtain ⟨lhs, vs, ws, rfl, hlhs, htail⟩ := hsplit
  rw [append_assoc]
  exact .chain hl hlhs (derives_tail_snoc htail hop hrhs lhs rfl)

theorem derives_binary {lhs : Expr} (hop : op ≠ .not) (hlhs : Derives rt (.level op.level.leftOperand lhs) ts)
    (hrhs : Derives rt (.level op.level.operand rhs) us) : Derives rt (.level op.level (.binary op lhs rhs)) (ts ++ .op op :: us) := by
  have hmem : op ∈ op.level.operators := by cases op <;> decide
  by_cases hchains : op.level.chains = true
  · rw [Level.leftOperand, if_pos hchains] at hlhs
    exact derives_chain_snoc hchains hmem hlhs hrhs
  · have hcmp : op.level = .cmp := by cases op <;> first | rfl | exact absurd rfl hop | exact absurd rfl hchains
    rw [hcmp] at hmem hlhs hrhs ⊢
    exact .cmpTwo hmem hlhs hrhs

theorem functions_lowercase (h : name ∈ functions) : rt.toLowercase name = name := by
  have hall : ∀ name ∈ functions, (∀ c ∈ name, IsAscii c) ∧ name.map Char.toLower = name := by decide
  obtain ⟨hascii, hlower⟩ := hall name h
  rw [rt.lowercase_ascii name hascii, hlower]

theorem derives_call {es : List Expr} (hname : name ∈ functions) (h : Derives rt (.args es) ts) :
    Derives rt (.level .primary (.call name es)) (.ident name :: .lparen :: (ts ++ [.rparen])) := by
  have hlower : rt.toLowercase name = name := functions_lowercase hname
  have hknown : rt.toLowercase name ∈ functions := by rwa [hlower]
  have hphrase := Derives.call hknown h
  rwa [hlower] at hphrase

/-- A keyword alone is its value. -/
theorem derives_keyword {v : Value} (h : keyword name = some v) : Derives rt (.level .primary (.literal v)) [.ident name] := by
  have hphrase : Derives rt (.level .primary (named name)) [.ident name] := .ident name
  rwa [named, h] at hphrase

mutual

theorem derives_phrase : ∀ e : Expr, e.Formed rt spell → Derives rt (.level e.level e) (phrase e)
  | .literal (.num n), _ => .number n
  | .literal (.str s), _ => .string s
  | .literal (.bool true), _ => derives_keyword rfl
  | .literal (.bool false), _ => derives_keyword rfl
  | .literal .null, _ => derives_keyword rfl
  | .column name, h => by
    have hphrase : Derives rt (.level .primary (named name)) [.ident name] := .ident name
    rwa [named, h.2] at hphrase
  | .unary op e, h => .unaryOp h.1 (derives_parenthesize (derives_phrase e h.2) .unary)
  | .binary op lhs rhs, h =>
    derives_binary h.1 (derives_parenthesize (derives_phrase lhs h.2.1) _) (derives_parenthesize (derives_phrase rhs h.2.2) _)
  | .call name [], h => derives_call h.1 .argsNil
  | .call name (arg :: args), h =>
    derives_call h.1 (.argsCons (derives_mono (derives_phrase arg h.2.1) (Nat.zero_le _)) (derives_morePhrases args h.2.2))

theorem derives_morePhrases : ∀ es : List Expr, FormedArgs rt spell es → Derives rt (.moreArgs es) (morePhrases es)
  | [], _ => .moreNil
  | arg :: args, h => .moreCons (derives_mono (derives_phrase arg h.1) (Nat.zero_le _)) (derives_morePhrases args h.2)

end

/-- What is printed compiles to what was printed. -/
theorem compile_print {e : Expr} (h : e.Formed rt spell) : compile rt (print spell e) = .ok e :=
  compile_eq_ok.2 ⟨phrase e, lexes_render (lexeme_phrase e h), derives_mono (derives_phrase e h) (Nat.zero_le _)⟩

/-! ## Every tree that compiles has a text -/

theorem lexeme_of_lexes {cs : Text} (h : Lexes rt cs ts) : ∀ t ∈ ts, ∃ text, Lexeme rt text t := by
  induction h with
  | nil => exact nofun
  | space hspace h ih => exact ih
  | token hlexeme hbreaks h ih =>
    intro t ht
    rcases mem_cons.1 ht with rfl | ht
    · exact ⟨_, hlexeme⟩
    · exact ih t ht

theorem formed_named (h : ∃ text, Lexeme rt text (.ident name)) : (named name).Formed rt spell := by
  unfold named
  cases hkey : keyword name with
  | none =>
    obtain ⟨text, hlexeme⟩ := h
    cases hlexeme with
    | ident hstart hchars => exact ⟨.ident hstart hchars, hkey⟩
  | some v =>
    unfold keyword at hkey
    split_ifs at hkey <;> cases hkey <;> trivial

def Phrase.Formed (rt : Runtime) (spell : F64 → Text) : Phrase → Prop
  | level _ e => e.Formed rt spell
  | tail l lhs e => l.chains = true → lhs.Formed rt spell → e.Formed rt spell
  | args es => FormedArgs rt spell es
  | moreArgs es => FormedArgs rt spell es

theorem ne_not_of_mem (hop : op ∈ l.operators) (hl : l ≠ .unary) : op ≠ .not := by
  rintro rfl
  exact hl (level_of_mem hop hl).symm

theorem formed_of_derives {p : Phrase} (hspell : ∀ n, (∃ text, Lexeme rt text (.num n)) → Lexeme rt (spell n) (.num n)) (h : Derives rt p ts)
    (hts : ∀ t ∈ ts, ∃ text, Lexeme rt text t) : p.Formed rt spell := by
  induction h with
  | chain hl hlhs htail ihlhs ihtail =>
    rw [forall_mem_append] at hts
    exact ihtail hts.2 hl (ihlhs hts.1)
  | tailNil => exact fun _ => id
  | tailCons hop hrhs htail ihrhs ihtail =>
    intro hl hlhs
    rw [forall_mem_cons, forall_mem_append] at hts
    exact ihtail hts.2.2 hl ⟨ne_not_of_mem hop (ne_unary_of_chains hl), hlhs, ihrhs hts.2.1⟩
  | cmpOne h ih => exact ih hts
  | cmpTwo hop hlhs hrhs ihlhs ihrhs =>
    rw [forall_mem_append, forall_mem_cons] at hts
    exact ⟨ne_not_of_mem hop (by decide), ihlhs hts.1, ihrhs hts.2.2⟩
  | unaryOne h ih => exact ih hts
  | unaryOp hop h ih =>
    rw [forall_mem_cons] at hts
    exact ⟨hop, ih hts.2⟩
  | number n => exact hspell n (hts _ mem_cons_self)
  | string s => trivial
  | ident name => exact formed_named (hts _ mem_cons_self)
  | call hname hargs ih =>
    rw [forall_mem_cons, forall_mem_cons, forall_mem_append] at hts
    exact ⟨hname, ih hts.2.2.1⟩
  | paren h ih =>
    rw [forall_mem_cons, forall_mem_append] at hts
    exact ih hts.2.1
  | argsNil => trivial
  | argsCons h hmore ih ihmore =>
    rw [forall_mem_append] at hts
    exact ⟨ih hts.1, ihmore hts.2⟩
  | moreNil => trivial
  | moreCons h hmore ih ihmore =>
    rw [forall_mem_cons, forall_mem_append] at hts
    exact ⟨ih hts.2.1, ihmore hts.2.2⟩

/-- The trees that are printed are those that texts compile to. -/
theorem formed_of_compile {text : Text} {e : Expr} (h : compile rt text = .ok e) : ∃ spell, e.Formed rt spell := by
  classical
  obtain ⟨ts, hlexes, hphrase⟩ := compile_eq_ok.1 h
  refine ⟨fun n => if hn : ∃ text, Lexeme rt text (.num n) then hn.choose else [], formed_of_derives (fun n hn => ?_) hphrase (lexeme_of_lexes hlexes)⟩
  rw [dif_pos hn]
  exact hn.choose_spec

/-! ## Integer arithmetic in expressions

Numbers are floats. Where a float holds every intermediate value, arithmetic over integers
has the integer result. -/

/-- Arithmetic over integer columns and literals. -/
inductive Arith where
  | column (name : Text)
  | literal (n : ℤ)
  | neg (t : Arith)
  | add (a b : Arith)
  | sub (a b : Arith)
  | mul (a b : Arith)

namespace Arith

def expr : Arith → Expr
  | column name => .column name
  | literal n => .literal (.num (.ofInt n))
  | neg t => .unary .sub t.expr
  | add a b => .binary .add a.expr b.expr
  | sub a b => .binary .sub a.expr b.expr
  | mul a b => .binary .mul a.expr b.expr

def columns : Arith → List Text
  | column name => [name]
  | literal _ => []
  | neg t => t.columns
  | add a b | sub a b | mul a b => a.columns ++ b.columns

variable (ints : Text → Int64)

/-- The integer result. -/
def value : Arith → ℤ
  | column name => (ints name).toInt
  | literal n => n
  | neg t => -t.value
  | add a b => a.value + b.value
  | sub a b => a.value - b.value
  | mul a b => a.value * b.value

/-- The value of every subtree. -/
def values : Arith → List ℤ
  | column name => [(ints name).toInt]
  | literal n => [n]
  | neg t => -t.value ints :: t.values
  | add a b => (a.value ints + b.value ints) :: (a.values ++ b.values)
  | sub a b => (a.value ints - b.value ints) :: (a.values ++ b.values)
  | mul a b => (a.value ints * b.value ints) :: (a.values ++ b.values)

end Arith

/-- The row has the integers of the tree's columns. -/
def Row.Holds (row : Row) (ints : Text → Int64) (t : Arith) : Prop := ∀ name ∈ t.columns, row name = some (.ofI64 (ints name))

theorem eval_arith (rt : Runtime) {row : Row} {ints : Text → Int64} {t : Arith} (hrow : row.Holds ints t) (h : ∀ n ∈ t.values ints, F64.Exact n) :
    ∃ x, eval rt row t.expr = .num x ∧ x.Represents (t.value ints) := by
  induction t with
  | column name =>
    refine ⟨.ofInt (ints name).toInt, ?_, h _ (mem_singleton_self _)⟩
    rw [Arith.expr, eval, hrow name (mem_singleton_self _)]
    rfl
  | literal n => exact ⟨.ofInt n, rfl, h n (mem_singleton_self n)⟩
  | neg t ih =>
    obtain ⟨x, hx, hrep⟩ := ih hrow fun n hn => h n (mem_cons_of_mem _ hn)
    refine ⟨x.neg, ?_, F64.represents_neg hrep⟩
    simp only [Arith.expr, eval, hx, Value.asF64]
  | add a b iha ihb =>
    simp only [Row.Holds, Arith.columns, forall_mem_append] at hrow
    simp only [Arith.values, forall_mem_cons, forall_mem_append] at h
    obtain ⟨x, hx, hrepx⟩ := iha hrow.1 h.2.1
    obtain ⟨y, hy, hrepy⟩ := ihb hrow.2 h.2.2
    refine ⟨x.add y, ?_, F64.represents_add hrepx hrepy h.1⟩
    simp only [Arith.expr, eval, hx, hy, strictBinary, Value.isNull, Value.asF64, Bool.or_self, Bool.false_eq_true, if_false]
  | sub a b iha ihb =>
    simp only [Row.Holds, Arith.columns, forall_mem_append] at hrow
    simp only [Arith.values, forall_mem_cons, forall_mem_append] at h
    obtain ⟨x, hx, hrepx⟩ := iha hrow.1 h.2.1
    obtain ⟨y, hy, hrepy⟩ := ihb hrow.2 h.2.2
    refine ⟨x.sub y, ?_, F64.represents_sub hrepx hrepy h.1⟩
    simp only [Arith.expr, eval, hx, hy, strictBinary, arithmetic, Value.asF64]
  | mul a b iha ihb =>
    simp only [Row.Holds, Arith.columns, forall_mem_append] at hrow
    simp only [Arith.values, forall_mem_cons, forall_mem_append] at h
    obtain ⟨x, hx, hrepx⟩ := iha hrow.1 h.2.1
    obtain ⟨y, hy, hrepy⟩ := ihb hrow.2 h.2.2
    refine ⟨x.mul y, ?_, F64.represents_mul hrepx hrepy h.1⟩
    simp only [Arith.expr, eval, hx, hy, strictBinary, arithmetic, Value.asF64]

/-! ## Integer literals -/

variable {rt : Runtime}

theorem encode_digits {s : Text} (h : ∀ c ∈ s, c.isDigit = true) : encode s = s.map fun c => UInt8.ofNat c.toNat := by
  induction s with
  | nil => rfl
  | cons c s ih =>
    rw [forall_mem_cons] at h
    have hascii := (digit_ascii h.1).1
    have hsize : c.utf8Size = 1 := Char.utf8Size_eq_one_iff.2 (by
      exact Nat.le_of_lt_succ hascii)
    have hchar : String.utf8EncodeChar c = [UInt8.ofNat c.toNat] := by
      rw [String.utf8EncodeChar_eq_singleton hsize]
      rfl
    rw [encode, flatMap_cons, hchar, map_cons, singleton_append]
    exact congrArg _ (ih h.2)

/-- Decimal digits are the literal of the nearest number. -/
theorem lexeme_decimal (n : ℕ) : Lexeme rt (Nat.toDigits 10 n) (.num (.ofInt n)) := by
  have hdigits : ∀ c ∈ Nat.toDigits 10 n, c.isDigit = true := fun c hc => Nat.isDigit_of_mem_toDigits (by omega) (by omega) hc
  have hvalue : parseF64 (encode (Nat.toDigits 10 n)) = some (.ofInt n) := by
    rw [encode_digits hdigits]
    exact parseF64_decimalInt n
  obtain ⟨c, cs, heq⟩ := exists_cons_of_ne_nil (Nat.toDigits_ne_nil : Nat.toDigits 10 n ≠ [])
  rw [heq] at hdigits hvalue ⊢
  refine .num ?_ (fun d hd => ?_) hvalue
  · rw [startsNumber, hdigits c mem_cons_self, Bool.true_or]
  · rw [isNumberChar, hdigits d hd, Bool.true_or]

/-- Exactly the sentences compile, what is printed compiles to what was printed, and
arithmetic over integers is exact as long as a float holds every intermediate value. -/
theorem compile_print_eval (rt : Runtime) :
    (∀ text e, compile rt text = .ok e ↔ Sentence rt text e) ∧
      (∀ (spell : F64 → Text) (e : Expr), e.Formed rt spell → compile rt (print spell e) = .ok e) ∧
      ∀ (t : Arith) (ints : Text → Int64) (row : Row), row.Holds ints t → (∀ n ∈ t.values ints, F64.Exact n) →
        ∃ x, eval rt row t.expr = .num x ∧ x.Represents (t.value ints) :=
  ⟨fun _ _ => compile_eq_ok, fun _ _ h => compile_print h, fun _ _ _ hrow h => eval_arith rt hrow h⟩

/-- ASCII text, and integers as JSON. -/
def Runtime.ascii : Runtime where
  isAlphabetic := Char.isAlpha
  isNumeric := Char.isDigit
  toLowercase s := s.map Char.toLower
  toUppercase s := s.map Char.toUpper
  chars s := s.bytes.map fun b => Char.ofNat b.toNat
  display
    | .number (.int n _) => (if n < 0 then ['-'] else []) ++ Nat.toDigits 10 n.natAbs
    | _ => []
  alphabetic_ascii _ _ := rfl
  numeric_ascii _ _ := rfl
  lowercase_ascii _ _ := rfl

/-- `(a + 2) * -b` -/
def scaledSum : Arith := .mul (.add (.column ['a']) (.literal 2)) (.neg (.column ['b']))

/-- `a` is 5 and `b` is 3. -/
def scaledSumInts (name : Text) : Int64 := if name = ['a'] then 5 else 3

theorem formed_scaledSum : scaledSum.expr.Formed .ascii fun _ => Nat.toDigits 10 2 := by
  have hname : ∀ c : Char, c.isAlpha = true → Lexeme .ascii [c] (.ident [c]) := by
    intro c hc
    exact .ident (by rw [Runtime.isIdentStart]; simp [Runtime.ascii, hc]) nofun
  exact ⟨by decide, ⟨by decide, ⟨hname 'a' rfl, by decide⟩, lexeme_decimal 2⟩, by decide, hname 'b' rfl, by decide⟩

theorem print_scaledSum : print (fun _ => Nat.toDigits 10 2) scaledSum.expr = "( a + 2 ) * - b ".toList := by decide

theorem compile_print_eval_scaledSum :
    compile .ascii "( a + 2 ) * - b ".toList = .ok scaledSum.expr ∧
      ∃ x, eval .ascii (fun name => some (.ofI64 (scaledSumInts name))) scaledSum.expr = .num x ∧ x.Represents (-21) := by
  obtain ⟨-, hprint, heval⟩ := compile_print_eval .ascii
  refine ⟨print_scaledSum ▸ hprint _ _ formed_scaledSum, ?_⟩
  refine heval scaledSum scaledSumInts _ (fun name _ => rfl) fun n hn => F64.exact_of_small ?_
  have hvalues : ∀ n ∈ scaledSum.values scaledSumInts, n.natAbs ≤ 100 := by decide
  exact (hvalues n hn).trans (by norm_num)

/-- What a text compiles to can be printed, and what is printed compiles to it again. -/
theorem compile_again {text : Text} {e : Expr} (h : compile rt text = .ok e) :
    ∃ spell, e.Formed rt spell ∧ compile rt (print spell e) = .ok e := by
  obtain ⟨spell, hformed⟩ := formed_of_compile h
  exact ⟨spell, hformed, compile_print hformed⟩

theorem compile_again_scaledSum : ∃ e spell, compile .ascii "( a + 2 ) * - b ".toList = .ok e ∧ e.Formed .ascii spell ∧
    compile .ascii (print spell e) = .ok e := by
  have h := print_scaledSum ▸ compile_print formed_scaledSum
  obtain ⟨spell, hspell⟩ := compile_again h
  exact ⟨_, spell, h, hspell⟩

/-- A column of 2 to the 53 and one is read as its even neighbour. -/
theorem wide_column_rounded :
    let row : Row := fun _ => some (.ofI64 9007199254740993)
    (∀ n ∈ Arith.values (fun _ => 9007199254740993) (.column ['a']), -2 ^ 63 ≤ n ∧ n < 2 ^ 63) ∧
      row.Holds (fun _ => 9007199254740993) (.column ['a']) ∧
      ¬ ∃ x, eval .ascii row (Arith.expr (.column ['a'])) = .num x ∧ x.Represents (Arith.value (fun _ => 9007199254740993) (.column ['a'])) := by
  refine ⟨by decide, fun _ _ => rfl, ?_⟩
  rintro ⟨x, hx, hrep⟩
  have heval : eval .ascii (fun _ => some (.ofI64 9007199254740993)) (Arith.expr (.column ['a'])) = .num (.ofInt 9007199254740993) := rfl
  rw [heval] at hx
  have heven : F64.ofInt 9007199254740993 = .ofInt 9007199254740992 := by decide +kernel
  have hwide : Arith.value (fun _ => 9007199254740993) (.column ['a']) = 9007199254740993 := by decide
  rw [← Value.num.inj hx, heven, F64.represents_ofInt_iff (by norm_num), hwide] at hrep
  norm_num at hrep

end FerroDruid.Query.Expression
