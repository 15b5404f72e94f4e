import FerroDruid.Query.ExpressionTokens
import FerroDruid.Query.FilterExpression
/-!
# The words of an expression filter

The tokens of a text, each as long as it can be, with white space between any of them. The
tokenizer reads more: a text that is no such words it reads as another one, mended, is.
-/

namespace FerroDruid.Query.FilterExpression

open Lib List
open Expression (Text IsAscii Op encode isAsciiWhitespace isNumberChar twoCharOp oneCharOp takeWhile_run dropWhile_head twoCharOp_symbol
  oneCharOp_symbol twoCharOp_lone digit_ascii)

def operators : List Op := comparisons ++ [Op.and, Op.or, Op.not]

/-- The text of a token. -/
inductive Lexeme (rt : Runtime) : Text → ExprToken → Prop where
  | lParen : Lexeme rt ['('] .lParen
  | rParen : Lexeme rt [')'] .rParen
  | stringLit {s : Text} (hs : '\'' ∉ s) : Lexeme rt ('\'' :: (s ++ ['\''])) (.stringLit s)
  | op {op : Op} (hop : op ∈ operators) : Lexeme rt op.symbol (.op op)
  | number {c : Char} {cs : Text} {n : F64} (hstart : startsNumber c cs = true) (hchars : ∀ d ∈ cs, isNumberChar d = true)
    (hvalue : parseF64 (encode (c :: cs)) = some n) : Lexeme rt (c :: cs) (.number n)
  | ident {c : Char} {cs : Text} (hdigit : c.isDigit = false) (hchars : ∀ d ∈ c :: cs, rt.isIdentChar d = true) : Lexeme rt (c :: cs) (.ident (c :: cs))

/-- Nothing follows that would make a token longer. -/
def Breaks (rt : Runtime) (token : ExprToken) (rest : Text) : Prop :=
  match token with
  | .number _ => ∀ c ∈ rest.head?, isNumberChar c = false
  | .ident _ => ∀ c ∈ rest.head?, rt.isIdentChar c = false
  | .op .lt | .op .gt | .op .not => rest.head? ≠ some '='
  | _ => True

/-- The tokens of a text. -/
inductive Lexes (rt : Runtime) : Text → List ExprToken → Prop where
  | nil : Lexes rt [] []
  | space {c : Char} {cs : Text} {ts : List ExprToken} (hspace : isWhitespace c = true) (h : Lexes rt cs ts) : Lexes rt (c :: cs) ts
  | token {cs rest : Text} {t : ExprToken} {ts : List ExprToken} (hlexeme : Lexeme rt cs t) (hbreaks : Breaks rt t rest) (h : Lexes rt rest ts) :
    Lexes rt (cs ++ rest) (t :: ts)

/-- No token begins with the character. -/
def BeginsNone (rt : Runtime) (c : Char) (rest : Text) : Prop :=
  c ∉ ['(', ')', '\'', '<', '>', '!'] ∧ rest.head?.bind (twoCharOp c) = none ∧ startsNumber c rest = false ∧ rt.isIdentChar c = false

/-- A text, the text it is mended to, and the tokens of that: characters of no token are blanked, and
a literal that is open at the end is closed. -/
inductive Mends (rt : Runtime) : Text → Text → List ExprToken → Prop where
  | nil : Mends rt [] [] []
  | space {c : Char} {cs ms : Text} {ts : List ExprToken} (hspace : isWhitespace c = true) (h : Mends rt cs ms ts) : Mends rt (c :: cs) (c :: ms) ts
  | token {cs rest ms : Text} {t : ExprToken} {ts : List ExprToken} (hlexeme : Lexeme rt cs t) (hbreaks : Breaks rt t rest)
    (h : Mends rt rest ms ts) : Mends rt (cs ++ rest) (cs ++ ms) (t :: ts)
  | stray {c : Char} {cs ms : Text} {ts : List ExprToken} (hspace : isWhitespace c = false) (hnone : BeginsNone rt c cs) (h : Mends rt cs ms ts) :
    Mends rt (c :: cs) (' ' :: ms) ts
  | unclosed {s : Text} (hs : '\'' ∉ s) : Mends rt ('\'' :: s) ('\'' :: (s ++ ['\''])) [.stringLit s]

variable {rt : Runtime} {c : Char} {cs rest rest' : Text} {t : ExprToken} {ts : List ExprToken}

/-! ## Characters -/

theorem isIdentChar_of_digit (h : c.isDigit = true) : rt.isIdentChar c = true := by
  have hascii := (digit_ascii h).1
  simp [Runtime.isIdentChar, Expression.Runtime.isAlphanumeric, rt.numeric_ascii c hascii, h]

/-- What can be in a name is no other ASCII character. -/
theorem ne_of_isIdentChar {d : Char} (h : rt.isIdentChar c = true) (hascii : IsAscii d) (hd : (d.isAlpha || d.isDigit || d = '_') = false) : c ≠ d := by
  rintro rfl
  rw [Runtime.isIdentChar, Expression.Runtime.isAlphanumeric, rt.alphabetic_ascii c hascii, rt.numeric_ascii c hascii, hd] at h
  cases h

theorem isIdentChar_of_space (h : isWhitespace c = true) : rt.isIdentChar c = false := by
  rw [Runtime.isIdentChar, rt.space_alphanumeric c h, Bool.false_or, decide_eq_false_iff_not]
  rintro rfl
  revert h
  decide

theorem isWhitespace_of_ascii (h : isAsciiWhitespace c = true) : isWhitespace c = true := by
  rw [isAsciiWhitespace, decide_eq_true_eq] at h
  rcases h with rfl | rfl | rfl | rfl | rfl <;> decide

/-- The characters that begin the tokens that are neither numbers nor names. -/
def marks : List Char := ['(', ')', '\'', '=', '!', '<', '>', '&', '|']

theorem twoCharOp_of_notMem (h : c ∉ marks) (rest : Text) : rest.head?.bind (twoCharOp c) = none := by
  cases rest with
  | nil => rfl
  | cons d rest =>
    rw [head?_cons, Option.bind_some]
    unfold twoCharOp
    split <;> first | rfl | simp [marks] at h

theorem oneCharOp_of_notMem (h : c ∉ ['<', '>', '!']) : oneCharOp c = none := by
  unfold oneCharOp
  split <;> first | rfl | simp at h

/-- What is left for characters that are no marks. -/
theorem nextToken_of_notMem (h : c ∉ marks) : nextToken rt c rest =
    if startsNumber c rest then
      (parseF64 (encode (c :: rest.takeWhile isNumberChar))).map fun n => (some (.number n), rest.dropWhile isNumberChar)
    else if rt.isIdentChar c then some (some (.ident (c :: rest.takeWhile rt.isIdentChar)), rest.dropWhile rt.isIdentChar)
    else some (none, rest) := by
  have htwo := twoCharOp_of_notMem h rest
  have hone : oneCharOp c = none := by
    refine oneCharOp_of_notMem fun hc => h ?_
    simp only [marks, mem_cons, not_mem_nil, or_false] at hc ⊢
    tauto
  simp only [marks, mem_cons, not_mem_nil, or_false, not_or] at h
  rw [nextToken, if_neg h.1, if_neg h.2.1, if_neg h.2.2.1, htwo, hone]

theorem notMem_marks_of_isIdentChar (h : rt.isIdentChar c = true) : c ∉ marks := by
  intro hmem
  have hall : ∀ d ∈ marks, IsAscii d ∧ (d.isAlpha || d.isDigit || d = '_') = false := by decide
  obtain ⟨hascii, hd⟩ := hall c hmem
  exact ne_of_isIdentChar h hascii hd rfl

theorem startsNumber_cases (h : startsNumber c cs = true) : c.isDigit = true ∨ c = '-' := by
  rw [startsNumber, Bool.or_eq_true, Bool.and_eq_true, decide_eq_true_eq] at h
  exact h.imp_right And.left

theorem notMem_marks_of_startsNumber (h : startsNumber c cs = true) : c ∉ marks := by
  rcases startsNumber_cases h with hdigit | rfl
  · intro hmem
    have hall : ∀ d ∈ marks, d.isDigit = false := by decide
    rw [hall c hmem] at hdigit
    cases hdigit
  · decide

theorem startsNumber_append (h : startsNumber c cs = true) (rest : Text) : startsNumber c (cs ++ rest) = true := by
  cases cs with
  | nil =>
    have hdigit : c.isDigit = true := by simpa [startsNumber] using h
    simp [startsNumber, hdigit]
  | cons d cs => exact h

theorem startsNumber_takeWhile (h : startsNumber c rest = true) : startsNumber c (rest.takeWhile isNumberChar) = true := by
  cases rest with
  | nil => exact h
  | cons d rest =>
    by_cases hd : d.isDigit = true
    · have hnumber : isNumberChar d = true := by simp [isNumberChar, hd]
      rw [takeWhile_cons_of_pos hnumber]
      exact h
    · have hdigit : c.isDigit = true := by simpa [startsNumber, hd] using h
      simp [startsNumber, hdigit]

/-! ## One token -/

theorem nextToken_of_none (h : BeginsNone rt c rest) : nextToken rt c rest = some (none, rest) := by
  obtain ⟨hmarks, htwo, hnumber, hident⟩ := h
  have hone : oneCharOp c = none := by
    refine oneCharOp_of_notMem fun hc => hmarks ?_
    tauto
  simp only [mem_cons, not_mem_nil, or_false, not_or] at hmarks
  rw [nextToken, if_neg hmarks.1, if_neg hmarks.2.1, if_neg hmarks.2.2.1, htwo, hone]
  simp only [hnumber, hident, Bool.false_eq_true, if_false]

theorem beginsNone_of_space (h : isWhitespace c = true) (rest : Text) : BeginsNone rt c rest := by
  have hident : rt.isIdentChar c = false := isIdentChar_of_space h
  have hnotMem : c ∉ marks := by
    intro hmem
    have hall : ∀ d ∈ marks, isWhitespace d = false := by decide
    rw [hall c hmem] at h
    cases h
  refine ⟨fun hmem => hnotMem ?_, twoCharOp_of_notMem hnotMem rest, ?_, hident⟩
  · simp only [marks, mem_cons, not_mem_nil, or_false] at hmem ⊢
    tauto
  · rw [Bool.eq_false_iff]
    intro hnumber
    rcases startsNumber_cases hnumber with hdigit | rfl
    · rw [isIdentChar_of_digit hdigit] at hident
      cases hident
    · revert h
      decide

variable {s : Text}

theorem nextToken_unclosed (hs : '\'' ∉ s) : nextToken rt '\'' s = some (some (.stringLit s), []) := by
  have hall : ∀ c ∈ s, decide (c ≠ '\'') = true := by
    intro c hc
    rw [decide_eq_true_eq]
    rintro rfl
    exact hs hc
  obtain ⟨htake, hdrop⟩ := @takeWhile_run s _ [] hall nofun
  rw [append_nil] at htake hdrop
  rw [nextToken, if_neg (by decide), if_neg (by decide), if_pos rfl, htake, hdrop]
  rfl

theorem nextToken_closed (hs : '\'' ∉ s) (rest : Text) : nextToken rt '\'' (s ++ '\'' :: rest) = some (some (.stringLit s), rest) := by
  have hall : ∀ c ∈ s, decide (c ≠ '\'') = true := by
    intro c hc
    rw [decide_eq_true_eq]
    rintro rfl
    exact hs hc
  obtain ⟨htake, hdrop⟩ := @takeWhile_run s _ ('\'' :: rest) hall (by simp)
  rw [nextToken, if_neg (by decide), if_neg (by decide), if_pos rfl, htake, hdrop]
  rfl

theorem op_complete {op : Op} (hop : op ∈ operators) (h : Breaks rt (.op op) rest) :
    ∃ c cs, op.symbol = c :: cs ∧ isAsciiWhitespace c = false ∧ nextToken rt c (cs ++ rest) = some (some (.op op), rest) := by
  cases op with
  | lt =>
    refine ⟨'<', [], rfl, rfl, ?_⟩
    rw [nil_append, nextToken, if_neg (by decide), if_neg (by decide), if_neg (by decide), twoCharOp_lone h (by decide)]
    rfl
  | gt =>
    refine ⟨'>', [], rfl, rfl, ?_⟩
    rw [nil_append, nextToken, if_neg (by decide), if_neg (by decide), if_neg (by decide), twoCharOp_lone h (by decide)]
    rfl
  | not =>
    refine ⟨'!', [], rfl, rfl, ?_⟩
    rw [nil_append, nextToken, if_neg (by decide), if_neg (by decide), if_neg (by decide), twoCharOp_lone h (by decide)]
    rfl
  | add | sub | mul | div | rem => simp [operators, comparisons] at hop
  | _ => exact ⟨_, _, rfl, rfl, rfl⟩

/-- A token is read where it begins. -/
theorem nextToken_complete (hlexeme : Lexeme rt cs t) (hbreaks : Breaks rt t rest) :
    ∃ c cs', cs = c :: cs' ∧ isAsciiWhitespace c = false ∧ nextToken rt c (cs' ++ rest) = some (some t, rest) := by
  cases hlexeme with
  | lParen => exact ⟨'(', [], rfl, rfl, rfl⟩
  | rParen => exact ⟨')', [], rfl, rfl, rfl⟩
  | @stringLit s hs =>
    refine ⟨'\'', s ++ ['\''], rfl, rfl, ?_⟩
    rw [append_assoc]
    exact nextToken_closed hs rest
  | op hop => exact op_complete hop hbreaks
  | @number c cs n hstart hchars hvalue =>
    obtain ⟨htake, hdrop⟩ := takeWhile_run hchars hbreaks
    refine ⟨c, cs, rfl, ?_, ?_⟩
    · rcases startsNumber_cases hstart with hdigit | rfl
      · exact (digit_ascii hdigit).2.2
      · rfl
    · rw [nextToken_of_notMem (notMem_marks_of_startsNumber hstart), if_pos (startsNumber_append hstart rest), htake, hdrop, hvalue]
      rfl
  | @ident c cs hdigit hchars =>
    have hc : rt.isIdentChar c = true := hchars c (mem_cons_self ..)
    obtain ⟨htake, hdrop⟩ := takeWhile_run (fun d hd => hchars d (mem_cons_of_mem _ hd)) hbreaks
    refine ⟨c, cs, rfl, ?_, ?_⟩
    · rw [Bool.eq_false_iff]
      intro hspace
      rw [isIdentChar_of_space (isWhitespace_of_ascii hspace)] at hc
      cases hc
    · have hnumber : startsNumber c (cs ++ rest) = false := by
        rw [Bool.eq_false_iff]
        intro hstart
        rcases startsNumber_cases hstart with h | h
        · rw [h] at hdigit
          cases hdigit
        · exact ne_of_isIdentChar hc (by decide) (by decide) h
      rw [nextToken_of_notMem (notMem_marks_of_isIdentChar hc), hnumber, if_neg Bool.false_ne_true, if_pos hc, htake, hdrop]

/-- What is read is a token, a literal that is open at the end, or no token. -/
theorem nextToken_sound {token : Option ExprToken} (h : nextToken rt c rest = some (token, rest')) :
    (token = none ∧ rest' = rest ∧ BeginsNone rt c rest) ∨
      (∃ t cs, token = some t ∧ c :: rest = cs ++ rest' ∧ Lexeme rt cs t ∧ Breaks rt t rest') ∨
      (c = '\'' ∧ '\'' ∉ rest ∧ token = some (.stringLit rest) ∧ rest' = []) := by
  by_cases hquote : c = '\''
  · subst hquote
    by_cases hs : '\'' ∈ rest
    · obtain ⟨s, after, rfl, hnot⟩ := eq_append_cons_of_mem hs
      rw [nextToken_closed hnot] at h
      cases h
      exact .inr (.inl ⟨_, '\'' :: (s ++ ['\'']), rfl, by simp, .stringLit hnot, trivial⟩)
    · rw [nextToken_unclosed hs] at h
      cases h
      exact .inr (.inr ⟨rfl, hs, rfl, rfl⟩)
  · by_cases hleft : c = '('
    · rw [nextToken, if_pos hleft] at h
      cases h
      exact .inr (.inl ⟨_, ['('], rfl, by rw [hleft]; rfl, .lParen, trivial⟩)
    by_cases hright : c = ')'
    · rw [nextToken, if_neg hleft, if_pos hright] at h
      cases h
      exact .inr (.inl ⟨_, [')'], rfl, by rw [hright]; rfl, .rParen, trivial⟩)
    rw [nextToken, if_neg hleft, if_neg hright, if_neg hquote] at h
    cases htwo : rest.head?.bind (twoCharOp c) with
    | some op =>
      simp only [htwo] at h
      cases h
      obtain ⟨d, hd, hop⟩ := Option.bind_eq_some_iff.1 htwo
      obtain ⟨hsymbol, hmem⟩ := twoCharOp_symbol hop
      refine .inr (.inl ⟨_, op.symbol, rfl, ?_, .op ?_, ?_⟩)
      · rw [hsymbol, cons_append, singleton_append, cons_head?_tail hd]
      · cases op <;> simp at hmem <;> decide
      · cases op <;> simp at hmem <;> trivial
    | none =>
      simp only [htwo] at h
      cases hone : oneCharOp c with
      | some op =>
        simp only [hone] at h
        cases h
        obtain ⟨hsymbol, hmem, hequals⟩ := oneCharOp_symbol hone
        have hrest : rest.head? ≠ some '=' := by
          intro heq
          rw [heq, Option.bind_some] at htwo
          rw [htwo] at hequals
          cases hequals
        refine .inr (.inl ⟨_, op.symbol, rfl, by rw [hsymbol]; rfl, .op ?_, ?_⟩)
        · cases op <;> simp at hmem <;> decide
        · cases op <;> simp at hmem <;> exact hrest
      | none =>
        simp only [hone] at h
        split_ifs at h with hnumber hident
        · obtain ⟨n, hn, heq⟩ := Option.map_eq_some_iff.1 h
          cases heq
          refine .inr (.inl ⟨_, c :: rest.takeWhile isNumberChar, rfl, ?_, ?_, dropWhile_head _⟩)
          · rw [cons_append, takeWhile_append_dropWhile]
          · exact .number (startsNumber_takeWhile hnumber) (fun d hd => mem_takeWhile_imp hd) hn
        · cases h
          refine .inr (.inl ⟨_, c :: rest.takeWhile rt.isIdentChar, rfl, ?_, ?_, dropWhile_head _⟩)
          · rw [cons_append, takeWhile_append_dropWhile]
          · have hdigit : c.isDigit = false := by
              rw [Bool.eq_false_iff]
              intro hc
              exact hnumber (by rw [startsNumber, hc, Bool.true_or])
            refine .ident hdigit fun d hd => ?_
            rcases mem_cons.1 hd with rfl | hd
            · exact hident
            · exact mem_takeWhile_imp hd
        · cases h
          refine .inl ⟨rfl, rfl, ?_, htwo, Bool.eq_false_iff.2 hnumber, Bool.eq_false_iff.2 hident⟩
          intro hmem
          simp only [mem_cons, not_mem_nil, or_false] at hmem
          rcases hmem with rfl | rfl | rfl | rfl | rfl | rfl
          · exact hleft rfl
          · exact hright rfl
          · exact hquote rfl
          · cases hone
          · cases hone
          · cases hone

/-! ## The tokens of a text -/

theorem mends_of_tokenizeLoop {n : ℕ} (h : tokenizeLoop rt n cs = some ts) : ∃ ms, Mends rt cs ms ts := by
  induction n generalizing cs ts with
  | zero =>
    cases cs with
    | nil =>
      cases h
      exact ⟨[], .nil⟩
    | cons c cs => cases h
  | succ n ih =>
    cases cs with
    | nil =>
      cases h
      exact ⟨[], .nil⟩
    | cons c cs =>
      rw [tokenizeLoop] at h
      split_ifs at h with hspace
      · obtain ⟨ms, hms⟩ := ih h
        exact ⟨c :: ms, .space (isWhitespace_of_ascii hspace) hms⟩
      · obtain ⟨⟨token, rest⟩, hnext, h⟩ := Option.bind_eq_some_iff.1 h
        obtain ⟨ts', hloop, h⟩ := Option.bind_eq_some_iff.1 h
        cases h
        obtain ⟨ms, hms⟩ := ih hloop
        rcases nextToken_sound hnext with ⟨rfl, rfl, hnone⟩ | ⟨t, lexeme, rfl, hcs, hlexeme, hbreaks⟩ | ⟨rfl, hs, rfl, rfl⟩
        · cases hwhite : isWhitespace c with
          | true => exact ⟨c :: ms, .space hwhite hms⟩
          | false => exact ⟨' ' :: ms, .stray hwhite hnone hms⟩
        · rw [hcs]
          exact ⟨lexeme ++ ms, .token hlexeme hbreaks hms⟩
        · cases n <;> cases hloop <;> exact ⟨_, .unclosed hs⟩

theorem tokenizeLoop_skip (h : BeginsNone rt c cs) (n : ℕ) : tokenizeLoop rt (n + 1) (c :: cs) = tokenizeLoop rt n cs := by
  rw [tokenizeLoop, nextToken_of_none h]
  split_ifs
  · rfl
  · simp [Option.bind_eq_bind]

variable {ms : Text}

theorem tokenizeLoop_of_mends (h : Mends rt cs ms ts) (n : ℕ) (hn : cs.length ≤ n) : tokenizeLoop rt n cs = some ts := by
  induction h generalizing n with
  | nil => cases n <;> rfl
  | @space c cs ms ts hspace h ih =>
    rw [length_cons] at hn
    obtain ⟨n, rfl⟩ : ∃ m, n = m + 1 := ⟨n - 1, by omega⟩
    rw [tokenizeLoop_skip (beginsNone_of_space hspace cs)]
    exact ih n (by omega)
  | @token cs rest ms t ts hlexeme hbreaks h ih =>
    obtain ⟨c, cs', rfl, hspace, hnext⟩ := nextToken_complete hlexeme hbreaks
    rw [length_append, length_cons] at hn
    obtain ⟨n, rfl⟩ : ∃ m, n = m + 1 := ⟨n - 1, by omega⟩
    rw [cons_append, tokenizeLoop, if_neg (by rw [hspace]; decide), hnext, Option.bind_eq_bind, Option.bind_some]
    dsimp only
    rw [ih n (by omega)]
    rfl
  | @stray c cs ms ts hspace hnone h ih =>
    rw [length_cons] at hn
    obtain ⟨n, rfl⟩ : ∃ m, n = m + 1 := ⟨n - 1, by omega⟩
    rw [tokenizeLoop_skip hnone]
    exact ih n (by omega)
  | @unclosed s hs =>
    rw [length_cons] at hn
    obtain ⟨n, rfl⟩ : ∃ m, n = m + 1 := ⟨n - 1, by omega⟩
    rw [tokenizeLoop, if_neg (by decide), nextToken_unclosed hs]
    cases n <;> rfl

/-- The tokenizer reads the words of the mended text. -/
theorem tokenizeExpr_eq_some : tokenizeExpr rt cs = some ts ↔ ∃ ms, Mends rt cs ms ts :=
  ⟨mends_of_tokenizeLoop, fun ⟨_, h⟩ => tokenizeLoop_of_mends h _ le_rfl⟩

/-! ## Mended texts -/

theorem Breaks.of_head (h : Breaks rt t rest)
    (hhead : rest'.head? = rest.head? ∨ rest'.head? = some ' ' ∨ rest'.head? = some ')') : Breaks rt t rest' := by
  have hname : ∀ d, d = ' ' ∨ d = ')' → isNumberChar d = false ∧ rt.isIdentChar d = false ∧ d ≠ '=' := by
    rintro d (rfl | rfl)
    · exact ⟨rfl, isIdentChar_of_space (by decide), by decide⟩
    · refine ⟨rfl, Bool.eq_false_iff.2 fun hident => ?_, by decide⟩
      exact ne_of_isIdentChar hident (by decide) (by decide) rfl
  obtain heq | ⟨d, hd, heq⟩ : rest'.head? = rest.head? ∨ ∃ d, (d = ' ' ∨ d = ')') ∧ rest'.head? = some d := by
    rcases hhead with h | h | h
    · exact .inl h
    · exact .inr ⟨_, .inl rfl, h⟩
    · exact .inr ⟨_, .inr rfl, h⟩
  · unfold Breaks at h ⊢
    rwa [heq]
  · obtain ⟨hnumber, hident, hne⟩ := hname d hd
    unfold Breaks
    rw [heq]
    split
    · rintro _ ⟨⟩
      exact hnumber
    · rintro _ ⟨⟩
      exact hident
    · exact fun h => hne (Option.some.inj h)
    · exact fun h => hne (Option.some.inj h)
    · exact fun h => hne (Option.some.inj h)
    · trivial

theorem Mends.head (h : Mends rt cs ms ts) : ms.head? = cs.head? ∨ ms.head? = some ' ' := by
  cases h with
  | nil => exact .inl rfl
  | space hspace h => exact .inl rfl
  | token hlexeme hbreaks h =>
    obtain ⟨c, cs', rfl, -⟩ := nextToken_complete hlexeme hbreaks
    exact .inl rfl
  | stray hspace hnone h => exact .inr rfl
  | unclosed hs => exact .inl rfl

theorem Mends.lexes (h : Mends rt cs ms ts) : Lexes rt ms ts := by
  induction h with
  | nil => exact .nil
  | space hspace h ih => exact .space hspace ih
  | token hlexeme hbreaks h ih => exact .token hlexeme (hbreaks.of_head (h.head.imp_right .inl)) ih
  | stray hspace hnone h ih => exact .space (by decide) ih
  | @unclosed s hs =>
    have hone := @Lexes.token rt _ [] _ _ (.stringLit hs) trivial .nil
    rwa [append_nil] at hone

theorem Lexes.mends (h : Lexes rt cs ts) : Mends rt cs cs ts := by
  induction h with
  | nil => exact .nil
  | space hspace h ih => exact .space hspace ih
  | token hlexeme hbreaks h ih => exact .token hlexeme hbreaks ih

theorem Lexes.tokenizeExpr (h : Lexes rt cs ts) : tokenizeExpr rt cs = some ts := tokenizeExpr_eq_some.2 ⟨cs, h.mends⟩

variable {ts' : List ExprToken}

theorem Lexes.unique (h : Lexes rt cs ts) (h' : Lexes rt cs ts') : ts = ts' := by
  have heq := h.tokenizeExpr
  rw [h'.tokenizeExpr] at heq
  exact (Option.some.inj heq).symm

/-- Parentheses may be closed behind any words. -/
theorem Lexes.close (h : Lexes rt cs ts) (k : ℕ) : Lexes rt (cs ++ List.replicate k ')') (ts ++ List.replicate k ExprToken.rParen) := by
  induction h with
  | nil =>
    rw [List.nil_append, List.nil_append]
    induction k with
    | zero => exact .nil
    | succ k ih => exact .token .rParen trivial ih
  | space hspace h ih => exact .space hspace ih
  | @token cs rest t ts hlexeme hbreaks h ih =>
    rw [List.append_assoc]
    refine .token hlexeme (hbreaks.of_head ?_) ih
    cases rest with
    | cons c rest => exact .inl rfl
    | nil =>
      cases k with
      | zero => exact .inl rfl
      | succ k => exact .inr (.inr rfl)

/-! ## A text is mended one way -/

theorem Mends.of_none (h : Mends rt (c :: cs) ms ts) (hnone : BeginsNone rt c cs) :
    ∃ ms', Mends rt cs ms' ts ∧ ms = (if isWhitespace c then c else ' ') :: ms' := by
  generalize htext : c :: cs = text at h
  cases h with
  | nil => cases htext
  | space hspace h =>
    cases htext
    exact ⟨_, h, by rw [if_pos hspace]⟩
  | token hlexeme hbreaks h =>
    obtain ⟨d, cs', rfl, -, hnext⟩ := nextToken_complete hlexeme hbreaks
    rw [cons_append] at htext
    cases htext
    rw [nextToken_of_none hnone] at hnext
    cases hnext
  | stray hspace hnone' h =>
    cases htext
    exact ⟨_, h, by rw [hspace]; rfl⟩
  | unclosed hs =>
    cases htext
    exact absurd (by decide) hnone.1

/-- No token is a literal without its last quote. -/
theorem not_token_of_unclosed (hs : '\'' ∉ s) (hlexeme : Lexeme rt cs t) (hbreaks : Breaks rt t rest) (htext : cs ++ rest = '\'' :: s) : False := by
  obtain ⟨c, cs', rfl, -, hnext⟩ := nextToken_complete hlexeme hbreaks
  rw [cons_append] at htext
  obtain ⟨rfl, rfl⟩ := List.cons.inj htext
  rw [nextToken_unclosed hs] at hnext
  cases hnext
  generalize htext : '\'' :: cs' = lexeme at hlexeme
  generalize ht : ExprToken.stringLit cs' = t at hlexeme
  cases hlexeme <;> cases ht
  have hlength := congrArg List.length htext
  simp at hlength

theorem Mends.of_token (h : Mends rt (cs ++ rest) ms ts) (hlexeme : Lexeme rt cs t) (hbreaks : Breaks rt t rest) :
    ∃ ms' ts', Mends rt rest ms' ts' ∧ ms = cs ++ ms' := by
  obtain ⟨c, cs', rfl, -, hnext⟩ := nextToken_complete hlexeme hbreaks
  rw [cons_append] at h
  generalize htext : c :: (cs' ++ rest) = text at h
  cases h with
  | nil => cases htext
  | space hspace h =>
    cases htext
    rw [nextToken_of_none (beginsNone_of_space hspace _)] at hnext
    cases hnext
  | token hlexeme' hbreaks' h =>
    obtain ⟨d, ds, rfl, -, hnext'⟩ := nextToken_complete hlexeme' hbreaks'
    rw [cons_append] at htext
    obtain ⟨rfl, htail⟩ := List.cons.inj htext
    rw [htail, hnext'] at hnext
    cases hnext
    obtain rfl := append_cancel_right htail
    exact ⟨_, _, h, rfl⟩
  | stray hspace hnone h =>
    cases htext
    rw [nextToken_of_none hnone] at hnext
    cases hnext
  | unclosed hs => exact (not_token_of_unclosed hs hlexeme hbreaks htext).elim

theorem Mends.of_unclosed (h : Mends rt ('\'' :: s) ms ts) (hs : '\'' ∉ s) : ms = '\'' :: (s ++ ['\'']) := by
  generalize htext : '\'' :: s = text at h
  cases h with
  | nil => cases htext
  | space hspace h =>
    cases htext
    exact absurd hspace (by decide)
  | token hlexeme hbreaks h => exact (not_token_of_unclosed hs hlexeme hbreaks htext.symm).elim
  | stray hspace hnone h =>
    cases htext
    exact absurd (by decide) hnone.1
  | unclosed hs' =>
    cases htext
    rfl

theorem Mends.unique {ms' : Text} (h : Mends rt cs ms ts) (h' : Mends rt cs ms' ts') : ms = ms' := by
  induction h generalizing ms' ts' with
  | nil =>
    generalize htext : ([] : Text) = text at h'
    cases h' with
    | nil => rfl
    | token hlexeme hbreaks h =>
      obtain ⟨c, cs', rfl, -⟩ := nextToken_complete hlexeme hbreaks
      cases htext
    | _ => cases htext
  | @space c cs ms ts hspace h ih =>
    obtain ⟨ms'', hms, rfl⟩ := h'.of_none (beginsNone_of_space hspace cs)
    rw [if_pos hspace, ih hms]
  | token hlexeme hbreaks h ih =>
    obtain ⟨ms'', ts'', hms, rfl⟩ := h'.of_token hlexeme hbreaks
    rw [ih hms]
  | stray hspace hnone h ih =>
    obtain ⟨ms'', hms, rfl⟩ := h'.of_none hnone
    rw [if_neg (by rw [hspace]; decide), ih hms]
  | unclosed hs => exact (h'.of_unclosed hs).symm

/-- Words need no mending. -/
theorem Lexes.mends_self (h : Lexes rt cs ts) (h' : Mends rt cs ms ts') : ms = cs := h'.unique h.mends

end FerroDruid.Query.FilterExpression
