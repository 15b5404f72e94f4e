import FerroDruid.Query.Expression
/-!
# The words of an expression

The tokens of a text, each as long as it can be, with white space between any of them.
-/

namespace FerroDruid.Query.Expression

open Lib List

/-- The inside of a string literal, and the string. -/
inductive Quoted (quote : Char) : Text → Text → Prop where
  | nil : Quoted quote [] []
  | escape {body s : Text} (c : Char) (h : Quoted quote body s) : Quoted quote ('\\' :: c :: body) (c :: s)
  | char {body s : Text} {c : Char} (hquote : c ≠ quote) (hescape : c ≠ '\\') (h : Quoted quote body s) : Quoted quote (c :: body) (c :: s)

/-- The text of a token. -/
inductive Lexeme (rt : Runtime) : Text → Token → Prop where
  | lparen : Lexeme rt ['('] .lparen
  | rparen : Lexeme rt [')'] .rparen
  | comma : Lexeme rt [','] .comma
  | str {quote : Char} {body s : Text} (hquote : quote = '\'' ∨ quote = '"') (hbody : Quoted quote body s) :
    Lexeme rt (quote :: (body ++ [quote])) (.str s)
  | op (op : Op) : Lexeme rt op.symbol (.op op)
  | num {c : Char} {cs : Text} {n : F64} (hstart : startsNumber c cs = true) (hchars : ∀ d ∈ c :: cs, isNumberChar d = true)
    (hvalue : parseF64 (encode (c :: cs)) = some n) : Lexeme rt (c :: cs) (.num n)
  | ident {c : Char} {cs : Text} (hstart : rt.isIdentStart c = true) (hchars : ∀ d ∈ cs, rt.isIdentChar d = true) :
    Lexeme rt (c :: cs) (.ident (c :: cs))

/-- Nothing follows that would make a token longer. -/
def Breaks (rt : Runtime) (token : Token) (rest : Text) : Prop :=
  match token with
  | .num _ => ∀ c ∈ rest.head?, isNumberChar c = false
  | .ident _ => ∀ c ∈ rest.head?, rt.isIdentChar c = false
  | .op .lt | .op .gt | .op .not => rest.head? ≠ some '='
  | _ => True

/-- The tokens of a text. -/
inductive Lexes (rt : Runtime) : Text → List Token → Prop where
  | nil : Lexes rt [] []
  | space {c : Char} {cs : Text} {ts : List Token} (hspace : isAsciiWhitespace c = true) (h : Lexes rt cs ts) : Lexes rt (c :: cs) ts
  | token {cs rest : Text} {t : Token} {ts : List Token} (hlexeme : Lexeme rt cs t) (hbreaks : Breaks rt t rest) (h : Lexes rt rest ts) :
    Lexes rt (cs ++ rest) (t :: ts)

variable {rt : Runtime}

/-! ## Strings -/

variable {quote : Char}

theorem scanString_char {c : Char} (hc : c ≠ '\\') (s rest : Text) :
    scanString quote s (c :: rest) = if c = quote then some (s, rest) else scanString quote (s ++ [c]) rest := by
  rw [scanString]
  rintro d rest' h
  exact absurd h hc

variable {cs : Text}

theorem scanString_sound {s s' rest : Text} (h : scanString quote s cs = some (s', rest)) :
    ∃ body t, cs = body ++ quote :: rest ∧ s' = s ++ t ∧ Quoted quote body t := by
  fun_induction scanString quote s cs with
  | case1 => cases h
  | case2 s c cs ih =>
    obtain ⟨body, t, rfl, rfl, hbody⟩ := ih h
    exact ⟨_, _, rfl, by simp, .escape c hbody⟩
  | case3 s cs hlone =>
    cases h
    exact ⟨[], [], rfl, by simp, .nil⟩
  | case4 s c cs hlone hne ih =>
    by_cases hc : c = '\\'
    · -- a backslash at the end closes nothing
      cases cs with
      | nil => cases h
      | cons d cs => exact absurd rfl (hlone d cs hc)
    · obtain ⟨body, t, rfl, rfl, hbody⟩ := ih h
      exact ⟨_, _, rfl, by simp, .char hne hc hbody⟩

theorem scanString_complete (hquote : quote ≠ '\\') {body t : Text} (h : Quoted quote body t) (s rest : Text) :
    scanString quote s (body ++ quote :: rest) = some (s ++ t, rest) := by
  induction h generalizing s with
  | nil => rw [nil_append, scanString_char hquote, if_pos rfl, append_nil]
  | escape c h ih => rw [cons_append, cons_append, scanString, ih, append_assoc, singleton_append]
  | char hne hescape h ih => rw [cons_append, scanString_char hescape, if_neg hne, ih, append_assoc, singleton_append]

/-! ## Characters -/

theorem isAlpha_of_identStart {c : Char} (hascii : IsAscii c) (h : rt.isIdentStart c = true) : c.isAlpha = true ∨ c = '_' := by
  rw [Runtime.isIdentStart, Bool.or_eq_true, rt.alphabetic_ascii c hascii] at h
  simpa using h

variable {d : Char}

/-- What begins a name is no other ASCII character. -/
theorem ne_of_identStart {c : Char} (h : rt.isIdentStart c = true) (hascii : IsAscii d) (hd : d.isAlpha = false) (hunderscore : d ≠ '_') : c ≠ d := by
  rintro rfl
  rcases isAlpha_of_identStart hascii h with halpha | heq
  · rw [hd] at halpha
    cases halpha
  · exact hunderscore heq

theorem isIdentChar_of_start {c : Char} (h : rt.isIdentStart c = true) : rt.isIdentChar c = true := by
  rw [Runtime.isIdentStart, Bool.or_eq_true] at h
  rw [Runtime.isIdentChar, Runtime.isAlphanumeric, Bool.or_eq_true, Bool.or_eq_true]
  exact h.imp_left .inl

/-- What begins a number is a number's character, and neither begins a name nor stands alone. -/
theorem startsNumber_cases {c : Char} (h : startsNumber c cs = true) : c.isDigit = true ∨ c = '.' := by
  rw [startsNumber, Bool.or_eq_true, Bool.and_eq_true, decide_eq_true_eq] at h
  exact h.imp_right And.left

/-- The characters that operators begin with. -/
def operatorMarks : List Char := ['+', '-', '*', '/', '%', '=', '!', '<', '>', '&', '|']

/-- The characters that are a token, or begin one that is neither a number nor a name. -/
def marks : List Char := ['(', ')', ',', '\'', '"'] ++ operatorMarks

theorem notMem_marks_of_identStart {c : Char} (h : rt.isIdentStart c = true) : c ∉ marks := by
  intro hmem
  have hall : ∀ d ∈ marks, IsAscii d ∧ d.isAlpha = false ∧ d ≠ '_' := by decide
  obtain ⟨hascii, halpha, hunderscore⟩ := hall c hmem
  exact ne_of_identStart h hascii halpha hunderscore rfl

theorem digit_ascii {c : Char} (h : c.isDigit = true) : IsAscii c ∧ c.isAlpha = false ∧ isAsciiWhitespace c = false := by
  have hrange : 48 ≤ c.toNat ∧ c.toNat ≤ 57 := by
    simp only [Char.isDigit, Bool.and_eq_true, decide_eq_true_eq] at h
    exact h
  refine ⟨by omega, ?_, ?_⟩
  · rw [Bool.eq_false_iff]
    unfold Char.isAlpha Char.isUpper Char.isLower
    simp only [ne_eq, Bool.or_eq_true, Bool.and_eq_true, decide_eq_true_eq]
    rintro (⟨hle, -⟩ | ⟨hle, -⟩)
    · have hnat : 65 ≤ c.toNat := hle
      omega
    · have hnat : 97 ≤ c.toNat := hle
      omega
  · rw [isAsciiWhitespace, decide_eq_false_iff_not]
    rintro (rfl | rfl | rfl | rfl | rfl) <;> simp at hrange

theorem space_ascii {c : Char} (h : isAsciiWhitespace c = true) : IsAscii c ∧ c.isAlpha = false ∧ c ≠ '_' := by
  rw [isAsciiWhitespace, decide_eq_true_eq] at h
  rcases h with rfl | rfl | rfl | rfl | rfl <;> decide

/-- A number and a name begin differently. -/
theorem startsNumber_of_identStart {c : Char} (h : rt.isIdentStart c = true) (cs : Text) : startsNumber c cs = false := by
  rw [Bool.eq_false_iff]
  intro hnumber
  rcases startsNumber_cases hnumber with hdigit | hdot
  · obtain ⟨hascii, halpha, -⟩ := digit_ascii hdigit
    exact ne_of_identStart h hascii halpha (by rintro rfl; cases hdigit) rfl
  · exact ne_of_identStart h (by decide) (by decide) (by decide) hdot

theorem notMem_marks_of_startsNumber {c : Char} (h : startsNumber c cs = true) : c ∉ marks := by
  intro hmem
  have hall : ∀ d ∈ marks, d.isDigit = false ∧ d ≠ '.' := by decide
  obtain ⟨hdigit, hdot⟩ := hall c hmem
  rcases startsNumber_cases h with hc | hc
  · rw [hdigit] at hc
    cases hc
  · exact hdot hc

/-! ## Operators -/

variable {op : Op}

theorem arithmeticOp_symbol {c : Char} (h : arithmeticOp c = some op) : op.symbol = [c] ∧ op ∈ [Op.add, .sub, .mul, .div, .rem] := by
  unfold arithmeticOp at h
  split at h <;> cases h <;> decide

theorem twoCharOp_symbol {c : Char} (h : twoCharOp c d = some op) : op.symbol = [c, d] ∧ op ∈ [Op.eq, .ne, .ge, .le, .and, .or] := by
  unfold twoCharOp at h
  split at h <;> cases h <;> decide

theorem oneCharOp_symbol {c : Char} (h : oneCharOp c = some op) : op.symbol = [c] ∧ op ∈ [Op.lt, .gt, .not] ∧ (twoCharOp c '=').isSome = true := by
  unfold oneCharOp at h
  split at h <;> cases h <;> decide

theorem breaks_arithmetic (h : op ∈ [Op.add, .sub, .mul, .div, .rem]) (rest : Text) : Breaks rt (.op op) rest := by
  cases op <;> simp at h <;> trivial

theorem breaks_twoChar (h : op ∈ [Op.eq, .ne, .ge, .le, .and, .or]) (rest : Text) : Breaks rt (.op op) rest := by
  cases op <;> simp at h <;> trivial

theorem breaks_oneChar (h : op ∈ [Op.lt, .gt, .not]) {rest : Text} (hrest : rest.head? ≠ some '=') : Breaks rt (.op op) rest := by
  cases op <;> simp at h <;> exact hrest

/-! ## Runs of characters -/

theorem takeWhile_run {p : Char → Bool} {rest : Text} (hall : ∀ c ∈ cs, p c = true) (hrest : ∀ c ∈ rest.head?, p c = false) :
    (cs ++ rest).takeWhile p = cs ∧ (cs ++ rest).dropWhile p = rest := by
  rw [takeWhile_append_of_pos hall, dropWhile_append_of_pos hall]
  cases rest with
  | nil => simp
  | cons c rest => simp [hrest c rfl]

theorem dropWhile_head {p : Char → Bool} (cs : Text) : ∀ c ∈ (cs.dropWhile p).head?, p c = false := by
  intro c hc
  have hnot := head?_dropWhile_not p cs
  rw [Option.mem_def.1 hc] at hnot
  exact hnot

theorem startsNumber_append {c : Char} (h : startsNumber c cs = true) (rest : Text) : startsNumber c (cs ++ rest) = true := by
  cases cs with
  | nil =>
    have hdigit : c.isDigit = true := by simpa [startsNumber] using h
    simp [startsNumber, hdigit]
  | cons d cs => exact h

theorem startsNumber_takeWhile {c : Char} {rest : Text} (h : startsNumber c rest = true) : startsNumber c (rest.takeWhile isNumberChar) = true := by
  cases rest with
  | nil => exact h
  | cons d rest =>
    by_cases hd : d.isDigit = true
    · have hnumber : isNumberChar d = true := by simp [isNumberChar, hd]
      rw [takeWhile_cons_of_pos hnumber]
      exact h
    · have hdigit : c.isDigit = true := by simpa [startsNumber, hd] using h
      simp [startsNumber, hdigit]

theorem isNumberChar_of_start {c : Char} (h : startsNumber c cs = true) : isNumberChar c = true := by
  rcases startsNumber_cases h with hc | hc <;> simp [isNumberChar, hc]

/-! ## One token -/

variable {input : Text} {c : Char} {rest rest' : Text} {t : Token}

/-- What is left for characters that are no marks. -/
theorem nextToken_of_notMem (h : c ∉ marks) : nextToken rt input c rest =
    if startsNumber c rest then
      match parseF64 (encode ((c :: rest).takeWhile isNumberChar)) with
      | some n => .ok (.num n, (c :: rest).dropWhile isNumberChar)
      | none => .error ⟨"bad numeric literal '".toList ++ (c :: rest).takeWhile isNumberChar ++ "'".toList⟩
    else if rt.isIdentStart c then .ok (.ident ((c :: rest).takeWhile rt.isIdentChar), (c :: rest).dropWhile rt.isIdentChar)
    else .error ⟨"unexpected character '".toList ++ c :: "' in: ".toList ++ input⟩ := by
  have harith : arithmeticOp c = none := by
    unfold arithmeticOp
    split <;> first | rfl | simp [marks, operatorMarks] at h
  have hop : isOpChar c = false := by
    simp only [isOpChar, decide_eq_false_iff_not]
    simp only [marks, operatorMarks, cons_append, nil_append, mem_cons, not_mem_nil, or_false] at h ⊢
    grind
  simp only [marks, operatorMarks, cons_append, nil_append, mem_cons, not_mem_nil, or_false, not_or] at h
  rw [nextToken, if_neg h.1, if_neg h.2.1, if_neg h.2.2.1, if_neg (not_or.2 ⟨h.2.2.2.1, h.2.2.2.2.1⟩), harith]
  exact if_neg (ne_true_of_eq_false hop)

/-- The operators are read longest first. -/
theorem nextToken_of_operator (h : c ∈ operatorMarks) : nextToken rt input c rest =
    match arithmeticOp c with
    | some op => .ok (.op op, rest)
    | none =>
      match rest.head?.bind (twoCharOp c) with
      | some op => .ok (.op op, rest.tail)
      | none =>
        match oneCharOp c with
        | some op => .ok (.op op, rest)
        | none => .error ⟨"unexpected operator char '".toList ++ c :: "' in: ".toList ++ input⟩ := by
  simp only [operatorMarks, mem_cons, not_mem_nil, or_false] at h
  rcases h with rfl | rfl | rfl | rfl | rfl | rfl | rfl | rfl | rfl | rfl | rfl <;> rfl

theorem operator_sound (hmark : c ∈ operatorMarks) (h : nextToken rt input c rest = .ok (t, rest')) :
    ∃ cs, c :: rest = cs ++ rest' ∧ Lexeme rt cs t ∧ Breaks rt t rest' := by
  rw [nextToken_of_operator hmark] at h
  cases harith : arithmeticOp c with
  | some op =>
    simp only [harith] at h
    cases h
    obtain ⟨hsymbol, hmem⟩ := arithmeticOp_symbol harith
    exact ⟨op.symbol, by rw [hsymbol]; rfl, .op op, breaks_arithmetic hmem rest⟩
  | none =>
    simp only [harith] at h
    cases htwo : rest.head?.bind (twoCharOp c) with
    | some op =>
      simp only [htwo] at h
      cases h
      obtain ⟨d, hd, hop⟩ := Option.bind_eq_some_iff.1 htwo
      obtain ⟨hsymbol, hmem⟩ := twoCharOp_symbol hop
      refine ⟨op.symbol, ?_, .op op, breaks_twoChar hmem _⟩
      rw [hsymbol, cons_append, singleton_append, cons_head?_tail hd]
    | none =>
      simp only [htwo] at h
      cases hone : oneCharOp c with
      | none =>
        simp only [hone] at h
        cases h
      | some op =>
        simp only [hone] at h
        cases h
        obtain ⟨hsymbol, hmem, hequals⟩ := oneCharOp_symbol hone
        refine ⟨op.symbol, by rw [hsymbol]; rfl, .op op, breaks_oneChar hmem fun heq => ?_⟩
        rw [heq, Option.bind_some] at htwo
        rw [htwo] at hequals
        cases hequals

theorem nextToken_sound (h : nextToken rt input c rest = .ok (t, rest')) :
    ∃ cs, c :: rest = cs ++ rest' ∧ Lexeme rt cs t ∧ Breaks rt t rest' := by
  by_cases hmark : c ∈ marks
  · by_cases hoperator : c ∈ operatorMarks
    · exact operator_sound hoperator h
    · have hothers : c = '(' ∨ c = ')' ∨ c = ',' ∨ c = '\'' ∨ c = '"' := by
        simp only [marks, mem_append, hoperator, or_false] at hmark
        simpa using hmark
      rw [nextToken] at h
      rcases hothers with rfl | rfl | rfl | hquote
      · cases h
        exact ⟨['('], rfl, .lparen, trivial⟩
      · cases h
        exact ⟨[')'], rfl, .rparen, trivial⟩
      · cases h
        exact ⟨[','], rfl, .comma, trivial⟩
      · rw [if_neg (by rcases hquote with rfl | rfl <;> decide), if_neg (by rcases hquote with rfl | rfl <;> decide),
          if_neg (by rcases hquote with rfl | rfl <;> decide), if_pos hquote] at h
        split at h
        · next s after hscan =>
          cases h
          obtain ⟨body, s', rfl, rfl, hbody⟩ := scanString_sound hscan
          exact ⟨c :: (body ++ [c]), by simp, .str hquote hbody, trivial⟩
        · cases h
  · rw [nextToken_of_notMem hmark] at h
    split_ifs at h with hnumber hident
    · split at h
      · next n hn =>
        cases h
        have hfirst := isNumberChar_of_start hnumber
        rw [takeWhile_cons_of_pos hfirst] at hn
        refine ⟨(c :: rest).takeWhile isNumberChar, takeWhile_append_dropWhile.symm, ?_, dropWhile_head _⟩
        rw [takeWhile_cons_of_pos hfirst]
        refine .num (startsNumber_takeWhile hnumber) (fun d hd => ?_) hn
        rcases mem_cons.1 hd with rfl | hd
        · exact hfirst
        · exact mem_takeWhile_imp hd
      · cases h
    · cases h
      refine ⟨(c :: rest).takeWhile rt.isIdentChar, takeWhile_append_dropWhile.symm, ?_, dropWhile_head _⟩
      rw [takeWhile_cons_of_pos (isIdentChar_of_start hident)]
      exact .ident hident fun d hd => mem_takeWhile_imp hd

theorem twoCharOp_eq_none (h : d ≠ '=') : twoCharOp '<' d = none ∧ twoCharOp '>' d = none ∧ twoCharOp '!' d = none := by
  refine ⟨?_, ?_, ?_⟩ <;> unfold twoCharOp <;> split <;> simp_all

/-- Without an `=` after it the character is an operator of its own. -/
theorem twoCharOp_lone {c : Char} {rest : Text} (hrest : rest.head? ≠ some '=') (hc : c ∈ ['<', '>', '!']) : rest.head?.bind (twoCharOp c) = none := by
  cases rest with
  | nil => rfl
  | cons d rest =>
    obtain ⟨hlt, hgt, hnot⟩ := twoCharOp_eq_none fun heq : d = '=' => hrest (congrArg some heq)
    simp only [mem_cons, not_mem_nil, or_false] at hc
    rcases hc with rfl | rfl | rfl
    · exact hlt
    · exact hgt
    · exact hnot

theorem op_complete (op : Op) (h : Breaks rt (.op op) rest) :
    ∃ c cs, op.symbol = c :: cs ∧ isAsciiWhitespace c = false ∧ nextToken rt input c (cs ++ rest) = .ok (.op op, rest) := by
  cases op with
  | lt =>
    refine ⟨'<', [], rfl, rfl, ?_⟩
    rw [nextToken_of_operator (by decide), nil_append, twoCharOp_lone h (by decide)]
    rfl
  | gt =>
    refine ⟨'>', [], rfl, rfl, ?_⟩
    rw [nextToken_of_operator (by decide), nil_append, twoCharOp_lone h (by decide)]
    rfl
  | not =>
    refine ⟨'!', [], rfl, rfl, ?_⟩
    rw [nextToken_of_operator (by decide), nil_append, twoCharOp_lone h (by decide)]
    rfl
  | _ => exact ⟨_, _, rfl, rfl, rfl⟩

/-- What begins a token is no white space, and the token is read from there. -/
theorem nextToken_complete (hlexeme : Lexeme rt cs t) (hbreaks : Breaks rt t rest) :
    ∃ c cs', cs = c :: cs' ∧ isAsciiWhitespace c = false ∧ nextToken rt input c (cs' ++ rest) = .ok (t, rest) := by
  cases hlexeme with
  | lparen => exact ⟨'(', [], rfl, rfl, rfl⟩
  | rparen => exact ⟨')', [], rfl, rfl, rfl⟩
  | comma => exact ⟨',', [], rfl, rfl, rfl⟩
  | @str quote body s hquote hbody =>
    have hne : quote ≠ '\\' := by rcases hquote with rfl | rfl <;> decide
    have hscan := scanString_complete hne hbody [] rest
    refine ⟨quote, body ++ [quote], rfl, by rcases hquote with rfl | rfl <;> rfl, ?_⟩
    rcases hquote with rfl | rfl <;> simp [nextToken, hscan]
  | op op => exact op_complete op hbreaks
  | @num c cs n hstart hchars hvalue =>
    have hmark := notMem_marks_of_startsNumber hstart
    obtain ⟨htake, hdrop⟩ := takeWhile_run hchars hbreaks
    refine ⟨c, cs, rfl, ?_, ?_⟩
    · rcases startsNumber_cases hstart with hdigit | rfl
      · exact (digit_ascii hdigit).2.2
      · rfl
    · rw [nextToken_of_notMem hmark, if_pos (startsNumber_append hstart rest), ← cons_append, htake, hdrop, hvalue]
  | @ident c cs hstart hchars =>
    have hmark := notMem_marks_of_identStart hstart
    have hall : ∀ d ∈ c :: cs, rt.isIdentChar d = true := by
      intro d hd
      rcases mem_cons.1 hd with rfl | hd
      · exact isIdentChar_of_start hstart
      · exact hchars d hd
    obtain ⟨htake, hdrop⟩ := takeWhile_run hall hbreaks
    refine ⟨c, cs, rfl, ?_, ?_⟩
    · rw [Bool.eq_false_iff]
      intro hspace
      obtain ⟨hascii, halpha, hunderscore⟩ := space_ascii hspace
      exact ne_of_identStart hstart hascii halpha hunderscore rfl
    · rw [nextToken_of_notMem hmark, startsNumber_of_identStart hstart, if_neg Bool.false_ne_true, if_pos hstart, ← cons_append, htake, hdrop]

/-! ## The tokens of a text -/

variable {ts : List Token}

theorem tokenizeLoop_sound {n : ℕ} (h : tokenizeLoop rt input n cs = .ok ts) : Lexes rt cs ts := by
  induction n generalizing cs ts with
  | zero =>
    cases cs with
    | nil =>
      cases h
      exact .nil
    | cons c cs => cases h
  | succ n ih =>
    cases cs with
    | nil =>
      cases h
      exact .nil
    | cons c cs =>
      rw [tokenizeLoop] at h
      split_ifs at h with hspace
      · exact .space hspace (ih h)
      · obtain ⟨⟨t, rest⟩, hnext, h⟩ := bind_eq_ok.1 h
        obtain ⟨ts', hloop, h⟩ := bind_eq_ok.1 h
        cases h
        obtain ⟨lexeme, hcs, hlexeme, hbreaks⟩ := nextToken_sound hnext
        rw [hcs]
        exact .token hlexeme hbreaks (ih hloop)

theorem tokenizeLoop_complete (h : Lexes rt cs ts) (n : ℕ) (hn : cs.length ≤ n) : tokenizeLoop rt input n cs = .ok ts := by
  induction h generalizing n with
  | nil => cases n <;> rfl
  | @space c cs ts hspace h ih =>
    obtain ⟨n, rfl⟩ : ∃ m, n = m + 1 := ⟨n - 1, by rw [length_cons] at hn; omega⟩
    rw [length_cons] at hn
    rw [tokenizeLoop, if_pos hspace]
    exact ih n (by omega)
  | @token cs rest t ts hlexeme hbreaks h ih =>
    obtain ⟨c, cs', rfl, hspace, hnext⟩ := nextToken_complete hlexeme hbreaks
    rw [length_append, length_cons] at hn
    obtain ⟨n, rfl⟩ : ∃ m, n = m + 1 := ⟨n - 1, by omega⟩
    rw [cons_append, tokenizeLoop, if_neg (by rw [hspace]; decide), hnext]
    change (do
      let tokens ← tokenizeLoop rt input n rest
      .ok (t :: tokens)) = _
    rw [ih n (by omega)]
    rfl

/-- A text is read as its tokens, or as none. -/
theorem tokenize_eq_ok : tokenize rt input = .ok ts ↔ Lexes rt input ts :=
  ⟨tokenizeLoop_sound, fun h => tokenizeLoop_complete h _ le_rfl⟩

end FerroDruid.Query.Expression
