import FerroDruid.Query.ExpressionPrint
import FerroDruid.Query.FilterGrammar
/-!
# Expression filters are read exactly when nothing is mended

Every phrase is read, and so is one whose last parentheses are left out. A filter is parsed exactly
unless mending it makes a sentence of a text that is none.
-/

namespace FerroDruid.Query.FilterExpression

open Lib List
open Expression (Text Op Value Row)

variable {rt : Runtime} {row : Row}

/-! ## Every phrase is read -/

/-- The tokens that take fuel. -/
def size (ts : List ExprToken) : ℕ := ts.countP fun t => t ≠ .rParen

variable (ts : List ExprToken)

theorem size_append (us : List ExprToken) : size (ts ++ us) = size ts + size us := countP_append

theorem size_cons {t : ExprToken} (h : t ≠ .rParen) (ts : List ExprToken) : size (t :: ts) = size ts + 1 :=
  countP_cons_of_pos (by simpa using h)

theorem size_closed (k : ℕ) : size (ts ++ List.replicate k ExprToken.rParen) = size ts := by
  simp [size, countP_append, countP_replicate]

theorem size_le_length : size ts ≤ ts.length := countP_le_length

/-- The parser of a level, within `n` parentheses. -/
def parseLevel (rt : Runtime) (row : Row) (n : ℕ) : Level → Parser
  | .chain .or => parseOr rt row (n + 1)
  | .chain .and => parseAnd rt row (parseOr rt row n) n
  | .not => parseNot rt row (parseOr rt row n)
  | .primary => parsePrimary rt row (parseOr rt row n)

theorem parseLevel_chain (c : Chain) (n : ℕ) :
    parseLevel rt row n (.chain c) = parseChain c.op c.combine (parseLevel rt row n c.operand) n := by
  cases c <;> rfl

/-- What follows continues no phrase of the level. -/
def Stops (l : Level) (rest : List ExprToken) : Prop := Apart (comparisons ++ l.continued) rest

variable {c : Chain} {rest : List ExprToken}

theorem Stops.operand (h : Stops (.chain c) rest) : Stops c.operand rest :=
  Apart.mono h (by cases c <;> decide)

theorem Stops.ne (h : Stops (.chain c) rest) : rest.head? ≠ some (.op c.op) :=
  h c.op (by cases c <;> decide)

/-- Nothing but an operator continues a phrase. -/
theorem stops_of_head {l : Level} (h : ∀ op, rest.head? ≠ some (.op op)) : Stops l rest := fun op _ => h op

variable {t : Tree}

/-- What follows an operand is its chain's operator, or stops the chain. -/
theorem stops_tail {lhs : Tree} {us : List ExprToken} (h : Derives (.tail c lhs t) us) (hrest : Stops (.chain c) rest) :
    Stops c.operand (us ++ rest) := by
  cases h with
  | tailNil => exact hrest.operand
  | tailCons hrhs htail =>
    rintro op hop ⟨⟩
    cases c <;> revert hop <;> decide

/-- A phrase is read up to where it stops. -/
def Phrase.Parses (rt : Runtime) (row : Row) (ts : List ExprToken) : Phrase → Prop
  | level l t => ∀ n rest, size ts ≤ n → Stops l rest → parseLevel rt row n l (ts ++ rest) = some (t.eval rt row, rest)
  | tail c lhs t => ∀ n m rest, size ts ≤ n → size ts ≤ m → Stops (.chain c) rest →
    chainLoop c.op c.combine (parseLevel rt row n c.operand) m (lhs.eval rt row) (ts ++ rest) = some (t.eval rt row, rest)

theorem resolveValue_token (o : Operand) (ts : List ExprToken) : resolveValue rt row (o.token :: ts) = some (o.eval rt row, ts) := by
  cases o <;> rfl

theorem parsePrimary_token (parse : Parser) (o : Operand) (ts : List ExprToken) : parsePrimary rt row parse (o.token :: ts) =
    match ts with
    | .op op :: rest =>
      if op ∈ comparisons then
        (resolveValue rt row rest).bind fun (rhs, rest) => some (compareValues rt (o.eval rt row) op rhs, rest)
      else some ((o.eval rt row).isTruthy, ts)
    | _ => some ((o.eval rt row).isTruthy, ts) := by
  cases o <;> rfl

theorem primary_head {ts : List ExprToken} (h : Derives (.level .primary t) ts) : ∀ op, ts.head? ≠ some (.op op) := by
  intro op
  cases h with
  | value o => cases o <;> nofun
  | comparison hop lhs rhs => cases lhs <;> nofun
  | paren h => nofun

theorem parses_of_derives {p : Phrase} {ts : List ExprToken} (h : Derives p ts) : p.Parses rt row ts := by
  induction h with
  | @chain c lhs t ts us hlhs htail ihlhs ihtail =>
    intro n rest hn hrest
    rw [size_append] at hn
    rw [parseLevel_chain, append_assoc, parseChain, ihlhs n (us ++ rest) (by omega) (stops_tail htail hrest)]
    exact ihtail n n rest (by omega) (by omega) hrest
  | @tailNil c t =>
    intro n m rest hn hm hrest
    exact chainLoop_of_ne hrest.ne m _
  | @tailCons c lhs rhs t ts us hrhs htail ihrhs ihtail =>
    intro n m rest hn hm hrest
    rw [size_cons (t := .op c.op) nofun, size_append] at hn hm
    obtain ⟨m, rfl⟩ : ∃ k, m = k + 1 := ⟨m - 1, by omega⟩
    rw [cons_append, append_assoc, chainLoop_of_eq, ihrhs n (us ++ rest) (by omega) (stops_tail htail hrest), Option.bind_some]
    dsimp only
    rw [← c.eval_tree]
    exact ihtail n m rest (by omega) (by omega) hrest
  | @notOne t ts h ih =>
    intro n rest hn hrest
    obtain ⟨u, us, rfl⟩ : ∃ u us, ts = u :: us := by
      cases h <;> exact ⟨_, _, rfl⟩
    have hne : (u :: us ++ rest).head? ≠ some (.op .not) := primary_head h .not
    rw [parseLevel, parseNot, if_neg hne]
    exact ih n rest hn hrest
  | @notOp t ts h ih =>
    intro n rest hn hrest
    rw [size_cons (t := .op .not) nofun] at hn
    have hinner : parsePrimary rt row (parseOr rt row n) (ts ++ rest) = some (t.eval rt row, rest) := ih n rest (by omega) hrest
    rw [parseLevel, parseNot, cons_append, head?_cons, if_pos rfl, tail_cons, hinner]
    rfl
  | value o =>
    intro n rest hn hrest
    rw [parseLevel, singleton_append, parsePrimary_token]
    split
    · next op rest =>
      have hop : op ∉ comparisons := fun hop => hrest op (mem_append_left _ hop) rfl
      rw [if_neg hop]
      rfl
    · rfl
  | comparison hop lhs rhs =>
    intro n rest hn hrest
    rw [parseLevel, cons_append, parsePrimary_token]
    simp only [cons_append, nil_append, if_pos hop, resolveValue_token, Option.bind_some]
    rfl
  | @paren t ts h ih =>
    intro n rest hn hrest
    rw [size_cons (t := .lParen) nofun, size_append] at hn
    obtain ⟨n, rfl⟩ : ∃ k, n = k + 1 := ⟨n - 1, by omega⟩
    have hinner : parseOr rt row (n + 1) (ts ++ .rParen :: rest) = some (t.eval rt row, .rParen :: rest) :=
      ih n _ (by omega) (stops_of_head nofun)
    rw [parseLevel, cons_append, append_assoc, singleton_append, parsePrimary, hinner]
    rfl

/-! ## Parentheses left open -/

/-- What is left without the last parenthesis of what was to be read. -/
def Cut (rest rest' : List ExprToken) : Prop := rest = rest' ++ [ExprToken.rParen] ∨ rest = [] ∧ rest' = []

/-- A parser reads the same when a parenthesis at the end is left out. -/
def Trims (p : Parser) : Prop := ∀ ts b rest, p (ts ++ [ExprToken.rParen]) = some (b, rest) → ∃ rest', Cut rest rest' ∧ p ts = some (b, rest')

variable {op : Op}

theorem head_close {ts : List ExprToken} : (ts ++ [ExprToken.rParen]).head? = some (.op op) ↔ ts.head? = some (.op op) := by
  cases ts <;> simp

theorem resolveValue_trims {ts : List ExprToken} {v : Value} (h : resolveValue rt row (ts ++ [ExprToken.rParen]) = some (v, rest)) :
    ∃ rest', rest = rest' ++ [ExprToken.rParen] ∧ resolveValue rt row ts = some (v, rest') := by
  obtain ⟨o, hts, rfl⟩ := resolveValue_sound h
  cases ts with
  | nil => cases o <;> cases hts
  | cons t ts =>
    obtain ⟨rfl, rfl⟩ := List.cons.inj hts
    exact ⟨ts, rfl, resolveValue_token o ts⟩

theorem parsePrimary_trims {parse : Parser} (hor : Trims parse) : Trims (parsePrimary rt row parse) := by
  intro ts b rest h
  cases ts with
  | nil => cases h
  | cons t ts =>
    rw [cons_append] at h
    by_cases ht : t = .lParen
    · subst ht
      rw [parsePrimary] at h ⊢
      obtain ⟨⟨b', rest₁⟩, hinner, h⟩ := Option.bind_eq_some_iff.1 h
      obtain ⟨rest', hcut, htrim⟩ := hor _ _ _ hinner
      rw [htrim, Option.bind_eq_bind, Option.bind_some]
      dsimp only at h ⊢
      rcases hcut with rfl | ⟨rfl, rfl⟩
      · cases rest' with
        | nil =>
          cases h
          exact ⟨[], .inr ⟨rfl, rfl⟩, rfl⟩
        | cons u us =>
          rw [cons_append, head?_cons, tail_cons] at h
          rw [head?_cons, tail_cons]
          split_ifs at h ⊢
          · cases h
            exact ⟨us, .inl rfl, rfl⟩
          · cases h
            exact ⟨u :: us, .inl rfl, rfl⟩
      · cases h
        exact ⟨[], .inr ⟨rfl, rfl⟩, rfl⟩
    · obtain ⟨o, rfl⟩ : ∃ o : Operand, t = o.token := by
        cases t with
        | ident s => exact ⟨.name s, rfl⟩
        | number n => exact ⟨.number n, rfl⟩
        | stringLit s => exact ⟨.text s, rfl⟩
        | lParen => exact absurd rfl ht
        | _ => cases h
      rw [parsePrimary_token] at h ⊢
      cases ts with
      | nil =>
        cases h
        exact ⟨[], .inl rfl, rfl⟩
      | cons u us =>
        cases u with
        | op op =>
          dsimp only [cons_append] at h ⊢
          split_ifs at h ⊢
          · obtain ⟨⟨rhs, rest₁⟩, hrhs, h⟩ := Option.bind_eq_some_iff.1 h
            cases h
            obtain ⟨rest', rfl, htrim⟩ := resolveValue_trims hrhs
            exact ⟨rest', .inl rfl, by rw [htrim]; rfl⟩
          · cases h
            exact ⟨.op op :: us, .inl rfl, rfl⟩
        | _ =>
          cases h
          exact ⟨_ :: us, .inl rfl, rfl⟩

theorem parseNot_trims {parse : Parser} (hor : Trims parse) : Trims (parseNot rt row parse) := by
  intro ts b rest h
  unfold parseNot at h ⊢
  split_ifs at h with hnot
  · rw [if_pos (head_close.1 hnot)]
    obtain ⟨us, rfl⟩ : ∃ us, ts = .op .not :: us := ⟨ts.tail, (cons_head?_tail (head_close.1 hnot)).symm⟩
    obtain ⟨⟨b', rest₁⟩, hinner, h⟩ := Option.bind_eq_some_iff.1 h
    cases h
    obtain ⟨rest', hcut, htrim⟩ := parsePrimary_trims hor _ _ _ hinner
    exact ⟨rest', hcut, by rw [tail_cons, htrim]; rfl⟩
  · rw [if_neg fun heq => hnot (head_close.2 heq)]
    exact parsePrimary_trims hor _ _ _ h

variable {combine : Bool → Bool → Bool} {operand : Parser}

theorem chainLoop_nil (n : ℕ) (b : Bool) : chainLoop op combine operand n b [] = some (b, []) :=
  chainLoop_of_ne (by simp) n b

theorem chainLoop_trims (hoperand : Trims operand) (n : ℕ) (b : Bool) :
    Trims (chainLoop op combine operand n b) := by
  intro ts b' rest h
  induction n generalizing b ts with
  | zero =>
    rw [chainLoop] at h
    split_ifs at h with hop
    cases h
    exact ⟨ts, .inl rfl, chainLoop_of_ne (fun heq => hop (head_close.2 heq)) 0 _⟩
  | succ n ih =>
    by_cases hop : ts.head? = some (.op op)
    · obtain ⟨us, rfl⟩ : ∃ us, ts = .op op :: us := ⟨ts.tail, (cons_head?_tail hop).symm⟩
      rw [cons_append, chainLoop_of_eq] at h
      rw [chainLoop_of_eq]
      obtain ⟨⟨rhs, rest₁⟩, hrhs, h⟩ := Option.bind_eq_some_iff.1 h
      obtain ⟨rest', hcut, htrim⟩ := hoperand _ _ _ hrhs
      rw [htrim, Option.bind_some]
      rcases hcut with rfl | ⟨rfl, rfl⟩
      · exact ih _ _ h
      · -- the operand has read the parenthesis
        dsimp only at h ⊢
        rw [chainLoop_nil] at h ⊢
        cases h
        exact ⟨[], .inr ⟨rfl, rfl⟩, rfl⟩
    · rw [chainLoop_of_ne fun heq => hop (head_close.1 heq)] at h
      cases h
      exact ⟨ts, .inl rfl, chainLoop_of_ne hop _ _⟩

theorem parseChain_trims (hoperand : Trims operand) (n : ℕ) :
    Trims (parseChain op combine operand n) := by
  intro ts b rest h
  obtain ⟨⟨b', rest₁⟩, hlhs, h⟩ := Option.bind_eq_some_iff.1 h
  obtain ⟨rest', hcut, htrim⟩ := hoperand _ _ _ hlhs
  rw [parseChain, htrim, Option.bind_eq_bind, Option.bind_some]
  rcases hcut with rfl | ⟨rfl, rfl⟩
  · exact chainLoop_trims hoperand n b' _ _ _ h
  · dsimp only at h ⊢
    rw [chainLoop_nil] at h ⊢
    cases h
    exact ⟨[], .inr ⟨rfl, rfl⟩, rfl⟩

theorem parseOr_trims (rt : Runtime) (row : Row) (n : ℕ) : Trims (parseOr rt row n) := by
  induction n with
  | zero =>
    intro ts b rest h
    cases h
  | succ n ih => exact parseChain_trims (parseChain_trims (parseNot_trims ih) n) n

/-- A phrase is read, also when its last parentheses are left out. -/
theorem parseOr_open {ts : List ExprToken} {k : ℕ} (h : Derives (.level (.chain .or) t) (ts ++ List.replicate k ExprToken.rParen)) :
    parseOr rt row (ts.length + 1) ts = some (t.eval rt row, []) := by
  have hwhole : parseOr rt row (ts.length + 1) (ts ++ List.replicate k ExprToken.rParen ++ []) = some (t.eval rt row, []) := by
    refine parses_of_derives h ts.length [] ?_ (stops_of_head nofun)
    rw [size_closed]
    exact size_le_length ts
  rw [append_nil] at hwhole
  clear h
  generalize ts.length + 1 = n at hwhole ⊢
  induction k with
  | zero => simpa using hwhole
  | succ k ih =>
    rw [replicate_succ', ← append_assoc] at hwhole
    obtain ⟨rest', hcut, htrim⟩ := parseOr_trims rt row n _ _ _ hwhole
    have hnil : rest' = [] := by
      rcases hcut with heq | ⟨-, heq⟩
      · simp at heq
      · exact heq
    rw [hnil] at htrim
    exact ih htrim

/-! ## Texts and their meaning -/

/-- The whole of a text is a phrase, and this its tree. -/
def Sentence (rt : Runtime) (text : Text) (t : Tree) : Prop := ∃ ts, Lexes rt text ts ∧ Derives (.level (.chain .or) t) ts

/-- What a text means at every row: an empty one constrains nothing. -/
def Means (rt : Runtime) (text : Text) (meaning : Row → Bool) : Prop :=
  (text.all isWhitespace = true ∧ meaning = fun _ => true) ∨ ∃ t, Sentence rt text t ∧ meaning = fun row => t.eval rt row

/-- What is accepted is what means something, and it is evaluated to that. -/
structure ParsedExactly (rt : Runtime) (text : Text) : Prop where
  accepts : validateExpression rt text = .ok () ↔ ∃ meaning, Means rt text meaning
  closes : validateExpression rt text = .ok () → ∀ row, attempt rt text row ≠ none
  evaluates : validateExpression rt text = .ok () → ∀ meaning, Means rt text meaning → ∀ row, evaluateExpression rt text row = meaning row

/-- The text with what the tokenizer and the parser make up for: what is no token blanked, and the literal and the
parentheses that are open at the end closed. -/
def Mended (rt : Runtime) (text mended : Text) : Prop := ∃ body ts k, Mends rt text body ts ∧ mended = body ++ List.replicate k ')'

variable {text : Text}

theorem lexes_of_blank (h : text.all isWhitespace = true) : Lexes rt text [] := by
  induction text with
  | nil => exact .nil
  | cons c cs ih =>
    rw [all_cons, Bool.and_eq_true] at h
    exact .space h.1 (ih h.2)

theorem not_derives_nil (rt : Runtime) (row : Row) {k : ℕ} (h : Derives (.level (.chain .or) t) ([] ++ List.replicate k ExprToken.rParen)) : False := by
  have hparse : parseOr rt row 1 [] = some (t.eval rt row, []) := parseOr_open h
  cases hparse

/-- What is mended to a phrase is evaluated to what that means. -/
theorem attempt_of_mended {mended : Text} (h : Mended rt text mended) (ht : Sentence rt mended t) (row : Row) :
    attempt rt text row = some (t.eval rt row) := by
  obtain ⟨body, ts, k, hmends, rfl⟩ := h
  obtain ⟨ts', hlexes, hphrase⟩ := ht
  obtain rfl := (hmends.lexes.close k).unique hlexes
  have htokens := tokenizeExpr_eq_some.2 ⟨body, hmends⟩
  have hblank : ¬ text.all isWhitespace = true := by
    intro hblank
    obtain rfl : ts = [] := by
      rw [(lexes_of_blank hblank).tokenizeExpr] at htokens
      exact (Option.some.inj htokens).symm
    exact not_derives_nil rt row hphrase
  rw [attempt, if_neg hblank, htokens, Option.bind_eq_bind, Option.bind_some, parseOr_open hphrase]

theorem Sentence.mended (h : Sentence rt text t) : Mended rt text text := by
  obtain ⟨ts, hlexes, -⟩ := h
  exact ⟨text, ts, 0, hlexes.mends, (append_nil _).symm⟩

theorem attempt_of_means {meaning : Row → Bool} (h : Means rt text meaning) (row : Row) :
    attempt rt text row = some (meaning row) := by
  rcases h with ⟨hblank, rfl⟩ | ⟨t, ht, rfl⟩
  · rw [attempt, if_pos hblank]
  · exact attempt_of_mended ht.mended ht row

/-- What is accepted is blank, or is mended to a phrase. -/
theorem mended_of_attempt {b : Bool} (h : attempt rt text row = some b) :
    text.all isWhitespace = true ∨ ∃ mended t, Mended rt text mended ∧ Sentence rt mended t := by
  rw [attempt] at h
  split_ifs at h with hblank
  · exact .inl hblank
  · right
    obtain ⟨ts, htokens, h⟩ := Option.bind_eq_some_iff.1 h
    obtain ⟨body, hmends⟩ := tokenizeExpr_eq_some.1 htokens
    split at h
    · next v hparse =>
      obtain ⟨⟨us, t, k, hts, hphrase, -, -⟩, -⟩ := parseOr_sound rt row _ _ _ _ hparse
      rw [append_nil] at hts
      subst hts
      exact ⟨body ++ List.replicate k ')', t, ⟨body, ts, k, hmends, rfl⟩, _, hmends.lexes.close k, hphrase⟩
    · cases h

/-- A text is parsed exactly unless it is no sentence and mending makes it one. -/
theorem parsedExactly_iff (rt : Runtime) (text : Text) :
    ParsedExactly rt text ↔ ∀ mended t, Mended rt text mended → Sentence rt mended t → mended = text := by
  constructor
  · intro hexact mended t hmended ht
    obtain ⟨meaning, hmeans⟩ := hexact.accepts.1 (validateExpression_eq_ok.2 ⟨_, attempt_of_mended hmended ht emptyRow⟩)
    obtain ⟨body, ts, k, hmends, rfl⟩ := hmended
    obtain ⟨ts', hlexes, hphrase⟩ := ht
    obtain rfl := (hmends.lexes.close k).unique hlexes
    obtain ⟨us, hwords, hopen⟩ : ∃ us, Lexes rt text us ∧ (us = [] ∨ ∃ t', Derives (.level (.chain .or) t') us) := by
      rcases hmeans with ⟨hblank, -⟩ | ⟨t', ⟨us, hwords, ht'⟩, -⟩
      · exact ⟨[], lexes_of_blank hblank, .inl rfl⟩
      · exact ⟨us, hwords, .inr ⟨t', ht'⟩⟩
    -- the text's own words are those it was mended from
    obtain rfl := hwords.mends_self hmends
    obtain rfl := hwords.unique hmends.lexes
    rcases hopen with rfl | ⟨t', ht'⟩
    · exact (not_derives_nil rt emptyRow hphrase).elim
    · rw [ht'.closed hphrase, replicate_zero, append_nil]
  · intro hmended
    have hmeans : ∀ row b, attempt rt text row = some b → ∃ meaning, Means rt text meaning := by
      intro row b h
      rcases mended_of_attempt h with hblank | ⟨mended, t, hm, ht⟩
      · exact ⟨_, .inl ⟨hblank, rfl⟩⟩
      · obtain rfl := hmended mended t hm ht
        exact ⟨_, .inr ⟨t, ht, rfl⟩⟩
    have haccepts : validateExpression rt text = .ok () ↔ ∃ meaning, Means rt text meaning := by
      rw [validateExpression_eq_ok]
      exact ⟨fun ⟨b, h⟩ => hmeans _ b h, fun ⟨meaning, h⟩ => ⟨_, attempt_of_means h emptyRow⟩⟩
    refine ⟨haccepts, fun hvalid row => ?_, fun _ meaning h row => ?_⟩
    · obtain ⟨meaning, h⟩ := haccepts.1 hvalid
      rw [attempt_of_means h row]
      nofun
    · rw [evaluateExpression, attempt_of_means h row]
      rfl

theorem not_alphanumeric_of_space {c : Char} (h : isWhitespace c = true) : (c.isAlpha || c.isDigit) = false := by
  rw [Bool.eq_false_iff]
  intro halnum
  have hascii : c.toNat < 128 := by
    rw [Bool.or_eq_true] at halnum
    rcases halnum with halpha | hdigit
    · unfold Char.isAlpha Char.isUpper Char.isLower at halpha
      simp only [Bool.or_eq_true, Bool.and_eq_true, decide_eq_true_eq] at halpha
      rcases halpha with ⟨-, hle⟩ | ⟨-, hle⟩
      · have hnat : c.toNat ≤ 90 := hle
        omega
      · have hnat : c.toNat ≤ 122 := hle
        omega
    · exact (Expression.digit_ascii hdigit).1
  have hall : ∀ n < 128, isWhitespace (Char.ofNat n) = true → ((Char.ofNat n).isAlpha || (Char.ofNat n).isDigit) = false := by decide
  have hchar := hall c.toNat hascii
  rw [Char.ofNat_toNat] at hchar
  rw [hchar h] at halnum
  cases halnum

/-- ASCII text, and whole numbers as text. -/
def Runtime.ascii : Runtime where
  toRuntime := .ascii
  floatText n := Expression.Runtime.ascii.display (Value.numToJson n)
  space_alphanumeric _ h := not_alphanumeric_of_space h

/-- A filter that opens a parenthesis and closes none. -/
def openParenthesis : Text := "(a".toList

theorem openParenthesis_accepted : validateExpression .ascii openParenthesis = .ok () ∧ ¬ ParsedExactly .ascii openParenthesis := by
  have hvalid : validateExpression .ascii openParenthesis = .ok () := rfl
  refine ⟨hvalid, fun hexact => ?_⟩
  obtain ⟨meaning, ⟨hblank, -⟩ | ⟨t, ⟨ts, hwords, hphrase⟩, -⟩⟩ := hexact.accepts.1 hvalid
  · revert hblank
    decide
  · have hname : Lexes .ascii ['a'] [.ident ['a']] := @Lexes.token _ ['a'] [] _ _ (.ident (by decide) (by decide)) nofun .nil
    have hread : Lexes .ascii openParenthesis [.lParen, .ident ['a']] := @Lexes.token _ ['('] ['a'] _ _ .lParen trivial hname
    obtain rfl := hwords.unique hread
    have hbalanced := hphrase.balanced
    revert hbalanced
    decide

end FerroDruid.Query.FilterExpression
